import MovingAsymptotes.Proofs.Linear.Vector
import MovingAsymptotes.Proofs.Reduction.Group
import MovingAsymptotes.Reduction.Exchange

/-!
# Every interleaving of an exchange

A rank that has finished `k` reductions has seen the barrier open `2 * k` times. Between two openings
every rank is on one side of the barrier or the other, so the number of openings tells in which
reduction all of them are, and whether slots are being written or read. While they are read, each slot
holds the buffer of the reduction at hand: the rank that owns it cannot write it again before the barrier
has opened once more, and for that all ranks have to arrive.

`Machine.InOrder` puts this into an invariant, with a lemma for the start and one for a move. It follows
that every reply answers the buffers of its own reduction, and that no group is ever stuck.
-/

namespace MovingAsymptotes.Exchange

variable {α : Type} {r rounds : Nat}

section Entries

variable {β : Type} {n : Nat}

def replaced (v : Vector β n) (i : Fin n) (b : β) : Vector β n := v.set i b i.isLt

lemma entry_replaced (v : Vector β n) (i j : Fin n) (b : β) :
    (replaced v i b)[j] = if i = j then b else v[j] := by
  change (v.set i b)[j.val] = _
  rw [Vector.getElem_set]
  exact if_congr Fin.val_inj rfl rfl

lemma entry_replaced_self (v : Vector β n) (i : Fin n) (b : β) : (replaced v i b)[i] = b :=
  (entry_replaced v i i b).trans (if_pos rfl)

lemma entry_replaced_ne (v : Vector β n) {i j : Fin n} (b : β) (h : i ≠ j) :
    (replaced v i b)[j] = v[j] :=
  (entry_replaced v i j b).trans (if_neg h)

end Entries

section Answers

variable [Scalar α] {op : Reduction} {buffers : Fin (r + 1) → Array α} {i : Fin (r + 1)}

inductive Answers (op : Reduction) (buffers : Fin (r + 1) → Array α) (i : Fin (r + 1)) : Reply α → Prop
  | combined : (∀ j, (buffers j).size = (buffers i).size) →
    Answers op buffers i
      { buffer := (List.ofFn fun j : Fin r => buffers j.succ).foldl (Array.zipWith op.apply) (buffers 0)
        fault := none }
  | refused (j : Fin (r + 1)) : (buffers j).size ≠ (buffers i).size →
    (∀ l < j, (buffers l).size = (buffers i).size) →
    Answers op buffers i
      { buffer := buffers i
        fault := some (.lengthMismatch j (buffers j).size (buffers i).size) }

lemma Answers.fault_eq_none_iff {reply : Reply α} (h : Answers op buffers i reply) :
    reply.fault = none ↔ ∀ j l, (buffers j).size = (buffers l).size := by
  cases h with
  | combined hsize => exact iff_of_true rfl fun j l => (hsize j).trans (hsize l).symm
  | refused j hj _ => exact iff_of_false nofun fun h => hj (h j i)

lemma toArray_foldl_merge {k : Nat} (op : Reduction) (v : Vector α k) (l : List (Vector α k)) :
    (l.foldl op.merge v).toArray = (l.map Vector.toArray).foldl (Array.zipWith op.apply) v.toArray := by
  induction l generalizing v with
  | nil => rfl
  | cons u l ih =>
    rw [List.foldl_cons, ih]
    rfl

lemma toArray_combined {k : Nat} (op : Reduction) (h : ∀ j, (buffers j).size = k) :
    (op.combined fun j => ⟨buffers j, h j⟩).toArray =
      (List.ofFn fun j : Fin r => buffers j.succ).foldl (Array.zipWith op.apply) (buffers 0) := by
  unfold Reduction.combined
  rw [toArray_foldl_merge, List.map_ofFn]
  rfl

/-- The reply to a rank that finds the buffers in the slots. -/
theorem reply_answers {call : Call α} {slots : Vector (Array α) (r + 1)} (hown : call.buffer = buffers i)
    (hslots : ∀ j : Fin (r + 1), slots[j] = buffers j) :
    Answers call.op buffers i (Machine.reply call slots) := by
  obtain ⟨op, buffer⟩ := call
  obtain rfl : buffer = buffers i := hown
  have others : slots.toList.tail = List.ofFn fun j : Fin r => buffers j.succ := by
    rw [toList_eq_map, List.finRange_succ, List.map_cons, List.tail_cons, List.map_map, List.ofFn_eq_map]
    exact congrArg (List.map · _) (funext fun j => hslots j.succ)
  have zeroth : slots[first r] = buffers 0 := hslots 0
  unfold Machine.reply
  rw [others, zeroth]
  by_cases h : ∀ j, (buffers j).size = (buffers i).size
  · rw [op.combine_of_sizes h]
    dsimp only
    rw [toArray_combined op h]
    exact .combined h
  · obtain ⟨j, hj, lower⟩ := Reduction.exists_first h
    rw [op.combine_refused j hj lower]
    exact .refused j hj lower

end Answers

section Barrier

/-- The phase is that of a rank that the barrier holds back until it opens once more. -/
def Phase.Waits (opened : Nat) : Phase α → Prop
  | .gathering seen => seen = opened
  | .leaving _ seen => seen = opened
  | _ => False

instance (opened : Nat) (phase : Phase α) : Decidable (phase.Waits opened) :=
  match phase with
  | .gathering seen => inferInstanceAs (Decidable (seen = opened))
  | .leaving _ seen => inferInstanceAs (Decidable (seen = opened))
  | .ready => inferInstanceAs (Decidable False)
  | .published => inferInstanceAs (Decidable False)
  | .combined _ => inferInstanceAs (Decidable False)

lemma Phase.Waits.unique {phase : Phase α} {b c : Nat} (hb : phase.Waits b) (hc : phase.Waits c) :
    b = c := by
  cases phase with
  | gathering seen => exact hb.symm.trans hc
  | leaving result seen => exact hb.symm.trans hc
  | ready => exact hb.elim
  | published => exact hb.elim
  | combined result => exact hb.elim

namespace Machine

variable {ranks : Vector (Rank α) (r + 1)} {rank : Rank α} {i j : Fin (r + 1)} {opened : Nat}

/-- The ranks that the barrier holds back. -/
def waiting (ranks : Vector (Rank α) (r + 1)) (opened : Nat) : Finset (Fin (r + 1)) :=
  {i | ranks[i].phase.Waits opened}

lemma mem_waiting : i ∈ waiting ranks opened ↔ ranks[i].phase.Waits opened :=
  Finset.mem_filter_univ i

lemma mem_waiting_replaced : j ∈ waiting (replaced ranks i rank) opened ↔
    if i = j then rank.phase.Waits opened else j ∈ waiting ranks opened := by
  simp only [mem_waiting, entry_replaced]
  split <;> rfl

/-- A rank that is not held back before a move or after it does not count. -/
lemma waiting_replaced_of_not (hi : ¬ ranks[i].phase.Waits opened) (hrank : ¬ rank.phase.Waits opened) :
    waiting (replaced ranks i rank) opened = waiting ranks opened := by
  ext j
  rw [mem_waiting_replaced]
  split
  · next h =>
    subst h
    exact iff_of_false hrank fun hj => hi (mem_waiting.1 hj)
  · exact Iff.rfl

/-- A rank that a move brings to the barrier counts once more. -/
lemma card_waiting_replaced (hi : ¬ ranks[i].phase.Waits opened) (hrank : rank.phase.Waits opened) :
    (waiting (replaced ranks i rank) opened).card = (waiting ranks opened).card + 1 := by
  have hnot : i ∉ waiting ranks opened := fun h => hi (mem_waiting.1 h)
  rw [← Finset.card_insert_of_notMem hnot]
  congr 1
  ext j
  rw [mem_waiting_replaced, Finset.mem_insert]
  split
  · next h => exact iff_of_true hrank (Or.inl h.symm)
  · next h => exact (or_iff_right (Ne.symm h)).symm

end Machine

end Barrier

section Moves

variable [Scalar α]

namespace Machine

/-- A move of rank `i`, phase by phase. -/
inductive Move (m : Machine α r) (i : Fin (r + 1)) : Machine α r → Prop
  | publish {call later} : m.ranks[i].calls = call :: later → m.ranks[i].phase = .ready →
    Move m i { m.setPhase i .published with slots := replaced m.slots i call.buffer }
  | gather {call later} : m.ranks[i].calls = call :: later → m.ranks[i].phase = .published →
    Move m i { m.setPhase i (.gathering m.barrier.opened) with barrier := m.barrier.arrive (r + 1) }
  | combine {call later seen} : m.ranks[i].calls = call :: later →
    m.ranks[i].phase = .gathering seen → m.barrier.opened ≠ seen →
    Move m i (m.setPhase i (.combined (reply call m.slots)))
  | leave {call later result} : m.ranks[i].calls = call :: later → m.ranks[i].phase = .combined result →
    Move m i
      { m.setPhase i (.leaving result m.barrier.opened) with barrier := m.barrier.arrive (r + 1) }
  | finish {call later result seen} : m.ranks[i].calls = call :: later →
    m.ranks[i].phase = .leaving result seen → m.barrier.opened ≠ seen →
    Move m i { m with
      ranks := replaced m.ranks i
        { calls := later, phase := .ready, replies := m.ranks[i].replies ++ [result] } }

theorem advance?_eq_some_iff {m m' : Machine α r} {i : Fin (r + 1)} :
    m.advance? i = some m' ↔ Move m i m' := by
  constructor
  · intro h
    unfold advance? at h
    dsimp only at h
    split at h
    · cases h
    · next call later hcalls =>
      split at h
      · next hp =>
        cases h
        exact .publish hcalls hp
      · next hp =>
        cases h
        exact .gather hcalls hp
      · next seen hp =>
        split at h
        · cases h
        · next hseen =>
          cases h
          exact .combine hcalls hp hseen
      · next result hp =>
        cases h
        exact .leave hcalls hp
      · next result seen hp =>
        split at h
        · cases h
        · next hseen =>
          cases h
          exact .finish hcalls hp hseen
  · intro h
    unfold advance?
    cases h with
    | publish hcalls hp => simp only [hcalls, hp, replaced]
    | gather hcalls hp => simp only [hcalls, hp]
    | combine hcalls hp hseen => simp only [hcalls, hp, if_neg hseen]
    | leave hcalls hp => simp only [hcalls, hp]
    | finish hcalls hp hseen => simp only [hcalls, hp, if_neg hseen, replaced]

end Machine

end Moves

section Invariant

variable [Scalar α] (calls : Fin (r + 1) → Fin rounds → Call α)

/-- A reply to rank `i` answers the buffers that all ranks pass to their reduction `k`. -/
def Answered (k : Fin rounds) (i : Fin (r + 1)) (reply : Reply α) : Prop :=
  Answers (calls i k).op (fun j => (calls j k).buffer) i reply

/-- The phase of rank `i` in reduction `k`, by the number of times that the barrier has opened. -/
inductive Stands (i : Fin (r + 1)) (opened : Nat) (slot : Array α) (k : Nat) : Phase α → Prop
  | ready : opened = 2 * k → Stands i opened slot k .ready
  | published (hk : k < rounds) : opened = 2 * k → slot = (calls i ⟨k, hk⟩).buffer →
    Stands i opened slot k .published
  | gathering (hk : k < rounds) : opened = 2 * k ∨ opened = 2 * k + 1 →
    slot = (calls i ⟨k, hk⟩).buffer → Stands i opened slot k (.gathering (2 * k))
  | combined (hk : k < rounds) {reply : Reply α} : opened = 2 * k + 1 →
    slot = (calls i ⟨k, hk⟩).buffer → Answered calls ⟨k, hk⟩ i reply →
    Stands i opened slot k (.combined reply)
  | leaving (hk : k < rounds) {reply : Reply α} : opened = 2 * k + 1 ∨ opened = 2 * k + 2 →
    slot = (calls i ⟨k, hk⟩).buffer → Answered calls ⟨k, hk⟩ i reply →
    Stands i opened slot k (.leaving reply (2 * k + 1))

/-- A rank that has finished its first reductions, each with a reply that answers it. -/
structure Rank.InOrder (i : Fin (r + 1)) (opened : Nat) (slot : Array α) (rank : Rank α) : Prop where
  ahead : rank.calls = (List.ofFn (calls i)).drop rank.replies.length
  answered : ∀ k (hk : k < rank.replies.length), ∃ h : k < rounds, Answered calls ⟨k, h⟩ i rank.replies[k]
  stands : Stands calls i opened slot rank.replies.length rank.phase

/-- What holds of a group whose ranks have the given calls ahead of them at the start. -/
structure Machine.InOrder (m : Machine α r) : Prop where
  ranks : ∀ i : Fin (r + 1), m.ranks[i].InOrder calls i m.barrier.opened m.slots[i]
  arrived : m.barrier.arrived = (waiting m.ranks m.barrier.opened).card
  arrived_le : m.barrier.arrived ≤ r

variable {calls} {i : Fin (r + 1)} {opened : Nat}

lemma Stands.opens {slot : Array α} {k : Nat} {phase : Phase α}
    (h : Stands calls i opened slot k phase) (hw : phase.Waits opened) :
    Stands calls i (opened + 1) slot k phase := by
  cases h with
  | ready => exact hw.elim
  | published => exact hw.elim
  | combined => exact hw.elim
  | gathering hk _ hslot =>
    obtain rfl : 2 * k = opened := hw
    exact .gathering hk (Or.inr rfl) hslot
  | leaving hk _ hslot ha =>
    obtain rfl : 2 * k + 1 = opened := hw
    exact .leaving hk (Or.inr rfl) hslot ha

/-- While slots are read, a rank is in the reduction that the openings tell, and its slot holds the buffer
of that reduction. -/
lemma Stands.slot_eq {slot : Array α} {k l : Nat} {phase : Phase α}
    (h : Stands calls i (2 * l + 1) slot k phase) :
    ∃ hk : l < rounds, slot = (calls i ⟨l, hk⟩).buffer := by
  cases h with
  | ready ho => omega
  | published hk ho => omega
  | gathering hk ho hslot =>
    obtain rfl : k = l := by omega
    exact ⟨hk, hslot⟩
  | combined hk ho hslot =>
    obtain rfl : k = l := by omega
    exact ⟨hk, hslot⟩
  | leaving hk ho hslot =>
    obtain rfl : k = l := by omega
    exact ⟨hk, hslot⟩

lemma Rank.InOrder.head {rank : Rank α} {slot : Array α} {call : Call α} {later : List (Call α)}
    (h : rank.InOrder calls i opened slot) (hc : rank.calls = call :: later) :
    ∃ hk : rank.replies.length < rounds, call = calls i ⟨rank.replies.length, hk⟩ ∧
      later = (List.ofFn (calls i)).drop (rank.replies.length + 1) := by
  rw [h.ahead] at hc
  have hk : rank.replies.length < (List.ofFn (calls i)).length := by
    by_contra hle
    rw [List.drop_eq_nil_of_le (not_lt.1 hle)] at hc
    cases hc
  rw [List.drop_eq_getElem_cons hk, List.cons.injEq, List.getElem_ofFn] at hc
  rw [List.length_ofFn] at hk
  exact ⟨hk, hc.1.symm, hc.2.symm⟩

lemma Rank.InOrder.finish {rank : Rank α} {slot : Array α} {call : Call α} {later : List (Call α)}
    {result : Reply α} (h : rank.InOrder calls i opened slot) (hc : rank.calls = call :: later)
    (ho : opened = 2 * (rank.replies.length + 1))
    (ha : ∀ hk, Answered calls ⟨rank.replies.length, hk⟩ i result) :
    Rank.InOrder calls i opened slot
      { calls := later, phase := .ready, replies := rank.replies ++ [result] } := by
  obtain ⟨hk, -, hlater⟩ := h.head hc
  have length : (rank.replies ++ [result]).length = rank.replies.length + 1 := by simp
  refine { ahead := ?_, answered := fun k hlt => ?_, stands := ?_ }
  · rw [length]
    exact hlater
  · rcases Nat.lt_or_ge k rank.replies.length with hk' | hk'
    · rw [List.getElem_append_left hk']
      exact h.answered k hk'
    · obtain rfl : k = rank.replies.length := by
        dsimp only at hlt
        omega
      rw [List.getElem_concat_length rfl]
      exact ⟨hk, ha hk⟩
  · rw [length]
    exact .ready ho

namespace Machine

variable {m m' : Machine α r} {phase : Phase α}

/-- A rank arrives at the barrier, which opens if it is the last one. -/
lemma InOrder.arrive (h : m.InOrder calls) (hi : ¬ m.ranks[i].phase.Waits m.barrier.opened)
    (hw : phase.Waits m.barrier.opened)
    (hs : Stands calls i m.barrier.opened m.slots[i] m.ranks[i].replies.length phase) :
    InOrder calls { m.setPhase i phase with barrier := m.barrier.arrive (r + 1) } := by
  let ranks := replaced m.ranks i { m.ranks[i] with phase }
  have inOrder : ∀ j : Fin (r + 1), ranks[j].InOrder calls j m.barrier.opened m.slots[j] := by
    intro j
    by_cases hj : i = j
    · subst hj
      rw [entry_replaced_self]
      exact { h.ranks i with stands := hs }
    · rw [entry_replaced_ne _ _ hj]
      exact h.ranks j
  have count : (waiting ranks m.barrier.opened).card = m.barrier.arrived + 1 := by
    rw [card_waiting_replaced hi hw, h.arrived]
  have hle := h.arrived_le
  unfold Barrier.arrive
  split
  · next hlast =>
    -- All ranks are held back, so all of them see the barrier open.
    have full : waiting ranks m.barrier.opened = Finset.univ := by
      rw [← Finset.card_eq_iff_eq_univ, count, hlast, Fintype.card_fin]
    have held : ∀ j : Fin (r + 1), ranks[j].phase.Waits m.barrier.opened :=
      fun j => mem_waiting.1 (full ▸ Finset.mem_univ j)
    have none : waiting ranks (m.barrier.opened + 1) = ∅ := by
      refine Finset.filter_eq_empty_iff.2 fun j _ hj => ?_
      exact absurd ((held j).unique hj) (Nat.succ_ne_self _).symm
    refine { ranks := fun j => ?_, arrived := ?_, arrived_le := Nat.zero_le r }
    · exact { inOrder j with stands := (inOrder j).stands.opens (held j) }
    · exact (Finset.card_eq_zero.2 none).symm
  · next hmore =>
    refine { ranks := inOrder, arrived := count.symm, arrived_le := ?_ }
    change m.barrier.arrived + 1 ≤ r
    omega

/-- A rank moves on without the barrier. -/
lemma InOrder.proceed {rank : Rank α} {slots : Vector (Array α) (r + 1)} (h : m.InOrder calls)
    (hi : ¬ m.ranks[i].phase.Waits m.barrier.opened) (hw : ¬ rank.phase.Waits m.barrier.opened)
    (hslots : ∀ j, i ≠ j → slots[j] = m.slots[j])
    (hrank : rank.InOrder calls i m.barrier.opened slots[i]) :
    InOrder calls { m with ranks := replaced m.ranks i rank, slots } where
  ranks j := by
    by_cases hj : i = j
    · subst hj
      rw [entry_replaced_self]
      exact hrank
    · rw [entry_replaced_ne _ _ hj, hslots j hj]
      exact h.ranks j
  arrived := by
    rw [waiting_replaced_of_not hi hw]
    exact h.arrived
  arrived_le := h.arrived_le

/-- A move keeps the group in order. -/
theorem InOrder.move (h : m.InOrder calls) (hm : Move m i m') : m'.InOrder calls := by
  have hi := h.ranks i
  have hs := hi.stands
  cases hm with
  | publish hcalls hp =>
    obtain ⟨hk, rfl, -⟩ := hi.head hcalls
    rw [hp] at hs
    cases hs with
    | ready ho =>
      refine h.proceed (by rw [hp]; exact id) id (fun j hj => entry_replaced_ne _ _ hj) ?_
      exact { hi with stands := .published hk ho (entry_replaced_self _ _ _) }
  | gather hcalls hp =>
    rw [hp] at hs
    cases hs with
    | published hk ho hslot =>
      refine h.arrive (by rw [hp]; exact id) rfl ?_
      rw [ho]
      exact .gathering hk (Or.inl rfl) hslot
  | combine hcalls hp hseen =>
    obtain ⟨hk, rfl, -⟩ := hi.head hcalls
    rw [hp] at hs
    cases hs with
    | gathering _ ho hslot =>
      -- The barrier has opened since the rank arrived, so every slot holds the buffer at hand.
      have hopen : m.barrier.opened = 2 * m.ranks[i].replies.length + 1 := by omega
      have slots : ∀ j : Fin (r + 1), m.slots[j] = (calls j ⟨m.ranks[i].replies.length, hk⟩).buffer := by
        intro j
        obtain ⟨_, hj⟩ := (hopen ▸ (h.ranks j).stands).slot_eq
        exact hj
      refine h.proceed (by rw [hp]; exact fun hw => hseen hw.symm) id (fun _ _ => rfl) ?_
      exact { hi with stands := .combined hk hopen hslot (reply_answers rfl slots) }
  | leave hcalls hp =>
    rw [hp] at hs
    cases hs with
    | combined hk ho hslot ha =>
      refine h.arrive (by rw [hp]; exact id) rfl ?_
      rw [ho]
      exact .leaving hk (Or.inl rfl) hslot ha
  | finish hcalls hp hseen =>
    rw [hp] at hs
    cases hs with
    | leaving hk ho hslot ha =>
      refine h.proceed (by rw [hp]; exact fun hw => hseen hw.symm) id (fun _ _ => rfl) ?_
      exact hi.finish hcalls (by omega) fun _ => ha

lemma start_inOrder (calls : Fin (r + 1) → Fin rounds → Call α) :
    (start (Vector.ofFn fun i => List.ofFn (calls i))).InOrder calls := by
  have fresh : ∀ i : Fin (r + 1), (start (Vector.ofFn fun i => List.ofFn (calls i))).ranks[i] =
      { calls := List.ofFn (calls i), phase := .ready, replies := [] } := by
    intro i
    unfold start
    rw [entry_map, entry_ofFn]
  refine { ranks := fun i => ?_, arrived := ?_, arrived_le := Nat.zero_le r }
  · rw [fresh]
    exact { ahead := rfl, answered := nofun, stands := .ready rfl }
  · refine (Finset.card_eq_zero.2 (Finset.filter_eq_empty_iff.2 fun i _ => ?_)).symm
    rw [fresh]
    exact id

theorem inOrder_of_reachable {calls : Fin (r + 1) → Fin rounds → Call α}
    (h : Relation.ReflTransGen Step (start (Vector.ofFn fun i => List.ofFn (calls i))) m) :
    m.InOrder calls := by
  induction h with
  | refl => exact start_inOrder calls
  | tail _ hstep ih =>
    obtain ⟨i, hi⟩ := hstep
    exact ih.move (advance?_eq_some_iff.1 hi)

end Machine

end Invariant

end MovingAsymptotes.Exchange
