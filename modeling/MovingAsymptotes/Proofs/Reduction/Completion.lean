import MovingAsymptotes.Proofs.Reduction.Exchange

/-!
# Completion of an exchange

No group whose ranks have equally many calls gets stuck: a rank that is held back waits for one that is
not. Every move uses up one of the five moves of a call, so every interleaving comes to an end, and there
each rank has one reply for each of its calls.

* `Machine.InOrder.step_or_done`: a group that is not done can make a move.
* `Machine.InOrder.run`: turns for all ranks, as many as `Machine.run` allows, are enough.
* `Machine.replies_of_reachable`: what the ranks have got, wherever an interleaving comes through.
-/

namespace MovingAsymptotes.Exchange

variable {α : Type} [Scalar α] {r rounds : Nat} {calls : Fin (r + 1) → Fin rounds → Call α}
  {i : Fin (r + 1)} {opened : Nat}

/-- The moves that a rank in some phase has made for its current call. -/
def Phase.moves : Phase α → Nat
  | .ready => 0
  | .published => 1
  | .gathering _ => 2
  | .combined _ => 3
  | .leaving _ _ => 4

/-- The moves that a rank has ahead of it. -/
def Rank.work (rank : Rank α) : Nat := 5 * rank.calls.length - rank.phase.moves

lemma Rank.InOrder.replies_le {rank : Rank α} {slot : Array α}
    (h : rank.InOrder calls i opened slot) : rank.replies.length ≤ rounds := by
  by_contra hlt
  obtain ⟨hk, -⟩ := h.answered rounds (not_le.1 hlt)
  exact hk.false

/-- A rank without further calls has a reply to each, and does not wait. -/
lemma Rank.InOrder.of_calls_nil {rank : Rank α} {slot : Array α}
    (h : rank.InOrder calls i opened slot) (hc : rank.calls = []) :
    rank.replies.length = rounds ∧ opened = 2 * rounds := by
  have hlen : rank.replies.length = rounds := by
    have hle := h.replies_le
    rw [h.ahead, List.drop_eq_nil_iff, List.length_ofFn] at hc
    omega
  refine ⟨hlen, ?_⟩
  have hs := h.stands
  cases hp : rank.phase with
  | ready =>
    rw [hp] at hs
    cases hs with
    | ready ho => rw [ho, hlen]
  | _ =>
    rw [hp] at hs
    cases hs
    omega

/-- A rank that waits has a call whose barrier has not opened. -/
lemma Stands.lt_of_waits {slot : Array α} {k : Nat} {phase : Phase α}
    (h : Stands calls i opened slot k phase) (hw : phase.Waits opened) : opened < 2 * rounds := by
  cases h with
  | ready => exact hw.elim
  | published => exact hw.elim
  | combined => exact hw.elim
  | gathering hk =>
    obtain rfl : 2 * k = opened := hw
    omega
  | leaving hk =>
    obtain rfl : 2 * k + 1 = opened := hw
    omega

namespace Machine

variable {m m' : Machine α r}

lemma exists_move {call : Call α} {later : List (Call α)} (hc : m.ranks[i].calls = call :: later)
    (hw : ¬ m.ranks[i].phase.Waits m.barrier.opened) : ∃ m', Move m i m' := by
  cases hp : m.ranks[i].phase with
  | ready => exact ⟨_, .publish hc hp⟩
  | published => exact ⟨_, .gather hc hp⟩
  | gathering seen =>
    rw [hp] at hw
    exact ⟨_, .combine hc hp fun h => hw h.symm⟩
  | combined result => exact ⟨_, .leave hc hp⟩
  | leaving result seen =>
    rw [hp] at hw
    exact ⟨_, .finish hc hp fun h => hw h.symm⟩

/-- A group in which some rank has a call ahead of it can make a move. -/
theorem InOrder.step_or_done (h : m.InOrder calls) :
    (∀ i : Fin (r + 1), m.ranks[i].calls = []) ∨ ∃ m', Step m m' := by
  by_contra hstuck
  obtain ⟨hcalls, hstep⟩ := not_or.1 hstuck
  obtain ⟨i, hi⟩ := not_forall.1 hcalls
  have held : ∀ j : Fin (r + 1), m.ranks[j].calls ≠ [] → m.ranks[j].phase.Waits m.barrier.opened := by
    intro j hj
    obtain ⟨call, later, hc⟩ := List.exists_cons_of_ne_nil hj
    by_contra hw
    obtain ⟨m', hm⟩ := exists_move hc hw
    exact hstep ⟨m', j, advance?_eq_some_iff.2 hm⟩
  have before := (h.ranks i).stands.lt_of_waits (held i hi)
  -- The barrier has openings left, so nobody is done, and everybody has arrived.
  have all : waiting m.ranks m.barrier.opened = Finset.univ := by
    refine Finset.eq_univ_of_forall fun j => mem_waiting.2 (held j fun hj => ?_)
    have := ((h.ranks j).of_calls_nil hj).2
    omega
  have harr := h.arrived
  have hle := h.arrived_le
  rw [all, Finset.card_univ, Fintype.card_fin] at harr
  omega

section Work

omit [Scalar α]

/-- The moves that all ranks together have ahead of them. -/
def work (m : Machine α r) : Nat := ∑ i : Fin (r + 1), m.ranks[i].work

lemma work_le_remaining (m : Machine α r) : m.work ≤ 5 * m.remaining := by
  have total : m.remaining = ∑ i : Fin (r + 1), m.ranks[i].calls.length := by
    unfold remaining
    rw [← Vector.foldl_toList, toList_eq_map, List.foldl_map, foldl_add_eq, zero_add, Fin.sum_univ_def]
  rw [total, Finset.mul_sum]
  exact Finset.sum_le_sum fun i _ => Nat.sub_le _ _

lemma sum_work_replaced (ranks : Vector (Rank α) (r + 1)) {rank : Rank α}
    (h : rank.work + 1 = ranks[i].work) :
    ∑ j : Fin (r + 1), (replaced ranks i rank)[j].work + 1 = ∑ j : Fin (r + 1), ranks[j].work := by
  rw [← Finset.add_sum_erase _ _ (Finset.mem_univ i), ← Finset.add_sum_erase _ _ (Finset.mem_univ i),
    entry_replaced_self, ← h]
  have rest : ∀ j ∈ Finset.univ.erase i, (replaced ranks i rank)[j].work = ranks[j].work := by
    intro j hj
    rw [entry_replaced_ne _ _ (Finset.ne_of_mem_erase hj).symm]
  rw [Finset.sum_congr rfl rest]
  omega

end Work

lemma Move.work (hm : Move m i m') : m'.work + 1 = m.work := by
  cases hm with
  | publish hcalls hp | gather hcalls hp | combine hcalls hp _ | leave hcalls hp | finish hcalls hp _ =>
    refine sum_work_replaced m.ranks ?_
    unfold Rank.work
    rw [hcalls, hp]
    simp only [List.length_cons, Phase.moves]
    omega

lemma work_le_of_reachable (h : Relation.ReflTransGen Step m m') : m'.work ≤ m.work := by
  induction h with
  | refl => exact le_refl _
  | tail _ hstep ih =>
    obtain ⟨i, hi⟩ := hstep
    have := (advance?_eq_some_iff.1 hi).work
    omega

lemma InOrder.of_reachable (h : m.InOrder calls) (hm : Relation.ReflTransGen Step m m') :
    m'.InOrder calls := by
  induction hm with
  | refl => exact h
  | tail _ hstep ih =>
    obtain ⟨i, hi⟩ := hstep
    exact ih.move (advance?_eq_some_iff.1 hi)

/-- Turns of some ranks lead on, unless none of these ranks can make a move. -/
lemma foldl_turns (ranks : List (Fin (r + 1))) (m : Machine α r) :
    Relation.ReflTransGen Step m (ranks.foldl (fun m i => (m.advance? i).getD m) m) ∧
      ((ranks.foldl (fun m i => (m.advance? i).getD m) m).work < m.work ∨
        ∀ i ∈ ranks, m.advance? i = none) := by
  induction ranks generalizing m with
  | nil => exact ⟨.refl, Or.inr nofun⟩
  | cons i ranks ih =>
    rw [List.foldl_cons]
    cases hi : m.advance? i with
    | none =>
      obtain ⟨hreach, hwork⟩ := ih m
      exact ⟨hreach, hwork.imp_right fun h => List.forall_mem_cons.2 ⟨hi, h⟩⟩
    | some next =>
      obtain ⟨hreach, -⟩ := ih next
      have hnext := (advance?_eq_some_iff.1 hi).work
      have hlater := work_le_of_reachable hreach
      refine ⟨.head ⟨i, hi⟩ hreach, Or.inl ?_⟩
      dsimp only [Option.getD_some]
      omega

lemma reachable_sweep (m : Machine α r) : Relation.ReflTransGen Step m m.sweep := by
  unfold sweep
  rw [Fin.foldl_eq_foldl_finRange]
  exact (foldl_turns _ m).1

lemma InOrder.work_sweep (h : m.InOrder calls) :
    (∀ i : Fin (r + 1), m.ranks[i].calls = []) ∨ m.sweep.work < m.work := by
  refine h.step_or_done.imp_right fun ⟨m', i, hi⟩ => ?_
  unfold sweep
  rw [Fin.foldl_eq_foldl_finRange]
  refine (foldl_turns _ m).2.resolve_right fun hnone => ?_
  have := hnone i (List.mem_finRange i)
  rw [hi] at this
  cases this

/-- Turns of all ranks use up all moves, or there are that many moves less ahead. -/
lemma InOrder.sweeps (h : m.InOrder calls) (n : Nat) :
    Relation.ReflTransGen Step m (Nat.repeat sweep n m) ∧
      ((Nat.repeat sweep n m).work = 0 ∨ (Nat.repeat sweep n m).work + n ≤ m.work) := by
  induction n with
  | zero => exact ⟨.refl, Or.inr (le_refl _)⟩
  | succ n ih =>
    obtain ⟨hreach, hwork⟩ := ih
    have hstep := reachable_sweep (Nat.repeat sweep n m)
    have hle := work_le_of_reachable hstep
    refine ⟨hreach.trans hstep, ?_⟩
    change (sweep (Nat.repeat sweep n m)).work = 0 ∨ (sweep (Nat.repeat sweep n m)).work + (n + 1) ≤ _
    rcases hwork with hzero | hmore
    · omega
    · rcases (h.of_reachable hreach).work_sweep with hdone | hlt
      · have : (Nat.repeat sweep n m).work = 0 := Finset.sum_eq_zero fun i _ => by
          unfold Rank.work
          rw [hdone i, List.length_nil, Nat.mul_zero, Nat.zero_sub]
        omega
      · omega

/-- Turns of all ranks, as many as a run takes, finish every call. -/
theorem InOrder.run (h : m.InOrder calls) :
    Relation.ReflTransGen Step m m.run ∧ ∀ i : Fin (r + 1), m.run.ranks[i].calls = [] := by
  obtain ⟨hreach, hwork⟩ := h.sweeps (5 * m.remaining)
  refine ⟨hreach, (h.of_reachable hreach).step_or_done.resolve_right ?_⟩
  rintro ⟨m', i, hi⟩
  have hmove := (advance?_eq_some_iff.1 hi).work
  have hle := m.work_le_remaining
  change m'.work + 1 = (Nat.repeat sweep (5 * m.remaining) m).work at hmove
  omega

/-- Wherever an interleaving comes through, each reply is to the buffers of its own reduction, and the
ranks agree on whether these could be combined. Unless all calls are finished, the group can go on. -/
theorem replies_of_reachable
    (h : Relation.ReflTransGen Step (start (Vector.ofFn fun i => List.ofFn (calls i))) m) :
    (∀ (i : Fin (r + 1)) (k : Nat) (reply : Reply α), m.ranks[i].replies[k]? = some reply →
      ∃ hk : k < rounds, Answered calls ⟨k, hk⟩ i reply ∧
        (reply.fault = none ↔
          ∀ j l, (calls j ⟨k, hk⟩).buffer.size = (calls l ⟨k, hk⟩).buffer.size) ∧
        ∀ (j : Fin (r + 1)) (other : Reply α), m.ranks[j].replies[k]? = some other →
          (reply.fault = none ↔ other.fault = none)) ∧
      ((∀ i : Fin (r + 1), m.ranks[i].replies.length = rounds) ∨ ∃ m', Step m m') := by
  have inOrder := inOrder_of_reachable h
  have answered : ∀ (i : Fin (r + 1)) (k : Nat) (reply : Reply α),
      m.ranks[i].replies[k]? = some reply → ∃ hk : k < rounds, Answered calls ⟨k, hk⟩ i reply := by
    intro i k reply hreply
    obtain ⟨hlt, rfl⟩ := List.getElem?_eq_some_iff.1 hreply
    exact (inOrder.ranks i).answered k hlt
  refine ⟨fun i k reply hreply => ?_, ?_⟩
  · obtain ⟨hk, ha⟩ := answered i k reply hreply
    refine ⟨hk, ha, ha.fault_eq_none_iff, fun j other hother => ?_⟩
    obtain ⟨_, hb⟩ := answered j k other hother
    exact ha.fault_eq_none_iff.trans hb.fault_eq_none_iff.symm
  · refine inOrder.step_or_done.imp_left fun hcalls i => ?_
    exact ((inOrder.ranks i).of_calls_nil (hcalls i)).1

/-- Two ranks that first disagree on the length and then add up. -/
noncomputable def uneven (i : Fin 2) (k : Fin 2) : Call ℝ where
  op := .sum
  buffer := if k = 0 then Array.replicate (i + 1) 1 else #[5 + i]

theorem replies_of_uneven : ∃ m : Machine ℝ 1,
    Relation.ReflTransGen Step (start (Vector.ofFn fun i => List.ofFn (uneven i))) m ∧
      m.ranks[(1 : Fin 2)].replies =
        [{ buffer := #[1, 1], fault := some (.lengthMismatch 0 1 2) },
          { buffer := #[11], fault := none }] := by
  obtain ⟨hreach, hdone⟩ := (start_inOrder uneven).run
  obtain ⟨hreplies, -⟩ := replies_of_reachable hreach
  have inOrder := inOrder_of_reachable hreach
  obtain ⟨hlen, -⟩ := (inOrder.ranks 1).of_calls_nil (hdone 1)
  obtain ⟨first, second, hboth⟩ := List.length_eq_two.1 hlen
  refine ⟨_, hreach, ?_⟩
  obtain ⟨_, hfirst, -⟩ := hreplies 1 0 first (by rw [hboth]; rfl)
  obtain ⟨_, hsecond, -⟩ := hreplies 1 1 second (by rw [hboth]; rfl)
  rw [hboth]
  have firstReply : first = { buffer := #[1, 1], fault := some (.lengthMismatch 0 1 2) } := by
    cases hfirst with
    | combined hsize => exact absurd (hsize 0) (by simp [uneven])
    | refused j hj _ =>
      obtain rfl : j = 0 := by
        by_contra hne
        exact hj (by rw [Fin.eq_one_of_ne_zero j hne])
      rfl
  have secondReply : second = { buffer := #[11], fault := none } := by
    cases hsecond with
    | combined _ =>
      simp [uneven, Reduction.apply]
      norm_num
    | refused j hj _ => exact absurd (by simp [uneven]) hj
  rw [firstReply, secondReply]

end Machine

end MovingAsymptotes.Exchange
