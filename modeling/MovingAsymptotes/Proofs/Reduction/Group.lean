import MovingAsymptotes.Proofs.Reduction.Serial
import MovingAsymptotes.Reduction.Group

/-!
# Programs that run in step

Programs of a group run in step if they wait for the same reductions, one after the other, until all of
them are over. What a program is put into that passes reductions on, such as the rest of a computation,
keeps programs in step.

* `InStep`: programs that run in step, with their outcomes.
* `InStep.lift`: programs in step within others that pass reductions on.
* `InStep.outcomes_eq`: a group of such programs has these outcomes.
-/

namespace MovingAsymptotes

variable {α ε ε' : Type} {R : Nat}

/-- The program that is over with an outcome. -/
def Outcome.program {β : Type} : Outcome ε β → Program α ε β
  | .done b => .pure b
  | .failed e => .fail e
  | .unfinished => .unfinished

lemma Outcome.serial_program {β : Type} (o : Outcome ε β) : (o.program : Program α ε β).serial = o := by
  cases o with
  | done b => rfl
  | failed e => rfl
  | unfinished => rfl

lemma Outcome.program_injective {β : Type} :
    Function.Injective (Outcome.program : Outcome ε β → Program α ε β) :=
  Function.LeftInverse.injective serial_program

namespace Reduction

variable [Scalar α] {k : Nat}

/-- The buffers of all ranks combined in rank order. -/
def combined (op : Reduction) (buffers : Fin (R + 1) → Vector α k) : Vector α k :=
  (List.ofFn fun r : Fin R => buffers r.succ).foldl op.merge (buffers 0)

omit [Scalar α] in
lemma mapM_contribution (buffers : List (Vector α k)) (first : Nat) :
    ((buffers.map Vector.toArray).zipIdx first).mapM (fun (buffer, rank) => contribution k rank buffer) =
      .ok buffers := by
  induction buffers generalizing first with
  | nil => rfl
  | cons v buffers ih =>
    simp only [List.map_cons, List.zipIdx_cons, List.mapM_cons, contribution_toArray, ih]
    rfl

lemma combine_ofFn (op : Reduction) (buffers : Fin (R + 1) → Vector α k) :
    op.combine k (buffers 0).toArray ((List.ofFn fun r : Fin R => buffers r.succ).map Vector.toArray) =
      .ok (op.combined buffers) := by
  unfold combine
  rw [contribution_toArray, mapM_contribution]
  rfl

section Buffers

variable {buffers : Fin (R + 1) → Array α}

/-- Buffers of one length are combined. -/
lemma combine_of_sizes (op : Reduction) (h : ∀ j, (buffers j).size = k) :
    op.combine k (buffers 0) (List.ofFn fun j : Fin R => buffers j.succ) =
      .ok (op.combined fun j => ⟨buffers j, h j⟩) := by
  have combined := op.combine_ofFn fun j => (⟨buffers j, h j⟩ : Vector α k)
  rwa [List.map_ofFn] at combined

omit [Scalar α] in
/-- The first buffer of another length is named. -/
lemma mapM_contribution_refused {f : Fin R → Array α} (j : Fin R) (hj : (f j).size ≠ k)
    (hmin : ∀ l < j, (f l).size = k) (rank : Nat) :
    ((List.ofFn f).zipIdx rank).mapM (fun (buffer, rank) => contribution k rank buffer) =
      .error (.lengthMismatch (rank + j) (f j).size k) := by
  induction R generalizing rank with
  | zero => exact j.elim0
  | succ r ih =>
    rw [List.ofFn_succ, List.zipIdx_cons, List.mapM_cons]
    cases j using Fin.cases with
    | zero =>
      have bad : contribution k rank (f 0) = .error (.lengthMismatch rank (f 0).size k) := dif_neg hj
      simp only [bad]
      rfl
    | succ j =>
      have good : contribution k rank (f 0) = .ok ⟨f 0, hmin 0 j.succ_pos⟩ :=
        dif_pos (hmin 0 j.succ_pos)
      have later := ih j hj (fun l hl => hmin l.succ (Fin.succ_lt_succ_iff.2 hl)) (rank + 1)
      simp only [good, later, bind, Except.bind]
      rw [Fin.val_succ, Nat.add_right_comm, Nat.add_assoc]

/-- Of buffers that cannot be combined, the first one of another length is named. -/
lemma combine_refused (op : Reduction) (j : Fin (R + 1)) (hj : (buffers j).size ≠ k)
    (hmin : ∀ l < j, (buffers l).size = k) :
    op.combine k (buffers 0) (List.ofFn fun j : Fin R => buffers j.succ) =
      .error (.lengthMismatch j (buffers j).size k) := by
  unfold combine
  cases j using Fin.cases with
  | zero =>
    have bad : contribution k 0 (buffers 0) = .error (.lengthMismatch 0 (buffers 0).size k) := dif_neg hj
    rw [bad]
    rfl
  | succ j =>
    have good : contribution k 0 (buffers 0) = .ok ⟨buffers 0, hmin 0 j.succ_pos⟩ :=
      dif_pos (hmin 0 j.succ_pos)
    have later := mapM_contribution_refused j hj
      (fun l hl => hmin l.succ (Fin.succ_lt_succ_iff.2 hl)) 1
    simp only [good, later, bind, Except.bind]
    rw [Fin.val_succ, Nat.add_comm]

omit [Scalar α] in
/-- Of buffers that are not all of one length, there is a first one of another length. -/
lemma exists_first (h : ¬ ∀ j, (buffers j).size = k) :
    ∃ j, (buffers j).size ≠ k ∧ ∀ l < j, (buffers l).size = k := by
  obtain ⟨j, hj, hmin⟩ :=
    WellFounded.has_min wellFounded_lt {j : Fin (R + 1) | (buffers j).size ≠ k} (not_forall.1 h)
  exact ⟨j, hj, fun l hl => not_not.1 fun hne => hmin l hne hl⟩

/-- Only buffers of one length are combined. -/
lemma eq_combined_of_combine {op : Reduction} {v : Vector α k}
    (h : op.combine k (buffers 0) (List.ofFn fun j : Fin R => buffers j.succ) = .ok v) :
    ∃ hs : ∀ j, (buffers j).size = k, v = op.combined fun j => ⟨buffers j, hs j⟩ := by
  by_cases hs : ∀ j, (buffers j).size = k
  · rw [op.combine_of_sizes hs] at h
    cases h
    exact ⟨hs, rfl⟩
  · obtain ⟨j, hj, hmin⟩ := exists_first hs
    rw [op.combine_refused j hj hmin] at h
    cases h

end Buffers

end Reduction

namespace Program

variable [Scalar α] {β γ : Fin (R + 1) → Type}

/-- The programs of a group run in step to the given outcomes. -/
inductive InStep : (∀ r, Program α ε (β r)) → (∀ r, Outcome ε (β r)) → Prop where
  /-- All programs are over. -/
  | ended {p o} : (∀ r, p r = (o r).program) → InStep p o
  /-- All programs wait for a reduction, and go on in step. -/
  | reduce {p o k} (op : Reduction) (buffers : Fin (R + 1) → Vector α k)
      (next : ∀ r, Except CollectiveFault (Vector α k) → Program α ε (β r)) :
    (∀ r, p r = .reduce op (buffers r) (next r)) →
    InStep (fun r => next r (.ok (op.combined buffers))) o → InStep p o

/-- Programs in step stay in step within programs that pass reductions on. -/
theorem InStep.lift {p : ∀ r, Program α ε (β r)} {o : ∀ r, Outcome ε (β r)} {o' : ∀ r, Outcome ε' (γ r)}
    (F : ∀ r, Program α ε (β r) → Program α ε' (γ r))
    (hF : ∀ r k op (buffer : Vector α k) next,
      F r (.reduce op buffer next) = .reduce op buffer fun reply => F r (next reply))
    (h : InStep p o) (ho : InStep (fun r => F r (o r).program) o') : InStep (fun r => F r (p r)) o' := by
  induction h with
  | ended hp =>
    simp only [hp]
    exact ho
  | reduce op buffers next hp _ ih =>
    refine .reduce op buffers (fun r reply => F r (next r reply)) (fun r => ?_) (ih ho)
    rw [hp]
    exact hF r _ op _ _

lemma InStep.bind {p : ∀ r, Program α ε (β r)} {o : ∀ r, Outcome ε (β r)} {o' : ∀ r, Outcome ε (γ r)}
    {f : ∀ r, β r → Program α ε (γ r)} (h : InStep p o)
    (ho : InStep (fun r => (o r).program >>= f r) o') : InStep (fun r => p r >>= f r) o' :=
  h.lift (fun r p => p >>= f r) (fun _ _ _ _ _ => rfl) ho

section Single

variable {β : Fin 1 → Type}

/-- A single rank is always in step with itself. -/
lemma inStep_serial (p : ∀ r, Program α ε (β r)) : InStep p fun r => (p r).serial := by
  -- The induction is on the program of rank zero, which is the only one.
  have h : ∀ (q : Program α ε (β 0)) (p : ∀ r, Program α ε (β r)), p 0 = q →
      InStep p fun r => (p r).serial := by
    intro q
    induction q with
    | pure b =>
      intro p hp
      refine .ended (Fin.cases ?_ fun i => i.elim0)
      rw [hp]
      rfl
    | fail e =>
      intro p hp
      refine .ended (Fin.cases ?_ fun i => i.elim0)
      rw [hp]
      rfl
    | unfinished =>
      intro p hp
      refine .ended (Fin.cases ?_ fun i => i.elim0)
      rw [hp]
      rfl
    | @reduce k op buffer next ih =>
      intro p hp
      have hs : (fun r => (p r).serial) = fun r =>
          ((Fin.cases next (fun i => i.elim0) : ∀ r : Fin 1, _ → Program α ε (β r)) r
            (.ok buffer)).serial := by
        funext r
        cases r using Fin.cases with
        | zero => rw [hp]; rfl
        | succ i => exact i.elim0
      rw [hs]
      exact .reduce op (fun _ => buffer) (Fin.cases next fun i => i.elim0) (Fin.cases hp fun i => i.elim0)
        (ih (.ok buffer) _ rfl)
  exact h _ p rfl

/-- The outcome of a group of one is that of its program. -/
lemma InStep.eq_serial {p : ∀ r, Program α ε (β r)} {o : ∀ r, Outcome ε (β r)} (h : InStep p o) :
    o = fun r => (p r).serial := by
  induction h with
  | ended hp =>
    funext r
    rw [hp]
    cases ‹∀ r, Outcome ε (β r)› r <;> rfl
  | reduce op buffers next hp _ ih =>
    rw [ih]
    funext r
    rw [hp, Fin.eq_zero r]
    rfl

end Single

/-- The program of one rank of a group whose ranks have results of different types. -/
def tagged (p : ∀ r, Program α ε (β r)) (r : Fin (R + 1)) : Program α ε (Σ r, β r) :=
  p r >>= fun b => .pure ⟨r, b⟩

/-- The outcomes of a group whose ranks have results of different types, if the group does not get
stuck. -/
def outcomes (p : ∀ r, Program α ε (β r)) : Option (List (Outcome ε (Σ r, β r))) :=
  (tagged p 0).group (List.ofFn fun r : Fin R => tagged p r.succ)

section Outcomes

variable {B : Type}

omit [Scalar α] in
lemma outcome?_program (o : Outcome ε B) : (o.program : Program α ε B).outcome? = some o := by
  cases o <;> rfl

lemma mapM_ofFn_eq_some {A C : Type} {k : Nat} {f : A → Option C} {u : Fin k → A} {v : Fin k → C}
    (h : ∀ i, f (u i) = some (v i)) : (List.ofFn u).mapM f = some (List.ofFn v) := by
  induction k with
  | zero => rfl
  | succ k ih =>
    rw [List.ofFn_succ, List.ofFn_succ, List.mapM_cons, h 0, ih fun i => h i.succ]
    rfl

lemma InStep.group_eq {p : Fin (R + 1) → Program α ε B} {o : Fin (R + 1) → Outcome ε B}
    (h : InStep (β := fun _ => B) p o) :
    (p 0).group (List.ofFn fun r : Fin R => p r.succ) = some (List.ofFn o) := by
  induction h with
  | @ended p o hp =>
    have rest : (List.ofFn fun r : Fin R => p r.succ).mapM outcome? =
        some (List.ofFn fun r : Fin R => o r.succ) :=
      mapM_ofFn_eq_some fun r => by rw [hp]; exact outcome?_program _
    rw [hp 0, List.ofFn_succ]
    cases o 0 <;> simp only [Outcome.program, group, rest, Option.map_some]
  | @reduce p o k op buffers next hp _ ih =>
    have rest : (List.ofFn fun r : Fin R => p r.succ).mapM waiting? =
        some (List.ofFn fun r : Fin R => ⟨k, op, buffers r.succ, next r.succ⟩) :=
      mapM_ofFn_eq_some fun r => by rw [hp]; rfl
    have sent : (List.ofFn fun r : Fin R =>
        (⟨k, op, buffers r.succ, next r.succ⟩ : Waiting α ε B)).map (fun w => w.buffer.toArray) =
        (List.ofFn fun r : Fin R => buffers r.succ).map Vector.toArray := by
      simp only [List.map_ofFn]
      rfl
    have resumed : (List.ofFn fun r : Fin R =>
        (⟨k, op, buffers r.succ, next r.succ⟩ : Waiting α ε B)).map (fun w =>
          w.resume (buffers 0).toArray ((List.ofFn fun r : Fin R => buffers r.succ).map Vector.toArray)) =
        List.ofFn fun r : Fin R => next r.succ (.ok (op.combined buffers)) := by
      rw [List.map_ofFn]
      congr 1
      funext r
      exact congrArg (next r.succ) (Reduction.combine_ofFn op buffers)
    rw [hp 0]
    simp only [group, rest, sent, Reduction.combine_ofFn, resumed]
    exact ih

end Outcomes

/-- A group of programs in step has their outcomes. -/
theorem InStep.outcomes_eq {p : ∀ r, Program α ε (β r)} {o : ∀ r, Outcome ε (β r)} (h : InStep p o) :
    outcomes p = some (List.ofFn fun r => (o r).andThen fun b => .done ⟨r, b⟩) := by
  refine InStep.group_eq (p := tagged p) (h.bind (.ended fun r => ?_))
  cases o r <;> rfl

end Program

end MovingAsymptotes
