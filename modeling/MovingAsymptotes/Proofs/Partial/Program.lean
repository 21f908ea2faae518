import MovingAsymptotes.Proofs.Partial.Linear
import MovingAsymptotes.Proofs.Reduction.Lockstep

/-!
# Programs that work with numbers

A rank that contributes only numbers gets only numbers back, provided that all other ranks do the same.
So each rank can be looked at alone: it may count on numbers for its numbers, and has to contribute no
other value.

* `Program.Defined`: what a rank does then, and what its results have in common.
* `Program.GroupEnds.of_defined`: it is so in a group of such ranks.
-/

namespace MovingAsymptotes

open PartialReal

variable {ε ε' β γ : Type}

namespace Program

/-- The program contributes only numbers, and every result has the property, whatever numbers it gets in
reply. The largest numbers of all ranks are at least its own. -/
def Defined (Q : β → Prop) : Program PartialReal ε β → Prop
  | .pure b => Q b
  | .fail _ => True
  | .unfinished => True
  | @reduce _ _ _ k op buffer next => ∃ own : Vector ℝ k, buffer = lift own ∧
      ∀ reply, Replies.fair k op own reply → Defined Q (next (reply.map lift))

section Rules

variable {p : Program PartialReal ε β} {f : β → Program PartialReal ε γ} {Q Q' : β → Prop} {R : γ → Prop}

lemma Defined.mono (h : p.Defined Q) (hq : ∀ b, Q b → Q' b) : p.Defined Q' := by
  induction p with
  | pure b => exact hq b h
  | fail e => trivial
  | unfinished => trivial
  | reduce op buffer next ih =>
    obtain ⟨own, hown, hnext⟩ := h
    exact ⟨own, hown, fun reply hr => ih _ (hnext reply hr)⟩

theorem Defined.bind (h : p.Defined Q) (hf : ∀ b, Q b → (f b).Defined R) : (p >>= f).Defined R := by
  induction p with
  | pure b => exact hf b h
  | fail e => trivial
  | unfinished => trivial
  | reduce op buffer next ih =>
    obtain ⟨own, hown, hnext⟩ := h
    exact ⟨own, hown, fun reply hr => ih _ (hnext reply hr)⟩

lemma Defined.mapError (h : p.Defined Q) (g : ε → ε') : (p.mapError g).Defined Q := by
  induction p with
  | pure b => exact h
  | fail e => trivial
  | unfinished => trivial
  | reduce op buffer next ih =>
    obtain ⟨own, hown, hnext⟩ := h
    exact ⟨own, hown, fun reply hr => ih _ (hnext reply hr)⟩

lemma Defined.attempt (h : p.Defined Q) :
    (p.attempt : Program PartialReal ε' (Except ε β)).Defined fun result => ∀ b, result = .ok b → Q b := by
  induction p with
  | pure b =>
    rintro _ ⟨⟩
    exact h
  | fail e => exact nofun
  | unfinished => trivial
  | reduce op buffer next ih =>
    obtain ⟨own, hown, hnext⟩ := h
    exact ⟨own, hown, fun reply hr => ih _ (hnext reply hr)⟩

lemma defined_reduceAll {k : Nat} (op : Reduction) (own : Vector ℝ k) :
    (reduceAll op (lift own)).Defined fun v =>
      ∃ w, v = lift w ∧ (op = .max → ∀ j : Fin k, own[j] ≤ w[j]) := by
  refine ⟨own, rfl, fun reply hr => ?_⟩
  cases reply with
  | error fault => trivial
  | ok w => exact ⟨w, rfl, fun hmax => hr hmax w rfl⟩

lemma defined_reduceScalar (op : Reduction) (own : ℝ) :
    (reduceScalar op (real own)).Defined fun a => ∃ c, a = real c ∧ (op = .max → own ≤ c) := by
  have single : #v[real own] = lift #v[own] := lift_eq_iff.2 fun j => by rw [Fin.eq_zero j]; rfl
  unfold reduceScalar
  rw [single]
  refine (defined_reduceAll op #v[own]).bind fun v hv => ?_
  obtain ⟨w, rfl, hmax⟩ := hv
  exact ⟨w[0], entry_lift w 0, fun h => hmax h 0⟩

end Rules

end Program

section Group

variable {R k : Nat}

lemma lift_mk {l : Nat} (v : Vector ℝ l) (h : l = k) :
    (⟨(lift v).toArray, (lift v).size_toArray.trans h⟩ : Vector PartialReal k) =
      lift ⟨v.toArray, v.size_toArray.trans h⟩ := by
  subst h
  rfl

namespace Reduction

lemma combined_lift (op : Reduction) (buffers : Fin (R + 1) → Vector ℝ k) :
    op.combined (fun r => lift (buffers r)) = lift (op.combined buffers) := by
  have merged : ∀ u v : Vector ℝ k, op.merge (lift u) (lift v) = lift (op.merge u v) := by
    refine lift_zipWith fun a b => ?_
    cases op with
    | sum => rfl
    | max => exact larger_real a b
  unfold combined
  have later : (List.ofFn fun r : Fin R => lift (buffers r.succ)) =
      (List.ofFn fun r : Fin R => buffers r.succ).map lift := List.map_ofFn.symm
  rw [later, List.foldl_map]
  exact List.foldl_hom lift fun u v => merged u v

/-- Numbers of all ranks are combined to numbers, or not at all. -/
lemma combine_lift (op : Reduction) {length : Fin (R + 1) → Nat} (own : ∀ r, Vector ℝ (length r)) :
    op.combine k (lift (own 0)).toArray (List.ofFn fun r : Fin R => (lift (own r.succ)).toArray) =
      (op.combine k (own 0).toArray (List.ofFn fun r : Fin R => (own r.succ).toArray)).map lift := by
  let buffers : Fin (R + 1) → Array ℝ := fun r => (own r).toArray
  let lifted : Fin (R + 1) → Array PartialReal := fun r => (lift (own r)).toArray
  have size : ∀ r, (buffers r).size = length r := fun r => (own r).size_toArray
  have same : ∀ r, (lifted r).size = (buffers r).size := fun r => (lift (own r)).size_toArray.trans (size r).symm
  show op.combine k (lifted 0) (List.ofFn fun r : Fin R => lifted r.succ) =
    (op.combine k (buffers 0) (List.ofFn fun r : Fin R => buffers r.succ)).map lift
  by_cases hs : ∀ r, (buffers r).size = k
  · rw [combine_of_sizes op hs, combine_of_sizes op fun r => (same r).trans (hs r)]
    refine congrArg Except.ok (Eq.trans ?_ (combined_lift op _))
    exact congrArg op.combined (funext fun r => lift_mk (own r) ((size r).symm.trans (hs r)))
  · obtain ⟨j, hj, hmin⟩ := exists_first hs
    rw [combine_refused op j hj hmin, combine_refused op j (by rwa [same]) fun l hl => by rw [same, hmin l hl], same]
    rfl

end Reduction

namespace Program

variable {β : Fin (R + 1) → Type} {p : ∀ r, Program PartialReal ε (β r)} {o : ∀ r, Outcome ε (β r)}
  {Q : ∀ r, β r → Prop}

/-- In a group of ranks that contribute only numbers, every result has its property. -/
theorem GroupEnds.of_defined (h : GroupEnds p o) (hp : ∀ r, (p r).Defined (Q r)) (r : Fin (R + 1))
    {b : β r} (hb : o r = .done b) : Q r b := by
  induction h with
  | ended hend =>
    have hr := hp r
    rw [hend, hb] at hr
    exact hr
  | reduce w hwait _ ih =>
    have contributed : ∀ r, ((w r).program).Defined (Q r) := fun r => hwait r ▸ hp r
    choose own hown hnext using contributed
    refine ih (fun r => ?_) hb
    have fair : Replies.fair (w r).length (w r).op (own r) ((w r).op.combine (w r).length (own 0).toArray
        (List.ofFn fun q : Fin R => (own q.succ).toArray)) := Replies.fair_combine _ own r
    have answer := hnext r _ fair
    rw [← Reduction.combine_lift] at answer
    simp only [← hown] at answer
    exact answer

end Program

end Group

end MovingAsymptotes
