import MovingAsymptotes.Proofs.Exact
import MovingAsymptotes.Reduction.Program

/-!
# Programs under any replies

What a rank does depends on the others only through the replies to its reductions. So what holds of a
rank in every group can be shown for the rank alone, whatever replies it gets, or whatever replies of a
kind that every group gives.

* `Program.Ends`: how a program may end, with replies of some kind.
* `Program.Ensures`: what every result has in common; it is shown along the structure of the program.
* `Ensures.of_ends`: the one bears on the other.
-/

namespace MovingAsymptotes

/-- The replies to a reduction that a rank reckons with. -/
def Replies (α : Type) : Type :=
  ∀ k : Nat, Reduction → Vector α k → Except CollectiveFault (Vector α k) → Prop

namespace Replies

/-- A rank reckons with everything. -/
def any {α : Type} : Replies α := fun _ _ _ _ => True

/-- A rank reckons with the replies of a group that it is part of: the largest entries are at least its
own. -/
def fair : Replies ℝ := fun k op buffer reply =>
  op = .max → ∀ v, reply = .ok v → ∀ j : Fin k, buffer[j] ≤ v[j]

lemma fair_own {k : Nat} {op : Reduction} {buffer : Vector ℝ k} : fair k op buffer (.ok buffer) := by
  rintro - v h j
  cases h
  exact le_refl _

end Replies

namespace Program

variable {α ε ε' β γ : Type}

/-- How a program may end with replies of some kind. -/
inductive Ends (A : Replies α) : Program α ε β → Outcome ε β → Prop
  | pure {b} : Ends A (.pure b) (.done b)
  | fail {e} : Ends A (.fail e) (.failed e)
  | unfinished : Ends A .unfinished .unfinished
  | reduce {k op buffer next reply o} : A k op buffer reply → Ends A (next reply) o →
    Ends A (.reduce op buffer next) o

/-- Every result of a program has the property, whatever replies of some kind it gets. -/
def Ensures (A : Replies α) (Q : β → Prop) : Program α ε β → Prop
  | .pure b => Q b
  | .fail _ => True
  | .unfinished => True
  | @reduce _ _ _ k op buffer next => ∀ reply, A k op buffer reply → Ensures A Q (next reply)

variable {A A' : Replies α} {p : Program α ε β} {f : β → Program α ε γ} {Q Q' : β → Prop} {R : γ → Prop}

/-- What a program ensures holds of its results. -/
theorem Ensures.of_ends (h : p.Ensures A Q) {b : β} (hb : p.Ends A (.done b)) : Q b := by
  generalize ho : Outcome.done b = o at hb
  induction hb with
  | pure =>
    cases ho
    exact h
  | fail => cases ho
  | unfinished => cases ho
  | reduce hA _ ih => exact ih (h _ hA) ho

/-- Where a rank reckons with its own buffers, the end of a single rank is among those. -/
lemma ends_of_serial (hA : ∀ k op buffer, A k op buffer (.ok buffer)) {o : Outcome ε β} (h : p.serial = o) :
    p.Ends A o := by
  subst h
  induction p with
  | pure b => exact .pure
  | fail e => exact .fail
  | unfinished => exact .unfinished
  | reduce op buffer next ih => exact .reduce (hA _ _ _) (ih _)

/-- A rank that reckons with some replies reckons with them among all others. -/
lemma Ends.any {o : Outcome ε β} (h : p.Ends A o) : p.Ends .any o := by
  induction h with
  | pure => exact .pure
  | fail => exact .fail
  | unfinished => exact .unfinished
  | reduce _ _ ih => exact .reduce trivial ih

/-- A program that has a result has come through a result of its first part. -/
lemma Ends.of_bind {c : γ} (h : (p >>= f).Ends A (.done c)) :
    ∃ b, p.Ends A (.done b) ∧ (f b).Ends A (.done c) := by
  induction p with
  | pure b => exact ⟨b, .pure, h⟩
  | fail e => cases h
  | unfinished => cases h
  | reduce op buffer next ih =>
    cases h with
    | reduce hA hnext =>
      obtain ⟨b, hb, hc⟩ := ih _ hnext
      exact ⟨b, .reduce hA hb, hc⟩

lemma Ensures.mono (h : p.Ensures A Q) (hq : ∀ b, Q b → Q' b) : p.Ensures A Q' := by
  induction p with
  | pure b => exact hq b h
  | fail e => trivial
  | unfinished => trivial
  | reduce op buffer next ih => exact fun reply hA => ih reply (h reply hA)

lemma Ensures.and (h : p.Ensures A Q) (h' : p.Ensures A Q') : p.Ensures A fun b => Q b ∧ Q' b := by
  induction p with
  | pure b => exact ⟨h, h'⟩
  | fail e => trivial
  | unfinished => trivial
  | reduce op buffer next ih => exact fun reply hA => ih reply (h reply hA) (h' reply hA)

lemma ensures_true (p : Program α ε β) : p.Ensures A fun _ => True := by
  induction p with
  | pure b => trivial
  | fail e => trivial
  | unfinished => trivial
  | reduce op buffer next ih => exact fun reply _ => ih reply

/-- A program ensures what the rest of it does from what its first part ensures. -/
theorem Ensures.bind (h : p.Ensures A Q) (hf : ∀ b, Q b → (f b).Ensures A R) :
    (p >>= f).Ensures A R := by
  induction p with
  | pure b => exact hf b h
  | fail e => trivial
  | unfinished => trivial
  | reduce op buffer next ih => exact fun reply hA => ih reply (h reply hA)

/-- Where nothing is known of the first part. -/
lemma ensures_bind (hf : ∀ b, (f b).Ensures A R) : (p >>= f).Ensures A R :=
  p.ensures_true.bind fun b _ => hf b

lemma Ensures.mapError (h : p.Ensures A Q) (g : ε → ε') : (p.mapError g).Ensures A Q := by
  induction p with
  | pure b => exact h
  | fail e => trivial
  | unfinished => trivial
  | reduce op buffer next ih => exact fun reply hA => ih reply (h reply hA)

lemma Ensures.attempt (h : p.Ensures A Q) :
    (p.attempt : Program α ε' (Except ε β)).Ensures A fun result => ∀ b, result = .ok b → Q b := by
  induction p with
  | pure b =>
    rintro _ ⟨⟩
    exact h
  | fail e => exact nofun
  | unfinished => trivial
  | reduce op buffer next ih => exact fun reply hA => ih reply (h reply hA)

lemma ensures_maxScalar (a : ℝ) : (reduceScalar .max a).Ensures .fair fun b => a ≤ b := by
  intro reply hA
  cases reply with
  | error fault => trivial
  | ok v => exact hA rfl v rfl 0

end Program

end MovingAsymptotes
