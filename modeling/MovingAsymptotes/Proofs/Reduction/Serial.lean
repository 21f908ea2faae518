import Mathlib
import MovingAsymptotes.Reduction.Program

/-!
# Programs of a single rank

In a group of one a reduction gives back the buffer, so a program runs through without waiting.
`Program.Returns` says that it then ends with a result, and what that result is like; it is shown along
the structure of the program.

* `serial_reduceAll`, `serial_reduceScalar`, `serial_mapError`, `serial_attempt`: how the pieces of a
  program end.
* `Returns.bind`: programs run one after the other.
-/

namespace MovingAsymptotes

namespace Program

variable {α ε ε' β γ : Type}

lemma serial_pure (b : β) : (Pure.pure b : Program α ε β).serial = .done b := rfl

lemma serial_reduceAll {k : Nat} (op : Reduction) (v : Vector α k) :
    (reduceAll op v).serial = .done v := rfl

lemma serial_reduceScalar (op : Reduction) (a : α) : (reduceScalar op a).serial = .done a := rfl

lemma serial_mapError (f : ε → ε') (p : Program α ε β) :
    (p.mapError f).serial = match p.serial with
      | .done b => .done b
      | .failed e => .failed (f e)
      | .unfinished => .unfinished := by
  induction p with
  | pure b => rfl
  | fail e => rfl
  | unfinished => rfl
  | reduce op buffer next ih => exact ih _

lemma serial_attempt (p : Program α ε β) :
    (p.attempt : Program α ε' (Except ε β)).serial = match p.serial with
      | .done b => .done (.ok b)
      | .failed e => .done (.error e)
      | .unfinished => .unfinished := by
  induction p with
  | pure b => rfl
  | fail e => rfl
  | unfinished => rfl
  | reduce op buffer next ih => exact ih _

/-- A single rank that runs the program ends with a result that has the property. -/
def Returns (p : Program α ε β) (Q : β → Prop) : Prop := ∃ b, p.serial = .done b ∧ Q b

variable {p : Program α ε β} {f : β → Program α ε γ} {Q Q' : β → Prop} {R : γ → Prop}

lemma returns_pure {b : β} (h : Q b) : (Pure.pure b : Program α ε β).Returns Q := ⟨b, rfl, h⟩

lemma returns_reduceAll {k : Nat} (op : Reduction) (v : Vector α k) :
    (reduceAll op v).Returns (· = v) := ⟨v, rfl, rfl⟩

lemma returns_reduceScalar (op : Reduction) (a : α) : (reduceScalar op a).Returns (· = a) :=
  ⟨a, rfl, rfl⟩

/-- A program returns if its first part does and the rest does from there. -/
lemma Returns.bind (h : p.Returns Q) (hf : ∀ b, Q b → (f b).Returns R) : (p >>= f).Returns R := by
  obtain ⟨b, e, hb⟩ := h
  obtain ⟨c, e', hc⟩ := hf b hb
  refine ⟨c, ?_, hc⟩
  rw [serial_bind, e]
  exact e'

lemma Returns.mono (h : p.Returns Q) (hq : ∀ b, Q b → Q' b) : p.Returns Q' := by
  obtain ⟨b, e, hb⟩ := h
  exact ⟨b, e, hq b hb⟩

lemma Returns.mapError (h : p.Returns Q) (g : ε → ε') : (p.mapError g).Returns Q := by
  obtain ⟨b, e, hb⟩ := h
  exact ⟨b, by rw [serial_mapError, e], hb⟩

/-- What a program returns is a certain value. -/
lemma returns_eq_iff {b : β} : p.Returns (· = b) ↔ p.serial = .done b := by
  constructor
  · rintro ⟨c, e, rfl⟩
    exact e
  · exact fun e => ⟨b, e, rfl⟩

lemma Returns.of_serial (h : p.Returns Q) {b : β} (e : p.serial = .done b) : Q b := by
  obtain ⟨c, e', hc⟩ := h
  rw [e] at e'
  cases e'
  exact hc

end Program

end MovingAsymptotes
