import MovingAsymptotes.Proofs.Reduction.Group
import MovingAsymptotes.Proofs.Reduction.Replies

/-!
# Programs that stay abreast

Two ranks see each other only through the replies to their reductions. They stay abreast if the same
replies always lead them to the same reductions: whatever the replies are, and however they were
computed, both ranks then wait for a reduction of the same kind and length, or both are over, with
results that agree, with the same failure, or in loops that have used up their rounds.

* `Program.Abreast`: the relation, with one rule for each construct of a program.
* `Program.exists_inStep`: a group whose ranks are abreast of each other runs in step.
-/

namespace MovingAsymptotes

variable {α ε ε' β β' γ γ' : Type}

/-- Two computations end alike: with results that agree, or with the same failure. -/
inductive Alike (Φ : β → β' → Prop) : Except ε β → Except ε β' → Prop
  | ok {b b'} : Φ b b' → Alike Φ (.ok b) (.ok b')
  | error {e} : Alike Φ (.error e) (.error e)

/-- Two outcomes agree. -/
inductive Outcome.Alike (Φ : β → β' → Prop) : Outcome ε β → Outcome ε β' → Prop
  | done {b b'} : Φ b b' → Alike Φ (.done b) (.done b')
  | failed {e} : Alike Φ (.failed e) (.failed e)
  | unfinished : Alike Φ .unfinished .unfinished

namespace Program

/-- The same replies lead two programs through reductions of the same kinds and lengths to ends that
agree. -/
inductive Abreast (Φ : β → β' → Prop) : Program α ε β → Program α ε β' → Prop
  | pure {b b'} : Φ b b' → Abreast Φ (.pure b) (.pure b')
  | fail {e} : Abreast Φ (.fail e) (.fail e)
  | unfinished : Abreast Φ .unfinished .unfinished
  | reduce {k op} {u v : Vector α k} {f g} : (∀ reply, Abreast Φ (f reply) (g reply)) →
    Abreast Φ (.reduce op u f) (.reduce op v g)

section Rules

variable {Φ Φ' : β → β' → Prop} {Ψ : γ → γ' → Prop} {p : Program α ε β} {q : Program α ε β'}
  {f : β → Program α ε γ} {g : β' → Program α ε γ'}

/-- A program is abreast of itself if every result agrees with itself. -/
lemma Ensures.abreast {Φ : β → β → Prop} {Q : β → Prop} (h : p.Ensures .any Q) (hΦ : ∀ b, Q b → Φ b b) :
    Abreast Φ p p := by
  induction p with
  | pure b => exact .pure (hΦ b h)
  | fail e => exact .fail
  | unfinished => exact .unfinished
  | reduce op buffer next ih => exact .reduce fun reply => ih reply (h reply trivial)

lemma Abreast.mono (h : Abreast Φ p q) (hΦ : ∀ b b', Φ b b' → Φ' b b') : Abreast Φ' p q := by
  induction h with
  | pure hb => exact .pure (hΦ _ _ hb)
  | fail => exact .fail
  | unfinished => exact .unfinished
  | reduce _ ih => exact .reduce ih

/-- Programs that go on from results that agree stay abreast if what they go on with does. -/
theorem Abreast.bind (h : Abreast Φ p q) (hf : ∀ b b', Φ b b' → Abreast Ψ (f b) (g b')) :
    Abreast Ψ (p >>= f) (q >>= g) := by
  induction h with
  | pure hb => exact hf _ _ hb
  | fail => exact .fail
  | unfinished => exact .unfinished
  | reduce _ ih => exact .reduce ih

lemma Abreast.mapError (h : Abreast Φ p q) (t : ε → ε') : Abreast Φ (p.mapError t) (q.mapError t) := by
  induction h with
  | pure hb => exact .pure hb
  | fail => exact .fail
  | unfinished => exact .unfinished
  | reduce _ ih => exact .reduce ih

lemma Abreast.attempt (h : Abreast Φ p q) :
    Abreast (MovingAsymptotes.Alike Φ) (p.attempt : Program α ε' _) q.attempt := by
  induction h with
  | pure hb => exact .pure (.ok hb)
  | fail => exact .pure .error
  | unfinished => exact .unfinished
  | reduce _ ih => exact .reduce ih

/-- Every reduction leaves the ranks with the same value. -/
lemma abreast_reduceAll {k : Nat} (op : Reduction) (u v : Vector α k) :
    Abreast Eq (reduceAll op u) (reduceAll op v) := by
  refine .reduce fun reply => ?_
  cases reply with
  | ok combined => exact .pure rfl
  | error fault => exact .fail

lemma abreast_reduceScalar (op : Reduction) (a b : α) :
    Abreast Eq (reduceScalar op a) (reduceScalar op b) := by
  apply (abreast_reduceAll op #v[a] #v[b]).bind
  rintro combined _ rfl
  exact .pure rfl

/-- What a program that waits is abreast of waits for the same reduction. -/
lemma Abreast.waits {k : Nat} {op : Reduction} {u : Vector α k} {next} {q : Program α ε β'}
    (h : Abreast Φ (.reduce op u next) q) :
    ∃ v f, q = .reduce op v f ∧ ∀ reply, Abreast Φ (next reply) (f reply) := by
  cases h with
  | reduce hnext => exact ⟨_, _, rfl, hnext⟩

/-- What a program that is over is abreast of is over, too, and they end alike. -/
lemma Abreast.over {o : Outcome ε β} {q : Program α ε β'} (h : Abreast Φ o.program q) :
    ∃ o' : Outcome ε β', q = o'.program ∧ o.Alike Φ o' := by
  cases o with
  | done b =>
    obtain ⟨hb⟩ : Abreast Φ (.pure b) q := h
    exact ⟨.done _, rfl, .done hb⟩
  | failed e =>
    obtain ⟨_⟩ : Abreast Φ (.fail e) q := h
    exact ⟨.failed e, rfl, .failed⟩
  | unfinished =>
    obtain ⟨_⟩ : Abreast Φ .unfinished q := h
    exact ⟨.unfinished, rfl, .unfinished⟩

end Rules

section Group

variable [Scalar α] {R : Nat} {β : Fin (R + 1) → Type} {Φ : ∀ r r', β r → β r' → Prop}

/-- A group whose ranks are abreast of one that is over is over. -/
lemma exists_ended {o : Outcome ε (β 0)} {p : ∀ r, Program α ε (β r)}
    (ho : ∀ r, Abreast (Φ 0 r) o.program (p r)) (h : ∀ r r', Abreast (Φ r r') (p r) (p r')) :
    ∃ o, InStep p o ∧ ∀ r r', (o r).Alike (Φ r r') (o r') := by
  choose ends hends _ using fun r => (ho r).over
  refine ⟨ends, .ended hends, fun r r' => ?_⟩
  have agree := h r r'
  rw [hends r] at agree
  obtain ⟨o', ho', halike⟩ := agree.over
  rwa [← Outcome.program_injective ((hends r').symm.trans ho')] at halike

/-- A group whose ranks are abreast of each other runs in step, and its outcomes agree. -/
theorem exists_inStep {p : ∀ r, Program α ε (β r)} (h : ∀ r r', Abreast (Φ r r') (p r) (p r')) :
    ∃ o, InStep p o ∧ ∀ r r', (o r).Alike (Φ r r') (o r') := by
  -- The induction is on the program of rank zero, which all others are abreast of.
  suffices ∀ (q : Program α ε (β 0)) (p : ∀ r, Program α ε (β r)), (∀ r, Abreast (Φ 0 r) q (p r)) →
      (∀ r r', Abreast (Φ r r') (p r) (p r')) → ∃ o, InStep p o ∧ ∀ r r', (o r).Alike (Φ r r') (o r') from
    this (p 0) p (h 0) h
  intro q
  induction q with
  | pure b => exact fun p hq h => exists_ended (o := .done b) hq h
  | fail e => exact fun p hq h => exists_ended (o := .failed e) hq h
  | unfinished => exact fun p hq h => exists_ended (o := .unfinished) hq h
  | @reduce k op buffer next ih =>
    intro p hq h
    choose buffers nexts hp hnext using fun r => (hq r).waits
    obtain ⟨o, ho, halike⟩ := ih (.ok (op.combined buffers)) (fun r => nexts r (.ok (op.combined buffers)))
      (fun r => hnext r _) fun r r' => by
        have agree := h r r'
        rw [hp, hp] at agree
        cases agree with
        | reduce hreply => exact hreply _
    exact ⟨o, .reduce op buffers nexts hp ho, halike⟩

end Group

end Program

end MovingAsymptotes
