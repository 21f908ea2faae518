import MovingAsymptotes.Proofs.Linear.Vector
import MovingAsymptotes.Proofs.Reduction.Group

/-!
# Distributed programs

The design variables are spread over the ranks of a group, any number on each rank and in any order. A
group of programs does what a program of a single rank does if it runs in step to the same kind of
outcome, with results that belong together. That is shown along the structure of the programs: sums and
maxima over the variables of a rank are combined into those over all variables, and whatever follows
from them is the same on every rank.

* `Distribution.sum_place`, `Distribution.forall_place_iff`: sums and statements over all variables.
* `Simulates.bind`: groups that go on.
* `simulates_sum`, `simulates_maxScalar`: reductions.
-/

namespace MovingAsymptotes

/-- A distribution of `N` variables over `R + 1` ranks. -/
structure Distribution (N R : Nat) where
  /-- The number of variables of each rank. -/
  size : Fin (R + 1) → Nat
  /-- The variable that stands at a place of a rank. -/
  index : (Σ r, Fin (size r)) ≃ Fin N

namespace Distribution

variable {N R : Nat} (δ : Distribution N R)

/-- The variable at a place of a rank. -/
def place (r : Fin (R + 1)) (j : Fin (δ.size r)) : Fin N := δ.index ⟨r, j⟩

/-- A sum over the variables of each rank, and over the ranks, is a sum over all variables. -/
lemma sum_place (f : Fin N → ℝ) :
    ∑ r : Fin (R + 1), ∑ j : Fin (δ.size r), f (δ.place r j) = ∑ j : Fin N, f j := by
  rw [← Fintype.sum_sigma' fun r j => f (δ.place r j)]
  exact δ.index.sum_comp f

/-- What holds of every variable of each rank holds of all variables. -/
lemma forall_place_iff {p : Fin N → Prop} : (∀ r j, p (δ.place r j)) ↔ ∀ j, p j := by
  refine Iff.trans ?_ δ.index.forall_congr_right
  exact ⟨fun h q => h q.1 q.2, fun h r j => h ⟨r, j⟩⟩

lemma sum_size : ∑ r : Fin (R + 1), (δ.size r : ℝ) = N := by
  have h := δ.sum_place fun _ => 1
  simpa using h

end Distribution

namespace Reduction

variable {R k : Nat}

lemma entry_combined_sum (buffers : Fin (R + 1) → Vector ℝ k) (i : Fin k) :
    (sum.combined buffers)[i] = ∑ r : Fin (R + 1), (buffers r)[i] := by
  have fold : ∀ (l : List (Vector ℝ k)) (v : Vector ℝ k),
      (l.foldl sum.merge v)[i] = v[i] + (l.map fun u => u[i]).sum := by
    intro l
    induction l with
    | nil => simp
    | cons u l ih =>
      intro v
      have hm : (sum.merge v u)[i] = v[i] + u[i] := entry_zipWith _ v u i
      rw [List.foldl_cons, ih, List.map_cons, List.sum_cons, hm, add_assoc]
  unfold combined
  rw [fold, List.map_ofFn, Fin.sum_univ_succ, List.sum_ofFn]
  rfl

/-- The largest of the entries of all ranks is bounded as all of them are. -/
lemma entry_combined_max_le_iff (buffers : Fin (R + 1) → Vector ℝ k) (i : Fin k) (c : ℝ) :
    (max.combined buffers)[i] ≤ c ↔ ∀ r, (buffers r)[i] ≤ c := by
  have fold : ∀ (l : List (Vector ℝ k)) (v : Vector ℝ k),
      (l.foldl max.merge v)[i] ≤ c ↔ v[i] ≤ c ∧ ∀ u ∈ l, u[i] ≤ c := by
    intro l
    induction l with
    | nil => simp
    | cons u l ih =>
      intro v
      have hm : (max.merge v u)[i] = larger v[i] u[i] := entry_zipWith _ v u i
      rw [List.foldl_cons, ih, hm, larger_eq_max, max_le_iff, List.forall_mem_cons, and_assoc]
  unfold combined
  rw [fold, List.forall_mem_ofFn_iff, Fin.forall_fin_succ]

end Reduction

namespace Program

variable {ε ε' B C : Type} {R : Nat} {β γ : Fin (R + 1) → Type}

/-- A group of programs does what a single program does: with its results the single result belongs
together, and it fails or is left unfinished as the single one. -/
def Simulates (S : Program ℝ ε B) (p : ∀ r, Program ℝ ε (β r)) (Φ : B → (∀ r, β r) → Prop) : Prop :=
  match S.serial with
  | .done b => ∃ c, InStep p (fun r => .done (c r)) ∧ Φ b c
  | .failed e => InStep p fun _ => .failed e
  | .unfinished => InStep p fun _ => .unfinished

variable {S S' : Program ℝ ε B} {p : ∀ r, Program ℝ ε (β r)} {Φ Φ' : B → (∀ r, β r) → Prop}

lemma simulates_pure {b : B} {c : ∀ r, β r} (h : Φ b c) :
    Simulates (Pure.pure b : Program ℝ ε B) (fun r => Pure.pure (c r)) Φ :=
  ⟨c, .ended fun _ => rfl, h⟩

/-- Programs that are all over. -/
lemma simulates_of_eq_pure {b : B} {c : ∀ r, β r} (hS : S = .pure b) (hp : ∀ r, p r = .pure (c r))
    (h : Φ b c) : Simulates S p Φ := by
  rw [hS, funext hp]
  exact simulates_pure h

lemma simulates_fail (e : ε) :
    Simulates (.fail e : Program ℝ ε B) (fun _ => .fail e) Φ :=
  InStep.ended fun _ => rfl

lemma simulates_unfinished : Simulates (.unfinished : Program ℝ ε B) (fun _ => .unfinished) Φ :=
  InStep.ended fun _ => rfl

/-- Only the outcome of the single program counts. -/
lemma Simulates.congr (h : Simulates S p Φ) (hs : S.serial = S'.serial) : Simulates S' p Φ := by
  unfold Simulates at h ⊢
  rwa [← hs]

/-- Where the single program comes to a result, the group comes to results that belong to it. -/
lemma Simulates.outcomes_eq (h : Simulates S p Φ) {b : B} (hS : S.serial = .done b) :
    ∃ c, outcomes p = some (List.ofFn fun r => .done ⟨r, c r⟩) ∧ Φ b c := by
  unfold Simulates at h
  rw [hS] at h
  obtain ⟨c, hc, hΦ⟩ := h
  exact ⟨c, hc.outcomes_eq, hΦ⟩

lemma Simulates.mono (h : Simulates S p Φ) (hp : ∀ b c, Φ b c → Φ' b c) : Simulates S p Φ' := by
  unfold Simulates at h ⊢
  split at h
  · next b hb =>
    obtain ⟨c, hc, hΦ⟩ := h
    exact ⟨c, hc, hp b c hΦ⟩
  · exact h
  · exact h

/-- The results that belong together are the outcomes of the group. -/
lemma Simulates.and_outcomes (h : Simulates S p Φ) :
    Simulates S p fun b c => Φ b c ∧ outcomes p = some (List.ofFn fun r => .done ⟨r, c r⟩) := by
  unfold Simulates at h ⊢
  split at h
  · obtain ⟨c, hc, hΦ⟩ := h
    exact ⟨c, hc, hΦ, hc.outcomes_eq⟩
  · exact h
  · exact h

/-- In a group of one only the outcome of the program counts. -/
lemma Simulates.of_serial_eq {β : Fin 1 → Type} {p p' : ∀ r, Program ℝ ε (β r)}
    {Φ : B → (∀ r, β r) → Prop} (h : Simulates S p Φ) (hp : ∀ r, (p r).serial = (p' r).serial) :
    Simulates S p' Φ := by
  have step : ∀ {o : ∀ r, Outcome ε (β r)}, InStep p o → InStep p' o := by
    intro o ho
    rw [ho.eq_serial, funext hp]
    exact inStep_serial p'
  unfold Simulates at h ⊢
  split at h
  · obtain ⟨c, hc, hΦ⟩ := h
    exact ⟨c, step hc, hΦ⟩
  · exact step h
  · exact step h

/-- A group goes on as a single program does. What is known of the single program's result may be used.
-/
theorem Simulates.bind {F : B → Program ℝ ε C} {f : ∀ r, β r → Program ℝ ε (γ r)}
    {Ψ : C → (∀ r, γ r) → Prop} (h : Simulates S p Φ)
    (hf : ∀ b c, S.serial = .done b → Φ b c → Simulates (F b) (fun r => f r (c r)) Ψ) :
    Simulates (S >>= F) (fun r => p r >>= f r) Ψ := by
  unfold Simulates at h
  cases hs : S.serial with
  | done b =>
    rw [hs] at h
    obtain ⟨c, hc, hΦ⟩ := h
    have hn := hf b c hs hΦ
    unfold Simulates at hn ⊢
    rw [serial_bind, hs]
    change match (F b).serial with
      | .done b => _
      | .failed e => _
      | .unfinished => _
    cases hF : (F b).serial with
    | done d =>
      rw [hF] at hn
      obtain ⟨c', hc', hΨ⟩ := hn
      exact ⟨c', hc.bind hc', hΨ⟩
    | failed e =>
      rw [hF] at hn
      exact hc.bind hn
    | unfinished =>
      rw [hF] at hn
      exact hc.bind hn
  -- Without a result there is nothing to go on from, on any rank.
  | failed e =>
    rw [hs] at h
    unfold Simulates
    rw [serial_bind, hs]
    exact InStep.bind h (.ended fun _ => rfl)
  | unfinished =>
    rw [hs] at h
    unfold Simulates
    rw [serial_bind, hs]
    exact InStep.bind h (.ended fun _ => rfl)

lemma Simulates.mapError (h : Simulates S p Φ) (g : ε → ε') :
    Simulates (S.mapError g) (fun r => (p r).mapError g) Φ := by
  have lift : ∀ {o : ∀ r, Outcome ε (β r)} {o' : ∀ r, Outcome ε' (β r)}, InStep p o →
      (∀ r, ((o r).program : Program ℝ ε (β r)).mapError g = (o' r).program) →
      InStep (fun r => (p r).mapError g) o' :=
    fun hp ho => hp.lift (fun r q => q.mapError g) (fun _ _ _ _ _ => rfl) (.ended ho)
  unfold Simulates at h ⊢
  rw [serial_mapError]
  cases hs : S.serial with
  | done b =>
    rw [hs] at h
    obtain ⟨c, hc, hΦ⟩ := h
    exact ⟨c, lift hc fun _ => rfl, hΦ⟩
  | failed e =>
    rw [hs] at h
    exact lift h fun _ => rfl
  | unfinished =>
    rw [hs] at h
    exact lift h fun _ => rfl

lemma Simulates.attempt (h : Simulates S p Φ) :
    Simulates (S.attempt : Program ℝ ε' (Except ε B)) (fun r => (p r).attempt) fun b c =>
      match b with
      | .ok b => ∃ c', (∀ r, c r = .ok (c' r)) ∧ Φ b c'
      | .error e => ∀ r, c r = .error e := by
  have lift : ∀ {o : ∀ r, Outcome ε (β r)} {o' : ∀ r, Outcome ε' (Except ε (β r))}, InStep p o →
      (∀ r, ((o r).program : Program ℝ ε (β r)).attempt = (o' r).program) →
      InStep (fun r => (p r).attempt) o' :=
    fun hp ho => hp.lift (fun r q => q.attempt) (fun _ _ _ _ _ => rfl) (.ended ho)
  unfold Simulates at h ⊢
  rw [serial_attempt]
  cases hs : S.serial with
  | done b =>
    rw [hs] at h
    obtain ⟨c, hc, hΦ⟩ := h
    exact ⟨fun r => .ok (c r), lift hc fun _ => rfl, c, fun _ => rfl, hΦ⟩
  | failed e =>
    rw [hs] at h
    exact ⟨fun _ => .error e, lift h fun _ => rfl, fun _ => rfl⟩
  | unfinished =>
    rw [hs] at h
    exact lift h fun _ => rfl

section Reductions

variable {k : Nat}

/-- A reduction is simulated if the single buffer is what the ranks combine. -/
lemma simulates_reduceAll {op : Reduction} {v : Vector ℝ k} {u : Fin (R + 1) → Vector ℝ k}
    (h : v = op.combined u) :
    Simulates (reduceAll op v) (fun r => reduceAll op (u r)) fun b c => ∀ r, c r = b := by
  refine ⟨fun _ => v, ?_, fun _ => rfl⟩
  refine .reduce op u _ (fun _ => rfl) ?_
  rw [← h]
  exact .ended fun _ => rfl

lemma simulates_reduceScalar {op : Reduction} {a : ℝ} {u : Fin (R + 1) → ℝ}
    (h : #v[a] = op.combined fun r => #v[u r]) :
    Simulates (reduceScalar op a) (fun r => reduceScalar op (u r)) fun b c => ∀ r, c r = b := by
  refine (simulates_reduceAll h).bind fun b c _ hc => ?_
  refine simulates_pure fun r => ?_
  rw [hc]

lemma simulates_sum {v : Vector ℝ k} {u : Fin (R + 1) → Vector ℝ k}
    (h : ∀ i : Fin k, v[i] = ∑ r, (u r)[i]) :
    Simulates (reduceAll .sum v) (fun r => reduceAll .sum (u r)) fun b c => ∀ r, c r = b :=
  simulates_reduceAll (vector_ext fun i => (h i).trans (Reduction.entry_combined_sum u i).symm)

lemma simulates_sumScalar {a : ℝ} {u : Fin (R + 1) → ℝ} (h : a = ∑ r, u r) :
    Simulates (reduceScalar .sum a) (fun r => reduceScalar .sum (u r)) fun b c => ∀ r, c r = b := by
  refine simulates_reduceScalar (vector_ext fun i => ?_)
  rw [Reduction.entry_combined_sum, Fin.eq_zero i]
  exact h

lemma simulates_maxScalar {a : ℝ} {u : Fin (R + 1) → ℝ} (h : ∀ c, a ≤ c ↔ ∀ r, u r ≤ c) :
    Simulates (reduceScalar .max a) (fun r => reduceScalar .max (u r)) fun b c => ∀ r, c r = b := by
  refine simulates_reduceScalar (vector_ext fun i => ?_)
  refine eq_of_forall_ge_iff fun c => ?_
  rw [Reduction.entry_combined_max_le_iff, Fin.eq_zero i]
  exact h c

end Reductions

end Program

end MovingAsymptotes
