import MovingAsymptotes.Proofs.Optimizer.Log

/-!
# Checks of the optimality conditions and their extents

A check of the optimality conditions takes its weights from the state and its multipliers from the
solution that the state has recorded. It compares the extents of the multipliers with those of the
gradients, but not those of the weights. The weights always have an entry for each constraint that the
state counts, as long as nobody edits them; so a check can only go wrong if the count has changed since
the solution was recorded.

* `Optimizer.session_ensures`: what all calls keep holds of all states of a session.
* `Optimizer.update_checkable`: no check goes wrong right after an update that has succeeded.
* `Optimizer.session_outOfShape_iff`: when a check goes wrong, in every state of a session.
-/

namespace MovingAsymptotes

variable {α ε : Type} {n : Nat}

namespace WeightDraft

variable {w : WeightDraft α} {k m : Nat}

/-- The draft has weights for each of `m` constraints, and no others. -/
structure Serves (w : WeightDraft α) (m : Nat) : Prop where
  a : w.a.size = m
  c : w.c.size = m
  d : w.d.size = m

lemma default_serves [Scalar α] (m : Nat) : (default m : WeightDraft α).Serves m :=
  ⟨Array.size_replicate, Array.size_replicate, Array.size_replicate⟩

lemma serves_of_sized {wt : Weights α m} (h : w.sized m = .ok wt) : w.Serves m := by
  rw [sized_eq_ok_iff] at h
  subst h
  exact ⟨wt.a.size_toArray, wt.c.size_toArray, wt.d.size_toArray⟩

lemma serves_of_validate [Scalar α] {wt : Weights α m} (h : w.validate m = .ok wt) : w.Serves m :=
  serves_of_sized (validate_eq_ok_iff_positive.1 h).1

/-- Weights for `k` constraints are of use for `k` constraints only. -/
lemma Serves.leading?_eq_none_iff (h : w.Serves k) : w.leading? m = none ↔ k ≠ m := by
  constructor
  · rintro hn rfl
    have hs : w.sized k =
        .ok { a0 := w.a0, b0 := w.b0, a := ⟨w.a, h.a⟩, c := ⟨w.c, h.c⟩, d := ⟨w.d, h.d⟩ } :=
      sized_eq_ok_iff.2 rfl
    rw [leading?_of_sized hs] at hn
    cases hn
  · intro hk
    unfold leading?
    cases hs : ({ w with c := w.c.take m, d := w.d.take m } : WeightDraft α).sized m with
    | error cause => rfl
    | ok wt => exact absurd (h.a.symm.trans (serves_of_sized hs).a) hk

end WeightDraft

/-- Gradients that do not fit are refused for one of their extents. -/
lemma Sensitivities.matched_eq_error {s : Sensitivities α} {cause : Cause α}
    (h : s.matched n = .error cause) : ∃ what expected found, cause = .dimensionMismatch what expected found := by
  unfold matched checkedLength Table.matched at h
  by_cases hd : s.dfdx.size = n
  · by_cases hr : s.dgdx.rows = n
    · by_cases hc : s.dgdx.cols = s.g.size
      · rw [dif_pos hd, dif_pos hr, dif_pos hc] at h
        cases h
      · rw [dif_pos hd, dif_pos hr, dif_neg hc] at h
        cases h
        exact ⟨_, _, _, rfl⟩
    · rw [dif_pos hd, dif_neg hr] at h
      cases h
      exact ⟨_, _, _, rfl⟩
  · rw [dif_neg hd] at h
    cases h
    exact ⟨_, _, _, rfl⟩

namespace Optimizer

open Session

variable [Scalar α] {o o' : Optimizer α n}

/-- A check of the optimality conditions goes wrong: it comes to the weights, and they do not serve. -/
def OutOfShape (o : Optimizer α n) (s : Sensitivities α) : Prop :=
  (o.kktCheck s : Program α (Cause α) _) =
    .pure (.error { during := [.kktCheck], cause := .unfitWeights s.g.size })

lemma outOfShape_iff (o : Optimizer α n) (s : Sensitivities α) :
    o.OutOfShape s ↔ ∃ found d, o.lastSolution = some found ∧ found.m = s.g.size ∧
      s.matched n = .ok d ∧ o.weights.leading? s.g.size = none := by
  unfold OutOfShape kktCheck Sensitivities.residual
  cases hf : o.lastSolution with
  | none =>
    constructor
    · intro h
      cases h
    · rintro ⟨found, d, h, -⟩
      cases h
  | some found =>
    cases hd : s.matched n with
    | error cause =>
      constructor
      · intro h
        obtain ⟨what, expected, actual, rfl⟩ := Sensitivities.matched_eq_error hd
        cases h
      · rintro ⟨found, d, -, -, h, -⟩
        cases h
    | ok d =>
      by_cases hm : found.m = s.g.size
      · cases hw : o.weights.leading? s.g.size with
        | none =>
          refine iff_of_true ?_ ⟨found, d, rfl, hm, rfl, rfl⟩
          simp only [dif_pos hm, dite_true]
          rfl
        | some wt =>
          constructor
          · intro h
            simp only [dif_pos hm, dite_true] at h
            cases h
          · rintro ⟨found, d, -, -, -, h⟩
            cases h
      · constructor
        · intro h
          simp only [dif_neg hm] at h
          cases h
        · rintro ⟨found, d, h, hm', -⟩
          cases h
          exact absurd hm' hm

section Calls

lemma setConstraintCount_serves (ho : o.weights.Serves o.m) (m : Nat) :
    (o.setConstraintCount m).weights.Serves (o.setConstraintCount m).m := by
  unfold setConstraintCount
  split
  · exact WeightDraft.default_serves m
  · exact ho

/-- An update leaves weights that serve the constraints counted, whatever its result. -/
lemma update_serves {A : Replies α} (ho : o.weights.Serves o.m) (e : Execution) (s : Sensitivities α) :
    (o.update e s : Program α ε _).Ensures A fun next => next.1.weights.Serves next.1.m := by
  have counted := setConstraintCount_serves ho s.g.size
  have course := o.update_course (ε := ε) e s
  generalize o.update e s = p at course ⊢
  cases course with
  | unfit => exact ho
  | refused => exact counted
  | attempted =>
    refine Program.ensures_bind fun result => ?_
    obtain ⟨-, -, hm, hw⟩ := (o.setConstraintCount s.g.size).settled_keeps result
    rw [← hw, ← hm] at counted
    exact counted

/-- A call other than an edit leaves weights that serve the constraints counted. -/
theorem perform_serves {A : Replies α} (ho : o.weights.Serves o.m) (e : Execution) {call : Call α}
    (hcall : ∀ edit, call ≠ .editWeights edit) :
    (o.perform e call : Program α ε _).Ensures A fun entry =>
      ∀ o', entry.state = some o' → o'.weights.Serves o'.m := by
  refine (perform_ensures (update_serves ho e) call).mono fun entry hentry o' hstate => ?_
  cases hentry with
  | edited => exact absurd rfl (hcall _)
  | closed => cases hstate
  | counted =>
    cases hstate
    exact setConstraintCount_serves ho _
  | updated hserves =>
    cases hstate
    exact hserves
  | configured | bounded | unbounded | placed | unplaced | checked =>
    cases hstate
    exact ho

/-- What every call of a session keeps holds of every state of the session. -/
theorem session_ensures {A : Replies α} {e : Execution} {I : Optimizer α n → Prop} {P : Call α → Prop}
    (step : ∀ o call, I o → P call → (o.perform e call : Program α ε _).Ensures A fun entry =>
      ∀ o', entry.state = some o' → I o')
    {calls : List (Call α)} (hcalls : ∀ call ∈ calls, P call) (ho : I o) :
    (o.session e calls : Program α ε _).Ensures A fun entries =>
      ∀ entry ∈ entries, ∀ o', entry.state = some o' → I o' := by
  induction calls generalizing o with
  | nil => exact fun _ h => absurd h List.not_mem_nil
  | cons call later ih =>
    obtain ⟨first, rest⟩ := List.forall_mem_cons.1 hcalls
    unfold session
    refine (step o call ho first).bind fun entry hentry => ?_
    cases hs : entry.state with
    | none =>
      intro other hother o' ho'
      rw [List.mem_singleton.1 hother] at ho'
      exact hentry o' ho'
    | some next =>
      refine (ih rest (hentry next hs)).bind fun entries hentries => ?_
      exact List.forall_mem_cons.2 ⟨hentry, hentries⟩

/-- A single rank replies to an update with what the update comes to. -/
lemma perform_update_serial {e : Execution} {s : Sensitivities α} {result : Except (Failure α) α}
    (h : (o.update e s : Program α ε _).serial = .done (o', result)) :
    (o.perform e (.update s) : Program α ε _).serial =
      .done { reply := result.map .change, state := some o' } := by
  unfold perform
  rw [Program.serial_bind, h]
  rfl

/-- A single rank goes through a session call by call. -/
lemma session_serial_cons {e : Execution} {call : Call α} {later : List (Call α)} {entry : Entry α n}
    {entries : List (Entry α n)} (h : (o.perform e call : Program α ε _).serial = .done entry)
    (hs : entry.state = some o') (hl : (o'.session e later : Program α ε _).serial = .done entries) :
    (o.session e (call :: later) : Program α ε _).serial = .done (entry :: entries) := by
  unfold session
  rw [Program.serial_bind, h]
  simp only [Outcome.andThen, hs]
  rw [Program.serial_bind, hl]
  rfl

end Calls

section Records

/-- An update records a solution for its own number of constraints together with the asymptotes that it
was found between, or none. -/
lemma step_records {A : Replies α} {m : Nat} (o : Optimizer α n) (e : Execution) (d : Gradients α n m)
    (hm : 0 < m) (wt : Weights α m) :
    (o.step e d hm wt).Ensures A fun step =>
      (m < 2 ∧ ∃ taken, step = .criteria taken) ∨ 2 ≤ m ∧ ∃ limits solution,
        step = .subproblem (o.asymptotes.advance (o.iteration + 1) o.history o.bounds o.settings) limits
          ⟨m, solution⟩ := by
  unfold step
  split
  · next h => exact Program.ensures_bind fun taken => .inl ⟨h, taken, rfl⟩
  · next h =>
    refine Program.Ensures.mapError ?_ _
    exact Program.ensures_bind fun a => Program.ensures_bind fun solution =>
      .inr ⟨not_lt.1 h, _, solution, rfl⟩

lemma attemptUpdate_records {A : Replies α} {m : Nat} (o : Optimizer α n) (e : Execution)
    (d : Gradients α n m) (hm : 0 < m) (wt : Weights α m) :
    (o.attemptUpdate e d hm wt).Ensures A fun found =>
      (m < 2 ∧ ∃ taken, found.1 = .criteria taken) ∨ 2 ≤ m ∧ ∃ limits solution,
        found.1 = .subproblem (o.asymptotes.advance (o.iteration + 1) o.history o.bounds o.settings) limits
          ⟨m, solution⟩ :=
  (step_records o e d hm wt).bind fun _ hstep => Program.ensures_bind fun _ => hstep

/-- An update by a subproblem that succeeds counts its constraints and records a solution for them. -/
lemma update_records {A : Replies α} (o : Optimizer α n) (e : Execution) {s : Sensitivities α}
    (hm : 2 ≤ s.g.size) :
    (o.update e s : Program α ε _).Ensures A fun next => ∀ change, next.2 = .ok change →
      next.1.m = s.g.size ∧ ∃ solution, next.1.lastSolution = some ⟨s.g.size, solution⟩ := by
  refine update_ensures_of_attempt
    (Q := fun next => next.m = s.g.size ∧ ∃ solution, next.lastSolution = some ⟨s.g.size, solution⟩)
    fun d wt hpos _ _ => ?_
  refine (attemptUpdate_records (o.setConstraintCount s.g.size) e d hpos wt).mono fun found hfound => ?_
  obtain ⟨step, change⟩ := found
  rcases hfound with ⟨hlt, -⟩ | ⟨-, limits, solution, rfl⟩
  · exact absurd hlt hm.not_gt
  · exact ⟨o.setConstraintCount_m _, solution, rfl⟩

/-- Right after an update that has succeeded no check of the optimality conditions goes wrong. -/
theorem update_checkable (o : Optimizer α n) (e : Execution) (s : Sensitivities α) :
    (o.update e s : Program α ε _).Ensures .any fun next =>
      ∀ change, next.2 = .ok change → ∀ s', ¬ next.1.OutOfShape s' := by
  refine update_ensures_of_attempt (Q := fun next => ∀ s', ¬ next.OutOfShape s') fun d wt hm _ hwt => ?_
  refine (attemptUpdate_records (o.setConstraintCount s.g.size) e d hm wt).mono fun found hfound s' hout => ?_
  obtain ⟨last, d', hlast, hcount, -, hnone⟩ := (outOfShape_iff _ s').1 hout
  have hs : (o.setConstraintCount s.g.size).weights.Serves s.g.size := WeightDraft.serves_of_validate hwt
  obtain ⟨step, change⟩ := found
  rcases hfound with ⟨-, taken, rfl⟩ | ⟨-, limits, solution, rfl⟩
  · cases hlast
  · cases hlast
    exact hs.leading?_eq_none_iff.1 hnone hcount

end Records

section Checks

/-- In every state of a session in which nobody edits the weights, they serve the constraints that are
counted, and a check of the optimality conditions goes wrong exactly if it gets past the extents of the
gradients and of the multipliers while another number of constraints is counted. -/
theorem session_outOfShape_iff (n nGlobal : Nat) (e : Execution) {calls : List (Call α)}
    (hcalls : ∀ call ∈ calls, ∀ edit, call ≠ .editWeights edit) :
    (create n nGlobal >>= fun o => o.session e calls : Program α (Cause α) _).Ensures .any fun entries =>
      ∀ entry ∈ entries, ∀ o, entry.state = some o → o.weights.Serves o.m ∧
        ∀ s, o.OutOfShape s ↔ ∃ found d, o.lastSolution = some found ∧ found.m = s.g.size ∧
          s.matched n = .ok d ∧ o.m ≠ s.g.size := by
  refine (create_ensures n nGlobal).bind ?_
  rintro _ rfl
  have serves := session_ensures (ε := Cause α) (A := .any) (o := initial n nGlobal)
    (I := fun o => o.weights.Serves o.m) (fun _ _ ho hcall => perform_serves ho e hcall) hcalls
    (WeightDraft.default_serves 0)
  refine serves.mono fun entries hentries entry hentry o ho => ?_
  have hs := hentries entry hentry o ho
  refine ⟨hs, fun s => ?_⟩
  rw [outOfShape_iff, hs.leading?_eq_none_iff]

/-- One variable under two constraints. -/
noncomputable def paired : Evaluation ℝ 1 where
  dfdx := .singleton 1
  g := #[-1, 0]
  dgdx := .singleton #v[1, -1]

/-- The first update comes to an end and records a solution for two constraints. -/
lemma update_paired : ∃ rounds o change, ∃ solution : Solution ℝ 1 2,
    ((initial 1 1).update (.single rounds) paired.sensitivities : Program ℝ (Cause ℝ) _).serial =
      .done (o, .ok change) ∧ o.m = 2 ∧ o.lastSolution = some ⟨2, solution⟩ := by
  have ho : (initial 1 1 : Optimizer ℝ 1).Configured := initial_configured 1 1
  obtain ⟨rounds, step, change, -, updated, -⟩ := exists_update_serial (d := paired) ho.bounds
    (initial_contains 1 1) ho.settings (le_refl 2) nofun
  have ends := Program.ends_of_serial (A := .any) (fun _ _ _ => trivial) updated
  obtain ⟨hm, solution, hl⟩ := (update_records _ _ (le_refl 2)).of_ends ends change rfl
  exact ⟨rounds, _, change, solution, updated, hm, hl⟩

/-- After that update three constraints are counted, and the session goes on from there. -/
lemma session_recounted : ∃ rounds before, ∃ o : Optimizer ℝ 1, ∃ solution : Solution ℝ 1 2,
    o.m = 3 ∧ o.weights = .default 3 ∧ o.lastSolution = some ⟨2, solution⟩ ∧
      ∀ later entries, (o.session (.single rounds) later : Program ℝ (Cause ℝ) _).serial = .done entries →
        (create 1 1 >>= fun o => o.session (.single rounds)
          (.update paired.sensitivities :: .setConstraintCount 3 :: later) : Program ℝ (Cause ℝ) _).serial =
            .done (before :: { reply := .ok (.weights o.weights), state := some o } :: entries) := by
  obtain ⟨rounds, o, change, solution, updated, hm, hl⟩ := update_paired
  have hc : o.setConstraintCount 3 = { o with m := 3, weights := .default 3 } :=
    if_pos (.inl (by rw [hm]; norm_num))
  refine ⟨rounds, ⟨.ok (.change change), some o⟩, o.setConstraintCount 3, solution, ?_, ?_, ?_,
    fun later entries h => ?_⟩
  · rw [hc]
  · rw [hc]
  · rw [hc]
    exact hl
  · rw [Program.serial_bind, create_serial]
    exact session_serial_cons (perform_update_serial updated) rfl (session_serial_cons rfl rfl h)

/-- With the solution for two constraints on record and three constraints counted, the checks that go wrong
are those with gradients for two constraints. -/
theorem session_outOfShape_iff_counted : ∃ rounds before, ∃ o : Optimizer ℝ 1, ∃ solution : Solution ℝ 1 2,
    (create 1 1 >>= fun o => o.session (.single rounds)
      [.update paired.sensitivities, .setConstraintCount 3] : Program ℝ (Cause ℝ) _).serial =
        .done [before, { reply := .ok (.weights o.weights), state := some o }] ∧
    o.m = 3 ∧ o.weights.Serves 3 ∧ o.lastSolution = some ⟨2, solution⟩ ∧
      (∀ s, o.OutOfShape s ↔ s.g.size = 2 ∧ ∃ d, s.matched 1 = .ok d) ∧
        o.OutOfShape paired.sensitivities := by
  obtain ⟨rounds, before, o, solution, hm, -, hl, run⟩ := session_recounted
  let calls : List (Call ℝ) := [.update paired.sensitivities, .setConstraintCount 3]
  have unedited : ∀ call ∈ calls, ∀ edit, call ≠ .editWeights edit :=
    List.forall_mem_cons.2 ⟨nofun, List.forall_mem_singleton.2 nofun⟩
  have ended := run [] [] rfl
  have ends := Program.ends_of_serial (A := .any) (fun _ _ _ => trivial) ended
  have last : (⟨.ok (.weights o.weights), some o⟩ : Entry ℝ 1) ∈
      [before, ⟨.ok (.weights o.weights), some o⟩] := List.mem_cons_of_mem _ (List.mem_singleton.2 rfl)
  obtain ⟨serves, goesWrong⟩ :=
    (session_outOfShape_iff 1 1 (.single rounds) unedited).of_ends ends _ last o rfl
  have wrong : ∀ s, o.OutOfShape s ↔ s.g.size = 2 ∧ ∃ d, s.matched 1 = .ok d := by
    intro s
    rw [goesWrong, hl, hm]
    constructor
    · rintro ⟨found, d, hfound, hsize, hd, -⟩
      cases hfound
      exact ⟨hsize.symm, d, hd⟩
    · rintro ⟨hsize, d, hd⟩
      exact ⟨_, d, rfl, hsize.symm, hd, by omega⟩
  exact ⟨rounds, before, o, solution, ended, hm, hm ▸ serves, hl, wrong, (wrong _).2 ⟨rfl, _, paired.matched⟩⟩

/-- A check with the gradients of that update goes wrong once three constraints are counted. -/
theorem check_goes_wrong_counted : ∃ rounds entries, ∃ o : Optimizer ℝ 1,
    (create 1 1 >>= fun o => o.session (.single rounds)
      [.update paired.sensitivities, .setConstraintCount 3, .kktCheck paired.sensitivities] :
        Program ℝ (Cause ℝ) _).serial =
      .done (entries ++
        [{ reply := .error { during := [.kktCheck], cause := .unfitWeights 2 }, state := some o }]) := by
  obtain ⟨rounds, before, o, solution, hm, hw, hl, run⟩ := session_recounted
  have wrong : o.OutOfShape paired.sensitivities := by
    rw [outOfShape_iff, hw]
    refine ⟨⟨2, solution⟩, _, hl, rfl, paired.matched, ?_⟩
    exact (WeightDraft.default_serves 3).leading?_eq_none_iff.2 (by decide)
  have last : (o.perform (.single rounds) (.kktCheck paired.sensitivities) : Program ℝ (Cause ℝ) _).serial =
      .done { reply := .error { during := [.kktCheck], cause := .unfitWeights 2 }, state := some o } := by
    show (o.kktCheck paired.sensitivities >>= _).serial = _
    rw [show o.kktCheck paired.sensitivities = _ from wrong]
    rfl
  exact ⟨rounds, [before, _], o, run _ _ (session_serial_cons last rfl rfl)⟩

end Checks

end Optimizer

end MovingAsymptotes
