import MovingAsymptotes.Proofs.Optimizer.Evaluation
import MovingAsymptotes.Session

/-!
# Sessions over the reals

Requests are calls whose arguments fit the variables. If each of them is valid in the state in which a
single rank comes to it, every call comes to an end once its loops have rounds enough, and the rank is
ready for the next one.

* `Request.Valid`: bounds with a range, and a design within the bounds in force.
* `Session.Admissible`: requests that are valid along the session.
* `Optimizer.perform_returns`: one call.
* `Session.run_returns`: a session from its start.
-/

namespace MovingAsymptotes

variable {n : Nat}

namespace Session

/-- A call whose arguments fit `n` variables. -/
inductive Request (n : Nat) where
  | setConstraintCount (m : Nat)
  | editWeights (edit : WeightDraft ℝ → WeightDraft ℝ)
  | configure (settings : Settings ℝ)
  | setBounds (bounds : Bounds ℝ n)
  | setDesign (x : Vector ℝ n)
  | update (d : Evaluation ℝ n)
  | kktCheck (d : Evaluation ℝ n)

namespace Request

/-- The call that makes the request. -/
def call : Request n → Call ℝ
  | .setConstraintCount m => .setConstraintCount m
  | .editWeights edit => .editWeights edit
  | .configure settings => .configure settings
  | .setBounds bounds => .setBounds bounds.lower.toArray bounds.upper.toArray
  | .setDesign x => .setDesign x.toArray
  | .update d => .update d.sensitivities
  | .kktCheck d => .kktCheck d.sensitivities

/-- The request is valid in a state: bounds leave every variable a range, and a design that is set or
updated lies within the bounds in force. -/
def Valid (o : Optimizer ℝ n) : Request n → Prop
  | .setBounds bounds => bounds.Proper
  | .setDesign x => o.bounds.Contains x
  | .update _ => o.bounds.Contains o.history.current
  | _ => True

/-- The rounds are enough for the settings that the request asks for. -/
def Allows (rounds : Nat) : Request n → Prop
  | .configure settings => settings.Valid → settings.Allows rounds
  | _ => True

/-- Some number of rounds is enough for some requests, and so is every larger one. -/
lemma exists_allows (requests : List (Request n)) :
    ∃ rounds₀, ∀ rounds, rounds₀ ≤ rounds → ∀ q ∈ requests, q.Allows rounds := by
  induction requests with
  | nil => exact ⟨0, fun _ _ _ hq => absurd hq List.not_mem_nil⟩
  | cons q later ih =>
    have first : ∃ k, ∀ rounds, k ≤ rounds → q.Allows rounds := by
      cases q with
      | configure settings =>
        by_cases hs : settings.Valid
        · obtain ⟨k, hk⟩ := hs.exists_allows
          exact ⟨k, fun rounds hr _ => hk rounds hr⟩
        · exact ⟨0, fun _ _ h => absurd h hs⟩
      | _ => exact ⟨0, fun _ _ => trivial⟩
    obtain ⟨k, hk⟩ := first
    obtain ⟨l, hl⟩ := ih
    refine ⟨max k l, fun rounds hr => List.forall_mem_cons.2 ⟨?_, ?_⟩⟩
    · exact hk rounds ((le_max_left k l).trans hr)
    · exact hl rounds ((le_max_right k l).trans hr)

end Request

/-- Each request is valid in the state in which a single rank comes to it. -/
def Admissible (rounds : Nat) : Optimizer ℝ n → List (Request n) → Prop
  | _, [] => True
  | o, q :: later => q.Valid o ∧ ∀ entry o',
      (o.perform (.single rounds) q.call : Program ℝ (Cause ℝ) (Entry ℝ n)).serial = .done entry →
        entry.state = some o' → Admissible rounds o' later

end Session

namespace Session

/-- The work of a rank with `n` of `nGlobal` variables: it starts with the settings and makes the
requests in turn. -/
noncomputable def run (n nGlobal : Nat) (settings : Settings ℝ) (e : Execution)
    (requests : List (Request n)) : Program ℝ (Cause ℝ) (List (Entry ℝ n)) := do
  let o ← Optimizer.start n nGlobal settings
  o.session e (requests.map Request.call)

end Session

namespace Optimizer

open Session

variable {ε : Type} {o : Optimizer ℝ n} {rounds : Nat}

section Initial

variable {α : Type} [Scalar α] (n nGlobal : Nat) (j : Fin n)

lemma initial_lower : (initial n nGlobal : Optimizer α n).bounds.lower[j] = 0 := entry_replicate 0 j

lemma initial_upper : (initial n nGlobal : Optimizer α n).bounds.upper[j] = 1 := entry_replicate 1 j

lemma initial_current : (initial n nGlobal : Optimizer α n).history.current[j] = 0.5 := entry_replicate 0.5 j

end Initial

/-- The initial state is ready once accepted settings are in force. -/
lemma ready_initial (n nGlobal : Nat) {settings : Settings ℝ} (hs : settings.Valid)
    (hr : settings.Allows rounds) :
    ({ initial n nGlobal with settings } : Optimizer ℝ n).Ready rounds where
  bounds := by
    intro j
    rw [initial_lower, initial_upper]
    exact one_pos
  settings := hs
  allows := hr

lemma create_serial (n : Nat) :
    (create n n : Program ℝ (Cause ℝ) (Optimizer ℝ n)).serial = .done (initial n n) := by
  unfold create
  rw [Program.serial_bind, Program.serial_reduceScalar]
  simp only [Outcome.andThen, agrees_iff, if_true]
  rfl

lemma start_serial {settings : Settings ℝ} (hs : settings.validate = .ok ()) :
    (start n n settings).serial = .done { initial n n with settings } := by
  unfold start
  rw [Program.serial_bind, create_serial]
  change (Program.ofExcept ((initial n n).withSettings settings)).serial = _
  unfold withSettings
  rw [hs]
  rfl

lemma setBounds_of_proper {b : Bounds ℝ n} (hb : b.Proper) :
    o.setBounds b.lower.toArray b.upper.toArray =
      .ok { o with bounds := b, asymptotes := .atBounds b, limits := .atBounds b } := by
  have valid : b.firstInvalid? = none := by
    refine List.find?_eq_none.2 fun j _ => ?_
    simpa using hb j
  unfold setBounds
  rw [checkedLength_eq_ok_iff.2 rfl, checkedLength_eq_ok_iff.2 rfl]
  simp only [bind, Except.bind, valid]
  rfl

lemma setDesign_of_contains {x : Vector ℝ n} (hx : o.bounds.Contains x) :
    o.setDesign x.toArray = .ok { o with history := .still x } := by
  have inside : o.bounds.firstOutside? x = none := by
    refine List.find?_eq_none.2 fun j _ => ?_
    simpa using hx j
  unfold setDesign
  rw [checkedLength_eq_ok_iff.2 rfl]
  simp only [bind, Except.bind, inside]
  rfl

section Setters

variable (e : Execution)

lemma perform_configure {settings : Settings ℝ} (hs : settings.validate = .ok ()) :
    (o.perform e (Request.configure settings : Request n).call : Program ℝ ε (Entry ℝ n)) =
      .pure { reply := .ok (.settings settings), state := some { o with settings } } := by
  have accepted : o.withSettings settings = .ok { o with settings } := by
    unfold withSettings
    rw [hs]
    rfl
  unfold Request.call perform
  simp only [accepted]

lemma perform_configure_refused {settings : Settings ℝ} {fault : SettingFault ℝ}
    (hs : settings.validate = .error fault) :
    (o.perform e (Request.configure settings : Request n).call : Program ℝ ε (Entry ℝ n)) =
      .pure { reply := .error { during := [], cause := .invalidSetting fault }, state := none } := by
  have refused : o.withSettings settings = .error (.invalidSetting fault) := by
    unfold withSettings
    rw [hs]
    rfl
  unfold Request.call perform
  simp only [refused]

lemma perform_setBounds {b : Bounds ℝ n} (hb : b.Proper) :
    (o.perform e (Request.setBounds b).call : Program ℝ ε (Entry ℝ n)) =
      .pure { reply := .ok .accepted
              state := some { o with bounds := b, asymptotes := .atBounds b, limits := .atBounds b } } := by
  change Program.pure (o.settle .accepted (o.setBounds b.lower.toArray b.upper.toArray)) = _
  rw [setBounds_of_proper hb]
  rfl

lemma perform_setDesign {x : Vector ℝ n} (hx : o.bounds.Contains x) :
    (o.perform e (Request.setDesign x).call : Program ℝ ε (Entry ℝ n)) =
      .pure { reply := .ok .accepted, state := some { o with history := .still x } } := by
  change Program.pure (o.settle .accepted (o.setDesign x.toArray)) = _
  rw [setDesign_of_contains hx]
  rfl

end Setters

/-- A call that makes a valid request comes to an end, and the rank is ready for the next one. -/
theorem perform_returns (ho : o.Ready rounds) {q : Request n} (hq : q.Valid o) (hr : q.Allows rounds) :
    (o.perform (.single rounds) q.call : Program ℝ ε _).Returns fun entry =>
      ∀ o', entry.state = some o' → o'.Ready rounds := by
  -- An entry leaves one state at most.
  have of_state : ∀ {o₁ : Optimizer ℝ n}, o₁.Ready rounds → ∀ o', some o₁ = some o' → o'.Ready rounds :=
    fun h o' e => Option.some.inj e ▸ h
  cases q with
  | setConstraintCount m => exact Program.returns_pure (of_state (ho.setConstraintCount m))
  | editWeights edit => exact Program.returns_pure (of_state (ho.of_eq rfl rfl))
  | configure settings =>
    cases hs : settings.validate with
    | error fault =>
      rw [perform_configure_refused _ hs]
      exact Program.returns_pure nofun
    | ok u =>
      have hv := (Settings.validate_eq_ok_iff settings).1 hs
      rw [perform_configure _ hs]
      exact Program.returns_pure (of_state ⟨ho.bounds, hv, hr hv⟩)
  | setBounds bounds =>
    rw [perform_setBounds _ hq]
    exact Program.returns_pure (of_state ⟨hq, ho.settings, ho.allows⟩)
  | setDesign x =>
    rw [perform_setDesign _ hq]
    exact Program.returns_pure (of_state (ho.of_eq rfl rfl))
  | update d =>
    refine (update_returns ho hq d).bind fun next hn => ?_
    exact Program.returns_pure (of_state hn)
  | kktCheck d =>
    exact (kktCheck_returns o d).bind fun residual _ => Program.returns_pure (of_state ho)

/-- A session of requests that are valid along the way comes to an end. -/
theorem session_returns (ho : o.Ready rounds) {requests : List (Request n)}
    (hv : Admissible rounds o requests) (hr : ∀ q ∈ requests, q.Allows rounds) :
    (o.session (.single rounds) (requests.map Request.call) : Program ℝ (Cause ℝ) _).Returns
      fun _ => True := by
  induction requests generalizing o with
  | nil => exact Program.returns_pure trivial
  | cons q later ih =>
    obtain ⟨hq, hlater⟩ := hv
    obtain ⟨hr, hrs⟩ := List.forall_mem_cons.1 hr
    obtain ⟨entry, hentry, hready⟩ := perform_returns ho hq hr
    refine (Program.returns_eq_iff.2 hentry).bind fun _ he => ?_
    rw [he]
    cases hstate : entry.state with
    | none => exact Program.returns_pure trivial
    | some o' =>
      refine (ih (hready o' hstate) (hlater entry o' hentry hstate) hrs).bind fun rest _ => ?_
      exact Program.returns_pure trivial

end Optimizer

/-- The work of a rank that owns all variables comes to an end. -/
theorem Session.run_returns {settings : Settings ℝ} (hs : settings.validate = .ok ()) {rounds : Nat}
    (hr : settings.Allows rounds) {requests : List (Request n)}
    (hv : Admissible rounds { Optimizer.initial n n with settings } requests)
    (hrs : ∀ q ∈ requests, q.Allows rounds) :
    (run n n settings (.single rounds) requests).Returns fun _ => True := by
  have ready := Optimizer.ready_initial n n ((Settings.validate_eq_ok_iff settings).1 hs) hr
  refine (Program.returns_eq_iff.2 (Optimizer.start_serial hs)).bind fun o ho => ?_
  rw [ho]
  exact Optimizer.session_returns ready hv hrs

end MovingAsymptotes
