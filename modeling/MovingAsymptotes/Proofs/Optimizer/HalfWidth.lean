import MovingAsymptotes.Proofs.Optimizer.Conditions
import MovingAsymptotes.Proofs.Optimizer.Failure
import MovingAsymptotes.Proofs.Optimizer.Slope

/-!
# The distance of the asymptotes over whole runs

The asymptotes that an update stores lie at the same distance on either side of the design it was made
from. The next update carries that distance over to its own design, and scales it by the trend. So the
distance follows a recurrence over the designs alone, from the first update on, provided that nothing else
reaches for the design or the bounds. The invariant behind it ties the history of the state to the designs
of the last two updates, and the stored asymptotes to the last of them.

* `Asymptotes.advance_around`: one step of the recurrence.
* `Session.Trail`: the successful updates by a subproblem since some state.
* `Session.Trail.half_widths`: the recurrence holds along every trail that begins before the first update.
-/

namespace MovingAsymptotes

variable {n : Nat}

namespace Asymptotes

/-- Asymptotes at the distance `w` from a design on either side, for one of its variables. -/
def Around (asy : Asymptotes ℝ n) (x : Vector ℝ n) (j : Fin n) (w : ℝ) : Prop :=
  asy.low[j] = x[j] - w ∧ asy.upp[j] = x[j] + w

/-- The distance of the asymptotes that belongs to a series of designs, the latest first. It is known for
the first two. Later ones scale it by `asyincr` where the last two moves of the variable have the same sign,
by `asydecr` where they have opposite signs, and not at all where there was no move, within a hundredth and
ten times the range between the bounds. -/
noncomputable def halfWidth (b : Bounds ℝ n) (s : Settings ℝ) (j : Fin n) : List (Vector ℝ n) → ℝ
  | x :: x₁ :: x₂ :: earlier =>
    let range := b.upper[j] - b.lower[j]
    let moves := (x[j] - x₁[j]) * (x₁[j] - x₂[j])
    let factor := if 0 < moves then s.asyincr else if moves < 0 then s.asydecr else 1
    min (max (factor * halfWidth b s j (x₁ :: x₂ :: earlier)) (0.01 * range)) (10 * range)
  | _ => s.asyinit * (b.upper[j] - b.lower[j])

variable {asy : Asymptotes ℝ n} {h : History ℝ n} {b : Bounds ℝ n} {s : Settings ℝ} {j : Fin n}

lemma initial_around (x : Vector ℝ n) : (initial x b s).Around x j (s.asyinit * b.range j) :=
  ⟨entry_ofFn _ j, entry_ofFn _ j⟩

/-- The distance from the design before is scaled and carried over to the current one. -/
lemma adapted_around {w : ℝ} (hb : b.Proper) (ha : asy.Around h.previous j w) :
    (asy.adapted h b s).Around h.current j
      (min (max (s.trendFactor (trend h j) * w) (0.01 * b.range j)) (10 * b.range j)) := by
  obtain ⟨hlow, hupp⟩ := ha
  have hr := hb.range_pos j
  have ten : (10.0 : ℝ) = 10 := by norm_num
  have order : (0.01 : ℝ) * b.range j ≤ 10 * b.range j := by
    norm_num
    linarith
  -- The clamps come in the other order, which makes no difference.
  have swap : min (max (s.trendFactor (trend h j) * w) (0.01 * b.range j)) (10 * b.range j) =
      max (min (s.trendFactor (trend h j) * w) (10 * b.range j)) (0.01 * b.range j) := by
    rw [min_max_distrib_right, min_eq_left order]
  have below : h.previous[j] - asy.low[j] = w := by linarith
  have above : asy.upp[j] - h.previous[j] = w := by linarith
  rw [swap]
  unfold Around adapted
  simp only [entry_ofFn, larger_eq_max, smaller_eq_min, ten, below, above]
  constructor
  · rw [← min_sub_sub_left, ← max_sub_sub_left]
  · rw [min_add_add_left, max_add_add_left]

/-- One step of the recurrence, from what the state remembers of the designs before. -/
theorem advance_around {earlier : List (Vector ℝ n)} (hb : b.Proper)
    (hprevious : ∀ x₁ x₂ rest, earlier = x₁ :: x₂ :: rest →
      h.previous = x₁ ∧ h.beforePrevious = x₂ ∧ asy.Around x₁ j (halfWidth b s j earlier)) :
    (asy.advance (earlier.length + 1) h b s).Around h.current j
      (halfWidth b s j (h.current :: earlier)) := by
  unfold advance
  match earlier, hprevious with
  | [], _ => exact initial_around h.current
  | [_], _ => exact initial_around h.current
  | x₁ :: x₂ :: rest, hprevious =>
    obtain ⟨rfl, rfl, ha⟩ := hprevious x₁ x₂ rest rfl
    rw [if_neg (by simp)]
    -- The trend chooses its factor by the cases that `halfWidth` states.
    exact adapted_around hb ha

end Asymptotes

namespace Session

open Optimizer

/-- The call does not reach for the design: it counts constraints, edits weights or checks the optimality
conditions, or it fails. -/
inductive Quiet : Call ℝ → Entry ℝ n → Prop
  | counted {m entry} : Quiet (.setConstraintCount m) entry
  | edited {edit entry} : Quiet (.editWeights edit) entry
  | checked {s entry} : Quiet (.kktCheck s) entry
  | failed {call failure state} : Quiet call { reply := .error failure, state }

/-- The updates by a subproblem that have succeeded since `start`, the latest first: the designs that they
were made from, and the asymptotes that they have stored. The calls between them are quiet. -/
inductive Trail (start : Optimizer ℝ n) : List (Vector ℝ n × Asymptotes ℝ n) → Optimizer ℝ n → Prop
  | start : Trail start [] start
  | quiet {trail o call entry o'} (e : Execution) : Trail start trail o → Quiet call entry →
    (o.perform e call : Program ℝ (Cause ℝ) _).Ends .any (.done entry) → entry.state = some o' →
    Trail start trail o'
  | update {trail o s change o'} (e : Execution) : Trail start trail o → 2 ≤ s.g.size →
    (o.perform e (.update s) : Program ℝ (Cause ℝ) _).Ends .any
      (.done { reply := .ok (.change change), state := some o' }) →
    Trail start ((o.history.current, o'.asymptotes) :: trail) o'

end Session

namespace Optimizer

open Session

variable {ε : Type} {o o' : Optimizer ℝ n}

/-- The states agree in everything that asymptotes are made from. -/
structure Rests (o o' : Optimizer ℝ n) : Prop where
  history : o'.history = o.history
  bounds : o'.bounds = o.bounds
  settings : o'.settings = o.settings
  asymptotes : o'.asymptotes = o.asymptotes
  iteration : o'.iteration = o.iteration

lemma Rests.refl (o : Optimizer ℝ n) : o.Rests o := ⟨rfl, rfl, rfl, rfl, rfl⟩

lemma rests_counted (o : Optimizer ℝ n) (m : Nat) : o.Rests (o.setConstraintCount m) := by
  obtain ⟨m', weights, h⟩ := o.setConstraintCount_shape m
  rw [h]
  exact ⟨rfl, rfl, rfl, rfl, rfl⟩

lemma Leaves.rests {s : Sensitivities ℝ} (h : o.Leaves s o') : o.Rests o' := by
  cases h with
  | same => exact .refl o
  | counted => exact ⟨rfl, rfl, rfl, rfl, rfl⟩

/-- A call that fails leaves the state at rest, if it leaves one. -/
lemma perform_rests (o : Optimizer ℝ n) (e : Execution) (call : Call ℝ) :
    (o.perform e call : Program ℝ ε _).Ensures .any fun entry =>
      ∀ failure, entry.reply = .error failure → ∀ o', entry.state = some o' → o.Rests o' := by
  refine (perform_ensures (update_leaves o e) call).mono fun entry hentry failure hreply o' hstate => ?_
  cases hentry with
  | counted | edited | configured | bounded | placed => cases hreply
  | closed => cases hstate
  | unbounded | unplaced | checked =>
    cases hstate
    exact .refl o
  | @updated s _ result hleaves =>
    cases hstate
    cases result with
    | ok change => cases hreply
    | error cause => exact (hleaves cause rfl).rests

/-- So does a quiet call. -/
lemma perform_quiet (o : Optimizer ℝ n) (e : Execution) (call : Call ℝ) :
    (o.perform e call : Program ℝ ε _).Ensures .any fun entry =>
      Quiet call entry → ∀ o', entry.state = some o' → o.Rests o' := by
  have ends := perform_ensures (ε := ε) (A := .any) (fun s => (o.update e s).ensures_true) call
  refine (ends.and (perform_rests o e call)).mono fun entry h hquiet o' hstate => ?_
  obtain ⟨hentry, hfailed⟩ := h
  cases hquiet with
  | counted =>
    cases hentry
    cases hstate
    exact o.rests_counted _
  | edited =>
    cases hentry
    cases hstate
    exact ⟨rfl, rfl, rfl, rfl, rfl⟩
  | checked =>
    cases hentry
    cases hstate
    exact .refl o
  | failed => exact hfailed _ rfl o' hstate

/-- No call but an update that succeeds counts as an iteration. -/
lemma perform_iteration (o : Optimizer ℝ n) (e : Execution) (call : Call ℝ) :
    (o.perform e call : Program ℝ ε _).Ensures .any fun entry =>
      (∀ s, call = .update s → ∃ failure, entry.reply = .error failure) →
        ∀ o', entry.state = some o' → o'.iteration = o.iteration := by
  have ends := perform_ensures (ε := ε) (A := .any) (fun s => (o.update e s).ensures_true) call
  refine (ends.and (perform_rests o e call)).mono fun entry h hnew o' hstate => ?_
  obtain ⟨hentry, hfailed⟩ := h
  cases hentry with
  | closed => cases hstate
  | counted =>
    cases hstate
    exact (o.rests_counted _).iteration
  | updated =>
    obtain ⟨failure, hreply⟩ := hnew _ rfl
    exact (hfailed failure hreply o' hstate).iteration
  | edited | configured | bounded | unbounded | placed | unplaced | checked =>
    cases hstate
    rfl

/-- What a successful update by a subproblem does to everything that asymptotes are made from. -/
structure Moves (o o' : Optimizer ℝ n) : Prop where
  previous : o'.history.previous = o.history.current
  beforePrevious : o'.history.beforePrevious = o.history.previous
  bounds : o'.bounds = o.bounds
  settings : o'.settings = o.settings
  asymptotes : o'.asymptotes = o.nextAsymptotes
  iteration : o'.iteration = o.iteration + 1

lemma perform_moves (o : Optimizer ℝ n) (e : Execution) (s : Sensitivities ℝ) (hm : 2 ≤ s.g.size) :
    (o.perform e (.update s) : Program ℝ ε _).Ensures .any fun entry =>
      ∀ change, entry.reply = .ok (.change change) → ∀ o', entry.state = some o' → o.Moves o' := by
  have updated : (o.update e s : Program ℝ ε _).Ensures .any fun next =>
      ∀ change, next.2 = .ok change → o.Moves next.1 := by
    refine update_ensures_of_attempt fun d wt hpos _ _ => ?_
    refine (attemptUpdate_records (o.setConstraintCount s.g.size) e d hpos wt).mono fun found hfound => ?_
    obtain ⟨step, own⟩ := found
    rcases hfound with ⟨hlt, -⟩ | ⟨-, limits, solution, rfl⟩
    · exact absurd hlt hm.not_gt
    · obtain ⟨m, weights, h⟩ := o.setConstraintCount_shape s.g.size
      rw [h]
      exact ⟨rfl, rfl, rfl, rfl, rfl, rfl⟩
  refine updated.bind fun next hnext => ?_
  obtain ⟨o₁, result⟩ := next
  cases result with
  | error failure => exact nofun
  | ok change =>
    rintro _ - _ ⟨⟩
    exact hnext change rfl

end Optimizer

namespace Session

open Optimizer

variable {nGlobal : Nat} {log : List (Call ℝ × Entry ℝ n)} {start o : Optimizer ℝ n}

/-- As long as no update has succeeded, none is counted. -/
lemma Log.iteration_eq_zero (h : Log nGlobal log o)
    (hnew : ∀ q ∈ log, ∀ s, q.1 = .update s → ∃ failure, q.2.reply = .error failure) : o.iteration = 0 := by
  induction h with
  | created ho =>
    obtain rfl := (create_ensures _ nGlobal).of_ends ho
    rfl
  | call e _ hentry hstate ih =>
    have last := hnew _ (List.mem_append_right _ (List.mem_singleton.2 rfl))
    rw [← ih fun q hq => hnew q (List.mem_append_left _ hq)]
    exact (perform_iteration _ e _).of_ends hentry.any last _ hstate

namespace Trail

variable {trail : List (Vector ℝ n × Asymptotes ℝ n)}

/-- What the state remembers of the updates that led to it: the designs of the last two, and the
asymptotes of the last one. -/
structure Remembers (start : Optimizer ℝ n) (trail : List (Vector ℝ n × Asymptotes ℝ n))
    (o : Optimizer ℝ n) : Prop where
  bounds : o.bounds = start.bounds
  settings : o.settings = start.settings
  iteration : o.iteration = start.iteration + trail.length
  previous : ∀ x asy earlier, trail = (x, asy) :: earlier → o.history.previous = x ∧ o.asymptotes = asy
  beforePrevious : ∀ q x asy earlier, trail = q :: (x, asy) :: earlier → o.history.beforePrevious = x

theorem remembers (h : Trail start trail o) : Remembers start trail o := by
  induction h with
  | start => exact ⟨rfl, rfl, rfl, nofun, nofun⟩
  | quiet e _ hquiet hentry hstate ih =>
    have rest := (perform_quiet _ e _).of_ends hentry hquiet _ hstate
    constructor
    case bounds => rw [rest.bounds, ih.bounds]
    case settings => rw [rest.settings, ih.settings]
    case iteration => rw [rest.iteration, ih.iteration]
    case previous =>
      rw [rest.history, rest.asymptotes]
      exact ih.previous
    case beforePrevious =>
      rw [rest.history]
      exact ih.beforePrevious
  | update e _ hm hentry ih =>
    have move := (perform_moves _ e _ hm).of_ends hentry _ rfl _ rfl
    constructor
    case bounds => rw [move.bounds, ih.bounds]
    case settings => rw [move.settings, ih.settings]
    case iteration => rw [move.iteration, ih.iteration, List.length_cons, add_assoc]
    case previous =>
      rintro _ _ _ ⟨⟩
      exact ⟨move.previous, rfl⟩
    case beforePrevious =>
      rintro _ _ _ _ ⟨⟩
      rw [move.beforePrevious]
      exact (ih.previous _ _ _ rfl).1

/-- Along every trail that begins before the first update, the asymptotes of each update lie around the
design that it was made from, at the distance that belongs to the designs up to it. -/
theorem half_widths (hlog : Log nGlobal log start)
    (hnew : ∀ q ∈ log, ∀ s, q.1 = .update s → ∃ failure, q.2.reply = .error failure)
    (h : Trail start trail o) {x : Vector ℝ n} {asy : Asymptotes ℝ n}
    {earlier : List (Vector ℝ n × Asymptotes ℝ n)} (hs : (x, asy) :: earlier <:+ trail) (j : Fin n) :
    asy.Around x j (Asymptotes.halfWidth start.bounds start.settings j (x :: earlier.map Prod.fst)) := by
  induction h generalizing x asy earlier with
  | start => exact absurd (List.suffix_nil.1 hs) (List.cons_ne_nil _ _)
  | quiet _ _ _ _ _ ih => exact ih hs
  | @update trail o s change o' e htrail hm hentry ih =>
    rcases List.suffix_cons_iff.1 hs with hall | hlater
    · cases hall
      have move := (perform_moves o e s hm).of_ends hentry change rfl o' rfl
      have memory := htrail.remembers
      have count : o.iteration + 1 = (trail.map Prod.fst).length + 1 := by
        rw [memory.iteration, hlog.iteration_eq_zero hnew, zero_add, List.length_map]
      rw [move.asymptotes, nextAsymptotes, count, ← memory.bounds, ← memory.settings]
      refine Asymptotes.advance_around ?_ fun x₁ x₂ rest hrest => ?_
      · rw [memory.bounds]
        exact hlog.configured.bounds
      · match trail, hrest with
        | (_, asy₁) :: (_, _) :: before, hrest =>
          cases hrest
          obtain ⟨hprevious, hasymptotes⟩ := memory.previous _ _ _ rfl
          refine ⟨hprevious, memory.beforePrevious _ _ _ _ rfl, ?_⟩
          rw [hasymptotes, memory.bounds, memory.settings]
          exact ih (List.suffix_refl _)
    · exact ih hlater

/-- From a design within the bounds an update by a subproblem succeeds, and another one may follow. -/
lemma exists_update {start : Optimizer ℝ n} {trail : List (Vector ℝ n × Asymptotes ℝ n)} {o : Optimizer ℝ n}
    (h : Trail start trail o) (ho : o.Configured) (hx : o.bounds.Contains o.history.current)
    (hmethod : o.settings.method = .dualNewton) {d : Evaluation ℝ n} (hm : 2 ≤ d.g.size)
    (hw : o.m = d.g.size → ∃ wt, o.weights.validate d.g.size = .ok wt) :
    ∃ o', Trail start ((o.history.current, o'.asymptotes) :: trail) o' ∧ o.Advances d.g.size o' ∧
      o.MovesAgainstSlope d.gradients o' ∧ ∃ wt, o'.weights.validate d.g.size = .ok wt := by
  obtain ⟨k, step, change, wt, updated, hwt⟩ :=
    exists_update_serial (ε := Cause ℝ) ho.bounds hx ho.settings hm hw
  have ends := Program.ends_of_serial (A := .fair) (fun _ _ _ => Replies.fair_own) updated
  refine ⟨(o.setConstraintCount d.g.size).commit step change, ?_,
    (update_ensures ho hx _ _).of_ends ends change rfl, ?_, wt, ?_⟩
  · have made := perform_update_serial updated
    exact .update (.single k) h hm (Program.ends_of_serial (fun _ _ _ => trivial) made)
  · obtain ⟨_, hd, moves⟩ := (update_moves ho hx hmethod _ hm).of_ends ends change rfl
    cases hd.symm.trans d.matched
    exact moves
  · cases step <;> exact hwt

/-- One variable under two constraints without slopes: the objective alone decides where it goes. -/
noncomputable def steered (slope : ℝ) : Evaluation ℝ 1 where
  dfdx := .singleton slope
  g := #[-1, -1]
  dgdx := .singleton (.replicate 2 0)

lemma steered_moves {slope : ℝ} {o o' : Optimizer ℝ 1} (h : o.MovesAgainstSlope (steered slope).gradients o') :
    MovesAgainst slope o.bounds.lower[(0 : Fin 1)] o.bounds.upper[(0 : Fin 1)] o.history.current[(0 : Fin 1)]
      o'.history.current[(0 : Fin 1)] := by
  refine h.of_flat (fun j i => ?_) 0
  rw [Fin.eq_zero j]
  exact entry_replicate ..

/-- Three updates of a variable from the middle of its range: the first one lowers it, but not as far as its
asymptote, and the second one may be steered. -/
lemma exists_steered : ∃ x₁ x₂ : Vector ℝ 1, ∃ a₁ : Asymptotes ℝ 1, x₁[(0 : Fin 1)] = 0.5 ∧
    a₁.low[(0 : Fin 1)] < x₂[(0 : Fin 1)] ∧ x₂[(0 : Fin 1)] < x₁[(0 : Fin 1)] ∧
      ∀ slope, ∃ o x₃ a₂ a₃, Trail (Optimizer.initial 1 1) [(x₃, a₃), (x₂, a₂), (x₁, a₁)] o ∧
        MovesAgainst slope 0 1 x₂[(0 : Fin 1)] x₃[(0 : Fin 1)] := by
  let start : Optimizer ℝ 1 := .initial 1 1
  have middle : start.history.current[(0 : Fin 1)] = 0.5 := initial_current ..
  obtain ⟨o₁, h₁, step₁, moves₁, hw₁⟩ := exists_update (d := steered 1) .start (initial_configured 1 1)
    (initial_contains 1 1) rfl (le_refl 2) nofun
  have ho₁ : o₁.Configured := step₁.configured (initial_configured 1 1)
  refine ⟨start.history.current, o₁.history.current, o₁.asymptotes, middle, ?_, ?_, fun slope => ?_⟩
  · exact (step₁.subproblem (le_refl 2) 0).1.trans_le (step₁.contains 0).1
  · refine ((steered_moves moves₁).falls one_pos).resolve_right fun held => ?_
    have same : (0.5 : ℝ) = 0 := middle.symm.trans (held.2.trans (initial_lower ..))
    norm_num at same
  · obtain ⟨o₂, h₂, step₂, moves₂, hw₂⟩ := exists_update (d := steered slope) h₁ ho₁ step₁.keeps_bounds
      (step₁.settings ▸ rfl) (le_refl 2) fun _ => hw₁
    obtain ⟨o₃, h₃, -⟩ := exists_update (d := steered slope) h₂ (step₂.configured ho₁) step₂.keeps_bounds
      (step₂.settings.trans step₁.settings ▸ rfl) (le_refl 2) fun _ => hw₂
    have moves := steered_moves moves₂
    rw [step₁.bounds, initial_lower, initial_upper] at moves
    exact ⟨o₃, _, _, _, h₃, moves⟩

/-- After an update that lowers a variable the next one may lower it again, raise it or leave it where it is.
With the usual settings the third update has the asymptotes further away, closer, or at the same distance. -/
theorem third_half_width : ∃ x₁ x₂ : Vector ℝ 1, ∃ a₁ : Asymptotes ℝ 1,
    x₂[(0 : Fin 1)] < x₁[(0 : Fin 1)] ∧ a₁.Around x₁ 0 0.5 ∧
    (∃ o x₃ a₂ a₃, Trail (Optimizer.initial 1 1) [(x₃, a₃), (x₂, a₂), (x₁, a₁)] o ∧
      x₃[(0 : Fin 1)] < x₂[(0 : Fin 1)] ∧ a₃.Around x₃ 0 (1.2 * 0.5)) ∧
    (∃ o x₃ a₂ a₃, Trail (Optimizer.initial 1 1) [(x₃, a₃), (x₂, a₂), (x₁, a₁)] o ∧
      x₂[(0 : Fin 1)] < x₃[(0 : Fin 1)] ∧ a₃.Around x₃ 0 (0.7 * 0.5)) ∧
    (∃ o x₃ a₂ a₃, Trail (Optimizer.initial 1 1) [(x₃, a₃), (x₂, a₂), (x₁, a₁)] o ∧
      x₃[(0 : Fin 1)] = x₂[(0 : Fin 1)] ∧ a₃.Around x₃ 0 (1 * 0.5)) := by
  obtain ⟨x₁, x₂, a₁, middle, above, lowered, steer⟩ := exists_steered
  have first : a₁.Around x₁ 0 0.5 := by
    obtain ⟨o, x₃, a₂, a₃, h, -⟩ := steer 0
    have suffix : [(x₁, a₁)] <:+ [(x₃, a₃), (x₂, a₂), (x₁, a₁)] := ⟨[_, _], rfl⟩
    have around := half_widths (Log.initial 1) (List.forall_mem_nil _) h suffix 0
    simp only [List.map_nil, Asymptotes.halfWidth, initial_lower, initial_upper, sub_zero, mul_one] at around
    exact around
  have third {o x₃ a₂ a₃} (h : Trail (Optimizer.initial 1 1) [(x₃, a₃), (x₂, a₂), (x₁, a₁)] o) {moves c : ℝ}
      (hmoves : (x₃[(0 : Fin 1)] - x₂[(0 : Fin 1)]) * (x₂[(0 : Fin 1)] - x₁[(0 : Fin 1)]) = moves)
      (hc : (if 0 < moves then 1.2 else if moves < 0 then 0.7 else 1) = c) (hlo : 0.01 ≤ c * 0.5)
      (hhi : c * 0.5 ≤ 10) : a₃.Around x₃ 0 (c * 0.5) := by
    have around := half_widths (Log.initial 1) (List.forall_mem_nil _) h (List.suffix_refl _) 0
    simp only [List.map_cons, List.map_nil, Asymptotes.halfWidth, initial_lower, initial_upper, sub_zero, mul_one,
      hmoves] at around
    have scaled : a₃.Around x₃ 0 (min (max ((if 0 < moves then 1.2 else if moves < 0 then 0.7 else 1) * 0.5)
      0.01) 10) := around
    rwa [hc, max_eq_left hlo, min_eq_left hhi] at scaled
  have positive : 0 < x₂[(0 : Fin 1)] := by
    rw [first.1, middle, sub_self] at above
    exact above
  have below := sub_neg.2 lowered
  refine ⟨x₁, x₂, a₁, lowered, first, ?fall, ?rise, ?rest⟩
  case fall =>
    obtain ⟨o, x₃, a₂, a₃, h, moves⟩ := steer 1
    have fallen : x₃[(0 : Fin 1)] < x₂[(0 : Fin 1)] :=
      (moves.falls one_pos).resolve_right fun held => positive.ne' held.2
    have same := mul_pos_of_neg_of_neg (sub_neg.2 fallen) below
    exact ⟨o, x₃, a₂, a₃, h, fallen, third h rfl (if_pos same) (by norm_num) (by norm_num)⟩
  case rise =>
    obtain ⟨o, x₃, a₂, a₃, h, moves⟩ := steer (-1)
    have risen : x₂[(0 : Fin 1)] < x₃[(0 : Fin 1)] :=
      (moves.rises neg_one_lt_zero).resolve_right fun held => by
        rw [held.2, middle] at lowered
        norm_num at lowered
    have opposite := mul_neg_of_pos_of_neg (sub_pos.2 risen) below
    refine ⟨o, x₃, a₂, a₃, h, risen, third h rfl ?_ (by norm_num) (by norm_num)⟩
    rw [if_neg opposite.not_gt, if_pos opposite]
  case rest =>
    obtain ⟨o, x₃, a₂, a₃, h, moves⟩ := steer 0
    have rested := moves.rests rfl
    have still : (x₃[(0 : Fin 1)] - x₂[(0 : Fin 1)]) * (x₂[(0 : Fin 1)] - x₁[(0 : Fin 1)]) = 0 := by
      rw [rested, sub_self, zero_mul]
    refine ⟨o, x₃, a₂, a₃, h, rested, third h still ?_ (by norm_num) (by norm_num)⟩
    rw [if_neg (lt_irrefl 0), if_neg (lt_irrefl 0)]

end Trail

end Session

end MovingAsymptotes
