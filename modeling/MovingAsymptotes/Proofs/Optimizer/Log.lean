import MovingAsymptotes.Proofs.Optimizer.Advance
import MovingAsymptotes.Proofs.Session

/-!
# Calls and the designs they lead to

A rank makes calls in any order and with any arguments, alone or in a group, and gets replies to them.
Its bounds always leave every variable a range and its settings are always accepted. The design stays
within the bounds, too, with one exception: bounds that are set are not held against the design, so they
may shut it out, and it may stay outside until a design is set.

* `Optimizer.Performed`: the entries that a call may end with, over any scalars.
* `Optimizer.Effect`: what a call does to bounds, settings and design.
* `Session.Log`: the calls that a rank has made, and the state it has come to.
* `Session.Log.configured`, `Session.Log.contains_or_shut_out`: what holds of every such state.
-/

namespace MovingAsymptotes

variable {n : Nat}

namespace Optimizer

open Session

section Scalars

variable {α : Type} [Scalar α] {A : Replies α} {o o' : Optimizer α n}

lemma setBounds_eq_ok {lower upper : Array α} (h : o.setBounds lower upper = .ok o') :
    ∃ b : Bounds α n, (∀ j : Fin n, b.lower[j] < b.upper[j]) ∧
      o' = { o with bounds := b, asymptotes := .atBounds b, limits := .atBounds b } := by
  unfold setBounds at h
  cases hl : checkedLength (α := α) "lower bounds" n lower with
  | error cause =>
    rw [hl] at h
    cases h
  | ok l =>
    cases hu : checkedLength (α := α) "upper bounds" n upper with
    | error cause =>
      rw [hl, hu] at h
      cases h
    | ok u =>
      rw [hl, hu] at h
      cases hb : (⟨l, u⟩ : Bounds α n).firstInvalid? with
      | some j =>
        simp only [bind, Except.bind, hb] at h
        cases h
      | none =>
        simp only [bind, Except.bind, hb] at h
        cases h
        refine ⟨⟨l, u⟩, fun j => ?_, rfl⟩
        simpa using List.find?_eq_none.1 hb j (List.mem_finRange j)

lemma setDesign_eq_ok {x : Array α} (h : o.setDesign x = .ok o') :
    ∃ v : Vector α n, (∀ j : Fin n, o.bounds.lower[j] ≤ v[j] ∧ v[j] ≤ o.bounds.upper[j]) ∧
      o' = { o with history := .still v } := by
  unfold setDesign at h
  cases hx : checkedLength (α := α) "design" n x with
  | error cause =>
    rw [hx] at h
    cases h
  | ok v =>
    rw [hx] at h
    cases hv : o.bounds.firstOutside? v with
    | some j =>
      simp only [bind, Except.bind, hv] at h
      cases h
    | none =>
      simp only [bind, Except.bind, hv] at h
      cases h
      refine ⟨v, fun j => ?_, rfl⟩
      simpa using List.find?_eq_none.1 hv j (List.mem_finRange j)

lemma withSettings_eq_ok {settings : Settings α} (h : o.withSettings settings = .ok o') :
    settings.validate = .ok () ∧ o' = { o with settings } := by
  unfold withSettings at h
  cases hs : settings.validate with
  | error fault =>
    rw [hs] at h
    cases h
  | ok u =>
    rw [hs] at h
    cases h
    exact ⟨rfl, rfl⟩

lemma create_ensures (n nGlobal : Nat) :
    (create n nGlobal : Program α (Cause α) _).Ensures A (· = (initial n nGlobal : Optimizer α n)) := by
  refine Program.ensures_bind fun total => ?_
  split
  · rfl
  · trivial

/-- The entries that a call may end with, if the results of updates are in `U`. -/
inductive Performed (U : Sensitivities α → Optimizer α n × Except (Failure α) α → Prop)
    (o : Optimizer α n) : Call α → Entry α n → Prop
  | counted {m reply} : Performed U o (.setConstraintCount m)
      { reply := .ok reply, state := some (o.setConstraintCount m) }
  | edited {edit reply} : Performed U o (.editWeights edit)
      { reply := .ok reply, state := some (o.editWeights edit) }
  | configured {settings reply} : settings.validate = .ok () →
    Performed U o (.configure settings) { reply := .ok reply, state := some { o with settings } }
  /-- Settings that are refused end the session. -/
  | closed {settings failure} :
    Performed U o (.configure settings) { reply := .error failure, state := none }
  | bounded {lower upper reply} (b : Bounds α n) : (∀ j : Fin n, b.lower[j] < b.upper[j]) →
    Performed U o (.setBounds lower upper)
      { reply := .ok reply
        state := some { o with bounds := b, asymptotes := .atBounds b, limits := .atBounds b } }
  | unbounded {lower upper failure} :
    Performed U o (.setBounds lower upper) { reply := .error failure, state := some o }
  | placed {x reply} (v : Vector α n) :
    (∀ j : Fin n, o.bounds.lower[j] ≤ v[j] ∧ v[j] ≤ o.bounds.upper[j]) →
    Performed U o (.setDesign x) { reply := .ok reply, state := some { o with history := .still v } }
  | unplaced {x failure} : Performed U o (.setDesign x) { reply := .error failure, state := some o }
  | updated {s o' result} : U s (o', result) →
    Performed U o (.update s) { reply := result.map .change, state := some o' }
  | checked {s reply} : Performed U o (.kktCheck s) { reply, state := some o }

/-- Every call ends with one of its entries, whatever the other ranks contribute. -/
theorem perform_ensures {ε : Type} {U : Sensitivities α → Optimizer α n × Except (Failure α) α → Prop}
    {e : Execution} (hu : ∀ s, (o.update e s : Program α ε _).Ensures A (U s)) (call : Call α) :
    (o.perform e call : Program α ε _).Ensures A (o.Performed U call) := by
  cases call with
  | setConstraintCount m => exact .counted
  | editWeights edit => exact .edited
  | configure settings =>
    unfold perform
    dsimp only
    cases hc : o.withSettings settings with
    | ok o' =>
      obtain ⟨hs, rfl⟩ := withSettings_eq_ok hc
      exact .configured hs
    | error cause => exact .closed
  | setBounds lower upper =>
    change o.Performed U _ (o.settle .accepted (o.setBounds lower upper))
    cases hb : o.setBounds lower upper with
    | ok o' =>
      obtain ⟨b, hproper, rfl⟩ := setBounds_eq_ok hb
      exact .bounded b hproper
    | error cause => exact .unbounded
  | setDesign x =>
    change o.Performed U _ (o.settle .accepted (o.setDesign x))
    cases hx : o.setDesign x with
    | ok o' =>
      obtain ⟨v, hv, rfl⟩ := setDesign_eq_ok hx
      exact .placed v hv
    | error cause => exact .unplaced
  | update s => exact (hu s).bind fun _ hnext => .updated hnext
  | kktCheck s => exact Program.ensures_bind fun _ => .checked

end Scalars

variable {ε : Type} {o o' : Optimizer ℝ n}

/-- What a call does to bounds, settings and design. -/
inductive Effect (o : Optimizer ℝ n) : Call ℝ → Entry ℝ n → Prop
  /-- Nothing; a design that is set has been refused. -/
  | kept {call reply} (o' : Optimizer ℝ n) : (∀ x, call = .setDesign x → ∃ failure, reply = .error failure) →
    o'.bounds = o.bounds → o'.settings = o.settings → o'.history = o.history →
    Effect o call { reply, state := some o' }
  | configured {settings reply} : settings.Valid →
    Effect o (.configure settings) { reply, state := some { o with settings } }
  /-- Settings that are refused end the session. -/
  | closed {settings reply} : Effect o (.configure settings) { reply, state := none }
  | bounded {lower upper reply} (b : Bounds ℝ n) : b.Proper →
    Effect o (.setBounds lower upper)
      { reply := .ok reply
        state := some { o with bounds := b, asymptotes := .atBounds b, limits := .atBounds b } }
  | placed {x reply v} : o.bounds.Contains v →
    Effect o (.setDesign x) { reply := .ok reply, state := some { o with history := .still v } }
  /-- An update takes a design within the bounds to one within the bounds. -/
  | updated {s reply} (o' : Optimizer ℝ n) : o'.bounds = o.bounds → o'.settings = o.settings →
    (o.bounds.Contains o.history.current → o'.bounds.Contains o'.history.current) →
    Effect o (.update s) { reply, state := some o' }

lemma update_contains (ho : o.Configured) (e : Execution) (s : Sensitivities ℝ) :
    (o.update e s : Program ℝ ε _).Ensures .fair fun next =>
      o.bounds.Contains o.history.current → next.1.bounds.Contains next.1.history.current := by
  by_cases hx : o.bounds.Contains o.history.current
  · refine ((update_ensures ho hx e s).and (o.update_keeps e s)).mono fun next hnext _ => ?_
    obtain ⟨hok, hbounds, -, hfailed⟩ := hnext
    cases hn : next.2 with
    | ok change => exact (hok change hn).keeps_bounds
    | error failure =>
      rw [hbounds, hfailed failure hn]
      exact hx
  · exact (o.update_keeps e s).mono fun _ _ h => absurd h hx

/-- The effect of every call, on a rank that gets fair replies. -/
theorem perform_effect (ho : o.Configured) (e : Execution) (call : Call ℝ) :
    (o.perform e call : Program ℝ ε _).Ensures .fair (o.Effect call) := by
  have updates := fun s : Sensitivities ℝ =>
    (o.update_keeps (ε := ε) e s).and (update_contains ho e s)
  refine (perform_ensures updates call).mono fun entry hentry => ?_
  cases hentry with
  | counted =>
    exact .kept _ nofun (setConstraintCount_bounds o _) (setConstraintCount_settings o _)
      (setConstraintCount_history o _)
  | edited => exact .kept _ nofun rfl rfl rfl
  | configured hs => exact .configured ((Settings.validate_eq_ok_iff _).1 hs)
  | closed => exact .closed
  | bounded b hb => exact .bounded b hb
  | unbounded => exact .kept o nofun rfl rfl rfl
  | placed v hv => exact .placed hv
  | unplaced => exact .kept o (fun _ _ => ⟨_, rfl⟩) rfl rfl rfl
  | updated h =>
    obtain ⟨⟨hbounds, hsettings, -⟩, hcontains⟩ := h
    exact .updated _ hbounds hsettings hcontains
  | checked => exact .kept o nofun rfl rfl rfl

lemma Effect.configured_of_state {call : Call ℝ} {entry : Entry ℝ n} (h : o.Effect call entry)
    (ho : o.Configured) (hs : entry.state = some o') : o'.Configured := by
  cases h with
  | kept o₁ _ hb hset _ =>
    cases hs
    exact ⟨hb ▸ ho.bounds, hset ▸ ho.settings⟩
  | configured hv =>
    cases hs
    exact ⟨ho.bounds, hv⟩
  | closed => cases hs
  | bounded b hb =>
    cases hs
    exact ⟨hb, ho.settings⟩
  | placed _ =>
    cases hs
    exact ⟨ho.bounds, ho.settings⟩
  | updated o₁ hb hset _ =>
    cases hs
    exact ⟨hb ▸ ho.bounds, hset ▸ ho.settings⟩

lemma initial_configured (n nGlobal : Nat) : (initial n nGlobal : Optimizer ℝ n).Configured := by
  refine ⟨fun j => ?_, (Settings.validate_eq_ok_iff _).1 Settings.validate_default⟩
  rw [initial_lower, initial_upper]
  exact one_pos

lemma initial_contains (n nGlobal : Nat) :
    (initial n nGlobal : Optimizer ℝ n).bounds.Contains (initial n nGlobal : Optimizer ℝ n).history.current := by
  intro j
  rw [initial_lower, initial_upper, initial_current]
  norm_num

end Optimizer

namespace Session

open Optimizer

/-- The calls that a rank has made since it was created, the oldest first, with their entries, and the
state that it has come to. -/
inductive Log (nGlobal : Nat) : List (Call ℝ × Entry ℝ n) → Optimizer ℝ n → Prop
  | created {o} : (create n nGlobal).Ends .fair (.done o) → Log nGlobal [] o
  | call {log o call entry o'} (e : Execution) : Log nGlobal log o →
    (o.perform e call : Program ℝ (Cause ℝ) _).Ends .fair (.done entry) → entry.state = some o' →
    Log nGlobal (log ++ [(call, entry)]) o'

namespace Log

variable {nGlobal : Nat} {log : List (Call ℝ × Entry ℝ n)} {o : Optimizer ℝ n}

/-- Wherever a rank comes, its bounds leave every variable a range, and its settings are accepted. -/
theorem configured (h : Log nGlobal log o) : o.Configured := by
  induction h with
  | created ho =>
    obtain rfl := (create_ensures _ nGlobal).of_ends ho
    exact initial_configured _ nGlobal
  | call e _ hentry hstate ih => exact ((perform_effect ih e _).of_ends hentry).configured_of_state ih hstate

/-- Bounds that are accepted shut out the design, and no design is accepted after them. -/
def ShutOut (log : List (Call ℝ × Entry ℝ n)) : Prop :=
  ∃ before lower upper reply o after,
    log = before ++ (.setBounds lower upper, { reply := .ok reply, state := some o }) :: after ∧
      ¬ o.bounds.Contains o.history.current ∧
      ∀ q ∈ after, ∀ x, q.1 = .setDesign x → ∃ failure, q.2.reply = .error failure

lemma ShutOut.mem (h : ShutOut log) : ∃ lower upper entry, (.setBounds lower upper, entry) ∈ log := by
  obtain ⟨before, lower, upper, reply, o, after, rfl, -⟩ := h
  exact ⟨lower, upper, _, List.mem_append_right before List.mem_cons_self⟩

/-- The design is still shut out after a call that does not set one. -/
lemma ShutOut.append (h : ShutOut log) {call : Call ℝ} {entry : Entry ℝ n}
    (hentry : ∀ x, call = .setDesign x → ∃ failure, entry.reply = .error failure) :
    ShutOut (log ++ [(call, entry)]) := by
  obtain ⟨before, lower, upper, reply, o, after, rfl, ho, hafter⟩ := h
  refine ⟨before, lower, upper, reply, o, after ++ [(call, entry)], ?_, ho, fun q hq => ?_⟩
  · rw [List.append_assoc, List.cons_append]
  · rcases List.mem_append.1 hq with hq | hq
    · exact hafter q hq
    · obtain rfl := List.mem_singleton.1 hq
      exact hentry

/-- Wherever a rank comes, the design lies within the bounds, unless bounds have shut it out and no
design has been set since. -/
theorem contains_or_shut_out (h : Log nGlobal log o) :
    o.bounds.Contains o.history.current ∨ ShutOut log := by
  induction h with
  | created ho =>
    obtain rfl := (create_ensures _ nGlobal).of_ends ho
    exact Or.inl (initial_contains _ nGlobal)
  | @call log o call entry o' e hlog hentry hstate ih =>
    refine or_iff_not_imp_left.2 fun hout => ?_
    cases (perform_effect hlog.configured e _).of_ends hentry with
    | kept o₁ hdesign hb _ hh =>
      cases hstate
      rw [hb, hh] at hout
      exact (ih.resolve_left hout).append hdesign
    | configured _ =>
      cases hstate
      exact (ih.resolve_left hout).append nofun
    | closed => cases hstate
    | bounded b hb =>
      cases hstate
      exact ⟨log, _, _, _, _, [], rfl, hout, fun _ hq => absurd hq List.not_mem_nil⟩
    | placed hv =>
      cases hstate
      exact absurd hv hout
    | updated o₁ _ _ hcontains =>
      cases hstate
      exact (ih.resolve_left fun hx => hout (hcontains hx)).append nofun

lemma initial (n : Nat) : Log n [] (Optimizer.initial n n) :=
  .created (Program.ends_of_serial (fun _ _ _ => Replies.fair_own) (create_serial n))

theorem placed_contains : ∃ o : Optimizer ℝ 1,
    Log 1 [(.setDesign #[0.25], { reply := .ok .accepted, state := some o })] o ∧
      o.bounds.Contains o.history.current := by
  have inside : (Optimizer.initial 1 1 : Optimizer ℝ 1).bounds.Contains #v[0.25] := by
    intro j
    rw [Fin.eq_zero j]
    change (Vector.replicate 1 (0 : ℝ))[(0 : Fin 1)] ≤ 0.25 ∧ 0.25 ≤ (Vector.replicate 1 (1 : ℝ))[(0 : Fin 1)]
    rw [entry_replicate, entry_replicate]
    norm_num
  have log : Log 1 _ _ := (initial 1).call (.single 0)
    (by rw [perform_setDesign (.single 0) inside]; exact .pure) rfl
  refine ⟨_, log, (contains_or_shut_out log).resolve_right ?_⟩
  intro hout
  obtain ⟨lower, upper, entry, hmem⟩ := hout.mem
  cases List.mem_singleton.1 hmem

/-- Bounds that shut out the initial design are accepted. -/
theorem initial_shut_out : ∃ log, ∃ o : Optimizer ℝ 1, Log 1 log o ∧
    ¬ o.bounds.Contains o.history.current := by
  have proper : (⟨#v[0.6], #v[1]⟩ : Bounds ℝ 1).Proper := by
    intro j
    rw [Fin.eq_zero j]
    change (0.6 : ℝ) < 1
    norm_num
  have log : Log 1 _ _ := (initial 1).call (.single 0)
    (by rw [perform_setBounds (.single 0) proper]; exact .pure) rfl
  refine ⟨_, _, log, fun h => ?_⟩
  have low := (h 0).1
  change (0.6 : ℝ) ≤ (Vector.replicate 1 (0.5 : ℝ))[(0 : Fin 1)] at low
  rw [entry_replicate] at low
  norm_num at low

end Log

end Session

end MovingAsymptotes
