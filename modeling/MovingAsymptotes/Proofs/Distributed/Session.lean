import MovingAsymptotes.Proofs.Distributed.Optimizer
import MovingAsymptotes.Proofs.Session

/-!
# Distributed sessions

The ranks of a group that make the same requests, each in its own part of the variables, go through the
same session as a single rank that owns all variables. Call after call they give the same answer, a
result or a failure, and are left with their parts of its state.

* `Optimizer.simulates_perform`: one call.
* `Optimizer.simulates_session`: a session.
* `Session.run_distributed`: a group ends as a single rank does, with entries that are parts of its
  entries.
-/

namespace MovingAsymptotes

variable {N R n k : Nat} (δ : Distribution N R)

namespace Session

/-- The part of a request. -/
def Request.part (ι : Fin k → Fin n) : Request n → Request k
  | .setConstraintCount m => .setConstraintCount m
  | .editWeights edit => .editWeights edit
  | .configure settings => .configure settings
  | .setBounds bounds => .setBounds (bounds.part ι)
  | .setDesign x => .setDesign (pick ι x)
  | .update d => .update (d.part ι)
  | .kktCheck d => .kktCheck (d.part ι)

/-- The part of an entry, with the smallest multiplier that was seen there. -/
def Entry.part {α : Type} (ι : Fin k → Fin n) (seen : Option α) (entry : Entry α n) : Entry α k where
  reply := entry.reply
  state := entry.state.map fun o => o.part ι seen

lemma Entry.state_part {α : Type} (ι : Fin k → Fin n) (seen : Option α) (entry : Entry α n) :
    (entry.part ι seen).state = entry.state.map fun o => o.part ι seen := rfl

/-- The entry of a rank is its part of the entry of a single rank, but for the smallest multiplier seen.
-/
def Entry.Matches {α : Type} (ι : Fin k → Fin n) (entry : Entry α n) (own : Entry α k) : Prop :=
  ∃ seen, own = entry.part ι seen

end Session

open Session

lemma Bounds.proper_part_iff (b : Bounds ℝ N) : (∀ r, (b.part (δ.place r)).Proper) ↔ b.Proper := by
  unfold Bounds.Proper Bounds.part
  simp only [entry_pick]
  exact δ.forall_place_iff (p := fun j => b.lower[j] < b.upper[j])

lemma Bounds.contains_part_iff (b : Bounds ℝ N) (x : Vector ℝ N) :
    (∀ r, (b.part (δ.place r)).Contains (pick (δ.place r) x)) ↔ b.Contains x := by
  unfold Bounds.Contains Bounds.part
  simp only [entry_pick]
  exact δ.forall_place_iff (p := fun j => b.lower[j] ≤ x[j] ∧ x[j] ≤ b.upper[j])

/-- A request is valid for a single rank exactly if its parts are valid for all ranks. -/
theorem Session.Request.valid_part_iff (q : Request N) (o : Optimizer ℝ N)
    (seen : Fin (R + 1) → Option ℝ) : (∀ r, (q.part (δ.place r)).Valid (o.part (δ.place r) (seen r))) ↔ q.Valid o := by
  cases q with
  | setBounds bounds => exact bounds.proper_part_iff δ
  | setDesign x => exact o.bounds.contains_part_iff δ x
  | update d => exact o.bounds.contains_part_iff δ o.history.current
  | _ => exact iff_of_true (fun _ => trivial) trivial

namespace Optimizer

variable {o : Optimizer ℝ N} {rounds : Nat} (seen : Fin (R + 1) → Option ℝ)

/-- The ranks make a call as a single rank does. -/
theorem simulates_perform {ε : Type} (ho : o.Ready rounds) {q : Request N} (hq : q.Valid o) :
    Program.Simulates (o.perform (.single rounds) q.call : Program ℝ ε _)
      (fun r => (o.part (δ.place r) (seen r)).perform { ranks := R + 1, rounds } (q.part (δ.place r)).call)
      fun entry c => ∃ seen' : Fin (R + 1) → Option ℝ, ∀ r, c r = entry.part (δ.place r) (seen' r) := by
  have hq' := (q.valid_part_iff δ o seen).2 hq
  cases q with
  | setConstraintCount m =>
    refine Program.simulates_pure ⟨seen, fun r => ?_⟩
    simp only [setConstraintCount_part]
    rfl
  | editWeights edit => exact Program.simulates_pure ⟨seen, fun _ => rfl⟩
  | configure settings =>
    cases hs : settings.validate with
    | error fault =>
      exact Program.simulates_of_eq_pure (perform_configure_refused _ hs)
        (fun r => perform_configure_refused _ hs) ⟨seen, fun _ => rfl⟩
    | ok u =>
      exact Program.simulates_of_eq_pure (perform_configure _ hs) (fun r => perform_configure _ hs)
        ⟨seen, fun _ => rfl⟩
  | setBounds bounds =>
    exact Program.simulates_of_eq_pure (perform_setBounds _ hq) (fun r => perform_setBounds _ (hq' r))
      ⟨seen, fun _ => rfl⟩
  | setDesign x =>
    exact Program.simulates_of_eq_pure (perform_setDesign _ hq) (fun r => perform_setDesign _ (hq' r))
      ⟨seen, fun _ => rfl⟩
  | update d =>
    refine (simulates_update δ seen rounds ho.bounds hq ho.settings d).bind fun next next' _ hn => ?_
    obtain ⟨seen', hseen⟩ := hn
    simp only [hseen]
    exact Program.simulates_pure ⟨seen', fun _ => rfl⟩
  | kktCheck d =>
    refine (simulates_kktCheck δ o seen d).bind fun residual residual' _ hr => ?_
    simp only [hr]
    exact Program.simulates_pure ⟨seen, fun _ => rfl⟩

/-- The ranks go through a session as a single rank does. -/
theorem simulates_session (ho : o.Ready rounds) {requests : List (Request N)}
    (hv : Admissible rounds o requests) (hr : ∀ q ∈ requests, q.Allows rounds) :
    Program.Simulates (o.session (.single rounds) (requests.map Request.call) : Program ℝ (Cause ℝ) _)
      (fun r => (o.part (δ.place r) (seen r)).session { ranks := R + 1, rounds }
        ((requests.map (Request.part (δ.place r))).map Request.call))
      fun entries c => ∀ r, List.Forall₂ (Entry.Matches (δ.place r)) entries (c r) := by
  -- The smallest multipliers on record change from call to call, and with them the states of the ranks.
  induction requests generalizing o seen with
  | nil => exact Program.simulates_pure fun _ => .nil
  | cons q later ih =>
    obtain ⟨hq, hlater⟩ := hv
    obtain ⟨hr, hrs⟩ := List.forall_mem_cons.1 hr
    refine (simulates_perform δ seen ho hq).bind fun entry entry' hentry he => ?_
    obtain ⟨seen', hseen⟩ := he
    have matched : ∀ r, Entry.Matches (δ.place r) entry (entry.part (δ.place r) (seen' r)) :=
      fun r => ⟨seen' r, rfl⟩
    have hready := (perform_returns ho hq hr).of_serial hentry
    simp only [hseen, Entry.state_part]
    cases hstate : entry.state with
    | none => exact Program.simulates_pure fun r => .cons (matched r) .nil
    | some o' =>
      simp only [Option.map_some]
      have hnext := ih seen' (hready o' hstate) (hlater entry o' hentry hstate) hrs
      refine hnext.bind fun rest rest' _ h => ?_
      exact Program.simulates_pure fun r => .cons (matched r) (h r)

lemma simulates_start {settings : Settings ℝ} (hs : settings.validate = .ok ()) :
    Program.Simulates (start N N settings) (fun r => start (δ.size r) N settings)
      fun o c => ∀ r, c r = o.part (δ.place r) none := by
  have configured : ∀ {n : Nat} (o : Optimizer ℝ n),
      (Program.ofExcept (o.withSettings settings) : Program ℝ (Cause ℝ) _) = .pure { o with settings } := by
    intro n o
    unfold withSettings
    rw [hs]
    rfl
  unfold start
  simp only [configured]
  refine (simulates_create δ).bind fun o o' _ ho => ?_
  obtain ⟨rfl, ho'⟩ := ho
  simp only [ho']
  refine Program.simulates_pure fun r => ?_
  exact congrArg (fun o : Optimizer ℝ (δ.size r) => { o with settings }) (initial_part _ none N).symm

end Optimizer

/-- The ranks do their work as a single rank does. -/
theorem Session.simulates_run {settings : Settings ℝ} (hs : settings.validate = .ok ()) {rounds : Nat}
    (hr : settings.Allows rounds) {requests : List (Request N)}
    (hv : Admissible rounds { Optimizer.initial N N with settings } requests)
    (hrs : ∀ q ∈ requests, q.Allows rounds) :
    Program.Simulates (run N N settings (.single rounds) requests)
      (fun r => run (δ.size r) N settings { ranks := R + 1, rounds }
        (requests.map (Request.part (δ.place r))))
      fun entries c => ∀ r, List.Forall₂ (Entry.Matches (δ.place r)) entries (c r) := by
  have ready := Optimizer.ready_initial N N ((Settings.validate_eq_ok_iff settings).1 hs) hr
  refine (Optimizer.simulates_start δ hs).bind fun o o' hstart ho => ?_
  have same : o = { Optimizer.initial N N with settings } := by
    rw [Optimizer.start_serial hs] at hstart
    cases hstart
    rfl
  subst same
  simp only [ho]
  exact Optimizer.simulates_session δ (fun _ => none) ready hv hrs

/-- A distributed session equals the serial one. However the variables are distributed over the ranks,
whatever the accepted settings and the requests, both come to an end once the loops have rounds enough:
call after call every rank gives the answer of a single rank and is left with its part of the state. -/
theorem Session.run_distributed {settings : Settings ℝ} (hs : settings.validate = .ok ())
    (requests : List (Request N)) :
    ∃ rounds₀, ∀ rounds, rounds₀ ≤ rounds →
      Admissible rounds { Optimizer.initial N N with settings } requests →
      ∃ (entries : List (Entry ℝ N)) (own : ∀ r, List (Entry ℝ (δ.size r))),
        (run N N settings (.single rounds) requests).serial = .done entries ∧
        Program.outcomes (fun r => run (δ.size r) N settings { ranks := R + 1, rounds }
          (requests.map (Request.part (δ.place r)))) = some (List.ofFn fun r => .done ⟨r, own r⟩) ∧
        ∀ r, List.Forall₂ (Entry.Matches (δ.place r)) entries (own r) := by
  have hv := (Settings.validate_eq_ok_iff settings).1 hs
  obtain ⟨k, hk⟩ := hv.exists_allows
  obtain ⟨l, hl⟩ := Request.exists_allows requests
  refine ⟨max k l, fun rounds hr hadm => ?_⟩
  have hr₁ := hk rounds ((le_max_left k l).trans hr)
  have hr₂ := hl rounds ((le_max_right k l).trans hr)
  obtain ⟨entries, hserial, -⟩ := run_returns hs hr₁ hadm hr₂
  have simulates := simulates_run δ hs hr₁ hadm hr₂
  unfold Program.Simulates at simulates
  rw [hserial] at simulates
  obtain ⟨own, hgroup, hmatch⟩ := simulates
  exact ⟨entries, own, hserial, hgroup.outcomes_eq, hmatch⟩

/-- Two variables on three ranks, one of which is empty: bounds, a design, an update under two
constraints and a check of the optimality conditions. -/
theorem Session.run_distributed_with_empty_rank :
    ∃ (δ : Distribution 2 2) (requests : List (Request 2)),
      δ.size = ![1, 0, 1] ∧
      requests = [.setBounds ⟨#v[0, 0], #v[2, 2]⟩, .setDesign #v[1, 1],
        .update ⟨#v[1, 1], #[-1, 0], #v[#v[1, -1], #v[1, -1]]⟩,
        .kktCheck ⟨#v[1, 1], #[-1, 0], #v[#v[1, -1], #v[1, -1]]⟩] ∧
      ∃ rounds₀, ∀ rounds, rounds₀ ≤ rounds →
        ∃ (entries : List (Entry ℝ 2)) (own : ∀ r, List (Entry ℝ (δ.size r))),
          (run 2 2 .default (.single rounds) requests).serial = .done entries ∧
          Program.outcomes (fun r => run (δ.size r) 2 .default { ranks := 3, rounds }
            (requests.map (Request.part (δ.place r)))) = some (List.ofFn fun r => .done ⟨r, own r⟩) ∧
          ∀ r, List.Forall₂ (Entry.Matches (δ.place r)) entries (own r) := by
  have proper : (⟨#v[0, 0], #v[2, 2]⟩ : Bounds ℝ 2).Proper := by
    intro j
    fin_cases j <;> exact two_pos
  have contains : (⟨#v[0, 0], #v[2, 2]⟩ : Bounds ℝ 2).Contains #v[1, 1] := by
    intro j
    fin_cases j <;> exact ⟨zero_le_one, one_le_two⟩
  refine ⟨⟨![1, 0, 1], finSigmaFinEquiv.trans (finCongr (by decide))⟩, _, rfl, rfl, ?_⟩
  obtain ⟨rounds₀, h⟩ := Session.run_distributed ⟨![1, 0, 1], finSigmaFinEquiv.trans (finCongr (by decide))⟩
    Settings.validate_default [.setBounds ⟨#v[0, 0], #v[2, 2]⟩, .setDesign #v[1, 1],
      .update ⟨#v[1, 1], #[-1, 0], #v[#v[1, -1], #v[1, -1]]⟩,
      .kktCheck ⟨#v[1, 1], #[-1, 0], #v[#v[1, -1], #v[1, -1]]⟩]
  refine ⟨rounds₀, fun rounds hr => h rounds hr ⟨proper, fun entry o he ho => ?_⟩⟩
  rw [Optimizer.perform_setBounds _ proper] at he
  cases he
  cases ho
  refine ⟨contains, fun entry o he ho => ?_⟩
  rw [Optimizer.perform_setDesign _ contains] at he
  cases he
  cases ho
  exact ⟨contains, fun _ _ _ _ => ⟨trivial, fun _ _ _ _ => trivial⟩⟩

end MovingAsymptotes
