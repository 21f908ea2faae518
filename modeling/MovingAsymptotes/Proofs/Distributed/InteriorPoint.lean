import MovingAsymptotes.Proofs.Distributed.Dual
import MovingAsymptotes.Proofs.InteriorPoint.Solver

/-!
# The distributed interior-point method

The ranks take the elimination that leaves the multipliers; a single rank may take the other one. At an
interior point both find the same direction, of which each rank keeps its part. The overshoots of all
variables bound the step on every rank, and the residuals of the trial steps are known to all, so the
line searches end together.

* `NewtonBlocks.simulates_solveForMultipliers`: the dense system of the ranks.
* `Approximation.simulates_newtonDirection`: the direction, whichever elimination a single rank takes.
* `Approximation.simulates_solveInterior`: a solve.
-/

namespace MovingAsymptotes

/-- The part of the linearised conditions. -/
def NewtonBlocks.part {α : Type} {n m k : Nat} (ι : Fin k → Fin n) (b : NewtonBlocks α n m) :
    NewtonBlocks α k m :=
  { b with
    gg := b.gg.map (pick ι)
    delx := pick ι b.delx
    diagx := pick ι b.diagx }

/-- The part of a direction. -/
def CoreDirection.part {α : Type} {n m k : Nat} (ι : Fin k → Fin n) (core : CoreDirection α n m) :
    CoreDirection α k m :=
  { core with dx := pick ι core.dx }

section Pointwise

variable {α : Type} [Scalar α] {n m k : Nat} (ι : Fin k → Fin n)

lemma MoveLimits.roomBelow_part (l : MoveLimits α n) (x : Vector α n) (j : Fin k) :
    (l.part ι).roomBelow (pick ι x) j = l.roomBelow x (ι j) := by
  unfold MoveLimits.roomBelow MoveLimits.part
  simp only [entry_pick]

lemma MoveLimits.roomAbove_part (l : MoveLimits α n) (x : Vector α n) (j : Fin k) :
    (l.part ι).roomAbove (pick ι x) j = l.roomAbove x (ι j) := by
  unfold MoveLimits.roomAbove MoveLimits.part
  simp only [entry_pick]

variable (a : Approximation α n m) (wt : Weights α m) (w dir : KktPoint α n m) (epsi : α)

lemma NewtonBlocks.ofPoint_part (sums : Vector α m) :
    ofPoint (a.part ι) wt (w.part ι) epsi sums = (ofPoint a wt w epsi sums).part ι := by
  have gg : (ofPoint (a.part ι) wt (w.part ι) epsi sums).gg =
      (ofPoint a wt w epsi sums).gg.map (pick ι) := by
    refine vector_ext fun i => vector_ext fun j => ?_
    unfold ofPoint
    rw [entry_map, entry_pick, Mat.getElem_ofFn, Mat.getElem_ofFn]
    exact a.slopeAt_part ι w.x i j
  have delx : (ofPoint (a.part ι) wt (w.part ι) epsi sums).delx =
      pick ι (ofPoint a wt w epsi sums).delx := by
    refine vector_ext fun j => ?_
    unfold ofPoint
    simp only [entry_pick, entry_ofFn, KktPoint.part, Approximation.lagrangian_part,
      Approximation.lagrangianGradient_part]
    simp only [Approximation.part, MoveLimits.roomBelow_part, MoveLimits.roomAbove_part]
  have diagx : (ofPoint (a.part ι) wt (w.part ι) epsi sums).diagx =
      pick ι (ofPoint a wt w epsi sums).diagx := by
    refine vector_ext fun j => ?_
    unfold ofPoint
    simp only [entry_pick, entry_ofFn, KktPoint.part, Approximation.lagrangian_part,
      Approximation.lagrangianCurvature_part]
    simp only [Approximation.part, MoveLimits.roomBelow_part, MoveLimits.roomAbove_part]
  unfold NewtonBlocks.part
  rw [← gg, ← delx, ← diagx]
  rfl

lemma NewtonBlocks.complete_part (b : NewtonBlocks α n m) (core : CoreDirection α n m) :
    (b.part ι).complete (a.part ι) (w.part ι) epsi (core.part ι) = (b.complete a w epsi core).part ι := by
  have xsi : ((b.part ι).complete (a.part ι) (w.part ι) epsi (core.part ι)).xsi =
      pick ι (b.complete a w epsi core).xsi := by
    refine vector_ext fun j => ?_
    unfold complete
    simp only [entry_pick, entry_ofFn, KktPoint.part, CoreDirection.part]
    simp only [Approximation.part, MoveLimits.roomBelow_part]
  have eta : ((b.part ι).complete (a.part ι) (w.part ι) epsi (core.part ι)).eta =
      pick ι (b.complete a w epsi core).eta := by
    refine vector_ext fun j => ?_
    unfold complete
    simp only [entry_pick, entry_ofFn, KktPoint.part, CoreDirection.part]
    simp only [Approximation.part, MoveLimits.roomAbove_part]
  unfold KktPoint.part
  rw [← xsi, ← eta]
  rfl

namespace Approximation

/-- The overshoots of one variable. -/
def overshootsAt (j : Fin n) : List α :=
  [overshoot w.xsi[j] dir.xsi[j], overshoot w.eta[j] dir.eta[j],
    overshoot (a.limits.roomBelow w.x j) dir.x[j],
    overshoot (a.limits.roomAbove w.x j) (-dir.x[j])]

lemma localOvershoots_eq :
    a.localOvershoots w dir = (List.finRange n).flatMap (a.overshootsAt w dir) := rfl

lemma localOvershoots_part : (a.part ι).localOvershoots (w.part ι) (dir.part ι) =
    (List.finRange k).flatMap fun j => a.overshootsAt w dir (ι j) := by
  rw [localOvershoots_eq]
  congr 1
  funext j
  unfold overshootsAt KktPoint.part Approximation.part
  simp only [MoveLimits.roomBelow_part, MoveLimits.roomAbove_part, entry_pick]

lemma interiorStart_part : (a.part ι).interiorStart wt = (a.interiorStart wt).part ι := by
  have x : ((a.part ι).interiorStart wt).x = pick ι (a.interiorStart wt).x := by
    refine vector_ext fun j => ?_
    unfold interiorStart
    simp only [entry_pick, entry_zipWith, Approximation.part, MoveLimits.part]
  have xsi : ((a.part ι).interiorStart wt).xsi = pick ι (a.interiorStart wt).xsi := by
    have h : ∀ j, ((a.part ι).interiorStart wt).xsi[j] =
        larger (1 / (a.part ι).limits.roomBelow ((a.part ι).interiorStart wt).x j) 1 :=
      fun j => entry_ofFn _ j
    refine vector_ext fun j => ?_
    rw [h, x, entry_pick]
    unfold interiorStart
    rw [entry_ofFn]
    simp only [Approximation.part, MoveLimits.roomBelow_part]
  have eta : ((a.part ι).interiorStart wt).eta = pick ι (a.interiorStart wt).eta := by
    have h : ∀ j, ((a.part ι).interiorStart wt).eta[j] =
        larger (1 / (a.part ι).limits.roomAbove ((a.part ι).interiorStart wt).x j) 1 :=
      fun j => entry_ofFn _ j
    refine vector_ext fun j => ?_
    rw [h, x, entry_pick]
    unfold interiorStart
    rw [entry_ofFn]
    simp only [Approximation.part, MoveLimits.roomAbove_part]
  unfold KktPoint.part
  rw [← x, ← xsi, ← eta]
  rfl

end Approximation

namespace NewtonBlocks

/-- The dense system for the multipliers and `z`, from its sums over the ranks, solved. -/
def solveSums? (b : NewtonBlocks α n m) (shares moved : Vector α m) (sums : Vector α (m * m)) :
    Option (Vector α m × α) :=
  let spread := Mat.ofEntries sums
  let block : Mat α m m := Mat.ofFn fun i l =>
    if i = l then spread[i][l] + b.diaglamyi[i] else spread[i][l]
  block.solveBordered? shares (-b.diagz) (Vector.ofFn fun i => b.dellamyi i - moved[i]) b.delz

/-- The direction that belongs to the multipliers. -/
def ofMultipliers (b : NewtonBlocks α n m) (dlam : Vector α m) (dz : α) : CoreDirection α n m where
  dx := Vector.ofFn fun j =>
    -((b.delx[j] + (b.gg.transpose.mulVec dlam)[j]) * (b.diagx.map fun d => 1 / d)[j])
  dlam := dlam
  dz := dz

/-- The elimination of `x` and `y`, in terms of its sums. -/
lemma solveForMultipliers_eq (b : NewtonBlocks α n m) (shares : Vector α m) :
    b.solveForMultipliers shares = (do
      let moved ← Program.reduceAll .sum
        (b.gg.mulVec (Vector.zipWith (· * ·) b.delx (b.diagx.map fun d => 1 / d)))
      let sums ← Program.reduceAll .sum (b.gg.congruence (b.diagx.map fun d => 1 / d)).entries
      match b.solveSums? shares moved sums with
      | none => .fail (.singularSystem "primal-dual multiplier block")
      | some (dlam, dz) => Pure.pure (b.ofMultipliers dlam dz)) := rfl

end NewtonBlocks

end Pointwise

variable {N R m : Nat} (δ : Distribution N R)

namespace NewtonBlocks

lemma ofMultipliers_part {n k : Nat} (ι : Fin k → Fin n) (b : NewtonBlocks ℝ n m) (dlam : Vector ℝ m)
    (dz : ℝ) : (b.part ι).ofMultipliers dlam dz = (b.ofMultipliers dlam dz).part ι := by
  unfold ofMultipliers CoreDirection.part
  congr 1
  refine vector_ext fun j => ?_
  simp only [entry_ofFn, entry_pick, entry_map, Mat.entry_mulVec, Mat.entry_transpose, NewtonBlocks.part]

/-- The ranks find their parts of the direction that the elimination of `x` and `y` finds. -/
theorem simulates_solveForMultipliers (b : NewtonBlocks ℝ N m) (shares : Vector ℝ m) :
    Program.Simulates (b.solveForMultipliers shares)
      (fun r => (b.part (δ.place r)).solveForMultipliers shares)
      fun core c => ∀ r, c r = core.part (δ.place r) := by
  simp only [solveForMultipliers_eq]
  have moved : ∀ i : Fin m,
      (b.gg.mulVec (Vector.zipWith (· * ·) b.delx (b.diagx.map fun d => 1 / d)))[i] =
        ∑ r, ((b.part (δ.place r)).gg.mulVec (Vector.zipWith (· * ·) (b.part (δ.place r)).delx
          ((b.part (δ.place r)).diagx.map fun d => 1 / d)))[i] := by
    intro i
    rw [Mat.entry_mulVec, ← δ.sum_place]
    refine Finset.sum_congr rfl fun r _ => ?_
    rw [Mat.entry_mulVec]
    refine Finset.sum_congr rfl fun j _ => ?_
    simp only [entry_zipWith, entry_map, NewtonBlocks.part, entry_pick]
  have spread : ∀ i k : Fin m, (b.gg.congruence (b.diagx.map fun d => 1 / d))[i][k] =
      ∑ r, ((b.part (δ.place r)).gg.congruence ((b.part (δ.place r)).diagx.map fun d => 1 / d))[i][k] := by
    intro i k
    rw [Mat.entry_congruence, ← δ.sum_place]
    refine Finset.sum_congr rfl fun r _ => ?_
    rw [Mat.entry_congruence]
    refine Finset.sum_congr rfl fun j _ => ?_
    simp only [entry_map, NewtonBlocks.part, entry_pick]
  refine (Program.simulates_sum moved).bind fun moved moved' _ hm => ?_
  refine (Program.simulates_sum (Mat.sum_entries spread)).bind fun sums sums' _ hs => ?_
  have same : ∀ r, (b.part (δ.place r)).solveSums? shares moved sums = b.solveSums? shares moved sums :=
    fun _ => rfl
  simp only [hm, hs, same]
  cases b.solveSums? shares moved sums with
  | none => exact Program.simulates_fail _
  | some found => exact Program.simulates_pure fun r => ofMultipliers_part (δ.place r) b found.1 found.2

end NewtonBlocks

variable {a : Approximation ℝ N m} {wt : Weights ℝ m} {w dir : KktPoint ℝ N m}

/-- The diagonals of a part of the linearised conditions are among those of the whole. -/
lemma NewtonBlocks.Positive.part {n k : Nat} {b : NewtonBlocks ℝ n m} (hb : b.Positive)
    (ι : Fin k → Fin n) : (b.part ι).Positive where
  diagx j := by
    unfold NewtonBlocks.part
    rw [entry_pick]
    exact hb.diagx _
  diagy := hb.diagy
  diagz := hb.diagz
  diaglamyi := hb.diaglamyi

namespace Approximation

/-- The ranks find their parts of the direction that a single rank finds, whichever elimination that
takes. -/
theorem simulates_newtonDirection (ha : a.Convex) (hd : ∀ i : Fin m, 0 < wt.d[i]) (hi : w.Interior a)
    (rounds : Nat) (epsi : ℝ) : Program.Simulates (a.newtonDirection wt (.single rounds) w epsi)
      (fun r => (a.part (δ.place r)).newtonDirection wt { ranks := R + 1, rounds }
        (w.part (δ.place r)) epsi)
      fun dir c => ∀ r, c r = dir.part (δ.place r) := by
  unfold newtonDirection
  refine (Program.simulates_sum (sum_localSums δ a w.x)).bind fun sums sums' _ hs => ?_
  have hk := NewtonBlocks.ofPoint_positive ha hd hi epsi sums
  simp only [hs, NewtonBlocks.ofPoint_part]
  generalize NewtonBlocks.ofPoint a wt w epsi sums = b at hk ⊢
  -- The single rank takes the elimination that leaves the smaller system, a group always the same one.
  have agree : ∀ {n : Nat} {b : NewtonBlocks ℝ n m} {B : Type} (f : CoreDirection ℝ n m → Program ℝ _ B),
      b.Positive → (b.solveForMultipliers wt.a >>= f).serial = (b.solveForDesign wt.a >>= f).serial := by
    intro n b B f hb
    rw [Program.serial_bind, Program.serial_bind, NewtonBlocks.eliminations_agree hb]
  have follow := (NewtonBlocks.simulates_solveForMultipliers δ b wt.a).bind
    (F := fun core => Pure.pure (b.complete a w epsi core))
    (f := fun r core => Pure.pure
      ((b.part (δ.place r)).complete (a.part (δ.place r)) (w.part (δ.place r)) epsi core))
    (Ψ := fun dir c => ∀ r, c r = dir.part (δ.place r))
    fun core core' _ hc => Program.simulates_pure fun r => by
      rw [hc, NewtonBlocks.complete_part]
  refine Program.Simulates.congr (S := b.solveForMultipliers wt.a >>= fun core =>
    Pure.pure (b.complete a w epsi core)) ?_ ?_
  · cases R with
    | zero =>
      -- A single rank with the variables in another order may take the other elimination, too
      refine follow.of_serial_eq fun r => ?_
      split
      · rfl
      · exact agree _ (hk.part _)
    | succ R =>
      have many : 1 < R + 1 + 1 := by omega
      simp only [many, true_or, if_true]
      exact follow
  · split
    · rfl
    · exact agree _ hk

lemma simulates_inverseStep (a : Approximation ℝ N m) (w dir : KktPoint ℝ N m) :
    Program.Simulates (a.inverseStep w dir)
      (fun r => (a.part (δ.place r)).inverseStep (w.part (δ.place r)) (dir.part (δ.place r)))
      fun b c => ∀ r, c r = b := by
  have spread : ∀ c, (a.localOvershoots w dir).foldl larger 1 ≤ c ↔ ∀ r, ((a.part (δ.place r)).localOvershoots
      (w.part (δ.place r)) (dir.part (δ.place r))).foldl larger 1 ≤ c := by
    intro c
    simp only [localOvershoots_part, a.localOvershoots_eq, foldl_larger_le_iff, forall_mem_flatMap_finRange,
      forall_and]
    rw [δ.forall_place_iff (p := fun j => ∀ q ∈ a.overshootsAt w dir j, q ≤ c)]
    exact and_congr_left' ⟨fun h _ => h, fun h => h 0⟩
  refine (Program.simulates_maxScalar spread).bind fun own own' _ hown => ?_
  refine Program.simulates_pure fun r => ?_
  rw [hown]
  rfl

lemma simulates_backtrack (a : Approximation ℝ N m) (wt : Weights ℝ m) (w dir : KktPoint ℝ N m)
    (epsi norm : ℝ) (more : Nat) (step : ℝ) :
    Program.Simulates (a.backtrack wt w dir epsi norm more step)
      (fun r => (a.part (δ.place r)).backtrack wt (w.part (δ.place r)) (dir.part (δ.place r)) epsi
        norm more step)
      fun b c => ∀ r, c r = (b.1.part (δ.place r), b.2) := by
  have trial : ∀ t, Program.Simulates (a.trial wt w dir epsi t)
      (fun r => (a.part (δ.place r)).trial wt (w.part (δ.place r)) (dir.part (δ.place r)) epsi t)
      fun b c => ∀ r, c r = (b.1.part (δ.place r), b.2) := by
    intro t
    unfold Approximation.trial
    simp only [KktPoint.stepped_part]
    refine (simulates_residual δ a wt _ epsi).bind fun residual residual' _ hr => ?_
    exact Program.simulates_pure fun r => by rw [hr]
  induction more generalizing step with
  | zero => exact trial step
  | succ more ih =>
    unfold backtrack
    refine (trial step).bind fun next next' _ hn => ?_
    obtain ⟨next, residual⟩ := next
    simp only [hn]
    by_cases hle : residual.norm ≤ norm
    · simp only [hle, if_true]
      exact Program.simulates_pure fun _ => rfl
    · simp only [hle, if_false]
      exact ih _

/-- The ranks follow the interior-point method of a single rank. -/
theorem interiorMethod_followed (ha : a.WellPosed) (hw : wt.Valid) (s : Settings ℝ) (rounds : Nat) :
    (a.interiorMethod wt s (.single rounds)).FollowedBy
      (fun r => (a.part (δ.place r)).interiorMethod wt s { ranks := R + 1, rounds })
      (fun r w => w.part (δ.place r)) (KktPoint.Kept a wt) where
  cap _ := rfl
  residual w e := simulates_residual δ a wt w e
  advance := by
    intro e w res hk
    unfold interiorMethod interiorStep
    refine (simulates_newtonDirection δ ha.convex hw.d_pos hk.interior rounds e).bind fun dir dir' _ hd => ?_
    simp only [hd]
    refine (simulates_inverseStep δ a w dir).bind fun inverse inverse' _ hi => ?_
    simp only [hi]
    refine (simulates_backtrack δ a wt w dir e res.norm _ _).bind fun next next' _ hn => ?_
    refine Program.simulates_pure fun r => ?_
    rw [hn]
    exact ⟨rfl, rfl, rfl⟩
  recorded hk := hk.residual ▸ residual_serial _ _ _ _

/-- The solutions of the ranks are those of an interior-point solve that goes through some levels. -/
def InteriorCourse {size : Fin (R + 1) → Nat} (a : ∀ r, Approximation ℝ (size r) m) (wt : Weights ℝ m)
    (s : Settings ℝ) (e : Execution) (levels : List (BarrierMethod.Level fun r => KktPoint ℝ (size r) m))
    (sol : ∀ r, Solution ℝ (size r) m) : Prop :=
  BarrierMethod.Descends (fun r => (a r).interiorMethod wt s e) s.primalDualMaxInner s.epsimin 1
      (fun r => (a r).interiorStart wt) levels (fun r => (sol r).point) ∧
    ∀ r, (sol r).diagnostics = BarrierMethod.recordOf levels r

/-- The ranks solve the subproblem for all variables at once as a single rank does. -/
theorem simulates_solveInterior (ha : a.WellPosed) (hw : wt.Valid) (s : Settings ℝ) (rounds : Nat) :
    Program.Simulates (a.solveInterior wt s (.single rounds))
      (fun r => (a.part (δ.place r)).solveInterior wt s { ranks := R + 1, rounds })
      fun sol c => (∃ seen : Fin (R + 1) → Option ℝ, ∀ r,
          c r = ⟨sol.point.part (δ.place r), sol.diagnostics.withSeen (seen r)⟩) ∧
        ∃ levels, InteriorCourse (fun r => a.part (δ.place r)) wt s { ranks := R + 1, rounds } levels c := by
  unfold solveInterior
  by_cases hm : m = 0
  · simp only [hm, if_true]
    exact Program.simulates_fail _
  simp only [hm, if_false, interiorStart_part]
  refine ((interiorMethod_followed δ ha hw s rounds).simulates_solve
    (interiorMethod_maintains ha hw s _) rounds).bind fun out out' _ hout => ?_
  obtain ⟨⟨seen, hseen⟩, levels, hlevels, hrecord⟩ := hout
  refine Program.simulates_pure ⟨⟨seen, fun r => ?_⟩, levels, ?_, hrecord⟩
  · dsimp only
    rw [hseen]
  · simp only [hseen, interiorStart_part]
    exact hlevels

end Approximation

end MovingAsymptotes
