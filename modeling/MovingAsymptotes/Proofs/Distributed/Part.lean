import Mathlib
import MovingAsymptotes.Kkt.Residual
import MovingAsymptotes.Proofs.Linear.Vector

/-!
# Parts of a design

The part of a design that consists of some of its variables, in some order, and the parts of everything
that has an entry for each variable. What is computed variable by variable may be computed of a part:
asymptotes and move limits, the coefficients of an approximation, gradients and curvatures, rows and
steps.
-/

namespace MovingAsymptotes

variable {α : Type} {n m k : Nat} (ι : Fin k → Fin n)

/-- The entries at some places. -/
def pick (v : Vector α n) : Vector α k := Vector.ofFn fun j => v[ι j]

lemma entry_pick (v : Vector α n) (j : Fin k) : (pick ι v)[j] = v[ι j] := entry_ofFn _ j

/-- The part of some bounds. -/
def Bounds.part (b : Bounds α n) : Bounds α k where
  lower := pick ι b.lower
  upper := pick ι b.upper

/-- The part of some asymptotes. -/
def Asymptotes.part (asy : Asymptotes α n) : Asymptotes α k where
  low := pick ι asy.low
  upp := pick ι asy.upp

/-- The part of some move limits. -/
def MoveLimits.part (l : MoveLimits α n) : MoveLimits α k where
  alfa := pick ι l.alfa
  beta := pick ι l.beta

/-- The part of a history. -/
def History.part (h : History α n) : History α k where
  current := pick ι h.current
  previous := pick ι h.previous
  beforePrevious := pick ι h.beforePrevious

/-- The part of some gradients; the values of the constraints belong to every part. -/
def Gradients.part (d : Gradients α n m) : Gradients α k m where
  dfdx := pick ι d.dfdx
  g := d.g
  dgdx := pick ι d.dgdx

/-- The part of an approximation; its right-hand sides belong to every part. -/
def Approximation.part (a : Approximation α n m) : Approximation α k m where
  asymptotes := a.asymptotes.part ι
  limits := a.limits.part ι
  p0 := pick ι a.p0
  q0 := pick ι a.q0
  p := pick ι a.p
  q := pick ι a.q
  b := a.b
  nGlobal := a.nGlobal

/-- The part of the coefficients of a Lagrangian. -/
def Lagrangian.part (l : Lagrangian α n) : Lagrangian α k where
  plam := pick ι l.plam
  qlam := pick ι l.qlam

/-- The part of a primal-dual point; what belongs to the constraints belongs to every part. -/
def KktPoint.part (w : KktPoint α n m) : KktPoint α k m where
  x := pick ι w.x
  y := w.y
  z := w.z
  lambda := w.lambda
  xsi := pick ι w.xsi
  eta := pick ι w.eta
  mu := w.mu
  zet := w.zet
  s := w.s

variable [Scalar α]

section Box

lemma Bounds.range_part (b : Bounds α n) (j : Fin k) : (b.part ι).range j = b.range (ι j) := by
  unfold Bounds.range Bounds.part
  simp only [entry_pick]

lemma Asymptotes.above_part (asy : Asymptotes α n) (x : Vector α n) (j : Fin k) :
    (asy.part ι).above (pick ι x) j = asy.above x (ι j) := by
  unfold Asymptotes.above Asymptotes.part
  simp only [entry_pick]

lemma Asymptotes.below_part (asy : Asymptotes α n) (x : Vector α n) (j : Fin k) :
    (asy.part ι).below (pick ι x) j = asy.below x (ι j) := by
  unfold Asymptotes.below Asymptotes.part
  simp only [entry_pick]

/-- The asymptotes of a part of the design. -/
theorem Asymptotes.part_advance (asy : Asymptotes α n) (iteration : Nat) (h : History α n) (b : Bounds α n)
    (s : Settings α) :
    (asy.advance iteration h b s).part ι = (asy.part ι).advance iteration (h.part ι) (b.part ι) s := by
  unfold Asymptotes.advance
  split
  · unfold Asymptotes.initial Asymptotes.part
    congr 1 <;> refine vector_ext fun j => ?_ <;>
      simp only [entry_pick, entry_ofFn, Bounds.range_part, History.part]
  · have trend : ∀ j, Asymptotes.trend (h.part ι) j = Asymptotes.trend h (ι j) := by
      intro j
      unfold Asymptotes.trend History.part
      simp only [entry_pick]
    unfold Asymptotes.adapted Asymptotes.part
    congr 1 <;> refine vector_ext fun j => ?_ <;>
      simp only [entry_pick, entry_ofFn, Bounds.range_part, trend] <;> simp only [History.part, entry_pick]

/-- The move limits of a part of the design. -/
theorem Asymptotes.part_moveLimits (asy : Asymptotes α n) (x : Vector α n) (b : Bounds α n)
    (s : Settings α) :
    (asy.moveLimits x b s).part ι =
      (asy.part ι).moveLimits (pick ι x) (b.part ι) s := by
  unfold Asymptotes.moveLimits MoveLimits.part
  congr 1 <;> refine vector_ext fun j => ?_ <;>
    simp only [entry_pick, entry_ofFn, Bounds.range_part] <;>
    simp only [Asymptotes.part, Bounds.part, entry_pick]

end Box

namespace Approximation

lemma part_coefficients (x : Vector α n) (d : Gradients α n m) (asy : Asymptotes α n)
    (limits : MoveLimits α n) (nGlobal : Nat) (s : Settings α) :
    (coefficients x d asy limits nGlobal s).part ι =
      coefficients (pick ι x) (d.part ι) (asy.part ι) (limits.part ι) nGlobal s := by
  have upper : ∀ j slope, upperCoefficient (asy.part ι) s (pick ι x) j slope =
      upperCoefficient asy s x (ι j) slope := by
    intro j slope
    unfold upperCoefficient
    simp only [Asymptotes.above_part]
    simp only [Asymptotes.part, entry_pick]
  have lower : ∀ j slope, lowerCoefficient (asy.part ι) s (pick ι x) j slope =
      lowerCoefficient asy s x (ι j) slope := by
    intro j slope
    unfold lowerCoefficient
    simp only [Asymptotes.below_part]
    simp only [Asymptotes.part, entry_pick]
  unfold coefficients Approximation.part Gradients.part
  congr 1
  · refine vector_ext fun j => ?_
    simp only [entry_pick, entry_ofFn, upper]
  · refine vector_ext fun j => ?_
    simp only [entry_pick, entry_ofFn, lower]
  · refine vector_ext fun j => vector_ext fun i => ?_
    simp only [entry_pick, Mat.getElem_ofFn, upper]
  · refine vector_ext fun j => vector_ext fun i => ?_
    simp only [entry_pick, Mat.getElem_ofFn, lower]

variable (a : Approximation α n m) (lambda : Vector α m) (x : Vector α n) (l : Lagrangian α n)

lemma lagrangian_part : (a.part ι).lagrangian lambda = (a.lagrangian lambda).part ι := by
  unfold lagrangian Lagrangian.part Mat.mulVec Approximation.part
  congr 1 <;> refine vector_ext fun j => ?_ <;> simp only [entry_pick, entry_zipWith, entry_ofFn]

lemma lagrangianGradient_part : (a.part ι).lagrangianGradient (pick ι x) (l.part ι) =
    pick ι (a.lagrangianGradient x l) := by
  unfold lagrangianGradient
  refine vector_ext fun j => ?_
  simp only [entry_pick, entry_ofFn]
  simp only [Approximation.part, Asymptotes.above_part, Asymptotes.below_part, Lagrangian.part, entry_pick]

lemma lagrangianCurvature_part (j : Fin k) : (a.part ι).lagrangianCurvature (pick ι x) (l.part ι) j =
    a.lagrangianCurvature x l (ι j) := by
  unfold lagrangianCurvature
  simp only [Approximation.part, Asymptotes.above_part, Asymptotes.below_part, Lagrangian.part, entry_pick]

lemma slopeAt_part (i : Fin m) (j : Fin k) :
    (a.part ι).slopeAt (pick ι x) i j = a.slopeAt x i (ι j) := by
  unfold slopeAt
  simp only [Approximation.part, Asymptotes.above_part, Asymptotes.below_part, entry_pick]

/-- The rows of one variable in the residual of the subproblem. -/
def rowsAt (w : KktPoint α n m) (epsi : α) (j : Fin n) : List α :=
  let gradient := a.lagrangianGradient w.x (a.lagrangian w.lambda)
  [gradient[j] - w.xsi[j] + w.eta[j],
    w.xsi[j] * (w.x[j] - a.limits.alfa[j]) - epsi,
    w.eta[j] * (a.limits.beta[j] - w.x[j]) - epsi]

lemma localRows_eq (w : KktPoint α n m) (epsi : α) :
    a.localRows w epsi = (List.finRange n).flatMap (a.rowsAt w epsi) := rfl

lemma rowsAt_part (w : KktPoint α n m) (epsi : α) (j : Fin k) :
    (a.part ι).rowsAt (w.part ι) epsi j = a.rowsAt w epsi (ι j) := by
  unfold rowsAt
  simp only [lagrangian_part, KktPoint.part, lagrangianGradient_part, entry_pick]
  simp only [Approximation.part, MoveLimits.part, entry_pick]

lemma localRows_part (w : KktPoint α n m) (epsi : α) :
    (a.part ι).localRows (w.part ι) epsi =
      (List.finRange k).flatMap fun j => a.rowsAt w epsi (ι j) := by
  rw [localRows_eq]
  simp only [← rowsAt_part]

end Approximation

namespace Gradients

variable (d : Gradients α n m)

/-- The rows of one variable in the residual of the problem itself. -/
def rowsAt (x : Vector α n) (bounds : Bounds α n) (w : KktPoint α n m) (j : Fin n) : List α :=
  [d.dfdx[j] + (d.dgdx.mulVec w.lambda)[j] - w.xsi[j] + w.eta[j],
    w.xsi[j] * (x[j] - bounds.lower[j]),
    w.eta[j] * (bounds.upper[j] - x[j])]

lemma localRows_eq (x : Vector α n) (bounds : Bounds α n) (w : KktPoint α n m) :
    d.localRows x bounds w = (List.finRange n).flatMap (d.rowsAt x bounds w) := rfl

lemma rowsAt_part (x : Vector α n) (bounds : Bounds α n) (w : KktPoint α n m) (j : Fin k) :
    (d.part ι).rowsAt (pick ι x) (bounds.part ι) (w.part ι) j = d.rowsAt x bounds w (ι j) := by
  unfold rowsAt Gradients.part Bounds.part KktPoint.part Mat.mulVec
  simp only [entry_pick, entry_ofFn]

lemma localRows_part (x : Vector α n) (bounds : Bounds α n) (w : KktPoint α n m) :
    (d.part ι).localRows (pick ι x) (bounds.part ι) (w.part ι) =
      (List.finRange k).flatMap fun j => d.rowsAt x bounds w (ι j) := by
  rw [localRows_eq]
  simp only [← rowsAt_part]

end Gradients

namespace KktPoint

lemma along_pick (u v : Vector α n) (t : α) : along (pick ι u) (pick ι v) t = pick ι (along u v t) := by
  unfold along
  refine vector_ext fun j => ?_
  simp only [entry_pick, entry_zipWith]

lemma stepped_part (w dir : KktPoint α n m) (step : α) :
    (w.part ι).stepped (dir.part ι) step = (w.stepped dir step).part ι := by
  unfold stepped KktPoint.part
  simp only [along_pick]

end KktPoint

end MovingAsymptotes
