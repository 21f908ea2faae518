import Mathlib
import MovingAsymptotes.Linear.Bordered
import MovingAsymptotes.Proofs.Linear.Elimination

/-!
# Bordered systems over the reals

A bordered system is a system in the unknowns of its block and one more. If its homogeneous equations
have only the zero solution, elimination finds the solution of every right-hand side.
-/

namespace MovingAsymptotes.Mat

variable {n : Nat}

section Entries

variable (block : Mat ℝ n n) (edge : Vector ℝ n) (corner : ℝ)

lemma bordered_block (i j : Fin n) :
    (bordered block edge corner)[i.castSucc][j.castSucc] = block[i][j] := by
  unfold bordered
  rw [entry_push_castSucc, entry_ofFn, entry_push_castSucc]

lemma bordered_right (i : Fin n) :
    (bordered block edge corner)[i.castSucc][Fin.last n] = edge[i] := by
  unfold bordered
  rw [entry_push_castSucc, entry_ofFn, entry_push_last]

lemma bordered_below (j : Fin n) :
    (bordered block edge corner)[Fin.last n][j.castSucc] = edge[j] := by
  unfold bordered
  rw [entry_push_last, entry_push_castSucc]

lemma bordered_corner : (bordered block edge corner)[Fin.last n][Fin.last n] = corner := by
  unfold bordered
  rw [entry_push_last, entry_push_last]

end Entries

/-- The unknowns `x` and `t` satisfy the equations of a bordered system. -/
structure SolvesBordered (block : Mat ℝ n n) (edge : Vector ℝ n) (corner : ℝ) (rhs : Vector ℝ n)
    (last : ℝ) (x : Vector ℝ n) (t : ℝ) : Prop where
  /-- The equations of the block. -/
  block : ∀ i : Fin n, ∑ j : Fin n, block[i][j] * x[j] + edge[i] * t = rhs[i]
  /-- The last equation. -/
  last : ∑ j : Fin n, edge[j] * x[j] + corner * t = last

/-- Only zero satisfies the homogeneous equations of a bordered system. -/
def RegularBordered (block : Mat ℝ n n) (edge : Vector ℝ n) (corner : ℝ) : Prop :=
  ∀ (x : Fin n → ℝ) (t : ℝ), (∀ i : Fin n, ∑ j : Fin n, block[i][j] * x j + edge[i] * t = 0) →
    ∑ j : Fin n, edge[j] * x j + corner * t = 0 → x = 0 ∧ t = 0

variable {block : Mat ℝ n n} {edge : Vector ℝ n} {corner : ℝ}

lemma RegularBordered.regular (h : RegularBordered block edge corner) :
    (bordered block edge corner).Regular := by
  intro x hx
  have hb : ∀ i : Fin n, ∑ j : Fin n, block[i][j] * x j.castSucc + edge[i] * x (Fin.last n) = 0 := by
    intro i
    have hi := hx i.castSucc
    simp only [Fin.sum_univ_castSucc, bordered_block, bordered_right] at hi
    exact hi
  have hl : ∑ j : Fin n, edge[j] * x j.castSucc + corner * x (Fin.last n) = 0 := by
    have hi := hx (Fin.last n)
    simp only [Fin.sum_univ_castSucc, bordered_below, bordered_corner] at hi
    exact hi
  obtain ⟨h₁, h₂⟩ := h _ _ hb hl
  funext i
  cases i using Fin.lastCases with
  | last => exact h₂
  | cast i => exact congrFun h₁ i

/-- A regular bordered system is solved by elimination. -/
theorem RegularBordered.exists_solveBordered? (h : RegularBordered block edge corner)
    (rhs : Vector ℝ n) (last : ℝ) :
    ∃ x t, solveBordered? block edge corner rhs last = some (x, t) ∧
      SolvesBordered block edge corner rhs last x t := by
  obtain ⟨x, hx, hs⟩ := h.regular.exists_solve? (rhs.push last)
  let y : Vector ℝ n := x.pop
  have hpop : ∀ j : Fin n, y[j] = x[j.castSucc] := fun j => by simp [y]
  refine ⟨y, x[n], by unfold solveBordered?; rw [hx]; rfl, fun i => ?_, ?_⟩
  · have hi := hs i.castSucc
    simp only [Fin.sum_univ_castSucc, bordered_block, bordered_right, entry_push_castSucc] at hi
    simp only [hpop]
    exact hi
  · have hi := hs (Fin.last n)
    simp only [Fin.sum_univ_castSucc, bordered_below, bordered_corner, entry_push_last] at hi
    simp only [hpop]
    exact hi

end MovingAsymptotes.Mat
