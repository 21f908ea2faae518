import MovingAsymptotes.Proofs.Linear.Vector
import MovingAsymptotes.Sensitivities

/-!
# Sensitivities that fit

Sensitivities with the right extents are taken over entry by entry.

* `Sensitivities.matched_mk`: what the check of the extents gives.
-/

namespace MovingAsymptotes

variable {α : Type} {n m : Nat}

lemma Table.matched_self (entries : Mat α n m) :
    (⟨n, m, entries⟩ : Table α).matched n m = .ok entries := by
  unfold Table.matched
  rw [dif_pos rfl, dif_pos rfl]
  have h : Vector.map (Vector.cast rfl) entries = entries := Vector.map_id entries
  rw [h]
  rfl

/-- Sensitivities whose extents fit are taken as they are. -/
theorem Sensitivities.matched_mk (dfdx : Vector α n) (g : Array α) (dgdx : Mat α n g.size) :
    (⟨dfdx.toArray, g, ⟨n, g.size, dgdx⟩⟩ : Sensitivities α).matched n =
      .ok ⟨dfdx, g.toVector, dgdx⟩ := by
  have h : checkedLength "objective gradient" n dfdx.toArray = .ok dfdx :=
    checkedLength_eq_ok_iff.2 rfl
  unfold Sensitivities.matched
  simp only [h, Table.matched_self]
  rfl

lemma Sensitivities.g_of_matched {s : Sensitivities α} {d : Gradients α n s.g.size} (h : s.matched n = .ok d) :
    d.g = s.g.toVector := by
  unfold Sensitivities.matched at h
  cases hd : checkedLength "objective gradient" n s.dfdx with
  | error cause =>
    rw [hd] at h
    cases h
  | ok dfdx =>
    cases ht : s.dgdx.matched n s.g.size with
    | error cause =>
      rw [hd, ht] at h
      cases h
    | ok dgdx =>
      rw [hd, ht] at h
      cases h
      rfl

end MovingAsymptotes
