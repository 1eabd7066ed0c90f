import SpinGlass.Lib.MultiSpin
import Mathlib.Algebra.Order.Ring.Abs
import Mathlib.Tactic.Linarith

/-!
# Frustration — the least energy there could be

No Ising configuration has an energy below minus the sum of the sizes of the
couplings, nor one above that sum. A configuration reaches the lower bound
exactly when it satisfies every interaction, that is when the gauge
transformation by its own spins leaves no positive coupling.
-/

namespace MultiSpin

variable {ι K : Type*} [CommRing K] [LinearOrder K] [IsStrictOrderedRing K] {σ : ι → K}
  {edges : List (List ι × K)}

/-- The sum of the sizes of the couplings. -/
def bonds (edges : List (List ι × K)) : K := (edges.map fun e => |e.2|).sum

theorem IsIsing.abs_corr (h : IsIsing σ) (sites : List ι) : |corr σ sites| = 1 := by
  rcases mul_self_eq_one_iff.mp (h.corr_mul_self sites) with hs | hs
  · rw [hs, abs_one]
  · rw [hs, abs_neg, abs_one]

/-- An interaction is as strong as its coupling. -/
theorem IsIsing.abs_gauged (h : IsIsing σ) (e : List ι × K) : |(gauged σ e).2| = |e.2| := by
  rw [gauged, abs_mul, h.abs_corr, mul_one]

theorem abs_energy_le (h : IsIsing σ) (edges : List (List ι × K)) :
    |energy σ edges| ≤ bonds edges := by
  induction edges with
  | nil => simp [energy, bonds]
  | cons e edges ih =>
      calc |energy σ (e :: edges)|
          = |(gauged σ e).2 + energy σ edges| := rfl
        _ ≤ |(gauged σ e).2| + |energy σ edges| := abs_add_le _ _
        _ = |e.2| + |energy σ edges| := by rw [h.abs_gauged]
        _ ≤ |e.2| + bonds edges := add_le_add_right ih _
        _ = bonds (e :: edges) := rfl

/-- **The lower bound is reached without frustration only.** -/
theorem energy_eq_neg_bonds_iff (h : IsIsing σ) :
    energy σ edges = -bonds edges ↔ ∀ e ∈ edges, (gauged σ e).2 ≤ 0 := by
  induction edges with
  | nil => simp [energy, bonds]
  | cons e edges ih =>
      have hsplit : energy σ (e :: edges) = (gauged σ e).2 + energy σ edges := rfl
      have hbonds : bonds (e :: edges) = |e.2| + bonds edges := rfl
      have hone := neg_abs_le (gauged σ e).2
      rw [h.abs_gauged] at hone
      have hrest := (abs_le.mp (abs_energy_le h edges)).1
      have hsign : (gauged σ e).2 = -|e.2| ↔ (gauged σ e).2 ≤ 0 := by
        rw [← h.abs_gauged e, eq_neg_iff_add_eq_zero, add_comm, ← eq_neg_iff_add_eq_zero,
          abs_eq_neg_self]
      rw [hsplit, hbonds, List.forall_mem_cons, ← ih, ← hsign]
      constructor
      · intro heq
        exact ⟨by linarith, by linarith⟩
      · rintro ⟨he, hedges⟩
        linarith

end MultiSpin
