import SpinGlass.Lib.MultiSpin
import Mathlib.Algebra.Order.BigOperators.Group.List
import Mathlib.Algebra.Order.Ring.Int
import Mathlib.Tactic.Linarith

/-!
# IntegerCouplings — the values that an energy can have

With integer couplings the energy of an Ising configuration is an integer;
it differs from the sum of the couplings by an even number, and is no
larger than the sum of their absolute values. `OnGrid` names these values.
Different energies are therefore at least two apart.
-/

namespace MultiSpin

/-- The integers that couplings `js` allow as energies. -/
structure OnGrid (js : List ℤ) (n : ℤ) : Prop where
  even : Even (js.sum - n)
  bound : |n| ≤ (js.map fun j => |j|).sum

theorem OnGrid.nil : OnGrid [] 0 := ⟨⟨0, rfl⟩, le_refl _⟩

/-- One more interaction, with either sign. -/
theorem OnGrid.cons {js : List ℤ} {n : ℤ} (h : OnGrid js n) (j : ℤ) {m : ℤ}
    (hm : m = j ∨ m = -j) : OnGrid (j :: js) (m + n) := by
  obtain ⟨k, hk⟩ := h.even
  have habs : |m| = |j| := by
    rcases hm with rfl | rfl
    · rfl
    · exact abs_neg j
  constructor
  · rw [List.sum_cons]
    rcases hm with rfl | rfl
    · exact ⟨k, by omega⟩
    · exact ⟨j + k, by omega⟩
  · calc |m + n| ≤ |m| + |n| := abs_add_le m n
      _ ≤ |j| + (js.map fun j => |j|).sum := by rw [habs]; exact Int.add_le_add_left h.bound _
      _ = ((j :: js).map fun j => |j|).sum := by rw [List.map_cons, List.sum_cons]

variable {ι K : Type*} [CommRing K]

theorem IsIsing.corr {σ : ι → K} (h : IsIsing σ) (sites : List ι) :
    corr σ sites = 1 ∨ corr σ sites = -1 := by
  induction sites with
  | nil => exact Or.inl rfl
  | cons a sites ih =>
      rw [corr_cons]
      rcases h a with ha | ha <;> rcases ih with hs | hs <;> simp [ha, hs]

/-- **The energies are on the grid.** -/
theorem IsIsing.energy_onGrid {σ : ι → K} (h : IsIsing σ) {edges : List (List ι × K)}
    {js : List ℤ} (hjs : edges.map Prod.snd = js.map fun j : ℤ => (j : K)) :
    ∃ n : ℤ, energy σ edges = (n : K) ∧ OnGrid js n := by
  induction edges generalizing js with
  | nil =>
      obtain rfl : js = [] := List.map_eq_nil_iff.mp hjs.symm
      exact ⟨0, by simp [energy], OnGrid.nil⟩
  | cons e edges ih =>
      obtain ⟨j, js, rfl, hj, hrest⟩ := List.map_eq_cons_iff.mp hjs.symm
      obtain ⟨n, hn, hgrid⟩ := ih hrest.symm
      have hcons : energy σ (e :: edges) = (j : K) * MultiSpin.corr σ e.1 + (n : K) := by
        rw [← hn, hj]
        rfl
      rcases h.corr e.1 with hc | hc
      · exact ⟨j + n, by rw [hcons, hc]; push_cast; ring, hgrid.cons j (Or.inl rfl)⟩
      · exact ⟨-j + n, by rw [hcons, hc]; push_cast; ring, hgrid.cons j (Or.inr rfl)⟩

end MultiSpin
