import Mathlib.Data.Nat.ModEq
import Mathlib.Logic.Function.Iterate

/-!
# Lehmer — multiplicative congruential generators

The generator with multiplier `a` and modulus `m` goes from state `x` to
`a * x % m`, and `seeded` is the state that a seed puts it in: the seed
modulo `m`, but never zero. With `a` and `m` coprime two states that differ
stay different for ever (`iterate_next_ne`).
-/

namespace Lehmer

/-- The state after `x`. -/
def next (a m x : ℕ) : ℕ := a * x % m

/-- The state that seed `s` puts the generator in. -/
def seeded (m s : ℕ) : ℕ := if s % m = 0 then 1 else s % m

variable {a m : ℕ}

theorem next_lt (hm : 0 < m) (x : ℕ) : next a m x < m := Nat.mod_lt _ hm

theorem next_inj (hcop : Nat.Coprime m a) {x y : ℕ} (hx : x < m) (hy : y < m)
    (h : next a m x = next a m y) : x = y := by
  have hmod : x ≡ y [MOD m] := Nat.ModEq.cancel_left_of_coprime hcop h
  rwa [Nat.ModEq, Nat.mod_eq_of_lt hx, Nat.mod_eq_of_lt hy] at hmod

/-- States that differ never lead to the same state in the same number of steps. -/
theorem iterate_next_ne (hm : 0 < m) (hcop : Nat.Coprime m a) {x y : ℕ} (hx : x < m)
    (hy : y < m) (hne : x ≠ y) (n : ℕ) : (next a m)^[n] x ≠ (next a m)^[n] y := by
  induction n generalizing x y with
  | zero => exact hne
  | succ n ih =>
      rw [Function.iterate_succ_apply, Function.iterate_succ_apply]
      exact ih (next_lt hm x) (next_lt hm y) fun h => hne (next_inj hcop hx hy h)

theorem seeded_lt (hm : 1 < m) (s : ℕ) : seeded m s < m := by
  rw [seeded]
  split
  · exact hm
  · exact Nat.mod_lt _ (by omega)

/-- Below the modulus only the seeds `0` and `1` put the generator in the same state. -/
theorem seeded_eq_iff {s t : ℕ} (hs : s < m) (ht : t < m) :
    seeded m s = seeded m t ↔ s = t ∨ (s ≤ 1 ∧ t ≤ 1) := by
  rw [seeded, seeded, Nat.mod_eq_of_lt hs, Nat.mod_eq_of_lt ht]
  by_cases hs0 : s = 0
  · rw [if_pos hs0]
    by_cases ht0 : t = 0
    · rw [if_pos ht0]
      omega
    · rw [if_neg ht0]
      omega
  · rw [if_neg hs0]
    by_cases ht0 : t = 0
    · rw [if_pos ht0]
      omega
    · rw [if_neg ht0]
      omega

end Lehmer
