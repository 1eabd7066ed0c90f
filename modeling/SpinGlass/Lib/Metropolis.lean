import Mathlib.Data.Matrix.Mul
import Mathlib.Algebra.Order.Field.Basic
import Mathlib.Tactic.Linarith

/-!
# Metropolis — transition matrices that keep a weight

A matrix over a finite type of states keeps a weight when the weight is a
left eigenvector of it for the value one. Detailed balance is enough
(`Balanced.keeps`), and matrices that keep a weight can be multiplied.
`metropolis` is the matrix of the Metropolis rule for an involution that
proposes the next state.
-/

namespace Metropolis

variable {K S : Type*} [Field K]

/-- `exp` is an exponential: positive, monotone, and a sum goes to a product. -/
structure IsExp [LinearOrder K] (exp : K → K) : Prop where
  pos : ∀ a, 0 < exp a
  add : ∀ a b, exp (a + b) = exp a * exp b
  mono : Monotone exp

/-- The probability flow from `s` to `t` is the one back. -/
def Balanced (w : S → K) (P : Matrix S S K) : Prop := ∀ s t, w s * P s t = w t * P t s

/-- The weight is the same after the transition. -/
def Keeps [Fintype S] (w : S → K) (P : Matrix S S K) : Prop := ∀ t, ∑ s, w s * P s t = w t

/-! ## Keeping a weight -/

section Keeps

variable [Fintype S] {w : S → K} {P Q : Matrix S S K}

/-- Detailed balance, and rows that add up to one, keep the weight. -/
theorem Balanced.keeps (h : Balanced w P) (hrow : ∀ s, ∑ t, P s t = 1) : Keeps w P := by
  intro t
  calc ∑ s, w s * P s t
      = ∑ s, w t * P t s := Finset.sum_congr rfl fun s _ => h s t
    _ = w t * ∑ s, P t s := (Finset.mul_sum _ _ _).symm
    _ = w t := by rw [hrow, mul_one]

theorem Keeps.one [DecidableEq S] : Keeps w (1 : Matrix S S K) := by
  intro t
  simp [Matrix.one_apply]

theorem Keeps.mul (hP : Keeps w P) (hQ : Keeps w Q) : Keeps w (P * Q) := by
  intro t
  calc ∑ s, w s * (P * Q) s t
      = ∑ s, ∑ u, w s * P s u * Q u t := by
        simp only [Matrix.mul_apply, Finset.mul_sum, mul_assoc]
    _ = ∑ u, (∑ s, w s * P s u) * Q u t := by
        rw [Finset.sum_comm]
        simp only [Finset.sum_mul]
    _ = ∑ u, w u * Q u t := Finset.sum_congr rfl fun u _ => by rw [hP u]
    _ = w t := hQ t

/-- A product of matrices that keep the weight keeps it. -/
theorem Keeps.prod [DecidableEq S] {ι : Type*} {P : ι → Matrix S S K} (l : List ι)
    (h : ∀ i ∈ l, Keeps w (P i)) : Keeps w (l.map P).prod := by
  induction l with
  | nil => exact Keeps.one
  | cons i l ih =>
      rw [List.map_cons, List.prod_cons]
      exact (h i (by simp)).mul (ih fun j hj => h j (by simp [hj]))

end Keeps

/-! ## The Metropolis rule -/

variable [LinearOrder K] [IsStrictOrderedRing K]

namespace IsExp

variable {exp : K → K} (hexp : IsExp exp)

include hexp

omit [IsStrictOrderedRing K] in
theorem zero : exp 0 = 1 := by
  have h := hexp.add 0 0
  rw [add_zero] at h
  exact (mul_right_eq_self₀.mp h.symm).resolve_right (hexp.pos 0).ne'

omit [IsStrictOrderedRing K] in
theorem le_one {a : K} (ha : a ≤ 0) : exp a ≤ 1 := by
  rw [← hexp.zero]
  exact hexp.mono ha

end IsExp

/-- The probability with which a change `dE` of the energy is accepted. -/
def acceptance (exp : K → K) (beta dE : K) : K :=
  if dE ≤ 0 then 1 else min (exp (-beta * dE)) 1

/-- The Boltzmann weight of an energy. -/
def boltzmann (exp : K → K) (beta E : K) : K := exp (-beta * E)

/-- The matrix of the rule: `next s` is proposed, and taken or not. -/
def metropolis [DecidableEq S] (exp : K → K) (beta : K) (next : S → S) (E : S → K) :
    Matrix S S K := fun s t =>
  (if next s = t then acceptance exp beta (E (next s) - E s) else 0)
    + (if s = t then 1 - acceptance exp beta (E (next s) - E s) else 0)

/-- **The acceptance rule is in balance**: of two states the one of lower energy is always
taken, and the other with the quotient of the weights. -/
theorem acceptance_balanced {exp : K → K} (hexp : IsExp exp) {beta : K} (hbeta : 0 ≤ beta)
    (a b : K) :
    boltzmann exp beta a * acceptance exp beta (b - a)
      = boltzmann exp beta b * acceptance exp beta (a - b) := by
  have hup : ∀ {x y : K}, x < y →
      boltzmann exp beta x * acceptance exp beta (y - x)
        = boltzmann exp beta y * acceptance exp beta (x - y) := by
    intro x y hxy
    have hpos : ¬ y - x ≤ 0 := by
      rw [not_le, sub_pos]
      exact hxy
    have hsmall : exp (-beta * (y - x)) ≤ 1 := by
      refine hexp.le_one ?_
      have := mul_nonneg hbeta (sub_nonneg.mpr hxy.le)
      linarith
    rw [acceptance, acceptance, if_neg hpos, if_pos (by linarith), min_eq_left hsmall,
      boltzmann, boltzmann, ← hexp.add, mul_one]
    congr 1
    ring
  rcases lt_trichotomy a b with h | h | h
  · exact hup h
  · rw [h]
  · exact (hup h).symm

variable [DecidableEq S] {exp : K → K} {beta : K} {next : S → S} {E : S → K}

omit [IsStrictOrderedRing K] in
theorem metropolis_row [Fintype S] (s : S) : ∑ t, metropolis exp beta next E s t = 1 := by
  simp [metropolis, Finset.sum_add_distrib]

/-- **Detailed balance** of the Metropolis rule, when the proposal goes back and forth. -/
theorem metropolis_balanced (hexp : IsExp exp) (hbeta : 0 ≤ beta)
    (hback : ∀ s, next (next s) = s) :
    Balanced (fun s => boltzmann exp beta (E s)) (metropolis exp beta next E) := by
  intro s t
  have hsym : next s = t ↔ next t = s :=
    ⟨fun h => by rw [← h, hback], fun h => by rw [← h, hback]⟩
  by_cases hst : s = t
  · rw [hst]
  · by_cases hnext : next s = t
    · have hback' := hsym.mp hnext
      have h := acceptance_balanced hexp hbeta (E s) (E t)
      simp only [metropolis, hnext, hback', if_true, if_neg hst, if_neg (Ne.symm hst), add_zero]
      exact h
    · have hnot : ¬ next t = s := fun h => hnext (hsym.mpr h)
      simp [metropolis, hnext, hnot, hst, Ne.symm hst]

/-- The Metropolis rule keeps the Boltzmann weight. -/
theorem metropolis_keeps [Fintype S] (hexp : IsExp exp) (hbeta : 0 ≤ beta)
    (hback : ∀ s, next (next s) = s) :
    Keeps (fun s => boltzmann exp beta (E s)) (metropolis exp beta next E) :=
  (metropolis_balanced hexp hbeta hback).keeps metropolis_row

end Metropolis
