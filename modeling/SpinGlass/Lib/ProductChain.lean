import SpinGlass.Lib.RandomRun
import Mathlib.LinearAlgebra.Matrix.Kronecker

/-!
# ProductChain — a chain on two parts that do not see each other

The energy of a pair is the sum of the energies of its two components. A move
that proposes another first component is then judged by the first energy alone,
and its matrix is a Kronecker product with the identity; so a list of moves of
the first part and then of the second one moves the two laws apart from each
other.
-/

namespace Metropolis

open scoped Kronecker

section Products

variable {K S T : Type*} [CommRing K] [Fintype S] [Fintype T] [DecidableEq S] [DecidableEq T]

/-- Two products, side by side. -/
theorem prod_kronecker {ι : Type*} (P : ι → Matrix S S K) (Q : ι → Matrix T T K) (l : List ι) :
    (l.map fun i => P i ⊗ₖ Q i).prod = (l.map P).prod ⊗ₖ (l.map Q).prod := by
  induction l with
  | nil => simp
  | cons i l ih => simp only [List.map_cons, List.prod_cons, ih, Matrix.mul_kronecker_mul]

/-- First the moves of one part, then those of the other one. -/
theorem prod_parts {ι κ : Type*} (P : ι → Matrix S S K) (Q : κ → Matrix T T K) (l : List ι)
    (l' : List κ) :
    (l.map fun i => P i ⊗ₖ (1 : Matrix T T K)).prod * (l'.map fun j => (1 : Matrix S S K) ⊗ₖ Q j).prod
      = (l.map P).prod ⊗ₖ (l'.map Q).prod := by
  rw [prod_kronecker P fun _ => 1, prod_kronecker (fun _ => 1) Q, ← Matrix.mul_kronecker_mul]
  simp

omit [DecidableEq S] [DecidableEq T] in
/-- The law of a pair of independent components. -/
theorem vecMul_kronecker (u : S → K) (v : T → K) (P : Matrix S S K) (Q : Matrix T T K)
    (p : S × T) :
    Matrix.vecMul (fun p => u p.1 * v p.2) (P ⊗ₖ Q) p
      = Matrix.vecMul u P p.1 * Matrix.vecMul v Q p.2 := by
  simp only [Matrix.vecMul, dotProduct, Matrix.kroneckerMap_apply, Fintype.sum_prod_type,
    Finset.sum_mul_sum]
  apply Finset.sum_congr rfl
  intro s _
  apply Finset.sum_congr rfl
  intro t _
  ring

end Products

/-! ## Moves of one part -/

section Parts

variable {K S T : Type*} [Field K] [DecidableEq S] [DecidableEq T] {E₁ : S → K} {E₂ : T → K}
  {E : S × T → K} (hE : ∀ p, E p = E₁ p.1 + E₂ p.2)

include hE

theorem ruled_fst (a : K → K) (next : S → S) :
    ruled a (fun p : S × T => (next p.1, p.2)) E
      = ruled a next E₁ ⊗ₖ (1 : Matrix T T K) := by
  ext ⟨s, t⟩ ⟨s', t'⟩
  have hdiff : E (next s, t) - E (s, t) = E₁ (next s) - E₁ s := by
    rw [hE, hE]
    ring
  simp only [Matrix.kroneckerMap_apply, ruled, hdiff, Prod.mk.injEq, Matrix.one_apply]
  by_cases ht : t = t'
  · simp [ht]
  · simp [ht]

theorem ruled_snd (a : K → K) (next : T → T) :
    ruled a (fun p : S × T => (p.1, next p.2)) E
      = (1 : Matrix S S K) ⊗ₖ ruled a next E₂ := by
  ext ⟨s, t⟩ ⟨s', t'⟩
  have hdiff : E (s, next t) - E (s, t) = E₂ (next t) - E₂ t := by
    rw [hE, hE]
    ring
  simp only [Matrix.kroneckerMap_apply, ruled, hdiff, Prod.mk.injEq, Matrix.one_apply]
  by_cases hs : s = s'
  · simp [hs]
  · simp [hs]

end Parts

end Metropolis
