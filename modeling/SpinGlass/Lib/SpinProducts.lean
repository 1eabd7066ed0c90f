import SpinGlass.Lib.MultiSpin
import Mathlib.Algebra.BigOperators.Group.Finset.Powerset
import Mathlib.Algebra.BigOperators.Ring.Finset
import Mathlib.Algebra.CharZero.Defs
import Mathlib.Tactic.LinearCombination

/-!
# SpinProducts — products of spins are linearly independent

On Ising configurations a product of spins only depends on the sites that it
lists an odd number of times (`oddSites`). Products over different sets of
sites are linearly independent functions of the configuration
(`coeff_eq_zero`), so that a sum of interactions vanishes on every
configuration exactly when the interactions with the same odd sites cancel
(`sum_corr_eq_zero_iff`).
-/

namespace MultiSpin

variable {ι K : Type*} [DecidableEq ι]

/-- The sites that are listed an odd number of times. -/
def oddSites (sites : List ι) : Finset ι :=
  sites.toFinset.filter fun a => sites.count a % 2 = 1

@[simp] theorem mem_oddSites {a : ι} {sites : List ι} :
    a ∈ oddSites sites ↔ sites.count a % 2 = 1 := by
  rw [oddSites, Finset.mem_filter, List.mem_toFinset]
  constructor
  · intro h
    exact h.2
  · intro h
    refine ⟨?_, h⟩
    by_contra ha
    rw [List.count_eq_zero_of_not_mem ha] at h
    omega

theorem oddSites_of_nodup {sites : List ι} (h : sites.Nodup) :
    oddSites sites = sites.toFinset := by
  ext a
  rw [mem_oddSites, List.mem_toFinset]
  by_cases ha : a ∈ sites
  · simp [List.count_eq_one_of_mem h ha, ha]
  · simp [List.count_eq_zero_of_not_mem ha, ha]

section CommRing

variable [CommRing K]

omit [DecidableEq ι] in
/-- A power of a spin only depends on the parity of the exponent. -/
theorem IsIsing.pow {σ : ι → K} (h : IsIsing σ) (a : ι) (n : ℕ) :
    σ a ^ n = if n % 2 = 1 then σ a else 1 := by
  induction n with
  | zero => simp
  | succ n ih =>
      rw [pow_succ, ih]
      rcases Nat.mod_two_eq_zero_or_one n with hn | hn
      · have hn' : (n + 1) % 2 = 1 := by omega
        simp [hn, hn']
      · have hn' : (n + 1) % 2 = 0 := by omega
        simp [hn, hn', h.mul_self]

theorem corr_eq_prod_oddSites {σ : ι → K} (h : IsIsing σ) (sites : List ι) :
    corr σ sites = ∏ a ∈ oddSites sites, σ a := by
  rw [corr, Finset.prod_list_map_count, oddSites, Finset.prod_filter]
  exact Finset.prod_congr rfl fun a _ => h.pow a _

/-- The interactions, gathered by their odd sites. -/
theorem sum_corr_grouped (s : Finset (Finset ι)) (f : List ι × K → K)
    {edges : List (List ι × K)} (hs : ∀ e ∈ edges, oddSites e.1 ∈ s) {σ : ι → K}
    (hσ : IsIsing σ) :
    (edges.map fun e => f e * corr σ e.1).sum
      = ∑ A ∈ s, ((edges.filter fun e => oddSites e.1 = A).map f).sum * ∏ a ∈ A, σ a := by
  induction edges with
  | nil => simp
  | cons e edges ih =>
      have hsplit : ∀ A, (((e :: edges).filter fun e => oddSites e.1 = A).map f).sum
          = (if oddSites e.1 = A then f e else 0)
            + ((edges.filter fun e => oddSites e.1 = A).map f).sum := by
        intro A
        by_cases hA : oddSites e.1 = A <;> simp [hA]
      have hfirst : ∑ A ∈ s, (if oddSites e.1 = A then f e else 0) * ∏ a ∈ A, σ a
          = f e * corr σ e.1 := by
        rw [corr_eq_prod_oddSites hσ]
        simp [ite_mul, hs e (by simp)]
      simp only [hsplit, add_mul, Finset.sum_add_distrib, hfirst]
      rw [List.map_cons, List.sum_cons, ih fun e' he' => hs e' (by simp [he'])]

/-- The value at `i` may be set to `1` or `-1`. -/
theorem IsIsing.update {σ : ι → K} (h : IsIsing σ) (i : ι) {x : K} (hx : x = 1 ∨ x = -1) :
    IsIsing (Function.update σ i x) := by
  intro a
  by_cases ha : a = i
  · rw [ha, Function.update_self]
    exact hx
  · rw [Function.update_of_ne ha]
    exact h a

/-- Over the subsets of `insert i V`: those without `i` do not see the spin at `i`, and the
others have it as a factor. -/
theorem sum_powerset_update {V : Finset ι} {i : ι} (hi : i ∉ V) (c : Finset ι → K) (σ : ι → K)
    (x : K) :
    ∑ A ∈ (insert i V).powerset, c A * ∏ a ∈ A, Function.update σ i x a
      = (∑ A ∈ V.powerset, c A * ∏ a ∈ A, σ a)
        + x * ∑ A ∈ V.powerset, c (insert i A) * ∏ a ∈ A, σ a := by
  have hprod : ∀ A ∈ V.powerset, ∏ a ∈ A, Function.update σ i x a = ∏ a ∈ A, σ a := by
    intro A hA
    apply Finset.prod_congr rfl
    intro a ha
    have hne : a ≠ i := fun hai => hi (hai ▸ Finset.mem_powerset.mp hA ha)
    rw [Function.update_of_ne hne]
  rw [Finset.sum_powerset_insert hi, Finset.mul_sum]
  congr 1
  · apply Finset.sum_congr rfl
    intro A hA
    rw [hprod A hA]
  · apply Finset.sum_congr rfl
    intro A hA
    have hiA : i ∉ A := fun hiA => hi (Finset.mem_powerset.mp hA hiA)
    rw [Finset.prod_insert hiA, hprod A hA, Function.update_self]
    ring

end CommRing

variable [Field K] [CharZero K]

/-- **Independence**: a combination of products over the subsets of `V` that vanishes on
every Ising configuration has no coefficient but zero. -/
theorem coeff_eq_zero {V : Finset ι} {c : Finset ι → K}
    (h : ∀ σ : ι → K, IsIsing σ → ∑ A ∈ V.powerset, c A * ∏ a ∈ A, σ a = 0) :
    ∀ A, A ⊆ V → c A = 0 := by
  induction V using Finset.induction_on generalizing c with
  | empty =>
      intro A hA
      have h1 := h (fun _ => 1) fun _ => Or.inl rfl
      rw [Finset.subset_empty.mp hA]
      simpa using h1
  | @insert i V hi ih =>
      -- the sum over the subsets without `i`, and over those with `i` less the spin at `i`
      have hboth : ∀ σ : ι → K, IsIsing σ →
          (∑ A ∈ V.powerset, c A * ∏ a ∈ A, σ a = 0) ∧
            ∑ A ∈ V.powerset, c (insert i A) * ∏ a ∈ A, σ a = 0 := by
        intro σ hσ
        -- neither sum has the spin at `i`, which may take both values
        have hat : ∀ x : K, x = 1 ∨ x = -1 →
            (∑ A ∈ V.powerset, c A * ∏ a ∈ A, σ a)
              + x * (∑ A ∈ V.powerset, c (insert i A) * ∏ a ∈ A, σ a) = 0 := by
          intro x hx
          rw [← sum_powerset_update hi]
          exact h _ (hσ.update i hx)
        have hplus := hat 1 (Or.inl rfl)
        have hminus := hat (-1) (Or.inr rfl)
        constructor
        · linear_combination (hplus + hminus) / 2
        · linear_combination (hplus - hminus) / 2
      intro A hA
      by_cases hiA : i ∈ A
      · have herase : A.erase i ⊆ V := by
          intro a ha
          have hmem := Finset.mem_erase.mp ha
          exact (Finset.mem_insert.mp (hA hmem.2)).resolve_left hmem.1
        have hzero := ih (c := fun A => c (insert i A)) (fun σ hσ => (hboth σ hσ).2) _ herase
        simpa [Finset.insert_erase hiA] using hzero
      · apply ih (fun σ hσ => (hboth σ hσ).1) A
        intro a ha
        exact (Finset.mem_insert.mp (hA ha)).resolve_left fun hai => hiA (hai ▸ ha)

/-- A sum of interactions vanishes on every Ising configuration exactly when those with
the same odd sites cancel. -/
theorem sum_corr_eq_zero_iff (f : List ι × K → K) (edges : List (List ι × K)) :
    (∀ σ : ι → K, IsIsing σ → (edges.map fun e => f e * corr σ e.1).sum = 0) ↔
      ∀ e ∈ edges, ((edges.filter fun e' => oddSites e'.1 = oddSites e.1).map f).sum = 0 := by
  constructor
  · intro h e he
    have hsub : ∀ e ∈ edges, oddSites e.1 ⊆ (edges.flatMap Prod.fst).toFinset := by
      intro e he a ha
      have hae : a ∈ e.1 := List.mem_toFinset.mp (Finset.mem_filter.mp ha).1
      exact List.mem_toFinset.mpr (List.mem_flatMap.mpr ⟨e, he, hae⟩)
    refine coeff_eq_zero (V := (edges.flatMap Prod.fst).toFinset)
      (c := fun A => ((edges.filter fun e' => oddSites e'.1 = A).map f).sum)
      (fun σ hσ => ?_) _ (hsub e he)
    rw [← sum_corr_grouped _ f (fun e he => Finset.mem_powerset.mpr (hsub e he)) hσ]
    exact h σ hσ
  · intro h σ hσ
    rw [sum_corr_grouped (edges.map fun e => oddSites e.1).toFinset f
      (fun e he => List.mem_toFinset.mpr (List.mem_map.mpr ⟨e, he, rfl⟩)) hσ]
    apply Finset.sum_eq_zero
    intro A hA
    obtain ⟨e, he, rfl⟩ := List.mem_map.mp (List.mem_toFinset.mp hA)
    rw [h e he, zero_mul]

end MultiSpin
