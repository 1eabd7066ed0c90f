import Mathlib.Algebra.BigOperators.Group.List.Lemmas
import Mathlib.Algebra.BigOperators.Group.Finset.Piecewise
import Mathlib.Algebra.BigOperators.Ring.List
import Mathlib.Algebra.Order.Field.Basic
import Mathlib.Data.List.Dedup
import Mathlib.Data.List.Count
import Mathlib.Tactic.Ring

/-!
# MultiSpin — Ising energies with interactions of any arity

A configuration gives every site of `ι` a value in a commutative ring; it
is an Ising configuration when the values are `1` and `-1`. An interaction
is a list of sites with a coupling, and contributes the coupling times the
product of the values at its sites (`corr`). The file has the effect of
turning one spin over (`flipAt`), the energy of a list of interactions and
its change under a flip, the bookkeeping of an energy that is gathered
site by site (`sum_over_sites`), and gauge transformations, which change
the signs of spins and couplings together and no energy.
-/

namespace MultiSpin

variable {ι K : Type*} [CommRing K]

/-- The spin, `1` or `-1`, that a bit stands for. -/
def ofBit (bit : ℕ) : K := 2 * (bit : K) - 1

/-- The product of the spins at `sites`. -/
def corr (σ : ι → K) (sites : List ι) : K := (sites.map σ).prod

@[simp] theorem corr_nil (σ : ι → K) : corr σ [] = 1 := rfl

@[simp] theorem corr_cons (σ : ι → K) (a : ι) (sites : List ι) :
    corr σ (a :: sites) = σ a * corr σ sites := by
  simp [corr]

theorem corr_perm {σ : ι → K} {sites sites' : List ι} (h : sites.Perm sites') :
    corr σ sites = corr σ sites' :=
  (h.map σ).prod_eq

theorem corr_congr {σ τ : ι → K} {sites : List ι} (h : ∀ a ∈ sites, σ a = τ a) :
    corr σ sites = corr τ sites := by
  rw [corr, corr, List.map_congr_left h]

theorem corr_map {κ : Type*} (σ : ι → K) (f : κ → ι) (sites : List κ) :
    corr σ (sites.map f) = (sites.map fun a => σ (f a)).prod := by
  rw [corr, List.map_map]
  rfl

/-! ## Turning a spin over -/

variable [DecidableEq ι]

/-- The configuration with the spin at `i` turned over. -/
def flipAt (i : ι) (σ : ι → K) : ι → K := Function.update σ i (-σ i)

/-- The product changes sign once for every time the site is listed. -/
theorem corr_flipAt (i : ι) (σ : ι → K) (sites : List ι) :
    corr (flipAt i σ) sites = (-1) ^ sites.count i * corr σ sites := by
  induction sites with
  | nil => simp
  | cons a sites ih =>
      rw [corr_cons, corr_cons, ih]
      by_cases ha : a = i
      · subst ha
        rw [List.count_cons_self, flipAt, Function.update_self, pow_succ]
        ring
      · rw [List.count_cons_of_ne ha, flipAt, Function.update_of_ne ha]
        ring

theorem corr_flipAt_of_mem {i : ι} {sites : List ι} (hn : sites.Nodup) (hi : i ∈ sites)
    (σ : ι → K) : corr (flipAt i σ) sites = -corr σ sites := by
  rw [corr_flipAt, List.count_eq_one_of_mem hn hi]
  ring

theorem corr_flipAt_of_notMem {i : ι} {sites : List ι} (hi : i ∉ sites) (σ : ι → K) :
    corr (flipAt i σ) sites = corr σ sites := by
  rw [corr_flipAt, List.count_eq_zero_of_not_mem hi]
  ring

/-! ## Energies -/

/-- The sum of the interactions. -/
def energy (σ : ι → K) (edges : List (List ι × K)) : K :=
  (edges.map fun e => e.2 * corr σ e.1).sum

/-- The change of the energy when the spin at `i` is turned over: twice the
interactions of `i`, taken away. -/
def change (σ : ι → K) (edges : List (List ι × K)) (i : ι) : K :=
  ((edges.filter fun e => i ∈ e.1).map fun e => -2 * (e.2 * corr σ e.1)).sum

theorem energy_flipAt {edges : List (List ι × K)} (hn : ∀ e ∈ edges, e.1.Nodup)
    (i : ι) (σ : ι → K) :
    energy (flipAt i σ) edges = energy σ edges + change σ edges i := by
  induction edges with
  | nil => simp [energy, change]
  | cons e edges ih =>
      have ih := ih fun e' he' => hn e' (by simp [he'])
      simp only [energy, change, List.map_cons, List.sum_cons] at ih ⊢
      rw [ih]
      by_cases hi : i ∈ e.1
      · rw [corr_flipAt_of_mem (hn e (by simp)) hi]
        simp only [hi, List.filter_cons, decide_true, if_true, List.map_cons, List.sum_cons]
        ring
      · rw [corr_flipAt_of_notMem hi]
        simp only [hi, List.filter_cons, decide_false, Bool.false_eq_true, if_false]
        ring

/-! ## Gathering by sites -/

omit [CommRing K] in
/-- A quantity of the interactions, gathered at every site from the interactions
of the site: each is met once for every site it has. -/
theorem sum_over_sites {M : Type*} [AddCommMonoid M] (s : Finset ι)
    (f : List ι × K → M) {edges : List (List ι × K)} (hs : ∀ e ∈ edges, ∀ a ∈ e.1, a ∈ s) :
    ∑ i ∈ s, ((edges.filter fun e => i ∈ e.1).map f).sum
      = (edges.map fun e => e.1.dedup.length • f e).sum := by
  induction edges with
  | nil => simp
  | cons e edges ih =>
      have hsum : ∀ i, (((e :: edges).filter fun e => i ∈ e.1).map f).sum
          = (if i ∈ e.1.toFinset then f e else 0)
            + ((edges.filter fun e => i ∈ e.1).map f).sum := by
        intro i
        by_cases hi : i ∈ e.1 <;> simp [hi]
      have hcard : (s ∩ e.1.toFinset) = e.1.toFinset :=
        Finset.inter_eq_right.mpr fun a ha => hs e (by simp) a (by simpa using ha)
      rw [Finset.sum_congr rfl fun i _ => hsum i, Finset.sum_add_distrib,
        ih fun e' he' => hs e' (by simp [he']), Finset.sum_ite_mem, hcard,
        Finset.sum_const, List.map_cons, List.sum_cons, List.card_toFinset]

/-! ## Ising configurations -/

/-- Every spin is `1` or `-1`. -/
def IsIsing (σ : ι → K) : Prop := ∀ i, σ i = 1 ∨ σ i = -1

omit [DecidableEq ι] in
theorem IsIsing.mul_self {σ : ι → K} (h : IsIsing σ) (i : ι) : σ i * σ i = 1 := by
  rcases h i with hi | hi <;> rw [hi] <;> ring

theorem IsIsing.flipAt {σ : ι → K} (h : IsIsing σ) (i : ι) : IsIsing (flipAt i σ) := by
  intro a
  by_cases ha : a = i
  · subst ha
    rw [MultiSpin.flipAt, Function.update_self]
    rcases h a with hi | hi
    · exact Or.inr (by rw [hi])
    · exact Or.inl (by rw [hi, neg_neg])
  · rw [MultiSpin.flipAt, Function.update_of_ne ha]
    exact h a

/-! ## Gauge transformations -/

omit [DecidableEq ι] in
theorem corr_mul (ε σ : ι → K) (sites : List ι) :
    corr (fun a => ε a * σ a) sites = corr ε sites * corr σ sites :=
  List.prod_map_mul

omit [DecidableEq ι] in
theorem IsIsing.corr_mul_self {σ : ι → K} (h : IsIsing σ) (sites : List ι) :
    corr σ sites * corr σ sites = 1 := by
  rw [← corr_mul, corr, List.map_congr_left fun a _ => h.mul_self a, List.map_const',
    List.prod_replicate, one_pow]

/-- The interaction with the signs of `ε` at its sites on its coupling. -/
def gauged (ε : ι → K) (e : List ι × K) : List ι × K := (e.1, e.2 * corr ε e.1)

omit [DecidableEq ι] in
@[simp] theorem gauged_fst (ε : ι → K) (e : List ι × K) : (gauged ε e).1 = e.1 := rfl

omit [DecidableEq ι] in
/-- The signs on the coupling make up for those on the spins. -/
theorem gauged_snd_mul_corr {ε : ι → K} (hε : IsIsing ε) (σ : ι → K) (e : List ι × K) :
    (gauged ε e).2 * corr (fun a => ε a * σ a) (gauged ε e).1 = e.2 * corr σ e.1 := by
  calc (gauged ε e).2 * corr (fun a => ε a * σ a) (gauged ε e).1
      = e.2 * corr ε e.1 * (corr ε e.1 * corr σ e.1) := by rw [corr_mul]; rfl
    _ = e.2 * corr σ e.1 * (corr ε e.1 * corr ε e.1) := by ring
    _ = e.2 * corr σ e.1 := by rw [hε.corr_mul_self, mul_one]

omit [CommRing K] in
/-- Interactions whose sites stay are found at the sites at which they were. -/
theorem filter_mem_map {f : List ι × K → List ι × K} (hf : ∀ e, (f e).1 = e.1) (i : ι)
    (edges : List (List ι × K)) :
    ((edges.map f).filter fun e => i ∈ e.1) = (edges.filter fun e => i ∈ e.1).map f := by
  rw [List.filter_map]
  congr 2
  funext e
  simp [hf]

/-- A gauge transformation keeps the change that a flip makes. -/
theorem change_gauged {ε : ι → K} (hε : IsIsing ε) (σ : ι → K) (edges : List (List ι × K))
    (i : ι) :
    change (fun a => ε a * σ a) (edges.map (gauged ε)) i = change σ edges i := by
  rw [change, change, filter_mem_map (gauged_fst ε), List.map_map]
  congr 1
  apply List.map_congr_left
  intro e _
  rw [Function.comp_apply, gauged_snd_mul_corr hε]

end MultiSpin
