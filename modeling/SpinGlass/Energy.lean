import SpinGlass.SaSolver
import SpinGlass.Incidence
import SpinGlass.Lib.MultiSpin
import Mathlib.Algebra.Order.Ring.Cast
import Mathlib.Data.List.GetD
import Mathlib.Tactic.FieldSimp

/-!
# Energy — what `compute_energy` and `delta_energy` compute

On a Hamiltonian with the incidence lists of `edges` and a configuration of
zeros and ones, no access of the two methods leaves its vector and no
divisor is zero, and the parity bits and signs come to products of spins:
`compute_energy` returns `sharedEnergy`, `delta_energy` the `change` of the
abstract energy.
-/

namespace SpinGlass

open CountedLoop MultiSpin

/-- A vector of `N` zeros and ones. -/
structure IsConfig (N : ℕ) (spins : List ℕ) : Prop where
  length : spins.length = N
  binary : ∀ x ∈ spins, x = 0 ∨ x = 1

variable {K : Type} [Field K]

/-- The spin that the bit of a site stands for. -/
def spinAt (spins : List ℕ) (a : ℕ) : K := ofBit (spins.getD a 0)

/-- The energy that `compute_energy` gathers: each of the sites of an edge adds the
share that one position of the edge has. -/
def sharedEnergy (σ : ℕ → K) (edges : List (EdgeType K)) : K :=
  (edges.map fun e => (e.1.dedup.length : K) * (e.2 * corr σ e.1 / (e.1.length : K))).sum

/-! ## Configurations -/

theorem IsConfig.load {N : ℕ} {spins : List ℕ} (h : IsConfig N spins) {a : ℕ} (ha : a < N) :
    load spins a = .ok (spins.getD a 0) := by
  have hlt : a < spins.length := by rw [h.length]; exact ha
  rw [load_of_lt hlt, List.getD_eq_getElem _ _ hlt]

theorem IsConfig.getD {N : ℕ} {spins : List ℕ} (h : IsConfig N spins) (a : ℕ) :
    spins.getD a 0 = 0 ∨ spins.getD a 0 = 1 := by
  by_cases ha : a < spins.length
  · rw [List.getD_eq_getElem _ _ ha]
    exact h.binary _ (List.getElem_mem ha)
  · exact Or.inl (List.getD_eq_default _ _ (by omega))

theorem IsConfig.isIsing {N : ℕ} {spins : List ℕ} (h : IsConfig N spins) :
    IsIsing (spinAt (K := K) spins) := by
  intro a
  rcases h.getD a with ha | ha
  · refine Or.inr ?_
    simp only [spinAt, ofBit, ha, Nat.cast_zero]
    ring
  · refine Or.inl ?_
    simp only [spinAt, ofBit, ha, Nat.cast_one]
    ring

/-- `spins_[i] = spins_[i] ^ 1` turns the spin at `i` over. -/
theorem IsConfig.set_xor {N : ℕ} {spins : List ℕ} (h : IsConfig N spins) {i : ℕ} (hi : i < N) :
    IsConfig N (spins.set i (spins.getD i 0 ^^^ 1))
      ∧ spinAt (K := K) (spins.set i (spins.getD i 0 ^^^ 1)) = flipAt i (spinAt spins) := by
  have hlt : i < spins.length := by rw [h.length]; exact hi
  constructor
  · refine ⟨by rw [List.length_set, h.length], fun x hx => ?_⟩
    rcases List.mem_or_eq_of_mem_set hx with hx | rfl
    · exact h.binary x hx
    · rcases h.getD i with hs | hs <;> rw [hs] <;> decide
  · funext a
    by_cases ha : a = i
    · subst ha
      have hget : (spins.set a (spins.getD a 0 ^^^ 1)).getD a 0 = spins.getD a 0 ^^^ 1 := by
        rw [List.getD_eq_getElem _ _ (by simpa using hlt), List.getElem_set_self]
      rw [flipAt, Function.update_self, spinAt, spinAt, ofBit, ofBit, hget]
      rcases h.getD a with hs | hs <;> rw [hs] <;> norm_num
    · rw [flipAt, Function.update_of_ne ha, spinAt, spinAt]
      simp [List.getD_eq_getElem?_getD, List.getElem?_set_ne (Ne.symm ha)]

/-! ## Parity and sign -/

theorem signOfArity_cons (a : ℕ) (sites : List ℕ) :
    signOfArity (a :: sites) = -signOfArity sites := by
  simp only [signOfArity, List.length_cons]
  omega

theorem signOfParity_xor {x : ℕ} (hx : x = 0 ∨ x = 1) (tmp : Bool) :
    signOfParity ((tmp.toNat ^^^ x) != 0) = -(signOfParity tmp * (2 * (x : ℤ) - 1)) := by
  rcases hx with rfl | rfl <;> cases tmp <;> decide

/-- The parity bit and the sign of the arity give the product of the spins. -/
theorem parity_spec {N : ℕ} {spins : List ℕ} (hc : IsConfig N spins) {sites : List ℕ}
    (hs : ∀ a ∈ sites, a < N) :
    ∃ tmp, parity spins sites = .ok tmp ∧
      (signOfParity tmp : K) * (signOfArity sites : K) = corr (spinAt spins) sites := by
  -- from any start `tmp₀`, the sign of `tmp₀` comes on top
  suffices h : ∀ (tmp₀ : Bool), ∃ tmp,
      sites.foldlM (fun tmp b => do
        let x ← load spins b
        .ok ((tmp.toNat ^^^ x) != 0)) tmp₀ = .ok tmp ∧
      (signOfParity tmp : K) * (signOfArity sites : K)
        = -(signOfParity tmp₀ : K) * corr (spinAt spins) sites by
    obtain ⟨tmp, hrun, hsign⟩ := h false
    refine ⟨tmp, hrun, ?_⟩
    rw [hsign, show signOfParity false = -1 from rfl]
    simp
  induction sites with
  | nil =>
      intro tmp₀
      exact ⟨tmp₀, rfl, by rw [show signOfArity [] = -1 from rfl]; simp⟩
  | cons a sites ih =>
      intro tmp₀
      have ha := hs a (by simp)
      have hbit := hc.getD a
      obtain ⟨tmp, hrun, hsign⟩ := ih (fun b hb => hs b (by simp [hb]))
        ((tmp₀.toNat ^^^ spins.getD a 0) != 0)
      refine ⟨tmp, ?_, ?_⟩
      · rw [List.foldlM_cons, hc.load ha, ok_bind, ok_bind]
        exact hrun
      · rw [signOfArity_cons, Int.cast_neg, mul_neg, hsign, signOfParity_xor hbit,
          corr_cons, spinAt, ofBit]
        push_cast
        ring

/-! ## One node -/

theorem foldl_add_eq {α : Type} (f : α → K) (l : List α) (E : K) :
    l.foldl (fun E x => E + f x) E = E + (l.map f).sum := by
  induction l generalizing E with
  | nil => simp
  | cons x l ih => rw [List.foldl_cons, ih, List.map_cons, List.sum_cons, add_assoc]

theorem sum_range_eq_sum (f : ℕ → K) (N : ℕ) :
    ((List.range N).map f).sum = ∑ i ∈ Finset.range N, f i := by
  induction N with
  | zero => rfl
  | succ N ih =>
      rw [List.range_succ, List.map_append, List.sum_append, ih, Finset.sum_range_succ]
      simp

section Node

variable [LinearOrder K] [IsStrictOrderedRing K] {N : ℕ} {spins : List ℕ}

theorem addShare_spec (hc : IsConfig N spins) {e : EdgeType K} (hne : e.1 ≠ [])
    (hs : ∀ a ∈ e.1, a < N) (E : K) :
    addShare spins E e = .ok (E + e.2 * corr (spinAt spins) e.1 / (e.1.length : K)) := by
  obtain ⟨tmp, hrun, hsign⟩ := parity_spec (K := K) hc hs
  have hlen : (e.1.length : K) ≠ 0 := by
    rw [Nat.cast_ne_zero]
    exact fun h => hne (List.length_eq_zero_iff.mp h)
  rw [addShare, hrun, ok_bind, divide_of_ne hlen, ok_bind, ← hsign]
  congr 2
  ring

omit [LinearOrder K] [IsStrictOrderedRing K] in
theorem addChange_spec (hc : IsConfig N spins) {e : EdgeType K}
    (hs : ∀ a ∈ e.1, a < N) (E : K) :
    addChange spins E e = .ok (E + -(e.2 * corr (spinAt spins) e.1)) := by
  obtain ⟨tmp, hrun, hsign⟩ := parity_spec (K := K) hc hs
  have hneg : (1 - 2 * tmp.toNat : ℤ) = -signOfParity tmp := by
    rw [signOfParity]
    ring
  rw [addChange, hrun, ok_bind, ← hsign, hneg]
  push_cast
  congr 1
  ring

end Node

/-! ## The two methods -/

variable [LinearOrder K] [IsStrictOrderedRing K] {H : HamiltonianType K} {edges : List (EdgeType K)}
  {spins : List ℕ}

theorem energyOfNode_spec (hI : Incidence H edges) (hc : IsConfig H.size spins) {i : ℕ}
    (hi : i < H.size) (E : K) :
    (load H.nodes_ i >>= fun node => node.foldlM (addShare spins) E)
      = .ok (E + ((edges.filter fun e => i ∈ e.1).map fun e =>
          e.2 * corr (spinAt spins) e.1 / (e.1.length : K)).sum) := by
  rw [hI.load hi, ok_bind, ← foldl_add_eq]
  refine foldlM_eq_foldl _ (fun e he E' => ?_) E
  have hmem := List.mem_filter.mp he
  have hie : i ∈ e.1 := by simpa using hmem.2
  exact addShare_spec hc (List.ne_nil_of_mem hie) (hI.sites_lt e hmem.1) E'

/-- **`compute_energy`** returns the shared energy, when the sites can be counted. -/
theorem computeEnergy_spec (hI : Incidence H edges) (hc : IsConfig H.size spins) {fuel : ℕ}
    (hN : H.size < 2 ^ 32) (hf : H.size < fuel) :
    computeEnergy fuel { N_ := H.size, H_ := H, spins_ := spins }
      = .ok (sharedEnergy (spinAt spins) edges) := by
  have hsum := sum_over_sites (Finset.range H.size)
    (fun e : EdgeType K => e.2 * corr (spinAt spins) e.1 / (e.1.length : K))
    (fun e (he : e ∈ edges) a ha => Finset.mem_range.mpr (hI.sites_lt e he a ha))
  rw [computeEnergy, forUnsigned_eq hN hf,
    foldlM_eq_foldl (g := fun E i => E + ((edges.filter fun e => i ∈ e.1).map fun e =>
      e.2 * corr (spinAt spins) e.1 / (e.1.length : K)).sum) _
      (fun i hi E => energyOfNode_spec hI hc (List.mem_range.mp hi) E),
    foldl_add_eq, zero_add, sum_range_eq_sum, hsum, sharedEnergy]
  simp only [nsmul_eq_mul]

omit [IsStrictOrderedRing K] in
theorem computeEnergy_ok {fuel : ℕ} {self : SaSolver K} {E : K}
    (h : computeEnergy fuel self = .ok E) : self.N_ < 2 ^ 32 ∧ self.N_ < fuel := by
  obtain ⟨hN, hf, -⟩ := forUnsigned_ok_iff.mp h
  exact ⟨hN, hf⟩

omit [LinearOrder K] [IsStrictOrderedRing K] in
/-- **`delta_energy`** returns the change of the abstract energy. -/
theorem deltaEnergy_spec (hI : Incidence H edges) (hc : IsConfig H.size spins) {i : ℕ}
    (hi : i < H.size) :
    deltaEnergy { N_ := H.size, H_ := H, spins_ := spins } i
      = .ok (change (spinAt spins) edges i) := by
  rw [deltaEnergy, hI.load hi, ok_bind,
    foldlM_eq_foldl (g := fun E e => E + -(e.2 * corr (spinAt spins) e.1)) _
      (fun e he E => addChange_spec hc (hI.sites_lt e (List.mem_of_mem_filter he)) E),
    ok_bind, foldl_add_eq, zero_add, change, ← List.sum_map_mul_right]
  congr 3
  funext e
  ring

/-! ## Edges without repeated sites -/

omit [LinearOrder K] [IsStrictOrderedRing K] in
/-- An edge without sites is stored at no node. -/
theorem energy_filter_ne_nil (σ : ℕ → K) (edges : List (EdgeType K)) :
    energy σ (edges.filter fun e => e.1 ≠ [])
      = (edges.map fun e => if e.1 ≠ [] then e.2 * corr σ e.1 else 0).sum := by
  rw [List.sum_map_ite, energy]
  simp

/-- With distinct sites in every edge, the shares of an edge make up its energy. -/
theorem sharedEnergy_eq (hn : ∀ e ∈ edges, e.1.Nodup) (σ : ℕ → K) :
    sharedEnergy σ edges = energy σ (edges.filter fun e => e.1 ≠ []) := by
  rw [energy_filter_ne_nil, sharedEnergy]
  congr 1
  apply List.map_congr_left
  intro e he
  by_cases hnil : e.1 = []
  · simp [hnil]
  · have hlen : (e.1.length : K) ≠ 0 := by
      rw [Nat.cast_ne_zero]
      exact fun h => hnil (List.length_eq_zero_iff.mp h)
    rw [(hn e he).dedup, if_pos hnil]
    field_simp

end SpinGlass
