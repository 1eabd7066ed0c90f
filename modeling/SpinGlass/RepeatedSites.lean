import SpinGlass.FileEnergy
import SpinGlass.Lib.SpinProducts

/-!
# RepeatedSites — `delta_energy` on lines that name a site twice

The constructor stores an edge once at each of its sites, however often the
line lists them. `compute_energy` then gathers less than the whole of the
edge, and `delta_energy` takes every edge of the site to change its sign,
also one that lists the site an even number of times. `excess` is what this
makes for one edge; `deltaRight_iff` says exactly on which files the two
methods still agree.
-/

namespace SpinGlass

open CountedLoop MultiSpin KeepFirst Text

/-- `delta_energy(i)` is the energy of the configuration with spin `i` turned over less
the energy of the configuration, whatever the configuration and `i`. -/
def DeltaRight {K : Type} [Field K] [LinearOrder K] (fuel : ℕ) (H : HamiltonianType K) :
    Prop :=
  ∀ spins, IsConfig H.size spins → ∀ i, i < H.size → ∃ E E' dE,
    computeEnergy fuel ⟨H.size, H, spins⟩ = .ok E ∧
    computeEnergy fuel ⟨H.size, H, spins.set i (spins.getD i 0 ^^^ 1)⟩ = .ok E' ∧
    deltaEnergy ⟨H.size, H, spins⟩ i = .ok dE ∧ dE = E' - E

/-! ## Edges that cancel -/

section Cancel

variable {ι κ K : Type} [DecidableEq ι] [DecidableEq κ] [Field K]

/-- What an edge of site `i` adds to the difference of the two methods, up to twice the
product of its spins: nothing, when it lists all its sites once. -/
def excess (i : ι) (e : List ι × K) : K :=
  e.2 * (1 - if i ∈ oddSites e.1 then (e.1.dedup.length : K) / (e.1.length : K) else 0)

/-- At every site, the edges with the same sites of odd multiplicity cancel. -/
def RepeatsCancel (edges : List (List ι × K)) : Prop :=
  ∀ i, ∀ e ∈ edges, i ∈ e.1 →
    (((edges.filter fun e' => i ∈ e'.1).filter fun e' =>
      oddSites e'.1 = oddSites e.1).map (excess i)).sum = 0

instance [DecidableEq K] (edges : List (List ι × K)) : Decidable (RepeatsCancel edges) :=
  decidable_of_iff (∀ e ∈ edges, ∀ i ∈ e.1,
    (((edges.filter fun e' => i ∈ e'.1).filter fun e' =>
      oddSites e'.1 = oddSites e.1).map (excess i)).sum = 0)
    ⟨fun h i e he hi => h e he i hi, fun h e he i hi => h i e he hi⟩

theorem excess_of_nodup [CharZero K] {i : ι} {e : List ι × K} (hn : e.1.Nodup)
    (hi : i ∈ e.1) : excess i e = 0 := by
  have hlen : (e.1.length : K) ≠ 0 := by
    rw [Nat.cast_ne_zero]
    exact fun h => List.ne_nil_of_mem hi (List.length_eq_zero_iff.mp h)
  rw [excess, oddSites_of_nodup hn, if_pos (List.mem_toFinset.mpr hi), hn.dedup, div_self hlen,
    sub_self, mul_zero]

/-- Edges that list no site twice are fine. -/
theorem repeatsCancel_of_nodup [CharZero K] {edges : List (List ι × K)}
    (h : ∀ e ∈ edges, e.1.Nodup) : RepeatsCancel edges := by
  intro i e he hi
  apply List.sum_eq_zero
  intro x hx
  obtain ⟨e', he', rfl⟩ := List.mem_map.mp hx
  have hmem := List.mem_filter.mp (List.mem_of_mem_filter he')
  exact excess_of_nodup (h e' hmem.1) (by simpa using hmem.2)

/-- **The difference of the two methods**, for any edges. -/
theorem sharedEnergy_flipAt_sub [CharZero K] (i : ℕ) (σ : ℕ → K) (edges : List (EdgeType K)) :
    sharedEnergy (flipAt i σ) edges - sharedEnergy σ edges - change σ edges i
      = 2 * ((edges.filter fun e => i ∈ e.1).map fun e => excess i e * corr σ e.1).sum := by
  induction edges with
  | nil => simp [sharedEnergy, change]
  | cons e edges ih =>
      simp only [sharedEnergy, change, List.map_cons, List.sum_cons] at ih ⊢
      by_cases hi : i ∈ e.1
      · have hlen : (e.1.length : K) ≠ 0 := by
          rw [Nat.cast_ne_zero]
          exact fun h => List.ne_nil_of_mem hi (List.length_eq_zero_iff.mp h)
        simp only [List.filter_cons, hi, decide_true, if_true, List.map_cons, List.sum_cons,
          mul_add]
        rw [← ih, excess, corr_flipAt]
        rcases Nat.mod_two_eq_zero_or_one (e.1.count i) with hc | hc
        · have heven : Even (e.1.count i) := Nat.even_iff.mpr hc
          have hodd : i ∉ oddSites e.1 := by simp [hc]
          rw [heven.neg_one_pow, if_neg hodd]
          ring
        · have hodd : Odd (e.1.count i) := Nat.odd_iff.mpr hc
          have hmem : i ∈ oddSites e.1 := by simp [hc]
          rw [hodd.neg_one_pow, if_pos hmem]
          field_simp
          ring
      · simp only [List.filter_cons, hi, decide_false, Bool.false_eq_true, if_false]
        rw [← ih, corr_flipAt_of_notMem hi]
        ring

/-! ## Numbers for names -/

omit [Field K] in
theorem count_map_of_inj {f : ι → κ} {l : List ι} {x : ι} (h : ∀ y ∈ l, f y = f x → y = x) :
    (l.map f).count (f x) = l.count x := by
  induction l with
  | nil => rfl
  | cons y l ih =>
      have ih := ih fun z hz => h z (by simp [hz])
      by_cases hy : y = x
      · subst hy
        simp [ih]
      · have hfy : f y ≠ f x := fun hf => hy (h y (by simp) hf)
        simp [ih, hy, hfy]

/-- `g` replaces the sites of the edges `ls` by numbers, and may change their order. -/
structure Renumbers (f : ι → κ) (g : List ι × K → List κ × K) (ls : List (List ι × K)) :
    Prop where
  inj : ∀ l ∈ ls, ∀ l' ∈ ls, ∀ x ∈ l.1, ∀ y ∈ l'.1, f x = f y → x = y
  perm : ∀ l ∈ ls, (g l).1.Perm (l.1.map f)
  coupling : ∀ l ∈ ls, (g l).2 = l.2

namespace Renumbers

variable {f : ι → κ} {g : List ι × K → List κ × K} {ls : List (List ι × K)}
  (h : Renumbers f g ls)

include h

omit [Field K] in
theorem count {l l' : List ι × K} (hl : l ∈ ls) (hl' : l' ∈ ls) {x : ι} (hx : x ∈ l'.1) :
    (g l).1.count (f x) = l.1.count x := by
  rw [(h.perm l hl).count_eq]
  exact count_map_of_inj fun y hy hf => h.inj l hl l' hl' y hy x hx hf

omit [Field K] [DecidableEq ι] [DecidableEq κ] in
theorem mem {l l' : List ι × K} (hl : l ∈ ls) (hl' : l' ∈ ls) {x : ι} (hx : x ∈ l'.1) :
    f x ∈ (g l).1 ↔ x ∈ l.1 := by
  rw [(h.perm l hl).mem_iff, List.mem_map]
  constructor
  · intro hy
    obtain ⟨y, hy, hf⟩ := hy
    exact h.inj l hl l' hl' y hy x hx hf ▸ hy
  · intro hx
    exact ⟨x, hx, rfl⟩

omit [Field K] in
theorem oddSites_eq_iff {l l' : List ι × K} (hl : l ∈ ls) (hl' : l' ∈ ls) :
    oddSites (g l).1 = oddSites (g l').1 ↔ oddSites l.1 = oddSites l'.1 := by
  constructor
  · intro heq
    ext x
    have hb := Finset.ext_iff.mp heq (f x)
    simp only [mem_oddSites] at hb ⊢
    by_cases hx : x ∈ l.1
    · rwa [h.count hl hl hx, h.count hl' hl hx] at hb
    · by_cases hx' : x ∈ l'.1
      · rwa [h.count hl hl' hx', h.count hl' hl' hx'] at hb
      · rw [List.count_eq_zero_of_not_mem hx, List.count_eq_zero_of_not_mem hx']
  · intro heq
    ext b
    simp only [mem_oddSites]
    have hpre : ∀ {m : List ι × K}, m ∈ ls → b ∈ (g m).1 → ∃ x ∈ m.1, f x = b := by
      intro m hm hb
      exact List.mem_map.mp ((h.perm m hm).mem_iff.mp hb)
    by_cases hb : b ∈ (g l).1
    · obtain ⟨x, hx, rfl⟩ := hpre hl hb
      have hx' := Finset.ext_iff.mp heq x
      simp only [mem_oddSites] at hx'
      rwa [h.count hl hl hx, h.count hl' hl hx]
    · by_cases hb' : b ∈ (g l').1
      · obtain ⟨x, hx, rfl⟩ := hpre hl' hb'
        have hx' := Finset.ext_iff.mp heq x
        simp only [mem_oddSites] at hx'
        rwa [h.count hl hl' hx, h.count hl' hl' hx]
      · rw [List.count_eq_zero_of_not_mem hb, List.count_eq_zero_of_not_mem hb']

theorem excess {l l' : List ι × K} (hl : l ∈ ls) (hl' : l' ∈ ls) {x : ι} (hx : x ∈ l'.1) :
    SpinGlass.excess (f x) (g l) = SpinGlass.excess x l := by
  have hodd : f x ∈ oddSites (g l).1 ↔ x ∈ oddSites l.1 := by
    simp only [mem_oddSites, h.count hl hl' hx]
  have hset : (g l).1.toFinset = l.1.toFinset.image f := by
    ext b
    simp only [List.mem_toFinset, (h.perm l hl).mem_iff, List.mem_map, Finset.mem_image]
  have hdedup : (g l).1.dedup.length = l.1.dedup.length := by
    rw [← List.card_toFinset, ← List.card_toFinset, hset]
    apply Finset.card_image_of_injOn
    intro y hy z hz hf
    exact h.inj l hl l hl y (List.mem_toFinset.mp hy) z (List.mem_toFinset.mp hz) hf
  have hlen : (g l).1.length = l.1.length := by
    rw [(h.perm l hl).length_eq, List.length_map]
  simp only [SpinGlass.excess, hodd, hdedup, hlen, h.coupling l hl]

/-- Whether the edges cancel does not depend on the numbers. -/
theorem repeatsCancel_iff : RepeatsCancel (ls.map g) ↔ RepeatsCancel ls := by
  have hsum : ∀ l ∈ ls, ∀ x ∈ l.1,
      ((((ls.map g).filter fun e' => f x ∈ e'.1).filter fun e' =>
        oddSites e'.1 = oddSites (g l).1).map (SpinGlass.excess (f x))).sum
      = (((ls.filter fun e' => x ∈ e'.1).filter fun e' =>
        oddSites e'.1 = oddSites l.1).map (SpinGlass.excess x)).sum := by
    intro l hl x hx
    have hfilter : (ls.filter fun m => f x ∈ (g m).1).filter (fun m =>
          oddSites (g m).1 = oddSites (g l).1)
        = (ls.filter fun e' => x ∈ e'.1).filter fun e' => oddSites e'.1 = oddSites l.1 := by
      rw [List.filter_filter, List.filter_filter]
      apply List.filter_congr
      intro m hm
      simp only [h.mem hm hl hx, h.oddSites_eq_iff hm hl]
    rw [List.filter_map, List.filter_map, List.map_map]
    simp only [Function.comp_def]
    rw [hfilter]
    congr 1
    apply List.map_congr_left
    intro m hm
    exact h.excess (List.mem_of_mem_filter (List.mem_of_mem_filter hm)) hl hx
  constructor
  · intro hc x l hl hx
    rw [← hsum l hl x hx]
    exact hc (f x) (g l) (List.mem_map_of_mem hl) ((h.mem hl hl hx).mpr hx)
  · intro hc b e he hb
    obtain ⟨l, hl, rfl⟩ := List.mem_map.mp he
    obtain ⟨x, hx, rfl⟩ := List.mem_map.mp ((h.perm l hl).mem_iff.mp hb)
    rw [hsum l hl x hx]
    exact hc x l hl hx

end Renumbers

end Cancel

/-! ## The two methods on a built Hamiltonian -/

/-- The coupling lines that stay: each is the first with its multiset of sites. -/
def distinctLines {K : Type} [Field K] [LinearOrder K] (stod : Str → Option K) (text : Str) :
    List (List Str × K) :=
  keepFirst (fun l => (l.1 : Multiset Str)) (couplingLines stod text)

variable {K : Type} [Field K]

/-- Every Ising configuration of `N` sites is the one of a vector of bits. -/
theorem exists_isConfig [LinearOrder K] {σ : ℕ → K} (h : IsIsing σ) (N : ℕ) :
    ∃ spins, IsConfig N spins ∧ ∀ a, a < N → spinAt spins a = σ a := by
  refine ⟨(List.range N).map fun a => if σ a = 1 then 1 else 0, ⟨by simp, ?_⟩, ?_⟩
  · intro x hx
    obtain ⟨a, -, rfl⟩ := List.mem_map.mp hx
    by_cases ha : σ a = 1 <;> simp [ha]
  · intro a ha
    have hget : ((List.range N).map fun a => if σ a = 1 then 1 else 0).getD a 0
        = if σ a = 1 then 1 else 0 := by
      rw [List.getD_eq_getElem _ _ (by simpa using ha)]
      simp
    rw [spinAt, ofBit, hget]
    by_cases hone : σ a = 1
    · rw [if_pos hone, hone]
      norm_num
    · rw [if_neg hone, (h a).resolve_left hone]
      norm_num

variable [LinearOrder K] [IsStrictOrderedRing K]

/-- On the incidence lists of `edges`, the methods agree exactly when the edges cancel. -/
theorem deltaRight_iff_of_incidence {H : HamiltonianType K} {edges : List (EdgeType K)}
    (hI : Incidence H edges) {fuel : ℕ} (hN : H.size < 2 ^ 32) (hf : H.size < fuel) :
    DeltaRight fuel H ↔ RepeatsCancel edges := by
  -- at one configuration and one site: the excess of the edges of the site is zero
  have hvalue : ∀ spins, IsConfig H.size spins → ∀ i, i < H.size →
      ((∃ E E' dE, computeEnergy fuel ⟨H.size, H, spins⟩ = .ok E ∧
        computeEnergy fuel ⟨H.size, H, spins.set i (spins.getD i 0 ^^^ 1)⟩ = .ok E' ∧
        deltaEnergy ⟨H.size, H, spins⟩ i = .ok dE ∧ dE = E' - E) ↔
      ((edges.filter fun e => i ∈ e.1).map fun e =>
        excess i e * corr (spinAt spins) e.1).sum = 0) := by
    intro spins hc i hi
    obtain ⟨hc', hflip⟩ := hc.set_xor (K := K) hi
    have hdiff := sharedEnergy_flipAt_sub i (spinAt (K := K) spins) edges
    rw [computeEnergy_spec hI hc hN hf, computeEnergy_spec hI hc' hN hf, hflip,
      deltaEnergy_spec hI hc hi]
    constructor
    · intro h
      obtain ⟨E, E', dE, hE, hE', hdE, heq⟩ := h
      cases hE
      cases hE'
      cases hdE
      rw [heq, sub_self] at hdiff
      exact (mul_eq_zero.mp hdiff.symm).resolve_left two_ne_zero
    · intro h
      rw [h, mul_zero] at hdiff
      exact ⟨_, _, _, rfl, rfl, rfl, (sub_eq_zero.mp hdiff).symm⟩
  constructor
  · intro h i e he hi
    refine (sum_corr_eq_zero_iff (excess i) (edges.filter fun e => i ∈ e.1)).mp
      (fun σ hσ => ?_) e (List.mem_filter.mpr ⟨he, by simpa using hi⟩)
    obtain ⟨spins, hc, hspins⟩ := exists_isConfig hσ H.size
    have hsum := (hvalue spins hc i (hI.sites_lt e he i hi)).mp
      (h spins hc i (hI.sites_lt e he i hi))
    rw [← hsum]
    congr 1
    apply List.map_congr_left
    intro e' he'
    rw [corr_congr fun a ha => (hspins a (hI.sites_lt e' (List.mem_of_mem_filter he') a ha)).symm]
  · intro h spins hc i hi
    refine (hvalue spins hc i hi).mpr ?_
    refine (sum_corr_eq_zero_iff (excess i) _).mpr (fun e he => ?_) _ hc.isIsing
    have hmem := List.mem_filter.mp he
    exact h i e hmem.1 (by simpa using hmem.2)

/-- **Where `delta_energy` is right.** On the Hamiltonian of a file, `delta_energy` is the
change of `compute_energy` for every configuration and site exactly when the 32-bit
counter holds the number of sites, so that `compute_energy` returns, and at every site
the lines with the same sites of odd multiplicity cancel. -/
theorem deltaRight_iff {stod : Str → Option K} {text : Str} {buildFuel : ℕ}
    {H : HamiltonianType K} (hbuild : hamiltonianType buildFuel stod text = .ok H) {fuel : ℕ}
    (hf : H.size < fuel) :
    DeltaRight fuel H ↔ (siteNames (couplingLines stod text)).length < 2 ^ 32 ∧
      RepeatsCancel (distinctLines stod text) := by
  obtain ⟨hsize, hI⟩ := (hamiltonianType_built buildFuel stod text).of_ok hbuild
  by_cases hN : H.size < 2 ^ 32
  · have hN' : (siteNames (couplingLines stod text)).length ≤ 2 ^ 32 := by omega
    have hrenumber : Renumbers (siteNumber (siteNames (couplingLines stod text)))
        (numbered (siteNames (couplingLines stod text))) (distinctLines stod text) := by
      have hname : ∀ l ∈ distinctLines stod text, ∀ x ∈ l.1,
          x ∈ siteNames (couplingLines stod text) := fun l hl x hx =>
        mem_siteNames.mpr ⟨l, mem_of_mem_keepFirst hl, hx⟩
      constructor
      · intro l hl l' hl' x hx y hy hxy
        exact siteNumber_inj hN' (hname l hl x hx) (hname l' hl' y hy) hxy
      · intro l _
        exact List.perm_insertionSort _ _
      · intro l _
        rfl
    rw [deltaRight_iff_of_incidence hI hN hf, edgesOf_eq hN', ← hsize]
    have hcancel := hrenumber.repeatsCancel_iff
    rw [distinctLines] at hcancel ⊢
    rw [hcancel]
    exact (and_iff_right hN).symm
  · constructor
    · intro h
      -- the counter of `compute_energy` never reaches the bound
      have hpos : 0 < H.size := by omega
      have hc : IsConfig H.size (List.replicate H.size 0) :=
        ⟨List.length_replicate, fun x hx => Or.inl (List.eq_of_mem_replicate hx)⟩
      obtain ⟨E, -, -, hE, -⟩ := h _ hc 0 hpos
      exact absurd (computeEnergy_ok hE).1 hN
    · intro h
      exact absurd (by rw [hsize]; exact h.1) hN

/-- Three lines that repeat their sites, and cancel at each of them. -/
def cancellingLines : List (List Str × ℚ) :=
  [([['1'], ['1'], ['2'], ['2']], 1), ([['1'], ['1']], -1), ([['2'], ['2']], -1)]

/-- Their Hamiltonian. -/
def cancellingH : HamiltonianType ℚ :=
  { nodes_ := [[([0, 0, 1, 1], 1), ([0, 0], -1)], [([0, 0, 1, 1], 1), ([1, 1], -1)]] }

/-- On the sample lattice no line repeats a site; and repeated sites whose lines cancel do no
harm. -/
theorem deltaRight_iff_sample : DeltaRight 4 sampleH ∧ DeltaRight 4 cancellingH := by
  constructor
  · have hbuild : hamiltonianType 4 stodInteger sampleText = .ok sampleH := by decide
    have honce : NoSiteTwice sampleText := by
      unfold NoSiteTwice
      decide
    refine (deltaRight_iff hbuild (by decide)).mpr
      ⟨by decide, repeatsCancel_of_nodup fun l hl => ?_⟩
    exact nodup_of_mem_couplingLines honce (mem_of_mem_keepFirst hl)
  · have hbuild : hamiltonianType 8 stodInteger "1 1 2 2 1\n1 1 -1\n2 2 -1\n".toList
        = .ok cancellingH := by decide
    have hlines : distinctLines stodInteger "1 1 2 2 1\n1 1 -1\n2 2 -1\n".toList
        = cancellingLines := by decide +kernel
    refine (deltaRight_iff hbuild (by decide)).mpr ⟨by decide, ?_⟩
    rw [hlines]
    decide +kernel

/-- The Hamiltonian of one line that names its only site twice. -/
def selfEdgeH : HamiltonianType ℚ := { nodes_ := [[([0, 0], 1)]] }

/-- On the line `1 1 1` both configurations have the energy `1 / 2`, and `delta_energy`
returns `-2`. -/
theorem deltaEnergy_wrong_on_repeated_site :
    hamiltonianType 4 stodInteger "1 1 1\n".toList = .ok selfEdgeH ∧
      computeEnergy 4 ⟨1, selfEdgeH, [0]⟩ = .ok (1 / 2) ∧
      computeEnergy 4 ⟨1, selfEdgeH, [1]⟩ = .ok (1 / 2) ∧
      deltaEnergy ⟨1, selfEdgeH, [0]⟩ 0 = .ok (-2) ∧ ¬ DeltaRight 4 selfEdgeH := by
  have hzero : computeEnergy 4 ⟨1, selfEdgeH, [0]⟩ = .ok (1 / 2) := by decide +kernel
  have hone : computeEnergy 4 ⟨1, selfEdgeH, [1]⟩ = .ok (1 / 2) := by decide +kernel
  have hdelta : deltaEnergy ⟨1, selfEdgeH, [0]⟩ 0 = .ok (-2) := by decide +kernel
  refine ⟨by decide, hzero, hone, hdelta, fun h => ?_⟩
  obtain ⟨E, E', dE, hE, hE', hdE, heq⟩ := h [0] ⟨rfl, by simp⟩ 0 (by decide)
  have h0 : E = 1 / 2 := Except.ok.inj (hE.symm.trans hzero)
  have h1 : E' = 1 / 2 := Except.ok.inj (hE'.symm.trans hone)
  have hd : dE = -2 := Except.ok.inj (hdE.symm.trans hdelta)
  rw [h0, h1, hd] at heq
  norm_num at heq

end SpinGlass
