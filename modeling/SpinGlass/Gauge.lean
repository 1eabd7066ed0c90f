import SpinGlass.Annealing

/-!
# Gauge — annealing does not see a change of gauge

A gauge vector `g` of bits turns some spins over and puts the signs of its
sites on every coupling: `gaugeHamiltonian` is `H^g`. The map
`gaugeState` carries the variables of a run on `H` to those of a run on
`H^g`: configuration `XOR g`, everything else as it is. `gauge_covariance`
says that the two runs stay related by it, step by step.
-/

namespace SpinGlass

open CountedLoop MultiSpin

variable {K G : Type} [Field K]

/-! ## The two problems -/

/-- `1 - 2*g_i`. -/
def gaugeAt (g : List ℕ) (i : ℕ) : K := 1 - ((2 * g.getD i 0 : ℕ) : K)

/-- `H^g`: every stored coupling times the product of `1 - 2*g_i` over its sites. -/
def gaugeHamiltonian (g : List ℕ) (H : HamiltonianType K) : HamiltonianType K :=
  { nodes_ := H.nodes_.map fun node => node.map fun e =>
      (e.1, e.2 * (e.1.map (gaugeAt g)).prod) }

/-- `spins XOR g`. -/
def gaugeSpins (g spins : List ℕ) : List ℕ := List.zipWith (fun s b => s ^^^ b) spins g

def gaugeObject (g : List ℕ) (S : SaSolver K) : SaSolver K :=
  { N_ := S.N_, H_ := gaugeHamiltonian g S.H_, spins_ := gaugeSpins g S.spins_ }

/-- The generator and `E` are those of the other run. -/
def gaugeState (g : List ℕ) (st : Annealing K G) : Annealing K G :=
  { gen := st.gen, E := st.E, self := gaugeObject g st.self }

/-! ## Configurations -/

theorem gaugeAt_isIsing {N : ℕ} {g : List ℕ} (hg : IsConfig N g) :
    IsIsing (gaugeAt (K := K) g) := by
  intro i
  rcases hg.getD i with h | h
  · left
    rw [gaugeAt, h, Nat.mul_zero, Nat.cast_zero, sub_zero]
  · right
    rw [gaugeAt, h, Nat.mul_one, Nat.cast_two]
    ring

theorem getD_gaugeSpins {N : ℕ} {g spins : List ℕ} (hg : IsConfig N g) (hs : IsConfig N spins)
    (i : ℕ) : (gaugeSpins g spins).getD i 0 = spins.getD i 0 ^^^ g.getD i 0 := by
  simp only [gaugeSpins, List.getD_eq_getElem?_getD, List.getElem?_zipWith]
  by_cases hi : i < N
  · rw [List.getElem?_eq_getElem (by rw [hs.length]; exact hi),
      List.getElem?_eq_getElem (by rw [hg.length]; exact hi)]
    rfl
  · rw [List.getElem?_eq_none (by rw [hs.length]; omega),
      List.getElem?_eq_none (by rw [hg.length]; omega)]
    rfl

theorem gaugeSpins_config {N : ℕ} {g spins : List ℕ} (hg : IsConfig N g)
    (hs : IsConfig N spins) : IsConfig N (gaugeSpins g spins) := by
  have hlen : (gaugeSpins g spins).length = N := by
    rw [gaugeSpins, List.length_zipWith, hs.length, hg.length, Nat.min_self]
  refine ⟨hlen, fun x hx => ?_⟩
  obtain ⟨i, hi, rfl⟩ := List.getElem_of_mem hx
  rw [← List.getD_eq_getElem _ 0 hi, getD_gaugeSpins hg hs]
  rcases hs.getD i with h | h <;> rcases hg.getD i with h' | h' <;> rw [h, h'] <;> decide

/-- A bit of `g` turns the spin over that the bit of the configuration stands for. -/
theorem spinAt_gaugeSpins {N : ℕ} {g spins : List ℕ} (hg : IsConfig N g)
    (hs : IsConfig N spins) :
    spinAt (K := K) (gaugeSpins g spins) = fun a => gaugeAt g a * spinAt spins a := by
  funext a
  rw [spinAt, ofBit, getD_gaugeSpins hg hs, gaugeAt, spinAt, ofBit]
  rcases hs.getD a with h | h <;> rcases hg.getD a with h' | h' <;> rw [h, h'] <;> norm_num

/-- Turning a spin over commutes with the gauge. -/
theorem gaugeSpins_set {N : ℕ} {g spins : List ℕ} (hg : IsConfig N g) (hs : IsConfig N spins)
    (i : ℕ) :
    gaugeSpins g (spins.set i (spins.getD i 0 ^^^ 1))
      = (gaugeSpins g spins).set i ((gaugeSpins g spins).getD i 0 ^^^ 1) := by
  have hlen : g.length = spins.length := hg.length.trans hs.length.symm
  rw [getD_gaugeSpins hg hs]
  apply List.ext_getElem
  · simp [gaugeSpins]
  · intro j hj hj'
    have hjs : j < spins.length := by
      rw [List.length_set, gaugeSpins, List.length_zipWith, hlen, Nat.min_self] at hj'
      exact hj'
    simp only [gaugeSpins, List.getElem_zipWith, List.getElem_set]
    by_cases hij : i = j
    · subst hij
      have hget : ∀ h : i < g.length, g.getD i 0 = g[i] := List.getD_eq_getElem _ _
      rw [if_pos rfl, if_pos rfl, hget (by omega), Nat.xor_assoc,
        Nat.xor_comm 1, ← Nat.xor_assoc]
    · rw [if_neg hij, if_neg hij]

/-! ## The energies -/

variable {H : HamiltonianType K} {edges : List (EdgeType K)}

theorem gaugeHamiltonian_size (g : List ℕ) : (gaugeHamiltonian g H).size = H.size := by
  simp [HamiltonianType.size, gaugeHamiltonian]

/-- `H^g` has the gauged edges at its nodes. -/
theorem Incidence.gauge (hI : Incidence H edges) (g : List ℕ) :
    Incidence (gaugeHamiltonian g H) (edges.map (gauged (gaugeAt g))) := by
  constructor
  · rw [gaugeHamiltonian_size, gaugeHamiltonian, hI.nodes, List.map_map]
    apply List.map_congr_left
    intro a _
    rw [filter_mem_map (gauged_fst _)]
    rfl
  · intro e he a ha
    obtain ⟨e', he', rfl⟩ := List.mem_map.mp he
    rw [gaugeHamiltonian_size]
    exact hI.sites_lt e' he' a ha

theorem sharedEnergy_gauged {ε : ℕ → K} (hε : IsIsing ε) (σ : ℕ → K) :
    sharedEnergy (fun a => ε a * σ a) (edges.map (gauged ε)) = sharedEnergy σ edges := by
  rw [sharedEnergy, sharedEnergy, List.map_map]
  congr 1
  apply List.map_congr_left
  intro e _
  rw [Function.comp_apply, gauged_snd_mul_corr hε, gauged_fst]

/-! ## The runs -/

variable [LinearOrder K]

omit [LinearOrder K] in
theorem OnH.gauge {g : List ℕ} (hg : IsConfig H.size g) {S : SaSolver K} (h : OnH H S) :
    OnH (gaugeHamiltonian g H) (gaugeObject g S) := by
  constructor
  · rw [gaugeHamiltonian_size]
    exact h.size
  · rw [gaugeObject, h.shared]
  · rw [gaugeHamiltonian_size]
    exact gaugeSpins_config hg h.config

omit [LinearOrder K] in
/-- `delta_energy` does not see the gauge. -/
theorem deltaEnergy_gauge (hI : Incidence H edges) {g : List ℕ} (hg : IsConfig H.size g)
    {S : SaSolver K} (h : OnH H S) {i : ℕ} (hi : i < H.size) :
    deltaEnergy (gaugeObject g S) i = deltaEnergy S i := by
  have hgauge := h.gauge hg
  have hi' : i < (gaugeHamiltonian g H).size := by rw [gaugeHamiltonian_size]; exact hi
  rw [hgauge.eq_mk, deltaEnergy_spec (hI.gauge g) hgauge.config hi']
  conv_rhs => rw [h.eq_mk, deltaEnergy_spec hI h.config hi]
  rw [gaugeObject, spinAt_gaugeSpins hg h.config, change_gauged (gaugeAt_isIsing hg)]

/-- Neither does `compute_energy`, also where it comes to no result. -/
theorem computeEnergy_gauge [IsStrictOrderedRing K] (hI : Incidence H edges) {g : List ℕ}
    (hg : IsConfig H.size g) {S : SaSolver K} (h : OnH H S) {fuel : ℕ} {E : K} :
    computeEnergy fuel (gaugeObject g S) = .ok E ↔ computeEnergy fuel S = .ok E := by
  have hgauge := h.gauge hg
  by_cases hfit : H.size < 2 ^ 32 ∧ H.size < fuel
  · obtain ⟨hN, hf⟩ := hfit
    rw [hgauge.eq_mk, computeEnergy_spec (hI.gauge g) hgauge.config
      (by rw [gaugeHamiltonian_size]; exact hN) (by rw [gaugeHamiltonian_size]; exact hf)]
    conv_rhs => rw [h.eq_mk, computeEnergy_spec hI h.config hN hf]
    rw [gaugeObject, spinAt_gaugeSpins hg h.config, sharedEnergy_gauged (gaugeAt_isIsing hg)]
  · -- a counter too narrow for the sites, or too little fuel, on both sides
    constructor
    · intro hE
      have := computeEnergy_ok hE
      rw [hgauge.size, gaugeHamiltonian_size] at this
      exact absurd this hfit
    · intro hE
      have := computeEnergy_ok hE
      rw [h.size] at this
      exact absurd this hfit

theorem flipped_gauge {g : List ℕ} (hg : IsConfig H.size g) (lib : Numerics K G)
    (beta : Option K) (dE : K) (i : ℕ) {st : Annealing K G} (h : OnH H st.self) :
    flipped lib beta dE i (gaugeState g st) = gaugeState g (flipped lib beta dE i st) := by
  cases hacc : accepts lib beta dE st.gen with
  | mk accept gen =>
      cases accept with
      | false => simp [flipped, gaugeState, hacc]
      | true =>
          simp only [flipped, gaugeState, gaugeObject, hacc, if_true,
            gaugeSpins_set hg h.config]

/-- **The step lemma**: a turn on `H^g` is the turn on `H`, seen through the gauge. -/
theorem flipStep_gauge (hI : Incidence H edges) {g : List ℕ} (hg : IsConfig H.size g)
    (lib : Numerics K G) (beta : Option K) {st : Annealing K G} (h : OnH H st.self) {i : ℕ}
    (hi : i < H.size) :
    flipStep lib beta i (gaugeState g st)
      = (flipStep lib beta i st).map (gaugeState g) := by
  have hi' : i < (gaugeHamiltonian g H).size := by rw [gaugeHamiltonian_size]; exact hi
  have hchange : change (spinAt (gaugeState g st).self.spins_)
      (edges.map (gauged (gaugeAt g))) i = change (spinAt st.self.spins_) edges i := by
    show change (spinAt (gaugeSpins g st.self.spins_)) _ i = _
    rw [spinAt_gaugeSpins hg h.config, change_gauged (gaugeAt_isIsing hg)]
  rw [flipStep_eq (hI.gauge g) lib beta (h.gauge hg) hi', flipStep_eq hI lib beta h hi,
    hchange, flipped_gauge hg lib beta _ i h]
  rfl

theorem flipStep_onH (hI : Incidence H edges) {lib : Numerics K G} {beta : Option K} {i : ℕ}
    {st st' : Annealing K G} (h : OnH H st.self) (hi : i < H.size)
    (hflip : flipStep lib beta i st = .ok st') : OnH H st'.self := by
  rw [flipStep_eq hI lib beta h hi] at hflip
  cases hflip
  exact flipped_onH h hi

theorem sweep_onH (hI : Incidence H edges) {lib : Numerics K G} {beta : Option K} {fuel : ℕ}
    {st st' : Annealing K G} (h : OnH H st.self) (hsweep : sweep fuel lib beta st = .ok st') :
    OnH H st'.self := by
  have hmeets : Meets (sweep fuel lib beta st) (fun _ => True) (fun st => OnH H st.self) := by
    refine meets_forUnsigned (fun _ (st : Annealing K G) => OnH H st.self) trivial
      (fun _ _ hst => hst) (fun i st hi hst => ?_) h
    rw [h.size] at hi
    rw [flipStep_eq hI lib beta hst hi]
    exact flipped_onH hst hi
  exact hmeets.of_ok hsweep

/-- The inner loops run in step. -/
theorem sweep_gauge (hI : Incidence H edges) {g : List ℕ} (hg : IsConfig H.size g)
    (lib : Numerics K G) (beta : Option K) (fuel : ℕ) {st : Annealing K G}
    (h : OnH H st.self) :
    sweep fuel lib beta (gaugeState g st)
      = (sweep fuel lib beta st).map (gaugeState g) := by
  have hlt : ∀ {i : ℕ}, i < (gaugeState g st).self.N_ → i < H.size := by
    intro i hi
    rw [← h.size]
    exact hi
  exact forUnsigned_map (I := fun st => OnH H st.self)
    (fun i _ hi hst => flipStep_gauge hI hg lib beta hst (hlt hi))
    (fun i _ _ hi hst hflip => flipStep_onH hI hst (hlt hi) hflip) h

/-- So do the double loops. -/
theorem anneal_gauge (hI : Incidence H edges) {g : List ℕ} (hg : IsConfig H.size g)
    (lib : Numerics K G) (beta : ℕ → Option K) (Ns fuel : ℕ) {st : Annealing K G}
    (h : OnH H st.self) :
    anneal fuel lib beta Ns (gaugeState g st)
      = (anneal fuel lib beta Ns st).map (gaugeState g) :=
  forUnsigned_map (I := fun st => OnH H st.self)
    (fun s _ _ hst => sweep_gauge hI hg lib (beta s) fuel hst)
    (fun _ _ _ _ hst hsweep => sweep_onH hI hst hsweep) h

theorem Visited.onH (hI : Incidence H edges) {lib : Numerics K G} {beta : ℕ → Option K}
    {Ns : ℕ} {start : Annealing K G} (hon : OnH H start.self) {s i : ℕ} {st : Annealing K G}
    (h : Visited lib beta Ns start s i st) : OnH H st.self :=
  h.keeps (P := fun st => OnH H st.self) hI (fun _ h => h) (fun _ _ _ h hi => flipped_onH h hi)
    hon

/-- The run lemma, from `H` to `H^g`. -/
theorem Visited.gauge (hI : Incidence H edges) {g : List ℕ} (hg : IsConfig H.size g)
    {lib : Numerics K G} {beta : ℕ → Option K} {Ns : ℕ} {start : Annealing K G}
    (hon : OnH H start.self) {s i : ℕ} {st : Annealing K G}
    (h : Visited lib beta Ns start s i st) :
    Visited lib beta Ns (gaugeState g start) s i (gaugeState g st) := by
  induction h with
  | start => exact .start
  | turn hv hs hi hflip ih =>
      have hst := hv.onH hI hon
      refine .turn ih hs hi ?_
      rw [flipStep_gauge hI hg lib _ hst (by rw [← hst.size]; exact hi), hflip]
      rfl
  | next _ hs hi ih => exact .next ih hs hi

/-- The run lemma, from `H^g` to `H`: the run on `H^g` visits nothing else. -/
theorem Visited.of_gauge (hI : Incidence H edges) {g : List ℕ} (hg : IsConfig H.size g)
    {lib : Numerics K G} {beta : ℕ → Option K} {Ns : ℕ} {start : Annealing K G}
    (hon : OnH H start.self) {s i : ℕ} {st' : Annealing K G}
    (h : Visited lib beta Ns (gaugeState g start) s i st') :
    ∃ st, Visited lib beta Ns start s i st ∧ gaugeState g st = st' := by
  induction h with
  | start => exact ⟨start, .start, rfl⟩
  | @turn _ i _ _ _ hs hi hflip ih =>
      obtain ⟨st, hv, rfl⟩ := ih
      have hst := hv.onH hI hon
      have hi' : i < H.size := by rw [← hst.size]; exact hi
      rw [flipStep_gauge hI hg lib _ hst hi', flipStep_eq hI lib _ hst hi'] at hflip
      cases hflip
      exact ⟨_, .turn hv hs hi (flipStep_eq hI lib _ hst hi'), rfl⟩
  | next _ hs hi ih =>
      obtain ⟨st, hv, rfl⟩ := ih
      exact ⟨st, .next hv hs hi, rfl⟩

/-- **Gauge covariance.** For every Hamiltonian of a file and every gauge vector, from every
configuration, for every number of sweeps, schedule of `beta` and generator: both
problems give their first configuration the same energy; the run on `H^g` is, state
for state, the run on `H` with the configuration `XOR g`, the same `E` and the same
generator; every turn has the same `dE`, and so the same decision and the same draws;
and so the loops end alike. -/
theorem gauge_covariance [IsStrictOrderedRing K] {stod : Str → Option K} {text : Str}
    {buildFuel : ℕ} (hbuild : hamiltonianType buildFuel stod text = .ok H) {g : List ℕ}
    (hg : IsConfig H.size g) (lib : Numerics K G) (beta : ℕ → Option K) (Ns : ℕ)
    (st : Annealing K G) (hon : OnH H st.self) :
    (∀ fuel E, computeEnergy fuel (gaugeObject g st.self) = .ok E
      ↔ computeEnergy fuel st.self = .ok E) ∧
    (∀ s i st', Visited lib beta Ns (gaugeState g st) s i st'
      ↔ ∃ st₁, Visited lib beta Ns st s i st₁ ∧ gaugeState g st₁ = st') ∧
    (∀ s i st₁, Visited lib beta Ns st s i st₁ → i < st₁.self.N_ →
      deltaEnergy (gaugeState g st₁).self i = deltaEnergy st₁.self i ∧
      flipStep lib (beta s) i (gaugeState g st₁)
        = (flipStep lib (beta s) i st₁).map (gaugeState g)) ∧
    (∀ fuel, anneal fuel lib beta Ns (gaugeState g st)
      = (anneal fuel lib beta Ns st).map (gaugeState g)) := by
  obtain ⟨-, hI⟩ := (hamiltonianType_built buildFuel stod text).of_ok hbuild
  refine ⟨fun fuel E => computeEnergy_gauge hI hg hon, fun s i st' => ?_,
    fun s i st₁ hv hi => ?_, fun fuel => anneal_gauge hI hg lib beta Ns fuel hon⟩
  · constructor
    · exact Visited.of_gauge hI hg hon
    · rintro ⟨st₁, hv, rfl⟩
      exact hv.gauge hI hg hon
  · have hst := hv.onH hI hon
    rw [hst.size] at hi
    exact ⟨deltaEnergy_gauge hI hg hst hi, flipStep_gauge hI hg lib (beta s) hst hi⟩

/-- The sample lattice with the gauge vector that turns its first and last site over. -/
theorem gauge_covariance_sample :
    anneal 4 sampleLib (schedule (1 / 10) 3 2) 2
        (gaugeState [1, 0, 1] ⟨1, -1, { saSolver sampleH with spins_ := [0, 1, 1] }⟩)
      = (anneal 4 sampleLib (schedule (1 / 10) 3 2) 2
          ⟨1, -1, { saSolver sampleH with spins_ := [0, 1, 1] }⟩).map
          (gaugeState [1, 0, 1]) := by
  have hbuild : hamiltonianType 4 stodInteger sampleText = .ok sampleH := by decide
  have hg : IsConfig sampleH.size [1, 0, 1] := ⟨rfl, by decide⟩
  have honH : OnH sampleH { saSolver sampleH with spins_ := [0, 1, 1] } :=
    ⟨rfl, rfl, rfl, by decide⟩
  exact (gauge_covariance hbuild hg sampleLib (schedule (1 / 10) 3 2) 2 _ honH).2.2.2 4

end SpinGlass
