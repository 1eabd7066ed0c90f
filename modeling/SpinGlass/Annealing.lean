import SpinGlass.Energy

/-!
# Annealing — the double loop of `run`

`flipStep_eq` is the one description of a step of the inner loop that the
other results use. `Visited` lists the states of the double loop, one for
every turn of the inner loop, and `Booked` is the invariant they share: the
object holds a configuration, and `E` is its energy.
-/

namespace SpinGlass

open CountedLoop MultiSpin

variable {K G : Type} [Field K] [LinearOrder K]

/-! ## One step -/

/-- The state after spin `i` has been turned over, or left. -/
def flipped (lib : Numerics K G) (beta : Option K) (dE : K) (i : ℕ) (st : Annealing K G) :
    Annealing K G :=
  if (accepts lib beta dE st.gen).1 then
    { gen := (accepts lib beta dE st.gen).2
      E := st.E + dE
      self := { st.self with
        spins_ := st.self.spins_.set i (st.self.spins_.getD i 0 ^^^ 1) } }
  else { st with gen := (accepts lib beta dE st.gen).2 }

/-- The object of a run on `H`, whose spins are a configuration. -/
structure OnH (H : HamiltonianType K) (S : SaSolver K) : Prop where
  size : S.N_ = H.size
  shared : S.H_ = H
  config : IsConfig H.size S.spins_

omit [Field K] [LinearOrder K] in
theorem OnH.eq_mk {H : HamiltonianType K} {S : SaSolver K} (h : OnH H S) :
    S = { N_ := H.size, H_ := H, spins_ := S.spins_ } := by
  cases S
  simp only [SaSolver.mk.injEq, and_true]
  exact ⟨h.size, h.shared⟩

variable {H : HamiltonianType K} {edges : List (EdgeType K)}

/-- **One turn of the inner loop** never leaves the vectors, and turns the spin over
exactly when the change of the energy is accepted. -/
theorem flipStep_eq (hI : Incidence H edges) (lib : Numerics K G) (beta : Option K)
    {st : Annealing K G} (h : OnH H st.self) {i : ℕ} (hi : i < H.size) :
    flipStep lib beta i st
      = .ok (flipped lib beta (change (spinAt st.self.spins_) edges i) i st) := by
  have hdelta : deltaEnergy st.self i = .ok (change (spinAt st.self.spins_) edges i) := by
    rw [h.eq_mk]
    exact deltaEnergy_spec hI h.config hi
  have hlt : i < st.self.spins_.length := by rw [h.config.length]; exact hi
  rw [flipStep, hdelta, ok_bind]
  cases hacc : accepts lib beta (change (spinAt st.self.spins_) edges i) st.gen with
  | mk accept gen =>
      cases accept with
      | false => simp [flipped, hacc]
      | true => simp [flipped, hacc, h.config.load hi, store_of_lt hlt]

theorem flipped_onH {lib : Numerics K G} {beta : Option K} {dE : K} {st : Annealing K G}
    (h : OnH H st.self) {i : ℕ} (hi : i < H.size) :
    OnH H (flipped lib beta dE i st).self := by
  rw [flipped]
  split
  · exact ⟨h.size, h.shared, (h.config.set_xor (K := K) hi).1⟩
  · exact h

/-- The books are right: `E` is the energy of the configuration. -/
structure Booked (H : HamiltonianType K) (edges : List (EdgeType K)) (st : Annealing K G) :
    Prop where
  onH : OnH H st.self
  energy : st.E = sharedEnergy (spinAt st.self.spins_) edges

/-- Turning a spin over changes the shared energy by `change`, when no edge repeats
a site. -/
theorem sharedEnergy_flipAt [IsStrictOrderedRing K] (hn : ∀ e ∈ edges, e.1.Nodup) (i : ℕ)
    (σ : ℕ → K) :
    sharedEnergy (flipAt i σ) edges = sharedEnergy σ edges + change σ edges i := by
  have hchange : change σ (edges.filter fun e => e.1 ≠ []) i = change σ edges i := by
    rw [change, change, List.filter_filter]
    congr 2
    apply List.filter_congr
    intro e _
    by_cases hi : i ∈ e.1
    · simp [hi, List.ne_nil_of_mem hi]
    · simp [hi]
  rw [sharedEnergy_eq hn, sharedEnergy_eq hn,
    energy_flipAt fun e he => hn e (List.mem_of_mem_filter he), hchange]

/-- **The step lemma**: a turn of the inner loop keeps the books right. -/
theorem Booked.flipped [IsStrictOrderedRing K] (hn : ∀ e ∈ edges, e.1.Nodup)
    (lib : Numerics K G) (beta : Option K) {st : Annealing K G} (h : Booked H edges st)
    {i : ℕ} (hi : i < H.size) :
    Booked H edges
      (flipped lib beta (change (spinAt st.self.spins_) edges i) i st) := by
  refine ⟨flipped_onH h.onH hi, ?_⟩
  rw [SpinGlass.flipped]
  split
  · show st.E + _ = _
    rw [(h.onH.config.set_xor (K := K) hi).2, sharedEnergy_flipAt hn, h.energy]
  · exact h.energy

/-! ## The loops -/

/-- The states of the double loop, with the counters `s` and `i` at which it is in
them: `start` is where it is entered, `turn` a turn of the inner loop, `next` the
end of a sweep. -/
inductive Visited (lib : Numerics K G) (beta : ℕ → Option K) (Ns : ℕ)
    (start : Annealing K G) : ℕ → ℕ → Annealing K G → Prop
  | start : Visited lib beta Ns start 0 0 start
  | turn {s i : ℕ} {st st' : Annealing K G} : Visited lib beta Ns start s i st → s < Ns →
      i < st.self.N_ → flipStep lib (beta s) i st = .ok st' →
      Visited lib beta Ns start s ((i + 1) % 2 ^ 32) st'
  | next {s i : ℕ} {st : Annealing K G} : Visited lib beta Ns start s i st → s < Ns →
      st.self.N_ ≤ i → Visited lib beta Ns start ((s + 1) % 2 ^ 32) 0 st

/-- **The run lemma**: what a turn keeps holds in every state of the double loop. -/
theorem Visited.invariant {P : Annealing K G → Prop} {lib : Numerics K G}
    {beta : ℕ → Option K} {Ns : ℕ} {start : Annealing K G}
    (hstep : ∀ (beta : Option K) (i : ℕ) (st st' : Annealing K G), P st → i < st.self.N_ →
      flipStep lib beta i st = .ok st' → P st')
    (h0 : P start) {s i : ℕ} {st : Annealing K G}
    (h : Visited lib beta Ns start s i st) : P st := by
  induction h with
  | start => exact h0
  | turn _ _ hi hflip ih => exact hstep _ _ _ _ ih hi hflip
  | next _ _ _ ih => exact ih

/-- A turn changes nothing of the object but its spins. -/
theorem flipStep_object {lib : Numerics K G} {beta : Option K} {i : ℕ}
    {st st' : Annealing K G} (h : flipStep lib beta i st = .ok st') :
    st'.self.N_ = st.self.N_ ∧ st'.self.H_ = st.self.H_ := by
  rw [flipStep] at h
  obtain ⟨dE, -, h⟩ := bind_eq_ok.mp h
  simp only at h
  split at h
  · obtain ⟨s, -, h⟩ := bind_eq_ok.mp h
    obtain ⟨spins, -, h⟩ := bind_eq_ok.mp h
    cases h
    exact ⟨rfl, rfl⟩
  · cases h
    exact ⟨rfl, rfl⟩

/-- The state in which the double loop ends is one of those it visits. -/
theorem anneal_visited {fuel Ns : ℕ} {lib : Numerics K G} {beta : ℕ → Option K}
    {start st : Annealing K G} (h : anneal fuel lib beta Ns start = .ok st) :
    ∃ s, Ns ≤ s ∧ Visited lib beta Ns start s 0 st := by
  refine loop_reaches (fun s st => Visited lib beta Ns start s 0 st)
    (fun s st st' hs hv hsweep => ?_) Visited.start h
  have hinner := loop_reaches (fun i st' => Visited lib beta Ns start s i st'
      ∧ st'.self.N_ = st.self.N_)
    (fun i st₁ st₂ hi hv₁ hflip => ?_) ⟨hv, rfl⟩ hsweep
  · obtain ⟨i, hi, hv', hN⟩ := hinner
    exact Visited.next hv' hs (by rw [hN]; exact hi)
  · exact ⟨Visited.turn hv₁.1 hs (by rw [hv₁.2]; exact hi) hflip,
      (flipStep_object hflip).1.trans hv₁.2⟩

/-- A property that every turn keeps holds in every state that is visited. -/
theorem Visited.keeps (hI : Incidence H edges) {P : Annealing K G → Prop}
    (hP : ∀ st, P st → OnH H st.self) {lib : Numerics K G} {beta : ℕ → Option K}
    (hstep : ∀ beta st i, P st → i < H.size →
      P (flipped lib beta (change (spinAt st.self.spins_) edges i) i st))
    {Ns : ℕ} {start : Annealing K G} (h0 : P start) {s i : ℕ} {st : Annealing K G}
    (h : Visited lib beta Ns start s i st) : P st := by
  apply h.invariant _ h0
  intro beta i st st' hst hi hflip
  rw [(hP st hst).size] at hi
  rw [flipStep_eq hI lib beta (hP st hst) hi] at hflip
  cases hflip
  exact hstep beta st i hst hi

/-- It is kept by a sweep, which comes to its end. -/
theorem sweep_keeps (hI : Incidence H edges) {P : Annealing K G → Prop}
    (hP : ∀ st, P st → OnH H st.self) {lib : Numerics K G} {beta : Option K}
    (hstep : ∀ st i, P st → i < H.size →
      P (flipped lib beta (change (spinAt st.self.spins_) edges i) i st))
    {fuel : ℕ} (hN : H.size < 2 ^ 32) (hf : H.size < fuel) {st : Annealing K G} (h : P st) :
    Meets (sweep fuel lib beta st) (fun _ => False) P := by
  rw [sweep, (hP st h).size]
  refine meets_forUnsigned_of_lt (fun _ st => P st) hN hf (fun i st hi hst => ?_) h
  rw [flipStep_eq hI lib beta (hP st hst) hi]
  exact hstep st i hst hi

/-- So is it by the double loop. -/
theorem anneal_keeps (hI : Incidence H edges) {P : Annealing K G → Prop}
    (hP : ∀ st, P st → OnH H st.self) {lib : Numerics K G} {beta : ℕ → Option K}
    (hstep : ∀ s st i, P st → i < H.size →
      P (flipped lib (beta s) (change (spinAt st.self.spins_) edges i) i st))
    {fuel Ns : ℕ} (hN : H.size < 2 ^ 32) (hf : H.size < fuel) (hNs : Ns < 2 ^ 32)
    (hfs : Ns < fuel) {st : Annealing K G} (h : P st) :
    Meets (anneal fuel lib beta Ns st) (fun _ => False) P := by
  rw [anneal]
  refine meets_forUnsigned_of_lt (fun _ st => P st) hNs hfs (fun s st _ hst => ?_) h
  exact sweep_keeps hI hP (fun st i => hstep s st i) hN hf hst

omit [Field K] [LinearOrder K] in
/-- The initial configuration: the random bits, in the order in which they are drawn. -/
theorem pushSpins_config (lib : Numerics K G) {fuel N : ℕ} (hN : N < 2 ^ 32) (hf : N < fuel)
    (gen : G) :
    Meets (pushSpins fuel lib N [] gen) (fun _ => False) (fun p => IsConfig N p.1) := by
  have h0 : IsConfig 0 (([], gen) : List ℕ × G).1 := ⟨rfl, by simp⟩
  refine meets_forUnsigned_of_lt (fun i (p : List ℕ × G) => IsConfig i p.1) hN hf
    (fun i p _ hp => ?_) h0
  refine ⟨by simp [hp.length], fun x hx => ?_⟩
  rcases List.mem_append.mp hx with hx | hx
  · exact hp.binary x hx
  · rw [List.mem_singleton] at hx
    subst hx
    have := (lib.binaries p.2).1.isLt
    omega

/-! ## A whole run -/

/-- A run that returns has a number of sites and of sweeps that its counters hold. -/
theorem runWith_ok {lib : Numerics K G} {self : SaSolver K} {beta : ℕ → Option K}
    {fuel Ns seed : ℕ} {r : Result K × SaSolver K}
    (h : runWith fuel lib self beta Ns seed = .ok r) :
    self.N_ < 2 ^ 32 ∧ self.N_ < fuel ∧ Ns < 2 ^ 32 ∧ Ns < fuel := by
  rw [runWith] at h
  obtain ⟨p, hp, h⟩ := bind_eq_ok.mp h
  obtain ⟨E, -, h⟩ := bind_eq_ok.mp h
  obtain ⟨st, hst, -⟩ := bind_eq_ok.mp h
  obtain ⟨hN, hf, -⟩ := forUnsigned_ok_iff.mp hp
  obtain ⟨hNs, hfs, -⟩ := forUnsigned_ok_iff.mp hst
  exact ⟨hN, hf, hNs, hfs⟩

/-- **A run on a fresh solver returns**, when its counters hold the number of sites and
of sweeps: no access leaves its vector and no divisor is zero. The object is fresh
again afterwards, and what holds of the first configuration with its energy and is
kept by every turn holds of the result. -/
theorem runWith_keeps [IsStrictOrderedRing K] (hI : Incidence H edges)
    {P : Annealing K G → Prop} (hP : ∀ st, P st → OnH H st.self) {lib : Numerics K G}
    {beta : ℕ → Option K}
    (h0 : ∀ st : Annealing K G, OnH H st.self →
      st.E = sharedEnergy (spinAt st.self.spins_) edges → P st)
    (hstep : ∀ s st i, P st → i < H.size →
      P (flipped lib (beta s) (change (spinAt st.self.spins_) edges i) i st))
    {fuel Ns : ℕ} (hN : H.size < 2 ^ 32) (hf : H.size < fuel) (hNs : Ns < 2 ^ 32)
    (hfs : Ns < fuel) (seed : ℕ) :
    Meets (runWith fuel lib (saSolver H) beta Ns seed) (fun _ => False) (fun r =>
      r.2 = saSolver H ∧
        ∃ gen, P ⟨gen, r.fst.E_, { N_ := H.size, H_ := H, spins_ := r.fst.spins_ }⟩) := by
  rw [runWith]
  apply (pushSpins_config lib hN hf _).bind
  intro p hp
  have hE := computeEnergy_spec hI hp hN hf
  simp only [saSolver]
  rw [hE, ok_bind]
  refine (anneal_keeps hI hP hstep hN hf hNs hfs (h0 _ ⟨rfl, rfl, hp⟩ rfl)).bind
    fun st hst => ?_
  have hon := (hP st hst).eq_mk
  refine ⟨?_, st.gen, ?_⟩
  · rw [hon]
  · show P ⟨st.gen, st.E, { N_ := H.size, H_ := H, spins_ := st.self.spins_ }⟩
    rw [← hon]
    exact hst

/-- In particular, such a run returns. -/
theorem exists_runWith [IsStrictOrderedRing K] (hI : Incidence H edges) (lib : Numerics K G)
    (beta : ℕ → Option K) {fuel Ns : ℕ} (hN : H.size < 2 ^ 32) (hf : H.size < fuel)
    (hNs : Ns < 2 ^ 32) (hfs : Ns < fuel) (seed : ℕ) :
    ∃ r, runWith fuel lib (saSolver H) beta Ns seed = .ok r := by
  obtain ⟨r, hr, -⟩ := (runWith_keeps (P := fun st => OnH H st.self) hI (fun _ h => h)
    (fun _ hon _ => hon) (fun _ _ _ h hi => flipped_onH h hi) hN hf hNs hfs seed).exists_ok
  exact ⟨r, hr⟩

end SpinGlass
