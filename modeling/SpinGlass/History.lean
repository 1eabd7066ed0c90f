import SpinGlass.Runs
import SpinGlass.Lib.Transition

/-!
# History — solver objects that are copied and run in any order

`run` appends to `spins_` and empties it again by the last swap; copies
share one Hamiltonian. The objects live in a `Memory`, in which an object
holds the address of its Hamiltonian, and `run` writes back both the object
and what is at that address. `run_independent_of_history` says that a run
on any object, after any operations, is a `solve`, and leaves the memory as
it was.
-/

namespace SpinGlass

open CountedLoop Transition

variable {K G : Type}

/-! ## Objects in memory -/

/-- An object of class `sa_solver`; `H_` is the address that the `shared_ptr` holds. -/
structure SolverObject where
  N_ : ℕ
  H_ : ℕ
  spins_ : List ℕ
  deriving DecidableEq, Repr

/-- The Hamiltonians made by `make_shared`, and the solvers. -/
structure Memory (K : Type) where
  hamiltonians : List (HamiltonianType K) := []
  solvers : List SolverObject := []
  deriving DecidableEq, Repr

/-- What is done with solvers; they are numbered in the order in which they are made. -/
inductive Operation (K : Type) where
  | construct (H : HamiltonianType K)
  | copy (j : ℕ)
  | run (j : ℕ) (beta0 beta1 : K) (Ns seed : ℕ)

/-- `sa_solver(H)`: the object has its own copy of `H`. -/
def Memory.construct (w : Memory K) (H : HamiltonianType K) : Memory K :=
  { hamiltonians := w.hamiltonians ++ [H]
    solvers := w.solvers ++ [{ N_ := H.size, H_ := w.hamiltonians.length, spins_ := [] }] }

/-- `sa_solver(other)`: the copy points to the same Hamiltonian. -/
def Memory.copy (w : Memory K) (other : SolverObject) : Memory K :=
  { w with solvers := w.solvers ++ [{ N_ := other.N_, H_ := other.H_, spins_ := other.spins_ }] }

variable [Field K] [LinearOrder K]

/-- `run` on solver `j`: its result, and the memory afterwards. -/
def Memory.run (w : Memory K) (fuel : ℕ) (lib : Numerics K G) (j : ℕ) (beta0 beta1 : K)
    (Ns seed : ℕ) : Exec (Result K × Memory K) := do
  let o ← load w.solvers j
  let H ← load w.hamiltonians o.H_
  let (res, S) ← SpinGlass.run fuel lib { N_ := o.N_, H_ := H, spins_ := o.spins_ } beta0 beta1
    Ns seed
  let hamiltonians ← store w.hamiltonians o.H_ S.H_
  let solvers ← store w.solvers j { N_ := S.N_, H_ := o.H_, spins_ := S.spins_ }
  .ok (res, { hamiltonians, solvers })

/-- One operation; there is nothing after a run that does not return. -/
def Memory.step (fuel : ℕ) (lib : Numerics K G) (op : Operation K) (w : Memory K) :
    Option (Memory K) :=
  match op with
  | .construct H => some (w.construct H)
  | .copy j => w.solvers[j]?.map w.copy
  | .run j beta0 beta1 Ns seed =>
      match w.run fuel lib j beta0 beta1 Ns seed with
      | .ok (_, w') => some w'
      | .error _ => none

/-! ## A run keeps its object -/

/-- The double loop changes nothing of the object but its spins. -/
theorem anneal_object {fuel Ns : ℕ} {lib : Numerics K G} {beta : ℕ → Option K}
    {st st' : Annealing K G} (h : anneal fuel lib beta Ns st = .ok st') :
    st'.self.N_ = st.self.N_ ∧ st'.self.H_ = st.self.H_ := by
  obtain ⟨s, -, hv⟩ := anneal_visited h
  refine hv.invariant (P := fun t => t.self.N_ = st.self.N_ ∧ t.self.H_ = st.self.H_)
    (fun beta i t t' ht _ hflip => ?_) ⟨rfl, rfl⟩
  obtain ⟨hN, hH⟩ := flipStep_object hflip
  exact ⟨hN.trans ht.1, hH.trans ht.2⟩

/-- Whatever its spins were, an object has none after a run, and is otherwise as before. -/
theorem run_object {fuel : ℕ} {lib : Numerics K G} {self : SaSolver K} {beta0 beta1 : K}
    {Ns seed : ℕ} {r : Result K × SaSolver K}
    (h : run fuel lib self beta0 beta1 Ns seed = .ok r) :
    r.2 = { N_ := self.N_, H_ := self.H_, spins_ := [] } := by
  rw [run, runWith] at h
  obtain ⟨p, -, h⟩ := bind_eq_ok.mp h
  obtain ⟨E, -, h⟩ := bind_eq_ok.mp h
  obtain ⟨st, hst, h⟩ := bind_eq_ok.mp h
  obtain ⟨hN, hH⟩ := anneal_object hst
  cases h
  simp [hN, hH]

/-! ## The invariant -/

/-- The solver points to `H` and has no spins: it is as good as new. -/
structure IsFresh (H : HamiltonianType K) (w : Memory K) (o : SolverObject) : Prop where
  size : o.N_ = H.size
  points : w.hamiltonians[o.H_]? = some H
  spins : o.spins_ = []

/-- The operations on solvers of `H`. -/
def Operation.On (H : HamiltonianType K) : Operation K → Prop
  | .construct H' => H' = H
  | .copy _ => True
  | .run _ _ _ _ _ => True

theorem set_of_getElem? {α : Type} {xs : List α} {i : ℕ} {x : α} (h : xs[i]? = some x) :
    xs.set i x = xs := by
  obtain ⟨hi, rfl⟩ := List.getElem?_eq_some_iff.mp h
  exact List.set_getElem_self hi

theorem eq_of_map_pair_eq_ok {ε α β : Type} {x : Except ε α} {b b' : β} {a : α}
    (h : x.map (fun a => (a, b)) = .ok (a, b')) : b = b' := by
  cases x with
  | ok a => exact (Prod.mk.inj (Except.ok.inj h)).2
  | error e => cases h

/-- A run on a fresh solver is a `solve`, and changes nothing. -/
theorem Memory.run_eq {H : HamiltonianType K} {w : Memory K} {j : ℕ} {o : SolverObject}
    (ho : w.solvers[j]? = some o) (hfresh : IsFresh H w o) (fuel : ℕ) (lib : Numerics K G)
    (beta0 beta1 : K) (Ns seed : ℕ) :
    w.run fuel lib j beta0 beta1 Ns seed
      = (solve fuel lib H beta0 beta1 Ns seed).map fun res => (res, w) := by
  have hself : ({ N_ := o.N_, H_ := H, spins_ := o.spins_ } : SaSolver K) = saSolver H := by
    rw [saSolver, hfresh.size, hfresh.spins]
  rw [Memory.run, load_eq_ok.mpr ho, ok_bind, load_eq_ok.mpr hfresh.points, ok_bind, hself, solve]
  cases hrun : SpinGlass.run fuel lib (saSolver H) beta0 beta1 Ns seed with
  | error e => rfl
  | ok r =>
      obtain ⟨res, S⟩ := r
      obtain rfl : S = _ := run_object hrun
      have hobject : { N_ := (saSolver H).N_, H_ := o.H_, spins_ := [] } = o := by
        cases o
        simp only [saSolver, SolverObject.mk.injEq, true_and]
        exact ⟨hfresh.size.symm, hfresh.spins.symm⟩
      obtain ⟨hj, -⟩ := List.getElem?_eq_some_iff.mp ho
      obtain ⟨hptr, -⟩ := List.getElem?_eq_some_iff.mp hfresh.points
      simp only [ok_bind]
      have hshared : w.hamiltonians.set o.H_ (saSolver H).H_ = w.hamiltonians :=
        set_of_getElem? hfresh.points
      rw [store_of_lt hptr, ok_bind, hobject, store_of_lt hj, ok_bind, hshared,
        set_of_getElem? ho]
      rfl

omit [Field K] [LinearOrder K] in
theorem Memory.construct_fresh {H : HamiltonianType K} {w : Memory K}
    (hall : ∀ o ∈ w.solvers, IsFresh H w o) :
    ∀ o ∈ (w.construct H).solvers, IsFresh H (w.construct H) o := by
  intro o ho
  rcases List.mem_append.mp ho with ho | ho
  · have hfresh := hall o ho
    obtain ⟨hptr, -⟩ := List.getElem?_eq_some_iff.mp hfresh.points
    refine ⟨hfresh.size, ?_, hfresh.spins⟩
    rw [Memory.construct, List.getElem?_append_left hptr]
    exact hfresh.points
  · rw [List.mem_singleton] at ho
    subst ho
    exact ⟨rfl, by simp [Memory.construct], rfl⟩

omit [Field K] [LinearOrder K] in
theorem Memory.copy_fresh {H : HamiltonianType K} {w : Memory K} {other : SolverObject}
    (hother : other ∈ w.solvers) (hall : ∀ o ∈ w.solvers, IsFresh H w o) :
    ∀ o ∈ (w.copy other).solvers, IsFresh H (w.copy other) o := by
  intro o ho
  have hfresh := hall other hother
  rcases List.mem_append.mp ho with ho | ho
  · exact ⟨(hall o ho).size, (hall o ho).points, (hall o ho).spins⟩
  · rw [List.mem_singleton] at ho
    subst ho
    exact ⟨hfresh.size, hfresh.points, hfresh.spins⟩

/-- A run among fresh solvers leaves the memory as it is. -/
theorem Memory.eq_of_run {H : HamiltonianType K} {w w' : Memory K}
    (hall : ∀ o ∈ w.solvers, IsFresh H w o) {fuel : ℕ} {lib : Numerics K G} {j : ℕ}
    {beta0 beta1 : K} {Ns seed : ℕ} {res : Result K}
    (hrun : w.run fuel lib j beta0 beta1 Ns seed = .ok (res, w')) : w' = w := by
  obtain ⟨o, ho, -⟩ := bind_eq_ok.mp hrun
  have ho := load_eq_ok.mp ho
  rw [Memory.run_eq ho (hall o (List.mem_of_getElem? ho))] at hrun
  exact (eq_of_map_pair_eq_ok hrun).symm

/-- **The step lemma**: an operation leaves every solver as good as new, and what was in
memory before stays there. -/
theorem Memory.step_fresh {H : HamiltonianType K} {fuel : ℕ} {lib : Numerics K G}
    {op : Operation K} {w w' : Memory K} (hop : op.On H)
    (hall : ∀ o ∈ w.solvers, IsFresh H w o) (hstep : Memory.step fuel lib op w = some w') :
    (∀ o ∈ w'.solvers, IsFresh H w' o) ∧
      w.hamiltonians <+: w'.hamiltonians ∧ w.solvers <+: w'.solvers := by
  cases op with
  | construct H' =>
      cases hop
      cases hstep
      exact ⟨Memory.construct_fresh hall, List.prefix_append _ _, List.prefix_append _ _⟩
  | copy j =>
      obtain ⟨other, hother, rfl⟩ := Option.map_eq_some_iff.mp hstep
      exact ⟨Memory.copy_fresh (List.mem_of_getElem? hother) hall, List.prefix_refl _,
        List.prefix_append _ _⟩
  | run j beta0 beta1 Ns seed =>
      rw [Memory.step] at hstep
      split at hstep
      · rename_i res w₁ hrun
        cases hstep
        obtain rfl := Memory.eq_of_run hall hrun
        exact ⟨hall, List.prefix_refl _, List.prefix_refl _⟩
      · cases hstep

/-- **The run lemma**: after any operations every solver is as good as new. -/
theorem Memory.all_fresh {H : HamiltonianType K} {fuel : ℕ} {lib : Numerics K G}
    {w : Memory K} (hw : Reaches (Memory.step fuel lib) (Operation.On H) {} w) :
    ∀ o ∈ w.solvers, IsFresh H w o :=
  hw.invariant (P := fun w => ∀ o ∈ w.solvers, IsFresh H w o)
    (fun _ _ _ hop hall hstep => (Memory.step_fresh hop hall hstep).1) (by simp)

/-- **Runs do not depend on the history of their object.** After any operations on solvers
of `H`, a run on any of them comes to what `solve` comes to on `H`, and leaves the memory
as it was; it returns when `H` is that of a file and the counters hold its sites and the
sweeps. No operation changes a solver or a Hamiltonian that was there before. -/
theorem run_independent_of_history [IsStrictOrderedRing K] {H : HamiltonianType K} {fuel : ℕ}
    {lib : Numerics K G} {w : Memory K}
    (hw : Reaches (Memory.step fuel lib) (Operation.On H) {} w) :
    (∀ j, j < w.solvers.length → ∀ (fuel : ℕ) (beta0 beta1 : K) (Ns seed : ℕ),
      w.run fuel lib j beta0 beta1 Ns seed
        = (solve fuel lib H beta0 beta1 Ns seed).map fun res => (res, w)) ∧
    (∀ (stod : Str → Option K) (text : Str) (buildFuel : ℕ),
      hamiltonianType buildFuel stod text = .ok H → H.size < 2 ^ 32 →
      ∀ j, j < w.solvers.length → ∀ (fuel : ℕ) (beta0 beta1 : K) (Ns seed : ℕ),
        Ns < 2 ^ 32 → H.size < fuel → Ns < fuel →
        ∃ res, w.run fuel lib j beta0 beta1 Ns seed = .ok (res, w)) ∧
    (∀ op w', op.On H → Memory.step fuel lib op w = some w' →
      w.hamiltonians <+: w'.hamiltonians ∧ w.solvers <+: w'.solvers) := by
  have hall := Memory.all_fresh hw
  have hrun : ∀ j, j < w.solvers.length → ∀ (fuel : ℕ) (beta0 beta1 : K) (Ns seed : ℕ),
      w.run fuel lib j beta0 beta1 Ns seed
        = (solve fuel lib H beta0 beta1 Ns seed).map fun res => (res, w) := by
    intro j hj fuel beta0 beta1 Ns seed
    have ho : w.solvers[j]? = some w.solvers[j] := List.getElem?_eq_getElem hj
    exact Memory.run_eq ho (hall _ (List.getElem_mem hj)) fuel lib beta0 beta1 Ns seed
  refine ⟨hrun, ?_, fun op w' hop hstep => (Memory.step_fresh hop hall hstep).2⟩
  intro stod text buildFuel hbuild hN j hj fuel beta0 beta1 Ns seed hNs hf hfs
  obtain ⟨-, hI⟩ := (hamiltonianType_built buildFuel stod text).of_ok hbuild
  obtain ⟨r, hr⟩ := exists_runWith hI lib (schedule beta0 beta1 Ns) hN hf hNs hfs seed
  refine ⟨r.1, ?_⟩
  rw [hrun j hj, solve, run, hr]
  rfl

/-- A copy of a solver that has run. -/
theorem run_independent_of_history_sample :
    Memory.run
      ({ hamiltonians := [sampleH], solvers := [⟨3, 0, []⟩, ⟨3, 0, []⟩] } : Memory ℚ)
      4 sampleLib 1 (1 / 10) 3 2 7
      = (solve 4 sampleLib sampleH (1 / 10) 3 2 7).map fun res =>
          (res, { hamiltonians := [sampleH], solvers := [⟨3, 0, []⟩, ⟨3, 0, []⟩] }) := by
  have hw : Reaches (Memory.step 4 sampleLib) (Operation.On sampleH) {}
      { hamiltonians := [sampleH], solvers := [⟨3, 0, []⟩, ⟨3, 0, []⟩] } :=
    ⟨[.construct sampleH, .run 0 (1 / 10) 3 2 5, .copy 0], by simp [Operation.On],
      by decide +kernel⟩
  exact (run_independent_of_history hw).1 1 (by decide) 4 (1 / 10) 3 2 7

end SpinGlass
