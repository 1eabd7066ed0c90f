import SpinGlass.Delivery

/-!
# Distribution — a distributed run and the single-threaded program

The processes and their messages refine the console on which a solve is one
step: what arrives as the answer of a node is what the single-threaded program
computes for the same repetition. So the books of a call of `spawn` are right
over the whole cluster, in whatever order the nodes join, the messages arrive
and the threads take their turns.
-/

namespace SpinGlass

open Transition Network Channels

namespace Wrapper

variable {I R : Type} [DecidableEq I] {runOne : I → ℤ → Option R} {numReps : ℕ}
  {w : Wrapper I R}

/-- The number of futures in the queue of `p.1` that are ready with the result of seed
`p.2`. -/
def ready (w : Wrapper I R) (p : I × ℤ) : ℕ :=
  (w.asyncResults p.1).countP fun t => t.seed = p.2 && t.value.isSome

omit [DecidableEq I] in
/-- A future waits or is ready. -/
theorem waiting_add_ready (w : Wrapper I R) (p : I × ℤ) :
    w.waiting p + w.ready p = (w.queuedSeeds p.1).count p.2 := by
  rw [waiting, ready, queuedSeeds]
  induction w.asyncResults p.1 with
  | nil => rfl
  | cons t tasks ih =>
      obtain ⟨seed, value⟩ := t
      rw [List.map_cons, List.countP_cons, List.countP_cons, List.count_cons, ← ih]
      cases value with
      | none =>
          by_cases hseed : seed = p.2
          · simp [Task.waitsFor, hseed]
            omega
          · simp [Task.waitsFor, hseed]
      | some r =>
          by_cases hseed : seed = p.2
          · simp [Task.waitsFor, hseed]
            omega
          · simp [Task.waitsFor, hseed]

/-- A vector with a result for every repetition is complete. -/
theorem Accounted.complete_of_length (h : Accounted runOne numReps w)
    (hlength : w.repetitionResultsVector.length = numReps) :
    w.remaining = 0 ∧ ∀ s, w.asyncResults s = [] := by
  have hbudget := h.budget
  have hcollected := h.results.length_eq
  have hlaunched := congrArg List.length h.seeds
  rw [List.length_map, List.length_map, List.length_range] at hlaunched
  have hsub := h.conserved.subperm
  have hle := hsub.length_le
  have hperm := hsub.perm_of_length_le (by omega)
  refine ⟨by omega, fun s => ?_⟩
  have hqueue := congrArg List.length (h.conserved s)
  have hitems : (itemsOf s w.launched).length = (itemsOf s w.collected).length := by
    rw [itemsOf, itemsOf, List.length_map, List.length_map]
    exact ((hperm.filter _).length_eq).symm
  rw [List.length_append, queuedSeeds, List.length_map] at hqueue
  exact List.eq_nil_of_length_eq_zero (by omega)

end Wrapper

namespace Cluster

open Message

variable {L K G : Type} [LinearOrder L] [Field K] [LinearOrder K] {job : Job L K G}
  {g g' : Cluster L K} {H : HamiltonianType K} {nranks : ℕ}

/-- What `run_one` returns on every node, and in the single-threaded program. -/
def solveOn (job : Job L K G) (H : HamiltonianType K) (_ : WrapperId L) (seed : ℤ) :
    Option (Result K) :=
  answer job (saSolver H) seed

/-- Only the end of a solve depends on what solves return. -/
theorem step_congr {L R : Type} [LinearOrder L] {runOne : WrapperId L → ℤ → Option R}
    (runOne' : WrapperId L → ℤ → Option R) {here : L} {osThreads numReps : ℕ}
    {e : ConsoleEvent L} (he : ∀ s j, e ≠ .solver (.complete s j)) (c : Console L R) :
    Console.step runOne here osThreads numReps e c
      = Console.step runOne' here osThreads numReps e c := by
  cases e with
  | solver e =>
      cases e with
      | complete s j => exact absurd rfl (he s j)
      | spawn | collect | addSolverId | setSolverIds | abort | shutdown => rfl
  | connecting | main | monitor | initDone => rfl

/-- An event of the cluster is a step of the console, or none. -/
theorem Sound.matched (h : Sound job g) (hload : Cluster.load job = .ok H) {ev : ClusterEvent L}
    (hstep : Happens job ev g g') :
    g'.console = g.console ∨ ∃ e,
      Console.step (solveOn job H) job.here job.osThreads job.numReps e g.console
        = some g'.console := by
  cases hstep with
  | notify | load | createSolver | runOne => exact Or.inl rfl
  | @console _ _ e value rest c ms hcause hc hms =>
      refine Or.inr ⟨e, ?_⟩
      rcases hcause.answered with ⟨hne, -⟩ | ⟨id, seed, r, j, rfl, rfl, hin, hj, -⟩
      · rw [step_congr (fun _ _ => value) hne]
        exact hc
      · obtain ⟨H', hload', hr⟩ := h.served.answers id seed r hin
        cases hload.symm.trans hload'
        cases Console.step_happens hc with
        | solver hevent hw =>
            cases hw with
            | complete hj' hr' =>
                cases hj.symm.trans hj'
                cases hr'
                show Console.solverStep _ _ _ = _
                rw [Console.solverStep, if_pos hevent]
                show Option.map _ (Wrapper.completeStep (solveOn job H) id j _) = _
                rw [Wrapper.completeStep, hj]
                show Option.map _ (Option.map _ (answer job (saSolver H) seed)) = _
                rw [hr]
                rfl

/-- **The cluster refines the console**: every run of the processes with their messages is,
on rank `0`, a run in which a solve on a node is one step, with the result of the
single-threaded program. -/
theorem Sound.refines_console (h : Sound job g) (hload : Cluster.load job = .ok H)
    (hreach : Reaches (Cluster.step job) (fun _ => True) g g') :
    Reaches (Console.step (solveOn job H) job.here job.osThreads job.numReps) (fun _ => True)
      g.console g'.console := by
  apply hreach.refines (P := Sound job) Cluster.console
  · intro e u v _ hu hstep
    exact hu.step (step_happens hstep)
  · intro e u v _ hu hstep
    rcases hu.matched hload (step_happens hstep) with hsame | ⟨e', he'⟩
    · rw [hsame]
      exact Reaches.refl _
    · exact Reaches.single trivial he'
  · exact h

theorem refines_console (job : Job L K G) (nranks : ℕ) (hload : load job = .ok H)
    (hreach : Reaches (step job) (fun _ => True) (initial job nranks) g) :
    Reaches (Console.step (solveOn job H) job.here job.osThreads job.numReps) (fun _ => True)
      (Console.initial nranks job.osThreads) g.console :=
  (sound_initial nranks).refines_console hload hreach

/-! ## The console has no other runs -/

/-- The cluster comes to a state whose console is `c`. -/
def ComesTo (job : Job L K G) (g : Cluster L K) (c : Console L (Result K)) : Prop :=
  ∃ g', Reaches (Cluster.step job) (fun _ => True) g g' ∧ g'.console = c

theorem ComesTo.head {c : Console L (Result K)} {e : ClusterEvent L}
    (hstep : step job e g = some g') (h : ComesTo job g' c) : ComesTo job g c := by
  obtain ⟨g'', hreach, hc⟩ := h
  exact ⟨g'', hreach.head trivial hstep, hc⟩

theorem ComesTo.single {e : ClusterEvent L} (hstep : step job e g = some g') :
    ComesTo job g g'.console :=
  ⟨g', Reaches.single trivial hstep, rfl⟩

namespace Sound

variable {c : Console L (Result K)}

/-- `CONNECTING` arrives, after it has been sent. -/
theorem comesTo_connecting (h : Sound job g) {l : L}
    (hc : Console.step (solveOn job H) job.here job.osThreads job.numReps (.connecting l)
      g.console = some c) : ComesTo job g c := by
  have deliver : ∀ {u}, Sound job u → u.console = g.console → .connecting l ∈ u.network →
      ComesTo job u c := by
    intro u hu hsame hin
    obtain ⟨k, rest, hm⟩ := exists_take hin
    cases Console.step_happens hc with
    | connecting hne hnew hlock =>
        obtain ⟨v, hv, hstep⟩ := hu.handles_connecting hm (hsame ▸ hlock)
        rw [hsame, step_congr (solveOn job H) (by simp), hc] at hstep
        rw [Option.some.inj hstep]
        exact ComesTo.single hv
  rcases Nat.eq_zero_or_pos (inFlight connectingOf l g.network) with hzero | hpos
  · cases Console.step_happens hc with
    | connecting hne hnew hlock =>
        have hcount := h.joined.connecting l
        rw [hzero, List.count_eq_zero_of_not_mem hnew] at hcount
        have hsilent : (g.nodes l).notified = false := by
          cases hn : (g.nodes l).notified with
          | false => rfl
          | true => simp [hn] at hcount
        have hstep : Cluster.step job (.notify l) g = some _ :=
          if_neg (by simp [hne, hsilent])
        apply ComesTo.head hstep
        apply deliver (h.step (step_happens hstep)) rfl
        exact List.mem_append_right _ (List.mem_singleton_self _)
  · exact deliver h rfl (mem_of_connectingOf hpos)

/-- `init_node` completes, after the node has created its solver wrapper. -/
theorem comesTo_initDone (h : Sound job g) {l : L}
    (hc : Console.step (solveOn job H) job.here job.osThreads job.numReps (.initDone l)
      g.console = some c) : ComesTo job g c := by
  have deliver : ∀ {u}, Sound job u → u.console = g.console → .initialized l ∈ u.network →
      ComesTo job u c := by
    intro u hu hsame hin
    obtain ⟨k, rest, hm⟩ := exists_take hin
    cases Console.step_happens hc with
    | initDone hcount hlock hids =>
        obtain ⟨v, hv, hstep⟩ := hu.handles_initialized hm (hsame ▸ hlock) (hsame ▸ hids)
        rw [hsame, step_congr (solveOn job H) (by simp), hc] at hstep
        rw [Option.some.inj hstep]
        exact ComesTo.single hv
  rcases Nat.eq_zero_or_pos (inFlight initializedOf l g.network) with hzero | hpos
  · cases Console.step_happens hc with
    | initDone hcount hlock hids =>
        have hinit := h.joined.initializing l
        have hpos : 0 < inFlight initializeOf l g.network := by omega
        obtain ⟨H', hin⟩ := mem_of_initializeOf hpos
        obtain ⟨k, rest, hm⟩ := exists_take hin
        obtain ⟨u, hu, hsame, hnetwork⟩ := h.handles_initialize hm
        apply ComesTo.head hu
        apply deliver (h.step (step_happens hu)) hsame
        rw [hnetwork]
        exact List.mem_append_right _ (List.mem_singleton_self _)
  · exact deliver h rfl (mem_of_initializedOf hpos)

/-- A step for which no message is needed, after the Hamiltonian has been loaded. -/
theorem comesTo_internal (h : Sound job g) (hload : Cluster.load job = .ok H)
    {e : ConsoleEvent L} (he : e.internal = true)
    (hc : Console.step (solveOn job H) job.here job.osThreads job.numReps e g.console = some c) :
    ComesTo job g c := by
  have hne : ∀ s j, e ≠ .solver (.complete s j) := by
    rintro s j rfl
    cases he
  rw [step_congr (fun _ _ => none) hne] at hc
  by_cases hloaded : e = .main ∧ g.console.mainAt = .stated ∧ g.hamiltonian.isNone
  · obtain ⟨rfl, hat, hnone⟩ := hloaded
    have hstep := loads hat (Option.isNone_iff_eq_none.mp hnone) hload
    apply ComesTo.head hstep
    have hu := h.step (step_happens hstep)
    obtain ⟨v, hv, rfl⟩ := hu.handles_internal he (by simp) hc
    exact ComesTo.single hv
  · obtain ⟨v, hv, rfl⟩ := h.handles_internal he hloaded hc
    exact ComesTo.single hv

/-- A solve returns: its request arrives if it has not, and then its answer. -/
theorem comesTo_complete (h : Sound job g) (hload : Cluster.load job = .ok H)
    {id : WrapperId L} {j : ℕ} (honce : (g.console.wrappedSolver.queuedSeeds id).Nodup)
    (hc : Console.step (solveOn job H) job.here job.osThreads job.numReps
      (.solver (.complete id j)) g.console = some c) : ComesTo job g c := by
  obtain ⟨seed, r, hj, hr, hc'⟩ : ∃ seed r,
      (g.console.wrappedSolver.asyncResults id)[j]? = some ⟨seed, none⟩ ∧
      answer job (saSolver H) seed = some r ∧
      c = { g.console with
        wrappedSolver := Wrapper.makeReady id j seed r g.console.wrappedSolver } := by
    cases Console.step_happens hc with
    | solver hevent hw =>
        cases hw with
        | complete hj hr => exact ⟨_, _, hj, hr, rfl⟩
  have deliver : ∀ {u}, Sound job u → u.console = g.console →
      .result id seed r ∈ u.network → ComesTo job u c := by
    intro u hu hsame hin
    obtain ⟨k, rest, hm⟩ := exists_take hin
    obtain ⟨v, j', hv, hj', rfl⟩ := hu.handles_result hm
    rw [hsame] at hj'
    -- the seed stands in the queue once, so the answer is for this future
    have hseed : (g.console.wrappedSolver.queuedSeeds id)[j]? = some seed := by
      rw [Wrapper.queuedSeeds, List.getElem?_map, hj, Option.map_some]
    have hseed' : (g.console.wrappedSolver.queuedSeeds id)[j']? = some seed := by
      rw [Wrapper.queuedSeeds, List.getElem?_map, hj', Option.map_some]
    obtain ⟨hlt, -⟩ := List.getElem?_eq_some_iff.mp hseed
    obtain rfl := (List.getElem?_inj hlt honce).mp (hseed.trans hseed'.symm)
    rw [hc', ← hsame]
    exact ComesTo.single hv
  have hwaiting : 0 < g.console.wrappedSolver.waiting (id, seed) :=
    List.countP_pos_iff.mpr ⟨_, List.mem_of_getElem? hj, by simp [Task.waitsFor]⟩
  rw [h.served.conserved] at hwaiting
  rcases Nat.eq_zero_or_pos (inFlight resultOf (id, seed) g.network) with hzero | hpos
  · rw [hzero, Nat.add_zero] at hwaiting
    obtain ⟨k, rest, hm⟩ := exists_take (mem_of_requestOf hwaiting)
    have hreturns : ∀ H', Cluster.load job = .ok H' → answer job (saSolver H') seed ≠ none := by
      intro H' hload'
      cases hload.symm.trans hload'
      simp [hr]
    obtain ⟨u, r', hu, rfl⟩ := h.handles_runOne hm hreturns
    have hsound := h.step (step_happens hu)
    obtain ⟨H', hload', hr'⟩ := hsound.served.answers id seed r'
      (List.mem_append_right _ (List.mem_singleton_self _))
    cases hload.symm.trans hload'
    cases hr.symm.trans hr'
    apply ComesTo.head hu
    apply deliver hsound rfl
    exact List.mem_append_right _ (List.mem_singleton_self _)
  · obtain ⟨r', hin⟩ := mem_of_resultOf hpos
    obtain ⟨H', hload', hr'⟩ := h.served.answers id seed r' hin
    cases hload.symm.trans hload'
    cases hr.symm.trans hr'
    exact deliver h rfl hin

end Sound

/-- The seeds in a queue are different. -/
theorem queuedSeeds_nodup {c : Console L (Result K)} (hreps : job.numReps < 2 ^ 31)
    (hreach : Reaches (Console.step (solveOn job H) job.here job.osThreads job.numReps)
      (fun _ => True) (Console.initial nranks job.osThreads) c) (id : WrapperId L) :
    (c.wrappedSolver.queuedSeeds id).Nodup := by
  have hnil : (∀ s, c.wrappedSolver.asyncResults s = []) →
      (c.wrappedSolver.queuedSeeds id).Nodup := by
    intro hempty
    rw [Wrapper.queuedSeeds, hempty id]
    exact List.nodup_nil
  obtain ⟨hordered, hcalled⟩ := Console.called_of_reaches hreach
  by_cases hat : c.mainAt = .spawning
  · rcases hcalled.books hat with ⟨hidle, -⟩ | hbooks
    · exact hnil hidle.queues
    · have hseeds := (hbooks.nodup_seeds hreps).sublist (itemsOf_sublist id c.wrappedSolver.launched)
      rw [hbooks.conserved id] at hseeds
      exact (List.nodup_append.mp hseeds).2.1
  · exact hnil (hordered.before hat).idle.queues

/-- Every run of the console can be had with messages, from where the cluster is. -/
theorem comesTo_of_reaches (hload : load job = .ok H) (hreps : job.numReps < 2 ^ 31)
    (hreach : Reaches (step job) (fun _ => True) (initial job nranks) g)
    {c : Console L (Result K)}
    (hrun : Reaches (Console.step (solveOn job H) job.here job.osThreads job.numReps)
      (fun _ => True) g.console c) : ComesTo job g c := by
  apply hrun.invariant (P := ComesTo job g) _ ⟨g, Reaches.refl g, rfl⟩
  rintro e _ c' _ ⟨u, hu, rfl⟩ hstep
  have hall := hreach.trans hu
  have h := (sound_initial nranks).reaches hall
  have hcomes : ComesTo job u c' := by
    by_cases he : e.internal = true
    · exact h.comesTo_internal hload he hstep
    · cases e with
      | connecting l => exact h.comesTo_connecting hstep
      | initDone l => exact h.comesTo_initDone hstep
      | main | monitor => exact absurd rfl he
      | solver e =>
          cases e with
          | complete id j =>
              have honce := queuedSeeds_nodup hreps (refines_console job nranks hload hall) id
              exact h.comesTo_complete hload honce hstep
          | spawn | collect | abort | shutdown => exact absurd rfl he
          | addSolverId | setSolverIds => cases hstep
  obtain ⟨v, hv, hc'⟩ := hcomes
  exact ⟨v, hu.trans hv, hc'⟩

/-- **The console is exact.** On a file that can be read, the runs of the console with the
solves of the single-threaded program as single steps lead to just those states that rank
`0` has in the runs of the cluster, by whatever order of the messages. -/
theorem console_reaches_iff (job : Job L K G) (nranks : ℕ) (hload : load job = .ok H)
    (hreps : job.numReps < 2 ^ 31) (c : Console L (Result K)) :
    Reaches (Console.step (solveOn job H) job.here job.osThreads job.numReps) (fun _ => True)
      (Console.initial nranks job.osThreads) c ↔
    ∃ g, Reaches (step job) (fun _ => True) (initial job nranks) g ∧ g.console = c := by
  constructor
  · intro hreach
    exact comesTo_of_reaches hload hreps (Reaches.refl (initial job nranks)) hreach
  · rintro ⟨g, hg, rfl⟩
    exact refines_console job nranks hload hg

/-- Locality `1` joins, solves both repetitions, and the second result is ready first. -/
def sampleConsole : List (ConsoleEvent ℕ) :=
  [.main, .main, .initDone 0, .connecting 1, .main, .main, .main, .monitor, .monitor, .monitor,
    .monitor, .main, .initDone 1, .main, .solver .spawn, .solver .spawn, .solver .spawn,
    .solver .spawn, .solver .spawn, .solver .spawn, .solver (.complete ⟨1⟩ 1),
    .solver (.complete ⟨1⟩ 0), .solver .collect, .solver .collect, .solver .collect,
    .solver .collect]

/-- The run of the console can be had with messages. -/
theorem console_reaches_iff_sample : ∃ g : Cluster ℕ ℚ,
    Reaches (step sampleJob) (fun _ => True) (initial sampleJob 2) g ∧
      g.console.wrappedSolver.collected = [(⟨1⟩, 0), (⟨1⟩, 1)] := by
  have hload : load sampleJob = .ok sampleH := by decide
  have hrun : ((after (Console.step (solveOn sampleJob sampleH) sampleJob.here
      sampleJob.osThreads sampleJob.numReps) sampleConsole
      (Console.initial 2 sampleJob.osThreads)).map fun c => c.wrappedSolver.collected)
      = some [(⟨1⟩, 0), (⟨1⟩, 1)] := by
    decide +kernel
  obtain ⟨c, hc, hcollected⟩ := Option.map_eq_some_iff.mp hrun
  obtain ⟨g, hg, rfl⟩ := (console_reaches_iff sampleJob 2 hload (by decide) c).mp
    ⟨sampleConsole, by simp, hc⟩
  exact ⟨g, hg, hcollected⟩

/-! ## The results -/

/-- What is known of the wrapper of rank `0`, before and after the call of `spawn`. -/
theorem idle_or_accounted (job : Job L K G) (nranks : ℕ) (hload : load job = .ok H)
    (hreach : Reaches (step job) (fun _ => True) (initial job nranks) g) :
    g.console.wrappedSolver.Idle ∨
      g.console.wrappedSolver.Accounted (solveOn job H) job.numReps := by
  obtain ⟨hordered, hcalled⟩ :=
    Console.called_of_reaches (refines_console job nranks hload hreach)
  by_cases hat : g.console.mainAt = .spawning
  · rcases hcalled.books hat with ⟨hidle, -⟩ | hbooks
    · exact Or.inl hidle
    · exact Or.inr hbooks
  · exact Or.inl (hordered.before hat).idle

/-- What `spawn` returns is the vector. -/
theorem returned_eq (job : Job L K G) (nranks : ℕ) (hload : load job = .ok H)
    (hreach : Reaches (step job) (fun _ => True) (initial job nranks) g) {y : List (Result K)}
    (hy : g.console.wrappedSolver.spawnAt = .returned y) :
    y = g.console.wrappedSolver.repetitionResultsVector := by
  obtain ⟨hordered, hcalled⟩ :=
    Console.called_of_reaches (refines_console job nranks hload hreach)
  by_cases hat : g.console.mainAt = .spawning
  · exact ((hcalled.spawned hat).joined y hy).2.symm
  · rw [(hordered.before hat).spawnAt] at hy
    cases hy

/-- Every entry of the vector is the result of the single-threaded program for its
repetition. -/
theorem vector_solved (job : Job L K G) (nranks : ℕ) (hload : load job = .ok H)
    (hreps : job.numReps < 2 ^ 31)
    (hreach : Reaches (step job) (fun _ => True) (initial job nranks) g) :
    List.Forall₂ (fun p r => ∃ i : ℕ, p.2 = (i : ℤ) ∧ i < job.numReps ∧
      solve job.fuel job.lib H job.beta0 job.beta1 job.Ns i = .ok r)
      g.console.wrappedSolver.collected g.console.wrappedSolver.repetitionResultsVector := by
  rcases idle_or_accounted job nranks hload hreach with hidle | hbooks
  · rw [hidle.collected, hidle.results]
    exact List.Forall₂.nil
  · have hsame : ∀ id, (fun _ : WrapperId L => saSolver H) id = saSolver H := fun _ => rfl
    exact results_of_books hsame hreps hbooks

/-- A complete vector is the one of the single-threaded program, up to the order. -/
theorem vector_perm (job : Job L K G) (nranks : ℕ) (hload : load job = .ok H)
    (hreps : job.numReps < 2 ^ 31)
    (hreach : Reaches (step job) (fun _ => True) (initial job nranks) g)
    (hlength : g.console.wrappedSolver.repetitionResultsVector.length = job.numReps) :
    ∃ x, singleThread job.fuel job.lib H job.beta0 job.beta1 job.Ns job.numReps = .ok x ∧
      g.console.wrappedSolver.repetitionResultsVector.Perm x := by
  rcases idle_or_accounted job nranks hload hreach with hidle | hbooks
  · rw [hidle.results] at hlength ⊢
    rw [← hlength]
    exact ⟨[], rfl, List.Perm.refl _⟩
  · obtain ⟨hrem, hempty⟩ := hbooks.complete_of_length hlength
    have hsame : ∀ id, (fun _ : WrapperId L => saSolver H) id = saSolver H := fun _ => rfl
    exact perm_singleThread hsame hreps hbooks hrem hempty

/-- Every launch is in one place: as a request or an answer in flight, ready in a queue, or
collected. -/
theorem Sound.places (h : Sound job g) (p : WrapperId L × ℤ)
    (hconserved : Conserved g.console.wrappedSolver.launched g.console.wrappedSolver.collected
      g.console.wrappedSolver.queuedSeeds) :
    inFlight requestOf p g.network + inFlight resultOf p g.network
      + g.console.wrappedSolver.ready p + g.console.wrappedSolver.collected.count p
      = g.console.wrappedSolver.launched.count p := by
  have hcount := hconserved.count_eq p.1 p.2
  have hqueue := g.console.wrappedSolver.waiting_add_ready p
  have hwaiting := h.served.conserved p
  rw [Prod.mk.eta] at hcount
  omega

/-- **A distributed run computes what the single-threaded program computes.** In every state
that a run of the cluster reaches, by whatever order of joins, messages and steps: the
repetitions launched are the first ones, in order; each of them is in exactly one place, as
a request or an answer in flight, ready in a queue of rank `0`, or in the vector; every
entry of the vector is the result of the single-threaded program for its repetition; a
vector with an entry for every repetition is the one of that program up to the order; and
`spawn` returns the vector. -/
theorem distributed_results (job : Job L K G) (nranks : ℕ) (hload : load job = .ok H)
    (hreps : job.numReps < 2 ^ 31)
    (hreach : Reaches (step job) (fun _ => True) (initial job nranks) g) :
    (∃ k, k ≤ job.numReps ∧ g.console.wrappedSolver.launched.map Prod.snd
      = (List.range k).map fun i : ℕ => (i : ℤ)) ∧
    (∀ p, inFlight requestOf p g.network + inFlight resultOf p g.network
      + g.console.wrappedSolver.ready p + g.console.wrappedSolver.collected.count p
      = if p ∈ g.console.wrappedSolver.launched then 1 else 0) ∧
    List.Forall₂ (fun p r => ∃ i : ℕ, p.2 = (i : ℤ) ∧ i < job.numReps ∧
      solve job.fuel job.lib H job.beta0 job.beta1 job.Ns i = .ok r)
      g.console.wrappedSolver.collected g.console.wrappedSolver.repetitionResultsVector ∧
    (g.console.wrappedSolver.repetitionResultsVector.length = job.numReps → ∃ x,
      singleThread job.fuel job.lib H job.beta0 job.beta1 job.Ns job.numReps = .ok x ∧
        g.console.wrappedSolver.repetitionResultsVector.Perm x) ∧
    ∀ y, g.console.wrappedSolver.spawnAt = .returned y →
      y = g.console.wrappedSolver.repetitionResultsVector := by
  have h := (sound_initial nranks).reaches hreach
  refine ⟨?_, fun p => ?_, vector_solved job nranks hload hreps hreach,
    vector_perm job nranks hload hreps hreach, fun y => returned_eq job nranks hload hreach⟩
  · rcases idle_or_accounted job nranks hload hreach with hidle | hbooks
    · exact ⟨0, Nat.zero_le _, by rw [hidle.launched]; rfl⟩
    · have hbudget := hbooks.budget
      exact ⟨_, by omega, hbooks.seeds_eq hreps⟩
  · rcases idle_or_accounted job nranks hload hreach with hidle | hbooks
    · have hconserved : Conserved g.console.wrappedSolver.launched
          g.console.wrappedSolver.collected g.console.wrappedSolver.queuedSeeds := by
        have hqueues : g.console.wrappedSolver.queuedSeeds = fun _ => [] := by
          funext s
          rw [Wrapper.queuedSeeds, hidle.queues s, List.map_nil]
        rw [hidle.launched, hidle.collected, hqueues]
        exact Conserved.start
      rw [h.places p hconserved, hidle.launched, List.count_nil, if_neg (List.not_mem_nil)]
    · have honce := List.Nodup.of_map Prod.snd (hbooks.nodup_seeds hreps)
      rw [h.places p hbooks.conserved]
      split
      · rename_i hp
        exact List.count_eq_one_of_mem honce hp
      · rename_i hp
        exact List.count_eq_zero_of_not_mem hp

/-- Both requests arrive, the second answer overtakes the first, and both are collected. -/
def sampleEnd : List (ClusterEvent ℕ) :=
  sampleRun ++ [.deliver 0, .deliver 0, .deliver 1, .deliver 0, .console (.solver .collect),
    .console (.solver .collect), .console (.solver .collect), .console (.solver .collect)]

/-- The vector of the sample is the one of the single-threaded program. -/
theorem distributed_results_sample : ∃ (g : Cluster ℕ ℚ) (x : List (Result ℚ)),
    g.console.wrappedSolver.repetitionResultsVector.length = 2 ∧
      singleThread 4 sampleLib sampleH (1 / 10) 3 2 2 = .ok x ∧
      g.console.wrappedSolver.repetitionResultsVector.Perm x := by
  have hload : load sampleJob = .ok sampleH := by decide
  have hrun : ((after (step sampleJob) sampleEnd (initial sampleJob 2)).map
      fun g => g.console.wrappedSolver.repetitionResultsVector.length) = some 2 := by
    decide +kernel
  obtain ⟨g, hg, hlength⟩ := Option.map_eq_some_iff.mp hrun
  obtain ⟨-, -, -, hcomplete, -⟩ := distributed_results sampleJob 2 hload (by decide)
    ⟨sampleEnd, by simp, hg⟩
  obtain ⟨x, hx, hperm⟩ := hcomplete hlength
  exact ⟨g, x, hlength, hx, hperm⟩

end Cluster

end SpinGlass
