import SpinGlass.Serving
import SpinGlass.Calling
import SpinGlass.Annealing

/-!
# Delivery — every message can be handled where it arrives

A message has to wait for a lock of rank `0`, or for the end of its solve, and
for nothing else: no message finds a pointer that is not set, a name that is
taken or missing, or a future that is not there. So the solves that have been
launched can always be answered.
-/

namespace SpinGlass

open Transition Network CountedLoop

namespace Cluster

open Message ConsoleEvent

variable {L K G : Type} [LinearOrder L] [Field K] [LinearOrder K] {job : Job L K G}
  {g g' : Cluster L K} {nranks : ℕ}

/-- What holds in every state of the cluster. -/
structure Sound (job : Job L K G) (g : Cluster L K) : Prop where
  joined : Joined job g
  served : Served job g
  ordered : Console.Ordered job.here g.console

theorem sound_initial (nranks : ℕ) : Sound job (initial job nranks) :=
  ⟨joined_initial nranks, served_initial nranks, Console.ordered_initial nranks⟩

/-- **The step lemma.** -/
theorem Sound.step (h : Sound job g) {e : ClusterEvent L} (hstep : Happens job e g g') :
    Sound job g' := by
  refine ⟨h.joined.step hstep, h.served.step h.joined hstep, ?_⟩
  cases hstep with
  | console hcause hc hms => exact h.ordered.step h.joined.cycle (Console.step_happens hc)
  | notify | load | createSolver | runOne => exact h.ordered

/-- **The run lemma.** -/
theorem Sound.reaches (h : Sound job g) {ok : ClusterEvent L → Prop}
    (hreach : Reaches (Cluster.step job) ok g g') : Sound job g' :=
  hreach.invariant (fun _ _ _ _ hu hstep => hu.step (step_happens hstep)) h

namespace Sound

/-- A locality that has been started has a Hamiltonian to be started with. -/
theorem hamiltonian (h : Sound job g) {l : L} (hl : l ∈ g.console.started) :
    ∃ H, g.hamiltonian = some H ∧ Cluster.load job = .ok H := by
  have hne := h.joined.needed (List.ne_nil_of_mem hl)
  obtain ⟨H, hH⟩ := Option.ne_none_iff_exists'.mp hne
  exact ⟨H, hH, h.joined.loaded H hH⟩

/-- A locality whose name is registered has its solver. -/
theorem theSolver (h : Sound job g) {l : L} (hl : l ∈ g.names) :
    ∃ H, Cluster.load job = .ok H ∧ (g.nodes l).theSolver = some (saSolver H) := by
  have hnamed := h.joined.named l
  have hinit := h.joined.initializing l
  have hpos := List.count_pos_iff.mpr hl
  obtain ⟨H, hsome, hload⟩ := h.hamiltonian (l := l) (List.count_pos_iff.mp (by omega))
  refine ⟨H, hload, ?_⟩
  rw [h.joined.solver l, if_pos hl, hsome, Option.map_some]

theorem mem_names (h : Sound job g) {l : L} (hl : l ∈ g.console.completed) : l ∈ g.names := by
  have hnamed := h.joined.named l
  have hpos := List.count_pos_iff.mpr hl
  exact List.count_pos_iff.mp (by omega)

/-- `scheduler.getSolver()` on rank `0`, when another node has been started. -/
theorem ownSolver (h : Sound job g) {l : L} (hstarted : l ∈ g.console.started)
    (hname : l ∈ g.names) : (g.nodes job.here).theSolver.isSome := by
  have hhere : job.here ∈ g.names := by
    by_cases heq : l = job.here
    · rwa [← heq]
    · exact h.mem_names (h.ordered.ownFirst l hstarted heq)
  obtain ⟨H, -, hsolver⟩ := h.theSolver hhere
  rw [hsolver, Option.isSome_some]

/-- `scheduler.getSolver()` on rank `0`, once the main thread has waited for it. -/
theorem solver_of_initialised (h : Sound job g) (hat : .initialised ≤ g.console.mainAt) :
    (g.nodes job.here).theSolver.isSome := by
  have hcompleted := h.joined.cycle.ownInit hat
  exact h.ownSolver (h.joined.cycle.hasStarted _ hcompleted) (h.mem_names hcompleted)

/-- No step of rank `0` that needs no message comes upon a pointer that is not set. -/
theorem hasSolver (h : Sound job g) {e : ConsoleEvent L} (he : e.internal = true)
    {value : Option (Result K)} {c : Console L (Result K)}
    (hc : Console.step (fun _ _ => value) job.here job.osThreads job.numReps e g.console
      = some c) : HasSolver job e g := by
  intro huses
  apply h.solver_of_initialised
  cases e with
  | main =>
      rcases Bool.or_eq_true_iff.mp huses with hat | hat
      · rw [of_decide_eq_true hat]
        decide
      · rw [of_decide_eq_true hat]
        decide
  | monitor | connecting => cases huses
  | initDone => cases he
  | solver e =>
      cases Console.step_happens hc with
      | solver hevent hw =>
          cases e with
          | spawn | collect =>
              rw [of_decide_eq_true hevent]
              decide
          | abort => exact le_trans (by decide) (of_decide_eq_true hevent)
          | complete | shutdown => cases huses
          | addSolverId | setSolverIds => cases he

end Sound

/-! ## The messages -/

omit [Field K] [LinearOrder K] in
theorem exists_requests {hamiltonian : Option (HamiltonianType K)} {c c' : Console L (Result K)}
    (h : c'.started = c.started ∨ hamiltonian ≠ none) :
    ∃ ms, requests hamiltonian c c' = some ms := by
  unfold requests
  cases hamiltonian with
  | some H =>
      cases c'.started.drop c.started.length with
      | nil => exact ⟨_, rfl⟩
      | cons l started => exact ⟨_, rfl⟩
  | none =>
      rw [h.resolve_right (by simp), List.drop_length]
      exact ⟨_, rfl⟩

omit [Field K] [LinearOrder K] in
/-- Nothing is sent when the logs stay the same. -/
theorem requests_same {hamiltonian : Option (HamiltonianType K)} {c c' : Console L (Result K)}
    (hstarted : c'.started = c.started)
    (hlaunched : c'.wrappedSolver.launched = c.wrappedSolver.launched) :
    requests hamiltonian c c' = some [] := by
  unfold requests
  rw [hstarted, hlaunched, List.drop_length, List.drop_length]
  rfl

omit [Field K] [LinearOrder K] in
/-- A step of the console that starts no node can be taken. -/
theorem exists_consoleStep {value : Option (Result K)} {e : ConsoleEvent L}
    {c : Console L (Result K)} (hsolver : HasSolver job e g)
    (hc : Console.step (fun _ _ => value) job.here job.osThreads job.numReps e g.console = some c)
    (h : c.started = g.console.started ∨ g.hamiltonian ≠ none) :
    ∃ g', consoleStep job value e g = some g' ∧ g'.console = c := by
  obtain ⟨ms, hms⟩ := exists_requests (c := g.console) h
  exact ⟨_, consoleStep_eq_some.mpr ⟨hsolver, c, ms, hc, hms, rfl⟩, rfl⟩

omit [Field K] [LinearOrder K] in
/-- A future that waits becomes ready. -/
theorem step_complete (job : Job L K G) {c : Console L (Result K)} {id : WrapperId L} {seed : ℤ}
    {j : ℕ} (r : Result K) (hat : c.mainAt = .spawning)
    (hj : (c.wrappedSolver.asyncResults id)[j]? = some ⟨seed, none⟩) :
    Console.step (fun _ _ => some r) job.here job.osThreads job.numReps
      (.solver (.complete id j)) c
      = some { c with wrappedSolver := Wrapper.makeReady id j seed r c.wrappedSolver } := by
  have hevent : Console.solverEvent c.mainAt (.complete id j) = true := by
    simp [Console.solverEvent, hat]
  show Console.solverStep _ _ _ = _
  rw [Console.solverStep, if_pos hevent]
  show Option.map _ (Wrapper.completeStep (fun _ _ => some r) id j c.wrappedSolver) = _
  rw [Wrapper.completeStep, hj]
  rfl

/-- What a message may have to wait for where it arrives. -/
def Waits (job : Job L K G) (g : Cluster L K) : Message L K → Prop
  | .connecting _ => g.console.stateLocked = true
  | .initialized _ => g.console.stateLocked = true ∨ g.console.wrappedSolver.idsLocked = true
  | .runOne _ seed => ∃ H, load job = .ok H ∧ answer job (saSolver H) seed = none
  | .initializeSolverWrapper _ _ | .result _ _ _ => False

namespace Sound

variable {k : ℕ} {rest : List (Message L K)}

theorem handles_connecting (h : Sound job g) {l : L}
    (hm : take k g.network = some (.connecting l, rest)) (hlock : g.console.stateLocked = false) :
    ∃ g', Cluster.step job (.deliver k) g = some g' ∧
      Console.step (fun _ _ => none) job.here job.osThreads job.numReps (.connecting l) g.console
        = some g'.console := by
  have hpos := inFlight_pos (f := connectingOf) (mem_of_take hm) rfl
  have hcount := h.joined.connecting l
  have hle : (g.nodes l).notified.toNat ≤ 1 := Bool.toNat_le _
  have hnew : l ∉ g.console.connected := fun hl => by
    have := List.count_pos_iff.mpr hl
    omega
  have hne : l ≠ job.here := by
    rintro rfl
    rw [h.joined.silent, Bool.toNat_false] at hcount
    omega
  have hstep : Console.step (fun _ _ => none) job.here job.osThreads job.numReps (.connecting l)
      g.console = some _ := if_neg (by simp [hne, hnew, hlock])
  have hsolver : HasSolver job (.connecting l) { g with network := rest } := by
    intro huses
    cases huses
  obtain ⟨g', hg', hc⟩ := exists_consoleStep hsolver hstep (Or.inl rfl)
  refine ⟨g', ?_, hc ▸ hstep⟩
  rw [Cluster.step, hm, Option.bind_some]
  exact hg'

theorem handles_initialize (h : Sound job g) {l : L} {H : HamiltonianType K}
    (hm : take k g.network = some (.initializeSolverWrapper l H, rest)) :
    ∃ g', Cluster.step job (.deliver k) g = some g' ∧ g'.console = g.console ∧
      g'.network = rest ++ [.initialized l] := by
  have hpos := inFlight_pos (f := initializeOf) (mem_of_take hm) rfl
  have hcount := h.joined.initializing l
  have hnamed := h.joined.named l
  have honce := List.nodup_iff_count_le_one.mp h.joined.cycle.startedOnce l
  have hnew : l ∉ g.names := fun hl => by
    have := List.count_pos_iff.mpr hl
    omega
  rw [Cluster.step, hm, Option.bind_some]
  exact ⟨_, if_neg (by simpa using hnew), rfl, rfl⟩

theorem handles_initialized (h : Sound job g) {l : L}
    (hm : take k g.network = some (.initialized l, rest)) (hlock : g.console.stateLocked = false)
    (hids : g.console.wrappedSolver.idsLocked = false) :
    ∃ g', Cluster.step job (.deliver k) g = some g' ∧
      Console.step (fun _ _ => none) job.here job.osThreads job.numReps (.initDone l) g.console
        = some g'.console := by
  have hpos := inFlight_pos (f := initializedOf) (mem_of_take hm) rfl
  have hcount := h.joined.initializing l
  have hnamed := h.joined.named l
  have hname : l ∈ g.names := List.count_pos_iff.mp (by omega)
  have hstarted : l ∈ g.console.started := List.count_pos_iff.mp (by omega)
  have hsolver : HasSolver job (.initDone l) { g with network := rest } :=
    fun _ => h.ownSolver hstarted hname
  have hcount' : g.console.completed.count l < g.console.started.count l := by omega
  have hstep : Console.step (fun _ _ => none) job.here job.osThreads job.numReps (.initDone l)
      g.console = some _ := if_pos ⟨hcount', hlock, hids⟩
  obtain ⟨g', hg', hc⟩ := exists_consoleStep hsolver hstep (Or.inl rfl)
  refine ⟨g', ?_, hc ▸ hstep⟩
  rw [Cluster.step, hm, Option.bind_some]
  show ite _ _ _ = some g'
  rw [if_pos (List.contains_iff_mem.mpr hname)]
  exact hg'

theorem handles_runOne (h : Sound job g) {id : WrapperId L} {seed : ℤ}
    (hm : take k g.network = some (.runOne id seed, rest))
    (hr : ∀ H, Cluster.load job = .ok H → answer job (saSolver H) seed ≠ none) :
    ∃ g' r, Cluster.step job (.deliver k) g = some g' ∧
      g' = { g with network := rest ++ [.result id seed r] } := by
  have hcompleted := h.served.requests id seed (mem_of_take hm)
  obtain ⟨H, hload, hsolver⟩ := h.theSolver (h.mem_names hcompleted)
  obtain ⟨r, hanswer⟩ := Option.ne_none_iff_exists'.mp (hr H hload)
  refine ⟨_, r, ?_, rfl⟩
  rw [Cluster.step, hm, Option.bind_some]
  show runOneStep job id seed { g with network := rest } = _
  rw [runOneStep, hsolver, Option.bind_some, hanswer, Option.map_some]

theorem handles_result (h : Sound job g) {id : WrapperId L} {seed : ℤ} {r : Result K}
    (hm : take k g.network = some (.result id seed r, rest)) :
    ∃ g' j, Cluster.step job (.deliver k) g = some g' ∧
      (g.console.wrappedSolver.asyncResults id)[j]? = some ⟨seed, none⟩ ∧
      g' = { g with
        console := { g.console with
          wrappedSolver := Wrapper.makeReady id j seed r g.console.wrappedSolver }
        network := rest } := by
  have hpos := inFlight_pos (f := resultOf) (mem_of_take hm) rfl
  have hwaiting : 0 < g.console.wrappedSolver.waiting (id, seed) := by
    rw [h.served.conserved]
    omega
  obtain ⟨t, ht, hwaits⟩ := List.countP_pos_iff.mp hwaiting
  have hsome : ((g.console.wrappedSolver.asyncResults id).findIdx?
      (Task.waitsFor seed)).isSome := by
    rw [List.findIdx?_isSome, List.any_eq_true]
    exact ⟨t, ht, hwaits⟩
  obtain ⟨j, hj⟩ := Option.isSome_iff_exists.mp hsome
  -- a future can only wait once `spawn` has been called
  have hat : g.console.mainAt = .spawning := by
    by_contra hat
    rw [(h.ordered.before hat).idle.queues id] at ht
    cases ht
  have hstep := step_complete job r hat (getElem?_of_findIdx? hj)
  refine ⟨_, j, ?_, getElem?_of_findIdx? hj, rfl⟩
  rw [Cluster.step, hm, Option.bind_some]
  show Option.bind _ _ = _
  rw [hj, Option.bind_some]
  apply consoleStep_eq_some.mpr
  refine ⟨fun huses => ?_, _, [], hstep, requests_same rfl rfl, ?_⟩
  · cases huses
  · simp only [List.append_nil]

/-- The main thread loads the Hamiltonian. -/
theorem loads {H : HamiltonianType K} (hat : g.console.mainAt = .stated)
    (hnone : g.hamiltonian = none) (hload : Cluster.load job = .ok H) :
    Cluster.step job (.console .main) g = some { g with hamiltonian := some H } := by
  show localStep job .main g = _
  rw [localStep, if_neg (by simp [ConsoleEvent.internal]), if_pos ⟨rfl, hat, by simp [hnone]⟩,
    hload]

/-- Every other step of rank `0` that needs no message has all it needs. -/
theorem handles_internal (h : Sound job g) {e : ConsoleEvent L} (he : e.internal = true)
    (hloaded : ¬ (e = .main ∧ g.console.mainAt = .stated ∧ g.hamiltonian.isNone))
    {c : Console L (Result K)}
    (hc : Console.step (fun _ _ => none) job.here job.osThreads job.numReps e g.console
      = some c) :
    ∃ g', Cluster.step job (.console e) g = some g' ∧ g'.console = c := by
  show ∃ g', localStep job e g = some g' ∧ g'.console = c
  rw [localStep, if_neg (by simp [he]), if_neg hloaded]
  apply exists_consoleStep (h.hasSolver he hc) hc
  have hsome : job.here ∈ g.console.started → g.hamiltonian ≠ none := fun hl =>
    h.joined.needed (List.ne_nil_of_mem hl)
  cases Console.step_happens hc with
  | initHere hat =>
      refine Or.inr fun hnone => hloaded ⟨rfl, hat, ?_⟩
      rw [hnone, Option.isNone_none]
  | visitConnecting hat =>
      have hmain := h.joined.cycle.monitored (by simp [hat])
      exact Or.inr (hsome (h.joined.cycle.ownStart.mpr (le_trans (by decide) hmain)))
  | connecting | state | wait | startMonitor | startPoll | register | callSpawn | passStart
  | passEnd | visitInvalid | visit | initDone | solver => exact Or.inl rfl

end Sound

/-- **Every message is handled.** In every state that a run on any number of localities
reaches, by whatever order of the steps and of the messages: a message in flight can be
delivered, unless it waits for a lock of rank `0` or its solve does not return; every step
of rank `0` finds what it needs, unless the input file cannot be read; a node is asked for
its solver wrapper at most once; and every wrapped solver is one on the Hamiltonian of the
input file. -/
theorem every_message_is_handled (job : Job L K G) (nranks : ℕ)
    (hreach : Reaches (step job) (fun _ => True) (initial job nranks) g) :
    (∀ k m rest, take k g.network = some (m, rest) →
      Waits job g m ∨ ∃ g', step job (.deliver k) g = some g') ∧
    (∀ e c, e.internal = true →
      Console.step (fun _ _ => none) job.here job.osThreads job.numReps e g.console = some c →
      (∃ g', step job (.console e) g = some g') ∨
        (e = .main ∧ g.console.mainAt = .stated ∧ ∃ err, load job = .error err)) ∧
    (∀ l, inFlight initializeOf l g.network + inFlight initializedOf l g.network
      + g.console.completed.count l ≤ 1) ∧
    ∀ l theSolver, (g.nodes l).theSolver = some theSolver →
      ∃ H, load job = .ok H ∧ theSolver = saSolver H := by
  have h := (sound_initial nranks).reaches hreach
  refine ⟨?_, ?_, ?_, ?_⟩
  · intro k m rest hm
    by_cases hwaits : Waits job g m
    · exact Or.inl hwaits
    · apply Or.inr
      cases m with
      | connecting l =>
          obtain ⟨g', hg', -⟩ := h.handles_connecting hm (by simpa [Waits] using hwaits)
          exact ⟨g', hg'⟩
      | initializeSolverWrapper l H =>
          obtain ⟨g', hg', -⟩ := h.handles_initialize hm
          exact ⟨g', hg'⟩
      | initialized l =>
          simp only [Waits, not_or, Bool.not_eq_true] at hwaits
          obtain ⟨g', hg', -⟩ := h.handles_initialized hm hwaits.1 hwaits.2
          exact ⟨g', hg'⟩
      | runOne id seed =>
          obtain ⟨g', -, hg', -⟩ := h.handles_runOne hm fun H hH hnone => hwaits ⟨H, hH, hnone⟩
          exact ⟨g', hg'⟩
      | result id seed r =>
          obtain ⟨g', -, hg', -⟩ := h.handles_result hm
          exact ⟨g', hg'⟩
  · intro e c he hc
    by_cases hloaded : e = .main ∧ g.console.mainAt = .stated ∧ g.hamiltonian.isNone
    · obtain ⟨rfl, hat, hnone⟩ := hloaded
      cases hload : load job with
      | ok H => exact Or.inl ⟨_, Sound.loads hat (Option.isNone_iff_eq_none.mp hnone) hload⟩
      | error err => exact Or.inr ⟨rfl, hat, err, rfl⟩
    · obtain ⟨g', hg', -⟩ := h.handles_internal he hloaded hc
      exact Or.inl ⟨g', hg'⟩
  · intro l
    rw [h.joined.initializing l]
    exact List.nodup_iff_count_le_one.mp h.joined.cycle.startedOnce l
  · intro l theSolver hsolver
    obtain ⟨H, hH, rfl⟩ := h.joined.of_theSolver hsolver
    exact ⟨H, h.joined.loaded H hH, rfl⟩

/-- The sample lattice, for two repetitions. -/
def sampleJob : Job ℕ ℚ ℕ where
  here := 0
  osThreads := 1
  stod := stodInteger
  text := sampleText
  fuel := 4
  lib := sampleLib
  beta0 := 1 / 10
  beta1 := 3
  Ns := 2
  numReps := 2

/-- Locality `1` joins between the calls of `setSolverIds` and `spawn`, and both
repetitions are launched on it. -/
def sampleRun : List (ClusterEvent ℕ) :=
  [.notify 1, .console .main, .console .main, .console .main, .deliver 1, .deliver 1,
    .deliver 0, .console .main, .console .main, .console .main, .console .monitor,
    .console .monitor, .console .monitor, .console .monitor, .console .main, .deliver 0,
    .deliver 0, .console .main, .console (.solver .spawn), .console (.solver .spawn),
    .console (.solver .spawn), .console (.solver .spawn), .console (.solver .spawn),
    .console (.solver .spawn)]

/-- The two requests are in flight, and can be delivered. -/
theorem every_message_is_handled_sample :
    ∃ g : Cluster ℕ ℚ, g.network.length = 2 ∧ ∀ k m rest, take k g.network = some (m, rest) →
      Waits sampleJob g m ∨ ∃ g', step sampleJob (.deliver k) g = some g' := by
  have hrun : ((after (step sampleJob) sampleRun (initial sampleJob 2)).map
      fun g => g.network.length) = some 2 := by decide +kernel
  obtain ⟨g, hg, hlength⟩ := Option.map_eq_some_iff.mp hrun
  exact ⟨g, hlength, (every_message_is_handled sampleJob 2 ⟨sampleRun, by simp, hg⟩).1⟩

/-! ## Every solve can be answered -/

omit [LinearOrder L] in
/-- A solve returns on a file with fewer than `2 ^ 32` sites. -/
theorem answer_ne_none [IsStrictOrderedRing K] {H : HamiltonianType K} (hload : load job = .ok H)
    (hN : H.size < 2 ^ 32) (hf : H.size < job.fuel) (hNs : job.Ns < 2 ^ 32)
    (hfs : job.Ns < job.fuel) (seed : ℤ) : answer job (saSolver H) seed ≠ none := by
  obtain ⟨-, hI⟩ := (hamiltonianType_built job.fuel job.stod job.text).of_ok hload
  exact Option.ne_none_iff_exists'.mpr
    (exists_asyncSolve hI job.lib job.beta0 job.beta1 hN hf hNs hfs seed)

/-- The steps that are still to come for the solves in flight. -/
def stepsToAnswer (g : Cluster L K) : ℕ :=
  2 * g.network.countP (fun m => (requestOf m).isSome)
    + g.network.countP (fun m => (resultOf m).isSome)

omit [Field K] [LinearOrder K] in
theorem countP_take {p : Message L K → Bool} {k : ℕ} {m : Message L K}
    {rest : List (Message L K)} (hm : take k g.network = some (m, rest)) :
    g.network.countP p = rest.countP p + if p m then 1 else 0 := by
  rw [(take_perm hm).countP_eq, List.countP_cons]

/-- While a request or an answer is in flight, a delivery comes nearer to the end. -/
theorem Sound.exists_delivery (h : Sound job g)
    (hsolve : ∀ H, Cluster.load job = .ok H → ∀ seed, answer job (saSolver H) seed ≠ none)
    (hmore : stepsToAnswer g ≠ 0) :
    ∃ k g', Cluster.step job (.deliver k) g = some g' ∧
      g'.console.wrappedSolver.launched = g.console.wrappedSolver.launched ∧
      stepsToAnswer g' < stepsToAnswer g := by
  by_cases hrequest : 0 < g.network.countP fun m => (requestOf m).isSome
  · obtain ⟨m, hmem, hm⟩ := List.countP_pos_iff.mp hrequest
    obtain ⟨k, rest, htake⟩ := exists_take hmem
    cases m with
    | runOne id seed =>
        obtain ⟨g', r, hstep, rfl⟩ := h.handles_runOne htake fun H hH => hsolve H hH seed
        refine ⟨k, _, hstep, rfl, ?_⟩
        rw [stepsToAnswer, stepsToAnswer, countP_take htake, countP_take htake,
          List.countP_append, List.countP_append]
        show 2 * (_ + 0) + (_ + 1) < 2 * (_ + 1) + (_ + 0)
        omega
    | connecting | initializeSolverWrapper | initialized | result => cases hm
  · have hresult : 0 < g.network.countP fun m => (resultOf m).isSome := by
      rw [stepsToAnswer] at hmore
      omega
    obtain ⟨m, hmem, hm⟩ := List.countP_pos_iff.mp hresult
    obtain ⟨k, rest, htake⟩ := exists_take hmem
    cases m with
    | result id seed r =>
        obtain ⟨g', j, hstep, -, rfl⟩ := h.handles_result htake
        refine ⟨k, _, hstep, rfl, ?_⟩
        rw [stepsToAnswer, stepsToAnswer, countP_take htake, countP_take htake]
        show 2 * rest.countP (fun m => (requestOf m).isSome)
            + rest.countP (fun m => (resultOf m).isSome) < 2 * (_ + 0) + (_ + 1)
        omega
    | connecting | initializeSolverWrapper | initialized | runOne => cases hm

/-- When no request and no answer is in flight, no future waits. -/
theorem Sound.ready_of_stepsToAnswer (h : Sound job g) (hdone : stepsToAnswer g = 0)
    {id : WrapperId L} {t : Task (Result K)}
    (ht : t ∈ g.console.wrappedSolver.asyncResults id) : t.value.isSome := by
  have hwaiting := h.served.conserved (id, t.seed)
  rw [stepsToAnswer] at hdone
  have hrequests : inFlight requestOf (id, t.seed) g.network = 0 := by
    apply inFlight_eq_zero
    intro m hm
    have hnone := List.countP_eq_zero.mp
      (show g.network.countP (fun m => (requestOf m).isSome) = 0 by omega) m hm
    simpa using hnone
  have hresults : inFlight resultOf (id, t.seed) g.network = 0 := by
    apply inFlight_eq_zero
    intro m hm
    have hnone := List.countP_eq_zero.mp
      (show g.network.countP (fun m => (resultOf m).isSome) = 0 by omega) m hm
    simpa using hnone
  rw [hrequests, hresults] at hwaiting
  have hready := List.countP_eq_zero.mp hwaiting t ht
  simpa [Task.waitsFor, Option.isSome_iff_ne_none] using hready

/-- **Every solve can be answered.** On a file with fewer than `2 ^ 32` sites, and with
fewer than `2 ^ 32` sweeps: from every state that a run reaches deliveries alone lead to a
state in which no more solves have been launched, and every future in the queues of rank
`0` is ready. -/
theorem every_solve_can_be_answered [IsStrictOrderedRing K] (job : Job L K G) (nranks : ℕ)
    (hN : ∀ H, load job = .ok H → H.size < 2 ^ 32 ∧ H.size < job.fuel) (hNs : job.Ns < 2 ^ 32)
    (hfs : job.Ns < job.fuel)
    (hreach : Reaches (step job) (fun _ => True) (initial job nranks) g) :
    ∃ g', Reaches (step job) (fun e => ∃ k, e = .deliver k) g g' ∧
      g'.console.wrappedSolver.launched = g.console.wrappedSolver.launched ∧
      ∀ id, ∀ t ∈ g'.console.wrappedSolver.asyncResults id, t.value.isSome := by
  have h := (sound_initial nranks).reaches hreach
  have hsolve : ∀ H, load job = .ok H → ∀ seed, answer job (saSolver H) seed ≠ none :=
    fun H hload => answer_ne_none hload (hN H hload).1 (hN H hload).2 hNs hfs
  obtain ⟨g', hrun, ⟨hsound, hlaunched⟩, hdone⟩ : ∃ g',
      Reaches (step job) (fun e => ∃ k, e = .deliver k) g g' ∧
      (Sound job g' ∧ g'.console.wrappedSolver.launched = g.console.wrappedSolver.launched) ∧
      stepsToAnswer g' = 0 := by
    apply exists_reaches_of_measure
      (fun u => Sound job u ∧ u.console.wrappedSolver.launched = g.console.wrappedSolver.launched)
      (fun u => stepsToAnswer u = 0) stepsToAnswer
    · rintro u ⟨hu, hlaunched⟩ hmore
      obtain ⟨k, v, hstep, hsame, hlt⟩ := hu.exists_delivery hsolve hmore
      exact ⟨.deliver k, v, ⟨k, rfl⟩, hstep,
        ⟨hu.step (step_happens hstep), hsame.trans hlaunched⟩, hlt⟩
    · exact ⟨h, rfl⟩
  exact ⟨g', hrun, hlaunched, fun id t ht => hsound.ready_of_stepsToAnswer hdone ht⟩

/-- Both repetitions of the sample can be answered. -/
theorem every_solve_can_be_answered_sample :
    ∃ g : Cluster ℕ ℚ, g.console.wrappedSolver.launched = [(⟨1⟩, 0), (⟨1⟩, 1)] ∧
      ∀ id, ∀ t ∈ g.console.wrappedSolver.asyncResults id, t.value.isSome := by
  have hrun : ((after (step sampleJob) sampleRun (initial sampleJob 2)).map
      fun g => g.console.wrappedSolver.launched) = some [(⟨1⟩, 0), (⟨1⟩, 1)] := by decide +kernel
  obtain ⟨g, hg, hlaunched⟩ := Option.map_eq_some_iff.mp hrun
  have hload : load sampleJob = .ok sampleH := by decide
  have hN : ∀ H, load sampleJob = .ok H → H.size < 2 ^ 32 ∧ H.size < sampleJob.fuel := by
    intro H hH
    cases hload.symm.trans hH
    decide
  obtain ⟨g', -, hsame, hready⟩ := every_solve_can_be_answered sampleJob 2 hN (by decide)
    (by decide) ⟨sampleRun, by simp, hg⟩
  exact ⟨g', hsame.trans hlaunched, hready⟩

end Cluster

end SpinGlass
