import SpinGlass.Cluster
import SpinGlass.Registry

/-!
# Joining — how a node becomes part of a run

A node joins by three messages: its own `CONNECTING`, the action
`initialize_solver_wrapper` and the return of the action. `Joined` counts
them: at every moment a node that has sent `CONNECTING` is in one stage, and
`initialize_solver_wrapper` has been sent to it as often as its `init_node`
has been started, which is at most once.
-/

namespace SpinGlass

open Transition Network

/-! ## Tokens -/

namespace Message

variable {L K : Type}

def connectingOf : Message L K → Option L
  | .connecting l => some l
  | _ => none

def initializeOf : Message L K → Option L
  | .initializeSolverWrapper l _ => some l
  | _ => none

def initializedOf : Message L K → Option L
  | .initialized l => some l
  | _ => none

def requestOf : Message L K → Option (WrapperId L × ℤ)
  | .runOne id seed => some (id, seed)
  | _ => none

def resultOf : Message L K → Option (WrapperId L × ℤ)
  | .result id seed _ => some (id, seed)
  | _ => none

section Tokens

variable [DecidableEq L] {net : List (Message L K)}

theorem mem_of_connectingOf {l : L} (h : 0 < inFlight connectingOf l net) :
    .connecting l ∈ net := by
  obtain ⟨m, hm, heq⟩ := exists_of_inFlight_pos h
  cases m with
  | connecting l' =>
      cases heq
      exact hm
  | initializeSolverWrapper | initialized | runOne | result => cases heq

theorem mem_of_initializeOf {l : L} (h : 0 < inFlight initializeOf l net) :
    ∃ H, .initializeSolverWrapper l H ∈ net := by
  obtain ⟨m, hm, heq⟩ := exists_of_inFlight_pos h
  cases m with
  | initializeSolverWrapper l' H =>
      cases heq
      exact ⟨H, hm⟩
  | connecting | initialized | runOne | result => cases heq

theorem mem_of_initializedOf {l : L} (h : 0 < inFlight initializedOf l net) :
    .initialized l ∈ net := by
  obtain ⟨m, hm, heq⟩ := exists_of_inFlight_pos h
  cases m with
  | initialized l' =>
      cases heq
      exact hm
  | connecting | initializeSolverWrapper | runOne | result => cases heq

theorem mem_of_requestOf {id : WrapperId L} {seed : ℤ}
    (h : 0 < inFlight requestOf (id, seed) net) : .runOne id seed ∈ net := by
  obtain ⟨m, hm, heq⟩ := exists_of_inFlight_pos h
  cases m with
  | runOne id' seed' =>
      cases heq
      exact hm
  | connecting | initializeSolverWrapper | initialized | result => cases heq

theorem mem_of_resultOf {id : WrapperId L} {seed : ℤ}
    (h : 0 < inFlight resultOf (id, seed) net) : ∃ r, .result id seed r ∈ net := by
  obtain ⟨m, hm, heq⟩ := exists_of_inFlight_pos h
  cases m with
  | result id' seed' r =>
      cases heq
      exact ⟨r, hm⟩
  | connecting | initializeSolverWrapper | initialized | runOne => cases heq

end Tokens

end Message

namespace ConsoleEvent

variable {L : Type}

/-- The locality whose `CONNECTING` arrives. -/
def arrival : ConsoleEvent L → List L
  | .connecting l => [l]
  | _ => []

/-- The locality whose `init_node` completes. -/
def completion : ConsoleEvent L → List L
  | .initDone l => [l]
  | _ => []

theorem arrival_of_internal {e : ConsoleEvent L} (h : e.internal = true) : e.arrival = [] := by
  cases e with
  | connecting l => cases h
  | main | monitor | initDone | solver => rfl

theorem completion_of_internal {e : ConsoleEvent L} (h : e.internal = true) :
    e.completion = [] := by
  cases e with
  | initDone l => cases h
  | main | monitor | connecting | solver => rfl

end ConsoleEvent

namespace Wrapper

variable {I R : Type} [DecidableEq I] {runOne : I → ℤ → Option R} {e : Event I}
  {w w' : Wrapper I R}

/-- The log of the launches only grows, by launches on the solvers of the loop. -/
theorem Happens.launched (h : Happens runOne e w w') :
    ∃ new, w'.launched = w.launched ++ new ∧
      ∀ p ∈ new, ∃ rest enough, w.spawnAt = .launch rest enough ∧ p.1 ∈ rest := by
  rcases h.books with hsame | ⟨s, rest, enough, offset, hat, -, -, hsame⟩ |
    ⟨s, seed, r, tasks, -, rfl⟩ | ⟨s, j, seed, r, -, -, rfl⟩
  · exact ⟨[], by rw [hsame.launched, List.append_nil], by simp⟩
  · refine ⟨[(s, seedArgument w.seed offset)], hsame.launched, ?_⟩
    intro p hp
    rw [List.mem_singleton.mp hp]
    exact ⟨s :: rest, enough, hat, List.mem_cons_self ..⟩
  · exact ⟨[], (List.append_nil _).symm, by simp⟩
  · exact ⟨[], (List.append_nil _).symm, by simp⟩

end Wrapper

namespace Console

variable {L R : Type} [LinearOrder L] {runOne : WrapperId L → ℤ → Option R} {here : L}
  {osThreads numReps : ℕ} {e : ConsoleEvent L} {c c' : Console L R}

/-- **The logs of the console**: an arrival and a completion are entered by their events,
and what is started or launched is added at the end. -/
theorem Happens.logs (h : Happens runOne here osThreads numReps e c c') :
    c'.connected = c.connected ++ e.arrival ∧ c'.completed = c.completed ++ e.completion ∧
      (∃ new, c'.started = c.started ++ new) ∧
      ∃ new, c'.wrappedSolver.launched = c.wrappedSolver.launched ++ new := by
  have hnil : ∀ {α : Type} (l : List α), l = l ++ [] := fun l => (List.append_nil l).symm
  cases h with
  | connecting => exact ⟨rfl, hnil _, ⟨[], hnil _⟩, ⟨[], hnil _⟩⟩
  | initHere | visitConnecting => exact ⟨hnil _, hnil _, ⟨_, rfl⟩, ⟨[], hnil _⟩⟩
  | initDone => exact ⟨hnil _, rfl, ⟨[], hnil _⟩, ⟨[], hnil _⟩⟩
  | solver _ hw =>
      obtain ⟨new, hnew, -⟩ := hw.launched
      exact ⟨hnil _, hnil _, ⟨[], hnil _⟩, ⟨new, hnew⟩⟩
  | state | wait | startMonitor | startPoll | register | callSpawn | passStart | passEnd
  | visitInvalid | visit => exact ⟨hnil _, hnil _, ⟨[], hnil _⟩, ⟨[], hnil _⟩⟩

end Console

namespace Cluster

open Message ConsoleEvent

variable {L K G : Type} [LinearOrder L] [Field K] [LinearOrder K] {job : Job L K G}
  {g g' : Cluster L K}

/-! ## What the console sends and what it takes -/

/-- The messages for the localities `started` and the solves `launched`. -/
structure Requested (hamiltonian : Option (HamiltonianType K)) (started : List L)
    (launched : List (WrapperId L × ℤ)) (ms : List (Message L K)) : Prop where
  connecting : ∀ l, inFlight connectingOf l ms = 0
  starting : ∀ l, inFlight initializeOf l ms = started.count l
  initialized : ∀ l, inFlight initializedOf l ms = 0
  request : ∀ p, inFlight requestOf p ms = launched.count p
  result : ∀ p, inFlight resultOf p ms = 0
  payload : ∀ l H, .initializeSolverWrapper l H ∈ ms → hamiltonian = some H
  needed : started ≠ [] → hamiltonian ≠ none

omit [Field K] [LinearOrder K] in
theorem requested_solves (hamiltonian : Option (HamiltonianType K))
    (launched : List (WrapperId L × ℤ)) :
    Requested hamiltonian ([] : List L) launched
      (launched.map fun p => Message.runOne p.1 p.2) := by
  constructor
  · exact fun l => inFlight_map_none (fun _ => rfl) _
  · exact fun l => inFlight_map_none (fun _ => rfl) _
  · exact fun l => inFlight_map_none (fun _ => rfl) _
  · intro p
    apply inFlight_map
    intro p
    rfl
  · exact fun p => inFlight_map_none (fun _ => rfl) _
  · simp
  · simp

omit [Field K] [LinearOrder K] in
/-- The actions of a step are those of what it has added to the logs. -/
theorem requests_spec {hamiltonian : Option (HamiltonianType K)} {c c' : Console L (Result K)}
    {started : List L} {launched : List (WrapperId L × ℤ)} {ms : List (Message L K)}
    (hstarted : c'.started = c.started ++ started)
    (hlaunched : c'.wrappedSolver.launched = c.wrappedSolver.launched ++ launched)
    (h : requests hamiltonian c c' = some ms) : Requested hamiltonian started launched ms := by
  have hsolves := requested_solves hamiltonian launched
  unfold requests at h
  rw [hstarted, hlaunched, List.drop_left, List.drop_left] at h
  cases started with
  | nil =>
      cases h
      exact hsolves
  | cons l started =>
      cases hamiltonian with
      | none => cases h
      | some H =>
          cases h
          constructor
          · intro l'
            rw [inFlight_append, hsolves.connecting, inFlight_map_none fun _ => rfl]
          · intro l'
            rw [inFlight_append, hsolves.starting, List.count_nil, Nat.add_zero]
            apply inFlight_map
            intro l
            rfl
          · intro l'
            rw [inFlight_append, hsolves.initialized, inFlight_map_none fun _ => rfl]
          · intro p
            rw [inFlight_append, hsolves.request, inFlight_map_none fun _ => rfl,
              Nat.zero_add]
          · intro p
            rw [inFlight_append, hsolves.result, inFlight_map_none fun _ => rfl]
          · intro l' H' hmem
            rcases List.mem_append.mp hmem with hmem | hmem
            · obtain ⟨l'', -, heq⟩ := List.mem_map.mp hmem
              rw [(Message.initializeSolverWrapper.inj heq).2]
            · obtain ⟨p, -, heq⟩ := List.mem_map.mp hmem
              cases heq
          · simp

omit [Field K] [LinearOrder K] in
/-- What the console takes off the network is what its step enters into the logs. -/
theorem Cause.taken {ev : ClusterEvent L} {e : ConsoleEvent L} {value : Option (Result K)}
    {rest : List (Message L K)} (h : Cause job g ev e value rest) :
    (∀ l, inFlight connectingOf l g.network = inFlight connectingOf l rest + e.arrival.count l) ∧
    (∀ l, inFlight initializeOf l g.network = inFlight initializeOf l rest) ∧
    (∀ l, inFlight initializedOf l g.network
      = inFlight initializedOf l rest + e.completion.count l) ∧
    (∀ p, inFlight requestOf p g.network = inFlight requestOf p rest) ∧
    ∀ m ∈ rest, m ∈ g.network := by
  cases h with
  | internal he =>
      rw [arrival_of_internal he, completion_of_internal he]
      simp
  | connecting hm =>
      refine ⟨?_, ?_, ?_, ?_, fun m => mem_of_mem_rest hm⟩ <;> intro t <;> rw [inFlight_take hm]
        <;> simp [connectingOf, initializeOf, initializedOf, requestOf, arrival, completion,
          List.count_singleton]
  | initialized hm hname =>
      refine ⟨?_, ?_, ?_, ?_, fun m => mem_of_mem_rest hm⟩ <;> intro t <;> rw [inFlight_take hm]
        <;> simp [connectingOf, initializeOf, initializedOf, requestOf, arrival, completion,
          List.count_singleton]
  | result hm hj =>
      refine ⟨?_, ?_, ?_, ?_, fun m => mem_of_mem_rest hm⟩ <;> intro t <;> rw [inFlight_take hm]
        <;> simp [connectingOf, initializeOf, initializedOf, requestOf, arrival, completion]

/-! ## The invariant -/

/-- Where the nodes are on their way into the run. -/
structure Joined (job : Job L K G) (g : Cluster L K) : Prop where
  cycle : Console.Cycle job.here job.osThreads g.console
  loaded : ∀ H, g.hamiltonian = some H → load job = .ok H
  needed : g.console.started ≠ [] → g.hamiltonian ≠ none
  silent : (g.nodes job.here).notified = false
  connecting : ∀ l, inFlight connectingOf l g.network + g.console.connected.count l
    = (g.nodes l).notified.toNat
  initializing : ∀ l, inFlight initializeOf l g.network + inFlight initializedOf l g.network
    + g.console.completed.count l = g.console.started.count l
  named : ∀ l, inFlight initializedOf l g.network + g.console.completed.count l
    = g.names.count l
  payload : ∀ l H, .initializeSolverWrapper l H ∈ g.network → g.hamiltonian = some H
  solver : ∀ l, (g.nodes l).theSolver
    = if l ∈ g.names then g.hamiltonian.map saSolver else none

namespace Joined

theorem notify (h : Joined job g) {l : L} (hne : l ≠ job.here)
    (hl : (g.nodes l).notified = false) :
    Joined job { g with
      nodes := Function.update g.nodes l { g.nodes l with notified := true }
      network := g.network ++ [.connecting l] } := by
  refine { h with
    silent := ?_, connecting := ?_, initializing := ?_, named := ?_, payload := ?_, solver := ?_ }
  · simpa [Function.update_of_ne (Ne.symm hne)] using h.silent
  · intro l'
    have hcount := h.connecting l'
    rw [inFlight_append]
    by_cases heq : l' = l
    · subst heq
      rw [hl] at hcount
      simp [connectingOf]
      simp at hcount
      omega
    · simp [connectingOf, Ne.symm heq, Function.update_of_ne heq, hcount]
  · intro l'
    simpa [initializeOf, initializedOf] using h.initializing l'
  · intro l'
    simpa [initializedOf] using h.named l'
  · intro l' H hmem
    refine h.payload l' H ?_
    simpa using hmem
  · intro l'
    by_cases heq : l' = l
    · subst heq
      simpa using h.solver l'
    · simpa [Function.update_of_ne heq] using h.solver l'

/-- The Hamiltonian is loaded: no node has been asked to use it. -/
theorem load (h : Joined job g) {H : HamiltonianType K} (hnone : g.hamiltonian = none)
    (hload : Cluster.load job = .ok H) : Joined job { g with hamiltonian := some H } := by
  have hstarted : g.console.started = [] := by
    by_contra hne
    exact h.needed hne hnone
  have hnames : g.names = [] := by
    apply List.eq_nil_iff_forall_not_mem.mpr
    intro l hl
    have hpos := List.count_pos_iff.mpr hl
    have hinit := h.initializing l
    have hnamed := h.named l
    rw [hstarted, List.count_nil] at hinit
    omega
  refine { h with loaded := ?_, needed := fun _ => by simp, payload := ?_, solver := ?_ }
  · rintro H' heq
    cases heq
    exact hload
  · intro l H' hmem
    have hsome := h.payload l H' hmem
    rw [hnone] at hsome
    cases hsome
  · intro l
    rw [h.solver l, hnames, if_neg (List.not_mem_nil), if_neg (List.not_mem_nil)]

/-- A step of the console moves tokens between the network and its logs. -/
theorem console (h : Joined job g) {ev : ClusterEvent L} {e : ConsoleEvent L}
    {value : Option (Result K)} {rest ms : List (Message L K)} {c : Console L (Result K)}
    (hcause : Cause job g ev e value rest)
    (hc : Console.step (fun _ _ => value) job.here job.osThreads job.numReps e g.console = some c)
    (hms : requests g.hamiltonian g.console c = some ms) :
    Joined job { g with console := c, network := rest ++ ms } := by
  have hhappens := Console.step_happens hc
  obtain ⟨hconnected, hcompleted, ⟨started, hstarted⟩, ⟨launched, hlaunched⟩⟩ := hhappens.logs
  have hsent := requests_spec hstarted hlaunched hms
  obtain ⟨htaken, hstarts, hdone, -, hmem⟩ := hcause.taken
  constructor
  · exact h.cycle.step hhappens
  · exact h.loaded
  · intro hne
    by_cases hold : g.console.started = []
    · apply hsent.needed
      rintro rfl
      exact hne (by rw [hstarted, hold, List.append_nil])
    · exact h.needed hold
  · exact h.silent
  · intro l
    have hcount := h.connecting l
    have ht := htaken l
    show inFlight connectingOf l (rest ++ ms) + c.connected.count l = (g.nodes l).notified.toNat
    rw [hconnected, inFlight_append, hsent.connecting, List.count_append]
    omega
  · intro l
    have hcount := h.initializing l
    have ht := hstarts l
    have hd := hdone l
    rw [hcompleted, hstarted, inFlight_append, inFlight_append, hsent.starting,
      hsent.initialized, List.count_append, List.count_append]
    omega
  · intro l
    have hcount := h.named l
    have hd := hdone l
    show inFlight initializedOf l (rest ++ ms) + c.completed.count l = g.names.count l
    rw [hcompleted, inFlight_append, hsent.initialized, List.count_append]
    omega
  · intro l H hin
    rcases List.mem_append.mp hin with hin | hin
    · exact h.payload l H (hmem _ hin)
    · exact hsent.payload l H hin
  · exact h.solver

/-- A node creates its solver wrapper. -/
theorem createSolver (h : Joined job g) {k : ℕ} {l : L} {H : HamiltonianType K}
    {rest : List (Message L K)}
    (hm : take k g.network = some (.initializeSolverWrapper l H, rest)) :
    Joined job { g with
      nodes := Function.update g.nodes l { g.nodes l with theSolver := some (saSolver H) }
      names := g.names ++ [l]
      network := rest ++ [.initialized l] } := by
  have hH := h.payload l H (mem_of_take hm)
  refine { h with
    silent := ?_, connecting := ?_, initializing := ?_, named := ?_, payload := ?_, solver := ?_ }
  · have hsilent := h.silent
    by_cases heq : job.here = l
    · subst heq
      simpa using hsilent
    · simpa [Function.update_of_ne heq] using hsilent
  · intro l'
    have hcount := h.connecting l'
    rw [inFlight_take hm] at hcount
    by_cases heq : l' = l
    · subst heq
      simpa [connectingOf] using hcount
    · simpa [connectingOf, Function.update_of_ne heq] using hcount
  · intro l'
    have hcount := h.initializing l'
    rw [inFlight_take hm, inFlight_take hm] at hcount
    simp [initializeOf, initializedOf] at hcount ⊢
    omega
  · intro l'
    have hcount := h.named l'
    rw [inFlight_take hm] at hcount
    simp [initializedOf, List.count_singleton] at hcount ⊢
    omega
  · intro l' H' hmem
    rcases List.mem_append.mp hmem with hmem | hmem
    · exact h.payload l' H' (mem_of_mem_rest hm hmem)
    · simp at hmem
  · intro l'
    by_cases heq : l' = l
    · subst heq
      simp [hH]
    · simpa [Function.update_of_ne heq, heq] using h.solver l'

/-- A solve on a node. -/
theorem runOne (h : Joined job g) {k : ℕ} {id : WrapperId L} {seed : ℤ} {r : Result K}
    {rest : List (Message L K)} (hm : take k g.network = some (.runOne id seed, rest)) :
    Joined job { g with network := rest ++ [.result id seed r] } := by
  refine { h with connecting := ?_, initializing := ?_, named := ?_, payload := ?_ }
  · intro l'
    have hcount := h.connecting l'
    rw [inFlight_take hm] at hcount
    simpa [connectingOf] using hcount
  · intro l'
    have hcount := h.initializing l'
    rw [inFlight_take hm, inFlight_take hm] at hcount
    simpa [initializeOf, initializedOf] using hcount
  · intro l'
    have hcount := h.named l'
    rw [inFlight_take hm] at hcount
    simpa [initializedOf] using hcount
  · intro l' H hmem
    rcases List.mem_append.mp hmem with hmem | hmem
    · exact h.payload l' H (mem_of_mem_rest hm hmem)
    · simp at hmem

/-- A solver is one around the Hamiltonian of rank `0`. -/
theorem of_theSolver (h : Joined job g) {l : L} {theSolver : SaSolver K}
    (hsolver : (g.nodes l).theSolver = some theSolver) :
    ∃ H, g.hamiltonian = some H ∧ saSolver H = theSolver := by
  rw [h.solver l] at hsolver
  split at hsolver
  · exact Option.map_eq_some_iff.mp hsolver
  · cases hsolver

/-- **The step lemma.** -/
theorem step (h : Joined job g) {e : ClusterEvent L} (hstep : Happens job e g g') :
    Joined job g' := by
  cases hstep with
  | notify hne hnew => exact h.notify hne hnew
  | load hat hnone hload => exact h.load hnone hload
  | console hcause hc hms => exact h.console hcause hc hms
  | createSolver hm hnew => exact h.createSolver hm
  | runOne hm hsolver hr => exact h.runOne hm

end Joined

theorem joined_initial (nranks : ℕ) : Joined job (initial job nranks) := by
  constructor
  · exact Console.cycle_initial nranks
  · rintro H heq
    cases heq
  · intro hne
    exact absurd rfl hne
  · rfl
  · exact fun l => rfl
  · exact fun l => rfl
  · exact fun l => rfl
  · intro l H hmem
    cases hmem
  · exact fun l => rfl

end Cluster

end SpinGlass
