import SpinGlass.Console
import SpinGlass.Accounting
import Mathlib.Logic.Relation

/-!
# LifeCycle — the entries of `locality_states`

The entry of a locality is determined by what has happened to the locality:
its message has arrived, its `init_node` has been started, it has completed.
`Cycle` says so for every locality, and that each of these happens once; the
entry of rank `0` itself has no counter at first, but the monitor is started
later than it gets one.
-/

namespace SpinGlass

namespace Console

open Transition

variable {L R : Type} [LinearOrder L]

/-- The state of a locality, if it has an entry. -/
def status (c : Console L R) (l : L) : Option Status := (c.localityStates.find? l).map (·.state)

/-- The steps of the life of a remote locality. -/
inductive Forward : Option Status → Option Status → Prop
  | connecting : Forward none (some .connecting)
  | initializing : Forward (some .connecting) (some .initializing)
  | ready : Forward (some .initializing) (some .ready)

/-- What holds in every state of the process. -/
structure Cycle (here : L) (osThreads : ℕ) (c : Console L R) : Prop where
  remote : ∀ l, l ≠ here → c.localityStates.find? l = c.remoteEntry osThreads l
  own : c.localityStates.find? here = c.ownEntry osThreads here
  hasConnected : ∀ l ∈ c.started, l ≠ here → l ∈ c.connected
  hasStarted : ∀ l ∈ c.completed, l ∈ c.started
  notConnected : here ∉ c.connected
  ownStart : here ∈ c.started ↔ .initialising ≤ c.mainAt
  ownInit : .initialised ≤ c.mainAt → here ∈ c.completed
  monitored : c.monitorAt ≠ .off → .monitoring ≤ c.mainAt
  notThrown : c.monitorAt ≠ .thrown
  startedOnce : c.started.Nodup
  completedOnce : c.completed.Nodup

variable {runOne : WrapperId L → ℤ → Option R} {here : L} {osThreads numReps : ℕ}
  {c c' : Console L R}

theorem find?_setSolverState (locality l : L) (state : Status)
    (states : OrderedMap L (LocalityData L)) :
    (setSolverState locality state states).find? l =
      if l = locality then
        some { (states.find? locality).getD { state := state } with state := state }
      else states.find? l := by
  unfold setSolverState
  cases h : states.find? locality with
  | none => simp [OrderedMap.find?_set]
  | some data => simp [OrderedMap.find?_set]

/-! ## What the entries say -/

theorem remoteEntry_congr {l : L} (hcompleted : l ∈ c'.completed ↔ l ∈ c.completed)
    (hstarted : l ∈ c'.started ↔ l ∈ c.started)
    (hconnected : l ∈ c'.connected ↔ l ∈ c.connected) :
    c'.remoteEntry osThreads l = c.remoteEntry osThreads l := by
  simp only [remoteEntry, hcompleted, hstarted, hconnected]

theorem Cycle.notCompleted (h : Cycle here osThreads c) {l : L} (hl : l ∉ c.started) :
    l ∉ c.completed :=
  fun hmem => hl (h.hasStarted l hmem)

theorem Cycle.notStarted (h : Cycle here osThreads c) {l : L} (hne : l ≠ here)
    (hl : l ∉ c.connected) : l ∉ c.started :=
  fun hmem => hl (h.hasConnected l hmem hne)

/-- Once rank `0` is initialised, every ready entry is the one that `init_node` writes. -/
theorem Cycle.eq_readyData (h : Cycle here osThreads c) (hown : here ∈ c.completed) {l : L}
    {data : LocalityData L} (hfind : c.localityStates.find? l = some data)
    (hready : data.state = .ready) : l ∈ c.completed ∧ data = readyData osThreads l := by
  by_cases hl : l = here
  · subst hl
    rw [h.own, ownEntry, if_pos hown, Option.some.injEq] at hfind
    exact ⟨hown, hfind.symm⟩
  · rw [h.remote l hl, remoteEntry] at hfind
    split at hfind
    · rename_i hmem
      exact ⟨hmem, (Option.some.inj hfind).symm⟩
    · split at hfind
      · cases hfind
        cases hready
      · split at hfind
        · cases hfind
          cases hready
        · cases hfind

/-- A connecting entry is the one of a remote locality whose message has arrived. -/
theorem Cycle.of_connecting (h : Cycle here osThreads c) {l : L} {data : LocalityData L}
    (hfind : c.localityStates.find? l = some data) (hstate : data.state = .connecting) :
    l ≠ here ∧ l ∈ c.connected ∧ l ∉ c.started ∧ l ∉ c.completed ∧
      data = { state := .connecting } := by
  have hl : l ≠ here := by
    rintro rfl
    rw [h.own, ownEntry] at hfind
    split at hfind
    · cases hfind
      cases hstate
    · split at hfind
      · cases hfind
      · cases hfind
        cases hstate
  rw [h.remote l hl, remoteEntry] at hfind
  split at hfind
  · cases hfind
    cases hstate
  · rename_i hcompleted
    split at hfind
    · cases hfind
      cases hstate
    · rename_i hstarted
      split at hfind
      · rename_i hconnected
        exact ⟨hl, hconnected, hstarted, hcompleted, (Option.some.inj hfind).symm⟩
      · cases hfind

/-- An `init_node` that can complete has been started, and has not completed. -/
theorem Cycle.of_count (h : Cycle here osThreads c) {l : L}
    (hcount : c.completed.count l < c.started.count l) :
    l ∈ c.started ∧ l ∉ c.completed := by
  have hone := List.nodup_iff_count_le_one.mp h.startedOnce l
  refine ⟨List.count_pos_iff.mp (by omega), fun hmem => ?_⟩
  have hpos := List.count_pos_iff.mpr hmem
  omega

theorem nodup_concat {α : Type} {l : List α} {a : α} (h : l.Nodup) (ha : a ∉ l) :
    (l ++ [a]).Nodup := by
  rw [← List.concat_eq_append]
  exact h.concat ha

/-! ## The steps -/

/-- The message of a locality. -/
theorem Cycle.connecting (h : Cycle here osThreads c) {locality : L} (hne : locality ≠ here)
    (hnew : locality ∉ c.connected) :
    Cycle here osThreads { c with
      localityStates := setSolverState locality .connecting c.localityStates
      connected := c.connected ++ [locality] } := by
  have hstarted := h.notStarted hne hnew
  have hcompleted := h.notCompleted hstarted
  refine { h with
    remote := fun l hl => ?_, own := ?_, hasConnected := fun l hl hne' => ?_,
    notConnected := ?_ }
  · rw [find?_setSolverState]
    by_cases heq : l = locality
    · subst heq
      rw [if_pos rfl, h.remote l hl]
      simp [remoteEntry, hstarted, hcompleted, hnew]
    · rw [if_neg heq, h.remote l hl]
      symm
      refine remoteEntry_congr Iff.rfl Iff.rfl ?_
      simp [heq]
  · rw [find?_setSolverState, if_neg (Ne.symm hne)]
    exact h.own
  · exact List.mem_append_left _ (h.hasConnected l hl hne')
  · simp [h.notConnected, Ne.symm hne]

/-- `set_solver_state(here, READY)`. -/
theorem Cycle.state (h : Cycle here osThreads c) (hat : c.mainAt = .start) :
    Cycle here osThreads { c with
      localityStates := setSolverState here .ready c.localityStates
      mainAt := .stated } := by
  have hstarted : here ∉ c.started := by
    rw [h.ownStart, hat]
    decide
  have hcompleted := h.notCompleted hstarted
  refine { h with
    remote := fun l hl => ?_, own := ?_, ownStart := ?_, ownInit := ?_, monitored := ?_ }
  · rw [find?_setSolverState, if_neg hl]
    exact h.remote l hl
  · rw [find?_setSolverState, if_pos rfl, h.own]
    simp [ownEntry, hcompleted, hat]
  · simp only [hstarted, false_iff]
    decide
  · intro (hle : MainAt.initialised ≤ .stated)
    exact absurd hle (by decide)
  · intro hoff
    have hle := h.monitored hoff
    rw [hat] at hle
    exact absurd hle (by decide)

/-- `init_node(here)`. -/
theorem Cycle.initHere (h : Cycle here osThreads c) (hat : c.mainAt = .stated) :
    Cycle here osThreads { c.initNode here with mainAt := .initialising } := by
  have hstarted : here ∉ c.started := by
    rw [h.ownStart, hat]
    decide
  refine { h with
    remote := fun l hl => ?_, own := ?_, hasConnected := fun l hl hne => ?_,
    hasStarted := fun l hl => ?_, ownStart := ?_, ownInit := ?_, monitored := ?_,
    startedOnce := ?_ }
  · show c.localityStates.find? l = _
    rw [h.remote l hl]
    symm
    refine remoteEntry_congr Iff.rfl ?_ Iff.rfl
    simp [initNode, hl]
  · show c.localityStates.find? here = _
    rw [h.own]
    simp [ownEntry, initNode, hat]
  · rcases List.mem_append.mp hl with hl | hl
    · exact h.hasConnected l hl hne
    · exact absurd (List.mem_singleton.mp hl) hne
  · exact List.mem_append_left _ (h.hasStarted l hl)
  · simp [initNode]
  · intro (hle : MainAt.initialised ≤ .initialising)
    exact absurd hle (by decide)
  · intro hoff
    have hle := h.monitored hoff
    rw [hat] at hle
    exact absurd hle (by decide)
  · exact nodup_concat h.startedOnce hstarted

/-- The visit of a connecting entry: its `init_node` is started. -/
theorem Cycle.visitConnecting (h : Cycle here osThreads c) {l : L} {rest : List L}
    {data : LocalityData L} (hat : c.monitorAt = .pass (l :: rest))
    (hfind : c.localityStates.find? l = some data) (hstate : data.state = .connecting) :
    Cycle here osThreads { c.initNode l with
      localityStates := setSolverState l .initializing c.localityStates
      monitorAt := .pass rest } := by
  obtain ⟨hl, hconnected, hstarted, hcompleted, rfl⟩ := h.of_connecting hfind hstate
  refine { h with
    remote := fun l' hl' => ?_, own := ?_, hasConnected := fun l' hmem hne => ?_,
    hasStarted := fun l' hmem => ?_, ownStart := ?_, monitored := fun _ => ?_,
    notThrown := by simp, startedOnce := ?_ }
  · rw [find?_setSolverState]
    by_cases heq : l' = l
    · subst heq
      rw [if_pos rfl, hfind]
      simp [remoteEntry, initNode, hcompleted]
    · rw [if_neg heq]
      show c.localityStates.find? l' = _
      rw [h.remote l' hl']
      symm
      refine remoteEntry_congr Iff.rfl ?_ Iff.rfl
      simp [initNode, heq]
  · rw [find?_setSolverState, if_neg (Ne.symm hl)]
    exact h.own
  · rcases List.mem_append.mp hmem with hmem | hmem
    · exact h.hasConnected l' hmem hne
    · rw [List.mem_singleton.mp hmem]
      exact hconnected
  · exact List.mem_append_left _ (h.hasStarted l' hmem)
  · show here ∈ c.started ++ [l] ↔ .initialising ≤ c.mainAt
    rw [List.mem_append, List.mem_singleton, h.ownStart, or_iff_left (Ne.symm hl)]
  · exact h.monitored (by simp [hat])
  · exact nodup_concat h.startedOnce hstarted

/-- The end of `init_node`. -/
theorem Cycle.initDone (h : Cycle here osThreads c) {locality : L}
    (hcount : c.completed.count locality < c.started.count locality) :
    Cycle here osThreads { c with
      localityStates :=
        setSolverStateData locality (readyData osThreads locality) c.localityStates
      wrappedSolver := c.wrappedSolver.addSolverId ⟨locality⟩
      completed := c.completed ++ [locality] } := by
  obtain ⟨hstarted, hcompleted⟩ := h.of_count hcount
  refine { h with
    remote := fun l hl => ?_, own := ?_, hasStarted := fun l hl => ?_,
    ownInit := fun hle => ?_, completedOnce := ?_ }
  · rw [setSolverStateData, OrderedMap.find?_set]
    by_cases heq : l = locality
    · subst heq
      simp [remoteEntry]
    · rw [if_neg heq, h.remote l hl]
      symm
      refine remoteEntry_congr ?_ Iff.rfl Iff.rfl
      simp [heq]
  · rw [setSolverStateData, OrderedMap.find?_set]
    by_cases heq : here = locality
    · subst heq
      simp [ownEntry]
    · rw [if_neg heq, h.own]
      simp [ownEntry, heq]
  · rcases List.mem_append.mp hl with hl | hl
    · exact h.hasStarted l hl
    · rw [List.mem_singleton.mp hl]
      exact hstarted
  · exact List.mem_append_left _ (h.ownInit hle)
  · exact nodup_concat h.completedOnce hcompleted

/-- A step of the main thread after the start of `init_node(here)`. -/
theorem Cycle.later (h : Cycle here osThreads c) {at' : MainAt}
    (hbefore : .initialising ≤ c.mainAt) (hafter : .initialising ≤ at')
    (hown : here ∈ c.completed) (hmonitored : c.monitorAt ≠ .off → .monitoring ≤ at') :
    Cycle here osThreads { c with mainAt := at' } := by
  have hbefore' : c.mainAt ≠ .start := by
    rintro hat
    rw [hat] at hbefore
    exact absurd hbefore (by decide)
  have hafter' : at' ≠ .start := by
    rintro rfl
    exact absurd hafter (by decide)
  refine { h with own := ?_, ownStart := ?_, ownInit := fun _ => hown, monitored := hmonitored }
  · show c.localityStates.find? here = _
    rw [h.own]
    simp [ownEntry, hown]
  · exact ⟨fun _ => hafter, fun _ => h.ownStart.mpr hbefore⟩

/-- **The step lemma.** -/
theorem Cycle.step (h : Cycle here osThreads c) {e : ConsoleEvent L}
    (hstep : Happens runOne here osThreads numReps e c c') : Cycle here osThreads c' := by
  cases hstep with
  | connecting hne hnew hlock => exact h.connecting hne hnew
  | state hat => exact h.state hat
  | initHere hat => exact h.initHere hat
  | wait hat hown =>
      apply h.later (by rw [hat]) (by decide) hown
      intro hoff
      have hle := h.monitored hoff
      rw [hat] at hle
      exact absurd hle (by decide)
  | startMonitor hat =>
      have hown := h.ownInit (by rw [hat])
      have hlater : Cycle here osThreads { c with mainAt := .monitoring } :=
        h.later (by rw [hat]; decide) (by decide) hown fun _ => le_refl _
      exact { hlater with monitored := fun _ => le_refl _, notThrown := by simp }
  | startPoll hat =>
      have hown := h.ownInit (by rw [hat]; decide)
      exact h.later (by rw [hat]; decide) (by decide) hown fun _ => by decide
  | register hat hlock =>
      have hown := h.ownInit (by rw [hat]; decide)
      exact { h.later (by rw [hat]; decide) (by decide) hown fun _ => by decide with }
  | callSpawn hat =>
      have hown := h.ownInit (by rw [hat]; decide)
      exact { h.later (by rw [hat]; decide) (by decide) hown fun _ => by decide with }
  | passStart hat =>
      exact { h with monitored := fun _ => h.monitored (by simp [hat]), notThrown := by simp }
  | passEnd hat =>
      exact { h with monitored := fun _ => h.monitored (by simp [hat]), notThrown := by simp }
  | visitConnecting hat hfind hstate => exact h.visitConnecting hat hfind hstate
  | visitInvalid hat hfind hstate hcounter =>
      -- the monitor runs, so `init_node(here)` has given the entry of rank `0` its counter
      have hmain := h.monitored (by simp [hat])
      have hown := h.ownInit (le_trans (by decide) hmain)
      rw [(h.eq_readyData hown hfind hstate).2] at hcounter
      cases hcounter
  | visit hat hfind =>
      exact { h with monitored := fun _ => h.monitored (by simp [hat]), notThrown := by simp }
  | initDone hcount hlock hids => exact h.initDone hcount
  | solver hevent hw => exact { h with }

theorem cycle_initial (nranks : ℕ) :
    Cycle here osThreads (initial nranks osThreads : Console L R) := by
  constructor
  · intro l hl
    rfl
  · rfl
  · simp [initial]
  · simp [initial]
  · simp [initial]
  · simp only [initial, List.not_mem_nil, false_iff]
    decide
  · intro (hle : MainAt.initialised ≤ .start)
    exact absurd hle (by decide)
  · simp [initial]
  · simp [initial]
  · exact List.nodup_nil
  · exact List.nodup_nil

/-- **The run lemma.** -/
theorem Cycle.reaches (h : Cycle here osThreads c) {ok : ConsoleEvent L → Prop}
    (hreach : Reaches (Console.step runOne here osThreads numReps) ok c c') :
    Cycle here osThreads c' :=
  hreach.invariant (fun _ _ _ _ hu hstep => hu.step (step_happens hstep)) h

/-! ## The life of a node -/

/-- **One step forward**: an event moves the entry of a remote locality on by one state, or
leaves it. -/
theorem Cycle.forward (h : Cycle here osThreads c) {e : ConsoleEvent L}
    (hstep : Happens runOne here osThreads numReps e c c') {l : L} (hl : l ≠ here) :
    c'.status l = c.status l ∨ Forward (c.status l) (c'.status l) := by
  cases hstep with
  | @connecting _ locality hne hnew hlock =>
      by_cases heq : l = locality
      · subst heq
        have hstarted := h.notStarted hne hnew
        have hnone : c.status l = none := by
          simp [status, h.remote l hl, remoteEntry, hnew, hstarted, h.notCompleted hstarted]
        have hfind : c.localityStates.find? l = none := Option.map_eq_none_iff.mp hnone
        refine Or.inr ?_
        rw [hnone, status, find?_setSolverState, if_pos rfl, hfind]
        exact Forward.connecting
      · refine Or.inl ?_
        rw [status, status, find?_setSolverState, if_neg heq]
  | state hat =>
      refine Or.inl ?_
      rw [status, status, find?_setSolverState, if_neg hl]
  | @visitConnecting _ l' rest data hat hfind hstate =>
      by_cases heq : l = l'
      · subst heq
        refine Or.inr ?_
        rw [status, status, find?_setSolverState, if_pos rfl, hfind]
        simp only [Option.map_some, hstate]
        exact Forward.initializing
      · refine Or.inl ?_
        rw [status, status, find?_setSolverState, if_neg heq]
  | @initDone _ locality hcount hlock hids =>
      by_cases heq : l = locality
      · subst heq
        obtain ⟨hstarted, hcompleted⟩ := h.of_count hcount
        have hinit : c.status l = some .initializing := by
          simp [status, h.remote l hl, remoteEntry, hstarted, hcompleted]
        refine Or.inr ?_
        rw [hinit, status, setSolverStateData, OrderedMap.find?_set_self]
        exact Forward.ready
      · refine Or.inl ?_
        rw [status, status, setSolverStateData, OrderedMap.find?_set_of_ne _ heq]
  | initHere | wait | startMonitor | startPoll | register | callSpawn | passStart | passEnd
  | visitInvalid | visit | solver => exact Or.inl rfl

/-- **The life cycle of a node.** In every state that the process of rank `0` reaches: an
event moves the entry of a remote locality on by at most one state, so the entry has only
moved forward in every later state; `init_node` has been started, and has called
`addSolverId`, at most once for each locality; a remote entry is initializing just while
its `init_node` is under way; and the monitor never finds a ready entry without a
counter. -/
theorem node_life_cycle (runOne : WrapperId L → ℤ → Option R) (here : L)
    (osThreads numReps nranks : ℕ) {c : Console L R}
    (hreach : Reaches (step runOne here osThreads numReps) (fun _ => True)
      (initial nranks osThreads) c) :
    (∀ e c', step runOne here osThreads numReps e c = some c' → ∀ l, l ≠ here →
      c'.status l = c.status l ∨ Forward (c.status l) (c'.status l)) ∧
    (∀ c', Reaches (step runOne here osThreads numReps) (fun _ => True) c c' → ∀ l, l ≠ here →
      Relation.ReflTransGen Forward (c.status l) (c'.status l)) ∧
    c.started.Nodup ∧ c.completed.Nodup ∧
    (∀ l, l ≠ here → (c.status l = some .initializing ↔ l ∈ c.started ∧ l ∉ c.completed)) ∧
    (∀ l rest data, c.monitorAt = .pass (l :: rest) → c.localityStates.find? l = some data →
      data.state = .ready → data.idleCounter ≠ none) ∧
    c.monitorAt ≠ .thrown := by
  have hcycle : Cycle here osThreads c := (cycle_initial nranks).reaches hreach
  refine ⟨fun e c' hstep l hl => hcycle.forward (step_happens hstep) hl, fun c' hlater => ?_,
    hcycle.startedOnce, hcycle.completedOnce, fun l hl => ?_, ?_, hcycle.notThrown⟩
  · refine hlater.relates (P := Cycle here osThreads)
      (r := fun u v => ∀ l, l ≠ here → Relation.ReflTransGen Forward (u.status l) (v.status l))
      ?_ ?_ ?_ ?_ hcycle
    · intro e u v _ hu hstep
      exact hu.step (step_happens hstep)
    · intro u l _
      exact Relation.ReflTransGen.refl
    · intro u v w huv hvw l hl
      exact (huv l hl).trans (hvw l hl)
    · intro e u v _ hu hstep l hl
      rcases hu.forward (step_happens hstep) hl with hsame | hnext
      · rw [hsame]
      · exact Relation.ReflTransGen.single hnext
  · rw [status, hcycle.remote l hl, remoteEntry]
    by_cases hcompleted : l ∈ c.completed
    · simp [hcompleted, readyData]
    · by_cases hstarted : l ∈ c.started
      · simp [hcompleted, hstarted]
      · by_cases hconnected : l ∈ c.connected
        · simp [hcompleted, hstarted, hconnected]
        · simp [hcompleted, hstarted, hconnected]
  · intro l rest data hat hfind hready
    have hmain := hcycle.monitored (by simp [hat])
    have hown := hcycle.ownInit (le_trans (by decide) hmain)
    rw [(hcycle.eq_readyData hown hfind hready).2]
    simp [readyData]

/-- Locality `1` joins before rank `0` has started anything; the first pass of the monitor
finds it. -/
def joinEvents : List (ConsoleEvent ℕ) :=
  [.connecting 1, .main, .main, .initDone 0, .main, .main, .monitor, .monitor, .monitor]

/-- The `init_node` of locality `1` is under way. -/
theorem node_life_cycle_sample :
    ∃ c : Console ℕ ℤ, c.status 1 = some .initializing ∧ 1 ∈ c.started ∧ 1 ∉ c.completed := by
  have hrun : ((after (step (fun _ seed => some seed) 0 2 8) joinEvents (initial 0 2)).map
      fun c : Console ℕ ℤ => c.status 1) = some (some .initializing) := by decide +kernel
  obtain ⟨c, hc, hstatus⟩ := Option.map_eq_some_iff.mp hrun
  obtain ⟨-, -, -, -, hinit, -, -⟩ :=
    node_life_cycle (fun _ seed => some seed) 0 2 8 0 ⟨joinEvents, by simp, hc⟩
  exact ⟨c, hstatus, (hinit 1 (by decide)).mp hstatus⟩

end Console

end SpinGlass
