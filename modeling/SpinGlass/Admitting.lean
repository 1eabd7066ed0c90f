import SpinGlass.Distribution
import SpinGlass.Completion
import SpinGlass.Quitting
import SpinGlass.Registry

/-!
# Admitting — a node can join at any time

Nodes may join while the run is on. Once the thread of `monitor` has been
started, a locality that has not connected can always do so, become ready and
be registered as a solver: neither lock on its way is kept for ever.
-/

namespace SpinGlass

open Transition Network

namespace Wrapper

variable {I R : Type} {osThreads : ℕ} {ids : List I} {w : Wrapper I R}

theorem Calm.addSolverId (h : Calm osThreads ids w) (id : I) :
    Calm osThreads (ids ++ [id]) (w.addSolverId id) := by
  refine { h with solverIds := ?_, rest := fun rest enough hat s hs => ?_, queues := fun s hs => ?_ }
  · show w.solverIds ++ [id] = ids ++ [id]
    rw [h.solverIds]
  · exact List.mem_append_left _ (h.rest rest enough hat s hs)
  · exact h.queues s fun hmem => hs (List.mem_append_left _ hmem)

/-- The call of `spawn`. -/
theorem Untouched.calm (h : w.Untouched) (habort : w.abort = false)
    (hrunning : w.isRunning = true) (numReps : ℕ) :
    Calm w.osThreads w.solverIds (w.spawnCall numReps) :=
  ⟨habort, hrunning, rfl, rfl, by simp [Collecting, spawnCall], by simp [spawnCall],
    by simp [spawnCall], by simp [spawnCall], by simp [spawnCall], fun s _ => h.idle.queues s⟩

variable [DecidableEq I] {runOne : I → ℤ → Option R}

/-- The steps that are left in the `for` loop of `spawn`. -/
def launchLeft (w : Wrapper I R) : ℕ :=
  match w.spawnAt with
  | .launch rest _ => rest.length + 1
  | _ => 0

omit [DecidableEq I] in
theorem launchLeft_endFor (enough : Bool) (w : Wrapper I R) : (endFor enough w).launchLeft = 0 := by
  rcases endFor_cases enough w with ⟨hw, -, -⟩ | hw
  · rw [hw, launchLeft]
  · rw [hw, launchLeft]

omit [DecidableEq I] in
theorem launchLeft_endBody_le (rest : List I) (enough : Bool) (w : Wrapper I R) :
    (endBody rest enough w).launchLeft ≤ rest.length + 1 := by
  rcases endBody_cases rest enough w with ⟨hw, -⟩ | ⟨hw, -⟩
  · rw [hw, launchLeft]
  · rw [hw, launchLeft]
    exact Nat.zero_le _

theorem launchLeft_lt {w' : Wrapper I R} (hin : w.launchLeft ≠ 0)
    (hstep : Happens runOne .spawn w w') : w'.launchLeft < w.launchLeft := by
  cases hstep with
  | loopOn hat | loopEnd hat | spawnLock hat | returns hat => simp [launchLeft, hat] at hin
  | forEnd hat =>
      rw [launchLeft_endFor]
      exact Nat.pos_of_ne_zero hin
  | @launch _ s rest enough offset hat hoff hroom =>
      have hle := launchLeft_endBody_le rest false (launchOn s offset w)
      have hleft : w.launchLeft = (s :: rest).length + 1 := by rw [launchLeft, hat]
      rw [hleft, List.length_cons]
      omega
  | @full _ s rest enough hat hfull =>
      have hle := launchLeft_endBody_le rest enough w
      have hleft : w.launchLeft = (s :: rest).length + 1 := by rw [launchLeft, hat]
      rw [hleft, List.length_cons]
      omega

/-- Neither thread keeps `_solver_id_mutex` for ever: both loops under it come to an end. -/
theorem Calm.exists_unlocked (h : Calm osThreads ids w) {offset : ℤ}
    (hoffset : w.localSeedOffset = some offset) :
    ∃ w', Reaches (Wrapper.step runOne) Quiet w w' ∧ Calm osThreads ids w' ∧
      w'.localSeedOffset = some offset ∧ w'.idsLocked = false := by
  -- first the launching thread, then the collecting one
  obtain ⟨u, hreach, ⟨hu, huoffset⟩, hout⟩ : ∃ u,
      Reaches (Wrapper.step runOne) (fun e => e = .spawn) w u ∧
      (Calm osThreads ids u ∧ u.localSeedOffset = some offset) ∧ u.launchLeft = 0 := by
    apply exists_reaches_of_measure
      (fun u : Wrapper I R => Calm osThreads ids u ∧ u.localSeedOffset = some offset)
      (fun u => u.launchLeft = 0) launchLeft
    · rintro u ⟨hu, huoffset⟩ hin
      have hjoin : u.spawnAt = .join → u.collectAt = .done := by
        intro hat
        simp [launchLeft, hat] at hin
      obtain ⟨v, hstep⟩ := exists_spawnStep runOne (by rw [huoffset]; simp) hu.called hjoin
        hu.notReturned
      have hhappens := step_happens hstep
      refine ⟨.spawn, v, rfl, hstep, ⟨hu.spawnStep hhappens, ?_⟩, launchLeft_lt hin hhappens⟩
      obtain ⟨position, -, hv⟩ := hhappens.spawn_moves
      rcases hv with rfl | ⟨s, rest, enough, off, -, -, -, rfl⟩
      · exact huoffset
      · exact huoffset
    · exact ⟨h, hoffset⟩
  have hkeeps : ∀ v v' : Wrapper I R,
      Calm osThreads ids v ∧ v.localSeedOffset = some offset ∧ v.launchLeft = 0 →
      Happens runOne .collect v v' →
      Calm osThreads ids v' ∧ v'.localSeedOffset = some offset ∧ v'.launchLeft = 0 := by
    intro v v' hv hstep
    refine ⟨hv.1.collectStep hstep, ?_⟩
    cases hstep <;> exact hv.2
  obtain ⟨v, hreach', ⟨hv, hvoffset, hvout⟩, hloop⟩ :=
    exists_loopTest hkeeps ⟨hu, huoffset, hout⟩ hu.collecting
  refine ⟨v, (hreach.mono ?_).trans (hreach'.mono ?_), hv, hvoffset, ?_⟩
  · rintro e rfl
    exact trivial
  · rintro e rfl
    exact trivial
  · unfold idsLocked
    rw [hloop]
    cases hat : v.spawnAt with
    | launch rest enough => simp [launchLeft, hat] at hvout
    | idle | loopTest | lock | join | returned => rfl

/-- What never changes, and what is never taken back. -/
theorem Happens.stopped {e : Event I} {w' : Wrapper I R} (h : Happens runOne e w w') :
    w'.osThreads = w.osThreads ∧ (w'.isRunning = true → w.isRunning = true) := by
  cases e with
  | spawn =>
      obtain ⟨position, -, hw⟩ := h.spawn_moves
      rcases hw with rfl | ⟨s, rest, enough, offset, -, -, -, rfl⟩
      · exact ⟨rfl, id⟩
      · exact ⟨rfl, id⟩
  | collect | complete | addSolverId | setSolverIds | abort =>
      cases h <;> exact ⟨rfl, id⟩
  | shutdown =>
      cases h
      exact ⟨rfl, fun hrunning => by cases hrunning⟩

end Wrapper

namespace Console

variable {L R : Type} [LinearOrder L] {runOne : WrapperId L → ℤ → Option R} {here l : L}
  {osThreads numReps : ℕ} {e : ConsoleEvent L} {c c' : Console L R}

/-! ## What holds as long as no one stops the run -/

/-- No entry of `locality_states` is ever taken out. -/
theorem Happens.entry_stays (h : Happens runOne here osThreads numReps e c c')
    (hl : (c.localityStates.find? l).isSome) : (c'.localityStates.find? l).isSome := by
  cases h with
  | connecting | state | visitConnecting =>
      rw [find?_setSolverState]
      split
      · rfl
      · exact hl
  | initDone =>
      rw [setSolverStateData, OrderedMap.find?_set]
      split
      · rfl
      · exact hl
  | initHere | wait | startMonitor | startPoll | register | callSpawn | passStart | passEnd
  | visitInvalid | visit | solver => exact hl

/-- The threads that have been started, and the call of `spawn`. -/
structure Steady (osThreads : ℕ) (c : Console L R) : Prop where
  threads : c.wrappedSolver.osThreads = osThreads
  monitored : .monitoring ≤ c.mainAt → c.monitorAt ≠ .off
  entries : ∀ rest, c.monitorAt = .pass rest → ∀ l ∈ rest, (c.localityStates.find? l).isSome
  before : c.mainAt ≠ .spawning → c.wrappedSolver.collectAt = .idle
  calm : c.mainAt = .spawning → c.wrappedSolver.abort = false →
    c.wrappedSolver.isRunning = true →
    c.wrappedSolver.Calm osThreads c.wrappedSolver.solverIds

/-- **The step lemma.** -/
theorem Steady.step (h : Steady osThreads c) (hordered : Ordered here c)
    (hstep : Happens runOne here osThreads numReps e c c') : Steady osThreads c' := by
  have hstays : ∀ rest, c.monitorAt = .pass rest → ∀ l ∈ rest,
      (c'.localityStates.find? l).isSome :=
    fun rest hat l hl => hstep.entry_stays (h.entries rest hat l hl)
  cases hstep with
  | connecting => exact { h with entries := hstays }
  | state hat =>
      refine ⟨h.threads, fun (hle : MainAt.monitoring ≤ .stated) => absurd hle (by decide),
        hstays, fun _ => h.before (by rw [hat]; decide), ?_⟩
      intro heq
      cases heq
  | initHere hat =>
      refine ⟨h.threads, fun (hle : MainAt.monitoring ≤ .initialising) => absurd hle (by decide),
        hstays, fun _ => h.before (by rw [hat]; decide), ?_⟩
      intro heq
      cases heq
  | wait hat =>
      refine ⟨h.threads, fun (hle : MainAt.monitoring ≤ .initialised) => absurd hle (by decide),
        hstays, fun _ => h.before (by rw [hat]; decide), ?_⟩
      intro heq
      cases heq
  | startMonitor hat =>
      refine ⟨h.threads, fun _ => by simp, by simp, fun _ => h.before (by rw [hat]; decide), ?_⟩
      intro heq
      cases heq
  | startPoll hat =>
      refine ⟨h.threads, fun _ => h.monitored (by rw [hat]), hstays,
        fun _ => h.before (by rw [hat]; decide), ?_⟩
      intro heq
      cases heq
  | register hat hlock =>
      refine ⟨h.threads, fun _ => h.monitored (by rw [hat]; decide), hstays,
        fun _ => h.before (by rw [hat]; decide), ?_⟩
      intro heq
      cases heq
  | callSpawn hat =>
      refine ⟨h.threads, fun _ => h.monitored (by rw [hat]; decide), hstays,
        fun hne => absurd rfl hne, fun _ habort hrunning => ?_⟩
      have hcalm := (hordered.before (by rw [hat]; decide)).calm habort hrunning numReps
      rwa [h.threads] at hcalm
  | passStart hat =>
      refine { h with monitored := fun _ => by simp, entries := fun rest heq l hl => ?_ }
      cases heq
      exact (OrderedMap.mem_keys _ l).mp hl
  | passEnd hat => exact { h with monitored := fun _ => by simp, entries := by simp }
  | @visitConnecting _ l rest data hat hfind hstate =>
      refine { h with monitored := fun _ => by simp, entries := fun rest' heq l' hl' => ?_ }
      cases heq
      exact hstays _ hat l' (List.mem_cons_of_mem _ hl')
  | visitInvalid => exact { h with monitored := fun _ => by simp, entries := by simp }
  | @visit _ l rest data hat hfind =>
      refine { h with monitored := fun _ => by simp, entries := fun rest' heq l' hl' => ?_ }
      cases heq
      exact hstays _ hat l' (List.mem_cons_of_mem _ hl')
  | initDone hcount hlock hids =>
      exact ⟨h.threads, h.monitored, hstays, h.before,
        fun hat habort hrunning => (h.calm hat habort hrunning).addSolverId _⟩
  | @solver _ e w hevent hw =>
      obtain ⟨hthreads, hrun⟩ := hw.stopped
      refine ⟨hthreads.trans h.threads, h.monitored, h.entries, fun hne => ?_,
        fun hat habort hrunning => ?_⟩
      · cases e with
        | spawn | collect | complete => exact absurd (by simpa [solverEvent] using hevent) hne
        | addSolverId | setSolverIds => cases hevent
        | abort | shutdown =>
            cases hw
            exact h.before hne
      · have habort' : c.wrappedSolver.abort = false := by
          cases hb : c.wrappedSolver.abort with
          | false => rfl
          | true => exact absurd habort (by simp [hw.abort_of_abort hb])
        have hcalm := h.calm hat habort' (hrun hrunning)
        have hquiet : Wrapper.Quiet e := by
          cases e with
          | spawn | collect | complete => exact trivial
          | addSolverId | setSolverIds => cases hevent
          | abort | shutdown =>
              cases hw
              simp at habort hrunning
        have hnext := hcalm.step hquiet hw
        rw [hnext.solverIds]
        exact hnext

theorem steady_initial (nranks : ℕ) :
    Steady osThreads (initial nranks osThreads : Console L R) := by
  refine ⟨rfl, fun (hle : MainAt.monitoring ≤ .start) => absurd hle (by decide),
    by simp [initial], fun _ => rfl, fun hat => ?_⟩
  cases hat

/-- The invariants of rank `0` together. -/
structure Invariants (runOne : WrapperId L → ℤ → Option R) (here : L) (osThreads numReps : ℕ)
    (c : Console L R) : Prop where
  cycle : Cycle here osThreads c
  ordered : Ordered here c
  called : c.Called runOne numReps
  steady : Steady osThreads c

theorem Invariants.step (h : Invariants runOne here osThreads numReps c)
    (hstep : Happens runOne here osThreads numReps e c c') :
    Invariants runOne here osThreads numReps c' :=
  ⟨h.cycle.step hstep, h.ordered.step h.cycle hstep, h.called.step h.ordered hstep,
    h.steady.step h.ordered hstep⟩

theorem Invariants.reaches (h : Invariants runOne here osThreads numReps c)
    {ok : ConsoleEvent L → Prop}
    (hreach : Reaches (Console.step runOne here osThreads numReps) ok c c') :
    Invariants runOne here osThreads numReps c' :=
  hreach.invariant (fun _ _ _ _ hu hstep => hu.step (step_happens hstep)) h

theorem invariants_initial (nranks : ℕ) :
    Invariants runOne here osThreads numReps (initial nranks osThreads : Console L R) :=
  ⟨cycle_initial nranks, ordered_initial nranks, called_initial nranks, steady_initial nranks⟩

/-! ## A node joins -/

/-- What the thread of `monitor` leaves as it is. -/
structure LeftAlone (c c' : Console L R) : Prop where
  mainAt : c'.mainAt = c.mainAt
  wrappedSolver : c'.wrappedSolver = c.wrappedSolver
  connected : c'.connected = c.connected
  completed : c'.completed = c.completed

/-- A connected locality that is not started has an entry that says so. -/
theorem Cycle.connecting_entry (h : Cycle here osThreads c) (hl : l ∈ c.connected)
    (hnew : l ∉ c.started) : c.localityStates.find? l = some { state := .connecting } := by
  have hne : l ≠ here := by
    rintro rfl
    exact h.notConnected hl
  rw [h.remote l hne, remoteEntry, if_neg (h.notCompleted hnew), if_neg hnew, if_pos hl]

/-- **A pass of `monitor` comes to its end**, and starts every connected locality that it
visits. -/
theorem Invariants.exists_passEnd (h : Invariants runOne here osThreads numReps c) {rest : List L}
    (hat : c.monitorAt = .pass rest) :
    ∃ c', Reaches (Console.step runOne here osThreads numReps) (fun _ => True) c c' ∧
      c'.monitorAt = .paused ∧ LeftAlone c c' ∧
      ∀ l, l ∈ c.started ∨ l ∈ rest ∧ l ∈ c.connected → l ∈ c'.started := by
  induction rest generalizing c with
  | nil =>
      have hstep : Console.step runOne here osThreads numReps .monitor c
          = some { c with monitorAt := .paused } := by
        show monitorStep c = _
        rw [monitorStep, hat]
      refine ⟨_, Reaches.single trivial hstep, rfl, ⟨rfl, rfl, rfl, rfl⟩, fun l hl => ?_⟩
      rcases hl with hl | ⟨hl, -⟩
      · exact hl
      · cases hl
  | cons l rest ih =>
      obtain ⟨data, hfind⟩ :=
        Option.isSome_iff_exists.mp (h.steady.entries _ hat l List.mem_cons_self)
      -- one locality is visited, and started when it is connecting
      obtain ⟨u, hstep, huat, hualone, hustarted, hnow⟩ : ∃ u,
          Console.step runOne here osThreads numReps .monitor c = some u ∧
          u.monitorAt = .pass rest ∧ LeftAlone c u ∧ (∀ l ∈ c.started, l ∈ u.started) ∧
          (l ∈ c.connected → l ∈ u.started) := by
        by_cases hstate : data.state = .connecting
        · have hvisit : Console.step runOne here osThreads numReps .monitor c
              = some { c.initNode l with
                  localityStates := setSolverState l .initializing c.localityStates
                  monitorAt := .pass rest } := by
            simp [Console.step, monitorStep, hat, hfind, hstate]
          refine ⟨_, hvisit, rfl, ⟨rfl, rfl, rfl, rfl⟩,
            fun x hx => List.mem_append_left _ hx, fun _ => ?_⟩
          exact List.mem_append_right _ (List.mem_singleton_self l)
        · have hnone : ¬ (data.state = .ready ∧ data.idleCounter = none) := by
            rintro ⟨hready, hcounter⟩
            have hthrown : Console.step runOne here osThreads numReps .monitor c
                = some { c with monitorAt := .thrown } := by
              simp [Console.step, monitorStep, hat, hfind, hready, hcounter]
            exact (h.step (step_happens hthrown)).cycle.notThrown rfl
          have hvisit : Console.step runOne here osThreads numReps .monitor c
              = some { c with monitorAt := .pass rest } := by
            show monitorStep c = _
            rw [monitorStep, hat]
            simp only [hfind, Option.map_some, Option.some.injEq]
            split
            · exact absurd ‹_› hstate
            · exact absurd ⟨‹_›, ‹_›⟩ hnone
            · rfl
          refine ⟨_, hvisit, rfl, ⟨rfl, rfl, rfl, rfl⟩, fun x hx => hx, fun hl => ?_⟩
          by_contra hnew
          rw [h.cycle.connecting_entry hl hnew] at hfind
          cases hfind
          exact hstate rfl
      obtain ⟨c', hreach, hc'at, halone, hstarted⟩ := ih (h.step (step_happens hstep)) huat
      refine ⟨c', hreach.head trivial hstep, hc'at, ?_, fun x hx => ?_⟩
      · exact ⟨halone.mainAt.trans hualone.mainAt,
          halone.wrappedSolver.trans hualone.wrappedSolver,
          halone.connected.trans hualone.connected, halone.completed.trans hualone.completed⟩
      · apply hstarted x
        rcases hx with hx | ⟨hx, hconnected⟩
        · exact Or.inl (hustarted x hx)
        · rcases List.mem_cons.mp hx with rfl | hx
          · exact Or.inl (hnow hconnected)
          · exact Or.inr ⟨hx, hualone.connected ▸ hconnected⟩

/-- Once `monitor` runs, a locality that has not connected can do so, and is started. -/
theorem Invariants.exists_started (h : Invariants runOne here osThreads numReps c)
    (hmonitoring : .monitoring ≤ c.mainAt) (hne : l ≠ here) (hnew : l ∉ c.connected) :
    ∃ c', Reaches (Console.step runOne here osThreads numReps) (fun _ => True) c c' ∧
      c'.monitorAt = .paused ∧ c'.mainAt = c.mainAt ∧ c'.wrappedSolver = c.wrappedSolver ∧
      l ∈ c'.started ∧ l ∉ c'.completed := by
  -- `monitor` gives the lock back
  obtain ⟨u, hreach, huat, halone⟩ : ∃ u,
      Reaches (Console.step runOne here osThreads numReps) (fun _ => True) c u ∧
      u.monitorAt = .paused ∧ LeftAlone c u := by
    cases hat : c.monitorAt with
    | off => exact absurd hat (h.steady.monitored hmonitoring)
    | thrown => exact absurd hat h.cycle.notThrown
    | paused => exact ⟨c, Reaches.refl c, hat, ⟨rfl, rfl, rfl, rfl⟩⟩
    | pass rest =>
        obtain ⟨u, hreach, huat, halone, -⟩ := h.exists_passEnd hat
        exact ⟨u, hreach, huat, halone⟩
  -- the message arrives
  have hconnects : Console.step runOne here osThreads numReps (.connecting l) u
      = some { u with
          localityStates := setSolverState l .connecting u.localityStates
          connected := u.connected ++ [l] } := by
    apply if_neg
    rw [halone.connected]
    simp [hne, hnew, stateLocked, huat]
  -- and the next pass visits the locality
  have hpass : Console.step runOne here osThreads numReps .monitor
      { u with
        localityStates := setSolverState l .connecting u.localityStates
        connected := u.connected ++ [l] }
      = some { u with
          localityStates := setSolverState l .connecting u.localityStates
          connected := u.connected ++ [l]
          monitorAt := .pass (setSolverState l .connecting u.localityStates).keys } := by
    show monitorStep _ = _
    simp [monitorStep, huat]
  have hrun := hreach.trans ((Reaches.single trivial hconnects).trans
    (Reaches.single trivial hpass))
  obtain ⟨c', hreach', hat, hsame, hstarted⟩ := (h.reaches hrun).exists_passEnd rfl
  refine ⟨c', hrun.trans hreach', hat, hsame.mainAt.trans halone.mainAt,
    hsame.wrappedSolver.trans halone.wrappedSolver, ?_, ?_⟩
  · refine hstarted l (Or.inr ⟨(OrderedMap.mem_keys _ l).mpr ?_, ?_⟩)
    · rw [find?_setSolverState, if_pos rfl]
      rfl
    · exact List.mem_append_right _ (List.mem_singleton_self l)
  · rw [hsame.completed]
    show l ∉ u.completed
    rw [halone.completed]
    exact h.cycle.notCompleted (h.cycle.notStarted hne hnew)

/-- Steps of the threads of `spawn`, and returns of solves, are steps of the process. -/
theorem reaches_solver (hat : c.mainAt = .spawning) {w : Wrapper (WrapperId L) R}
    (hreach : Reaches (Wrapper.step runOne) Wrapper.Quiet c.wrappedSolver w) :
    Reaches (Console.step runOne here osThreads numReps) (fun _ => True) c
      { c with wrappedSolver := w } := by
  let within (w : Wrapper (WrapperId L) R) : Console L R := { c with wrappedSolver := w }
  show Reaches _ _ (within c.wrappedSolver) (within w)
  apply hreach.refines (P := fun _ => True)
  · exact fun _ _ _ _ _ _ => trivial
  · intro e u v he _ hstep
    apply Reaches.single trivial (e := .solver e)
    have hevent : solverEvent c.mainAt e = true := by
      cases e with
      | spawn | collect | complete => simp [solverEvent, hat]
      | addSolverId | setSolverIds | abort | shutdown => cases he
    show solverStep runOne e (within u) = _
    rw [solverStep, if_pos hevent, hstep, Option.map_some]
  · trivial

/-- The run has not been stopped, and `spawn` has not been called while `_nranks` was zero, so
that `local_seed_offset` is the conversion of a number. -/
structure Open (c : Console L R) : Prop where
  abort : c.wrappedSolver.abort = false
  running : c.wrappedSolver.isRunning = true
  offset : c.mainAt = .spawning → c.wrappedSolver.localSeedOffset ≠ none

/-- The mutex of the solver ids is given back. -/
theorem Invariants.exists_unlocked (h : Invariants runOne here osThreads numReps c)
    (hopen : Open c) :
    ∃ w, Reaches (Console.step runOne here osThreads numReps) (fun _ => True) c
        { c with wrappedSolver := w } ∧ w.idsLocked = false ∧
      Open { c with wrappedSolver := w } := by
  by_cases hat : c.mainAt = .spawning
  · obtain ⟨offset, hoffset⟩ := Option.ne_none_iff_exists'.mp (hopen.offset hat)
    have hcalm : c.wrappedSolver.Calm osThreads c.wrappedSolver.solverIds :=
      h.steady.calm hat hopen.abort hopen.running
    obtain ⟨w, hreach, hcalm, hw, hlock⟩ : ∃ w,
        Reaches (Wrapper.step runOne) Wrapper.Quiet c.wrappedSolver w ∧
        w.Calm osThreads c.wrappedSolver.solverIds ∧ w.localSeedOffset = some offset ∧
        w.idsLocked = false :=
      hcalm.exists_unlocked hoffset
    refine ⟨w, reaches_solver hat hreach, hlock, hcalm.abort, hcalm.running, fun _ => ?_⟩
    show w.localSeedOffset ≠ none
    rw [hw]
    simp
  · refine ⟨c.wrappedSolver, Reaches.refl c, ?_, hopen⟩
    have hidle := (h.ordered.before hat).spawnAt
    have hcollect := h.steady.before hat
    simp [Wrapper.idsLocked, hidle, hcollect]

/-- **A node can join.** Once `monitor` runs, a locality that has not connected can become
ready and a solver of the wrapper, as long as the run is open. -/
theorem Invariants.exists_joined (h : Invariants runOne here osThreads numReps c)
    (hopen : Open c) (hmonitoring : .monitoring ≤ c.mainAt) (hne : l ≠ here)
    (hnew : l ∉ c.connected) :
    ∃ c', Reaches (Console.step runOne here osThreads numReps) (fun _ => True) c c' ∧
      Open c' ∧ c'.mainAt = c.mainAt ∧
      c'.localityStates.find? l = some (readyData osThreads l) ∧
      ⟨l⟩ ∈ c'.wrappedSolver.solverIds ∧ 0 < c'.wrappedSolver.nranks := by
  obtain ⟨u, hreach, huat, humain, hsame, hstarted, hnot⟩ :=
    h.exists_started hmonitoring hne hnew
  have huopen : Open u := by
    constructor
    · rw [hsame]
      exact hopen.abort
    · rw [hsame]
      exact hopen.running
    · rw [hsame, humain]
      exact hopen.offset
  obtain ⟨w, hreach', hlock, hwopen⟩ := (h.reaches hreach).exists_unlocked huopen
  have hcount : u.completed.count l < u.started.count l := by
    rw [List.count_eq_zero_of_not_mem hnot]
    exact List.count_pos_iff.mpr hstarted
  have hdone : Console.step runOne here osThreads numReps (.initDone l)
      { u with wrappedSolver := w } = some _ :=
    if_pos ⟨hcount, by simp [stateLocked, huat], hlock⟩
  refine ⟨_, hreach.trans (hreach'.trans (Reaches.single trivial hdone)),
    ⟨hwopen.abort, hwopen.running, hwopen.offset⟩, humain, ?_, ?_, ?_⟩
  · rw [setSolverStateData, OrderedMap.find?_set_self]
  · exact List.mem_append_right _ (List.mem_singleton_self _)
  · exact List.length_pos_of_mem (List.mem_append_right _ (List.mem_singleton_self (⟨l⟩ : WrapperId L)))

end Console

namespace Cluster

variable {L K G : Type} [LinearOrder L] [Field K] [LinearOrder K] {job : Job L K G}
  {g : Cluster L K} {H : HamiltonianType K}

/-- The invariants of rank `0` hold in the cluster. -/
theorem console_invariants (job : Job L K G) (nranks : ℕ) (hload : load job = .ok H)
    (hreach : Reaches (step job) (fun _ => True) (initial job nranks) g) :
    Console.Invariants (solveOn job H) job.here job.osThreads job.numReps g.console :=
  (Console.invariants_initial nranks).reaches (refines_console job nranks hload hreach)

/-- **A node can join at any time.** In every state that a run of the cluster reaches after
`monitor` has been started, as long as no one has stopped it and `spawn` has not been called
while `_nranks` was zero: a locality that has not connected can come to be ready, with a
solver on the Hamiltonian of the input file that is registered with the wrapper of rank `0`. -/
theorem node_can_join (job : Job L K G) (nranks : ℕ) (hload : load job = .ok H)
    (hreps : job.numReps < 2 ^ 31)
    (hreach : Reaches (step job) (fun _ => True) (initial job nranks) g)
    (hopen : g.console.Open) (hmonitoring : .monitoring ≤ g.console.mainAt) {l : L}
    (hne : l ≠ job.here) (hnew : l ∉ g.console.connected) :
    ∃ g', Reaches (step job) (fun _ => True) g g' ∧ g'.console.mainAt = g.console.mainAt ∧
      g'.console.localityStates.find? l = some (Console.readyData job.osThreads l) ∧
      ⟨l⟩ ∈ g'.console.wrappedSolver.solverIds ∧
      (g'.nodes l).theSolver = some (saSolver H) := by
  have h := console_invariants job nranks hload hreach
  obtain ⟨c, hrun, -, hat, hready, hid, -⟩ := h.exists_joined hopen hmonitoring hne hnew
  obtain ⟨g', hg', rfl⟩ := comesTo_of_reaches hload hreps hreach hrun
  have hall := hreach.trans hg'
  have hsound := (sound_initial nranks).reaches hall
  have hcompleted : l ∈ g'.console.completed := hsound.served.placed.ids _ hid
  obtain ⟨H', hload', hsolver⟩ := hsound.theSolver (hsound.mem_names hcompleted)
  cases hload.symm.trans hload'
  exact ⟨g', hg', hat, hready, hid, hsolver⟩

/-- Locality `7` joins the sample while the loop of `spawn` holds the mutex of the solver
ids. -/
theorem node_can_join_sample : ∃ g : Cluster ℕ ℚ,
    g.console.mainAt = .spawning ∧ g.console.wrappedSolver.idsLocked = true ∧
    ∃ g', Reaches (step sampleJob) (fun _ => True) g g' ∧
      g'.console.localityStates.find? 7 = some (Console.readyData 1 7) ∧
      ⟨7⟩ ∈ g'.console.wrappedSolver.solverIds := by
  have hload : load sampleJob = .ok sampleH := by decide
  have hrun : ((after (step sampleJob) (sampleRun.take 20) (initial sampleJob 2)).map fun g =>
      ((g.console.mainAt, g.console.wrappedSolver.idsLocked),
        (g.console.wrappedSolver.abort, g.console.wrappedSolver.isRunning),
        (g.console.wrappedSolver.localSeedOffset, g.console.connected)))
      = some ((.spawning, true), (false, true), (some 0, [1])) := by decide +kernel
  obtain ⟨g, hg, hstate⟩ := Option.map_eq_some_iff.mp hrun
  simp only [Prod.mk.injEq] at hstate
  obtain ⟨⟨hat, hlock⟩, ⟨habort, hrunning⟩, hoffset, hconnected⟩ := hstate
  have hopen : g.console.Open := ⟨habort, hrunning, fun _ => by simp [hoffset]⟩
  obtain ⟨g', hreach, -, hready, hid, -⟩ := node_can_join sampleJob 2 hload (by decide)
    ⟨sampleRun.take 20, by simp, hg⟩ hopen (by rw [hat]; decide) (show (7 : ℕ) ≠ 0 by decide)
    (by rw [hconnected]; simp)
  exact ⟨g, hat, hlock, g', hreach, hready, hid⟩

end Cluster

end SpinGlass
