import SpinGlass.Admitting

/-!
# Finishing — when a run can be completed

A run that no one has stopped can be completed unless `spawn` has been called
while `_nranks` was zero: then the conversion of `local_seed_offset` is
undefined, and no solve is launched by defined steps. Otherwise one more node
is enough: it joins, takes all repetitions that are left, and after the quit
command `spawn` returns a vector with a result for every repetition.
-/

namespace SpinGlass

open Transition Network

namespace Wrapper

variable {I R : Type} [DecidableEq I] {runOne : I → ℤ → Option R} {w : Wrapper I R}

/-- After the quit command `spawn` returns by steps of its two threads, and what has been
collected stays. -/
theorem Quitting.exists_returned {numReps : ℕ} (h : Quitting runOne numReps w) :
    ∃ w' x, Reaches (Wrapper.step runOne) Quiet w w' ∧ Quitting runOne numReps w' ∧
      w.collected <+: w'.collected ∧ w'.spawnAt = .returned x := by
  obtain ⟨w', x, hreach, hw', hgrows, hx⟩ :=
    h.exists_return (P := fun u => w.collected <+: u.collected) List.prefix_rfl
      fun e u v _ _ hu huv => hu.trans huv.collected_grows
  refine ⟨w', x, hreach.mono ?_, hw', hgrows, hx⟩
  rintro e (rfl | rfl)
  · exact trivial
  · exact trivial

/-- No more is ever collected than is asked for. -/
theorem Accounted.collected_le {numReps : ℕ} (h : Accounted runOne numReps w) :
    w.collected.length ≤ numReps := by
  have hbudget := h.budget
  have hlaunched := congrArg List.length h.seeds
  rw [List.length_map, List.length_map, List.length_range] at hlaunched
  have hle := h.conserved.subperm.length_le
  omega

end Wrapper

namespace Console

variable {L R : Type} [LinearOrder L] {runOne : WrapperId L → ℤ → Option R} {here : L}
  {osThreads numReps : ℕ} {c c' : Console L R}

/-- The main thread waits for the ids and for `init_node(here)`, and for nothing else. -/
theorem exists_mainStep (runOne : WrapperId L → ℤ → Option R) (here : L)
    (osThreads numReps : ℕ) (hat : c.mainAt ≠ .spawning)
    (hlock : c.wrappedSolver.idsLocked = false)
    (hinit : ¬ (c.mainAt = .initialising ∧ here ∉ c.completed)) :
    ∃ c', Console.step runOne here osThreads numReps .main c = some c' ∧
      c'.mainAt.toNat = c.mainAt.toNat + 1 ∧ c'.connected = c.connected ∧
      c'.completed = c.completed ∧ c'.wrappedSolver.abort = c.wrappedSolver.abort ∧
      c'.wrappedSolver.isRunning = c.wrappedSolver.isRunning := by
  show ∃ c', mainStep here numReps c = some c' ∧ _
  unfold mainStep
  cases hm : c.mainAt with
  | start | stated | initialised | monitoring | registered =>
      exact ⟨_, rfl, rfl, rfl, rfl, rfl, rfl⟩
  | initialising =>
      have hdone : here ∈ c.completed := by
        by_contra hnot
        exact hinit ⟨hm, hnot⟩
      simp only [hdone, if_true]
      exact ⟨_, rfl, rfl, rfl, rfl, rfl, rfl⟩
  | polling =>
      simp only [hlock, Bool.false_eq_true, if_false]
      exact ⟨_, rfl, rfl, rfl, rfl, rfl, rfl⟩
  | spawning => exact absurd hm hat

/-- `init_node(here)` completes while the main thread waits for it. -/
theorem Invariants.exists_ownInit (h : Invariants runOne here osThreads numReps c)
    (hat : c.mainAt = .initialising) (hlock : c.wrappedSolver.idsLocked = false)
    (hnot : here ∉ c.completed) :
    ∃ c', Console.step runOne here osThreads numReps (.initDone here) c = some c' ∧
      c'.mainAt = .initialising ∧ c'.connected = c.connected ∧ here ∈ c'.completed ∧
      c'.wrappedSolver.abort = c.wrappedSolver.abort ∧
      c'.wrappedSolver.isRunning = c.wrappedSolver.isRunning := by
  have hstarted := h.cycle.ownStart.mpr (by rw [hat])
  have hoff : c.monitorAt = .off := by
    by_contra hoff
    have hle := h.cycle.monitored hoff
    rw [hat] at hle
    exact absurd hle (by decide)
  have hcount : c.completed.count here < c.started.count here := by
    rw [List.count_eq_zero_of_not_mem hnot]
    exact List.count_pos_iff.mpr hstarted
  refine ⟨_, if_pos ⟨hcount, by simp [stateLocked, hoff], hlock⟩, hat, rfl, ?_, rfl, rfl⟩
  exact List.mem_append_right _ (List.mem_singleton_self here)

theorem toNat_lt_of_ne {a : MainAt} (h : a ≠ .spawning) : a.toNat < 7 := by
  cases a with
  | spawning => exact absurd rfl h
  | start | stated | initialising | initialised | monitoring | polling | registered => decide

/-- The main thread comes to the call of `spawn`. -/
theorem Invariants.exists_registered (h : Invariants runOne here osThreads numReps c)
    (hopen : Open c) (hat : c.mainAt ≠ .spawning) :
    ∃ c', Reaches (Console.step runOne here osThreads numReps) (fun _ => True) c c' ∧
      c'.mainAt = .registered ∧ Open c' ∧ c'.connected = c.connected := by
  obtain ⟨c', hreach, ⟨-, -, hc'open, hconnected⟩, hc'at⟩ : ∃ c',
      Reaches (Console.step runOne here osThreads numReps) (fun _ => True) c c' ∧
      (Invariants runOne here osThreads numReps c' ∧ c'.mainAt ≠ .spawning ∧ Open c' ∧
        c'.connected = c.connected) ∧ c'.mainAt = .registered := by
    apply exists_reaches_of_measure
      (fun u => Invariants runOne here osThreads numReps u ∧ u.mainAt ≠ .spawning ∧ Open u ∧
        u.connected = c.connected) (fun u => u.mainAt = .registered)
      (fun u => 2 * (7 - u.mainAt.toNat) + if here ∈ u.completed then 0 else 1)
    · rintro u ⟨hu, huat, huopen, hconnected⟩ hgoal
      have hlock : u.wrappedSolver.idsLocked = false := by
        have hspawn := (hu.ordered.before huat).spawnAt
        have hcollect := hu.steady.before huat
        simp [Wrapper.idsLocked, hspawn, hcollect]
      by_cases hwait : u.mainAt = .initialising ∧ here ∉ u.completed
      · obtain ⟨v, hstep, hvat, hcon, hmem, habort, hrunning⟩ :=
          hu.exists_ownInit hwait.1 hlock hwait.2
        have hne : v.mainAt ≠ .spawning := by
          rw [hvat]
          decide
        refine ⟨.initDone here, v, trivial, hstep, ⟨hu.step (step_happens hstep), hne,
          ⟨habort.trans huopen.abort, hrunning.trans huopen.running,
            fun heq => absurd heq hne⟩, hcon.trans hconnected⟩, ?_⟩
        rw [if_pos hmem, if_neg hwait.2, hvat, hwait.1]
        exact Nat.lt_succ_self _
      · obtain ⟨v, hstep, hnext, hcon, hcomp, habort, hrunning⟩ :=
          exists_mainStep runOne here osThreads numReps huat hlock hwait
        have hlt := toNat_lt_of_ne huat
        have hne : v.mainAt ≠ .spawning := by
          intro hv
          rw [hv] at hnext
          have hsix : u.mainAt.toNat = MainAt.registered.toNat := (Nat.succ.inj hnext).symm
          exact hgoal (MainAt.toNat_injective hsix)
        refine ⟨.main, v, trivial, hstep, ⟨hu.step (step_happens hstep), hne,
          ⟨habort.trans huopen.abort, hrunning.trans huopen.running,
            fun heq => absurd heq hne⟩, hcon.trans hconnected⟩, ?_⟩
        rw [hnext, hcomp]
        omega
    · exact ⟨h, hat, hopen, rfl⟩
  exact ⟨c', hreach, hc'at, hc'open, hconnected⟩

/-- **Once a node can be given work, the run can be completed**: all repetitions are
launched, solved and collected, and after the quit command `spawn` returns them. -/
theorem Invariants.exists_completed (h : Invariants runOne here osThreads numReps c)
    (hopen : Open c) (hat : c.mainAt = .spawning) (hids : c.wrappedSolver.solverIds ≠ [])
    (hos : 0 < osThreads) (hsolves : ∀ s seed, ∃ r, runOne s seed = some r) :
    ∃ c' y, Reaches (Console.step runOne here osThreads numReps) (fun _ => True) c c' ∧
      c'.wrappedSolver.spawnAt = .returned y ∧ y.length = numReps := by
  have hbooks : c.wrappedSolver.Accounted runOne numReps :=
    (h.called.books hat).resolve_left fun hidle => hopen.offset hat hidle.2
  obtain ⟨w, hreach, hcalm, hfinished⟩ := Wrapper.exists_finished (fun s _ => hsolves s) hids hos
    (h.steady.calm hat hopen.abort hopen.running) hbooks
  have hw := hbooks.reaches hreach
  have hcollected : w.collected.length = numReps := by
    rw [hw.results.length_eq, ← hw.total, hfinished.total]
  -- the quit command
  have hquits : Console.step runOne here osThreads numReps (.solver .abort)
      { c with wrappedSolver := w } = some { c with
        wrappedSolver := { w with abort := true } } := by
    have hevent : solverEvent c.mainAt (.abort : Event (WrapperId L)) = true := by
      rw [hat]
      show decide (MainAt.polling ≤ .spawning) = true
      decide
    show solverStep _ _ _ = _
    rw [solverStep, if_pos hevent]
    rfl
  have hquit : Wrapper.Quitting runOne numReps { w with abort := true } := by
    refine ⟨rfl, hw.step Wrapper.Happens.abort, ⟨hcalm.called, hcalm.collecting.1, ?_⟩⟩
    intro x hx
    exact absurd hx (hcalm.notReturned x)
  obtain ⟨w', y, hreach', hquit', hgrows, hy⟩ := hquit.exists_returned
  refine ⟨_, y, (reaches_solver hat hreach).trans ((Reaches.single trivial hquits).trans
    (reaches_solver (c := { c with wrappedSolver := { w with abort := true } }) hat hreach')),
    hy, ?_⟩
  have hle : w.collected.length ≤ w'.collected.length := hgrows.length_le
  have hmost := hquit'.books.collected_le
  rw [← (hquit'.results hy).length_eq]
  omega

/-- `spawn` is called with the ids of the nodes that have joined. -/
theorem Invariants.exists_called (h : Invariants runOne here osThreads numReps c)
    (hopen : Open c) (hat : c.mainAt = .registered) (hranks : 0 < c.wrappedSolver.nranks)
    (hids : c.wrappedSolver.solverIds ≠ []) :
    ∃ c', Console.step runOne here osThreads numReps .main c = some c' ∧ Open c' ∧
      c'.mainAt = .spawning ∧ c'.wrappedSolver.solverIds ≠ [] := by
  have hstep : Console.step runOne here osThreads numReps .main c = some { c with
      wrappedSolver := c.wrappedSolver.spawnCall numReps
      mainAt := .spawning } := by
    show mainStep here numReps c = _
    rw [mainStep, hat]
  refine ⟨_, hstep, ⟨hopen.abort, hopen.running, fun _ => ?_⟩, rfl, hids⟩
  have hrank := (h.ordered.before (by rw [hat]; decide)).rank
  show Wrapper.seedOffset c.wrappedSolver.rank c.wrappedSolver.nranks numReps ≠ none
  rw [hrank, Wrapper.seedOffset_rank_zero hranks]
  simp

/-- A call of `spawn` without a value for `local_seed_offset` has no results by defined
steps. -/
theorem Invariants.idle_of_offset (h : Invariants runOne here osThreads numReps c)
    (hat : c.mainAt = .spawning) (hoffset : c.wrappedSolver.localSeedOffset = none)
    {ok : ConsoleEvent L → Prop}
    (hreach : Reaches (Console.step runOne here osThreads numReps) ok c c') :
    c'.wrappedSolver.repetitionResultsVector = [] ∧ c'.mainAt = .spawning := by
  have hidle : c.wrappedSolver.Idle := by
    rcases h.called.books hat with ⟨hidle, -⟩ | hbooks
    · exact hidle
    · rw [hbooks.offset] at hoffset
      cases hoffset
  have hall : c'.mainAt = .spawning ∧ c'.wrappedSolver.Idle ∧
      c'.wrappedSolver.localSeedOffset = none := by
    apply hreach.invariant (P := fun u : Console L R => u.mainAt = .spawning ∧
      u.wrappedSolver.Idle ∧ u.wrappedSolver.localSeedOffset = none) _ ⟨hat, hidle, hoffset⟩
    rintro e u v _ ⟨huat, huidle, huoffset⟩ hstep
    cases step_happens hstep with
    | state hm | initHere hm | wait hm | startMonitor hm | startPoll hm | register hm
    | callSpawn hm =>
        rw [huat] at hm
        cases hm
    | solver hevent hw => exact ⟨huat, huidle.step huoffset hw⟩
    | initDone => exact ⟨huat, { huidle with }, huoffset⟩
    | connecting | passStart | passEnd | visitConnecting | visitInvalid | visit =>
        exact ⟨huat, huidle, huoffset⟩
  exact ⟨hall.2.1.results, hall.1⟩

/-- **When a run can be completed**, on the process of rank `0`. -/
theorem Invariants.completable_iff (h : Invariants runOne here osThreads numReps c)
    (habort : c.wrappedSolver.abort = false) (hrunning : c.wrappedSolver.isRunning = true)
    (hos : 0 < osThreads) (hreps : 0 < numReps)
    (hsolves : ∀ s seed, ∃ r, runOne s seed = some r)
    (hfresh : ∃ l, l ≠ here ∧ l ∉ c.connected) :
    (∃ c' y, Reaches (Console.step runOne here osThreads numReps) (fun _ => True) c c' ∧
      c'.wrappedSolver.spawnAt = .returned y ∧ y.length = numReps) ↔
      (c.mainAt = .spawning → c.wrappedSolver.localSeedOffset ≠ none) := by
  constructor
  · rintro ⟨c', y, hreach, hy, hlength⟩ hat hoffset
    obtain ⟨hnil, hat'⟩ := h.idle_of_offset hat hoffset hreach
    obtain ⟨-, hvector⟩ := ((h.reaches hreach).called.spawned hat').joined y hy
    rw [← hvector, hnil, List.length_nil] at hlength
    omega
  · intro hoffset
    have hopen : Open c := ⟨habort, hrunning, hoffset⟩
    obtain ⟨l, hne, hnew⟩ := hfresh
    by_cases hat : c.mainAt = .spawning
    · obtain ⟨u, hreach, huopen, huat, -, hmem, -⟩ :=
        h.exists_joined hopen (by rw [hat]; decide) hne hnew
      obtain ⟨c', y, hreach', hy, hlength⟩ := (h.reaches hreach).exists_completed huopen
        (huat.trans hat) (List.ne_nil_of_mem hmem) hos hsolves
      exact ⟨c', y, hreach.trans hreach', hy, hlength⟩
    · obtain ⟨v, hv, hvat, hvopen, hconnected⟩ := h.exists_registered hopen hat
      obtain ⟨u, hu, huopen, huat, -, hmem, hranks⟩ := (h.reaches hv).exists_joined hvopen
        (by rw [hvat]; decide) hne (by rw [hconnected]; exact hnew)
      have hvu := hv.trans hu
      obtain ⟨t, hstep, htopen, htat, hids⟩ := (h.reaches hvu).exists_called huopen
        (huat.trans hvat) hranks (List.ne_nil_of_mem hmem)
      have hvt := hvu.trans (Reaches.single trivial hstep)
      obtain ⟨c', y, hreach', hy, hlength⟩ :=
        (h.reaches hvt).exists_completed htopen htat hids hos hsolves
      exact ⟨c', y, hvt.trans hreach', hy, hlength⟩

end Console

/-! ## The cluster -/

namespace Cluster

variable {L K G : Type} [LinearOrder L] [Field K] [LinearOrder K] [IsStrictOrderedRing K]
  {job : Job L K G} {g : Cluster L K} {H : HamiltonianType K}

/-- **When a distributed run can be completed.** In every state that a run of the cluster
reaches, as long as no one has stopped it and some locality has not joined yet: the run can
go on, by steps that are defined, to a return of `spawn` with a result for every repetition
if and only if `spawn` has not been called while `_nranks` was zero. -/
theorem run_completable_iff (job : Job L K G) (nranks : ℕ) (hload : load job = .ok H)
    (hN : H.size < 2 ^ 32) (hf : H.size < job.fuel) (hNs : job.Ns < 2 ^ 32)
    (hfs : job.Ns < job.fuel) (hreps : job.numReps < 2 ^ 31) (hpos : 0 < job.numReps)
    (hos : 0 < job.osThreads)
    (hreach : Reaches (step job) (fun _ => True) (initial job nranks) g)
    (habort : g.console.wrappedSolver.abort = false)
    (hrunning : g.console.wrappedSolver.isRunning = true)
    (hfresh : ∃ l, l ≠ job.here ∧ l ∉ g.console.connected) :
    (∃ g' y, Reaches (step job) (fun _ => True) g g' ∧
      g'.console.wrappedSolver.spawnAt = .returned y ∧ y.length = job.numReps) ↔
      (g.console.mainAt = .spawning → g.console.wrappedSolver.localSeedOffset ≠ none) := by
  have hsolves : ∀ s seed, ∃ r, solveOn job H s seed = some r := fun s seed =>
    Option.ne_none_iff_exists'.mp (answer_ne_none hload hN hf hNs hfs seed)
  have h := console_invariants job nranks hload hreach
  rw [← h.completable_iff habort hrunning hos hpos hsolves hfresh]
  constructor
  · rintro ⟨g', y, hrun, hy, hlength⟩
    have hsound := (sound_initial nranks).reaches hreach
    exact ⟨g'.console, y, hsound.refines_console hload hrun, hy, hlength⟩
  · rintro ⟨c', y, hrun, hy, hlength⟩
    obtain ⟨g', hg', rfl⟩ := comesTo_of_reaches hload hreps hreach hrun
    exact ⟨g', y, hg', hy, hlength⟩

/-- The sample can be completed from its start. -/
theorem run_completable_iff_sample : ∃ (g : Cluster ℕ ℚ) (y : List (Result ℚ)),
    Reaches (step sampleJob) (fun _ => True) (initial sampleJob 2) g ∧
      g.console.wrappedSolver.spawnAt = .returned y ∧ y.length = 2 := by
  have hload : load sampleJob = .ok sampleH := by decide
  have hiff := run_completable_iff sampleJob 2 hload (by decide) (by decide) (by decide)
    (by decide) (by decide) (by decide) (by decide) (Reaches.refl _) rfl rfl
    ⟨1, show (1 : ℕ) ≠ 0 by decide, by simp [initial, Console.initial]⟩
  obtain ⟨g, y, hreach, hy, hlength⟩ := hiff.mpr fun hat => by cases hat
  exact ⟨g, y, hreach, hy, hlength⟩

end Cluster

end SpinGlass
