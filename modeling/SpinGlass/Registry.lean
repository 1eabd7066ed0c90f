import SpinGlass.LifeCycle

/-!
# Registry — the nodes in `_solver_ids`

A node that completes its `init_node` is written to `locality_states` and to
the list of the solver wrapper. The main thread then replaces the list by an
empty one: what has been registered up to that moment is `dropped`, and the
wrapper of rank `0` is always among it.
-/

namespace SpinGlass

namespace Wrapper

variable {I R : Type} [DecidableEq I] {runOne : I → ℤ → Option R}

/-- Events other than the calls of `addSolverId` and `setSolverIds` leave the solvers. -/
theorem Happens.ids_frame {e : Event I} {w w' : Wrapper I R} (h : Happens runOne e w w')
    (hadd : ∀ id, e ≠ .addSolverId id) (hset : ∀ ids, e ≠ .setSolverIds ids) :
    w'.solverIds = w.solverIds ∧ w'.nranks = w.nranks := by
  cases e with
  | spawn =>
      obtain ⟨position, -, hw⟩ := h.spawn_moves
      rcases hw with rfl | ⟨s, rest, enough, offset, -, -, -, rfl⟩
      · exact ⟨rfl, rfl⟩
      · exact ⟨rfl, rfl⟩
  | addSolverId id => exact absurd rfl (hadd id)
  | setSolverIds ids => exact absurd rfl (hset ids)
  | collect | complete | abort | shutdown =>
      cases h <;> exact ⟨rfl, rfl⟩

end Wrapper

namespace Console

open Transition

variable {L R : Type} [LinearOrder L] {runOne : WrapperId L → ℤ → Option R} {here : L}
  {osThreads numReps : ℕ} {c c' : Console L R}

/-- **Ready nodes are registered**: the wrapper of every ready entry is in `_solver_ids`,
whose size `_nranks` is, and this is at least one. -/
structure ReadyRegistered (c : Console L R) : Prop where
  registered : ∀ l data id, c.localityStates.find? l = some data → data.state = .ready →
    data.solverWrapper = some id → id ∈ c.wrappedSolver.solverIds
  nranks_eq : c.wrappedSolver.nranks = c.wrappedSolver.solverIds.length
  nranks_pos : 1 ≤ c.wrappedSolver.nranks

/-- What has been registered before `setSolverIds`, and is not in `_solver_ids` any more. -/
structure Dropped (here : L) (c : Console L R) (dropped : List L) : Prop where
  completed : c.completed = dropped ++ c.wrappedSolver.solverIds.map WrapperId.locality
  before : c.mainAt < .registered → dropped = []
  after : .registered ≤ c.mainAt → here ∈ dropped
  nranks : c.completed ≠ [] → c.wrappedSolver.nranks = c.wrappedSolver.solverIds.length

/-- A step of the main thread that is not the call of `setSolverIds`. -/
theorem Dropped.same {dropped : List L} (h : Dropped here c dropped)
    (hcompleted : c'.completed = c.completed)
    (hids : c'.wrappedSolver.solverIds = c.wrappedSolver.solverIds)
    (hnranks : c'.wrappedSolver.nranks = c.wrappedSolver.nranks)
    (hmain : c'.mainAt < .registered ↔ c.mainAt < .registered) : Dropped here c' dropped := by
  constructor
  · rw [hcompleted, hids]
    exact h.completed
  · intro hlt
    exact h.before (hmain.mp hlt)
  · intro hle
    exact h.after (not_lt.mp fun hlt => absurd (hmain.mpr hlt) (not_lt.mpr hle))
  · rw [hcompleted, hids, hnranks]
    exact h.nranks

/-- **The step lemma**: only the call of `setSolverIds` drops anything, and it drops all that
has been registered. -/
theorem Dropped.step {dropped : List L} (h : Dropped here c dropped)
    (hcycle : Cycle here osThreads c) {e : ConsoleEvent L}
    (hstep : Happens runOne here osThreads numReps e c c') :
    ∃ dropped', Dropped here c' dropped' := by
  cases hstep with
  | state hat | initHere hat | wait hat | startMonitor hat | startPoll hat | callSpawn hat =>
      refine ⟨dropped, h.same rfl rfl rfl ?_⟩
      simp only [hat]
      decide
  | register hat hlock =>
      have hown := hcycle.ownInit (by rw [hat]; decide)
      refine ⟨c.completed, ?_, fun (hlt : MainAt.registered < .registered) => ?_,
        fun _ => hown, fun _ => rfl⟩
      · simp [Wrapper.setSolverIds, solverIdForRank]
      · exact absurd hlt (lt_irrefl _)
  | @initDone _ locality hcount hlock hids =>
      refine ⟨dropped, ?_, h.before, h.after, fun _ => rfl⟩
      simp [Wrapper.addSolverId, h.completed]
  | @solver _ e w hevent hw =>
      have hframe := hw.ids_frame (by rintro id rfl; cases hevent)
        (by rintro ids rfl; cases hevent)
      exact ⟨dropped, h.same rfl hframe.1 hframe.2 Iff.rfl⟩
  | connecting | passStart | passEnd | visitConnecting | visitInvalid | visit =>
      exact ⟨dropped, h.completed, h.before, h.after, h.nranks⟩

theorem dropped_initial (nranks : ℕ) :
    Dropped here (initial nranks osThreads : Console L R) [] := by
  refine ⟨rfl, fun _ => rfl, fun (hle : MainAt.registered ≤ .start) => ?_, fun hne => ?_⟩
  · exact absurd hle (by decide)
  · exact absurd rfl hne

/-- **When ready nodes are registered.** In every state that the process of rank `0` reaches
after `init_node(here)` has completed, they are if and only if the main thread has not
called `setSolverIds` yet. -/
theorem ready_registered_iff (runOne : WrapperId L → ℤ → Option R) (here : L)
    (osThreads numReps nranks : ℕ) {c : Console L R}
    (hreach : Reaches (step runOne here osThreads numReps) (fun _ => True)
      (initial nranks osThreads) c) (hinit : here ∈ c.completed) :
    ReadyRegistered c ↔ c.mainAt < .registered := by
  have hboth : Cycle here osThreads c ∧ ∃ dropped, Dropped here c dropped := by
    refine hreach.invariant
      (P := fun u => Cycle here osThreads u ∧ ∃ dropped, Dropped here u dropped) ?_
      ⟨cycle_initial nranks, [], dropped_initial nranks⟩
    rintro e u v _ ⟨hu, dropped, hdropped⟩ hstep
    exact ⟨hu.step (step_happens hstep), hdropped.step hu (step_happens hstep)⟩
  obtain ⟨hcycle, dropped, hdropped⟩ := hboth
  have hcompleted := hdropped.completed
  have hne : c.completed ≠ [] := List.ne_nil_of_mem hinit
  constructor
  · intro hready
    by_contra hmain
    have hmem := hdropped.after (not_lt.mp hmain)
    have hown : c.localityStates.find? here = some (readyData osThreads here) := by
      rw [hcycle.own, ownEntry, if_pos hinit]
    have hid := hready.registered here _ ⟨here⟩ hown rfl rfl
    -- the wrapper of rank `0` would have been registered twice
    have honce := hcycle.completedOnce
    rw [hcompleted] at honce
    have hdisjoint := (List.nodup_append.mp honce).2.2
    exact hdisjoint here hmem here (List.mem_map.mpr ⟨_, hid, rfl⟩) rfl
  · intro hmain
    rw [hdropped.before hmain, List.nil_append] at hcompleted
    refine ⟨fun l data id hfind hstate hid => ?_, hdropped.nranks hne, ?_⟩
    · obtain ⟨hl, rfl⟩ := hcycle.eq_readyData hinit hfind hstate
      obtain rfl : id = ⟨l⟩ := (Option.some.inj hid).symm
      rw [hcompleted] at hl
      obtain ⟨id', hid', rfl⟩ := List.mem_map.mp hl
      exact hid'
    · have hpos : 0 < c.completed.length := List.length_pos_iff.mpr hne
      rw [hcompleted, List.length_map] at hpos
      rw [hdropped.nranks hne]
      exact hpos

/-- Rank `0` starts alone, and comes to its first turn of the loop in `spawn`. -/
def aloneEvents : List (ConsoleEvent ℕ) :=
  [.main, .main, .initDone 0, .main, .main, .main, .main, .main, .solver .spawn]

/-- The only node is ready, its wrapper is not registered, the offset of the seeds has no
value, and `spawn` is in its loop with all the work and no solver. -/
theorem ready_node_is_dropped :
    ∃ c : Console ℕ ℤ, Reaches (step (fun _ seed => some seed) 0 2 8) (fun _ => True)
        (initial 0 2) c ∧ 0 ∈ c.completed ∧ ¬ ReadyRegistered c ∧
      c.wrappedSolver.localSeedOffset = none ∧ c.wrappedSolver.solverIds = [] ∧
      c.wrappedSolver.InLoop ∧ c.wrappedSolver.remaining = 8 := by
  have hrun : ((after (step (fun _ seed => some seed) 0 2 8) aloneEvents (initial 0 2)).map
      fun c : Console ℕ ℤ => (c.completed, c.wrappedSolver.nranks,
        c.wrappedSolver.localSeedOffset)) = some ([0], 0, none) := by decide +kernel
  have hloop : ((after (step (fun _ seed => some seed) 0 2 8) aloneEvents (initial 0 2)).map
      fun c : Console ℕ ℤ => (c.wrappedSolver.solverIds, c.wrappedSolver.spawnAt,
        c.wrappedSolver.remaining)) = some ([], .lock, 8) := by decide +kernel
  obtain ⟨c, hc, hstate⟩ := Option.map_eq_some_iff.mp hrun
  rw [hc] at hloop
  simp only [Prod.mk.injEq, Option.map_some, Option.some.injEq] at hstate hloop
  obtain ⟨hcompleted, hnranks, hoffset⟩ := hstate
  obtain ⟨hids, hat, hremaining⟩ := hloop
  refine ⟨c, ⟨aloneEvents, by simp, hc⟩, by simp [hcompleted], fun hready => ?_, hoffset, hids,
    Or.inl hat, hremaining⟩
  have hpos := hready.nranks_pos
  rw [hnranks] at hpos
  exact absurd hpos (by decide)

/-- Before the call of `setSolverIds` the only node is registered. -/
theorem ready_registered_iff_sample :
    ∃ c : Console ℕ ℤ, c.mainAt = .polling ∧ ReadyRegistered c := by
  have hrun : ((after (step (fun _ seed => some seed) 0 2 8) (aloneEvents.take 6)
      (initial 0 2)).map fun c : Console ℕ ℤ => (c.mainAt, c.completed))
      = some (.polling, [0]) := by decide +kernel
  obtain ⟨c, hc, hstate⟩ := Option.map_eq_some_iff.mp hrun
  obtain ⟨hat, hcompleted⟩ := Prod.mk.inj hstate
  have hiff := ready_registered_iff (fun _ seed => some seed) 0 2 8 0
    ⟨aloneEvents.take 6, by simp, hc⟩ (by simp [hcompleted])
  exact ⟨c, hat, hiff.mpr (by rw [hat]; decide)⟩

end Console

end SpinGlass
