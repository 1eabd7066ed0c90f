import SpinGlass.Registry
import SpinGlass.Quitting

/-!
# Calling — the call of `spawn` in `hpx_main`

Until the main thread calls `spawn`, the solver wrapper has launched nothing
and collected nothing. The call gives the seeds an offset when a node has been
registered since `setSolverIds`; else the offset has no value, and no solve is
ever launched. From then on the books of the call are right.
-/

namespace SpinGlass

open Transition

namespace Wrapper

variable {I R : Type}

/-- No solve has been launched, and none collected. -/
structure Idle (w : Wrapper I R) : Prop where
  queues : ∀ s, w.asyncResults s = []
  launched : w.launched = []
  collected : w.collected = []
  results : w.repetitionResultsVector = []

/-- `spawn` has not been called on this wrapper of locality `0`. -/
structure Untouched (w : Wrapper I R) : Prop where
  rank : w.rank = 0
  spawnAt : w.spawnAt = .idle
  idle : w.Idle

variable [DecidableEq I] {runOne : I → ℤ → Option R} {e : Event I} {w w' : Wrapper I R}

/-- Without a value for `local_seed_offset` nothing is ever launched. -/
theorem Idle.step (h : w.Idle) (hoffset : w.localSeedOffset = none)
    (hstep : Happens runOne e w w') : w'.Idle ∧ w'.localSeedOffset = none := by
  rcases hstep.books with hsame | ⟨s, rest, enough, offset, -, hoff, -, -⟩ |
    ⟨s, seed, r, tasks, hq, -⟩ | ⟨s, j, seed, r, hj, -, -⟩
  · refine ⟨⟨?_, ?_, ?_, ?_⟩, ?_⟩
    · intro s
      rw [hsame.asyncResults, h.queues]
    · rw [hsame.launched, h.launched]
    · rw [hsame.collected, h.collected]
    · rw [hsame.results, h.results]
    · rw [hsame.offset, hoffset]
  · rw [hoffset] at hoff
    cases hoff
  · rw [h.queues s] at hq
    cases hq
  · rw [h.queues s] at hj
    cases hj

/-- The call of `spawn` opens the books, if a node is registered. -/
theorem Untouched.accounted (h : w.Untouched) (hranks : 0 < w.nranks) (numReps : ℕ) :
    Accounted runOne numReps (w.spawnCall numReps) := by
  constructor
  · show seedOffset w.rank w.nranks numReps = some 0
    rw [h.rank]
    exact seedOffset_rank_zero hranks numReps
  · exact Nat.zero_add numReps
  · show w.launched.map Prod.snd = _
    rw [h.idle.launched]
    rfl
  · have hqueues : (w.spawnCall numReps).queuedSeeds = fun _ => [] := by
      funext s
      show (w.asyncResults s).map Task.seed = []
      rw [h.idle.queues s, List.map_nil]
    show Channels.Conserved w.launched w.collected _
    rw [h.idle.launched, h.idle.collected, hqueues]
    exact Channels.Conserved.start
  · show 0 = w.repetitionResultsVector.length
    rw [h.idle.results]
    rfl
  · show List.Forall₂ _ w.collected w.repetitionResultsVector
    rw [h.idle.collected, h.idle.results]
    exact List.Forall₂.nil
  · intro s t ht
    have hempty : t ∈ w.asyncResults s := ht
    rw [h.idle.queues s] at hempty
    cases hempty
  · simp [InLoop, spawnCall]

end Wrapper

namespace Console

variable {L R : Type} [LinearOrder L] {runOne : WrapperId L → ℤ → Option R} {here : L}
  {osThreads numReps : ℕ} {e : ConsoleEvent L} {c c' : Console L R}

/-- What the order of the main thread implies. -/
structure Ordered (here : L) (c : Console L R) : Prop where
  /-- Other nodes are only started once rank `0` is initialised. -/
  ownFirst : ∀ l ∈ c.started, l ≠ here → here ∈ c.completed
  before : c.mainAt ≠ .spawning → c.wrappedSolver.Untouched

/-- **The step lemma.** -/
theorem Ordered.step (h : Ordered here c) (hcycle : Cycle here osThreads c)
    (hstep : Happens runOne here osThreads numReps e c c') : Ordered here c' := by
  have hbefore : ∀ {at'}, c.mainAt = at' → at' ≠ .spawning → c.wrappedSolver.Untouched :=
    fun hat hne => h.before (hat ▸ hne)
  cases hstep with
  | state hat | wait hat | startMonitor hat | startPoll hat =>
      exact { h with before := fun _ => hbefore hat (by decide) }
  | initHere hat =>
      refine ⟨fun l hl hne => ?_, fun _ => hbefore hat (by decide)⟩
      rcases List.mem_append.mp hl with hl | hl
      · exact h.ownFirst l hl hne
      · exact absurd (List.mem_singleton.mp hl) hne
  | register hat hlock =>
      have huntouched := hbefore hat (by decide)
      exact { h with before := fun _ => ⟨huntouched.rank, huntouched.spawnAt, { huntouched.idle with }⟩ }
  | callSpawn hat => exact { h with before := fun hne => absurd rfl hne }
  | visitConnecting hat hfind hstate =>
      have hmain := hcycle.monitored (by simp [hat])
      exact { h with ownFirst := fun _ _ _ => hcycle.ownInit (le_trans (by decide) hmain) }
  | initDone hcount hlock hids =>
      refine ⟨fun l hl hne => List.mem_append_left _ (h.ownFirst l hl hne), fun hne => ?_⟩
      have huntouched := h.before hne
      exact ⟨huntouched.rank, huntouched.spawnAt, { huntouched.idle with }⟩
  | @solver _ e w hevent hw =>
      refine { h with before := fun hne => ?_ }
      have huntouched := h.before hne
      cases e with
      | spawn | collect | complete => exact absurd (by simpa [solverEvent] using hevent) hne
      | addSolverId | setSolverIds => cases hevent
      | abort | shutdown =>
          cases hw
          exact ⟨huntouched.rank, huntouched.spawnAt, { huntouched.idle with }⟩
  | connecting | passStart | passEnd | visitInvalid | visit => exact { h with }

theorem ordered_initial (nranks : ℕ) :
    Ordered here (initial nranks osThreads : Console L R) := by
  constructor
  · intro l hl
    cases hl
  · intro _
    exact ⟨rfl, rfl, fun s => rfl, rfl, rfl, rfl⟩

/-- Once `spawn` has been called, either no solve is ever launched or the books are right. -/
structure Called (runOne : WrapperId L → ℤ → Option R) (numReps : ℕ) (c : Console L R) :
    Prop where
  spawned : c.mainAt = .spawning → c.wrappedSolver.Spawned
  books : c.mainAt = .spawning →
    (c.wrappedSolver.Idle ∧ c.wrappedSolver.localSeedOffset = none) ∨
      c.wrappedSolver.Accounted runOne numReps

/-- **The step lemma.** -/
theorem Called.step (h : c.Called runOne numReps) (hordered : Ordered here c)
    (hstep : Happens runOne here osThreads numReps e c c') : c'.Called runOne numReps := by
  cases hstep with
  | state | initHere | wait | startMonitor | startPoll | register =>
      constructor
      · intro hat
        cases hat
      · intro hat
        cases hat
  | callSpawn hat =>
      have huntouched := hordered.before (by rw [hat]; decide)
      refine ⟨fun _ => ⟨by simp [Wrapper.spawnCall], by simp [Wrapper.spawnCall], ?_⟩, fun _ => ?_⟩
      · intro x hx
        simp [Wrapper.spawnCall] at hx
      · by_cases hranks : c.wrappedSolver.nranks = 0
        · refine Or.inl ⟨{ huntouched.idle with }, ?_⟩
          simp [Wrapper.spawnCall, Wrapper.seedOffset, hranks]
        · exact Or.inr (huntouched.accounted (Nat.pos_of_ne_zero hranks) numReps)
  | initDone hcount hlock hids =>
      refine ⟨fun hat => { h.spawned hat with }, fun hat => ?_⟩
      rcases h.books hat with ⟨hidle, hoffset⟩ | hbooks
      · exact Or.inl ⟨{ hidle with }, hoffset⟩
      · exact Or.inr { hbooks with }
  | solver hevent hw =>
      refine ⟨fun hat => (h.spawned hat).step hw, fun hat => ?_⟩
      rcases h.books hat with ⟨hidle, hoffset⟩ | hbooks
      · exact Or.inl (hidle.step hoffset hw)
      · exact Or.inr (hbooks.step hw)
  | connecting | passStart | passEnd | visitConnecting | visitInvalid | visit => exact { h with }

theorem called_initial (nranks : ℕ) :
    (initial nranks osThreads : Console L R).Called runOne numReps := by
  constructor
  · intro hat
    cases hat
  · intro hat
    cases hat

/-- **The run lemma.** -/
theorem called_of_reaches {ok : ConsoleEvent L → Prop} {nranks : ℕ}
    (hreach : Reaches (step runOne here osThreads numReps) ok (initial nranks osThreads) c) :
    Ordered here c ∧ c.Called runOne numReps := by
  have hall : Cycle here osThreads c ∧ Ordered here c ∧ c.Called runOne numReps := by
    refine hreach.invariant
      (P := fun u => Cycle here osThreads u ∧ Ordered here u ∧ u.Called runOne numReps) ?_
      ⟨cycle_initial nranks, ordered_initial nranks, called_initial nranks⟩
    rintro e u v _ ⟨hcycle, hordered, hcalled⟩ hstep
    have hhappens := step_happens hstep
    exact ⟨hcycle.step hhappens, hordered.step hcycle hhappens, hcalled.step hordered hhappens⟩
  exact hall.2

end Console

end SpinGlass
