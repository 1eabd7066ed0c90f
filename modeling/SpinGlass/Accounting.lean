import SpinGlass.SolverWrapper
import SpinGlass.Lib.Channels
import Mathlib.Data.List.Range

/-!
# Accounting — where the repetitions of a call of `spawn` are

`Accounted` relates what has been launched, what has been collected and what
stands in the queues, in every state of a call of `spawn`. Each solver is a
channel: its solves are launched into its queue and collected from the front
of it.
-/

namespace SpinGlass

namespace Wrapper

open Transition Channels

variable {I R : Type}

/-- The seeds of the solves in the queue of a solver. -/
def queuedSeeds (w : Wrapper I R) (s : I) : List ℤ := (w.asyncResults s).map Task.seed

/-- The thread in `spawn` is inside the loop that launches. -/
def InLoop (w : Wrapper I R) : Prop :=
  w.spawnAt = .lock ∨ ∃ rest enough, w.spawnAt = .launch rest enough

/-! ## What the steps leave alone -/

/-- The two states have launched and collected the same. -/
structure SameBooks (w w' : Wrapper I R) : Prop where
  asyncResults : w'.asyncResults = w.asyncResults
  results : w'.repetitionResultsVector = w.repetitionResultsVector
  total : w'.totalCompleted = w.totalCompleted
  remaining : w'.remaining = w.remaining
  seed : w'.seed = w.seed
  offset : w'.localSeedOffset = w.localSeedOffset
  launched : w'.launched = w.launched
  collected : w'.collected = w.collected

section Steps

variable [DecidableEq I] {runOne : I → ℤ → Option R} {e : Event I} {w w' : Wrapper I R}

/-- **What a step does to the books**: nothing, or one launch, one solve that is collected,
or one that returns. -/
theorem Happens.books (h : Happens runOne e w w') :
    SameBooks w w' ∨
    (∃ s rest enough offset, w.spawnAt = .launch (s :: rest) enough ∧
      w.localSeedOffset = some offset ∧ (w.asyncResults s).length < w.osThreads * 5 ∧
      SameBooks (launchOn s offset w) w') ∨
    (∃ s seed r tasks, w.asyncResults s = ⟨seed, some r⟩ :: tasks ∧
      w' = collectFrom s seed r w) ∨
    (∃ s j seed r, (w.asyncResults s)[j]? = some ⟨seed, none⟩ ∧ runOne s seed = some r ∧
      w' = makeReady s j seed r w) := by
  cases e with
  | spawn =>
      obtain ⟨position, -, hw⟩ := h.spawn_moves
      rcases hw with rfl | ⟨s, rest, enough, offset, hat, hoff, hroom, rfl⟩
      · exact Or.inl ⟨rfl, rfl, rfl, rfl, rfl, rfl, rfl, rfl⟩
      · exact Or.inr (Or.inl ⟨s, rest, enough, offset, hat, hoff, hroom,
          rfl, rfl, rfl, rfl, rfl, rfl, rfl, rfl⟩)
  | collect =>
      cases h with
      | collect hat hq => exact Or.inr (Or.inr (Or.inl ⟨_, _, _, _, hq, rfl⟩))
      | collectOn | collectEnd | collectLock | passEnd | passOn =>
          exact Or.inl ⟨rfl, rfl, rfl, rfl, rfl, rfl, rfl, rfl⟩
  | complete s j =>
      cases h with
      | complete ht hr => exact Or.inr (Or.inr (Or.inr ⟨_, _, _, _, ht, hr, rfl⟩))
  | addSolverId | setSolverIds | abort | shutdown =>
      cases h
      exact Or.inl ⟨rfl, rfl, rfl, rfl, rfl, rfl, rfl, rfl⟩

/-- The loop is only entered, and only goes on, while repetitions remain. -/
theorem Happens.remaining_pos (h : Happens runOne e w w') (hw : w.InLoop → 0 < w.remaining) :
    w'.InLoop → 0 < w'.remaining := by
  intro hin
  cases h with
  | loopOn hat ha hr => exact hr
  | spawnLock hat => exact hw (Or.inl hat)
  | forEnd hat =>
      rcases endFor_cases _ w with ⟨hw', -, hr⟩ | hw'
      · rw [hw']
        exact hr
      · simp [hw', InLoop] at hin
  | launch hat hoff hroom =>
      rcases endBody_cases _ false (launchOn _ _ w) with ⟨hw', hr⟩ | ⟨hw', -⟩
      · rw [hw']
        exact hr
      · simp [hw', InLoop] at hin
  | full hat hfull =>
      rcases endBody_cases _ _ w with ⟨hw', hr⟩ | ⟨hw', -⟩
      · rw [hw']
        exact hr
      · simp [hw', InLoop] at hin
  | loopEnd => simp [InLoop] at hin
  | returns => simp [InLoop] at hin
  | collectOn | collectEnd | collectLock | passEnd | collect | passOn | complete
  | addSolverId | setSolverIds | abort | shutdown => exact hw hin

end Steps

/-! ## The invariant -/

/-- The books of a call of `spawn` for `numReps` repetitions. -/
structure Accounted [DecidableEq I] (runOne : I → ℤ → Option R) (numReps : ℕ)
    (w : Wrapper I R) : Prop where
  offset : w.localSeedOffset = some 0
  budget : w.seed + w.remaining = numReps
  seeds : w.launched.map Prod.snd = (List.range w.seed).map fun i => seedArgument i 0
  conserved : Conserved w.launched w.collected w.queuedSeeds
  total : w.totalCompleted = w.repetitionResultsVector.length
  results : List.Forall₂ (fun p r => runOne p.1 p.2 = some r) w.collected
    w.repetitionResultsVector
  ready : ∀ s, ∀ t ∈ w.asyncResults s, ∀ r, t.value = some r → runOne s t.seed = some r
  inLoop : w.InLoop → 0 < w.remaining

/-- An `int` holds the seed. -/
theorem seedArgument_of_lt {seed : ℕ} (h : seed < 2 ^ 31) : seedArgument seed 0 = seed := by
  rw [seedArgument, add_zero]
  exact Int.bmod_eq_of_le (by omega) (by omega)

theorem map_update_seed [DecidableEq I] (q : I → List (Task R)) (s : I)
    (tasks : List (Task R)) :
    (fun s' => ((Function.update q s tasks) s').map Task.seed)
      = Function.update (fun s' => (q s').map Task.seed) s (tasks.map Task.seed) := by
  funext s'
  by_cases hs : s' = s
  · subst hs
    simp
  · simp [Function.update_of_ne hs]

namespace Accounted

variable [DecidableEq I] {runOne : I → ℤ → Option R} {numReps : ℕ} {w w' : Wrapper I R}

theorem same (h : Accounted runOne numReps w) (hsame : SameBooks w w')
    (hin : w'.InLoop → 0 < w'.remaining) : Accounted runOne numReps w' := by
  constructor
  · rw [hsame.offset, h.offset]
  · rw [hsame.seed, hsame.remaining, h.budget]
  · rw [hsame.launched, hsame.seed, h.seeds]
  · have hq : w'.queuedSeeds = w.queuedSeeds := by
      funext s
      rw [queuedSeeds, queuedSeeds, hsame.asyncResults]
    rw [hsame.launched, hsame.collected, hq]
    exact h.conserved
  · rw [hsame.total, hsame.results, h.total]
  · rw [hsame.collected, hsame.results]
    exact h.results
  · rw [hsame.asyncResults]
    exact h.ready
  · exact hin

/-- A launch puts the next seed into the queue. -/
theorem launchOn (h : Accounted runOne numReps w) (hrem : 0 < w.remaining) (s : I)
    (hin : (launchOn s 0 w).InLoop → 0 < (Wrapper.launchOn s 0 w).remaining) :
    Accounted runOne numReps (Wrapper.launchOn s 0 w) := by
  have hbudget := h.budget
  constructor
  · exact h.offset
  · show w.seed + 1 + (w.remaining - 1) = numReps
    omega
  · show (w.launched ++ [(s, seedArgument w.seed 0)]).map Prod.snd = _
    rw [List.map_append, h.seeds]
    show _ = (List.range (w.seed + 1)).map _
    rw [List.range_succ, List.map_append, List.map_cons, List.map_nil, List.map_cons,
      List.map_nil]
  · -- for any argument, so that `seedArgument` is not evaluated
    have hsend : ∀ a : ℤ, Conserved (w.launched ++ [(s, a)]) w.collected
        (fun s' => (Function.update w.asyncResults s
          (w.asyncResults s ++ [⟨a, none⟩]) s').map Task.seed) := by
      intro a
      rw [map_update_seed, List.map_append]
      exact h.conserved.send s a
    exact hsend (seedArgument w.seed 0)
  · exact h.total
  · exact h.results
  · intro s' t ht r hr
    by_cases hs : s' = s
    · subst hs
      have hmem : t ∈ w.asyncResults s' ++ [⟨seedArgument w.seed 0, none⟩] := by
        simpa [Wrapper.launchOn] using ht
      rcases List.mem_append.mp hmem with hmem | hmem
      · exact h.ready s' t hmem r hr
      · rw [List.mem_singleton.mp hmem] at hr
        cases hr
    · have hmem : t ∈ w.asyncResults s' := by
        simpa [Wrapper.launchOn, Function.update_of_ne hs] using ht
      exact h.ready s' t hmem r hr
  · exact hin

/-- A collected solve goes from the front of its queue to the end of the vector. -/
theorem collectFrom (h : Accounted runOne numReps w) {s : I} {seed : ℤ} {r : R}
    {tasks : List (Task R)} (hq : w.asyncResults s = ⟨seed, some r⟩ :: tasks) :
    Accounted runOne numReps (collectFrom s seed r w) := by
  constructor
  · exact h.offset
  · exact h.budget
  · exact h.seeds
  · show Conserved w.launched (w.collected ++ [(s, seed)])
      (fun s' => (Function.update w.asyncResults s (w.asyncResults s).tail s').map Task.seed)
    rw [map_update_seed]
    exact h.conserved.receive (by simp [queuedSeeds, hq])
  · show w.totalCompleted + 1 = (w.repetitionResultsVector ++ [r]).length
    rw [h.total, List.length_append, List.length_singleton]
  · show List.Forall₂ _ (w.collected ++ [(s, seed)]) (w.repetitionResultsVector ++ [r])
    have hr : runOne s seed = some r := h.ready s ⟨seed, some r⟩ (by simp [hq]) r rfl
    exact List.rel_append h.results (List.Forall₂.cons hr List.Forall₂.nil)
  · intro s' t ht r' hr'
    by_cases hs : s' = s
    · subst hs
      have hmem : t ∈ (w.asyncResults s').tail := by
        simpa [Wrapper.collectFrom] using ht
      exact h.ready s' t (List.mem_of_mem_tail hmem) r' hr'
    · have hmem : t ∈ w.asyncResults s' := by
        simpa [Wrapper.collectFrom, Function.update_of_ne hs] using ht
      exact h.ready s' t hmem r' hr'
  · exact h.inLoop

/-- A future that becomes ready stays where it is. -/
theorem makeReady (h : Accounted runOne numReps w) {s : I} {j : ℕ} {seed : ℤ} {r : R}
    (hj : (w.asyncResults s)[j]? = some ⟨seed, none⟩) (hr : runOne s seed = some r) :
    Accounted runOne numReps (makeReady s j seed r w) := by
  have hseeds : ((w.asyncResults s).set j ⟨seed, some r⟩).map Task.seed
      = (w.asyncResults s).map Task.seed := by
    obtain ⟨hlt, hget⟩ := List.getElem?_eq_some_iff.mp hj
    have hlt' : j < ((w.asyncResults s).map Task.seed).length := by simpa using hlt
    calc ((w.asyncResults s).set j ⟨seed, some r⟩).map Task.seed
        = ((w.asyncResults s).map Task.seed).set j ((w.asyncResults s).map Task.seed)[j] := by
          simp [List.map_set, hget]
      _ = (w.asyncResults s).map Task.seed := List.set_getElem_self hlt'
  constructor
  · exact h.offset
  · exact h.budget
  · exact h.seeds
  · show Conserved w.launched w.collected
      (fun s' => (Function.update w.asyncResults s
        ((w.asyncResults s).set j ⟨seed, some r⟩) s').map Task.seed)
    rw [map_update_seed, hseeds]
    have hq := h.conserved
    rwa [show w.queuedSeeds = Function.update (fun s' => (w.asyncResults s').map Task.seed) s
      ((w.asyncResults s).map Task.seed) from (Function.update_eq_self s _).symm] at hq
  · exact h.total
  · exact h.results
  · intro s' t ht r' hr'
    by_cases hs : s' = s
    · subst hs
      have hmem : t ∈ (w.asyncResults s').set j ⟨seed, some r⟩ := by
        simpa [Wrapper.makeReady] using ht
      rcases List.mem_or_eq_of_mem_set hmem with hmem | rfl
      · exact h.ready s' t hmem r' hr'
      · cases hr'
        exact hr
    · have hmem : t ∈ w.asyncResults s' := by
        simpa [Wrapper.makeReady, Function.update_of_ne hs] using ht
      exact h.ready s' t hmem r' hr'
  · exact h.inLoop

/-- **The step lemma**: every event keeps the books. -/
theorem step (h : Accounted runOne numReps w) {e : Event I} (hstep : Happens runOne e w w') :
    Accounted runOne numReps w' := by
  have hin := hstep.remaining_pos h.inLoop
  rcases hstep.books with hsame | ⟨s, rest, enough, offset, hat, hoff, -, hsame⟩ |
    ⟨s, seed, r, tasks, hq, rfl⟩ | ⟨s, j, seed, r, hj, hr, rfl⟩
  · exact h.same hsame hin
  · have hrem := h.inLoop (Or.inr ⟨_, _, hat⟩)
    rw [h.offset] at hoff
    cases hoff
    -- the position of the thread is put aside: between the two it may break `inLoop`
    have hbooks : Accounted runOne numReps { Wrapper.launchOn s 0 w with spawnAt := .idle } := by
      have hidle : Accounted runOne numReps { w with spawnAt := .idle } :=
        h.same ⟨rfl, rfl, rfl, rfl, rfl, rfl, rfl, rfl⟩ (by simp [InLoop])
      exact hidle.launchOn hrem s (by simp [InLoop, Wrapper.launchOn])
    exact hbooks.same ⟨hsame.asyncResults, hsame.results, hsame.total, hsame.remaining,
      hsame.seed, hsame.offset, hsame.launched, hsame.collected⟩ hin
  · exact h.collectFrom hq
  · exact h.makeReady hj hr

/-- **The run lemma**: the books are right in every state that a call of `spawn` reaches. -/
theorem reaches (h : Accounted runOne numReps w) {ok : Event I → Prop}
    (hreach : Reaches (Wrapper.step runOne) ok w w') :
    Accounted runOne numReps w' :=
  hreach.invariant (fun _ _ _ _ hu hstep => hu.step (step_happens hstep)) h

/-- The seeds are the numbers of the repetitions, as long as an `int` holds them. -/
theorem seeds_eq (h : Accounted runOne numReps w) (hreps : numReps < 2 ^ 31) :
    w.launched.map Prod.snd = (List.range w.seed).map fun i : ℕ => (i : ℤ) := by
  rw [h.seeds]
  refine List.map_congr_left fun i hi => seedArgument_of_lt ?_
  have hlt := List.mem_range.mp hi
  have hbudget := h.budget
  omega

theorem nodup_seeds (h : Accounted runOne numReps w) (hreps : numReps < 2 ^ 31) :
    (w.launched.map Prod.snd).Nodup := by
  rw [h.seeds_eq hreps]
  exact List.Nodup.map (fun _ _ hij => Int.ofNat.inj hij) List.nodup_range

theorem pairwise_seeds (h : Accounted runOne numReps w) (hreps : numReps < 2 ^ 31) :
    (w.launched.map Prod.snd).Pairwise (· < ·) := by
  rw [h.seeds_eq hreps, List.pairwise_map]
  exact List.pairwise_lt_range.imp fun hij => Int.ofNat_lt.mpr hij

/-- What has been collected has the seed of a repetition. -/
theorem seed_of_collected (h : Accounted runOne numReps w) (hreps : numReps < 2 ^ 31)
    {p : I × ℤ} (hp : p ∈ w.collected) : ∃ i : ℕ, p.2 = (i : ℤ) ∧ i < numReps := by
  have hmem := h.conserved.mem_sent_of_received (s := p.1) (a := p.2) hp
  have hsnd : p.2 ∈ w.launched.map Prod.snd := List.mem_map.mpr ⟨_, hmem, rfl⟩
  rw [h.seeds_eq hreps] at hsnd
  obtain ⟨i, hi, heq⟩ := List.mem_map.mp hsnd
  have hlt := List.mem_range.mp hi
  have hbudget := h.budget
  exact ⟨i, heq.symm, by omega⟩

/-- Once everything has been launched and collected, every seed has been collected once. -/
theorem perm_of_empty (h : Accounted runOne numReps w) (hreps : numReps < 2 ^ 31)
    (hrem : w.remaining = 0) (hempty : ∀ s, w.asyncResults s = []) :
    (w.collected.map Prod.snd).Perm ((List.range numReps).map fun i : ℕ => (i : ℤ)) := by
  have hbudget := h.budget
  have hall : w.seed = numReps := by omega
  have hperm := h.conserved.perm_of_empty fun s => by rw [queuedSeeds, hempty s, List.map_nil]
  rw [← hall, ← h.seeds_eq hreps]
  exact hperm.map Prod.snd

/-- Once everything has been launched and collected, the vector is complete. -/
theorem total_of_empty (h : Accounted runOne numReps w) (hrem : w.remaining = 0)
    (hempty : ∀ s, w.asyncResults s = []) : w.totalCompleted = numReps := by
  have hperm := h.conserved.perm_of_empty fun s => by rw [queuedSeeds, hempty s, List.map_nil]
  have hlaunched := congrArg List.length h.seeds
  rw [List.length_map, List.length_map, List.length_range] at hlaunched
  have hbudget := h.budget
  rw [h.total, ← h.results.length_eq, hperm.length_eq, hlaunched]
  omega

end Accounted

/-! ## The call -/

/-- A wrapper of locality `0` to which the ids have been added, one by one. -/
def created (nranks osThreads : ℕ) (ids : List I) : Wrapper I R :=
  ids.foldl addSolverId (wrappedSolverClass 0 nranks osThreads)

theorem foldl_addSolverId (ids : List I) (w : Wrapper I R) :
    ids.foldl addSolverId w = { w with
      solverIds := w.solverIds ++ ids
      nranks := if ids = [] then w.nranks else (w.solverIds ++ ids).length } := by
  induction ids generalizing w with
  | nil => simp
  | cons id ids ih =>
      rw [List.foldl_cons, ih]
      by_cases hids : ids = []
      · simp [addSolverId, hids]
      · simp [addSolverId, hids, add_left_comm]

/-- On locality `0` the seeds have no offset. -/
theorem seedOffset_rank_zero {nranks : ℕ} (h : 0 < nranks) (numReps : ℕ) :
    seedOffset 0 nranks numReps = some 0 := by
  simp [seedOffset, Nat.ne_of_gt h]

theorem accounted_spawnCall [DecidableEq I] (runOne : I → ℤ → Option R)
    {nranks osThreads : ℕ} {ids : List I}
    (hranks : 0 < (created nranks osThreads ids : Wrapper I R).nranks) (numReps : ℕ) :
    Accounted runOne numReps ((created nranks osThreads ids).spawnCall numReps) := by
  have hoffset := seedOffset_rank_zero hranks numReps
  rw [created, foldl_addSolverId] at hoffset ⊢
  constructor
  · exact hoffset
  · exact Nat.zero_add numReps
  · rfl
  · exact Conserved.start
  · rfl
  · exact List.Forall₂.nil
  · intro s t ht
    cases ht
  · simp [InLoop, spawnCall]

end Wrapper

end SpinGlass
