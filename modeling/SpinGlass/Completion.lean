import SpinGlass.Progress
import SpinGlass.Repetitions
import Mathlib.Data.Prod.Lex

/-!
# Completion — a call of `spawn` whose work is done

When all repetitions have been launched and collected, the collecting thread
has nothing left to wait for, but its loop only tests `_abort` and the
runtime. `Quiet` runs are those without an abort and without a shutdown: a
finished state is reached in them whenever anything can be launched at all,
and in no state of them does `spawn` return.
-/

namespace SpinGlass

namespace Wrapper

open Transition

variable {I R : Type}

/-- All repetitions have been launched and collected. -/
structure Finished (numReps : ℕ) (w : Wrapper I R) : Prop where
  remaining : w.remaining = 0
  queues : ∀ s, w.asyncResults s = []
  total : w.totalCompleted = numReps

/-- Steps of the two threads and returns of solves. -/
def Quiet : Event I → Prop
  | .spawn | .collect | .complete _ _ => True
  | _ => False

/-- The call of `spawn` on a new wrapper of locality `0` with the solvers `ids`. -/
def call (osThreads numReps : ℕ) (ids : List I) : Wrapper I R :=
  (created 0 osThreads ids).spawnCall numReps

variable [DecidableEq I] {runOne : I → ℤ → Option R} {osThreads numReps : ℕ} {ids : List I}

/-- **A finished job returns**: in every finished state of a quiet run the condition of
the loop in `remove_completed_solver_steps` is false. -/
def FinishedJobReturns (runOne : I → ℤ → Option R) (osThreads numReps : ℕ) (ids : List I) :
    Prop :=
  ∀ w, Reaches (step runOne) Quiet (call osThreads numReps ids) w → Finished numReps w →
    w.goesOn = false

/-! ## Quiet runs -/

/-- What holds in every state of a quiet run with the solvers `ids`. -/
structure Calm (osThreads : ℕ) (ids : List I) (w : Wrapper I R) : Prop where
  abort : w.abort = false
  running : w.isRunning = true
  solverIds : w.solverIds = ids
  osThreads : w.osThreads = osThreads
  collecting : w.Collecting
  called : w.spawnAt ≠ .idle
  notReturned : ∀ x, w.spawnAt ≠ .returned x
  join : w.spawnAt = .join → w.remaining = 0
  rest : ∀ rest enough, w.spawnAt = .launch rest enough → ∀ s ∈ rest, s ∈ ids
  queues : ∀ s, s ∉ ids → w.asyncResults s = []

omit [DecidableEq I] in
theorem Calm.goesOn {w : Wrapper I R} (h : Calm osThreads ids w) : w.goesOn = true := by
  simp [Wrapper.goesOn, h.abort, h.running]

/-- A step of the collecting thread keeps this: its loop goes on. -/
theorem Calm.collectStep {w w' : Wrapper I R} (h : Calm osThreads ids w)
    (hstep : Happens runOne .collect w w') : Calm osThreads ids w' := by
  cases hstep with
  | collectOn hat hgo => exact { h with collecting := by simp [Collecting] }
  | collectEnd hat hgo => exact absurd (h.goesOn.symm.trans hgo) (by simp)
  | collectLock hat => exact { h with collecting := by simp [Collecting] }
  | passEnd hat => exact { h with collecting := by simp [Collecting] }
  | passOn hat hfront => exact { h with collecting := by simp [Collecting] }
  | @collect _ s rest seed r tasks hat hq =>
      refine { h with queues := fun s' hs' => ?_ }
      by_cases hs : s' = s
      · subst hs
        simp [collectFrom, h.queues s' hs']
      · simp [collectFrom, Function.update_of_ne hs, h.queues s' hs']

/-- A solve that returns keeps this. -/
theorem Calm.completeStep {w w' : Wrapper I R} (h : Calm osThreads ids w) {s : I} {j : ℕ}
    (hstep : Happens runOne (.complete s j) w w') : Calm osThreads ids w' := by
  cases hstep with
  | complete ht hr =>
      refine { h with queues := fun s' hs' => ?_ }
      by_cases hs : s' = s
      · subst hs
        simp [makeReady, h.queues s' hs']
      · simp [makeReady, Function.update_of_ne hs, h.queues s' hs']

/-- A step of the launching thread keeps this: it only waits once nothing remains. -/
theorem Calm.spawnStep {w w' : Wrapper I R} (h : Calm osThreads ids w)
    (hstep : Happens runOne .spawn w w') : Calm osThreads ids w' := by
  obtain ⟨position, hmoves, hw⟩ := hstep.spawn_moves
  have hjoin : position = .join → w.remaining = 0 := fun heq =>
    (hmoves.join heq).resolve_left (by simp [h.abort])
  have hreturned : ∀ x, position ≠ .returned x := fun x heq =>
    h.collecting.2 (hmoves.returned x heq).1
  have hrest : ∀ rest enough, position = .launch rest enough → ∀ s ∈ rest, s ∈ ids := by
    intro rest enough heq s hs
    rcases hmoves.rest rest enough heq with rfl | ⟨s', enough', hat⟩
    · rwa [h.solverIds] at hs
    · exact h.rest _ _ hat s (by simp [hs])
  rcases hw with rfl | ⟨s, rest, enough, offset, hat, -, -, rfl⟩
  · exact { h with
      called := hmoves.called, notReturned := hreturned, join := hjoin, rest := hrest }
  · refine { h with
      called := hmoves.called, notReturned := hreturned, join := fun heq => ?_, rest := hrest,
      queues := fun s' hs' => ?_ }
    · show w.remaining - 1 = 0
      rw [hjoin heq]
    · have hne : s' ≠ s := fun hs => hs' (hs ▸ h.rest _ _ hat s (by simp))
      show (launchOn s offset w).asyncResults s' = []
      simp [launchOn, Function.update_of_ne hne, h.queues s' hs']

theorem Calm.step {w w' : Wrapper I R} (h : Calm osThreads ids w) {e : Event I}
    (he : Quiet e) (hstep : Happens runOne e w w') : Calm osThreads ids w' := by
  cases e with
  | spawn => exact h.spawnStep hstep
  | collect => exact h.collectStep hstep
  | complete s j => exact h.completeStep hstep
  | addSolverId | setSolverIds | abort | shutdown => exact absurd he (by simp [Quiet])

omit [DecidableEq I] in
theorem calm_call : Calm osThreads ids (call osThreads numReps ids : Wrapper I R) := by
  rw [call, created, foldl_addSolverId]
  exact ⟨rfl, rfl, rfl, rfl, by simp [Collecting, spawnCall], by simp [spawnCall],
    by simp [spawnCall], by simp [spawnCall], by simp [spawnCall], fun _ _ => rfl⟩

theorem Calm.reaches {w w' : Wrapper I R} (h : Calm osThreads ids w)
    (hreach : Reaches (Wrapper.step runOne) Quiet w w') : Calm osThreads ids w' :=
  hreach.invariant (fun _ _ _ he hu hstep => hu.step he (step_happens hstep)) h

/-! ## What is left to do -/

/-- What is left to do with the tasks of a queue: each solve is to return, and each future
to be collected. -/
def load (tasks : List (Task R)) : ℕ := tasks.length + tasks.countP fun t => t.value.isNone

/-- What is left to do with the tasks of all queues. -/
def totalLoad (ids : List I) (w : Wrapper I R) : ℕ :=
  (ids.map fun s => load (w.asyncResults s)).sum

/-- The steps of the collecting thread up to the next nonempty queue. -/
def collectDistance (ids : List I) (w : Wrapper I R) : ℕ :=
  match w.collectAt with
  | .pass rest =>
      if ∃ s ∈ rest, w.asyncResults s ≠ [] then rest.length else rest.length + ids.length + 3
  | .loopTest => ids.length + 2
  | .lock => ids.length + 1
  | _ => 0

/-- The steps of the launching thread up to the next launch, when all queues are empty. -/
def launchDistance (w : Wrapper I R) : ℕ :=
  match w.spawnAt with
  | .launch [] _ => 3
  | .loopTest => 2
  | .lock => 1
  | _ => 0

/-- The launches that are left come first, then the tasks in the queues, then the way to
the next step that counts. -/
def workLeft (ids : List I) (w : Wrapper I R) : ℕ ×ₗ ℕ ×ₗ ℕ :=
  toLex (w.remaining, toLex (w.totalLoad ids,
    if w.totalLoad ids = 0 then w.launchDistance else w.collectDistance ids))

theorem load_eq_zero {tasks : List (Task R)} : load tasks = 0 ↔ tasks = [] := by
  cases tasks with
  | nil => simp [load]
  | cons t tasks => simp [load]

omit [DecidableEq I] in
theorem totalLoad_eq_zero {w : Wrapper I R} :
    w.totalLoad ids = 0 ↔ ∀ s ∈ ids, w.asyncResults s = [] := by
  simp [totalLoad, List.sum_eq_zero_iff, load_eq_zero]

omit [DecidableEq I] in
/-- A queue with less to do, while the others stay, is less to do in all. -/
theorem totalLoad_lt {w w' : Wrapper I R} {s : I} (hs : s ∈ ids)
    (hlt : load (w'.asyncResults s) < load (w.asyncResults s))
    (hother : ∀ s', s' ≠ s → w'.asyncResults s' = w.asyncResults s') :
    w'.totalLoad ids < w.totalLoad ids := by
  refine List.sum_lt_sum _ _ (fun s' _ => ?_) ⟨s, hs, hlt⟩
  by_cases heq : s' = s
  · subst heq
    exact le_of_lt hlt
  · rw [hother s' heq]

omit [DecidableEq I] in
theorem workLeft_lt_of_remaining {w w' : Wrapper I R} (h : w'.remaining < w.remaining) :
    w'.workLeft ids < w.workLeft ids :=
  Prod.Lex.toLex_lt_toLex.mpr (Or.inl h)

omit [DecidableEq I] in
theorem workLeft_lt_of_load {w w' : Wrapper I R} (hrem : w'.remaining = w.remaining)
    (h : w'.totalLoad ids < w.totalLoad ids) : w'.workLeft ids < w.workLeft ids :=
  Prod.Lex.toLex_lt_toLex.mpr (Or.inr ⟨hrem, Prod.Lex.toLex_lt_toLex.mpr (Or.inl h)⟩)

omit [DecidableEq I] in
theorem workLeft_lt_of_collect {w w' : Wrapper I R} (hrem : w'.remaining = w.remaining)
    (hqueues : w'.asyncResults = w.asyncResults) (hload : w.totalLoad ids ≠ 0)
    (h : w'.collectDistance ids < w.collectDistance ids) :
    w'.workLeft ids < w.workLeft ids := by
  have hsame : w'.totalLoad ids = w.totalLoad ids := by rw [totalLoad, totalLoad, hqueues]
  refine Prod.Lex.toLex_lt_toLex.mpr (Or.inr ⟨hrem, ?_⟩)
  refine Prod.Lex.toLex_lt_toLex.mpr (Or.inr ⟨hsame, ?_⟩)
  rwa [hsame, if_neg hload, if_neg hload]

omit [DecidableEq I] in
theorem workLeft_lt_of_launch {w w' : Wrapper I R} (hrem : w'.remaining = w.remaining)
    (hqueues : w'.asyncResults = w.asyncResults) (hload : w.totalLoad ids = 0)
    (h : w'.launchDistance < w.launchDistance) : w'.workLeft ids < w.workLeft ids := by
  have hsame : w'.totalLoad ids = w.totalLoad ids := by rw [totalLoad, totalLoad, hqueues]
  refine Prod.Lex.toLex_lt_toLex.mpr (Or.inr ⟨hrem, ?_⟩)
  refine Prod.Lex.toLex_lt_toLex.mpr (Or.inr ⟨hsame, ?_⟩)
  rwa [hsame, if_pos hload, if_pos hload]

/-! ## The next step -/

/-- A solve that has not returned can return. -/
theorem exists_complete (hsolves : ∀ s ∈ ids, ∀ seed, ∃ r, runOne s seed = some r)
    {w : Wrapper I R} {s : I} (hs : s ∈ ids) {t : Task R} (ht : t ∈ w.asyncResults s)
    (hnone : t.value = none) :
    ∃ j w', step runOne (.complete s j) w = some w' ∧ w'.workLeft ids < w.workLeft ids := by
  obtain ⟨j, hj, hget⟩ := List.getElem_of_mem ht
  obtain ⟨seed, value⟩ := t
  obtain rfl : value = none := hnone
  obtain ⟨r, hr⟩ := hsolves s hs seed
  have hstep : step runOne (.complete s j) w = some (makeReady s j seed r w) := by
    show completeStep runOne s j w = _
    simp [completeStep, List.getElem?_eq_getElem hj, hget, hr]
  refine ⟨j, _, hstep, workLeft_lt_of_load rfl (totalLoad_lt hs ?_ fun s' hs' => ?_)⟩
  · have hcount : 0 < (w.asyncResults s).countP fun t => t.value.isNone :=
      List.countP_pos_iff.mpr ⟨_, ht, rfl⟩
    simp only [makeReady, Function.update_self, load, List.length_set,
      List.countP_set hj, hget, Option.isNone_none, if_true, Option.isNone_some]
    simp only [Bool.false_eq_true, if_false]
    omega
  · simp [makeReady, Function.update_of_ne hs']

/-- While tasks are queued that are all ready, the collecting thread gets closer to one,
or collects it. -/
theorem exists_collect (runOne : I → ℤ → Option R) {w : Wrapper I R} (h : Calm osThreads ids w)
    (hload : w.totalLoad ids ≠ 0)
    (hready : ∀ s ∈ ids, ∀ t ∈ w.asyncResults s, t.value ≠ none) :
    ∃ w', step runOne .collect w = some w' ∧ w'.workLeft ids < w.workLeft ids := by
  obtain ⟨w', hstep⟩ := exists_collectStep runOne h.collecting
  refine ⟨w', hstep, ?_⟩
  have hsome : ∃ s ∈ ids, w.asyncResults s ≠ [] := by
    by_contra hno
    push Not at hno
    exact hload (totalLoad_eq_zero.mpr hno)
  cases step_happens hstep with
  | collectOn hat hgo =>
      refine workLeft_lt_of_collect rfl rfl hload ?_
      simp [collectDistance, hat]
  | collectEnd hat hgo => exact absurd (h.goesOn.symm.trans hgo) (by simp)
  | collectLock hat =>
      refine workLeft_lt_of_collect rfl rfl hload ?_
      simp only [collectDistance, hat, h.solverIds]
      rw [if_pos hsome]
      exact Nat.lt_succ_self _
  | passEnd hat =>
      refine workLeft_lt_of_collect rfl rfl hload ?_
      simp [collectDistance, hat]
  | @collect _ s rest seed r tasks hat hq =>
      have hs : s ∈ ids := by
        by_contra hs
        rw [h.queues s hs] at hq
        cases hq
      refine workLeft_lt_of_load rfl (totalLoad_lt hs ?_ fun s' hs' => ?_)
      · simp only [collectFrom, Function.update_self, load, hq, List.tail_cons,
          List.length_cons, List.countP_cons]
        omega
      · simp [collectFrom, Function.update_of_ne hs']
  | @passOn _ s rest hat hfront =>
      -- all that is queued is ready, so only an empty queue is passed over
      have hempty : w.asyncResults s = [] := by
        cases hq : w.asyncResults s with
        | nil => rfl
        | cons t tasks =>
            have hs : s ∈ ids := by
              by_contra hs
              rw [h.queues s hs] at hq
              cases hq
            exact absurd (hfront t (by simp [hq])) (hready s hs t (by simp [hq]))
      refine workLeft_lt_of_collect rfl rfl hload ?_
      simp only [collectDistance, hat, List.exists_mem_cons_iff, hempty, ne_eq,
        not_true_eq_false, false_or, List.length_cons]
      split
      · exact Nat.lt_succ_self _
      · omega

/-- While all queues are empty and repetitions remain, the launching thread gets closer to
a launch, or launches one. -/
theorem exists_launch (runOne : I → ℤ → Option R) {w : Wrapper I R}
    (h : Calm osThreads ids w) (hids : ids ≠ []) (hos : 0 < osThreads) {offset : ℤ}
    (hoffset : w.localSeedOffset = some offset) (hrem : 0 < w.remaining) (hload : w.totalLoad ids = 0) :
    ∃ w', step runOne .spawn w = some w' ∧ w'.workLeft ids < w.workLeft ids := by
  have hempty := totalLoad_eq_zero.mp hload
  show ∃ w', spawnStep w = some w' ∧ _
  cases hat : w.spawnAt with
  | idle => exact absurd hat h.called
  | returned x => exact absurd hat (h.notReturned x)
  | join => exact absurd (h.join hat) (Nat.ne_of_gt hrem)
  | loopTest =>
      refine ⟨{ w with spawnAt := .lock }, ?_, workLeft_lt_of_launch rfl rfl hload ?_⟩
      · simp [spawnStep, hat, h.abort, hrem]
      · simp [launchDistance, hat]
  | lock =>
      refine ⟨{ w with spawnAt := .launch w.solverIds true }, ?_,
        workLeft_lt_of_launch rfl rfl hload ?_⟩
      · simp [spawnStep, hat]
      · obtain ⟨s, rest, hcons⟩ := List.exists_cons_of_ne_nil hids
        simp [launchDistance, hat, h.solverIds, hcons]
  | launch rest enough =>
      cases rest with
      | nil =>
          refine ⟨endFor enough w, by simp [spawnStep, hat], ?_⟩
          rcases endFor_cases enough w with ⟨hw, -, -⟩ | hw
          · rw [hw]
            exact workLeft_lt_of_launch rfl rfl hload (by simp [launchDistance, hat])
          · rw [hw]
            exact workLeft_lt_of_launch rfl rfl hload (by simp [launchDistance, hat])
      | cons s rest =>
          have hroom : (w.asyncResults s).length < w.osThreads * 5 := by
            rw [hempty s (h.rest _ _ hat s (by simp)), h.osThreads, List.length_nil]
            omega
          refine ⟨endBody rest false (launchOn s offset w), ?_, workLeft_lt_of_remaining ?_⟩
          · simp [spawnStep, hat, hroom, hoffset]
          · have hless : w.remaining - 1 < w.remaining := Nat.sub_lt hrem Nat.one_pos
            rcases endBody_cases rest false (launchOn s offset w) with ⟨hw, -⟩ | ⟨hw, -⟩
            · rw [hw]
              exact hless
            · rw [hw]
              exact hless

/-- **A finished state is reached** when something can be launched at all. -/
theorem exists_finished (hsolves : ∀ s ∈ ids, ∀ seed, ∃ r, runOne s seed = some r)
    (hids : ids ≠ []) (hos : 0 < osThreads) {w : Wrapper I R} (hcalm : Calm osThreads ids w)
    (hbooks : Accounted runOne numReps w) :
    ∃ w', Reaches (step runOne) Quiet w w' ∧ Calm osThreads ids w' ∧ Finished numReps w' := by
  have hprogress : ∀ u : Wrapper I R, Calm osThreads ids u ∧ Accounted runOne numReps u →
      ¬ Finished numReps u → ∃ e u', Quiet e ∧ step runOne e u = some u' ∧
        (Calm osThreads ids u' ∧ Accounted runOne numReps u') ∧
        u'.workLeft ids < u.workLeft ids := by
    intro u hu hgoal
    have hkeeps : ∀ e u', Quiet e → step runOne e u = some u' →
        Calm osThreads ids u' ∧ Accounted runOne numReps u' := fun e u' he hstep =>
      ⟨hu.1.step he (step_happens hstep), hu.2.step (step_happens hstep)⟩
    -- a solve is under way, or all that is queued can be collected, or a launch is due
    by_cases hunready : ∃ s ∈ ids, ∃ t ∈ u.asyncResults s, t.value = none
    · obtain ⟨s, hs, t, ht, hnone⟩ := hunready
      obtain ⟨j, u', hstep, hlt⟩ := exists_complete hsolves hs ht hnone
      exact ⟨.complete s j, u', trivial, hstep, hkeeps (.complete s j) u' trivial hstep, hlt⟩
    · push Not at hunready
      by_cases hload : u.totalLoad ids = 0
      · have hempty : ∀ s, u.asyncResults s = [] := by
          intro s
          by_cases hs : s ∈ ids
          · exact totalLoad_eq_zero.mp hload s hs
          · exact hu.1.queues s hs
        have hrem : 0 < u.remaining := by
          by_contra hrem
          have hzero : u.remaining = 0 := Nat.eq_zero_of_not_pos hrem
          exact hgoal ⟨hzero, hempty, hu.2.total_of_empty hzero hempty⟩
        obtain ⟨u', hstep, hlt⟩ :=
          exists_launch runOne hu.1 hids hos hu.2.offset hrem hload
        exact ⟨.spawn, u', trivial, hstep, hkeeps .spawn u' trivial hstep, hlt⟩
      · obtain ⟨u', hstep, hlt⟩ := exists_collect runOne hu.1 hload hunready
        exact ⟨.collect, u', trivial, hstep, hkeeps .collect u' trivial hstep, hlt⟩
  obtain ⟨w', hreach, ⟨hcalm', -⟩, hfin⟩ :=
    exists_reaches_of_measure _ _ _ hprogress ⟨hcalm, hbooks⟩
  exact ⟨w', hreach, hcalm', hfin⟩

/-! ## The finished job -/

/-- Without a solver, or without room in any queue, a step launches nothing. -/
theorem Calm.remaining_eq {w w' : Wrapper I R} (h : Calm osThreads ids w)
    (hnone : ids = [] ∨ osThreads = 0) {e : Event I} (hstep : Happens runOne e w w') :
    w'.remaining = w.remaining := by
  rcases hstep.books with hsame | ⟨s, rest, enough, offset, hat, -, hroom, -⟩ |
    ⟨s, seed, r, tasks, hq, rfl⟩ | ⟨s, j, seed, r, hj, hr, rfl⟩
  · exact hsame.remaining
  · rcases hnone with hids | hos
    · have hs := h.rest _ _ hat s (by simp)
      simp [hids] at hs
    · rw [h.osThreads, hos] at hroom
      omega
  · rfl
  · rfl

/-- **When a finished job returns.** When every solve returns, the condition of the
collecting loop is false in every finished state just when there is no such state:
repetitions are asked for, and there is no solver or no room to launch them. And whatever
the call, `spawn` has not returned in any state of a quiet run. -/
theorem finished_job_returns_iff (runOne : I → ℤ → Option R) (osThreads numReps : ℕ)
    (ids : List I) (hsolves : ∀ s ∈ ids, ∀ seed, ∃ r, runOne s seed = some r) :
    (FinishedJobReturns runOne osThreads numReps ids ↔
      0 < numReps ∧ (ids = [] ∨ osThreads = 0)) ∧
    ∀ w, Reaches (step runOne) Quiet (call osThreads numReps ids) w →
      w.goesOn = true ∧ ∀ x, w.spawnAt ≠ .returned x := by
  have hcalm : Calm osThreads ids (call osThreads numReps ids : Wrapper I R) := calm_call
  refine ⟨⟨fun hreturns => ?_, fun hcond w hreach hfin => ?_⟩, fun w hreach => ?_⟩
  · have hnever : ∀ w, Reaches (step runOne) Quiet (call osThreads numReps ids) w →
        ¬ Finished numReps w := by
      intro w hreach hfin
      have hgo := (hcalm.reaches hreach).goesOn
      exact absurd (hgo.symm.trans (hreturns w hreach hfin)) (by simp)
    by_contra hcond
    by_cases hlaunch : ids ≠ [] ∧ 0 < osThreads
    · have hranks : 0 < (created 0 osThreads ids : Wrapper I R).nranks := by
        simp [created, foldl_addSolverId, wrappedSolverClass, hlaunch.1,
          List.length_pos_iff]
      obtain ⟨w, hreach, -, hfin⟩ := exists_finished hsolves hlaunch.1 hlaunch.2 hcalm
        (accounted_spawnCall runOne hranks numReps)
      exact hnever w hreach hfin
    · -- nothing can be launched, and nothing is asked for
      have hnone : ids = [] ∨ osThreads = 0 := by
        by_contra hno
        push Not at hno
        exact hlaunch ⟨hno.1, Nat.pos_of_ne_zero hno.2⟩
      have hzero : numReps = 0 := by
        by_contra hpos
        exact hcond ⟨Nat.pos_of_ne_zero hpos, hnone⟩
      refine hnever _ (Reaches.refl _) ⟨?_, fun s => ?_, ?_⟩
      · simp [call, spawnCall, hzero]
      · simp [call, spawnCall, created, foldl_addSolverId, wrappedSolverClass]
      · simp [call, spawnCall, hzero]
  · -- nothing is ever launched, so repetitions remain in every state
    have hrem : w.remaining = numReps := by
      have hboth : Calm osThreads ids w ∧ w.remaining = numReps := by
        refine hreach.invariant (P := fun u => Calm osThreads ids u ∧ u.remaining = numReps)
          (fun e u v he hu hstep => ?_) ⟨hcalm, rfl⟩
        have hhappens := step_happens hstep
        exact ⟨hu.1.step he hhappens, (hu.1.remaining_eq hcond.2 hhappens).trans hu.2⟩
      exact hboth.2
    have hpos := hcond.1
    rw [← hrem, hfin.remaining] at hpos
    exact absurd hpos (Nat.lt_irrefl 0)
  · exact ⟨(hcalm.reaches hreach).goesOn, (hcalm.reaches hreach).notReturned⟩

/-- One repetition on one node, from the call of `spawn` to the collected result. -/
def finishedEvents : List (Event ℕ) :=
  [.spawn, .spawn, .spawn, .complete 0 0, .collect, .collect, .collect]

/-- A job of one repetition has been launched and collected, and the loop goes on. -/
theorem finished_job_goes_on :
    ¬ FinishedJobReturns
      (fun _ seed => asyncSolve 4 sampleLib (saSolver sampleH) (1 / 10) 3 2 seed) 1 1 [0] := by
  intro hreturns
  have hrun : ((after
      (Wrapper.step fun _ seed => asyncSolve 4 sampleLib (saSolver sampleH) (1 / 10) 3 2 seed)
      finishedEvents (call 1 1 [0])).map fun w =>
        (w.remaining, w.asyncResults 0, w.totalCompleted, w.goesOn))
      = some (0, [], 1, true) := by decide +kernel
  obtain ⟨w, hw, hstate⟩ := Option.map_eq_some_iff.mp hrun
  simp only [Prod.mk.injEq] at hstate
  obtain ⟨hrem, hqueue, htotal, hgo⟩ := hstate
  have hreach : Reaches _ Quiet (call 1 1 [0]) w :=
    ⟨finishedEvents, by simp [finishedEvents, Quiet], hw⟩
  have hcalm : Calm 1 [0] w := calm_call.reaches hreach
  have hfin : Finished 1 w := by
    refine ⟨hrem, fun s => ?_, htotal⟩
    by_cases hs : s = 0
    · rw [hs, hqueue]
    · exact hcalm.queues s (by simp [hs])
  rw [hreturns w hreach hfin] at hgo
  cases hgo

/-- Two repetitions on two nodes are finished, and the loop goes on. -/
theorem finished_job_returns_iff_sample :
    ¬ FinishedJobReturns
      (fun _ seed => asyncSolve 4 sampleLib (saSolver sampleH) (1 / 10) 3 2 seed) 1 2 [0, 1] := by
  have hbuild : hamiltonianType 4 stodInteger sampleText = .ok sampleH := by decide
  obtain ⟨-, hI⟩ := (hamiltonianType_built 4 stodInteger sampleText).of_ok hbuild
  have hsolves : ∀ s ∈ [0, 1], ∀ seed,
      ∃ r, asyncSolve 4 sampleLib (saSolver sampleH) (1 / 10) 3 2 seed = some r := fun _ _ seed =>
    exists_asyncSolve hI sampleLib (1 / 10) 3 (by decide) (by decide) (by decide) (by decide) seed
  rw [(finished_job_returns_iff
    (fun _ seed => asyncSolve 4 sampleLib (saSolver sampleH) (1 / 10) 3 2 seed) 1 2 [0, 1]
    hsolves).1]
  decide

end Wrapper

end SpinGlass
