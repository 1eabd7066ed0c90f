import SpinGlass.Progress

/-!
# Launching — the loop of `spawn` that fills the queues

The `do` loop runs over the solvers again and again, and gives each one more
solve while its queue has room. `Filling` is its invariant: after `p` whole
passes, and in another one up to some solver, every queue has as many solves
more, or is full. `launch_loop_fills` draws the conclusions for the loop
from its entry to its exit, while the collecting thread is not running.
-/

namespace SpinGlass

namespace Wrapper

open Transition

variable {I R : Type}

/-! ## The loop on its own -/

def queueSize (w : Wrapper I R) (s : I) : ℕ := (w.asyncResults s).length

/-- `_os_threads*5`. -/
def capacity (w : Wrapper I R) : ℕ := w.osThreads * 5

/-- The solves that the queues have room for. -/
def room (w : Wrapper I R) : ℕ := (w.solverIds.map fun s => w.capacity - w.queueSize s).sum

/-- The loop is entered: with distinct solvers, no queue above its bound, and
repetitions to launch. -/
structure LoopEntered (w : Wrapper I R) (offset : ℤ) : Prop where
  position : w.spawnAt = .lock
  nodup : w.solverIds.Nodup
  bounded : ∀ s ∈ w.solverIds, w.queueSize s ≤ w.capacity
  remaining : 0 < w.remaining
  offset : w.localSeedOffset = some offset

/-- What can happen while the collecting thread does not run, and no solver is added. -/
inductive LoopEvent : Event I → Prop
  | spawn : LoopEvent .spawn
  | complete (s : I) (j : ℕ) : LoopEvent (.complete s j)
  | abort : LoopEvent .abort
  | shutdown : LoopEvent .shutdown

section Steps

variable [DecidableEq I] {runOne : I → ℤ → Option R}

/-- A step of the system while `spawn` is in the loop. -/
def loopStep (runOne : I → ℤ → Option R) (e : Event I) (w : Wrapper I R) :
    Option (Wrapper I R) :=
  match w.spawnAt with
  | .lock => step runOne e w
  | .launch _ _ => step runOne e w
  | _ => none

theorem loopStep_eq_some {e : Event I} {w w' : Wrapper I R} :
    loopStep runOne e w = some w' ↔ w.InLoop ∧ step runOne e w = some w' := by
  cases hat : w.spawnAt with
  | lock => simp [loopStep, InLoop, hat]
  | launch rest enough => simp [loopStep, InLoop, hat]
  | idle | loopTest | join | returned => simp [loopStep, InLoop, hat]

end Steps

/-! ## The books of the loop -/

/-- The loop, entered at `w₀`, has launched `k` solves. -/
structure Launches (w₀ : Wrapper I R) (offset : ℤ) (w : Wrapper I R) (k : ℕ) : Prop where
  ids : w.solverIds = w₀.solverIds
  osThreads : w.osThreads = w₀.osThreads
  localOffset : w.localSeedOffset = some offset
  seed : w.seed = w₀.seed + k
  remaining : w.remaining + k = w₀.remaining
  total : (w₀.solverIds.map w.queueSize).sum = (w₀.solverIds.map w₀.queueSize).sum + k
  launched : ∃ new, w.launched = w₀.launched ++ new ∧
    new.map Prod.snd = (List.range k).map fun i => seedArgument (w₀.seed + i) offset

/-- The two states differ at most in the position of `spawn`, the flags and the futures. -/
structure SameCounts (w w' : Wrapper I R) : Prop where
  ids : w'.solverIds = w.solverIds
  osThreads : w'.osThreads = w.osThreads
  queues : w'.queueSize = w.queueSize
  seed : w'.seed = w.seed
  remaining : w'.remaining = w.remaining
  localOffset : w'.localSeedOffset = w.localSeedOffset
  launched : w'.launched = w.launched

/-- Where the queues are in a pass: those of `visited` have one more solve. -/
structure InPass (w₀ w : Wrapper I R) (p : ℕ) (visited rest : List I) : Prop where
  split : w₀.solverIds = visited ++ rest
  visited : ∀ s ∈ visited, w.queueSize s = min w₀.capacity (w₀.queueSize s + (p + 1))
  rest : ∀ s ∈ rest, w.queueSize s = min w₀.capacity (w₀.queueSize s + p)

/-- What the position of `spawn` says about the pass. -/
def AtPosition (w₀ w : Wrapper I R) (visited rest : List I) : Prop :=
  match w.spawnAt with
  | .lock => visited = [] ∧ 0 < w.remaining
  | .launch rest' enough => rest' = rest ∧ 0 < w.remaining ∧
      (enough = true → ∀ s ∈ visited, w.queueSize s = w₀.capacity)
  | .loopTest => w.remaining = 0 ∨ ∀ s ∈ w₀.solverIds, w.queueSize s = w₀.capacity
  | _ => False

/-- **The invariant of the loop.** -/
structure Filling (w₀ : Wrapper I R) (offset : ℤ) (w : Wrapper I R) : Prop where
  launches : ∃ k, Launches w₀ offset w k
  pass : ∃ p visited rest, InPass w₀ w p visited rest ∧ AtPosition w₀ w visited rest

variable {w₀ w : Wrapper I R} {offset : ℤ}

/-- A solver whose queue is full is passed over. -/
theorem InPass.full {p : ℕ} {visited rest : List I} {s : I}
    (h : InPass w₀ w p visited (s :: rest)) (hfull : w₀.capacity ≤ w.queueSize s) :
    w.queueSize s = w₀.capacity ∧ InPass w₀ w p (visited ++ [s]) rest := by
  have hs := h.rest s (by simp)
  refine ⟨by omega, by rw [h.split]; simp, fun t ht => ?_, fun t ht => h.rest t (by simp [ht])⟩
  rcases List.mem_append.mp ht with ht | ht
  · exact h.visited t ht
  · rw [List.mem_singleton] at ht
    subst ht
    omega

/-- The end of a pass is the start of the next. -/
theorem InPass.next {p : ℕ} {visited : List I} (h : InPass w₀ w p visited []) :
    InPass w₀ w (p + 1) [] w₀.solverIds := by
  have hall : w₀.solverIds = visited := by rw [h.split, List.append_nil]
  refine ⟨rfl, by simp, fun s hs => ?_⟩
  rw [hall] at hs
  exact h.visited s hs

theorem Launches.congr {k : ℕ} {w' : Wrapper I R} (h : Launches w₀ offset w k)
    (hsame : SameCounts w w') : Launches w₀ offset w' k := by
  constructor
  · rw [hsame.ids, h.ids]
  · rw [hsame.osThreads, h.osThreads]
  · rw [hsame.localOffset, h.localOffset]
  · rw [hsame.seed, h.seed]
  · rw [hsame.remaining, h.remaining]
  · rw [hsame.queues, h.total]
  · rw [hsame.launched]
    exact h.launched

theorem InPass.congr {w' : Wrapper I R} {p : ℕ} {visited rest : List I}
    (h : InPass w₀ w p visited rest) (hsame : SameCounts w w') :
    InPass w₀ w' p visited rest := by
  constructor
  · exact h.split
  · rw [hsame.queues]
    exact h.visited
  · rw [hsame.queues]
    exact h.rest

theorem Filling.congr {w' : Wrapper I R} (h : Filling w₀ offset w) (hsame : SameCounts w w')
    (hat : w'.spawnAt = w.spawnAt) : Filling w₀ offset w' := by
  obtain ⟨k, hk⟩ := h.launches
  obtain ⟨p, visited, rest, hpass, hposition⟩ := h.pass
  refine ⟨⟨k, hk.congr hsame⟩, p, visited, rest, hpass.congr hsame, ?_⟩
  rw [AtPosition, hat, hsame.remaining, hsame.queues]
  exact hposition

theorem sum_map_update [DecidableEq I] {l : List I} (hn : l.Nodup) {s : I} (hs : s ∈ l)
    (f : I → ℕ) : (l.map (Function.update f s (f s + 1))).sum = (l.map f).sum + 1 := by
  induction l with
  | nil => cases hs
  | cons a l ih =>
      obtain ⟨hal, hnl⟩ := List.nodup_cons.mp hn
      rw [List.map_cons, List.map_cons, List.sum_cons, List.sum_cons]
      by_cases ha : s = a
      · subst ha
        have hrest : l.map (Function.update f s (f s + 1)) = l.map f :=
          List.map_congr_left fun b hb => Function.update_of_ne (ne_of_mem_of_not_mem hb hal) _ _
        rw [Function.update_self, hrest]
        omega
      · have hsl : s ∈ l := (List.mem_cons.mp hs).resolve_left ha
        rw [ih hnl hsl, Function.update_of_ne (Ne.symm ha)]
        omega

section Moves

variable [DecidableEq I] {runOne : I → ℤ → Option R}

theorem queueSize_launchOn (s : I) (offset : ℤ) (w : Wrapper I R) :
    (launchOn s offset w).queueSize = Function.update w.queueSize s (w.queueSize s + 1) := by
  funext t
  by_cases ht : t = s
  · subst ht
    simp [queueSize, launchOn]
  · simp [queueSize, launchOn, Function.update_of_ne ht]

/-- One launch more; `remaining` was not zero, so that it does not wrap. -/
theorem Launches.launchOn {k : ℕ} (h : Launches w₀ offset w k) (hn : w₀.solverIds.Nodup)
    {s : I} (hs : s ∈ w₀.solverIds) (hpos : 0 < w.remaining) :
    Launches w₀ offset (launchOn s offset w) (k + 1) := by
  have hremaining := h.remaining
  have hseed := h.seed
  refine ⟨h.ids, h.osThreads, h.localOffset, ?_, ?_, ?_, ?_⟩
  · show w.seed + 1 = w₀.seed + (k + 1)
    omega
  · show w.remaining - 1 + (k + 1) = w₀.remaining
    omega
  · rw [queueSize_launchOn, sum_map_update hn hs, h.total, Nat.add_assoc]
  · obtain ⟨new, hnew, hseeds⟩ := h.launched
    refine ⟨new ++ [(s, seedArgument w.seed offset)], ?_, ?_⟩
    · show w.launched ++ _ = _
      rw [hnew, List.append_assoc]
    · rw [List.map_append, hseeds, List.range_succ, List.map_append, h.seed]
      simp

/-- In a pass the solver `s` gets one solve more. -/
theorem InPass.launchOn {p : ℕ} {visited rest : List I} {s : I}
    (h : InPass w₀ w p visited (s :: rest)) (hn : w₀.solverIds.Nodup)
    (hroom : w.queueSize s < w₀.capacity) :
    InPass w₀ (launchOn s offset w) p (visited ++ [s]) rest := by
  have hs := h.rest s (by simp)
  rw [h.split] at hn
  obtain ⟨-, hnrest, hdisjoint⟩ := List.nodup_append.mp hn
  have hsrest := (List.nodup_cons.mp hnrest).1
  refine ⟨by rw [h.split]; simp, fun t ht => ?_, fun t ht => ?_⟩
  · rw [queueSize_launchOn]
    rcases List.mem_append.mp ht with ht | ht
    · rw [Function.update_of_ne (hdisjoint t ht s (by simp)), h.visited t ht]
    · rw [List.mem_singleton] at ht
      subst ht
      rw [Function.update_self]
      omega
  · rw [queueSize_launchOn, Function.update_of_ne (ne_of_mem_of_not_mem ht hsrest),
      h.rest t (by simp [ht])]

theorem queueSize_makeReady (s : I) (j : ℕ) (seed : ℤ) (r : R) (w : Wrapper I R) :
    (makeReady s j seed r w).queueSize = w.queueSize := by
  funext t
  by_cases ht : t = s
  · subst ht
    simp [queueSize, makeReady]
  · simp [queueSize, makeReady, Function.update_of_ne ht]

omit [DecidableEq I] in
/-- A turn of the `for` loop, made at `s`, leads to the next solver, or out of the loop when
nothing remains. -/
theorem Filling.endBody {v : Wrapper I R} {p k : ℕ} {visited rest : List I} {enough : Bool}
    (hk : Launches w₀ offset v k) (hpass : InPass w₀ v p visited rest)
    (hfull : enough = true → ∀ s ∈ visited, v.queueSize s = w₀.capacity) :
    Filling w₀ offset (endBody rest enough v) := by
  rcases endBody_cases rest enough v with ⟨hv, hpos⟩ | ⟨hv, hzero⟩
  · rw [hv]
    have hsame : SameCounts v { v with spawnAt := .launch rest enough } :=
      ⟨rfl, rfl, rfl, rfl, rfl, rfl, rfl⟩
    exact ⟨⟨k, hk.congr hsame⟩, p, visited, rest, hpass.congr hsame, rfl, hpos, hfull⟩
  · rw [hv]
    have hsame : SameCounts v { v with spawnAt := .loopTest } :=
      ⟨rfl, rfl, rfl, rfl, rfl, rfl, rfl⟩
    exact ⟨⟨k, hk.congr hsame⟩, p, visited, rest, hpass.congr hsame, Or.inl hzero⟩

omit [DecidableEq I] in
/-- The end of the `for` loop leads to another pass, or out of the loop with all queues
full. -/
theorem Filling.endFor {p k : ℕ} {visited : List I} {enough : Bool}
    (hk : Launches w₀ offset w k) (hpass : InPass w₀ w p visited []) (hpos : 0 < w.remaining)
    (hfull : enough = true → ∀ s ∈ visited, w.queueSize s = w₀.capacity) :
    Filling w₀ offset (endFor enough w) := by
  have hall : w₀.solverIds = visited := by rw [hpass.split, List.append_nil]
  cases enough with
  | true =>
      have hsame : SameCounts w { w with spawnAt := .loopTest } :=
        ⟨rfl, rfl, rfl, rfl, rfl, rfl, rfl⟩
      refine ⟨⟨k, hk.congr hsame⟩, p, visited, [], hpass.congr hsame, Or.inr ?_⟩
      rw [hall]
      exact hfull rfl
  | false =>
      have hsame : SameCounts w { w with spawnAt := .lock } :=
        ⟨rfl, rfl, rfl, rfl, rfl, rfl, rfl⟩
      have hagain : Wrapper.endFor false w = { w with spawnAt := .lock } := by
        simp [Wrapper.endFor, hpos]
      rw [hagain]
      exact ⟨⟨k, hk.congr hsame⟩, p + 1, [], w₀.solverIds, hpass.next.congr hsame, rfl, hpos⟩

/-- **The step lemma.** -/
theorem Filling.step (hentered : LoopEntered w₀ offset) (h : Filling w₀ offset w)
    (hin : w.InLoop) {e : Event I} (he : LoopEvent e) {w' : Wrapper I R}
    (hstep : Happens runOne e w w') : Filling w₀ offset w' := by
  obtain ⟨k, hk⟩ := h.launches
  obtain ⟨p, visited, rest, hpass, hposition⟩ := h.pass
  cases hstep with
  | complete ht hr =>
      exact h.congr ⟨rfl, rfl, queueSize_makeReady _ _ _ _ w, rfl, rfl, rfl, rfl⟩ rfl
  | abort => exact h.congr ⟨rfl, rfl, rfl, rfl, rfl, rfl, rfl⟩ rfl
  | shutdown => exact h.congr ⟨rfl, rfl, rfl, rfl, rfl, rfl, rfl⟩ rfl
  | collectOn | collectEnd | collectLock | passEnd | collect | passOn | addSolverId
  | setSolverIds => cases he
  | loopOn hat | loopEnd hat | returns hat => simp [InLoop, hat] at hin
  | spawnLock hat =>
      rw [AtPosition, hat] at hposition
      obtain ⟨rfl, hpos⟩ := hposition
      have hsame : SameCounts w { w with spawnAt := .launch w.solverIds true } :=
        ⟨rfl, rfl, rfl, rfl, rfl, rfl, rfl⟩
      have hids : w.solverIds = rest := hk.ids.trans hpass.split
      exact ⟨⟨k, hk.congr hsame⟩, p, [], rest, hpass.congr hsame, hids, hpos, by simp⟩
  | @forEnd _ enough hat =>
      rw [AtPosition, hat] at hposition
      obtain ⟨rfl, hpos, hfull⟩ := hposition
      exact Filling.endFor hk hpass hpos hfull
  | @launch _ s rest enough offset' hat hoff hroom =>
      rw [AtPosition, hat] at hposition
      obtain ⟨rfl, hpos, -⟩ := hposition
      obtain rfl : offset' = offset := Option.some.inj (hoff.symm.trans hk.localOffset)
      have hs : s ∈ w₀.solverIds := by rw [hpass.split]; simp
      rw [hk.osThreads] at hroom
      exact Filling.endBody (hk.launchOn hentered.nodup hs hpos)
        (hpass.launchOn hentered.nodup hroom) (by simp)
  | @full _ s rest enough hat hfull =>
      rw [AtPosition, hat] at hposition
      obtain ⟨rfl, -, hvisited⟩ := hposition
      rw [hk.osThreads] at hfull
      obtain ⟨hs, hpass'⟩ := hpass.full hfull
      apply Filling.endBody hk hpass'
      intro henough t ht
      rcases List.mem_append.mp ht with ht | ht
      · exact hvisited henough t ht
      · rw [List.mem_singleton] at ht
        rw [ht, hs]

omit [DecidableEq I] in
theorem LoopEntered.filling (h : LoopEntered w₀ offset) : Filling w₀ offset w₀ := by
  refine ⟨⟨0, rfl, rfl, h.offset, rfl, rfl, rfl, [], by simp, rfl⟩, 0, [], w₀.solverIds,
    ⟨rfl, by simp, fun s hs => ?_⟩, ?_⟩
  · have := h.bounded s hs
    omega
  · rw [AtPosition, h.position]
    exact ⟨rfl, h.remaining⟩

omit [DecidableEq I] in
/-- The loop only goes on while repetitions remain. -/
theorem Filling.remaining_pos (h : Filling w₀ offset w) (hin : w.InLoop) : 0 < w.remaining := by
  obtain ⟨p, visited, rest, -, hposition⟩ := h.pass
  rcases hin with hat | ⟨rest', enough, hat⟩
  · rw [AtPosition, hat] at hposition
    exact hposition.2
  · rw [AtPosition, hat] at hposition
    exact hposition.2.1

/-- **The run lemma.** -/
theorem Filling.loopStep (hentered : LoopEntered w₀ offset) {e : Event I} {u v : Wrapper I R}
    (he : LoopEvent e) (hu : Filling w₀ offset u) (huv : loopStep runOne e u = some v) :
    Filling w₀ offset v := by
  obtain ⟨hin, hstep⟩ := loopStep_eq_some.mp huv
  exact hu.step hentered hin he (step_happens hstep)

/-! ## Where the loop ends -/

/-- In the loop a step of `spawn` can always be taken. -/
theorem Filling.exists_loopStep (h : Filling w₀ offset w) (runOne : I → ℤ → Option R) (hin : w.InLoop) :
    ∃ w', Wrapper.loopStep runOne .spawn w = some w' := by
  obtain ⟨k, hk⟩ := h.launches
  have hstep : ∃ w', Wrapper.step runOne .spawn w = some w' := by
    rcases hin with hat | ⟨rest, enough, hat⟩ <;>
      exact exists_spawnStep runOne (by simp [hk.localOffset]) (by simp [hat]) (by simp [hat])
        (by simp [hat])
  obtain ⟨w', hw'⟩ := hstep
  exact ⟨w', loopStep_eq_some.mpr ⟨hin, hw'⟩⟩

/-- Each step of `spawn` leaves fewer to be made. -/
theorem Filling.measure_lt {w' : Wrapper I R} (h : Filling w₀ offset w)
    (hstep : Wrapper.loopStep runOne .spawn w = some w') :
    w'.spawnMeasure < w.spawnMeasure := by
  obtain ⟨hin, hstep⟩ := loopStep_eq_some.mp hstep
  refine spawnMeasure_lt (fun hat => ?_) h.remaining_pos (step_happens hstep)
  simp [InLoop, hat] at hin

theorem LoopEvent.measure_le {e : Event I} (he : LoopEvent e) {w' : Wrapper I R}
    (h : Filling w₀ offset w) (hstep : Wrapper.loopStep runOne e w = some w') :
    w'.spawnMeasure ≤ w.spawnMeasure := by
  cases he with
  | spawn => exact (h.measure_lt hstep).le
  | complete | abort | shutdown =>
      cases step_happens (loopStep_eq_some.mp hstep).2
      exact Nat.le_refl _

omit [DecidableEq I] in
theorem Filling.bounded (h : Filling w₀ offset w) {s : I} (hs : s ∈ w₀.solverIds) :
    w.queueSize s ≤ w₀.capacity := by
  obtain ⟨p, visited, rest, hpass, -⟩ := h.pass
  rw [hpass.split] at hs
  rcases List.mem_append.mp hs with hs | hs
  · rw [hpass.visited s hs]
    exact Nat.min_le_left _ _
  · rw [hpass.rest s hs]
    exact Nat.min_le_left _ _

omit [DecidableEq I] in
/-- Queues of one size stay within one solve of each other. -/
theorem Filling.fair (h : Filling w₀ offset w) {s t : I} (hs : s ∈ w₀.solverIds)
    (ht : t ∈ w₀.solverIds) (hst : w₀.queueSize s = w₀.queueSize t) :
    w.queueSize s ≤ w.queueSize t + 1 := by
  obtain ⟨p, visited, rest, hpass, -⟩ := h.pass
  rw [hpass.split] at hs ht
  have hle : w.queueSize s ≤ min w₀.capacity (w₀.queueSize s + (p + 1)) := by
    rcases List.mem_append.mp hs with hs | hs
    · rw [hpass.visited s hs]
    · rw [hpass.rest s hs]
      omega
  have hge : min w₀.capacity (w₀.queueSize t + p) ≤ w.queueSize t := by
    rcases List.mem_append.mp ht with ht | ht
    · rw [hpass.visited t ht]
      omega
    · rw [hpass.rest t ht]
  omega

theorem sum_add_sum_sub {α : Type} {l : List α} {f : α → ℕ} {C : ℕ} (h : ∀ a ∈ l, f a ≤ C) :
    (l.map f).sum + (l.map fun a => C - f a).sum = l.length * C := by
  induction l with
  | nil => simp
  | cons a l ih =>
      have ih := ih fun b hb => h b (by simp [hb])
      have ha := h a (by simp)
      simp only [List.map_cons, List.sum_cons, List.length_cons, Nat.succ_mul]
      omega

omit [DecidableEq I] in
/-- Out of the loop: nothing remains, or all queues are full. -/
theorem Filling.exit (h : Filling w₀ offset w) (hout : ¬ w.InLoop) :
    w.spawnAt = .loopTest ∧
      (w.remaining = 0 ∨ ∀ s ∈ w₀.solverIds, w.queueSize s = w₀.capacity) := by
  obtain ⟨p, visited, rest, -, hposition⟩ := h.pass
  cases hat : w.spawnAt with
  | lock => exact absurd (Or.inl hat) hout
  | launch rest enough => exact absurd (Or.inr ⟨rest, enough, hat⟩) hout
  | loopTest =>
      rw [AtPosition, hat] at hposition
      exact ⟨rfl, hposition⟩
  | idle | join | returned =>
      rw [AtPosition, hat] at hposition
      exact hposition.elim

omit [DecidableEq I] in
/-- How many solves the loop has launched when it ends. -/
theorem Filling.count_eq (hentered : LoopEntered w₀ offset) (h : Filling w₀ offset w) {k : ℕ}
    (hk : Launches w₀ offset w k) (hout : ¬ w.InLoop) : k = min w₀.remaining w₀.room := by
  have hbefore := sum_add_sum_sub hentered.bounded
  have hafter := sum_add_sum_sub fun s hs => h.bounded (w := w) (s := s) hs
  have htotal := hk.total
  have hremaining := hk.remaining
  have hroom : w₀.room = (w₀.solverIds.map fun s => w₀.capacity - w₀.queueSize s).sum := rfl
  rcases (h.exit hout).2 with hzero | hfull
  · omega
  · have hnone : (w₀.solverIds.map fun s => w₀.capacity - w.queueSize s).sum = 0 := by
      rw [List.sum_eq_zero]
      intro n hn
      obtain ⟨s, hs, rfl⟩ := List.mem_map.mp hn
      rw [hfull s hs, Nat.sub_self]
    omega

/-- **The loop fills the queues.** Entered with distinct solvers, no queue above its bound,
repetitions to launch, and any seed, while the collecting thread does not run: it ends, after
a bounded number of steps of which each can be taken. All the while no queue is above
its bound, the seeds that are launched are consecutive from the current one, and `remaining`
goes down by one with each. At the end as many solves have been launched as there
were repetitions or room for, nothing remains or all queues are full, and queues that
were of one size differ by one at most. -/
theorem launch_loop_fills (runOne : I → ℤ → Option R) (hentered : LoopEntered w₀ offset) :
    (∀ es w, (∀ e ∈ es, LoopEvent e) → after (Wrapper.loopStep runOne) es w₀ = some w →
      es.count .spawn ≤ w₀.spawnMeasure) ∧
    (∃ w, Reaches (Wrapper.loopStep runOne) (fun e => e = .spawn) w₀ w ∧ ¬ w.InLoop) ∧
    (∀ w, Reaches (Wrapper.loopStep runOne) LoopEvent w₀ w →
      (w.InLoop → ∃ w', Wrapper.loopStep runOne .spawn w = some w') ∧
      (∀ s ∈ w₀.solverIds, w.queueSize s ≤ w₀.capacity) ∧
      ∃ k, Launches w₀ offset w k ∧
        (¬ w.InLoop → w.spawnAt = .loopTest ∧
          k = min w₀.remaining w₀.room ∧
          (w.remaining = 0 ∨ ∀ s ∈ w₀.solverIds, w.queueSize s = w₀.capacity) ∧
          ∀ s ∈ w₀.solverIds, ∀ t ∈ w₀.solverIds, w₀.queueSize s = w₀.queueSize t →
            w.queueSize s ≤ w.queueSize t + 1)) := by
  have hkeep : ∀ e u v, LoopEvent e → Filling w₀ offset u →
      Wrapper.loopStep runOne e u = some v → Filling w₀ offset v :=
    fun _ _ _ he hu huv => hu.loopStep hentered he huv
  refine ⟨fun es w hes hrun => ?_, ?_, fun w hw => ?_⟩
  · have hlt : ∀ u v, LoopEvent (.spawn : Event I) → Filling w₀ offset u →
        Wrapper.loopStep runOne .spawn u = some v → v.spawnMeasure < u.spawnMeasure :=
      fun _ _ _ hu huv => hu.measure_lt huv
    have hcount := count_le_of_measure hkeep hlt
      (fun e u v he hu huv => he.measure_le hu huv) hes hentered.filling hrun
    omega
  · have hprogress : ∀ u, Filling w₀ offset u → ¬ ¬ u.InLoop →
        ∃ e v, e = Event.spawn ∧ Wrapper.loopStep runOne e u = some v ∧
          Filling w₀ offset v ∧ v.spawnMeasure < u.spawnMeasure := by
      intro u hu hgoal
      obtain ⟨v, hstep⟩ := hu.exists_loopStep runOne (not_not.mp hgoal)
      exact ⟨.spawn, v, rfl, hstep, hkeep _ _ _ .spawn hu hstep, hu.measure_lt hstep⟩
    obtain ⟨w, hreach, -, hout⟩ := exists_reaches_of_measure _ (fun w => ¬ w.InLoop) _
      hprogress hentered.filling
    exact ⟨w, hreach, hout⟩
  · have hfilling : Filling w₀ offset w := hw.invariant hkeep hentered.filling
    refine ⟨hfilling.exists_loopStep runOne, fun s hs => hfilling.bounded hs, ?_⟩
    obtain ⟨k, hk⟩ := hfilling.launches
    refine ⟨k, hk, fun hout => ?_⟩
    obtain ⟨hat, hend⟩ := hfilling.exit hout
    exact ⟨hat, hfilling.count_eq hentered hk hout, hend,
      fun s hs t ht hst => hfilling.fair hs ht hst⟩

/-- Two solvers on one thread, one of them with three solves queued, seven repetitions. -/
theorem launch_loop_fills_sample :
    ∃ w, Reaches (Wrapper.loopStep fun (_ : Bool) (seed : ℤ) => some seed)
      (fun e => e = .spawn)
      { rank := 0, nranks := 2, osThreads := 1, solverIds := [false, true],
        asyncResults := fun s => if s then [⟨0, none⟩, ⟨1, none⟩, ⟨2, none⟩] else [],
        spawnAt := .lock, remaining := 7, seed := 3, localSeedOffset := some 0 } w ∧
      ¬ w.InLoop :=
  (launch_loop_fills (fun _ seed => some seed)
    ⟨rfl, by decide, by decide, by decide, rfl⟩).2.1

end Moves

end Wrapper

end SpinGlass
