import SpinGlass.Progress
import SpinGlass.Repetitions

/-!
# Quitting — what an abort leaves in the queues

When `_abort` is set, the collecting thread ends the pass that it is in and
takes no other. So of the futures that are ready at that moment it still
collects those of the solvers that the pass has yet to visit, each queue up
to its first future that is not ready; the others are lost.
-/

namespace SpinGlass

variable {I R : Type}

/-- `is_ready()`. -/
def Task.isReady (t : Task R) : Bool := t.value.isSome

namespace Wrapper

open Transition Channels

/-- What can happen during a call of `spawn`: everything but a new list of solvers. -/
def InSpawn : Event I → Prop
  | .setSolverIds _ => False
  | _ => True

/-- The collecting thread comes to the queue of `s` before it tests `_abort` again. -/
def StillVisits (w : Wrapper I R) (s : I) : Prop :=
  match w.collectAt with
  | .lock => s ∈ w.solverIds
  | .pass rest => s ∈ rest
  | _ => False

/-- The futures up to the one at `n` are ready. -/
def ReadyThrough (tasks : List (Task R)) (n : ℕ) : Prop :=
  ∀ i ≤ n, ∀ t, tasks[i]? = some t → t.isReady = true

variable [DecidableEq I] {runOne : I → ℤ → Option R} {numReps : ℕ}

/-- The number of solves on `s` that have been collected: the future at `n` of the queue is
the one of the solve behind these and `n` others. -/
def collectedOn (w : Wrapper I R) (s : I) : ℕ := (itemsOf s w.collected).length

/-- The results in the vector `x` of the solves on `s`, in their order. -/
def resultsOn (w : Wrapper I R) (x : List R) (s : I) : List R :=
  itemsOf s ((w.collected.map Prod.fst).zip x)

/-- Whatever happens after `_abort` is set in `w`: the vector that `spawn` returns contains
the result of solve `m` on `s`, which was given `seed`. -/
def Kept (runOne : I → ℤ → Option R) (w : Wrapper I R) (s : I) (m : ℕ) (seed : ℤ) : Prop :=
  ∀ w' x, Reaches (step runOne) InSpawn { w with abort := true } w' →
    w'.spawnAt = .returned x → ∃ r, (w'.resultsOn x s)[m]? = some r ∧ runOne s seed = some r

/-- **Quitting loses nothing**: whenever `_abort` is set in a run from `start`, every solve
whose future is ready is kept. -/
def QuittingLosesNothing (runOne : I → ℤ → Option R) (start : Wrapper I R) : Prop :=
  ∀ w, Reaches (step runOne) InSpawn start w → w.abort = false →
    ∀ s n t, (w.asyncResults s)[n]? = some t → t.isReady = true →
      Kept runOne w s (w.collectedOn s + n) t.seed

/-! ## Frames -/

/-- A step of `spawn` leaves the collecting thread alone, and only adds to the queues. -/
theorem Happens.spawn_frame {w w' : Wrapper I R} (h : Happens runOne .spawn w w') :
    w'.collectAt = w.collectAt ∧ w'.solverIds = w.solverIds ∧ w'.abort = w.abort ∧
      w'.collected = w.collected ∧ ∀ s, w.asyncResults s <+: w'.asyncResults s := by
  obtain ⟨position, -, hw⟩ := h.spawn_moves
  rcases hw with rfl | ⟨s, rest, enough, offset, -, -, -, rfl⟩
  · exact ⟨rfl, rfl, rfl, rfl, fun s => List.prefix_rfl⟩
  · refine ⟨rfl, rfl, rfl, rfl, fun s' => ?_⟩
    show w.asyncResults s' <+: (launchOn s offset w).asyncResults s'
    by_cases hs : s' = s
    · subst hs
      simp [launchOn]
    · simp [launchOn, Function.update_of_ne hs]

/-- What has been collected stays collected. -/
theorem Happens.collected_grows {e : Event I} {w w' : Wrapper I R}
    (h : Happens runOne e w w') : w.collected <+: w'.collected := by
  rcases h.books with hsame | ⟨s, rest, enough, offset, -, -, -, hsame⟩ |
    ⟨s, seed, r, tasks, hq, rfl⟩ | ⟨s, j, seed, r, hj, hr, rfl⟩
  · exact ⟨[], by rw [List.append_nil, hsame.collected]⟩
  · exact ⟨[], by rw [List.append_nil, hsame.collected]; rfl⟩
  · exact List.prefix_append _ _
  · exact List.prefix_rfl

/-- `spawn` has been called, its second thread has been started, and it returns the vector
once that thread has ended. -/
structure Spawned (w : Wrapper I R) : Prop where
  called : w.spawnAt ≠ .idle
  started : w.collectAt ≠ .idle
  joined : ∀ x, w.spawnAt = .returned x → w.collectAt = .done ∧ w.repetitionResultsVector = x

theorem Spawned.step {e : Event I} {w w' : Wrapper I R} (h : Spawned w)
    (hstep : Happens runOne e w w') : Spawned w' := by
  cases e with
  | spawn =>
      obtain ⟨position, hmoves, hw⟩ := hstep.spawn_moves
      rcases hw with rfl | ⟨s, rest, enough, offset, -, -, -, rfl⟩
      · exact ⟨hmoves.called, h.started, hmoves.returned⟩
      · exact ⟨hmoves.called, h.started, hmoves.returned⟩
  | collect =>
      -- once `spawn` has returned there are no more steps of the other thread
      have hrunning : w.collectAt ≠ .done → ∀ x, w.spawnAt ≠ .returned x :=
        fun hnot x hx => hnot (h.joined x hx).1
      cases hstep with
      | collectOn hat | collectLock hat | passEnd hat | passOn hat =>
          exact ⟨h.called, by simp, fun x hx => absurd hx (hrunning (by simp [hat]) x)⟩
      | collectEnd hat hgo => exact ⟨h.called, by simp, fun x hx => ⟨rfl, (h.joined x hx).2⟩⟩
      | collect hat hq =>
          exact ⟨h.called, h.started, fun x hx => absurd hx (hrunning (by simp [hat]) x)⟩
  | complete | addSolverId | setSolverIds | abort | shutdown =>
      cases hstep
      exact ⟨h.called, h.started, h.joined⟩

theorem getElem?_of_isPrefix {α : Type} {l m : List α} (h : l <+: m) {i : ℕ} {a : α}
    (hi : l[i]? = some a) : m[i]? = some a := by
  obtain ⟨hlt, rfl⟩ := List.getElem?_eq_some_iff.mp hi
  exact List.prefix_iff_getElem?.mp h i hlt

/-- A solve that has been collected stays where it is among those of its solver. -/
theorem Happens.itemsOf_collected {e : Event I} {w w' : Wrapper I R} (h : Happens runOne e w w')
    {s : I} {m : ℕ} {seed : ℤ} (hm : (itemsOf s w.collected)[m]? = some seed) :
    (itemsOf s w'.collected)[m]? = some seed := by
  obtain ⟨l, hl⟩ := h.collected_grows
  refine getElem?_of_isPrefix ?_ hm
  rw [← hl, itemsOf, itemsOf, List.filter_append, List.map_append]
  exact List.prefix_append _ _

/-- The results of a solver belong to its solves. -/
theorem forall₂_resultsOn {w : Wrapper I R} {x : List R}
    (h : List.Forall₂ (fun p r => runOne p.1 p.2 = some r) w.collected x) (s : I) :
    List.Forall₂ (fun seed r => runOne s seed = some r) (itemsOf s w.collected)
      (w.resultsOn x s) := by
  rw [resultsOn]
  generalize w.collected = log at h ⊢
  induction h with
  | nil => exact List.Forall₂.nil
  | @cons p r log x hr _ ih =>
      by_cases hs : p.1 = s
      · simp only [itemsOf, List.map_cons, List.zip_cons_cons, List.filter_cons, hs,
          decide_true, if_true] at ih ⊢
        exact List.Forall₂.cons (hs ▸ hr) ih
      · simp only [itemsOf, List.map_cons, List.zip_cons_cons, List.filter_cons, hs,
          decide_false, Bool.false_eq_true, if_false] at ih ⊢
        exact ih

/-! ## A solve that is still collected -/

/-- The solve is to be collected before `_abort` is tested: its queue is still visited, and
no future before it is waited for. -/
def Saved (s : I) (m : ℕ) (seed : ℤ) (w : Wrapper I R) : Prop :=
  w.StillVisits s ∧ ∃ n t, w.collectedOn s + n = m ∧ (w.asyncResults s)[n]? = some t ∧
    t.seed = seed ∧ ReadyThrough (w.asyncResults s) n

theorem Saved.of_queue {s : I} {m : ℕ} {seed : ℤ} {w w' : Wrapper I R} (h : Saved s m seed w)
    (hvisits : w'.StillVisits s) (hcollected : w'.collectedOn s = w.collectedOn s)
    (hqueue : w.asyncResults s <+: w'.asyncResults s) : Saved s m seed w' := by
  obtain ⟨-, n, t, hm, hn, hseed, hready⟩ := h
  obtain ⟨hlt, -⟩ := List.getElem?_eq_some_iff.mp hn
  refine ⟨hvisits, n, t, by rw [hcollected, hm], getElem?_of_isPrefix hqueue hn, hseed,
    fun i hi t' ht' => ?_⟩
  have hi' : i < (w.asyncResults s).length := by omega
  have hold := List.getElem?_eq_getElem hi'
  rw [getElem?_of_isPrefix hqueue hold, Option.some.injEq] at ht'
  exact hready i hi t' (ht' ▸ hold)

theorem collectedOn_collectFrom_self (s : I) (seed : ℤ) (r : R) (w : Wrapper I R) :
    (collectFrom s seed r w).collectedOn s = w.collectedOn s + 1 := by
  simp [collectedOn, collectFrom, itemsOf_concat]

theorem collectedOn_collectFrom_of_ne {s s' : I} (h : s ≠ s') (seed : ℤ) (r : R)
    (w : Wrapper I R) : (collectFrom s' seed r w).collectedOn s = w.collectedOn s := by
  simp [collectedOn, collectFrom, itemsOf_concat, Ne.symm h]

/-- A step of the collecting thread keeps this, or collects the solve. -/
theorem Saved.collectStep {s : I} {m : ℕ} {seed : ℤ} {w w' : Wrapper I R}
    (h : Saved s m seed w) (hstep : Happens runOne .collect w w') :
    Saved s m seed w' ∨ (itemsOf s w'.collected)[m]? = some seed := by
  have hvisits := h.1
  cases hstep with
  | collectOn hat hgo => simp [StillVisits, hat] at hvisits
  | collectEnd hat hgo => simp [StillVisits, hat] at hvisits
  | collectLock hat =>
      have hs : s ∈ w.solverIds := by simpa [StillVisits, hat] using hvisits
      exact Or.inl (h.of_queue hs rfl List.prefix_rfl)
  | passEnd hat => simp [StillVisits, hat] at hvisits
  | @collect _ s' rest seed' r tasks hat hq =>
      by_cases hs : s = s'
      · subst hs
        obtain ⟨-, n, t, hm, hn, hseed, hready⟩ := h
        have htail : (collectFrom s seed' r w).asyncResults s = tasks := by
          simp [collectFrom, hq]
        -- the solve is at the front and is collected, or it comes one place nearer
        cases n with
        | zero =>
            rw [hq, List.getElem?_cons_zero, Option.some.injEq] at hn
            rw [← hn] at hseed
            obtain rfl : seed' = seed := hseed
            refine Or.inr ?_
            show (itemsOf s (w.collected ++ [(s, seed')]))[m]? = some seed'
            rw [itemsOf_concat, if_pos rfl, ← hm]
            exact List.getElem?_concat_length
        | succ n =>
            rw [hq] at hn hready
            refine Or.inl ⟨hvisits, n, t, ?_, ?_, hseed, fun i hi t' ht' => ?_⟩
            · rw [collectedOn_collectFrom_self]
              omega
            · rw [htail]
              exact hn
            · rw [htail] at ht'
              exact hready (i + 1) (by omega) t' ht'
      · refine Or.inl (h.of_queue hvisits (collectedOn_collectFrom_of_ne hs seed' r w) ?_)
        simp [collectFrom, Function.update_of_ne hs]
  | @passOn _ s' rest hat hfront =>
      have hmem : s ∈ s' :: rest := by simpa [StillVisits, hat] using hvisits
      rcases List.mem_cons.mp hmem with rfl | hmem
      · -- the front of the queue is ready, so it is not passed over
        obtain ⟨-, n, t, -, hn, hseed, hready⟩ := h
        cases hq : w.asyncResults s with
        | nil => simp [hq] at hn
        | cons t₀ tasks =>
            rw [hq] at hready
            have hr := hready 0 (Nat.zero_le n) t₀ rfl
            rw [Task.isReady, hfront t₀ (by simp [hq])] at hr
            cases hr
      · exact Or.inl (h.of_queue hmem rfl List.prefix_rfl)

/-- A future that becomes ready keeps this. -/
theorem Saved.completeStep {s : I} {m : ℕ} {seed : ℤ} {w w' : Wrapper I R}
    (h : Saved s m seed w) {s' : I} {j : ℕ} (hstep : Happens runOne (.complete s' j) w w') :
    Saved s m seed w' := by
  cases hstep with
  | @complete _ _ _ seed' r ht hr =>
      by_cases hs : s = s'
      · subst hs
        obtain ⟨hvisits, n, t, hm, hn, hseed, hready⟩ := h
        have hset : (makeReady s j seed' r w).asyncResults s
            = (w.asyncResults s).set j ⟨seed', some r⟩ := by simp [makeReady]
        -- up to place `n` all futures are ready already
        have hne : j ≠ n := by
          rintro rfl
          have hnone := hready j (le_refl j) _ ht
          simp [Task.isReady] at hnone
        refine ⟨hvisits, n, t, hm, ?_, hseed, fun i hi t' ht' => ?_⟩
        · rw [hset, List.getElem?_set_ne hne]
          exact hn
        · rw [hset, List.getElem?_set] at ht'
          split at ht'
          · split at ht'
            · cases ht'
              rfl
            · cases ht'
          · exact hready i hi t' ht'
      · refine h.of_queue h.1 rfl ?_
        simp [makeReady, Function.update_of_ne hs]

/-- **The step lemma**: such a solve stays so until it is collected. -/
theorem Saved.step {s : I} {m : ℕ} {seed : ℤ} {w w' : Wrapper I R} (h : Saved s m seed w)
    {e : Event I} (he : InSpawn e) (hstep : Happens runOne e w w') :
    Saved s m seed w' ∨ (itemsOf s w'.collected)[m]? = some seed := by
  cases e with
  | spawn =>
      obtain ⟨hcol, hids, -, hcollected, hqueues⟩ := hstep.spawn_frame
      have hvisits : w'.StillVisits s := by
        have hv := h.1
        rw [StillVisits] at hv ⊢
        rwa [hcol, hids]
      exact Or.inl (h.of_queue hvisits (by rw [collectedOn, collectedOn, hcollected])
        (hqueues s))
  | collect => exact h.collectStep hstep
  | complete s' j => exact Or.inl (h.completeStep hstep)
  | addSolverId id =>
      cases hstep with
      | addSolverId hlock =>
          refine Or.inl (h.of_queue ?_ rfl List.prefix_rfl)
          have hv := h.1
          cases hat : w.collectAt with
          | lock =>
              have hs : s ∈ w.solverIds := by simpa [StillVisits, hat] using hv
              simp [StillVisits, Wrapper.addSolverId, hat, hs]
          | pass rest =>
              have hs : s ∈ rest := by simpa [StillVisits, hat] using hv
              simpa [StillVisits, Wrapper.addSolverId, hat] using hs
          | idle | loopTest | done => simp [StillVisits, hat] at hv
  | setSolverIds ids => exact absurd he (by simp [InSpawn])
  | abort =>
      cases hstep with
      | abort => exact Or.inl h
  | shutdown =>
      cases hstep with
      | shutdown => exact Or.inl h

/-! ## A solve that is not collected any more -/

/-- The solve is in its queue, and either the queue is not visited any more, or a future
before it is not ready. -/
def Blocked (s : I) (m : ℕ) (w : Wrapper I R) : Prop :=
  ∃ n, w.collectedOn s + n = m ∧ n < (w.asyncResults s).length ∧
    (w.StillVisits s → ∃ i < n, ∃ t : Task R,
      (w.asyncResults s)[i]? = some t ∧ t.isReady = false)

theorem Blocked.of_queue {s : I} {m : ℕ} {w w' : Wrapper I R} (h : Blocked s m w)
    (hvisits : w'.StillVisits s → w.StillVisits s)
    (hcollected : w'.collectedOn s = w.collectedOn s)
    (hqueue : w.asyncResults s <+: w'.asyncResults s) : Blocked s m w' := by
  obtain ⟨n, hm, hn, hblock⟩ := h
  refine ⟨n, by rw [hcollected, hm], lt_of_lt_of_le hn hqueue.length_le, fun hv => ?_⟩
  obtain ⟨i, hi, t, ht, hnot⟩ := hblock (hvisits hv)
  exact ⟨i, hi, t, getElem?_of_isPrefix hqueue ht, hnot⟩

/-- With `_abort` set, the collecting thread does not reach the solve. -/
theorem Blocked.collectStep {s : I} {m : ℕ} {w w' : Wrapper I R} (h : Blocked s m w)
    (habort : w.abort = true) (hstep : Happens runOne .collect w w') : Blocked s m w' := by
  cases hstep with
  | collectOn hat hgo => simp [goesOn, habort] at hgo
  | collectEnd hat hgo => exact h.of_queue (by simp [StillVisits]) rfl List.prefix_rfl
  | collectLock hat =>
      exact h.of_queue (fun hv => by simpa [StillVisits, hat] using hv) rfl List.prefix_rfl
  | passEnd hat => exact h.of_queue (by simp [StillVisits]) rfl List.prefix_rfl
  | @collect _ s' rest seed' r tasks hat hq =>
      by_cases hs : s = s'
      · subst hs
        obtain ⟨n, hm, hn, hblock⟩ := h
        obtain ⟨i, hi, t, ht, hnot⟩ := hblock (by simp [StillVisits, hat])
        have htail : (collectFrom s seed' r w).asyncResults s = tasks := by
          simp [collectFrom, hq]
        -- the front is ready, so both places are behind it
        obtain ⟨i, rfl⟩ : ∃ k, i = k + 1 := by
          refine Nat.exists_eq_succ_of_ne_zero ?_
          rintro rfl
          rw [hq, List.getElem?_cons_zero, Option.some.injEq] at ht
          rw [← ht] at hnot
          cases hnot
        obtain ⟨n, rfl⟩ : ∃ k, n = k + 1 := Nat.exists_eq_succ_of_ne_zero (by omega)
        rw [hq, List.length_cons] at hn
        rw [hq, List.getElem?_cons_succ] at ht
        refine ⟨n, ?_, ?_, fun _ => ⟨i, by omega, t, ?_, hnot⟩⟩
        · rw [collectedOn_collectFrom_self]
          omega
        · rw [htail]
          omega
        · rw [htail]
          exact ht
      · refine h.of_queue (fun hv => hv) (collectedOn_collectFrom_of_ne hs seed' r w) ?_
        simp [collectFrom, Function.update_of_ne hs]
  | @passOn _ s' rest hat hfront =>
      refine h.of_queue (fun hv => ?_) rfl List.prefix_rfl
      have hs : s ∈ rest := hv
      simp [StillVisits, hat, hs]

theorem Blocked.spawnStep {s : I} {m : ℕ} {w w' : Wrapper I R} (h : Blocked s m w)
    (hstep : Happens runOne .spawn w w') : Blocked s m w' := by
  obtain ⟨hcol, hids, -, hcollected, hqueues⟩ := hstep.spawn_frame
  refine h.of_queue (fun hv => ?_) (by rw [collectedOn, collectedOn, hcollected]) (hqueues s)
  rw [StillVisits] at hv ⊢
  rwa [hcol, hids] at hv

/-! ## What comes after the abort -/

/-- A state of a call of `spawn` in which `_abort` is set. -/
structure Quitting (runOne : I → ℤ → Option R) (numReps : ℕ) (w : Wrapper I R) : Prop where
  abort : w.abort = true
  books : Accounted runOne numReps w
  spawned : Spawned w

theorem Happens.abort_of_abort {e : Event I} {w w' : Wrapper I R} (h : Happens runOne e w w')
    (habort : w.abort = true) : w'.abort = true := by
  cases e with
  | spawn => exact h.spawn_frame.2.2.1.trans habort
  | collect | complete | addSolverId | setSolverIds | abort | shutdown =>
      cases h <;> first | exact habort | rfl

theorem Quitting.step {e : Event I} {w w' : Wrapper I R} (h : Quitting runOne numReps w)
    (hstep : Happens runOne e w w') : Quitting runOne numReps w' :=
  ⟨hstep.abort_of_abort h.abort, h.books.step hstep, h.spawned.step hstep⟩

/-- **`spawn` returns after an abort**, by steps of its two threads alone, and what these keep
holds when it does. -/
theorem Quitting.exists_return {P : Wrapper I R → Prop} {w : Wrapper I R}
    (h : Quitting runOne numReps w) (hP : P w)
    (hkeeps : ∀ e u v, e = Event.collect ∨ e = Event.spawn → u.abort = true → P u →
      Happens runOne e u v → P v) :
    ∃ w' x, Reaches (Wrapper.step runOne) (fun e => e = .collect ∨ e = .spawn) w w' ∧
      Quitting runOne numReps w' ∧ P w' ∧ w'.spawnAt = .returned x := by
  -- the collecting thread first
  have hdone : ∃ u, Reaches (Wrapper.step runOne) (fun e => e = .collect) w u ∧
      (Quitting runOne numReps u ∧ P u) ∧ u.collectAt = .done := by
    by_cases hat : w.collectAt = .done
    · exact ⟨w, Reaches.refl w, ⟨h, hP⟩, hat⟩
    · obtain ⟨u, hreach, ⟨hu, hPu⟩, hloop⟩ :=
        exists_loopTest (P := fun u => Quitting runOne numReps u ∧ P u)
          (fun u v hu (huv : Happens runOne .collect u v) =>
            ⟨hu.1.step huv, hkeeps .collect u v (Or.inl rfl) hu.1.abort hu.2 huv⟩)
          ⟨h, hP⟩ ⟨h.spawned.started, hat⟩
      have hgo : u.goesOn = false := by simp [goesOn, hu.abort]
      have hend : Wrapper.step runOne .collect u = some { u with collectAt := .done } := by
        show collectStep u = _
        simp [collectStep, hloop, hgo]
      have hhappens := step_happens hend
      exact ⟨_, hreach.trans (Reaches.single rfl hend),
        ⟨hu.step hhappens, hkeeps .collect u _ (Or.inl rfl) hu.abort hPu hhappens⟩, rfl⟩
  obtain ⟨u, hreach, ⟨hu, hPu⟩, hat⟩ := hdone
  have hleaving : Leaving u :=
    ⟨hu.abort, hat, hu.spawned.called, by simp [hu.books.offset], hu.books.inLoop⟩
  obtain ⟨w', hreach', ⟨hw', hPw'⟩, x, hx⟩ :=
    exists_returned (P := fun u => Quitting runOne numReps u ∧ P u)
      (fun u v hu (huv : Happens runOne .spawn u v) =>
        ⟨hu.1.step huv, hkeeps .spawn u v (Or.inr rfl) hu.1.abort hu.2 huv⟩)
      ⟨hu, hPu⟩ hleaving
  exact ⟨w', x, (hreach.mono fun _ he => Or.inl he).trans (hreach'.mono fun _ he => Or.inr he),
    hw', hPw', hx⟩

omit [DecidableEq I] in
/-- The steps of the two threads are steps in `spawn`. -/
theorem inSpawn_of_thread {e : Event I} (he : e = .collect ∨ e = .spawn) : InSpawn e := by
  rcases he with rfl | rfl
  · exact trivial
  · exact trivial

/-- The vector that is returned belongs to what has been collected. -/
theorem Quitting.results {w : Wrapper I R} (h : Quitting runOne numReps w) {x : List R}
    (hx : w.spawnAt = .returned x) :
    List.Forall₂ (fun p r => runOne p.1 p.2 = some r) w.collected x := by
  rw [← (h.spawned.joined x hx).2]
  exact h.books.results

/-- The vector has the result of a solve that has been collected. -/
theorem Quitting.contains {w : Wrapper I R} (h : Quitting runOne numReps w) {x : List R}
    (hx : w.spawnAt = .returned x) {s : I} {m : ℕ} {seed : ℤ}
    (hm : (itemsOf s w.collected)[m]? = some seed) :
    ∃ r, (w.resultsOn x s)[m]? = some r ∧ runOne s seed = some r := by
  have hall := forall₂_resultsOn (h.results hx) s
  obtain ⟨hlt, rfl⟩ := List.getElem?_eq_some_iff.mp hm
  have hlt' : m < (w.resultsOn x s).length := hall.length_eq ▸ hlt
  exact ⟨(w.resultsOn x s)[m], List.getElem?_eq_getElem hlt', hall.get hlt hlt'⟩

/-- The vector has no result of a solve that is still in its queue. -/
theorem Quitting.not_contains {w : Wrapper I R} (h : Quitting runOne numReps w) {x : List R}
    (hx : w.spawnAt = .returned x) {s : I} {m : ℕ} (hblocked : Blocked s m w) :
    (w.resultsOn x s)[m]? = none := by
  obtain ⟨n, hm, -, -⟩ := hblocked
  rw [List.getElem?_eq_none_iff, ← (forall₂_resultsOn (h.results hx) s).length_eq]
  rw [collectedOn] at hm
  omega

/-- The offset of the seeds has no value, and nothing has been launched. -/
structure NeverLaunched (w : Wrapper I R) : Prop where
  offset : w.localSeedOffset = none
  queues : ∀ s, w.asyncResults s = []
  collected : w.collected = []

theorem NeverLaunched.step {e : Event I} {w w' : Wrapper I R} (h : NeverLaunched w)
    (hstep : Happens runOne e w w') : NeverLaunched w' := by
  rcases hstep.books with hsame | ⟨s, rest, enough, offset, -, hoff, -, -⟩ |
    ⟨s, seed, r, tasks, hq, rfl⟩ | ⟨s, j, seed, r, hj, hr, rfl⟩
  · refine ⟨hsame.offset.trans h.offset, fun s => ?_, hsame.collected.trans h.collected⟩
    rw [hsame.asyncResults]
    exact h.queues s
  · rw [h.offset] at hoff
    cases hoff
  · rw [h.queues s] at hq
    cases hq
  · rw [h.queues s] at hj
    cases hj

omit [DecidableEq I] in
theorem neverLaunched_spawnCall {nranks osThreads : ℕ} {ids : List I}
    (hranks : (created nranks osThreads ids : Wrapper I R).nranks = 0) (numReps : ℕ) :
    NeverLaunched ((created nranks osThreads ids : Wrapper I R).spawnCall numReps) := by
  constructor
  · simp [spawnCall, seedOffset, hranks]
  · intro s
    simp [spawnCall, created, foldl_addSolverId, wrappedSolverClass]
  · simp [spawnCall, created, foldl_addSolverId, wrappedSolverClass]

theorem Quitting.reaches {w w' : Wrapper I R} (h : Quitting runOne numReps w)
    {ok : Event I → Prop} (hreach : Reaches (Wrapper.step runOne) ok w w') :
    Quitting runOne numReps w' :=
  hreach.invariant (fun _ _ _ _ hu hstep => hu.step (step_happens hstep)) h

/-- `_abort` is set at some moment of a call. -/
theorem quitting_of_reaches {nranks osThreads : ℕ} {ids : List I}
    (hranks : 1 ≤ (created nranks osThreads ids : Wrapper I R).nranks) {w : Wrapper I R}
    (hw : Reaches (step runOne) InSpawn ((created nranks osThreads ids).spawnCall numReps) w) :
    Quitting runOne numReps { w with abort := true } := by
  have hbooks := (accounted_spawnCall runOne hranks numReps).reaches hw
  have hspawned : Spawned w := by
    refine hw.invariant (fun _ _ _ _ hu hstep => hu.step (step_happens hstep)) ?_
    exact ⟨by simp [spawnCall], by simp [spawnCall], by simp [spawnCall]⟩
  have habort : Happens runOne .abort w { w with abort := true } := .abort
  exact ⟨rfl, hbooks.step habort, hspawned.step habort⟩

theorem Quitting.kept_of_collected {w : Wrapper I R}
    (h : Quitting runOne numReps { w with abort := true }) {s : I} {m : ℕ} {seed : ℤ}
    (hm : (itemsOf s w.collected)[m]? = some seed) : Kept runOne w s m seed := by
  intro w' x hreach hx
  have hm' : (itemsOf s w'.collected)[m]? = some seed :=
    hreach.invariant (P := fun u => (itemsOf s u.collected)[m]? = some seed)
      (fun _ u v _ hu hstep => (step_happens hstep).itemsOf_collected hu) hm
  exact (h.reaches hreach).contains hx hm'

theorem Quitting.kept_of_saved {w : Wrapper I R}
    (h : Quitting runOne numReps { w with abort := true }) {s : I} {m : ℕ} {seed : ℤ}
    (hsaved : Saved s m seed { w with abort := true }) : Kept runOne w s m seed := by
  intro w' x hreach hx
  have hsaved' : Saved s m seed w' ∨ (itemsOf s w'.collected)[m]? = some seed := by
    refine hreach.invariant
      (P := fun u => Saved s m seed u ∨ (itemsOf s u.collected)[m]? = some seed)
      (fun e u v he hu hstep => ?_) (Or.inl hsaved)
    have hhappens := step_happens hstep
    rcases hu with hu | hu
    · exact hu.step he hhappens
    · exact Or.inr (hhappens.itemsOf_collected hu)
  have hquit := h.reaches hreach
  refine hquit.contains hx (hsaved'.resolve_left fun hs => ?_)
  have hvisits := hs.1
  simp [StillVisits, (hquit.spawned.joined x hx).1] at hvisits

/-- Steps of the two threads alone end the call without the solve. -/
theorem Quitting.not_kept_of_blocked {w : Wrapper I R}
    (h : Quitting runOne numReps { w with abort := true }) {s : I} {m : ℕ}
    (hblocked : Blocked s m { w with abort := true }) (seed : ℤ) :
    ¬ Kept runOne w s m seed := by
  intro hkept
  obtain ⟨w', x, hreach, hw', hblocked', hx⟩ :=
    h.exists_return hblocked fun e u v he habort hu huv => by
      rcases he with rfl | rfl
      · exact hu.collectStep habort huv
      · exact hu.spawnStep huv
  obtain ⟨r, hr, -⟩ := hkept w' x (hreach.mono fun _ => inSpawn_of_thread) hx
  rw [hw'.not_contains hx hblocked'] at hr
  cases hr

/-- A ready future that is not to be collected is behind one that is not ready, or in a
queue that is not visited. -/
theorem blocked_of_not {w : Wrapper I R} {s : I} {n : ℕ} {t : Task R}
    (hn : (w.asyncResults s)[n]? = some t) (ht : t.isReady = true)
    (hnot : ¬ (w.StillVisits s ∧ ReadyThrough (w.asyncResults s) n)) :
    Blocked s (w.collectedOn s + n) w := by
  refine ⟨n, rfl, (List.getElem?_eq_some_iff.mp hn).1, fun hv => ?_⟩
  have hunready : ¬ ReadyThrough (w.asyncResults s) n := fun hready => hnot ⟨hv, hready⟩
  rw [ReadyThrough] at hunready
  push Not at hunready
  obtain ⟨i, hi, t', ht', hfalse⟩ := hunready
  have hne : i ≠ n := by
    rintro rfl
    rw [hn, Option.some.injEq] at ht'
    exact hfalse (ht' ▸ ht)
  exact ⟨i, by omega, t', ht', by simpa using hfalse⟩

/-- **What quitting saves.** At whatever moment of a call of `spawn` `_abort` is set: what
has been collected is kept; a solve whose future is ready is kept just when the collecting
thread still visits its queue and all futures before it are ready too; and `spawn` can
return, if the offset of the seeds has a value. -/
theorem quitting_saves_iff (runOne : I → ℤ → Option R) {numReps nranks osThreads : ℕ}
    {ids : List I} {w : Wrapper I R}
    (hw : Reaches (step runOne) InSpawn ((created nranks osThreads ids).spawnCall numReps) w) :
    (∀ s m seed, (itemsOf s w.collected)[m]? = some seed → Kept runOne w s m seed) ∧
    (∀ s n t, (w.asyncResults s)[n]? = some t → t.isReady = true →
      (Kept runOne w s (w.collectedOn s + n) t.seed ↔
        w.StillVisits s ∧ ReadyThrough (w.asyncResults s) n)) ∧
    (1 ≤ (created nranks osThreads ids : Wrapper I R).nranks →
      ∃ w' x, Reaches (step runOne) InSpawn { w with abort := true } w' ∧
        w'.spawnAt = .returned x) := by
  by_cases hranks : 1 ≤ (created nranks osThreads ids : Wrapper I R).nranks
  · have hquit : Quitting runOne numReps { w with abort := true } :=
      quitting_of_reaches hranks hw
    refine ⟨fun s m seed hm => hquit.kept_of_collected hm,
      fun s n t hn ht => ⟨fun hkept => ?_, fun hsaved => ?_⟩, fun _ => ?_⟩
    · by_contra hnot
      have hblocked : Blocked s (w.collectedOn s + n) w := blocked_of_not hn ht hnot
      exact hquit.not_kept_of_blocked hblocked t.seed hkept
    · exact hquit.kept_of_saved ⟨hsaved.1, n, t, rfl, hn, rfl, hsaved.2⟩
    · obtain ⟨w', x, hreach, -, -, hx⟩ :=
        hquit.exists_return trivial fun _ _ _ _ _ _ _ => trivial
      exact ⟨w', x, hreach.mono fun _ => inSpawn_of_thread, hx⟩
  · -- a division by `_nranks = 0`: nothing is launched, and there is nothing to keep
    have hnever : NeverLaunched w :=
      hw.invariant (fun _ _ _ _ hu hstep => hu.step (step_happens hstep))
        (neverLaunched_spawnCall (by omega) numReps)
    refine ⟨fun s m seed hm => ?_, fun s n t hn => ?_, fun hpos => absurd hpos hranks⟩
    · simp [hnever.collected] at hm
    · simp [hnever.queues s] at hn

/-- One repetition on one node is launched, and its solve returns. -/
def readyEvents : List (Event ℕ) := [.spawn, .spawn, .spawn, .complete 0 0]

/-- The collecting thread pauses when `_abort` is set: `spawn` returns an empty vector. -/
theorem quitting_loses_a_ready_solve :
    ¬ QuittingLosesNothing
      (fun (_ : ℕ) seed => asyncSolve 4 sampleLib (saSolver sampleH) (1 / 10) 3 2 seed)
      ((created 0 1 [0]).spawnCall 1) := by
  intro hkeeps
  have hrun : ((after
      (step fun _ seed => asyncSolve 4 sampleLib (saSolver sampleH) (1 / 10) 3 2 seed)
      readyEvents ((created 0 1 [0]).spawnCall 1)).map fun w =>
        (w.abort, (w.asyncResults 0).map fun t => (t.seed, t.isReady),
          (after (step fun _ seed =>
            asyncSolve 4 sampleLib (saSolver sampleH) (1 / 10) 3 2 seed)
            [.collect, .spawn, .spawn] { w with abort := true }).map spawnAt))
      = some (false, [(0, true)], some (.returned [])) := by decide +kernel
  obtain ⟨w, hw, hstate⟩ := Option.map_eq_some_iff.mp hrun
  simp only [Prod.mk.injEq] at hstate
  obtain ⟨habort, hqueue, hafter⟩ := hstate
  obtain ⟨w', hw', hx⟩ := Option.map_eq_some_iff.mp hafter
  obtain ⟨t, hq, htask⟩ := List.map_eq_singleton_iff.mp hqueue
  have hready : t.isReady = true := (Prod.mk.inj htask).2
  obtain ⟨r, hr, -⟩ := hkeeps w ⟨readyEvents, by simp [readyEvents, InSpawn], hw⟩ habort 0 0 t
    (by simp [hq]) hready w' [] ⟨_, by simp [InSpawn], hw'⟩ hx
  simp [resultsOn] at hr

/-- The collecting thread is about to take the lock when `_abort` is set: the solve is
kept. -/
theorem quitting_saves_iff_sample :
    ∃ w : Wrapper ℕ (Result ℚ), w.collectAt = .lock ∧
      Kept (fun _ seed => asyncSolve 4 sampleLib (saSolver sampleH) (1 / 10) 3 2 seed)
        w 0 (w.collectedOn 0) 0 := by
  have hrun : ((after
      (step fun _ seed => asyncSolve 4 sampleLib (saSolver sampleH) (1 / 10) 3 2 seed)
      (readyEvents ++ [.collect]) ((created 0 1 [0]).spawnCall 1)).map fun w =>
        (w.collectAt, w.solverIds, (w.asyncResults 0).map fun t => (t.seed, t.isReady)))
      = some (.lock, [0], [(0, true)]) := by decide +kernel
  obtain ⟨w, hw, hstate⟩ := Option.map_eq_some_iff.mp hrun
  simp only [Prod.mk.injEq] at hstate
  obtain ⟨hat, hids, hqueue⟩ := hstate
  obtain ⟨t, hq, htask⟩ := List.map_eq_singleton_iff.mp hqueue
  obtain ⟨hseed, hready⟩ := Prod.mk.inj htask
  obtain ⟨-, hsaves, -⟩ := quitting_saves_iff _
    ⟨readyEvents ++ [.collect], by simp [readyEvents, InSpawn], hw⟩
  refine ⟨w, hat, hseed ▸ (hsaves 0 0 t (by simp [hq]) hready).mpr ⟨?_, ?_⟩⟩
  · simp [StillVisits, hat, hids]
  · intro i hi t' ht'
    obtain rfl : i = 0 := Nat.le_zero.mp hi
    rw [hq, List.getElem?_cons_zero, Option.some.injEq] at ht'
    rw [← ht', hready]

end Wrapper

end SpinGlass
