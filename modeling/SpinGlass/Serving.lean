import SpinGlass.Joining

/-!
# Serving — the solves of a run

A launch sends `run_one` to a wrapper, and the answer makes a future ready.
`Served` counts: the futures that wait are the requests and the answers in
flight. Every request is for a node that has joined, so the node has a
solver; this solver is one around the Hamiltonian of rank `0`, so the answer
is the result of the single-threaded program.
-/

namespace SpinGlass

open Transition Network

namespace Wrapper

variable {I R : Type} [DecidableEq I] {runOne : I → ℤ → Option R} {e : Event I}
  {w w' : Wrapper I R}

/-- The number of futures in the queue of `p.1` that wait for the result of seed `p.2`. -/
def waiting (w : Wrapper I R) (p : I × ℤ) : ℕ := (w.asyncResults p.1).countP (Task.waitsFor p.2)

omit [DecidableEq I] in
theorem SameBooks.waiting (h : SameBooks w w') (p : I × ℤ) : w'.waiting p = w.waiting p := by
  rw [Wrapper.waiting, h.asyncResults, Wrapper.waiting]

theorem waiting_launchOn (s : I) (offset : ℤ) (p : I × ℤ) :
    (launchOn s offset w).waiting p
      = w.waiting p + [(s, seedArgument w.seed offset)].count p := by
  obtain ⟨s', seed⟩ := p
  by_cases hs : s' = s
  · subst hs
    simp [waiting, launchOn, Task.waitsFor, List.countP_append, List.countP_cons,
      List.count_singleton]
  · simp [waiting, launchOn, Function.update_of_ne hs, Ne.symm hs]

theorem waiting_collectFrom {s : I} {seed : ℤ} {r : R} {tasks : List (Task R)}
    (hq : w.asyncResults s = ⟨seed, some r⟩ :: tasks) (p : I × ℤ) :
    (collectFrom s seed r w).waiting p = w.waiting p := by
  obtain ⟨s', seed'⟩ := p
  by_cases hs : s' = s
  · subst hs
    simp [waiting, collectFrom, hq, Task.waitsFor]
  · simp [waiting, collectFrom, Function.update_of_ne hs]

theorem waiting_makeReady {s : I} {j : ℕ} {seed : ℤ} (r : R)
    (hj : (w.asyncResults s)[j]? = some ⟨seed, none⟩) (p : I × ℤ) :
    w.waiting p = (makeReady s j seed r w).waiting p + if (s, seed) = p then 1 else 0 := by
  obtain ⟨s', seed'⟩ := p
  by_cases hs : s' = s
  · subst hs
    obtain ⟨hlt, hget⟩ := List.getElem?_eq_some_iff.mp hj
    have hold : w.asyncResults s'
        = (w.asyncResults s').take j ++ ⟨seed, none⟩ :: (w.asyncResults s').drop (j + 1) := by
      rw [← hget, List.getElem_cons_drop, List.take_append_drop]
    have hnew := List.set_eq_take_append_cons_drop (l := w.asyncResults s') (i := j)
      (a := (⟨seed, some r⟩ : Task R))
    rw [if_pos hlt] at hnew
    have hready : (makeReady s' j seed r w).asyncResults s'
        = (w.asyncResults s').set j ⟨seed, some r⟩ := by simp [makeReady]
    rw [waiting, waiting, hready, hnew]
    nth_rewrite 1 [hold]
    simp [List.countP_append, List.countP_cons, Task.waitsFor]
    omega
  · simp [waiting, makeReady, Function.update_of_ne hs, Ne.symm hs]

/-- **What a step does to the futures that wait**: there is one more for every launch. -/
theorem Happens.waiting_eq (h : Happens runOne e w w') (he : ∀ s j, e ≠ .complete s j) :
    ∃ new, w'.launched = w.launched ++ new ∧ ∀ p, w'.waiting p = w.waiting p + new.count p := by
  have hnil : w.launched = w.launched ++ [] := (List.append_nil _).symm
  cases e with
  | spawn =>
      obtain ⟨position, -, hw⟩ := h.spawn_moves
      rcases hw with rfl | ⟨s, rest, enough, offset, -, -, -, rfl⟩
      · exact ⟨[], hnil, fun p => rfl⟩
      · exact ⟨[(s, seedArgument w.seed offset)], rfl, waiting_launchOn s offset⟩
  | collect =>
      cases h with
      | collect hat hq => exact ⟨[], hnil, waiting_collectFrom hq⟩
      | collectOn | collectEnd | collectLock | passEnd | passOn => exact ⟨[], hnil, fun p => rfl⟩
  | complete s j => exact absurd rfl (he s j)
  | addSolverId | setSolverIds | abort | shutdown =>
      cases h
      exact ⟨[], hnil, fun p => rfl⟩

/-- The solvers of the loop have been in `_solver_ids`. -/
theorem Happens.rest_of (h : Happens runOne e w w') {rest : List I} {enough : Bool}
    (hat : w'.spawnAt = .launch rest enough) {s : I} (hs : s ∈ rest) :
    s ∈ w.solverIds ∨ ∃ rest₀ enough₀, w.spawnAt = .launch rest₀ enough₀ ∧ s ∈ rest₀ := by
  cases e with
  | spawn =>
      obtain ⟨position, hmoves, hw⟩ := h.spawn_moves
      have hposition : position = .launch rest enough := by
        rcases hw with rfl | ⟨s', rest', enough', offset, -, -, -, rfl⟩ <;> exact hat
      rcases hmoves.rest rest enough hposition with rfl | ⟨s', enough', hat'⟩
      · exact Or.inl hs
      · exact Or.inr ⟨s' :: rest, enough', hat', List.mem_cons_of_mem _ hs⟩
  | collect | complete | addSolverId | setSolverIds | abort | shutdown =>
      cases h <;> exact Or.inr ⟨rest, enough, hat, hs⟩

end Wrapper

namespace Console

variable {L R : Type} [LinearOrder L] {runOne : WrapperId L → ℤ → Option R} {here : L}
  {osThreads numReps : ℕ} {e : ConsoleEvent L} {c c' : Console L R}

/-- Solves are only launched on nodes whose `init_node` has completed. -/
structure Placed (c : Console L R) : Prop where
  ids : ∀ id ∈ c.wrappedSolver.solverIds, id.locality ∈ c.completed
  rest : ∀ rest enough, c.wrappedSolver.spawnAt = .launch rest enough →
    ∀ id ∈ rest, id.locality ∈ c.completed
  launched : ∀ p ∈ c.wrappedSolver.launched, p.1.locality ∈ c.completed

/-- What an event other than the end of a solve does to the futures that wait. -/
theorem Happens.waiting_eq (h : Happens runOne here osThreads numReps e c c')
    (he : ∀ s j, e ≠ .solver (.complete s j)) :
    ∃ new, c'.wrappedSolver.launched = c.wrappedSolver.launched ++ new ∧
      ∀ p, c'.wrappedSolver.waiting p = c.wrappedSolver.waiting p + new.count p := by
  cases h with
  | solver _ hw =>
      apply hw.waiting_eq
      rintro s j rfl
      exact he s j rfl
  | connecting | state | initHere | wait | startMonitor | startPoll | register | callSpawn
  | passStart | passEnd | visitConnecting | visitInvalid | visit | initDone =>
      exact ⟨[], (List.append_nil _).symm, fun p => rfl⟩

/-- **The step lemma.** -/
theorem Placed.step (h : Placed c) (hstep : Happens runOne here osThreads numReps e c c') :
    Placed c' := by
  cases hstep with
  | register hat hlock => exact { h with ids := fun id hid => by cases hid }
  | @initDone _ locality hcount hlock hids =>
      have hgrow : ∀ l ∈ c.completed, l ∈ c.completed ++ [locality] := fun l hl =>
        List.mem_append_left _ hl
      constructor
      · intro id hid
        rcases List.mem_append.mp hid with hid | hid
        · exact hgrow _ (h.ids id hid)
        · rw [List.mem_singleton.mp hid]
          exact List.mem_append_right _ (List.mem_singleton_self locality)
      · exact fun rest enough hat id hid => hgrow _ (h.rest rest enough hat id hid)
      · exact fun p hp => hgrow _ (h.launched p hp)
  | callSpawn hat => exact { h with rest := fun rest enough heq => by cases heq }
  | @solver _ e w hevent hw =>
      constructor
      · intro id hid
        have hframe := hw.ids_frame (by rintro id rfl; cases hevent)
          (by rintro ids rfl; cases hevent)
        exact h.ids id (hframe.1 ▸ hid)
      · intro rest enough hat id hid
        rcases hw.rest_of hat hid with hid | ⟨rest₀, enough₀, hat₀, hid⟩
        · exact h.ids id hid
        · exact h.rest rest₀ enough₀ hat₀ id hid
      · obtain ⟨new, hlaunched, hnew⟩ := hw.launched
        intro p hp
        rcases List.mem_append.mp (hlaunched ▸ hp) with hp | hp
        · exact h.launched p hp
        · obtain ⟨rest, enough, hat, hid⟩ := hnew p hp
          exact h.rest rest enough hat p.1 hid
  | connecting | state | initHere | wait | startMonitor | startPoll | passStart | passEnd
  | visitConnecting | visitInvalid | visit => exact ⟨h.ids, h.rest, h.launched⟩

end Console

namespace Cluster

open Message ConsoleEvent

variable {L K G : Type} [LinearOrder L] [Field K] [LinearOrder K] {job : Job L K G}
  {g g' : Cluster L K}

/-- Where the solves are, and what their answers are. -/
structure Served (job : Job L K G) (g : Cluster L K) : Prop where
  placed : g.console.Placed
  conserved : ∀ p, g.console.wrappedSolver.waiting p
    = inFlight requestOf p g.network + inFlight resultOf p g.network
  requests : ∀ id seed, .runOne id seed ∈ g.network → id.locality ∈ g.console.completed
  answers : ∀ id seed r, .result id seed r ∈ g.network →
    ∃ H, load job = .ok H ∧ answer job (saSolver H) seed = some r

omit [Field K] [LinearOrder K] in
/-- The console takes an answer for a future that waits for it. -/
theorem Cause.answered {ev : ClusterEvent L} {e : ConsoleEvent L} {value : Option (Result K)}
    {rest : List (Message L K)} (h : Cause job g ev e value rest) :
    ((∀ s j, e ≠ .solver (.complete s j)) ∧
      ∀ p, inFlight resultOf p g.network = inFlight resultOf p rest) ∨
    ∃ id seed r j, e = .solver (.complete id j) ∧ value = some r ∧
      .result id seed r ∈ g.network ∧
      (g.console.wrappedSolver.asyncResults id)[j]? = some ⟨seed, none⟩ ∧
      ∀ p, inFlight resultOf p g.network
        = inFlight resultOf p rest + if (id, seed) = p then 1 else 0 := by
  cases h with
  | internal he =>
      refine Or.inl ⟨?_, fun p => rfl⟩
      rintro s j rfl
      cases he
  | connecting hm =>
      refine Or.inl ⟨by simp, fun p => ?_⟩
      rw [inFlight_take hm]
      simp [resultOf]
  | initialized hm hname =>
      refine Or.inl ⟨by simp, fun p => ?_⟩
      rw [inFlight_take hm]
      simp [resultOf]
  | result hm hj =>
      refine Or.inr ⟨_, _, _, _, rfl, rfl, mem_of_take hm, hj, fun p => ?_⟩
      rw [inFlight_take hm]
      simp [resultOf]

namespace Served

/-- A step of the console sends a request for each launch, and takes an answer for a future
that becomes ready. -/
theorem console (h : Served job g) {ev : ClusterEvent L} {e : ConsoleEvent L}
    {value : Option (Result K)} {rest ms : List (Message L K)} {c : Console L (Result K)}
    (hcause : Cause job g ev e value rest)
    (hc : Console.step (fun _ _ => value) job.here job.osThreads job.numReps e g.console = some c)
    (hms : Cluster.requests g.hamiltonian g.console c = some ms) :
    Served job { g with console := c, network := rest ++ ms } := by
  have hhappens := Console.step_happens hc
  obtain ⟨-, hcompleted, ⟨started, hstarted⟩, -⟩ := hhappens.logs
  obtain ⟨-, -, -, hrequests, hmem⟩ := hcause.taken
  have hplaced := h.placed.step hhappens
  obtain ⟨new, hlaunched, hwaiting⟩ : ∃ new,
      c.wrappedSolver.launched = g.console.wrappedSolver.launched ++ new ∧
      ∀ p, c.wrappedSolver.waiting p + inFlight resultOf p g.network
        = g.console.wrappedSolver.waiting p + new.count p + inFlight resultOf p rest := by
    rcases hcause.answered with ⟨hne, hsame⟩ | ⟨id, seed, r, j, rfl, rfl, -, hj, hless⟩
    · obtain ⟨new, hlaunched, hwaiting⟩ := hhappens.waiting_eq hne
      refine ⟨new, hlaunched, fun p => ?_⟩
      rw [hwaiting, hsame]
    · cases hhappens with
      | solver _ hw =>
          cases hw with
          | complete hj' hr =>
              rw [hj] at hj'
              cases hj'
              cases hr
              refine ⟨[], (List.append_nil _).symm, fun p => ?_⟩
              rw [hless, List.count_nil, Wrapper.waiting_makeReady r hj p]
              show (Wrapper.makeReady id j seed r g.console.wrappedSolver).waiting p + _ = _
              omega
  have hsent := requests_spec hstarted hlaunched hms
  constructor
  · exact hplaced
  · intro p
    have hold := h.conserved p
    have hnew := hwaiting p
    have hrest := hrequests p
    rw [inFlight_append, inFlight_append, hsent.request, hsent.result]
    show c.wrappedSolver.waiting p = _
    omega
  · intro id seed hin
    rcases List.mem_append.mp hin with hin | hin
    · show id.locality ∈ c.completed
      rw [hcompleted]
      exact List.mem_append_left _ (h.requests id seed (hmem _ hin))
    · have hpos := inFlight_pos (f := requestOf) hin rfl
      rw [hsent.request] at hpos
      have hlogged : (id, seed) ∈ c.wrappedSolver.launched := by
        rw [hlaunched]
        exact List.mem_append_right _ (List.count_pos_iff.mp hpos)
      exact hplaced.launched _ hlogged
  · intro id seed r hin
    rcases List.mem_append.mp hin with hin | hin
    · exact h.answers id seed r (hmem _ hin)
    · have hpos := inFlight_pos (f := resultOf) hin rfl
      rw [hsent.result] at hpos
      exact absurd hpos (lt_irrefl 0)

/-- Messages other than requests and answers do not matter. -/
theorem other (h : Served job g) {nodes : L → Node K} {hamiltonian : Option (HamiltonianType K)}
    {names : List L} {net : List (Message L K)}
    (hrequests : ∀ p, inFlight requestOf p net = inFlight requestOf p g.network)
    (hresults : ∀ p, inFlight resultOf p net = inFlight resultOf p g.network)
    (hmem : ∀ m ∈ net, m ∈ g.network ∨ ∃ l, m = .connecting l ∨ m = .initialized l) :
    Served job { g with
      nodes := nodes, hamiltonian := hamiltonian, names := names, network := net } := by
  refine { h with conserved := ?_, requests := ?_, answers := ?_ }
  · intro p
    rw [hrequests, hresults]
    exact h.conserved p
  · intro id seed hin
    rcases hmem _ hin with hin | ⟨l, heq | heq⟩
    · exact h.requests id seed hin
    · cases heq
    · cases heq
  · intro id seed r hin
    rcases hmem _ hin with hin | ⟨l, heq | heq⟩
    · exact h.answers id seed r hin
    · cases heq
    · cases heq

/-- A solve on a node: the request becomes the answer. -/
theorem runOne (h : Served job g) (hjoined : Joined job g) {k : ℕ} {id : WrapperId L} {seed : ℤ}
    {rest : List (Message L K)} {theSolver : SaSolver K} {r : Result K}
    (hm : take k g.network = some (.runOne id seed, rest))
    (hsolver : (g.nodes id.locality).theSolver = some theSolver)
    (hr : answer job theSolver seed = some r) :
    Served job { g with network := rest ++ [.result id seed r] } := by
  refine { h with conserved := ?_, requests := ?_, answers := ?_ }
  · intro p
    have hold := h.conserved p
    rw [inFlight_take hm, inFlight_take hm] at hold
    simp [requestOf, resultOf] at hold ⊢
    omega
  · intro id' seed' hin
    rcases List.mem_append.mp hin with hin | hin
    · exact h.requests id' seed' (mem_of_mem_rest hm hin)
    · simp at hin
  · intro id' seed' r' hin
    rcases List.mem_append.mp hin with hin | hin
    · exact h.answers id' seed' r' (mem_of_mem_rest hm hin)
    · cases List.mem_singleton.mp hin
      obtain ⟨H, hH, rfl⟩ := hjoined.of_theSolver hsolver
      exact ⟨H, hjoined.loaded H hH, hr⟩

/-- **The step lemma.** -/
theorem step (h : Served job g) (hjoined : Joined job g) {e : ClusterEvent L}
    (hstep : Happens job e g g') : Served job g' := by
  cases hstep with
  | notify hl hnew =>
      apply h.other
      · simp [requestOf]
      · simp [resultOf]
      · intro m hm
        rcases List.mem_append.mp hm with hm | hm
        · exact Or.inl hm
        · exact Or.inr ⟨_, Or.inl (List.mem_singleton.mp hm)⟩
  | load hat hnone hload => exact { h with }
  | console hcause hc hms => exact h.console hcause hc hms
  | createSolver hm hnew =>
      apply h.other
      · intro p
        rw [inFlight_take hm]
        simp [requestOf]
      · intro p
        rw [inFlight_take hm]
        simp [resultOf]
      · intro m hmem
        rcases List.mem_append.mp hmem with hmem | hmem
        · exact Or.inl (mem_of_mem_rest hm hmem)
        · exact Or.inr ⟨_, Or.inr (List.mem_singleton.mp hmem)⟩
  | runOne hm hsolver hr => exact h.runOne hjoined hm hsolver hr

end Served

theorem served_initial (nranks : ℕ) : Served job (initial job nranks) := by
  refine ⟨⟨?_, ?_, ?_⟩, fun p => rfl, ?_, ?_⟩
  · intro id hid
    cases hid
  · intro rest enough heq
    cases heq
  · intro p hp
    cases hp
  · intro id seed hin
    cases hin
  · intro id seed r hin
    cases hin

end Cluster

end SpinGlass
