import SpinGlass.Hamiltonian
import SpinGlass.Lib.Decimal
import SpinGlass.Lib.Words

/-!
# Commands — what is done with a line of the console

`poll_stdin` reads a command from a line of the standard input: `ladd` and
`add` start further nodes, `quit` aborts the calculation, and a number that
is none ends the thread with an exception. `pollLine` is what the thread does
with one line. `foldl_pollLine_session` says what it does with a list of
them, and `request_typed` that a command is understood however it is spaced.
How the lines come out of the standard input is told in `Polling`.
-/

namespace SpinGlass

open Decimal Words

/-! ## The thread -/

/-- What the commands for further nodes are made from. -/
structure Launcher where
  appBinaryName : Str
  agasPort : ℕ
  /-- `SPINSOLVE_SOURCE_DIR "/scripts/" SPINSOLVE_SCRIPT_NAME`. -/
  script : Str
  myIp : Str
  partition : Str
  account : Str
  reservation : Str

/-- What the thread does outside of itself. -/
inductive Action where
  /-- Something is written to `std::cout`. -/
  | cout (text : Str)
  | executeAndDetach (commands : List Str)
  | executeAndCapture (commands : List Str)
  /-- `spinsolver::scheduler.abort()`. -/
  | abort
  deriving DecidableEq, Repr

/-- Where the thread is. -/
inductive PollAt where
  /-- In the loop, waiting for a line. -/
  | reading
  /-- Past the loop. -/
  | terminated
  /-- `boost::bad_lexical_cast` has left the thread. -/
  | thrown
  deriving DecidableEq, Repr

/-- The thread, and what it has done so far. -/
structure Poll where
  pollAt : PollAt := .reading
  /-- The `static int num_jobs` of `add_nodes_slurm`. -/
  numJobs : ℕ := 1
  log : List Action := []
  deriving DecidableEq, Repr

def Poll.act (action : Action) (st : Poll) : Poll := { st with log := st.log ++ [action] }

/-- `std::isspace`: a blank, or a control character from the tab to the carriage return. -/
def isSpace (c : Char) : Bool := c.toNat = 32 || (9 ≤ c.toNat && c.toNat ≤ 13)

/-- `is_any_of(" \t\n")`. -/
def isBlank (c : Char) : Bool := c = ' ' || c = '\t' || c = '\n'

/-- `boost::lexical_cast<int>`, which throws when it has no value. -/
def lexicalCastInt (x : Str) : Option ℤ :=
  (int? x).filter fun n => -2 ^ 31 ≤ n ∧ n < 2 ^ 31

/-- `std::to_string`. -/
def toStringInt (n : ℤ) : Str :=
  if n < 0 then '-' :: Nat.toDigits 10 n.natAbs else Nat.toDigits 10 n.natAbs

/-- `add_nodes`: the command, which is the same for every `N`. -/
def addNodes (env : Launcher) (_N : ℤ) : List Str :=
  [env.appBinaryName, "-Ihpx.parcel.port=".toList ++ Nat.toDigits 10 env.agasPort,
    "--hpx:threads=2".toList, "--hpx:connect".toList]

/-- The name of a job. -/
def jobName (numJobs : ℕ) : Str := "spinsolve_".toList ++ Nat.toDigits 10 numJobs

/-- The command of `add_nodes_slurm`. -/
def slurmCommand (env : Launcher) (numJobs : ℕ) (N hours mins : ℤ)
    (partition account reservation : Str) : List Str :=
  [env.script, jobName numJobs, toStringInt hours, toStringInt mins, toStringInt N,
    env.myIp ++ ':' :: Nat.toDigits 10 env.agasPort, partition, account, reservation]

/-- `add_nodes_slurm`. -/
def addNodesSlurm (env : Launcher) (N hours mins : ℤ) (partition account reservation : Str)
    (st : Poll) : Poll :=
  { st with numJobs := st.numJobs + 1 }.act
    (.executeAndCapture (slurmCommand env st.numJobs N hours mins partition account reservation))

/-- `if (cmd.size() == 2)`, with the number in `cmd[1]` and `if (N>0)`. -/
def withNumber (cmd : List Str) (launch : ℤ → Poll → Poll) (st : Poll) : Poll :=
  match cmd with
  | [_, number] =>
      match lexicalCastInt number with
      | some N => if 0 < N then launch N st else st
      | none => { st with pollAt := .thrown }
  | _ => st

/-- The chain of comparisons with `cmd[0]`. -/
def interpret (env : Launcher) (line : Str) (cmd : List Str) (st : Poll) : Poll :=
  let word := cmd.headD []
  if word = "reset".toList then st
  else if word = "ladd".toList then
    withNumber cmd (fun N => Poll.act (.executeAndDetach (addNodes env N))) st
  else if word = "add".toList ∨ word = "a".toList then
    withNumber cmd
      (fun N => addNodesSlurm env N 0 10 env.partition env.account env.reservation) st
  else if word = "query".toList then st
  else if word = "help".toList then
    st.act (.cout "commands are add(a) <n>, query, reset, quit(q) \n".toList)
  else if word = "quit".toList ∨ word = "q".toList then
    { st.act .abort with pollAt := .terminated }
  else st.act (.cout ("error: invalid command '".toList ++ line ++ "'\n".toList))

/-- `cmd`: the words on a line. -/
def cmdOf (input : Str) : List Str := splitRuns isBlank (trim isSpace input)

/-- The end of a pass: back to the loop, or past it. -/
def endPass (st : Poll) : Poll :=
  match st.pollAt with
  | .reading => st.act (.cout "\n".toList)
  | .terminated => st.act (.cout "Query thread terminated \n".toList)
  | .thrown => st

/-- A pass of the loop in which `line` is `input` when it is trimmed. -/
def pollLine (env : Launcher) (st : Poll) (input : Str) : Poll :=
  match st.pollAt with
  | .reading =>
      endPass (if (cmdOf input).head?.any (· ≠ []) then
          interpret env (trim isSpace input) (cmdOf input) st
        else st)
  | _ => st

/-! ## What a line asks for -/

inductive Request where
  /-- `N` nodes from slurm. -/
  | submit (N : ℤ)
  /-- A process on this node. -/
  | launch (N : ℤ)
  | quit
  /-- A number that is none. -/
  | fail
  | other
  deriving DecidableEq, Repr

def Request.goesOn : Request → Bool
  | .quit | .fail => false
  | .submit _ | .launch _ | .other => true

/-- The position of the thread after a line. -/
def Request.pollAt : Request → PollAt
  | .quit => .terminated
  | .fail => .thrown
  | .submit _ | .launch _ | .other => .reading

theorem Request.pollAt_eq_reading_iff (q : Request) : q.pollAt = .reading ↔ q.goesOn = true := by
  cases q <;> simp [Request.pollAt, Request.goesOn]

def Request.submitted : Request → Option ℤ
  | .submit N => some N
  | _ => none

def Request.launched : Request → Option ℤ
  | .launch N => some N
  | _ => none

theorem Request.nothing_asked {q : Request} (h : q.goesOn = false) :
    q.submitted = none ∧ q.launched = none := by
  cases q with
  | quit => exact ⟨rfl, rfl⟩
  | fail => exact ⟨rfl, rfl⟩
  | submit N => cases h
  | launch N => cases h
  | other => cases h

/-- A command with one number, if this is positive. -/
def numberAsked (cmd : List Str) (ask : ℤ → Request) : Request :=
  match cmd with
  | [_, number] =>
      match lexicalCastInt number with
      | some N => if 0 < N then ask N else .other
      | none => .fail
  | _ => .other

/-- What the words on a line ask for. -/
def cmdRequest (cmd : List Str) : Request :=
  let word := cmd.headD []
  if word = "reset".toList then .other
  else if word = "ladd".toList then numberAsked cmd .launch
  else if word = "add".toList ∨ word = "a".toList then numberAsked cmd .submit
  else if word = "query".toList then .other
  else if word = "help".toList then .other
  else if word = "quit".toList ∨ word = "q".toList then .quit
  else .other

def request (input : Str) : Request := cmdRequest (cmdOf input)

/-- The scripts that have been run. -/
def scripts (log : List Action) : List (List Str) :=
  log.filterMap fun
    | .executeAndCapture commands => some commands
    | _ => none

/-- The processes that have been started. -/
def processes (log : List Action) : List (List Str) :=
  log.filterMap fun
    | .executeAndDetach commands => some commands
    | _ => none

/-- The command by which `add_nodes_slurm` asks for `N` nodes. -/
def nodesCommand (env : Launcher) (numJobs : ℕ) (N : ℤ) : List Str :=
  slurmCommand env numJobs N 0 10 env.partition env.account env.reservation

/-- `st'` is `st` after a line with the request `q`. -/
structure Turned (env : Launcher) (q : Request) (st st' : Poll) : Prop where
  pollAt : st'.pollAt = q.pollAt
  numJobs : st'.numJobs = st.numJobs + q.submitted.toList.length
  scripts : scripts st'.log = scripts st.log ++ q.submitted.toList.map (nodesCommand env st.numJobs)
  processes : processes st'.log = processes st.log ++ q.launched.toList.map (addNodes env)
  aborts : st'.log.count .abort = st.log.count .abort + if q = .quit then 1 else 0

section Turns

variable {env : Launcher} {st st' : Poll} {q : Request}

/-- What is written changes nothing else. -/
theorem Turned.cout (h : Turned env q st st') (text : Str) :
    Turned env q st (st'.act (.cout text)) := by
  constructor
  · exact h.pollAt
  · exact h.numJobs
  · rw [← h.scripts]
    simp [Poll.act, SpinGlass.scripts]
  · rw [← h.processes]
    simp [Poll.act, SpinGlass.processes]
  · rw [← h.aborts]
    simp [Poll.act]

theorem Turned.endPass (h : Turned env q st st') : Turned env q st (SpinGlass.endPass st') := by
  unfold SpinGlass.endPass
  split
  · exact h.cout _
  · exact h.cout _
  · exact h

theorem Turned.refl (hst : st.pollAt = .reading) : Turned env .other st st := by
  constructor
  · exact hst
  · rfl
  · exact (List.append_nil _).symm
  · exact (List.append_nil _).symm
  · rfl

/-- The commands with a number. -/
theorem withNumber_turned (hst : st.pollAt = .reading) {launch : ℤ → Poll → Poll}
    {ask : ℤ → Request} (hlaunch : ∀ N, Turned env (ask N) st (launch N st)) (cmd : List Str) :
    Turned env (numberAsked cmd ask) st (withNumber cmd launch st) := by
  unfold numberAsked withNumber
  split
  · split
    · split
      · exact hlaunch _
      · exact Turned.refl hst
    · constructor
      · rfl
      · rfl
      · exact (List.append_nil _).symm
      · exact (List.append_nil _).symm
      · rfl
  · exact Turned.refl hst

theorem interpret_turned (hst : st.pollAt = .reading) (line : Str) (cmd : List Str) :
    Turned env (cmdRequest cmd) st (interpret env line cmd st) := by
  unfold cmdRequest interpret
  dsimp only
  split_ifs
  · exact Turned.refl hst
  · apply withNumber_turned hst
    intro N
    constructor
    · exact hst
    · rfl
    · simp [Poll.act, scripts, Request.submitted]
    · simp [Poll.act, processes, Request.launched]
    · simp [Poll.act]
  · apply withNumber_turned hst
    intro N
    constructor
    · exact hst
    · rfl
    · simp [addNodesSlurm, Poll.act, scripts, Request.submitted, nodesCommand]
    · simp [addNodesSlurm, Poll.act, processes, Request.launched]
    · simp [addNodesSlurm, Poll.act]
  · exact Turned.refl hst
  · exact (Turned.refl hst).cout _
  · constructor
    · rfl
    · rfl
    · simp [Poll.act, scripts, Request.submitted]
    · simp [Poll.act, processes, Request.launched]
    · simp [Poll.act]
  · exact (Turned.refl hst).cout _

/-- **A line does what it asks for.** -/
theorem pollLine_turned (hst : st.pollAt = .reading) (input : Str) :
    Turned env (request input) st (pollLine env st input) := by
  have hread : Turned env (request input) st
      (if (cmdOf input).head?.any (· ≠ []) then
        interpret env (trim isSpace input) (cmdOf input) st else st) := by
    split
    · exact interpret_turned hst _ _
    · rename_i hempty
      have hword : (cmdOf input).headD [] = [] := by
        cases hcmd : cmdOf input with
        | nil => rfl
        | cons word words => simpa [hcmd] using hempty
      have hother : request input = .other := by
        unfold request cmdRequest
        rw [hword]
        rfl
      rw [hother]
      exact Turned.refl hst
  rw [pollLine, hst]
  exact hread.endPass

theorem withNumber_log {launch : ℤ → Poll → Poll} (hlaunch : ∀ N, st.log <+: (launch N st).log)
    (cmd : List Str) : st.log <+: (withNumber cmd launch st).log := by
  unfold withNumber
  split
  · split
    · split
      · exact hlaunch _
      · exact List.prefix_refl _
    · exact List.prefix_refl _
  · exact List.prefix_refl _

theorem interpret_log (line : Str) (cmd : List Str) :
    st.log <+: (interpret env line cmd st).log := by
  unfold interpret
  dsimp only
  split_ifs
  · exact List.prefix_refl _
  · exact withNumber_log (fun N => List.prefix_append _ _) cmd
  · exact withNumber_log (fun N => List.prefix_append _ _) cmd
  · exact List.prefix_refl _
  · exact List.prefix_append _ _
  · exact List.prefix_append _ _
  · exact List.prefix_append _ _

theorem endPass_ne (hread : st.pollAt = .reading) (h : st.log <+: st'.log) :
    SpinGlass.endPass st' ≠ st := by
  have hlen := h.length_le
  have hlog : ∀ text, st'.act (.cout text) ≠ st := by
    rintro text rfl
    simp [Poll.act] at hlen
  unfold SpinGlass.endPass
  split
  · exact hlog _
  · exact hlog _
  · rename_i hthrown
    rintro rfl
    rw [hread] at hthrown
    cases hthrown

/-- Whatever a line asks for, one sees that it has been handled. -/
theorem pollLine_ne (hst : st.pollAt = .reading) (input : Str) : pollLine env st input ≠ st := by
  rw [pollLine, hst]
  apply endPass_ne hst
  split
  · exact interpret_log _ _
  · exact List.prefix_refl _

end Turns

/-! ## A session -/

/-- The numbers of nodes that are asked for before the loop ends. -/
def nodesAsked (qs : List Request) : List ℤ :=
  (qs.takeWhile Request.goesOn).filterMap Request.submitted

/-- The numbers behind `ladd`. -/
def launchesAsked (qs : List Request) : List ℤ :=
  (qs.takeWhile Request.goesOn).filterMap Request.launched

/-- The request that ends the loop. -/
def lastRequest (qs : List Request) : Option Request := qs.find? fun q => !q.goesOn

/-- `st'` is `st` after lines with the requests `qs`. -/
structure Session (env : Launcher) (qs : List Request) (st st' : Poll) : Prop where
  pollAt : st'.pollAt = ((lastRequest qs).map Request.pollAt).getD .reading
  scripts : scripts st'.log = scripts st.log
    ++ ((nodesAsked qs).zipIdx st.numJobs).map fun p => nodesCommand env p.2 p.1
  processes : processes st'.log = processes st.log ++ (launchesAsked qs).map (addNodes env)
  aborts : st'.log.count .abort
    = st.log.count .abort + if lastRequest qs = some .quit then 1 else 0

section Sessions

variable {env : Launcher}

/-- Past the loop no line is read. -/
theorem foldl_pollLine_of_ne {st : Poll} (hst : st.pollAt ≠ .reading) (inputs : List Str) :
    inputs.foldl (pollLine env) st = st := by
  induction inputs with
  | nil => rfl
  | cons input inputs ih =>
      have hline : pollLine env st input = st := by
        unfold pollLine
        split
        · rename_i hread
          exact absurd hread hst
        · rfl
      rw [List.foldl_cons, hline, ih]

theorem foldl_pollLine_session (inputs : List Str) {st : Poll} (hst : st.pollAt = .reading) :
    Session env (inputs.map request) st (inputs.foldl (pollLine env) st) := by
  induction inputs generalizing st with
  | nil =>
      constructor
      · exact hst
      · exact (List.append_nil _).symm
      · exact (List.append_nil _).symm
      · rfl
  | cons input inputs ih =>
      have hturn : Turned env (request input) st (pollLine env st input) := pollLine_turned hst input
      rw [List.foldl_cons, List.map_cons]
      generalize request input = q at hturn
      generalize inputs.map request = qs at ih
      cases hq : q.goesOn with
      | true =>
          have hread : (q :: qs).takeWhile Request.goesOn = q :: qs.takeWhile Request.goesOn :=
            List.takeWhile_cons_of_pos hq
          have hlast : lastRequest (q :: qs) = lastRequest qs :=
            List.find?_cons_of_neg (by simp [hq])
          have hquit : q ≠ .quit := by
            rintro rfl
            cases hq
          have hrest : Session env qs (pollLine env st input)
              (inputs.foldl (pollLine env) (pollLine env st input)) := by
            apply ih
            rw [hturn.pollAt, Request.pollAt_eq_reading_iff, hq]
          constructor
          · rw [hlast]
            exact hrest.pollAt
          · rw [hrest.scripts, hturn.scripts, hturn.numJobs, List.append_assoc, nodesAsked,
              nodesAsked, hread]
            cases h : q.submitted <;> simp [h]
          · rw [hrest.processes, hturn.processes, List.append_assoc, launchesAsked, launchesAsked,
              hread]
            cases h : q.launched <;> simp [h]
          · rw [hrest.aborts, hturn.aborts, hlast, if_neg hquit, Nat.add_zero]
      | false =>
          have hread : (q :: qs).takeWhile Request.goesOn = [] :=
            List.takeWhile_cons_of_neg (by simp [hq])
          have hlast : lastRequest (q :: qs) = some q := List.find?_cons_of_pos (by simp [hq])
          -- the loop has been left
          have hstop : (pollLine env st input).pollAt ≠ .reading := by
            rw [hturn.pollAt, ne_eq, Request.pollAt_eq_reading_iff, hq]
            exact Bool.false_ne_true
          obtain ⟨hsubmitted, hlaunched⟩ := Request.nothing_asked hq
          rw [foldl_pollLine_of_ne hstop]
          constructor
          · rw [hlast]
            exact hturn.pollAt
          · rw [hturn.scripts, nodesAsked, hread, hsubmitted]
            rfl
          · rw [hturn.processes, launchesAsked, hread, hlaunched]
            rfl
          · simp only [hturn.aborts, hlast, Option.some_inj]

end Sessions

/-- The names of jobs with different numbers are different. -/
theorem jobName_inj {m n : ℕ} (h : jobName m = jobName n) : m = n :=
  Text.toDigits_inj (List.append_cancel_left h)

/-- The scripts of a session have different names for their jobs. -/
theorem nodup_jobNames (env : Launcher) (Ns : List ℤ) :
    (((Ns.zipIdx 1).map fun p => nodesCommand env p.2 p.1).map fun commands => commands[1]?).Nodup := by
  have hnames : ((Ns.zipIdx 1).map fun p => nodesCommand env p.2 p.1).map
      (fun commands => commands[1]?) = (List.range' 1 Ns.length).map fun n => some (jobName n) := by
    rw [List.map_map, ← List.zipIdx_map_snd 1 Ns, List.map_map]
    rfl
  rw [hnames]
  apply List.Nodup.map _ List.nodup_range'
  intro m n hmn
  exact jobName_inj (Option.some_inj.mp hmn)

/-! ## Commands that are typed -/

inductive Command where
  | reset
  | query
  | help
  | ladd (N : ℤ)
  | add (short : Bool) (N : ℤ)
  | quit (short : Bool)
  deriving DecidableEq, Repr

/-- The command, word by word. -/
def Command.words : Command → List Str
  | .reset => ["reset".toList]
  | .query => ["query".toList]
  | .help => ["help".toList]
  | .ladd N => ["ladd".toList, toStringInt N]
  | .add short N => [if short then "a".toList else "add".toList, toStringInt N]
  | .quit short => [if short then "q".toList else "quit".toList]

/-- Its numbers are values of `int`. -/
def Command.InRange : Command → Prop
  | .ladd N | .add _ N => -2 ^ 31 ≤ N ∧ N < 2 ^ 31
  | _ => True

/-- What it asks for. -/
def Command.request : Command → Request
  | .reset | .query | .help => .other
  | .ladd N => if 0 < N then .launch N else .other
  | .add _ N => if 0 < N then .submit N else .other
  | .quit _ => .quit

/-- A line on which the command is typed, with any blanks around and between its words. -/
def Typed (c : Command) (input : Str) : Prop :=
  ∃ left s right, input = left ++ (s ++ right) ∧ (∀ x ∈ left, isSpace x = true) ∧
    (∀ x ∈ right, isSpace x = true) ∧ Spells isBlank c.words s

section Typing

theorem lexicalCastInt_toStringInt {n : ℤ} (h : -2 ^ 31 ≤ n ∧ n < 2 ^ 31) :
    lexicalCastInt (toStringInt n) = some n := by
  have hread : int? (toStringInt n) = some n := by
    unfold toStringInt
    split
    · rw [int?_neg_toDigits]
      congr 1
      omega
    · rw [int?_toDigits]
      congr 1
      omega
  rw [lexicalCastInt, hread]
  simpa [Option.filter] using h

/-- Letters, digits and a sign are no blanks. -/
theorem Command.words_plain (c : Command) :
    ∀ w ∈ c.words, w ≠ [] ∧ ∀ x ∈ w, isSpace x = false := by
  have hnumber : ∀ n : ℤ, toStringInt n ≠ [] ∧ ∀ x ∈ toStringInt n, isSpace x = false := by
    intro n
    have hdigits : ∀ x ∈ Nat.toDigits 10 n.natAbs, isSpace x = false := by
      intro x hx
      have hdigit := Char.isDigit_iff_toNat.mp (Nat.isDigit_of_mem_toDigits (by omega)
        (Nat.le_refl 10) hx)
      have h48 : 48 ≤ x.toNat := hdigit.1
      simp only [isSpace, Bool.or_eq_false_iff, Bool.and_eq_false_iff, decide_eq_false_iff_not]
      omega
    unfold toStringInt
    split
    · refine ⟨List.cons_ne_nil _ _, ?_⟩
      intro x hx
      rcases List.mem_cons.mp hx with rfl | hx
      · rfl
      · exact hdigits x hx
    · exact ⟨Nat.toDigits_ne_nil, hdigits⟩
  have hword : ∀ w ∈ ["reset", "query", "help", "ladd", "a", "add", "q", "quit"].map String.toList,
      w ≠ [] ∧ ∀ x ∈ w, isSpace x = false := by simp [isSpace]
  cases c with
  | reset =>
      rw [Command.words, List.forall_mem_singleton]
      exact hword _ (by simp)
  | query =>
      rw [Command.words, List.forall_mem_singleton]
      exact hword _ (by simp)
  | help =>
      rw [Command.words, List.forall_mem_singleton]
      exact hword _ (by simp)
  | ladd N =>
      rw [Command.words, List.forall_mem_cons, List.forall_mem_singleton]
      exact ⟨hword _ (by simp), hnumber N⟩
  | add short N =>
      rw [Command.words, List.forall_mem_cons, List.forall_mem_singleton]
      cases short <;> exact ⟨hword _ (by simp), hnumber N⟩
  | quit short =>
      rw [Command.words, List.forall_mem_singleton]
      cases short <;> exact hword _ (by simp)

theorem isBlank_of_not_isSpace {x : Char} (h : isSpace x = false) : isBlank x = false := by
  cases hx : isBlank x with
  | false => rfl
  | true =>
      simp only [isBlank, Bool.or_eq_true, decide_eq_true_eq] at hx
      rcases hx with (rfl | rfl) | rfl <;> exact absurd h (by decide)

/-- **The words are found**, whatever the blanks are. -/
theorem cmdOf_typed {c : Command} {input : Str} (h : Typed c input) : cmdOf input = c.words := by
  obtain ⟨left, s, right, rfl, hleft, hright, hs⟩ := h
  have hne : ∀ w ∈ c.words, w ≠ [] := fun w hw => (c.words_plain w hw).1
  have hhead : ∀ x ∈ s.head?, isSpace x = false := by
    intro x hx
    rw [hs.head? hne, Option.mem_def, Option.bind_eq_some_iff] at hx
    obtain ⟨w, hw, hx⟩ := hx
    exact (c.words_plain w (List.mem_of_head? hw)).2 x (List.mem_of_head? hx)
  have hlast : ∀ x ∈ s.getLast?, isSpace x = false := by
    intro x hx
    rw [hs.getLast? hne, Option.mem_def, Option.bind_eq_some_iff] at hx
    obtain ⟨w, hw, hx⟩ := hx
    exact (c.words_plain w (List.mem_of_getLast? hw)).2 x (List.mem_of_getLast? hx)
  have hnil : s ≠ [] := by
    intro hnil
    have hsome := hs.head? hne
    rw [hnil, List.head?_nil, eq_comm, Option.bind_eq_none_iff] at hsome
    have hfirst := List.head?_eq_some_head hs.ne_nil
    exact hne _ (List.head_mem hs.ne_nil) (List.head?_eq_none_iff.mp (hsome _ hfirst))
  rw [cmdOf, trim_pad hleft hright hnil hhead hlast]
  apply splitRuns_of_spells hs
  intro w hw
  obtain ⟨hw0, hplain⟩ := c.words_plain w hw
  exact ⟨hw0, fun x hx => isBlank_of_not_isSpace (hplain x hx)⟩

/-- And the command is understood. -/
theorem request_typed {c : Command} {input : Str} (h : Typed c input) (hrange : c.InRange) :
    SpinGlass.request input = c.request := by
  rw [SpinGlass.request, cmdOf_typed h]
  cases c with
  | reset => rfl
  | query => rfl
  | help => rfl
  | ladd N =>
      show numberAsked ["ladd".toList, toStringInt N] .launch = _
      rw [numberAsked, lexicalCastInt_toStringInt hrange]
      rfl
  | add short N =>
      have hask : cmdRequest (Command.add short N).words
          = numberAsked (Command.add short N).words .submit := by
        cases short <;> rfl
      rw [hask, Command.words, numberAsked, lexicalCastInt_toStringInt hrange]
      rfl
  | quit short => cases short <;> rfl

/-- No number is misread, so that only `quit` ends the loop. -/
theorem Command.goesOn_request (c : Command) : c.request.goesOn = decide (c.request ≠ .quit) := by
  cases hc : c.request with
  | fail =>
      cases c with
      | reset => cases hc
      | query => cases hc
      | help => cases hc
      | ladd N =>
          rw [Command.request] at hc
          split at hc <;> cases hc
      | add short N =>
          rw [Command.request] at hc
          split at hc <;> cases hc
      | quit short => cases hc
  | submit N => rfl
  | launch N => rfl
  | quit => rfl
  | other => rfl

/-- The commands up to the first `quit` are those whose requests are met. -/
theorem takeWhile_commands (cs : List Command) :
    (cs.map Command.request).takeWhile Request.goesOn
      = (cs.takeWhile fun c => c.request ≠ .quit).map Command.request := by
  have hgo : Request.goesOn ∘ Command.request = fun c => decide (c.request ≠ .quit) :=
    funext Command.goesOn_request
  rw [List.takeWhile_map, hgo]

theorem lastRequest_commands (cs : List Command) :
    lastRequest (cs.map Command.request)
      = if ∃ c ∈ cs, c.request = .quit then some .quit else none := by
  cases hlast : lastRequest (cs.map Command.request) with
  | none =>
      rw [if_neg]
      rintro ⟨c, hc, hquit⟩
      have hall := List.find?_eq_none.mp hlast _ (List.mem_map_of_mem hc)
      rw [hquit] at hall
      exact hall rfl
  | some q =>
      obtain ⟨c, hc, rfl⟩ := List.mem_map.mp (List.mem_of_find?_eq_some hlast)
      have hfind : (cs.map Command.request).find? (fun q => !q.goesOn) = some c.request := hlast
      have hstop := List.find?_some hfind
      have hquit : c.request = .quit := by simpa [c.goesOn_request] using hstop
      rw [if_pos ⟨c, hc, hquit⟩, hquit]

end Typing

end SpinGlass
