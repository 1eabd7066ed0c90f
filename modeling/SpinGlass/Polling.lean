import SpinGlass.Commands
import SpinGlass.Lib.Text
import SpinGlass.Lib.Transition

/-!
# Polling — the thread that reads the console

`poll_stdin` asks `select` whether the standard input has something to read,
and takes a line with `std::getline`. This reads as much as it is given into
the buffer of `std::cin`, which `select` does not see, and waits for the end of
the line. Others write to the standard input, may end it, and stop the
runtime, in any order with the steps of the thread.

`poll_stdin_lines` says that each line is handled once, in order, and that
what stands behind the last line end is handled again and again when the
input has an end; `next_line_iff` when the next line is reached.
-/

namespace SpinGlass

open Transition Words

/-! ## The thread and its input -/

/-- The thread of `poll_stdin`, and what it reads from. -/
structure PollStdin where
  poll : Poll := {}
  /-- `hpx::is_running()`. -/
  isRunning : Bool := true
  /-- The thread is in `std::getline`. -/
  inGetline : Bool := false
  line : Str := []
  /-- What `std::cin` has read, and `std::getline` not yet taken. -/
  buffer : Str := []
  /-- `std::cin.eof()`. -/
  eof : Bool := false
  /-- What stands in the standard input to be read. -/
  pending : Str := []
  /-- The standard input has an end behind `pending`. -/
  closed : Bool := false
  /-- All that has been written to the standard input. -/
  written : Str := []
  deriving DecidableEq, Repr

/-- What can happen. -/
inductive PollEvent where
  | write (text : Str)
  /-- The standard input gets its end. -/
  | close
  /-- The runtime stops. -/
  | stop
  /-- `std::cin` reads `k` characters for `std::getline`. -/
  | read (k : ℕ)
  /-- A step of the thread. -/
  | thread
  deriving DecidableEq, Repr

namespace PollStdin

/-- `inputAvailable`: an end of the input can be read, too. -/
def inputAvailable (st : PollStdin) : Bool := st.pending ≠ [] || st.closed

/-- A pass of the loop from `trim` on, when `std::getline` has returned. -/
def interpretLine (env : Launcher) (st : PollStdin) : PollStdin :=
  { st with
    poll := pollLine env st.poll st.line
    line := trim isSpace st.line
    inGetline := false }

/-- The loop is left because the runtime has stopped. -/
def leave (poll : Poll) : Poll := endPass { poll with pollAt := .terminated }

/-- `std::getline` takes one character, or meets the end of the input. It waits
while there is neither. -/
def getlineStep (env : Launcher) (st : PollStdin) : Option PollStdin :=
  match st.buffer with
  | c :: cs =>
      if c = '\n' then some ({ st with buffer := cs }.interpretLine env)
      else some { st with buffer := cs, line := st.line ++ [c] }
  | [] =>
      if st.pending = [] ∧ st.closed then some ({ st with eof := true }.interpretLine env)
      else none

/-- A pass of the loop up to `std::getline`. Once `std::cin` has met the end, this fails at
once and leaves `line` as it is. -/
def loopStep (env : Launcher) (st : PollStdin) : PollStdin :=
  if !st.isRunning then { st with poll := leave st.poll }
  else if st.inputAvailable then
    if st.eof then st.interpretLine env
    else { st with inGetline := true, line := [] }
  else st

def threadStep (env : Launcher) (st : PollStdin) : Option PollStdin :=
  match st.poll.pollAt with
  | .reading => if st.inGetline then st.getlineStep env else some (st.loopStep env)
  | .terminated | .thrown => none

def step (env : Launcher) : PollEvent → PollStdin → Option PollStdin
  | .write text, st =>
      if st.closed then none
      else some { st with pending := st.pending ++ text, written := st.written ++ text }
  | .close, st => some { st with closed := true }
  | .stop, st => some { st with isRunning := false }
  | .read k, st =>
      if st.inGetline ∧ st.buffer = [] ∧ 0 < k ∧ k ≤ st.pending.length then
        some { st with buffer := st.pending.take k, pending := st.pending.drop k }
      else none
  | .thread, st => st.threadStep env

/-- Everything the thread can do. -/
inductive Does (env : Launcher) (st : PollStdin) : PollStdin → Prop
  | take {c cs} : st.inGetline = true → st.buffer = c :: cs → c ≠ '\n' →
      Does env st { st with buffer := cs, line := st.line ++ [c] }
  | endLine {cs} : st.inGetline = true → st.buffer = '\n' :: cs →
      Does env st ({ st with buffer := cs }.interpretLine env)
  | endInput : st.inGetline = true → st.buffer = [] → st.pending = [] → st.closed = true →
      Does env st ({ st with eof := true }.interpretLine env)
  | leave : st.inGetline = false → st.isRunning = false →
      Does env st { st with poll := PollStdin.leave st.poll }
  | again : st.inGetline = false → st.isRunning = true → st.inputAvailable = true →
      st.eof = true → Does env st (st.interpretLine env)
  | enter : st.inGetline = false → st.isRunning = true → st.inputAvailable = true →
      st.eof = false → Does env st { st with inGetline := true, line := [] }
  | suspend : st.inGetline = false → st.isRunning = true → st.inputAvailable = false →
      Does env st st

section Steps

variable {env : Launcher} {st st' : PollStdin}

theorem does_of_loopStep (hloop : st.inGetline = false) : Does env st (st.loopStep env) := by
  unfold loopStep
  split
  · rename_i hstopped
    exact .leave hloop (by simpa using hstopped)
  · rename_i hrunning
    have hrunning : st.isRunning = true := by simpa using hrunning
    split
    · rename_i havailable
      split
      · rename_i heof
        exact .again hloop hrunning havailable heof
      · rename_i heof
        exact .enter hloop hrunning havailable (by simpa using heof)
    · rename_i havailable
      exact .suspend hloop hrunning (by simpa using havailable)

theorem does_of_getlineStep (hget : st.inGetline = true) (h : st.getlineStep env = some st') :
    Does env st st' := by
  unfold getlineStep at h
  split at h
  · rename_i c cs hbuffer
    split at h
    · rename_i hc
      cases h
      exact .endLine hget (by rw [hbuffer, hc])
    · rename_i hc
      cases h
      exact .take hget hbuffer hc
  · rename_i hbuffer
    split at h
    · rename_i hend
      cases h
      exact .endInput hget hbuffer hend.1 hend.2
    · cases h

/-- **A step of the thread**, which is made in its loop only. -/
theorem does_of_threadStep (h : st.threadStep env = some st') :
    st.poll.pollAt = .reading ∧ Does env st st' := by
  unfold threadStep at h
  split at h
  · rename_i hread
    refine ⟨hread, ?_⟩
    split at h
    · rename_i hget
      exact does_of_getlineStep hget h
    · rename_i hloop
      cases h
      exact does_of_loopStep (by simpa using hloop)
  · cases h
  · cases h

end Steps

/-! ## The lines that are handled -/

/-- What the thread has done when it has handled the lines `complete` and, at the end of
the input, `n` times the text `last` behind them. -/
def handled (env : Launcher) (complete : List Str) (last : Str) (n : ℕ) : Poll :=
  (complete ++ List.replicate n last).foldl (pollLine env) {}

/-- The lines that the thread has taken, and the text `last` that it has taken since. -/
structure Books (env : Launcher) (st : PollStdin) (complete : List Str) (last : Str) (n : ℕ) :
    Prop where
  written : st.written = Text.unlines '\n' complete ++ (last ++ (st.buffer ++ st.pending))
  complete_plain : ∀ l ∈ complete, '\n' ∉ l
  last_plain : '\n' ∉ last
  /-- Before the end of the input. -/
  open_input : st.eof = false → n = 0 ∧ (if st.inGetline then st.line = last else last = [])
  /-- At the end of it. -/
  end_input : st.eof = true → 0 < n ∧ trim isSpace st.line = trim isSpace last ∧
    st.inGetline = false ∧ st.closed = true ∧ st.buffer = [] ∧ st.pending = []
  poll : st.poll = handled env complete last n ∨
    st.isRunning = false ∧ st.inGetline = false ∧ st.poll = leave (handled env complete last n)

section Accounts

variable {env : Launcher} {st st' : PollStdin} {complete : List Str} {last : Str} {n : ℕ}

@[simp] theorem leave_pollAt (poll : Poll) : (leave poll).pollAt = .terminated := rfl

/-- What is done with a line depends on it up to the blanks around it. -/
theorem pollLine_trim (env : Launcher) (poll : Poll) (input : Str) :
    pollLine env poll (trim isSpace input) = pollLine env poll input := by
  rw [pollLine, pollLine, cmdOf, cmdOf, trim_trim]

theorem pollLine_congr {input input' : Str} (h : trim isSpace input = trim isSpace input')
    (poll : Poll) : pollLine env poll input = pollLine env poll input' := by
  rw [← pollLine_trim, h, pollLine_trim]

theorem handled_concat (env : Launcher) (complete : List Str) (line : Str) :
    handled env (complete ++ [line]) [] 0 = pollLine env (handled env complete [] 0) line := by
  simp [handled]

theorem handled_succ (env : Launcher) (complete : List Str) (last : Str) (n : ℕ) :
    handled env complete last (n + 1) = pollLine env (handled env complete last n) last := by
  simp [handled, List.replicate_succ']

/-- Nothing is repeated before the end of the input. -/
theorem handled_zero (env : Launcher) (complete : List Str) (last last' : Str) :
    handled env complete last 0 = handled env complete last' 0 := rfl

theorem Books.poll_eq (h : Books env st complete last n) (hread : st.poll.pollAt = .reading) :
    st.poll = handled env complete last n := by
  rcases h.poll with hpoll | ⟨-, -, hpoll⟩
  · exact hpoll
  · rw [hpoll, leave_pollAt] at hread
    cases hread

/-- In `std::getline` the end has not been met, and `line` is what has been taken. -/
theorem Books.in_getline (h : Books env st complete last n) (hget : st.inGetline = true) :
    st.eof = false ∧ n = 0 ∧ st.line = last := by
  have heof : st.eof = false := by
    cases heof : st.eof with
    | false => rfl
    | true =>
        rw [(h.end_input heof).2.2.1] at hget
        cases hget
  obtain ⟨hn, hline⟩ := h.open_input heof
  rw [if_pos hget] at hline
  exact ⟨heof, hn, hline⟩

/-- The books of a state in which the end has not been met. -/
theorem Books.of_open
    (hwritten : st.written = Text.unlines '\n' complete ++ (last ++ (st.buffer ++ st.pending)))
    (hcomplete : ∀ l ∈ complete, '\n' ∉ l) (hlast : '\n' ∉ last) (heof : st.eof = false)
    (hline : if st.inGetline then st.line = last else last = [])
    (hpoll : st.poll = handled env complete last 0) : Books env st complete last 0 := by
  refine ⟨hwritten, hcomplete, hlast, fun _ => ⟨rfl, hline⟩, fun hend => ?_, Or.inl hpoll⟩
  rw [heof] at hend
  cases hend

/-- The books of a state after the end of the input, with one more `last` handled. -/
theorem Books.repeated (h : Books env st complete last n) (hread : st.poll.pollAt = .reading)
    (hline : trim isSpace st.line = trim isSpace last) (hclosed : st.closed = true)
    (hbuffer : st.buffer = []) (hpending : st.pending = []) :
    Books env ({ st with eof := true }.interpretLine env) complete last (n + 1) := by
  refine ⟨h.written, h.complete_plain, h.last_plain, fun hopen => ?_, fun _ => ?_, Or.inl ?_⟩
  · cases hopen
  · refine ⟨Nat.succ_pos n, ?_, rfl, hclosed, hbuffer, hpending⟩
    show trim isSpace (trim isSpace st.line) = _
    rw [trim_trim, hline]
  · show pollLine env st.poll st.line = _
    rw [h.poll_eq hread, handled_succ, pollLine_congr hline]

/-- **One step of the thread** keeps the books. -/
theorem Books.does (h : Books env st complete last n) (hread : st.poll.pollAt = .reading)
    (hdoes : Does env st st') : ∃ complete' last' n', Books env st' complete' last' n' := by
  have hpoll := h.poll_eq hread
  cases hdoes with
  | @take c cs hget hbuffer hc =>
      obtain ⟨heof, rfl, hline⟩ := h.in_getline hget
      refine ⟨complete, last ++ [c], 0, Books.of_open ?_ h.complete_plain ?_ heof ?_ ?_⟩
      · rw [h.written, hbuffer]
        simp
      · simpa [h.last_plain] using Ne.symm hc
      · simp [hget, hline]
      · rw [handled_zero env complete (last ++ [c]) last]
        exact hpoll
  | @endLine cs hget hbuffer =>
      obtain ⟨heof, rfl, hline⟩ := h.in_getline hget
      refine ⟨complete ++ [last], [], 0, Books.of_open ?_ ?_ List.not_mem_nil heof rfl ?_⟩
      · show st.written = _ ++ ([] ++ (cs ++ st.pending))
        rw [h.written, hbuffer, Text.unlines_concat]
        simp
      · intro l hl
        rcases List.mem_append.mp hl with hl | hl
        · exact h.complete_plain l hl
        · rw [List.mem_singleton.mp hl]
          exact h.last_plain
      · show pollLine env st.poll st.line = _
        rw [hpoll, hline, handled_concat, handled_zero env complete last []]
  | endInput hget hbuffer hpending hclosed =>
      obtain ⟨-, -, hline⟩ := h.in_getline hget
      refine ⟨complete, last, n + 1, h.repeated hread ?_ hclosed hbuffer hpending⟩
      rw [hline]
  | leave hloop hstopped =>
      refine ⟨complete, last, n, h.written, h.complete_plain, h.last_plain, h.open_input,
        h.end_input, Or.inr ⟨hstopped, hloop, ?_⟩⟩
      show PollStdin.leave st.poll = _
      rw [hpoll]
  | again hloop hrunning havailable heof =>
      obtain ⟨-, hline, -, hclosed, hbuffer, hpending⟩ := h.end_input heof
      have hsame : { st with eof := true } = st := by rw [← heof]
      refine ⟨complete, last, n + 1, ?_⟩
      have hrepeated := h.repeated hread hline hclosed hbuffer hpending
      rwa [hsame] at hrepeated
  | enter hloop hrunning havailable heof =>
      obtain ⟨rfl, hline⟩ := h.open_input heof
      rw [if_neg (by simp [hloop])] at hline
      exact ⟨complete, last, 0,
        Books.of_open h.written h.complete_plain h.last_plain heof hline.symm hpoll⟩
  | suspend => exact ⟨complete, last, n, h⟩

/-- **One event** keeps the books. -/
theorem Books.step {e : PollEvent} (h : Books env st complete last n)
    (hstep : step env e st = some st') :
    ∃ complete' last' n', Books env st' complete' last' n' := by
  cases e with
  | write text =>
      rw [PollStdin.step] at hstep
      split at hstep
      · cases hstep
      · rename_i hopen
        cases hstep
        refine ⟨complete, last, n, ?_, h.complete_plain, h.last_plain, h.open_input, ?_, h.poll⟩
        · show st.written ++ text = _
          rw [h.written]
          simp
        · intro heof
          exact absurd (h.end_input heof).2.2.2.1 hopen
  | close =>
      cases hstep
      refine ⟨complete, last, n, h.written, h.complete_plain, h.last_plain, h.open_input, ?_, h.poll⟩
      intro heof
      obtain ⟨hn, hline, hloop, -, hrest⟩ := h.end_input heof
      exact ⟨hn, hline, hloop, rfl, hrest⟩
  | stop =>
      cases hstep
      refine ⟨complete, last, n, h.written, h.complete_plain, h.last_plain, h.open_input,
        h.end_input, ?_⟩
      rcases h.poll with hpoll | ⟨-, hloop, hpoll⟩
      · exact Or.inl hpoll
      · exact Or.inr ⟨rfl, hloop, hpoll⟩
  | read k =>
      rw [PollStdin.step] at hstep
      split at hstep
      · rename_i hread
        obtain ⟨hget, hbuffer, -, -⟩ := hread
        cases hstep
        refine ⟨complete, last, n, ?_, h.complete_plain, h.last_plain, h.open_input, ?_, h.poll⟩
        · show st.written = _ ++ (last ++ (st.pending.take k ++ st.pending.drop k))
          rw [h.written, hbuffer, List.take_append_drop, List.nil_append]
        · intro heof
          rw [(h.in_getline hget).1] at heof
          cases heof
      · cases hstep
  | thread =>
      obtain ⟨hread, hdoes⟩ := does_of_threadStep hstep
      exact h.does hread hdoes

/-- The books of a run. -/
theorem exists_books {ok : PollEvent → Prop} (hreach : Reaches (PollStdin.step env) ok {} st) :
    ∃ complete last n, Books env st complete last n := by
  apply hreach.invariant (P := fun st => ∃ complete last n, Books env st complete last n)
  · rintro e u v - ⟨complete, last, n, h⟩ huv
    exact h.step huv
  · exact ⟨[], [], 0, Books.of_open rfl (by simp) List.not_mem_nil rfl rfl rfl⟩

end Accounts

end PollStdin

/-- **What has been written is handled line by line.** At any time, whatever is written in
whatever pieces and whatever is read at once, and whether the input gets an end and the
runtime stops or not: the text consists of complete lines, a text `last` without a line end,
and what has not been taken. What the thread has done and where it is are the outcome of
handling the complete lines, each once and in their order, and then `n` times `last`, where
`n` is `0` before the end of the input and positive from there on; or the loop has been left
behind that, because the runtime has stopped. -/
theorem poll_stdin_lines (env : Launcher) {st : PollStdin}
    (hreach : Reaches (PollStdin.step env) (fun _ => True) {} st) :
    ∃ complete last n,
      st.written = Text.unlines '\n' complete ++ (last ++ (st.buffer ++ st.pending)) ∧
      (∀ l ∈ complete, '\n' ∉ l) ∧ '\n' ∉ last ∧
      (0 < n ↔ st.eof = true) ∧
      (st.eof = true → st.closed = true ∧ st.buffer = [] ∧ st.pending = []) ∧
      let poll := (complete ++ List.replicate n last).foldl (pollLine env) {}
      st.poll = poll ∨ st.isRunning = false ∧
        st.poll = { poll.act (.cout "Query thread terminated \n".toList) with
          pollAt := .terminated } := by
  obtain ⟨complete, last, n, h⟩ := PollStdin.exists_books hreach
  refine ⟨complete, last, n, h.written, h.complete_plain, h.last_plain, ?_, ?_, ?_⟩
  · constructor
    · intro hn
      cases heof : st.eof with
      | true => rfl
      | false => exact absurd (h.open_input heof).1 (by omega)
    · intro heof
      exact (h.end_input heof).1
  · intro heof
    exact (h.end_input heof).2.2.2
  · rcases h.poll with hpoll | ⟨hstopped, -, hpoll⟩
    · exact Or.inl hpoll
    · exact Or.inr ⟨hstopped, hpoll⟩

def sampleLauncher : Launcher :=
  ⟨"spinsolve".toList, 7910, "add_nodes.sh".toList, "10.0.0.1".toList, "all".toList, [], []⟩

/-- A line, and one without an end. -/
def sampleInput : List PollEvent :=
  List.flatten [
    [.write "help\nadd".toList, .thread, .read 6, .thread, .write " 7".toList, .close],
    List.replicate 4 .thread, [.thread, .thread, .read 4], List.replicate 5 .thread]

/-- The second line is behind the end of the input. -/
theorem poll_stdin_lines_sample :
    ∃ st, after (PollStdin.step sampleLauncher) sampleInput {} = some st ∧ ∃ complete last n,
      "help\nadd 7".toList = Text.unlines '\n' complete ++ last ∧ '\n' ∉ last ∧ 0 < n ∧
      st.poll = (complete ++ List.replicate n last).foldl (pollLine sampleLauncher) {} := by
  have hrun : (after (PollStdin.step sampleLauncher) sampleInput {}).map (fun st =>
      (st.written, st.eof, st.isRunning)) = some ("help\nadd 7".toList, true, true) := by decide
  obtain ⟨st, hst, hval⟩ := Option.map_eq_some_iff.mp hrun
  rw [Prod.mk.injEq, Prod.mk.injEq] at hval
  obtain ⟨hwritten, heof, hrunning⟩ := hval
  obtain ⟨complete, last, n, htext, -, hlast, hn, hend, hpoll⟩ :=
    poll_stdin_lines sampleLauncher ⟨sampleInput, fun e _ => trivial, hst⟩
  obtain ⟨-, hbuffer, hpending⟩ := hend heof
  refine ⟨st, hst, complete, last, n, ?_, hlast, hn.mpr heof, ?_⟩
  · rw [← hwritten, htext, hbuffer, hpending, List.append_nil, List.append_nil]
  · refine hpoll.resolve_right fun hstopped => ?_
    rw [hrunning] at hstopped
    cases hstopped.1

/-! ## Commands that are typed -/

namespace PollStdin

variable {env : Launcher}

/-- A line that asks for nothing changes nothing outside. -/
theorem session_pollLine {qs : List Request} {st st' : Poll} (h : Session env qs st st')
    {input : Str} (hinput : request input = .other) :
    Session env qs st (pollLine env st' input) := by
  by_cases hread : st'.pollAt = .reading
  · have hturn : Turned env .other st' (pollLine env st' input) := by
      rw [← hinput]
      exact pollLine_turned hread input
    constructor
    · rw [← h.pollAt, hread]
      exact hturn.pollAt
    · rw [← h.scripts, hturn.scripts]
      exact List.append_nil _
    · rw [← h.processes, hturn.processes]
      exact List.append_nil _
    · rw [← h.aborts, hturn.aborts]
      rfl
  · have hline : pollLine env st' input = st' := foldl_pollLine_of_ne hread [input]
    rwa [hline]

/-- An empty text behind the lines asks for nothing, however often it is handled. -/
theorem handled_session (env : Launcher) (complete : List Str) (last : Str) {n : ℕ}
    (hlast : 0 < n → last = []) :
    Session env (complete.map request) {} (handled env complete last n) := by
  induction n with
  | zero =>
      rw [handled, List.replicate_zero, List.append_nil]
      exact foldl_pollLine_session complete rfl
  | succ n ih =>
      have hnil : last = [] := hlast (Nat.succ_pos n)
      rw [handled_succ]
      apply session_pollLine (ih fun _ => hnil)
      rw [hnil]
      rfl

/-- Lines on which commands are typed ask for what these ask for. -/
theorem map_request_of_typed {cs : List Command} {inputs : List Str}
    (htyped : List.Forall₂ Typed cs inputs) (hrange : ∀ c ∈ cs, c.InRange) :
    inputs.map request = cs.map Command.request := by
  induction htyped with
  | nil => rfl
  | cons hc _ ih =>
      rw [List.map_cons, List.map_cons, request_typed hc (hrange _ List.mem_cons_self),
        ih fun c hc => hrange c (List.mem_cons_of_mem _ hc)]

/-- **The lines that have been taken** are the first ones of those that are typed, and behind
the last of them there is nothing at the end of the input. -/
theorem Books.lines {st : PollStdin} {complete inputs : List Str} {last : Str} {n : ℕ}
    (h : Books env st complete last n) (hplain : ∀ l ∈ inputs, '\n' ∉ l)
    (hwritten : st.written <+: Text.unlines '\n' inputs)
    (hclosed : st.closed = true → st.written = Text.unlines '\n' inputs) :
    inputs.take complete.length = complete ∧ (0 < n → last = []) := by
  obtain ⟨rest, hrest⟩ := hwritten
  have htext : Text.unlines '\n' complete ++ (last ++ (st.buffer ++ st.pending) ++ rest)
      = Text.unlines '\n' inputs := by
    rw [← hrest, h.written]
    simp
  obtain ⟨inputs', rfl, hinputs'⟩ := Text.exists_append_of_unlines h.complete_plain hplain htext
  refine ⟨List.take_left, fun hn => ?_⟩
  have heof : st.eof = true := by
    cases heof : st.eof with
    | true => rfl
    | false => exact absurd (h.open_input heof).1 (Nat.ne_of_gt hn)
  obtain ⟨-, -, -, hend, hbuffer, hpending⟩ := h.end_input heof
  have hnone : rest = [] := by
    rw [hclosed hend] at hrest
    exact List.append_right_eq_self.mp hrest
  rw [hbuffer, hpending, hnone, List.append_nil, List.append_nil, List.append_nil] at hinputs'
  cases inputs' with
  | nil => exact hinputs'
  | cons l inputs' =>
      rw [Text.unlines_cons] at hinputs'
      exact absurd (by simp [hinputs']) h.last_plain

end PollStdin

/-- **A session of typed commands.** Commands are typed line by line, with their numbers in
the range of `int` and with any blanks around and between their words, and are written in
whatever pieces; a beginning of these lines has been written, and all of them if the input
has an end. With `given` the commands whose line ends have been taken: each `add` of a
positive number before the first `quit` in `given` has run the script once, with its number
and under a name that no other job has; each such `ladd` has started one process; `abort`
has been called once if there is a `quit`, and otherwise never; and the loop has ended with
it, and without it only where the runtime has stopped. -/
theorem typed_session (env : Launcher) {cs : List Command} {inputs : List Str}
    (htyped : List.Forall₂ Typed cs inputs) (hrange : ∀ c ∈ cs, c.InRange)
    (hplain : ∀ l ∈ inputs, '\n' ∉ l) {st : PollStdin}
    (hreach : Reaches (PollStdin.step env) (fun _ => True) {} st)
    (hwritten : st.written <+: Text.unlines '\n' inputs)
    (hclosed : st.closed = true → st.written = Text.unlines '\n' inputs) :
    ∃ taken, st.written = taken ++ (st.buffer ++ st.pending) ∧
      let given := cs.take (taken.count '\n')
      scripts st.poll.log
        = (((given.takeWhile fun c => c.request ≠ .quit).filterMap fun c =>
            c.request.submitted).zipIdx 1).map (fun p => nodesCommand env p.2 p.1) ∧
      ((scripts st.poll.log).map fun commands => commands[1]?).Nodup ∧
      processes st.poll.log
        = ((given.takeWhile fun c => c.request ≠ .quit).filterMap fun c =>
            c.request.launched).map (addNodes env) ∧
      st.poll.log.count .abort = (if ∃ c ∈ given, c.request = .quit then 1 else 0) ∧
      (st.poll.pollAt = (if ∃ c ∈ given, c.request = .quit then .terminated else .reading) ∨
        st.isRunning = false ∧ st.poll.pollAt = .terminated) := by
  obtain ⟨complete, last, n, h⟩ := PollStdin.exists_books hreach
  obtain ⟨hlines, hlast⟩ := h.lines hplain hwritten hclosed
  refine ⟨Text.unlines '\n' complete ++ last, ?_, ?_⟩
  · rw [h.written, List.append_assoc]
  have hcount : (Text.unlines '\n' complete ++ last).count '\n' = complete.length := by
    rw [List.count_append, Text.count_unlines h.complete_plain,
      List.count_eq_zero.mpr h.last_plain, Nat.add_zero]
  rw [hcount]
  intro given
  have hgiven : List.Forall₂ Typed given complete := by
    rw [← hlines]
    exact List.forall₂_take _ htyped
  have hsession : Session env (given.map Command.request) {}
      (PollStdin.handled env complete last n) := by
    rw [← PollStdin.map_request_of_typed hgiven fun c hc => hrange c (List.mem_of_mem_take hc)]
    exact PollStdin.handled_session env complete last hlast
  have hend := lastRequest_commands given
  -- leaving the loop writes to the console only
  have hlog : scripts st.poll.log = scripts (PollStdin.handled env complete last n).log ∧
      processes st.poll.log = processes (PollStdin.handled env complete last n).log ∧
      st.poll.log.count .abort = (PollStdin.handled env complete last n).log.count .abort := by
    rcases h.poll with hpoll | ⟨-, -, hpoll⟩
    · rw [hpoll]
      exact ⟨rfl, rfl, rfl⟩
    · rw [hpoll]
      refine ⟨?_, ?_, ?_⟩ <;> simp [PollStdin.leave, endPass, Poll.act, scripts, processes]
  have hscripts : scripts st.poll.log
      = (((given.takeWhile fun c => c.request ≠ .quit).filterMap fun c =>
          c.request.submitted).zipIdx 1).map fun p => nodesCommand env p.2 p.1 := by
    rw [hlog.1, hsession.scripts, nodesAsked, takeWhile_commands, List.filterMap_map]
    rfl
  refine ⟨hscripts, ?_, ?_, ?_, ?_⟩
  · rw [hscripts]
    exact nodup_jobNames env _
  · rw [hlog.2.1, hsession.processes, launchesAsked, takeWhile_commands, List.filterMap_map]
    rfl
  · rw [hlog.2.2, hsession.aborts, hend]
    split <;> rfl
  · rcases h.poll with hpoll | ⟨hstopped, -, hpoll⟩
    · left
      rw [hpoll, hsession.pollAt, hend]
      split <;> rfl
    · right
      exact ⟨hstopped, by rw [hpoll, PollStdin.leave_pollAt]⟩

/-- Two jobs, with seven and with five nodes, and an end. -/
def sampleCommands : List Command := [.add false 7, .add true 5, .quit false]

def sampleLines : List Str := ["  add \t7".toList, "a 5\r".toList, "quit".toList]

theorem sampleLines_typed : List.Forall₂ Typed sampleCommands sampleLines := by
  have hadd : Typed (.add false 7) "  add \t7".toList :=
    ⟨"  ".toList, "add".toList ++ (" \t".toList ++ "7".toList), [], by decide, by simp [isSpace],
      by simp, .cons (by decide) (by simp [isBlank]) (.word _)⟩
  have hshort : Typed (.add true 5) "a 5\r".toList :=
    ⟨[], "a".toList ++ (" ".toList ++ "5".toList), "\r".toList, by decide, by simp,
      by simp [isSpace], .cons (by decide) (by simp [isBlank]) (.word _)⟩
  have hquit : Typed (.quit false) "quit".toList :=
    ⟨[], "quit".toList, [], by decide, by simp, by simp, .word _⟩
  exact .cons hadd (.cons hshort (.cons hquit .nil))

/-- They are written in two pieces, neither of which is a line. -/
def sampleTyping : List PollEvent :=
  List.flatten [
    [.write "  add \t7\na".toList, .thread, .read 9], List.replicate 9 .thread,
    [.thread, .read 1, .thread, .write " 5\r\nquit\n".toList, .read 4],
    List.replicate 4 .thread, [.thread, .read 5], List.replicate 5 .thread]

theorem typed_session_sample :
    ∃ st, after (PollStdin.step sampleLauncher) sampleTyping {} = some st ∧
      scripts st.poll.log = [nodesCommand sampleLauncher 1 7, nodesCommand sampleLauncher 2 5] ∧
      st.poll.log.count .abort = 1 := by
  have hrun : (after (PollStdin.step sampleLauncher) sampleTyping {}).map (fun st =>
      (st.written, st.buffer ++ st.pending))
        = some (Text.unlines '\n' sampleLines, []) := by decide
  obtain ⟨st, hst, hval⟩ := Option.map_eq_some_iff.mp hrun
  rw [Prod.mk.injEq] at hval
  obtain ⟨hwritten, htaken⟩ := hval
  obtain ⟨taken, htext, hscripts, -, -, haborts, -⟩ := typed_session sampleLauncher
    sampleLines_typed (by simp [sampleCommands, Command.InRange]) (by simp [sampleLines])
    ⟨sampleTyping, fun e _ => trivial, hst⟩ (hwritten ▸ List.prefix_refl _) fun _ => hwritten
  have hall : sampleCommands.take (taken.count '\n') = sampleCommands := by
    rw [htaken, List.append_nil, hwritten] at htext
    rw [← htext]
    rfl
  rw [hall] at hscripts haborts
  exact ⟨st, hst, hscripts, haborts.trans (if_pos ⟨.quit false, by simp [sampleCommands], rfl⟩)⟩

/-! ## When the next line is reached -/

/-- What happens without anybody else. -/
def PollEvent.Own : PollEvent → Prop
  | .read _ | .thread => True
  | .write _ | .close | .stop => False

namespace PollStdin

section Lines

variable {env : Launcher} {st st' : PollStdin}

/-- `std::getline` is entered, and it returns. -/
def NextLine (st : PollStdin) : Prop :=
  (st.inGetline = true ∨ st.inputAvailable = true) ∧
    ('\n' ∈ st.buffer ++ st.pending ∨ st.closed = true)

/-- How far it is to the end of the line at most. -/
def togo (st : PollStdin) : ℕ :=
  2 * st.pending.length + st.buffer.length + if st.inGetline then 1 else 2

theorem threadStep_getline (hread : st.poll.pollAt = .reading) (hget : st.inGetline = true) :
    step env .thread st = st.getlineStep env := by
  rw [step, threadStep, hread, if_pos hget]

theorem threadStep_loop (hread : st.poll.pollAt = .reading) (hloop : st.inGetline = false) :
    step env .thread st = some (st.loopStep env) := by
  rw [step, threadStep, hread, if_neg (by simp [hloop])]

/-- **One step towards the next line.** -/
theorem NextLine.progress (h : st.NextLine) (hread : st.poll.pollAt = .reading)
    (hrunning : st.isRunning = true) :
    ∃ e st', e.Own ∧ step env e st = some st' ∧
      (st'.poll = st.poll → st'.isRunning = true ∧ st'.NextLine ∧ st'.togo < st.togo) := by
  obtain ⟨henter, hreturn⟩ := h
  cases hget : st.inGetline with
  | false =>
      have havailable : st.inputAvailable = true := henter.resolve_left (by simp [hget])
      refine ⟨.thread, _, trivial, threadStep_loop hread hget, ?_⟩
      rw [loopStep, if_neg (by simp [hrunning]), if_pos havailable]
      split
      · intro hpoll
        exact absurd hpoll (pollLine_ne hread st.line)
      · intro _
        refine ⟨hrunning, ⟨Or.inl rfl, hreturn⟩, ?_⟩
        simp [togo, hget]
  | true =>
      cases hbuffer : st.buffer with
      | cons c cs =>
          rw [hbuffer] at hreturn
          by_cases hc : c = '\n'
          · refine ⟨.thread, { st with buffer := cs }.interpretLine env, trivial, ?_, ?_⟩
            · rw [threadStep_getline hread hget, getlineStep, hbuffer]
              exact if_pos hc
            · intro hpoll
              exact absurd hpoll (pollLine_ne hread st.line)
          · refine ⟨.thread, { st with buffer := cs, line := st.line ++ [c] }, trivial, ?_, ?_⟩
            · rw [threadStep_getline hread hget, getlineStep, hbuffer]
              exact if_neg hc
            · intro _
              refine ⟨hrunning, ⟨Or.inl hget, ?_⟩, ?_⟩
              · simpa [Ne.symm hc] using hreturn
              · simp [togo, hbuffer]
      | nil =>
          rw [hbuffer, List.nil_append] at hreturn
          by_cases hpending : st.pending = []
          · have hclosed : st.closed = true := hreturn.resolve_left (by simp [hpending])
            refine ⟨.thread, { st with eof := true }.interpretLine env, trivial, ?_, ?_⟩
            · rw [threadStep_getline hread hget, getlineStep, hbuffer]
              exact if_pos ⟨hpending, hclosed⟩
            · intro hpoll
              exact absurd hpoll (pollLine_ne hread st.line)
          · have hpos : 0 < st.pending.length := List.length_pos_iff.mpr hpending
            refine ⟨.read st.pending.length, _, trivial,
              if_pos ⟨hget, hbuffer, hpos, Nat.le_refl _⟩, ?_⟩
            intro _
            rw [List.take_length, List.drop_length]
            refine ⟨hrunning, ⟨Or.inl hget, ?_⟩, ?_⟩
            · simpa using hreturn
            · simp only [togo, hbuffer, List.length_nil]
              omega

/-- And so the next line is handled. -/
theorem NextLine.exists_reaches (h : st.NextLine) (hread : st.poll.pollAt = .reading)
    (hrunning : st.isRunning = true) :
    ∃ st', Reaches (step env) PollEvent.Own st st' ∧ st'.poll ≠ st.poll := by
  have hprogress : ∀ s : PollStdin,
      (s.poll = st.poll → s.isRunning = true ∧ s.NextLine) → ¬s.poll ≠ st.poll →
      ∃ e t, e.Own ∧ step env e s = some t ∧
        (t.poll = st.poll → t.isRunning = true ∧ t.NextLine) ∧
        (if t.poll = st.poll then t.togo else 0) < if s.poll = st.poll then s.togo else 0 := by
    intro s hs hgoal
    have hpoll : s.poll = st.poll := not_not.mp hgoal
    obtain ⟨hs, hnext⟩ := hs hpoll
    have hloop : s.poll.pollAt = .reading := by rw [hpoll, hread]
    obtain ⟨e, t, he, hstep, ht⟩ : ∃ e t, e.Own ∧ step env e s = some t ∧
        (t.poll = s.poll → t.isRunning = true ∧ t.NextLine ∧ t.togo < s.togo) :=
      hnext.progress hloop hs
    rw [hpoll] at ht
    refine ⟨e, t, he, hstep, fun hsame => ⟨(ht hsame).1, (ht hsame).2.1⟩, ?_⟩
    rw [if_pos hpoll]
    split
    · rename_i hsame
      exact (ht hsame).2.2
    · unfold togo
      split <;> omega
  obtain ⟨st', hreach, -, hgoal⟩ :=
    exists_reaches_of_measure _ _ _ hprogress fun _ => ⟨hrunning, h⟩
  exact ⟨st', hreach, hgoal⟩

/-- The thread waits for others. -/
structure Stuck (poll : Poll) (st : PollStdin) : Prop where
  poll : st.poll = poll
  isRunning : st.isRunning = true
  eof : st.eof = false
  closed : st.closed = false
  waits : st.inGetline = false ∧ st.pending = [] ∨ '\n' ∉ st.buffer ++ st.pending

/-- In `std::getline` it waits for a line end. -/
theorem Stuck.noLineEnd {poll : Poll} (h : Stuck poll st) (hget : st.inGetline = true) :
    '\n' ∉ st.buffer ++ st.pending := by
  rcases h.waits with ⟨hloop, -⟩ | hplain
  · rw [hget] at hloop
    cases hloop
  · exact hplain

/-- **What the thread does by itself** does not help it. -/
theorem Stuck.step {poll : Poll} (h : Stuck poll st) {e : PollEvent} (he : e.Own)
    (hstep : step env e st = some st') : Stuck poll st' := by
  cases e with
  | write text => cases he
  | close => cases he
  | stop => cases he
  | read k =>
      rw [PollStdin.step] at hstep
      split at hstep
      · rename_i hread
        obtain ⟨hget, hbuffer, -, -⟩ := hread
        cases hstep
        refine ⟨h.poll, h.isRunning, h.eof, h.closed, Or.inr ?_⟩
        have hplain := h.noLineEnd hget
        rw [hbuffer, List.nil_append] at hplain
        simpa using hplain
      · cases hstep
  | thread =>
      obtain ⟨-, hdoes⟩ := does_of_threadStep hstep
      cases hdoes with
      | @take c cs hget hbuffer hc =>
          refine ⟨h.poll, h.isRunning, h.eof, h.closed, Or.inr ?_⟩
          have hplain := h.noLineEnd hget
          rw [hbuffer] at hplain
          exact fun hmem => hplain (List.mem_cons_of_mem c hmem)
      | endLine hget hbuffer => exact absurd (by simp [hbuffer]) (h.noLineEnd hget)
      | endInput hget hbuffer hpending hclosed =>
          rw [h.closed] at hclosed
          cases hclosed
      | leave hloop hstopped =>
          rw [h.isRunning] at hstopped
          cases hstopped
      | again hloop hrunning havailable heof =>
          rw [h.eof] at heof
          cases heof
      | enter hloop hrunning havailable heof =>
          refine ⟨h.poll, h.isRunning, h.eof, h.closed, Or.inr ?_⟩
          rcases h.waits with ⟨-, hpending⟩ | hplain
          · simp [inputAvailable, hpending, h.closed] at havailable
          · exact hplain
      | suspend => exact h

end Lines

end PollStdin

/-- **When the next line is handled.** While the thread is in its loop and the runtime runs,
it handles a further line without any help from others exactly when it is in `std::getline`
or `select` sees something, and a line end or the end of the input is there. So a line that
has been read into the buffer of `std::cin` behind another one waits until something else is
written or the input ends. -/
theorem next_line_iff (env : Launcher) {st : PollStdin}
    (hreach : Reaches (PollStdin.step env) (fun _ => True) {} st)
    (hread : st.poll.pollAt = .reading) (hrunning : st.isRunning = true) :
    (∃ st', Reaches (PollStdin.step env) PollEvent.Own st st' ∧ st'.poll ≠ st.poll) ↔
      (st.inGetline = true ∨ st.inputAvailable = true) ∧
        ('\n' ∈ st.buffer ++ st.pending ∨ st.closed = true) := by
  constructor
  · rintro ⟨st', hrun, hne⟩
    by_contra hnext
    have hclosed : st.closed = false := by
      cases hclosed : st.closed with
      | false => rfl
      | true => exact absurd ⟨Or.inr (by simp [PollStdin.inputAvailable, hclosed]), Or.inr hclosed⟩ hnext
    have heof : st.eof = false := by
      obtain ⟨complete, last, n, h⟩ := PollStdin.exists_books hreach
      cases heof : st.eof with
      | false => rfl
      | true =>
          have hend := (h.end_input heof).2.2.2.1
          rw [hclosed] at hend
          cases hend
    have hwaits : st.inGetline = false ∧ st.pending = [] ∨ '\n' ∉ st.buffer ++ st.pending := by
      rw [not_and_or, not_or, not_or] at hnext
      rcases hnext with ⟨hget, havailable⟩ | ⟨hplain, -⟩
      · left
        refine ⟨by simpa using hget, ?_⟩
        simpa [PollStdin.inputAvailable, hclosed] using havailable
      · exact Or.inr hplain
    have hstuck : PollStdin.Stuck st.poll st' :=
      hrun.invariant (fun e u v he hu huv => hu.step he huv)
        ⟨rfl, hrunning, heof, hclosed, hwaits⟩
    exact hne hstuck.poll
  · intro hnext
    exact PollStdin.NextLine.exists_reaches hnext hread hrunning

/-- Two lines that are written at once, of which the first is handled. -/
def sampleBurst : List PollEvent :=
  .write "add 7\nquit\n".toList :: .thread :: .read 11 :: List.replicate 6 .thread

/-- The `quit` is not reached, before something else is written. -/
theorem next_line_iff_sample :
    ∃ st st', after (PollStdin.step sampleLauncher) sampleBurst {} = some st ∧
      (¬∃ u, Reaches (PollStdin.step sampleLauncher) PollEvent.Own st u ∧ u.poll ≠ st.poll) ∧
      after (PollStdin.step sampleLauncher) (sampleBurst ++ [.write "\n".toList]) {} = some st' ∧
      ∃ u, Reaches (PollStdin.step sampleLauncher) PollEvent.Own st' u ∧ u.poll ≠ st'.poll := by
  have hrun : (after (PollStdin.step sampleLauncher) sampleBurst {}).map (fun st =>
      (st.poll.pollAt, st.isRunning, st.inGetline, st.inputAvailable))
        = some (.reading, true, false, false) := by decide
  have hrun' : (after (PollStdin.step sampleLauncher)
      (sampleBurst ++ [.write "\n".toList]) {}).map (fun st =>
        (st.poll.pollAt, st.isRunning, st.inputAvailable, st.buffer ++ st.pending))
          = some (.reading, true, true, "quit\n\n".toList) := by decide
  obtain ⟨st, hst, hval⟩ := Option.map_eq_some_iff.mp hrun
  obtain ⟨st', hst', hval'⟩ := Option.map_eq_some_iff.mp hrun'
  simp only [Prod.mk.injEq] at hval hval'
  obtain ⟨hread, hrunning, hget, havailable⟩ := hval
  obtain ⟨hread', hrunning', havailable', htext'⟩ := hval'
  refine ⟨st, st', hst, ?_, hst', ?_⟩
  · rw [next_line_iff sampleLauncher ⟨sampleBurst, fun e _ => trivial, hst⟩ hread hrunning]
    simp [hget, havailable]
  · rw [next_line_iff sampleLauncher ⟨_, fun e _ => trivial, hst'⟩ hread' hrunning', htext']
    exact ⟨Or.inr havailable', Or.inl (by simp)⟩

/-! ## An end of the input -/

namespace PollStdin

section Repeats

variable {env : Launcher} {st st' : PollStdin} {N : ℤ}

/-- The end of the input has been met behind a line that asks for `N` nodes. -/
structure Repeating (N : ℤ) (st : PollStdin) : Prop where
  pollAt : st.poll.pollAt = .reading
  isRunning : st.isRunning = true
  inGetline : st.inGetline = false
  eof : st.eof = true
  closed : st.closed = true
  request : request st.line = .submit N

theorem Repeating.inputAvailable (h : Repeating N st) : st.inputAvailable = true := by
  simp [PollStdin.inputAvailable, h.closed]

theorem request_trim (input : Str) : SpinGlass.request (trim isSpace input)
    = SpinGlass.request input := by
  rw [SpinGlass.request, SpinGlass.request, cmdOf, cmdOf, trim_trim]

/-- The thread can go on. -/
theorem Repeating.thread (h : Repeating N st) :
    step env .thread st = some (st.interpretLine env) := by
  rw [threadStep_loop h.pollAt h.inGetline, loopStep, if_neg (by simp [h.isRunning]),
    if_pos h.inputAvailable, if_pos h.eof]

/-- **It asks for the nodes once more**, and nothing else can happen. -/
theorem Repeating.step (h : Repeating N st) {e : PollEvent} (he : e.Own)
    (hstep : step env e st = some st') :
    Repeating N st' ∧ st'.poll.numJobs = st.poll.numJobs + 1 ∧
      scripts st'.poll.log = scripts st.poll.log ++ [nodesCommand env st.poll.numJobs N] := by
  cases e with
  | write text => cases he
  | close => cases he
  | stop => cases he
  | read k =>
      rw [PollStdin.step, if_neg (by simp [h.inGetline])] at hstep
      cases hstep
  | thread =>
      rw [h.thread] at hstep
      cases hstep
      have hturn : Turned env (.submit N) st.poll (pollLine env st.poll st.line) := by
        rw [← h.request]
        exact pollLine_turned h.pollAt st.line
      refine ⟨⟨hturn.pollAt, h.isRunning, rfl, h.eof, h.closed, ?_⟩, hturn.numJobs, hturn.scripts⟩
      exact (request_trim st.line).trans h.request

/-- A run from there. -/
theorem Repeating.run (h : Repeating N st) {es : List PollEvent} (hes : ∀ e ∈ es, e.Own)
    (hrun : after (PollStdin.step env) es st = some st') :
    scripts st'.poll.log = scripts st.poll.log
      ++ (List.range' st.poll.numJobs es.length).map fun j => nodesCommand env j N := by
  induction es generalizing st with
  | nil =>
      cases hrun
      exact (List.append_nil _).symm
  | cons e es ih =>
      rw [after_cons] at hrun
      obtain ⟨s, hs, hrest⟩ := Option.bind_eq_some_iff.mp hrun
      obtain ⟨hrepeat, hjobs, hscripts⟩ := h.step (hes e (by simp)) hs
      rw [ih hrepeat (fun e he => hes e (by simp [he])) hrest, hscripts, hjobs, List.length_cons,
        List.range'_succ, List.map_cons, List.append_assoc]
      rfl

theorem Repeating.exists_run (h : Repeating N st) (m : ℕ) :
    ∃ st', after (PollStdin.step env) (List.replicate m .thread) st = some st' := by
  induction m generalizing st with
  | zero => exact ⟨st, rfl⟩
  | succ m ih =>
      have hnext : Repeating N (st.interpretLine env) := (h.step (e := .thread) trivial h.thread).1
      obtain ⟨st', hst'⟩ := ih hnext
      refine ⟨st', ?_⟩
      rw [List.replicate_succ, after_cons, h.thread]
      exact hst'

end Repeats

end PollStdin

/-- **A last line without an end is run without end.** Once the end of the input has been met
and what stands behind the last line end is an `add` of a positive number: whatever happens
without others, each step runs the script for that number once more, and there is always a
further step. -/
theorem unterminated_add_repeats (env : Launcher) {st : PollStdin}
    (hreach : Reaches (PollStdin.step env) (fun _ => True) {} st)
    (hread : st.poll.pollAt = .reading) (hrunning : st.isRunning = true) (heof : st.eof = true)
    {short : Bool} {N : ℤ} (htyped : Typed (.add short N) (st.written.rtakeWhile (· ≠ '\n')))
    (hrange : -2 ^ 31 ≤ N ∧ N < 2 ^ 31) (hN : 0 < N) :
    (∀ es st', (∀ e ∈ es, PollEvent.Own e) → after (PollStdin.step env) es st = some st' →
      scripts st'.poll.log = scripts st.poll.log
        ++ (List.range' st.poll.numJobs es.length).map fun j => nodesCommand env j N) ∧
    ∀ m, ∃ st', after (PollStdin.step env) (List.replicate m .thread) st = some st' := by
  obtain ⟨complete, last, n, h⟩ := PollStdin.exists_books hreach
  obtain ⟨-, hline, hloop, hclosed, hbuffer, hpending⟩ := h.end_input heof
  have hlast : st.written.rtakeWhile (· ≠ '\n') = last := by
    rw [h.written, hbuffer, hpending, List.append_nil, List.append_nil]
    exact Text.rtakeWhile_unlines_append complete h.last_plain
  have hrequest : request st.line = .submit N := by
    rw [← PollStdin.request_trim, hline, PollStdin.request_trim, ← hlast,
      request_typed htyped hrange]
    exact if_pos hN
  have hrepeat : PollStdin.Repeating N st := ⟨hread, hrunning, hloop, heof, hclosed, hrequest⟩
  exact ⟨fun es st' hes hrun => hrepeat.run hes hrun, hrepeat.exists_run⟩

/-- Behind the line of `poll_stdin_lines_sample`. -/
theorem unterminated_add_repeats_sample :
    ∃ st, after (PollStdin.step sampleLauncher) sampleInput {} = some st ∧
      ∀ m, ∃ st', after (PollStdin.step sampleLauncher) (List.replicate m .thread) st = some st' ∧
        scripts st'.poll.log = scripts st.poll.log
          ++ (List.range' 2 m).map fun j => nodesCommand sampleLauncher j 7 := by
  have hrun : (after (PollStdin.step sampleLauncher) sampleInput {}).map (fun st =>
      (st.poll.pollAt, st.isRunning, st.eof, st.written.rtakeWhile (· ≠ '\n'), st.poll.numJobs))
        = some (.reading, true, true, "add 7".toList, 2) := by decide
  obtain ⟨st, hst, hval⟩ := Option.map_eq_some_iff.mp hrun
  simp only [Prod.mk.injEq] at hval
  obtain ⟨hread, hrunning, heof, hlast, hjobs⟩ := hval
  have htyped : Typed (.add false 7) (st.written.rtakeWhile (· ≠ '\n')) := by
    rw [hlast]
    exact ⟨[], "add".toList ++ (" ".toList ++ "7".toList), [], by decide, by simp, by simp,
      .cons (by decide) (by simp [isBlank]) (.word _)⟩
  obtain ⟨hscripts, hgo⟩ := unterminated_add_repeats sampleLauncher
    ⟨sampleInput, fun e _ => trivial, hst⟩ hread hrunning heof htyped (by decide) (by decide)
  refine ⟨st, hst, fun m => ?_⟩
  obtain ⟨st', hst'⟩ := hgo m
  refine ⟨st', hst', ?_⟩
  have howns : ∀ e ∈ List.replicate m PollEvent.thread, e.Own := by
    intro e he
    rw [List.eq_of_mem_replicate he]
    trivial
  rw [hscripts _ _ howns hst', List.length_replicate, hjobs]

end SpinGlass
