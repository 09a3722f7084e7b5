import VmRatchet.Lib.Run
import VmRatchet.Vz.Driver

/-!
# The harness as a child process

The driver starts the harness as a child and reads its output through a thread, which cuts the bytes
into lines, prints the lines of the protocol, and passes all lines on through a channel. Each wait
takes lines from the channel until one fits, or until the channel is closed and empty, or until its
deadline has passed; the latter two are panics, as are a write to a harness that has gone and
whatever else can fail between two exchanges. On every way out the harness is killed, unless it has
been waited for, and waited for, unless it has been.

The harness may write whatever it likes, and exit at any moment, also in the middle of a line.

* `answers` — what a sequence of waits hears in given lines.
* `rawLines`, `nextLine` — the lines in the bytes of the harness, and how the thread gets at them.
* `Attached`, `Attached.step` — the harness, the reader thread and the driver.
* `Stream` — which bytes have been read, and which lines they were.
-/

namespace VmRatchet.Vz

open Lines Text Transition

/-! ## Several waits -/

/-- What a sequence of waits hears in lines, one after the other, and the lines after those. -/
def answers : List (List Char) → List (List Char) →
    Option (List (List Char) × List (List Char))
  | [], ls => some ([], ls)
  | start :: starts, ls => (wait start ls).bind fun r =>
      (answers starts r.2).map fun q => (r.1 :: q.1, q.2)

section answers

variable {start : List Char} {starts ls more rest : List (List Char)} {text : List Char}
  {texts passed : List (List Char)}

/-- A wait passes over the lines that do not begin with what it waits for. -/
theorem wait_passed (h : ∀ l ∈ passed, l.dropPrefix? start = none) (ls : List (List Char)) :
    wait start (passed ++ ls) = wait start ls := by
  induction passed with
  | nil => rfl
  | cons l passed ih =>
      rw [List.cons_append, wait, h l List.mem_cons_self]
      exact ih fun l' hl' => h l' (List.mem_cons_of_mem _ hl')

/-- What has been heard does not depend on later lines. -/
theorem wait_append (h : wait start ls = some (text, rest)) (more : List (List Char)) :
    wait start (ls ++ more) = some (text, rest ++ more) := by
  induction ls with
  | nil => cases h
  | cons l ls ih =>
      rw [List.cons_append, wait]
      rw [wait] at h
      cases hl : l.dropPrefix? start with
      | some tail =>
          rw [hl] at h
          simp only [Option.some.injEq, Prod.mk.injEq] at h
          obtain ⟨rfl, rfl⟩ := h
          rfl
      | none =>
          rw [hl] at h
          exact ih h

/-- Waits that were answered are answered the same when more lines come. -/
theorem answers_append (h : answers starts ls = some (texts, rest)) (more : List (List Char)) :
    answers starts (ls ++ more) = some (texts, rest ++ more) := by
  induction starts generalizing ls texts with
  | nil =>
      simp only [answers, Option.some.injEq, Prod.mk.injEq] at h
      obtain ⟨rfl, rfl⟩ := h
      rfl
  | cons start starts ih =>
      simp only [answers, Option.bind_eq_some_iff, Option.map_eq_some_iff] at h
      obtain ⟨⟨text, later⟩, hwait, ⟨texts', rest'⟩, hrest, heq⟩ := h
      obtain ⟨rfl, rfl⟩ := Prod.mk.inj heq
      simp only [answers, wait_append hwait more, Option.bind_some, ih hrest, Option.map_some]

/-- One more wait after some that were answered goes on where they stopped. -/
theorem answers_snoc (h : answers starts ls = some (texts, rest)) (start : List Char) :
    answers (starts ++ [start]) ls =
      (wait start rest).map fun r => (texts ++ [r.1], r.2) := by
  induction starts generalizing ls texts with
  | nil =>
      simp only [answers, Option.some.injEq, Prod.mk.injEq] at h
      obtain ⟨rfl, rfl⟩ := h
      cases hwait : wait start ls <;> simp [answers, hwait]
  | cons first starts ih =>
      simp only [answers, Option.bind_eq_some_iff, Option.map_eq_some_iff] at h
      obtain ⟨⟨text, later⟩, hwait, ⟨texts', rest'⟩, hrest, heq⟩ := h
      obtain ⟨rfl, rfl⟩ := Prod.mk.inj heq
      simp only [List.cons_append, answers, hwait, Option.bind_some, ih hrest, Option.map_map]
      rfl

end answers

/-! ## The lines of the harness -/

/-- The lines in bytes, newlines included. At the end of the file what is left over is handed out,
too, as if it ended in a newline.
Source: `crates/vz-ratchet/src/harness.rs`, `Harness::spawn` (`BufReader::new(stdout).lines()`) -/
def rawLines (bytes : List UInt8) (eof : Bool) : List (List UInt8) :=
  complete isNewlineByte [] bytes ++
    if eof = true ∧ pending isNewlineByte [] bytes ≠ [] then
      [pending isNewlineByte [] bytes ++ [10]]
    else []

/-- The next line in bytes, and the bytes after it. -/
def nextLine (bytes : List UInt8) (eof : Bool) : Option (List UInt8 × List UInt8) :=
  match bytes.dropWhile fun b => !isNewlineByte b with
  | newline :: later => some ((bytes.takeWhile fun b => !isNewlineByte b) ++ [newline], later)
  | [] => if eof = true ∧ bytes ≠ [] then some (bytes ++ [10], []) else none

section lines

variable {bytes later : List UInt8} {line : List UInt8} {eof : Bool}

/-- Where no byte is left there are no lines. -/
theorem rawLines_nil (eof : Bool) : rawLines [] eof = [] := by simp [rawLines, complete, pending]

/-- Bytes that are there either have a first newline, and then the next line is all up to and with
it; or they have none, and then they are a line only once the output has ended. -/
theorem split_first (bytes : List UInt8) :
    (∃ body newline later, bytes = body ++ newline :: later ∧ (∀ b ∈ body, isNewlineByte b = false)
        ∧ isNewlineByte newline = true ∧
        ∀ eof, nextLine bytes eof = some (body ++ [newline], later)) ∨
      (∀ b ∈ bytes, isNewlineByte b = false) ∧
        ∀ eof, nextLine bytes eof =
          if eof = true ∧ bytes ≠ [] then some (bytes ++ [10], []) else none := by
  have hsplit := bytes.takeWhile_append_dropWhile (p := fun b => !isNewlineByte b)
  have hbody : ∀ b ∈ bytes.takeWhile fun b => !isNewlineByte b, isNewlineByte b = false := by
    intro b hb
    simpa using List.mem_takeWhile_imp hb
  cases hdrop : bytes.dropWhile fun b => !isNewlineByte b with
  | nil =>
      rw [hdrop, List.append_nil] at hsplit
      refine .inr ⟨hsplit ▸ hbody, fun eof => ?_⟩
      rw [nextLine, hdrop]
  | cons newline later =>
      rw [hdrop] at hsplit
      refine .inl ⟨_, newline, later, hsplit.symm, hbody, ?_, fun eof => by rw [nextLine, hdrop]⟩
      have hhead := List.head?_dropWhile_not (fun b => !isNewlineByte b) bytes
      rw [hdrop] at hhead
      simpa using hhead

/-- A line that is taken off the bytes is the first of their lines. -/
theorem rawLines_of_nextLine (h : nextLine bytes eof = some (line, later)) :
    rawLines bytes eof = line :: rawLines later eof ∧
      (eof = false → pending isNewlineByte [] bytes = pending isNewlineByte [] later) := by
  rcases split_first bytes with
    ⟨body, newline, later', rfl, hbody, hnewline, hnext⟩ | ⟨hbody, hnext⟩
  · rw [hnext] at h
    simp only [Option.some.injEq, Prod.mk.injEq] at h
    obtain ⟨rfl, rfl⟩ := h
    obtain ⟨hc, hp⟩ := complete_pending_of_line hbody hnewline []
    have hall : body ++ newline :: later' = (body ++ [newline]) ++ later' := by simp
    have hcomplete : complete isNewlineByte [] (body ++ newline :: later') =
        (body ++ [newline]) :: complete isNewlineByte [] later' := by
      rw [hall, complete_append, hc, hp]
      rfl
    have hpending : pending isNewlineByte [] (body ++ newline :: later') =
        pending isNewlineByte [] later' := by
      rw [hall, pending_append, hp]
    exact ⟨by rw [rawLines, rawLines, hcomplete, hpending, List.cons_append], fun _ => hpending⟩
  · rw [hnext] at h
    split_ifs at h with heof
    simp only [Option.some.injEq, Prod.mk.injEq] at h
    obtain ⟨rfl, rfl⟩ := h
    obtain ⟨hc, hp⟩ := complete_pending_of_forall hbody []
    refine ⟨?_, fun hf => absurd heof.1 (by simp [hf])⟩
    rw [rawLines, hc, hp, List.nil_append, List.nil_append, if_pos heof, rawLines_nil]

/-- Where no line can be taken off, there is none; and at the end of the file there is nothing. -/
theorem rawLines_of_nextLine_none (h : nextLine bytes eof = none) :
    rawLines bytes eof = [] ∧ (eof = true → bytes = []) := by
  rcases split_first bytes with ⟨body, newline, later', rfl, -, -, hnext⟩ | ⟨hbody, hnext⟩
  · rw [hnext] at h
    cases h
  · rw [hnext] at h
    split_ifs at h with heof
    obtain ⟨hc, hp⟩ := complete_pending_of_forall hbody []
    refine ⟨?_, fun htrue => ?_⟩
    · rw [rawLines, hc, hp, List.nil_append, List.nil_append, if_neg heof]
    · by_contra hne
      exact heof ⟨htrue, hne⟩

/-- Lines that are all text are read one by one: a line that is not text would end the reading. -/
theorem readLines_append {ls ls' : List (List UInt8)} (h : ∀ l ∈ ls, (decode l).isSome) :
    readLines (ls ++ ls') = readLines ls ++ readLines ls' := by
  induction ls with
  | nil => rfl
  | cons l ls ih =>
      obtain ⟨text, htext⟩ := Option.isSome_iff_exists.mp (h l List.mem_cons_self)
      simp only [List.cons_append, readLines, htext,
        ih fun l' hl' => h l' (List.mem_cons_of_mem _ hl')]

/-- Behind a line that is not text nothing more is read. -/
theorem readLines_append_of_bad {ls : List (List UInt8)} (h : ∃ l ∈ ls, decode l = none)
    (ls' : List (List UInt8)) : readLines (ls ++ ls') = readLines ls := by
  induction ls with
  | nil =>
      obtain ⟨l, hl, -⟩ := h
      cases hl
  | cons l ls ih =>
      cases hl : decode l with
      | none => simp only [List.cons_append, readLines, hl]
      | some text =>
          obtain ⟨l', hmem, hbad⟩ := h
          rcases List.mem_cons.mp hmem with rfl | hmem
          · rw [hbad] at hl
            cases hl
          · simp only [List.cons_append, readLines, hl, ih ⟨l', hmem, hbad⟩]

end lines

/-! ## The three of them -/

/-- What the driver does next: it sends a command, waits for a line, or does something else that may
fail. -/
inductive Duty
  /-- Sends a command. -/
  | send (command : List Char)
  /-- Waits for a line that starts like this. -/
  | wait (start : List Char)
  /-- Something that has nothing to do with the harness, and may fail: a reading of the helper, a
  number that cannot be parsed, an assertion. -/
  | other

/-- The beginnings of the lines that the driver waits for, in order. -/
def starts (duties : List Duty) : List (List Char) :=
  duties.filterMap fun | .wait start => some start | .send _ | .other => none

/-- The duties of an exchange: send the command, wait for the answer, and use it. -/
def Ask.duties (a : Ask) : List Duty := [.send a.send, .wait a.expect, .other]

/-- What the driver does after it has started the harness.
Source: `crates/vz-ratchet/src/main.rs`, `main`; `fleet.rs`, `run` -/
def driverDuties (script : List Ask) : List Duty :=
  [.wait (chars "HARNESS started"), .wait (chars "RATCHET READY"), .other] ++
    script.flatMap Ask.duties

/-- Why the driver panics: the harness has gone, or what it waits for did not come in time or at
all. -/
inductive Cause
  | brokenPipe
  | timedOut (start : List Char)
  | exited (start : List Char)
  | other

/-- How far the driver has come: at work, at its ordered end, or on one of its ways out. -/
inductive Stage
  | working
  /-- Has sent `quit` and waits for the harness. -/
  | quitting
  /-- About to kill the harness, because it is done or because it panics. -/
  | dropping (why : Option Cause)
  /-- About to wait for the harness. -/
  | reaping (why : Option Cause)
  | ended (why : Option Cause)

/-- The driver has ended. -/
def Stage.Ended : Stage → Prop
  | .ended _ => True
  | .working | .quitting | .dropping _ | .reaping _ => False

/-- The harness, in the eyes of the system: running, dead and not waited for, or reaped. -/
inductive Proc
  | running
  /-- Nobody has waited for it. -/
  | exited
  | reaped
deriving DecidableEq

/-- The reader thread: it reads a line, passes it on, and ends with the output. -/
inductive Reader
  | reading
  /-- About to pass a line on. -/
  | sending (line : List Char)
  /-- Has met the end of the output, or a line that is not text. -/
  | finished
  /-- Has found the channel without a receiver. -/
  | abandoned
deriving DecidableEq

/-- The harness, the reader thread and the driver, with what is between them: the pipe and the
channel. -/
structure Attached where
  /-- Everything the harness has written. -/
  written : List UInt8
  /-- The bytes that have not been read. -/
  pipe : List UInt8
  proc : Proc
  reader : Reader
  /-- The lines the reader thread has printed. -/
  printed : List (List Char)
  /-- The channel. -/
  queue : List (List Char)
  stage : Stage
  /-- What is left to do, what is being done included. -/
  todo : List Duty
  /-- What the waits have returned. -/
  heard : List (List Char)

/-- The harness has been started: nothing is written, and the driver has all its duties before
it. -/
def Attached.init (duties : List Duty) : Attached :=
  ⟨[], [], .running, .reading, [], [], .working, duties, []⟩

/-- What can happen: a move of the harness, of the reader thread or of the driver. -/
inductive Action
  /-- The harness writes. -/
  | write (bytes : List UInt8)
  /-- The harness exits, because it was told to or by itself. -/
  | exit
  | reader
  | driver
  /-- The deadline of the wait has passed. -/
  | timeout
  /-- What the driver is doing fails. -/
  | fail

/-- The lines that are printed.
Source: `crates/vz-ratchet/src/harness.rs`, `Harness::spawn` -/
def shownLine (verbose : Bool) (line : List Char) : Bool :=
  verbose || (chars "RATCHET ").isPrefixOf line || (chars "HARNESS ").isPrefixOf line

namespace Attached

variable (verbose : Bool) (σ : Attached)

/-- The harness writes no more. -/
def eof : Bool := σ.proc != .running

/-- The reader thread moves.
Source: `crates/vz-ratchet/src/harness.rs`, `Harness::spawn` -/
def stepReader : Option Attached :=
  match σ.reader with
  | .reading =>
    match nextLine σ.pipe σ.eof with
    | some (bytes, later) =>
      match decode bytes with
      | some text =>
        let line := readerLine text.dropLast
        some { σ with
          pipe := later
          reader := .sending line
          printed := if shownLine verbose line then σ.printed ++ [line] else σ.printed }
      | none => some { σ with pipe := later, reader := .finished }
    | none => if σ.eof then some { σ with reader := .finished } else none
  | .sending line =>
    match σ.stage with
    | .ended _ => some { σ with reader := .abandoned }
    | .working | .quitting | .dropping _ | .reaping _ =>
      some { σ with reader := .reading, queue := σ.queue ++ [line] }
  | .finished | .abandoned => none

/-- The driver does what it has to do.
Source: `crates/vz-ratchet/src/harness.rs`, `send`, `wait`, `quit` -/
def stepWork : Option Attached :=
  match σ.todo with
  | .send _ :: todo =>
    if σ.eof then some { σ with stage := .dropping (some .brokenPipe) }
    else some { σ with todo := todo }
  | .wait start :: todo =>
    match σ.queue with
    | line :: queue =>
      match line.dropPrefix? start with
      | some rest => some { σ with queue := queue, todo := todo, heard := σ.heard ++ [trim rest] }
      | none => some { σ with queue := queue }
    | [] =>
      if σ.reader = .finished then some { σ with stage := .dropping (some (.exited start)) }
      else none
  | .other :: todo => some { σ with todo := todo }
  | [] =>
    if σ.eof then some { σ with stage := .dropping (some .brokenPipe) }
    else some { σ with stage := .quitting }

/-- The driver moves. A harness that has been waited for is neither killed nor waited for again:
`Child` remembers its status.
Source: `crates/vz-ratchet/src/harness.rs`, `quit`, `Harness::drop` -/
def stepDriver : Option Attached :=
  match σ.stage with
  | .working => σ.stepWork
  | .quitting =>
    match σ.proc with
    | .running => none
    | .exited | .reaped => some { σ with proc := .reaped, stage := .dropping none }
  | .dropping why =>
    match σ.proc with
    | .running | .exited => some { σ with proc := .exited, stage := .reaping why }
    | .reaped => some { σ with stage := .reaping why }
  | .reaping why =>
    match σ.proc with
    | .running => none
    | .exited | .reaped => some { σ with proc := .reaped, stage := .ended why }
  | .ended _ => none

/-- One move, or `none` where it does not fit the state. -/
def step : Action → Option Attached
  | .write bytes =>
    match σ.proc with
    | .running => some { σ with written := σ.written ++ bytes, pipe := σ.pipe ++ bytes }
    | .exited | .reaped => none
  | .exit =>
    match σ.proc with
    | .running => some { σ with proc := .exited }
    | .exited | .reaped => none
  | .reader => σ.stepReader verbose
  | .driver => σ.stepDriver
  | .timeout =>
    match σ.stage, σ.todo with
    | .working, .wait start :: _ => some { σ with stage := .dropping (some (.timedOut start)) }
    | _, _ => none
  | .fail =>
    match σ.stage, σ.todo with
    | .working, .other :: _ => some { σ with stage := .dropping (some .other) }
    | _, _ => none

/-- The lines that the harness has written so far, as the reader thread reads them. -/
def output : List (List Char) := readLines (rawLines σ.written σ.eof)

/-- The line in the hand of the reader thread. -/
def held : List (List Char) :=
  match σ.reader with
  | .sending line => [line]
  | .reading | .finished | .abandoned => []

/-- The lines that the driver has not taken, as far as they have been written. -/
def ahead : List (List Char) :=
  σ.queue ++ σ.held ++ if σ.reader = .finished then [] else readLines (rawLines σ.pipe σ.eof)

end Attached

/-! ## What each move does -/

section equations

variable {verbose : Bool} {σ : Attached}

/-- The reader thread that reads a line of text shows it, if it is to be shown, and holds it for the
channel. -/
theorem stepReader_text (hreader : σ.reader = .reading) {bytes later : List UInt8}
    {text : List Char} (hnext : nextLine σ.pipe σ.eof = some (bytes, later))
    (htext : decode bytes = some text) : σ.stepReader verbose = some { σ with
      pipe := later
      reader := .sending (readerLine text.dropLast)
      printed := if shownLine verbose (readerLine text.dropLast) then
        σ.printed ++ [readerLine text.dropLast] else σ.printed } := by
  unfold Attached.stepReader
  simp only [hreader, hnext, htext]

/-- The reader thread that meets a line that is not text ends. -/
theorem stepReader_bad (hreader : σ.reader = .reading) {bytes later : List UInt8}
    (hnext : nextLine σ.pipe σ.eof = some (bytes, later)) (hbad : decode bytes = none) :
    σ.stepReader verbose = some { σ with pipe := later, reader := .finished } := by
  unfold Attached.stepReader
  simp only [hreader, hnext, hbad]

/-- The reader thread that finds no line ends, if the output has ended; else it has to wait. -/
theorem stepReader_end (hreader : σ.reader = .reading) (hnext : nextLine σ.pipe σ.eof = none) :
    σ.stepReader verbose = if σ.eof then some { σ with reader := .finished } else none := by
  unfold Attached.stepReader
  simp only [hreader, hnext]

/-- The reader thread passes the line it holds on through the channel, as long as the driver has not
ended. -/
theorem stepReader_sending {line : List Char} (hreader : σ.reader = .sending line)
    (hstage : ¬ σ.stage.Ended) : σ.stepReader verbose =
      some { σ with reader := .reading, queue := σ.queue ++ [line] } := by
  unfold Attached.stepReader
  simp only [hreader]
  cases hs : σ.stage with
  | ended why => exact absurd (hs ▸ trivial) hstage
  | working | quitting | dropping _ | reaping _ => rfl

/-- The reader thread that finds the channel without a receiver gives up. -/
theorem stepReader_abandoned {line : List Char} (hreader : σ.reader = .sending line)
    (hstage : σ.stage.Ended) : σ.stepReader verbose = some { σ with reader := .abandoned } := by
  unfold Attached.stepReader
  simp only [hreader]
  cases hs : σ.stage with
  | ended why => rfl
  | working | quitting | dropping _ | reaping _ =>
      rw [hs] at hstage
      exact hstage.elim

variable {start command line rest : List Char} {todo : List Duty} {queue : List (List Char)}

/-- The driver sends a command; if the harness has exited, the write fails and the driver panics. -/
theorem stepWork_send (htodo : σ.todo = .send command :: todo) : σ.stepWork =
    if σ.eof then some { σ with stage := .dropping (some .brokenPipe) }
    else some { σ with todo := todo } := by
  unfold Attached.stepWork
  simp only [htodo]

/-- The driver takes the line it waits for from the channel, and hears what follows the awaited
words. -/
theorem stepWork_answer (htodo : σ.todo = .wait start :: todo) (hqueue : σ.queue = line :: queue)
    (hline : line.dropPrefix? start = some rest) : σ.stepWork =
      some { σ with queue := queue, todo := todo, heard := σ.heard ++ [trim rest] } := by
  unfold Attached.stepWork
  simp only [htodo, hqueue, hline]

/-- The driver takes another line from the channel and goes on waiting. -/
theorem stepWork_pass (htodo : σ.todo = .wait start :: todo) (hqueue : σ.queue = line :: queue)
    (hline : line.dropPrefix? start = none) : σ.stepWork = some { σ with queue := queue } := by
  unfold Attached.stepWork
  simp only [htodo, hqueue, hline]

/-- The driver that finds the channel empty panics, if the reader thread has ended; else it has to
wait. -/
theorem stepWork_empty (htodo : σ.todo = .wait start :: todo) (hqueue : σ.queue = []) :
    σ.stepWork = if σ.reader = .finished then
      some { σ with stage := .dropping (some (.exited start)) } else none := by
  unfold Attached.stepWork
  simp only [htodo, hqueue]

/-- The driver does something else than to talk to the harness. -/
theorem stepWork_other (htodo : σ.todo = .other :: todo) :
    σ.stepWork = some { σ with todo := todo } := by
  unfold Attached.stepWork
  simp only [htodo]

/-- The driver that is through tells the harness to quit; if the harness has exited, the write fails
and the driver panics. -/
theorem stepWork_quit (htodo : σ.todo = []) : σ.stepWork =
    if σ.eof then some { σ with stage := .dropping (some .brokenPipe) }
    else some { σ with stage := .quitting } := by
  unfold Attached.stepWork
  simp only [htodo]

end equations

/-! ## The bytes -/

/-- The bytes that were read make up these lines, and the lines in the others follow. -/
structure Stream (read : List (List UInt8)) (written pipe : List UInt8) (eof : Bool) : Prop where
  lines : rawLines written eof = read ++ rawLines pipe eof
  rest : eof = false → pending isNewlineByte [] written = pending isNewlineByte [] pipe

/-- Nothing more is read: a line was not text, or there is nothing left. -/
def Over (read : List (List UInt8)) (pipe : List UInt8) (eof : Bool) : Prop :=
  (∃ l ∈ read, decode l = none) ∨ eof = true ∧ pipe = []

section stream

variable {read : List (List UInt8)} {written pipe later line : List UInt8} {eof : Bool}

/-- While the harness runs, its lines are the complete ones. -/
theorem rawLines_false (bytes : List UInt8) :
    rawLines bytes false = complete isNewlineByte [] bytes := by simp [rawLines]

/-- When the harness writes, its bytes come into the pipe behind those that are there. -/
theorem Stream.write (h : Stream read written pipe false) (bytes : List UInt8) :
    Stream read (written ++ bytes) (pipe ++ bytes) false := by
  have hlines := h.lines
  rw [rawLines_false, rawLines_false] at hlines
  constructor
  · rw [rawLines_false, rawLines_false, complete_append, complete_append, hlines, h.rest rfl,
      List.append_assoc]
  · intro _
    rw [pending_append, pending_append, h.rest rfl]

/-- When the harness exits, the pipe keeps what is in it and ends there. -/
theorem Stream.close (h : Stream read written pipe eof) : Stream read written pipe true := by
  cases eof with
  | true => exact h
  | false =>
      have hlines := h.lines
      rw [rawLines_false, rawLines_false] at hlines
      refine ⟨?_, fun hf => by cases hf⟩
      rw [rawLines, rawLines, hlines, h.rest rfl, List.append_assoc]

/-- When a line is read, it leaves the pipe and stands behind the lines read before. -/
theorem Stream.next (h : Stream read written pipe eof)
    (hnext : nextLine pipe eof = some (line, later)) :
    Stream (read ++ [line]) written later eof := by
  obtain ⟨hlines, hrest⟩ := rawLines_of_nextLine hnext
  refine ⟨?_, fun hf => (h.rest hf).trans (hrest hf)⟩
  rw [h.lines, hlines, List.append_assoc, List.singleton_append]

/-- Once nothing more is read, the lines are those that were read. -/
theorem Stream.readLines_of_over (h : Stream read written pipe eof) (hover : Over read pipe eof) :
    readLines (rawLines written eof) = readLines read := by
  rw [h.lines]
  rcases hover with hbad | ⟨rfl, rfl⟩
  · exact readLines_append_of_bad hbad _
  · rw [rawLines_nil, List.append_nil]

/-- The harness may go on writing behind a line that is not text. -/
theorem Over.write (h : Over read pipe false) (bytes : List UInt8) :
    Over read (pipe ++ bytes) false := by
  rcases h with hbad | ⟨hf, -⟩
  · exact .inl hbad
  · cases hf

/-- Where nothing is left to read before the end, an exit brings nothing back. -/
theorem Over.close (h : Over read pipe eof) : Over read pipe true := by
  rcases h with hbad | ⟨-, rfl⟩
  · exact .inl hbad
  · exact .inr ⟨rfl, rfl⟩

end stream

end VmRatchet.Vz
