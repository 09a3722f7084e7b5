import VmRatchet.Lib.Run
import VmRatchet.Lib.Text

/-!
# The command server of the guest

The main loop of `guest-init`, PID 1 of the guest: it reads a line from the console, acts on it and
writes one reply line. A turn of the loop is a function of the server's two lists, of the line and
of what the kernel answers during the turn; it returns the new lists, what was asked of the
kernel, in order, and what was written to the console, or a panic.

* `readCommand`, `exec`, `serve` — the turn: which branch a line selects, what the branch does,
  and the reply line around it.
* `Os.Obliging` — a kernel that grants every request it can grant.
* `exec_touch_isOk`, `exec_fleetStart`, `exec_mem` — the branches that ask the kernel, for such a
  kernel.
-/

namespace VmRatchet.GuestInit

open Text

/-! ## State, kernel and events -/

/-- An anonymous mapping: its address and its length.
Source: `guest-init/src/main.rs`, the elements of `held` -/
structure Mapping where
  /-- The address `mmap` returned. -/
  ptr : ℕ
  /-- The length that was asked for. -/
  size : ℕ
deriving DecidableEq, Repr

/-- What the server keeps between two lines.
Source: `guest-init/src/main.rs`, `main` (`held`, `fleet`) -/
structure Server where
  /-- The mappings that `touch` made and `free` has not undone. -/
  held : List Mapping
  /-- The children that were forked and not stopped, oldest first. -/
  fleet : List ℕ
deriving DecidableEq, Repr

/-- The server when the loop starts: nothing held, and no service running. -/
def Server.init : Server := ⟨[], []⟩

/-- What the kernel answers during one turn. A turn maps at most once, reads `/proc/meminfo` at
most once, and forks in sequence. -/
structure Os where
  /-- The address of a fresh mapping of the given length; `none` is `MAP_FAILED`. -/
  mmap : ℕ → Option ℕ
  /-- The result of the turn's `i`-th `fork` in the parent; `none` is `-1`. -/
  fork : ℕ → Option ℕ
  /-- The text of `/proc/meminfo`. -/
  meminfo : List Char

/-- What a turn asks of the kernel, and the memory it dirties. -/
inductive Event
  /-- A mapping was made. -/
  | mmap (m : Mapping)
  /-- One byte in every `STRIDE` of the mapping was written. -/
  | dirty (m : Mapping)
  /-- `munmap` of a mapping. -/
  | munmap (m : Mapping)
  /-- A child was forked that runs `fleet_child(mib)`. -/
  | fork (pid mib : ℕ)
  /-- `kill(pid, SIGKILL)`. -/
  | kill (pid : ℕ)
  /-- `waitpid(pid)`. -/
  | waitpid (pid : ℕ)
deriving DecidableEq, Repr

/-- The ways in which a turn can panic, with the texts of the panics. -/
inductive Panic
  /-- `guest mmap({gib} GiB) failed` -/
  | mmapFailed (gib : ℕ)
  /-- `MemAvailable not in /proc/meminfo` -/
  | memAvailableMissing
  /-- `parse MemAvailable` -/
  | memAvailableUnparsed
  /-- `fork: {}` -/
  | forkFailed
  /-- `range end index {stop} out of range for slice of length {len}` -/
  | drainOutOfRange (stop len : ℕ)
deriving DecidableEq, Repr

/-- What a branch of the loop body leaves behind. -/
structure Outcome where
  /-- The lists afterwards. -/
  server : Server
  /-- What was asked of the kernel. -/
  events : List Event
  /-- The reply, without the protocol prefix. -/
  reply : List Char
deriving DecidableEq, Repr

/-! ## The branches -/

/-- The commands the loop body distinguishes, with the text that follows the command word. -/
inductive Command
  | touch (n : List Char)
  | free
  | mem
  | fleetStart (rest : List Char)
  | fleetStopOne
  | fleetStop
  | unknown (line : List Char)
deriving DecidableEq, Repr

/-- The branch a trimmed line selects.
Source: `guest-init/src/main.rs`, `main` (the `if`/`else` chain) -/
def readCommand (line : List Char) : Command :=
  match line.dropPrefix? (chars "touch ") with
  | some n => .touch n
  | none =>
    if line = chars "free" then .free
    else if line = chars "mem" then .mem
    else
      match line.dropPrefix? (chars "fleet start ") with
      | some rest => .fleetStart rest
      | none =>
        if line = chars "fleet stop-one" then .fleetStopOne
        else if line = chars "fleet stop" then .fleetStop
        else .unknown line

/-- One GiB.
Source: `guest-init/src/main.rs`, `GIB` -/
def gibBytes : ℕ := 2 ^ 30

/-- The number after `touch `; a text that is not a number counts as 0.
Source: `guest-init/src/main.rs`, `main` (`gib`) -/
def touchGib (n : List Char) : ℕ := (parse 64 (trim n)).getD 0

/-- The length that `touch` maps: the product wraps in a release build.
Source: `guest-init/src/main.rs`, `main` (`size`) -/
def touchSize (n : List Char) : ℕ := touchGib n * gibBytes % 2 ^ 64

/-- The number in front of an iterator over words; a missing word and a word that is not a number
count as 0.
Source: `guest-init/src/main.rs`, `main` (`it.next().and_then(..).unwrap_or(0)`) -/
def nextNumber : List (List Char) → ℕ
  | [] => 0
  | word :: _ => (parse 64 word).getD 0

/-- The number of children `fleet start` forks.
Source: `guest-init/src/main.rs`, `main` (`k`) -/
def startCount (rest : List Char) : ℕ := nextNumber (splitWhitespace rest)

/-- The working set each of them is told to dirty, in MiB.
Source: `guest-init/src/main.rs`, `main` (`mib`) -/
def startMib (rest : List Char) : ℕ := nextNumber (splitWhitespace rest).tail

/-- `MemAvailable` out of `/proc/meminfo`.
Source: `guest-init/src/main.rs`, `mem_available_kib` -/
def memAvailableKib (meminfo : List Char) : Except Panic ℕ :=
  match (lines meminfo).findSome? (·.dropPrefix? (chars "MemAvailable:")) with
  | none => .error .memAvailableMissing
  | some rest =>
    match parse 64 (trim (trimEndMatches (chars "kB") (trim rest))) with
    | none => .error .memAvailableUnparsed
    | some kib => .ok kib

/-- The number read from `/proc/meminfo` fits 64 bits, because `parse` refuses every other. -/
theorem memAvailableKib_lt {meminfo : List Char} {kib : ℕ} (h : memAvailableKib meminfo = .ok kib) :
    kib < 2 ^ 64 := by
  rw [memAvailableKib] at h
  split at h
  · cases h
  · split at h
    · cases h
    · rename_i kib' hparse
      cases h
      exact parse_lt hparse

/-- The branch `touch N`.
Source: `guest-init/src/main.rs`, `main` -/
def touch (os : Os) (s : Server) (n : List Char) : Except Panic Outcome :=
  match os.mmap (touchSize n) with
  | none => .error (.mmapFailed (touchGib n))
  | some ptr =>
    let m : Mapping := ⟨ptr, touchSize n⟩
    .ok ⟨{ s with held := s.held ++ [m] }, [.mmap m, .dirty m],
      chars "TOUCHED " ++ decimal (touchGib n)⟩

/-- The branch `free`.
Source: `guest-init/src/main.rs`, `main` -/
def free (s : Server) : Outcome :=
  ⟨{ s with held := [] }, s.held.map .munmap, chars "FREED"⟩

/-- The branch `mem`.
Source: `guest-init/src/main.rs`, `main` -/
def mem (os : Os) (s : Server) : Except Panic Outcome :=
  (memAvailableKib os.meminfo).map fun kib => ⟨s, [], chars "MEM " ++ decimal kib⟩

/-- The branch `fleet start K M`: fork until a `fork` fails.
Source: `guest-init/src/main.rs`, `main` -/
def fleetStart (os : Os) (s : Server) (rest : List Char) : Except Panic Outcome :=
  match (List.range (startCount rest)).mapM os.fork with
  | none => .error .forkFailed
  | some pids =>
    .ok ⟨{ s with fleet := s.fleet ++ pids }, pids.map (.fork · (startMib rest)),
      chars "FLEET-STARTED " ++ decimal (s.fleet ++ pids).length⟩

/-- The branches `fleet stop-one` and `fleet stop`: drain the first `stop` children. The bound is
checked before the first child is touched.
Source: `guest-init/src/main.rs`, `main` -/
def fleetDrain (s : Server) (stop : ℕ) : Except Panic Outcome :=
  if stop ≤ s.fleet.length then
    .ok ⟨{ s with fleet := s.fleet.drop stop },
      (s.fleet.take stop).flatMap fun pid => [.kill pid, .waitpid pid],
      chars "FLEET-STOPPED " ++ decimal (s.fleet.drop stop).length⟩
  else .error (.drainOutOfRange stop s.fleet.length)

/-- What the selected branch does. -/
def exec (os : Os) (s : Server) : Command → Except Panic Outcome
  | .touch n => touch os s n
  | .free => .ok (free s)
  | .mem => mem os s
  | .fleetStart rest => fleetStart os s rest
  | .fleetStopOne => fleetDrain s 1
  | .fleetStop => fleetDrain s s.fleet.length
  | .unknown line => .ok ⟨s, [], chars "ERR unknown command: " ++ line⟩

section Branches

variable {os : Os} {s : Server} {o : Outcome}

/-- `touch` gets through exactly if the mapping is granted. -/
theorem touch_eq_ok {n : List Char} : touch os s n = .ok o ↔
    ∃ ptr, os.mmap (touchSize n) = some ptr
      ∧ o = ⟨{ s with held := s.held ++ [⟨ptr, touchSize n⟩] },
          [.mmap ⟨ptr, touchSize n⟩, .dirty ⟨ptr, touchSize n⟩],
          chars "TOUCHED " ++ decimal (touchGib n)⟩ := by
  rw [touch]
  cases os.mmap (touchSize n) with
  | none => simp
  | some ptr => simp [eq_comm]

/-- `mem` gets through exactly if the amount can be read. -/
theorem mem_eq_ok : mem os s = .ok o ↔
    ∃ kib, memAvailableKib os.meminfo = .ok kib
      ∧ o = ⟨s, [], chars "MEM " ++ decimal kib⟩ := by
  rw [mem]
  cases memAvailableKib os.meminfo with
  | error e => simp [Except.map]
  | ok kib => simp [Except.map, eq_comm]

/-- `fleet start` gets through exactly if every fork does. -/
theorem fleetStart_eq_ok {rest : List Char} : fleetStart os s rest = .ok o ↔
    ∃ pids, (List.range (startCount rest)).mapM os.fork = some pids
      ∧ o = ⟨{ s with fleet := s.fleet ++ pids }, pids.map (.fork · (startMib rest)),
          chars "FLEET-STARTED " ++ decimal (s.fleet ++ pids).length⟩ := by
  rw [fleetStart]
  cases (List.range (startCount rest)).mapM os.fork with
  | none => simp
  | some pids => simp [eq_comm]

/-- A drain gets through exactly if there are that many children. -/
theorem fleetDrain_eq_ok {stop : ℕ} : fleetDrain s stop = .ok o ↔
    stop ≤ s.fleet.length
      ∧ o = ⟨{ s with fleet := s.fleet.drop stop },
          (s.fleet.take stop).flatMap fun pid => [.kill pid, .waitpid pid],
          chars "FLEET-STOPPED " ++ decimal (s.fleet.drop stop).length⟩ := by
  rw [fleetDrain]
  split
  case isTrue h => simp [h, eq_comm]
  case isFalse h => simp [h]

end Branches

/-! ## The loop -/

/-- A line as `lines()` hands it out: without a newline. -/
structure Line where
  /-- The characters of the line. -/
  text : List Char
  /-- A line does not contain its own terminator. -/
  noNewline : '\n' ∉ text

/-- The line is blank: the loop passes over it. -/
def Line.Blank (line : Line) : Prop := trim line.text = []

/-- The command on a line, once the white space around it is trimmed. -/
def Line.command (line : Line) : Command := readCommand (trim line.text)

/-- What one turn of the loop leaves behind: the lists, what was asked of the kernel, and the
reply. -/
structure Turn where
  /-- The lists afterwards. -/
  server : Server
  /-- What was asked of the kernel. -/
  events : List Event
  /-- What was written to the console. -/
  output : List Char
deriving DecidableEq, Repr

/-- The reply as it goes to the console.
Source: `guest-init/src/main.rs`, `main` (`writeln!(out, "RATCHET {reply}")`) -/
def replyLine (reply : List Char) : List Char := chars "RATCHET " ++ reply ++ ['\n']

/-- One turn of the loop.
Source: `guest-init/src/main.rs`, `main` -/
def serve (os : Os) (s : Server) (line : Line) : Except Panic Turn :=
  if trim line.text = [] then .ok ⟨s, [], []⟩
  else (exec os s line.command).map fun o => ⟨o.server, o.events, replyLine o.reply⟩

/-- A blank line is passed over: no event, no reply, the same server. -/
theorem serve_blank {os : Os} {s : Server} {line : Line} (h : line.Blank) :
    serve os s line = .ok ⟨s, [], []⟩ :=
  if_pos h

/-- A turn that gets through is a branch that does, and its reply line. -/
theorem serve_eq_ok {os : Os} {s : Server} {line : Line} {turn : Turn} (h : ¬ line.Blank) :
    serve os s line = .ok turn ↔ ∃ o, exec os s line.command = .ok o
      ∧ turn = ⟨o.server, o.events, replyLine o.reply⟩ := by
  rw [serve, if_neg (show ¬ trim line.text = [] from h)]
  cases exec os s line.command with
  | error e => simp [Except.map]
  | ok o => simp [Except.map, eq_comm]

/-- A line, and what the kernel answers while it is served. -/
structure Request where
  /-- The kernel during this turn. -/
  os : Os
  /-- The line. -/
  line : Line

/-- The server after a request; a panic ends it. -/
def step (s : Server) (r : Request) : Option Server :=
  (serve r.os s r.line).toOption.map Turn.server

/-- A step of the server is a turn that gets through, and leads to the server of that turn. -/
theorem step_eq_some {s t : Server} {r : Request} :
    step s r = some t ↔ ∃ turn, serve r.os s r.line = .ok turn ∧ turn.server = t := by
  rw [step]
  cases serve r.os s r.line with
  | error e => simp [Except.toOption]
  | ok turn => simp [Except.toOption]

/-! ## What the kernel grants -/

/-- The line of `/proc/meminfo` that begins with `MemAvailable:` has the documented form: the
amount in KiB, padded with blanks, and the unit. -/
def ReportsAvailable (meminfo : List Char) (kib : ℕ) : Prop :=
  ∃ pad, (lines meminfo).findSome? (·.dropPrefix? (chars "MemAvailable:"))
    = some (List.replicate pad ' ' ++ decimal kib ++ chars " kB")

/-- A kernel that grants what it can: `fork` succeeds, `mmap` succeeds for every representable
length but 0, and `/proc/meminfo` reports a number. -/
structure Os.Obliging (os : Os) : Prop where
  /-- Every `fork` succeeds. -/
  fork : ∀ i, (os.fork i).isSome
  /-- A mapping of length 0 is refused. -/
  mmap_zero : os.mmap 0 = none
  /-- Every other representable length is granted. -/
  mmap_pos : ∀ size, size ≠ 0 → size < 2 ^ 64 → (os.mmap size).isSome
  /-- The available memory is reported as a number of 64 bits. -/
  meminfo : ∃ kib < 2 ^ 64, ReportsAvailable os.meminfo kib

/-- If the line `MemAvailable:` reports a number that fits 64 bits, this number is what the server
reads. -/
theorem memAvailableKib_of_reports {meminfo : List Char} {kib : ℕ} (hkib : kib < 2 ^ 64)
    (h : ReportsAvailable meminfo kib) : memAvailableKib meminfo = .ok kib := by
  obtain ⟨pad, hpad⟩ := h
  have hunit : decimal kib ++ chars " kB" = (decimal kib ++ [' ']) ++ chars "kB" := by simp [chars]
  have htrim : trim (List.replicate pad ' ' ++ decimal kib ++ chars " kB")
      = (decimal kib ++ [' ']) ++ chars "kB" := by
    rw [List.append_assoc, hunit, ← List.append_nil (_ ++ (_ ++ chars "kB"))]
    refine trim_pad ?_ (by simp)
      (Trimmed.append ?_ (by simp) (forall_mem_of_option_all (by decide)) (by decide))
    · intro c hc
      rw [List.eq_of_mem_replicate hc]
      decide
    · rw [List.head?_append_of_ne_nil _ (decimal_ne_nil kib)]
      exact (trimmed_decimal kib).1
  have hdigits : trim (decimal kib ++ [' ']) = decimal kib := by
    rw [← List.nil_append (decimal kib)]
    exact trim_pad (by simp) (forall_mem_of_all (by decide)) (trimmed_decimal kib)
  have hsuffix : (decimal kib ++ [' ']).reverse.dropPrefix? (chars "kB").reverse = none := by
    rw [List.reverse_append]
    rfl
  simp only [memAvailableKib, hpad]
  rw [htrim, trimEndMatches_append (by decide) hsuffix, hdigits, parse_decimal hkib]

section Obliging

variable {os : Os} {s : Server}

/-- `mem` answers with the number the kernel reports, and changes nothing. -/
theorem exec_mem {kib : ℕ} (hkib : kib < 2 ^ 64) (h : ReportsAvailable os.meminfo kib) :
    exec os s .mem = .ok ⟨s, [], chars "MEM " ++ decimal kib⟩ := by
  rw [exec, mem, memAvailableKib_of_reports hkib h]
  rfl

/-- The length that `touch` asks for is representable: the shift wraps at 64 bits. -/
theorem touchSize_lt (n : List Char) : touchSize n < 2 ^ 64 :=
  Nat.mod_lt _ (by norm_num)

/-- `touch` gets through exactly if the length is not 0. -/
theorem exec_touch_isOk (hos : os.Obliging) (n : List Char) :
    (∃ o, exec os s (.touch n) = .ok o) ↔ touchSize n ≠ 0 := by
  simp only [exec, touch_eq_ok]
  constructor
  · rintro ⟨o, ptr, hptr, -⟩ hsize
    rw [hsize, hos.mmap_zero] at hptr
    cases hptr
  · intro hsize
    obtain ⟨ptr, hptr⟩ := Option.isSome_iff_exists.mp (hos.mmap_pos _ hsize (touchSize_lt n))
    exact ⟨_, ptr, hptr, rfl⟩

/-- With an operating system that forks whenever asked, a loop of forks gets a pid each time. -/
theorem mapM_fork (hos : os.Obliging) (ks : List ℕ) :
    ∃ pids, ks.mapM os.fork = some pids ∧ pids.length = ks.length := by
  induction ks with
  | nil => exact ⟨[], rfl, rfl⟩
  | cons k ks ih =>
      obtain ⟨pids, hpids, hlen⟩ := ih
      obtain ⟨pid, hpid⟩ := Option.isSome_iff_exists.mp (hos.fork k)
      refine ⟨pid :: pids, ?_, by simp [hlen]⟩
      simp [List.mapM_cons, hpid, hpids]

/-- `fleet start` forks as many children as it was told to. -/
theorem exec_fleetStart (hos : os.Obliging) (rest : List Char) :
    ∃ pids, pids.length = startCount rest ∧ exec os s (.fleetStart rest)
      = .ok ⟨{ s with fleet := s.fleet ++ pids }, pids.map (.fork · (startMib rest)),
          chars "FLEET-STARTED " ++ decimal (s.fleet ++ pids).length⟩ := by
  obtain ⟨pids, hpids, hlen⟩ := mapM_fork hos (List.range (startCount rest))
  exact ⟨pids, by simpa using hlen, fleetStart_eq_ok.mpr ⟨pids, hpids, rfl⟩⟩

end Obliging

/-- A kernel that grants every request, with one address for every mapping. -/
def plainOs : Os where
  mmap size := if size = 0 then none else some 0x1000
  fork i := some (100 + i)
  meminfo := chars "MemTotal:        8123456 kB\nMemAvailable:    4096 kB\n"

/-- The plain operating system grants what it is asked for. -/
theorem plainOs_obliging : plainOs.Obliging where
  fork i := rfl
  mmap_zero := rfl
  mmap_pos size hsize _ := by simp [plainOs, hsize]
  meminfo := ⟨4096, by norm_num, 4, by decide⟩

/-- A literal as a line served by that kernel. -/
def plainRequest (text : String) (h : '\n' ∉ chars text) : Request := ⟨plainOs, ⟨chars text, h⟩⟩

end VmRatchet.GuestInit
