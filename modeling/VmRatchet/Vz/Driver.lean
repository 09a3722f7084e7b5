import VmRatchet.GuestInit.Server
import VmRatchet.Vz.Harness

/-!
# Driver, harness and guest after the handshake

The driver sends one command at a time to the harness and waits for the line that answers it; the
harness passes guest commands on to the serial input of the command server, and answers balloon
commands itself; the server answers on the serial output, which the harness forwards. Other lines
(kernel log, console echo) come in between, and the console may add a carriage return.

Commands and the lines that answer them carry the number of the command. The three programs do not
see the numbers; they only serve to say which command a line answers.

* `Ask`, `mainScript`, `fleetScript` — what the driver asks for, and in which order.
* `Link`, `Link.step` — the three programs and the lines in flight.
* `handle_send` — the harness's reaction to each command.
* `serve_ask` — the server's answer to each guest command.
-/

namespace VmRatchet.Vz

open Text GuestInit

/-! ## What the driver asks for -/

/-- One exchange of the driver with the harness: a command, and the line it is answered with. -/
inductive Ask
  | touch (gib : ℕ)
  | free
  | mem
  | fleetStart (mib : ℕ)
  | fleetStopOne
  | balloon (mib : ℕ)
deriving DecidableEq, Repr

/-- The line that is sent.
Source: `crates/vz-ratchet/src/main.rs`, `main`; `fleet.rs`, `run`; `harness.rs`,
`guest_mem_available_kib` -/
def Ask.send : Ask → List Char
  | .touch gib => chars "guest touch " ++ decimal gib
  | .free => chars "guest free"
  | .mem => chars "guest mem"
  | .fleetStart mib => chars "guest fleet start 1 " ++ decimal mib
  | .fleetStopOne => chars "guest fleet stop-one"
  | .balloon mib => chars "balloon " ++ decimal mib

/-- What the line that is waited for starts with.
Source: `crates/vz-ratchet/src/main.rs`, `main`; `fleet.rs`, `run`; `harness.rs`,
`guest_mem_available_kib` -/
def Ask.expect : Ask → List Char
  | .touch _ => chars "RATCHET TOUCHED"
  | .free => chars "RATCHET FREED"
  | .mem => chars "RATCHET MEM"
  | .fleetStart _ => chars "RATCHET FLEET-STARTED"
  | .fleetStopOne => chars "RATCHET FLEET-STOPPED"
  | .balloon _ => chars "HARNESS balloon-target"

/-- The exchanges of the plain run, with any number of polls after the balloon request.
Source: `crates/vz-ratchet/src/main.rs`, `main` -/
def mainScript (touchGb guestGb : UInt64) (polls : ℕ) : List Ask :=
  [.touch touchGb.toNat, .free, .mem, .balloon ((guestGb - touchGb) * 1024).toNat]
    ++ List.replicate polls .mem

/-- The exchanges of the fleet run.
Source: `crates/vz-ratchet/src/fleet.rs`, `run` -/
def fleetScript (services serviceMib guestGb : UInt64) : List Ask :=
  List.replicate services.toNat (.fleetStart serviceMib.toNat)
    ++ List.replicate services.toNat .fleetStopOne
    ++ [.balloon (guestGb * 1024 - services * serviceMib).toNat]

/-! ## The three programs -/

/-- Where the driver stands in its script of exchanges. -/
inductive Phase
  /-- About to send the next command. -/
  | ready (script : List Ask)
  /-- Waiting for the answer to a command. -/
  | waiting (a : Ask) (script : List Ask)
  /-- Has sent `quit`. -/
  | done

/-- The three programs and the lines in flight between them. -/
structure Link where
  /-- The driver. -/
  phase : Phase
  /-- Lines on the harness's standard input, with the number of the command. -/
  toHarness : List (ℕ × List Char)
  /-- Lines on the guest's serial input. -/
  toGuest : List (ℕ × List Char)
  /-- Lines on the harness's standard output, with the number of the command they answer. -/
  stdout : List (Option ℕ × List Char)
  /-- The command server in the guest. -/
  server : Server
  /-- How many commands were sent. -/
  sent : ℕ
  /-- What each wait returned, with the number of the command its line answered. -/
  returned : List (Option ℕ × List Char)
  /-- What the guest read from `/proc/meminfo`, in order. -/
  reads : List ℕ
  /-- What `guest_mem_available_kib` made of the answers; `none` would be a panic. -/
  polls : List (Option ℕ)

/-- After the handshake: nothing is in flight and the server is fresh. -/
def Link.init (script : List Ask) : Link :=
  ⟨.ready script, [], [], [], Server.init, 0, [], [], []⟩

/-- Who moves next: the driver, the harness or the guest, or a line comes that belongs to none. -/
inductive Act
  /-- The driver sends a command or looks at a line. -/
  | driver
  /-- The harness handles a command; a carriage return may be added to its answer. -/
  | harness (cr : Bool)
  /-- The server serves a line; a carriage return may be added to its answer. -/
  | guest (os : Os) (cr : Bool)
  /-- Some other line appears on the output. -/
  | noise (line : List Char)

/-- A line that belongs to neither protocol. -/
def IsNoise (line : List Char) : Prop :=
  ¬ chars "RATCHET " <+: line ∧ ¬ chars "HARNESS " <+: line

/-- The environment inserts lines that belong to neither protocol. -/
def Allowed (_ : Link) : Act → Prop
  | .noise line => IsNoise line
  | .driver | .harness _ | .guest _ _ => True

/-- The driver looks at a line while it waits.
Source: `crates/vz-ratchet/src/harness.rs`, `wait` (one round), `guest_mem_available_kib` -/
def Link.look (σ : Link) (a : Ask) (script : List Ask) (tag : Option ℕ) (line : List Char)
    (later : List (Option ℕ × List Char)) : Link :=
  match (readerLine line).dropPrefix? a.expect with
  | none => { σ with stdout := later }
  | some rest => { σ with
      stdout := later
      phase := .ready script
      returned := σ.returned ++ [(tag, trim rest)]
      polls := if a = .mem then σ.polls ++ [parse 64 (trim rest)] else σ.polls }

/-- What the server reads from `/proc/meminfo` for a line. -/
def memRead (os : Os) (line : Line) : List ℕ :=
  if line.command = .mem then (memAvailableKib os.meminfo).toOption.toList else []

/-- An answer as it appears on the output, without its newline. -/
def outputLines (k : ℕ) (output : List Char) (cr : Bool) : List (Option ℕ × List Char) :=
  if output = [] then [] else [(some k, output.dropLast ++ if cr then ['\r'] else [])]

/-- One move. A panic of the server and the end of the harness end the run; a driver that waits on
an empty output does not move. -/
def Link.step (σ : Link) : Act → Option Link
  | .driver =>
    match σ.phase with
    | .ready [] => some { σ with
        phase := .done, toHarness := σ.toHarness ++ [(σ.sent, chars "quit")] }
    | .ready (a :: script) => some { σ with
        phase := .waiting a script
        toHarness := σ.toHarness ++ [(σ.sent, a.send)]
        sent := σ.sent + 1 }
    | .waiting a script =>
      match σ.stdout with
      | [] => none
      | (tag, line) :: later => some (σ.look a script tag line later)
    | .done => none
  | .harness cr =>
    match σ.toHarness with
    | [] => none
    | (k, line) :: later =>
      -- The machine is configured with a balloon device.
      match handle true line with
      | .toGuest text => some { σ with toHarness := later, toGuest := σ.toGuest ++ [(k, text)] }
      | .emit event => some { σ with
          toHarness := later
          stdout := σ.stdout ++ outputLines k (eventLine event) cr }
      | .exit => none
      | .ignore => some { σ with toHarness := later }
  | .guest os cr =>
    match σ.toGuest with
    | [] => none
    | (k, text) :: later =>
      if h : '\n' ∈ text then none
      else
        match serve os σ.server ⟨text, h⟩ with
        | .error _ => none
        | .ok turn => some { σ with
            toGuest := later
            server := turn.server
            reads := σ.reads ++ memRead os ⟨text, h⟩
            stdout := σ.stdout ++ outputLines k turn.output cr }
  | .noise line => some { σ with stdout := σ.stdout ++ [(none, line)] }

/-! ## The harness's part -/

/-- The guest's part of a command, as the harness passes it on; the balloon has none. -/
def Ask.guestText : Ask → Option (List Char)
  | .touch gib => some (chars "touch " ++ decimal gib)
  | .free => some (chars "free")
  | .mem => some (chars "mem")
  | .fleetStart mib => some (chars "fleet start 1 " ++ decimal mib)
  | .fleetStopOne => some (chars "fleet stop-one")
  | .balloon _ => none

/-- The harness passes a command for the guest on as the guest's text. -/
theorem handle_send {a : Ask} {text : List Char} (h : a.guestText = some text) :
    handle true a.send = .toGuest text := by
  have hsend : a.send = chars "guest " ++ text := by
    cases a <;> simp only [Ask.guestText, Option.some.injEq, reduceCtorEq] at h <;>
      subst h <;> rfl
  rw [handle, hsend, dropPrefix?_append_self]

/-- The harness answers a balloon command by itself, with the event that repeats the target. -/
theorem handle_send_balloon {mib : ℕ} (h : mib < 2 ^ 64) :
    handle true (Ask.balloon mib).send = .emit (chars "balloon-target " ++ decimal mib) := by
  have hguest : (Ask.balloon mib).send.dropPrefix? (chars "guest ") = none := rfl
  have hballoon : (Ask.balloon mib).send.dropPrefix? (chars "balloon ") = some (decimal mib) :=
    dropPrefix?_append_self _ _
  simp only [handle, hguest, hballoon, parse_decimal h, if_true]

/-! ## The server's part -/

/-- The children that are running before a list of exchanges are enough for its stops, and none
are left after it. -/
def Balanced : ℕ → List Ask → Prop
  | n, [] => n = 0
  | n, .fleetStart _ :: as => Balanced (n + 1) as
  | n, .fleetStopOne :: as => 0 < n ∧ Balanced (n - 1) as
  | n, .touch _ :: as => Balanced n as
  | n, .free :: as => Balanced n as
  | n, .mem :: as => Balanced n as
  | n, .balloon _ :: as => Balanced n as

/-- A literal word before a number, on a line of its own. -/
theorem trim_append_decimal {s : List Char} (hs : ∀ c ∈ s.head?, isWhitespace c = false)
    (hne : s ≠ []) (n : ℕ) : trim (s ++ decimal n) = s ++ decimal n :=
  trim_of_trimmed (Trimmed.append hs hne (trimmed_decimal n).2 (decimal_ne_nil n))

/-- The command on a line of the driver. -/
def Ask.command : Ask → Option Command
  | .touch gib => some (.touch (decimal gib))
  | .free => some .free
  | .mem => some .mem
  | .fleetStart mib => some (.fleetStart (chars "1 " ++ decimal mib))
  | .fleetStopOne => some .fleetStopOne
  | .balloon _ => none

/-- `fleet start 1 M` selects the branch that starts services. -/
theorem readCommand_fleetStart (d : List Char) :
    readCommand (chars "fleet start 1 " ++ d) = .fleetStart (chars "1 " ++ d) := by
  have htouch : (chars "fleet start 1 " ++ d).dropPrefix? (chars "touch ") = none := rfl
  have hstart : (chars "fleet start 1 " ++ d).dropPrefix? (chars "fleet start ")
      = some (chars "1 " ++ d) :=
    dropPrefix?_append_self (chars "fleet start ") (chars "1 " ++ d)
  have hfree : chars "fleet start 1 " ++ d ≠ chars "free" := by simp [chars]
  have hmem : chars "fleet start 1 " ++ d ≠ chars "mem" := by simp [chars]
  simp only [readCommand, htouch, if_neg hfree, if_neg hmem, hstart]

/-- The server reads the driver's text as the command that was meant, and it is not a blank line. -/
theorem command_guestText {a : Ask} {line : Line} (h : a.guestText = some line.text) :
    a.command = some line.command ∧ ¬ line.Blank := by
  rw [Line.command, Line.Blank]
  cases a with
  | touch gib =>
      have htext : chars "touch " ++ decimal gib = line.text := Option.some.inj h
      rw [← htext, trim_append_decimal (forall_mem_of_option_all (by decide)) (by decide)]
      refine ⟨?_, by simp [decimal_ne_nil]⟩
      simp only [readCommand, dropPrefix?_append_self, Ask.command]
  | free =>
      rw [← Option.some.inj h]
      decide
  | mem =>
      rw [← Option.some.inj h]
      decide
  | fleetStart mib =>
      have htext : chars "fleet start 1 " ++ decimal mib = line.text := Option.some.inj h
      rw [← htext, trim_append_decimal (forall_mem_of_option_all (by decide)) (by decide),
        readCommand_fleetStart]
      exact ⟨rfl, by simp [decimal_ne_nil]⟩
  | fleetStopOne =>
      rw [← Option.some.inj h]
      decide
  | balloon mib => cases h

/-- `fleet start 1 M` starts one service, whatever `M` is. -/
theorem startCount_one (mib : ℕ) : startCount (chars "1 " ++ decimal mib) = 1 := by
  have hwords : splitWhitespace (chars "1 " ++ decimal mib) = [chars "1", decimal mib] :=
    splitWhitespace_two (s := chars "1") (x := ' ') (by decide)
      (forall_mem_of_all (by decide)) (by decide)
      (fun _ hc => isWhitespace_of_mem_decimal hc) (decimal_ne_nil mib)
  have hone : parse 64 (chars "1") = some 1 := by decide
  rw [startCount, hwords, nextNumber, hone, Option.getD_some]

/-- What a served command leaves behind for the driver: an answer that starts as expected and does
not end in a carriage return, a fleet that is enough for the exchanges to come, and, for `mem`, the
number that was read. -/
structure Served (a : Ask) (os : Os) (s : Server) (line : Line) (turn : Turn)
    (rest : List Char) : Prop where
  /-- The answer. -/
  output : turn.output = a.expect ++ rest ++ ['\n']
  /-- It ends in something visible. -/
  last : ∀ c ∈ (a.expect ++ rest).getLast?, isWhitespace c = false
  /-- The fleet fits what the driver asks for next. -/
  fleet : ∀ as, Balanced s.fleet.length (a :: as) → Balanced turn.server.fleet.length as
  /-- `mem` answers with the number that was read. -/
  mem : a = .mem → ∃ kib, memRead os line = [kib] ∧ parse 64 (trim rest) = some kib
  /-- Nothing else reads. -/
  not_mem : a ≠ .mem → memRead os line = []

/-- An answer that ends in a number ends in something visible, so that trimming it takes nothing
off. -/
theorem last_append_decimal (s : List Char) (n : ℕ) :
    ∀ c ∈ (s ++ ' ' :: decimal n).getLast?, isWhitespace c = false := by
  rw [List.append_cons, List.getLast?_append_of_ne_nil _ (decimal_ne_nil n)]
  exact (trimmed_decimal n).2

/-- A blank before a number is trimmed off. -/
theorem trim_blank_decimal (n : ℕ) : trim (' ' :: decimal n) = decimal n := by
  have h := trim_pad (a := [' ']) (b := []) (forall_mem_of_all (by decide)) (by simp)
    (trimmed_decimal n)
  rwa [List.append_nil] at h

/-- A line with another command than `mem` makes the server read nothing from `/proc/meminfo`. -/
theorem memRead_of_ne {a : Ask} {os : Os} {line : Line} (h : a.command = some line.command)
    (hne : a ≠ .mem) : memRead os line = [] := by
  apply if_neg
  intro hmem
  rw [hmem] at h
  cases a with
  | mem => exact hne rfl
  | _ => cases h

/-- **The server's answers.** A guest command of the driver that the server survives is answered as
the driver expects: the reply begins with the text it waits for and ends in something visible, the
fleet is enough for the exchanges to come, and `mem` is answered with the number that was read. -/
theorem serve_ask {a : Ask} {os : Os} {s : Server} (line : Line) {turn : Turn}
    (h : a.guestText = some line.text) (hserve : serve os s line = .ok turn) :
    ∃ rest, Served a os s line turn rest := by
  obtain ⟨hcommand, hblank⟩ := command_guestText h
  obtain ⟨o, hexec, rfl⟩ := (serve_eq_ok hblank).mp hserve
  have hread : a ≠ .mem → memRead os line = [] := memRead_of_ne hcommand
  cases a with
  | touch gib =>
      have hcmd : Command.touch (decimal gib) = line.command := Option.some.inj hcommand
      rw [← hcmd] at hexec
      obtain ⟨ptr, -, rfl⟩ := touch_eq_ok.mp hexec
      refine ⟨' ' :: decimal (touchGib (decimal gib)), rfl, ?_, fun _ hb => hb, nofun, hread⟩
      exact last_append_decimal _ _
  | free =>
      have hcmd : Command.free = line.command := Option.some.inj hcommand
      rw [← hcmd] at hexec
      cases hexec
      exact ⟨[], rfl, forall_mem_of_option_all (by decide), fun _ hb => hb, nofun, hread⟩
  | mem =>
      have hcmd : Command.mem = line.command := Option.some.inj hcommand
      rw [← hcmd] at hexec
      obtain ⟨kib, hkib, rfl⟩ := mem_eq_ok.mp hexec
      refine ⟨' ' :: decimal kib, rfl, ?_, fun _ hb => hb, fun _ => ⟨kib, ?_, ?_⟩,
        fun hne => absurd rfl hne⟩
      · exact last_append_decimal _ _
      · rw [memRead, if_pos hcmd.symm, hkib]
        rfl
      · rw [trim_blank_decimal, parse_decimal (memAvailableKib_lt hkib)]
  | fleetStart mib =>
      have hcmd : Command.fleetStart (chars "1 " ++ decimal mib) = line.command :=
        Option.some.inj hcommand
      rw [← hcmd] at hexec
      obtain ⟨pids, hpids, rfl⟩ := fleetStart_eq_ok.mp hexec
      have hlen : pids.length = 1 := by
        rw [startCount_one] at hpids
        rw [List.range_one, List.mapM_cons, List.mapM_nil] at hpids
        cases hfork : os.fork 0 with
        | none => simp [hfork] at hpids
        | some pid =>
            simp only [hfork, Option.pure_def, Option.bind_eq_bind, Option.bind_some,
              Option.some.injEq] at hpids
            rw [← hpids]
            rfl
      refine ⟨' ' :: decimal (s.fleet ++ pids).length, rfl, ?_, ?_, nofun, hread⟩
      · exact last_append_decimal _ _
      · intro as hb
        simp only [List.length_append, hlen]
        exact hb
  | fleetStopOne =>
      have hcmd : Command.fleetStopOne = line.command := Option.some.inj hcommand
      rw [← hcmd] at hexec
      obtain ⟨hle, rfl⟩ := fleetDrain_eq_ok.mp hexec
      refine ⟨' ' :: decimal (s.fleet.drop 1).length, rfl, ?_, ?_, nofun, hread⟩
      · exact last_append_decimal _ _
      · intro as hb
        rw [List.length_drop]
        exact hb.2
  | balloon mib => cases h

end VmRatchet.Vz
