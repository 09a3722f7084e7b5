import VmRatchet.GuestInit.Resources
import VmRatchet.Vz.InStep

/-!
# The exchanges as calls

Between a command of the driver and the line that answers it lie two pipes, a serial line, other
output, and the kernel of the guest, under which the children of the server may exit at any time.
The driver is written as if none of this was there: as if each exchange was a call. Here this is
shown to be right.

* `Whole`, `Whole.step` — the three programs, and the books of the guest's kernel.
* `Direct`, `Direct.step` — a driver that calls the harness and the server directly.
* `Whole.direct` — what a state of the three programs amounts to.
* `exchanges_are_calls` — every run of the three programs amounts to the calls, one for each command
  that is served and in that order.
-/

namespace VmRatchet.Vz

open Text GuestInit Transition

/-! ## The three programs and the guest's kernel -/

/-- The three programs, with the server and everything it has done. -/
structure Whole where
  /-- The programs, and the lines in flight. -/
  link : Link
  /-- The server, the books of the guest's kernel, and what has happened between them. -/
  guest : System

/-- After the handshake: the driver has its script before it, and the server holds nothing. -/
def Whole.init (script : List Ask) : Whole := ⟨Link.init script, System.init⟩

/-- What can happen: a move of driver, harness or guest, or the death of a child of the server. -/
inductive Happening
  /-- A move of the programs. -/
  | act (a : Act)
  /-- A child of the server exits by itself. -/
  | exit (pid : ℕ)

/-- What a move means for the guest: the line that the server is handed. -/
def Link.moves (σ : Link) : Act → List Move
  | .guest os _ =>
    match σ.toGuest with
    | [] => []
    | (_, text) :: _ => if h : '\n' ∈ text then [] else [.serve ⟨os, ⟨text, h⟩⟩]
  | .driver | .harness _ | .noise _ => []

/-- One move of the programs, booked by the kernel, or one of a child. -/
def Whole.step (w : Whole) : Happening → Option Whole
  | .act a => (w.link.step a).bind fun link =>
      (run System.step w.guest (w.link.moves a)).map fun guest => ⟨link, guest⟩
  | .exit pid => (w.guest.step (.exit pid)).map fun guest => { w with guest }

/-- Lines that come in between belong to neither protocol. -/
def Undisturbed (w : Whole) : Happening → Prop
  | .act a => Allowed w.link a
  | .exit _ => True

/-! ## The calls -/

/-- What the driver hears in a line, if it waits for the answer to an exchange. -/
def Ask.heard (a : Ask) (line : List Char) : List Char :=
  trim (((readerLine line).dropPrefix? a.expect).getD [])

/-- A driver that carries out each exchange on the spot. -/
structure Direct where
  /-- The exchanges to come. -/
  script : List Ask
  /-- The server. -/
  server : Server
  /-- What it has done. -/
  log : List Event
  /-- What the driver has heard, exchange by exchange. -/
  texts : List (List Char)

/-- Before the first exchange, in the system where an exchange is one call of the server. -/
def Direct.init (script : List Ask) : Direct := ⟨script, Server.init, [], []⟩

/-- The next exchange: the harness reacts to the command, and if it passes a line on, the server
serves it and the kernel answers as told. -/
def Direct.step (d : Direct) (os : Option Os) : Option Direct :=
  match d.script with
  | [] => none
  | a :: as =>
    match handle true a.send, os with
    | .emit event, none => some { d with
        script := as
        texts := d.texts ++ [a.heard (eventLine event).dropLast] }
    | .toGuest text, some os =>
      if h : '\n' ∈ text then none
      else
        match serve os d.server ⟨text, h⟩ with
        | .error _ => none
        | .ok turn => some ⟨as, turn.server, d.log ++ turn.events,
            d.texts ++ [a.heard turn.output.dropLast]⟩
    | _, _ => none

/-! ## What a state amounts to -/

/-- What the driver is about to hear: the answers that are on the output and not yet read. -/
def Link.coming (σ : Link) : List (List Char) :=
  match σ.phase with
  | .waiting a _ => (σ.stdout.filter (·.1.isSome)).map fun x => a.heard x.2
  | .ready _ | .done => []

/-- What the driver has heard, and is about to hear. -/
def Link.texts (σ : Link) : List (List Char) := σ.returned.map Prod.snd ++ σ.coming

/-- The exchanges whose answers have not been written. -/
def Link.pending (σ : Link) : List Ask := σ.phase.remaining.drop σ.coming.length

/-- An exchange counts from the moment its answer is written. -/
def Whole.direct (w : Whole) : Direct :=
  ⟨w.link.pending, w.guest.server, w.guest.log, w.link.texts⟩

/-- The calls of the server that a step amounts to: one where the guest serves a line, one without a
system where the harness answers by itself, and else none. -/
def Whole.calls (w : Whole) : Happening → List (Option Os)
  | .act (.guest os _) => [some os]
  | .act (.harness _) =>
    match w.link.toHarness with
    | [] => []
    | (_, line) :: _ =>
      match handle true line with
      | .emit _ => [none]
      | .toGuest _ | .exit | .ignore => []
  | .act .driver | .act (.noise _) | .exit _ => []

/-! ## One move -/

section Moves

variable {script : List Ask} {σ σ' : Link} {w w' : Whole}

/-- What is heard in a line that begins with the expected words is what follows them, trimmed. -/
theorem heard_expected {a : Ask} {line tail : List Char}
    (h : readerLine line = a.expect ++ tail) : a.heard line = trim tail := by
  rw [Ask.heard, h, dropPrefix?_append_self, Option.getD_some]

/-- While there is only noise on the output no answer is on its way. -/
theorem coming_of_quiet (h : Quiet σ.stdout) : σ.coming = [] := by
  rw [Link.coming]
  split
  · rw [h.filter_eq, List.map_nil]
  · rfl
  · rfl

/-- As long as only noise is on the output, what counts is what the driver has heard. -/
theorem pending_of_quiet (h : Quiet σ.stdout) :
    σ.pending = σ.phase.remaining ∧ σ.texts = σ.returned.map Prod.snd := by
  rw [Link.pending, Link.texts, coming_of_quiet h]
  exact ⟨rfl, List.append_nil _⟩

/-- An answer that is still on the output, with noise around it, counts as heard: its exchange is no
longer pending, and its text is the next one. -/
theorem pending_of_answered {a : Ask} {as : List Ask}
    {before after : List (Option ℕ × List Char)} {k : ℕ} {line tail : List Char}
    (hphase : σ.phase = .waiting a as) (hout : σ.stdout = before ++ (some k, line) :: after)
    (hbefore : Quiet before) (hafter : Quiet after) (h : readerLine line = a.expect ++ tail) :
    σ.pending = as ∧ σ.texts = σ.returned.map Prod.snd ++ [trim tail] := by
  have hcoming : σ.coming = [trim tail] := by
    rw [Link.coming, hphase, hout]
    simp only [List.filter_append, hbefore.filter_eq, List.filter_cons_of_pos,
      Option.isSome_some, hafter.filter_eq, List.nil_append, List.map_cons, List.map_nil,
      heard_expected h]
  rw [Link.pending, Link.texts, hcoming, hphase]
  exact ⟨rfl, rfl⟩

/-- A driver that waits and looks at noise leaves pending exchanges and texts as they are. -/
theorem waiting_pending {a : Ask} {as : List Ask} (hphase : σ.phase = .waiting a as)
    (hquiet : Quiet σ.stdout) (hstep : σ.step .driver = some σ') :
    σ'.pending = σ.pending ∧ σ'.texts = σ.texts := by
  obtain ⟨tag, line, later, hout, hlook⟩ := step_waiting hphase hstep
  have hquiet' := hquiet
  rw [hout] at hquiet'
  rw [look_noise (hquiet' _ List.mem_cons_self).2] at hlook
  have hlater : Quiet σ'.stdout := hlook ▸ hquiet'.tail
  rw [(pending_of_quiet hquiet).1, (pending_of_quiet hquiet).2, (pending_of_quiet hlater).1,
    (pending_of_quiet hlater).2, hlook]
  exact ⟨rfl, rfl⟩

/-- The driver's moves carry out no exchange: what is pending and what is heard, with the answer on
its way, stay the same. -/
theorem driver_pending (h : Flight script σ) (hstep : σ.step .driver = some σ') :
    σ'.pending = σ.pending ∧ σ'.texts = σ.texts := by
  cases h with
  | idle as phase toHarness toGuest quiet =>
      obtain ⟨hpending, htexts⟩ := pending_of_quiet quiet
      rw [hpending, htexts, phase]
      cases as with
      | nil =>
          rw [Link.step, phase, Option.some.injEq] at hstep
          have hquiet : Quiet σ'.stdout := hstep ▸ quiet
          rw [(pending_of_quiet hquiet).1, (pending_of_quiet hquiet).2, ← hstep]
          exact ⟨rfl, rfl⟩
      | cons a as =>
          rw [Link.step, phase, Option.some.injEq] at hstep
          have hquiet : Quiet σ'.stdout := hstep ▸ quiet
          rw [(pending_of_quiet hquiet).1, (pending_of_quiet hquiet).2, ← hstep]
          exact ⟨rfl, rfl⟩
  | asked a as phase toHarness toGuest quiet =>
      exact waiting_pending phase quiet hstep
  | forwarded a as text phase toHarness guestText toGuest quiet =>
      exact waiting_pending phase quiet hstep
  | answered a as before after line tail phase toHarness toGuest stdout before_quiet after_quiet
      expected =>
      obtain ⟨tag, first, later, hout, hlook⟩ := step_waiting phase hstep
      obtain ⟨hpending, htexts⟩ :=
        pending_of_answered phase stdout before_quiet after_quiet expected
      rw [hpending, htexts]
      rw [hout] at stdout
      cases before with
      | nil =>
          obtain ⟨hhead, rfl⟩ := List.cons.inj stdout
          obtain ⟨rfl, rfl⟩ := Prod.mk.inj hhead
          rw [look_expected expected] at hlook
          have hquiet : Quiet σ'.stdout := hlook ▸ after_quiet
          rw [(pending_of_quiet hquiet).1, (pending_of_quiet hquiet).2, hlook]
          exact ⟨rfl, by simp⟩
      | cons x before =>
          obtain ⟨rfl, rfl⟩ := List.cons.inj stdout
          rw [look_noise (before_quiet _ List.mem_cons_self).2] at hlook
          have hphase : σ'.phase = .waiting a as := hlook ▸ phase
          have hout' : σ'.stdout = before ++ (some σ.returned.length, line) :: after :=
            hlook ▸ rfl
          obtain ⟨hpending', htexts'⟩ :=
            pending_of_answered hphase hout' before_quiet.tail after_quiet expected
          rw [hpending', htexts', hlook]
          exact ⟨rfl, rfl⟩
  | finished phase =>
      rw [Link.step, phase] at hstep
      cases hstep

/-- Noise carries out no exchange. -/
theorem noise_pending {line : List Char} (hstep : σ.step (.noise line) = some σ') :
    σ'.pending = σ.pending ∧ σ'.texts = σ.texts := by
  rw [Link.step, Option.some.injEq] at hstep
  have hcoming : σ'.coming = σ.coming := by
    rw [← hstep, Link.coming, Link.coming]
    simp only [List.filter_append, List.filter_cons_of_neg, Option.isSome_none,
      Bool.false_eq_true, not_false_eq_true, List.filter_nil, List.append_nil]
  rw [Link.pending, Link.pending, Link.texts, Link.texts, hcoming, ← hstep]
  exact ⟨rfl, rfl⟩

/-- One direct call that the harness answers takes the exchange off the script, and its text is what
is heard in the event. -/
theorem direct_emit {d : Direct} {a : Ask} {as : List Ask} {event : List Char}
    (hscript : d.script = a :: as) (h : handle true a.send = .emit event) :
    d.step none = some { d with
      script := as, texts := d.texts ++ [a.heard (eventLine event).dropLast] } := by
  rw [Direct.step, hscript]
  simp only [h]

/-- One direct call of the server takes the exchange off the script: the server turns, its events
are logged, and the text is what is heard in its reply. -/
theorem direct_serve {d : Direct} {a : Ask} {as : List Ask} {os : Os} {line : Line} {turn : Turn}
    (hscript : d.script = a :: as) (h : a.guestText = some line.text)
    (hserve : serve os d.server line = .ok turn) :
    d.step (some os) = some ⟨as, turn.server, d.log ++ turn.events,
      d.texts ++ [a.heard turn.output.dropLast]⟩ := by
  have hline : serve os d.server ⟨line.text, line.noNewline⟩ = .ok turn := hserve
  rw [Direct.step, hscript]
  simp only [handle_send h, dif_neg line.noNewline, hline]

/-- A move of the harness is the direct call of an exchange if the harness answers by itself, as it
does for the balloon, and no call if it passes the command on to the guest, which will answer it. -/
theorem harness_direct {cr : Bool} (hfit : TargetsFit script) (h : Flight script w.link)
    (hstep : w.link.step (.harness cr) = some σ') :
    run Direct.step w.direct (w.calls (.act (.harness cr)))
      = some (Whole.mk σ' w.guest).direct := by
  cases h with
  | idle as phase toHarness =>
      rw [Link.step, toHarness] at hstep
      cases hstep
  | asked a as phase toHarness toGuest quiet sent rest =>
      obtain ⟨hpending, htexts⟩ := pending_of_quiet quiet
      rw [phase] at hpending
      rw [Link.step, toHarness] at hstep
      cases htext : a.guestText with
      | some text =>
          simp only [handle_send htext, Option.some.injEq] at hstep
          have hcalls : w.calls (.act (.harness cr)) = [] := by
            simp only [Whole.calls, toHarness, handle_send htext]
          have hquiet : Quiet σ'.stdout := hstep ▸ quiet
          rw [hcalls, run_nil, Whole.direct, Whole.direct, hpending, htexts,
            (pending_of_quiet hquiet).1, (pending_of_quiet hquiet).2, ← hstep, phase]
      | none =>
          obtain ⟨mib, rfl⟩ : ∃ mib, a = .balloon mib := by
            cases a <;> simp [Ask.guestText] at htext
            exact ⟨_, rfl⟩
          have hmib : mib < 2 ^ 64 :=
            hfit mib (List.mem_of_mem_drop (rest ▸ List.mem_cons_self))
          have hemit := handle_send_balloon hmib
          simp only [hemit, Option.some.injEq] at hstep
          have hcalls : w.calls (.act (.harness cr)) = [none] := by
            simp only [Whole.calls, toHarness, hemit]
          have hphase : σ'.phase = .waiting (.balloon mib) as := hstep ▸ phase
          have hout : σ'.stdout = w.link.stdout ++ (some w.link.returned.length,
              ((Ask.balloon mib).expect ++ ' ' :: decimal mib) ++
                if cr then ['\r'] else []) :: [] :=
            hstep ▸ congrArg (w.link.stdout ++ ·) (outputLines_balloon _ mib cr)
          obtain ⟨hpending', htexts'⟩ := pending_of_answered hphase hout quiet (by simp [Quiet])
            (readerLine_append (last_append_decimal _ mib) cr)
          have hheard : (Ask.balloon mib).heard
              (eventLine (chars "balloon-target " ++ decimal mib)).dropLast
                = trim (' ' :: decimal mib) := by
            have hexpected : readerLine ((Ask.balloon mib).expect ++ ' ' :: decimal mib ++ [])
                = (Ask.balloon mib).expect ++ ' ' :: decimal mib :=
              readerLine_append (last_append_decimal _ mib) false
            rw [List.append_nil] at hexpected
            rw [eventLine, List.dropLast_concat]
            exact heard_expected hexpected
          have hcall := direct_emit (d := w.direct) hpending hemit
          rw [hcalls, run_cons_eq_some]
          refine ⟨_, hcall, ?_⟩
          rw [run_nil, hheard, Whole.direct, Whole.direct, hpending', htexts', htexts, ← hstep]
  | forwarded a as text phase toHarness =>
      rw [Link.step, toHarness] at hstep
      cases hstep
  | answered a as before after line tail phase toHarness =>
      rw [Link.step, toHarness] at hstep
      cases hstep
  | finished phase toHarness =>
      rw [Link.step, toHarness] at hstep
      simp only [show handle true (chars "quit") = .exit by decide] at hstep
      cases hstep

/-- A move of the programs is one of the link, beside which the guest makes the moves that this one
asks of it. -/
theorem step_act_eq_some {a : Act} : w.step (.act a) = some w' ↔
    ∃ link guest, w.link.step a = some link
      ∧ run System.step w.guest (w.link.moves a) = some guest ∧ w' = ⟨link, guest⟩ := by
  simp only [Whole.step, Option.bind_eq_some_iff, Option.map_eq_some_iff]
  constructor
  · rintro ⟨link, hlink, guest, hguest, rfl⟩
    exact ⟨link, guest, hlink, hguest, rfl⟩
  · rintro ⟨link, guest, hlink, hguest, rfl⟩
    exact ⟨link, hlink, guest, hguest, rfl⟩

/-- A move of the guest hands its server the line that is in flight: the server turns, its kernel
books the events, and the reply goes to the output. -/
theorem step_guest {os : Os} {cr : Bool} (hstep : w.step (.act (.guest os cr)) = some w') :
    ∃ k text later, w.link.toGuest = (k, text) :: later ∧ ∃ hnl : '\n' ∉ text,
      ∃ turn, serve os w.link.server ⟨text, hnl⟩ = .ok turn
      ∧ w.guest.step (.serve ⟨os, ⟨text, hnl⟩⟩) = some w'.guest
      ∧ w'.link = { w.link with
          toGuest := later
          server := turn.server
          reads := w.link.reads ++ memRead os ⟨text, hnl⟩
          stdout := w.link.stdout ++ outputLines k turn.output cr } := by
  obtain ⟨link, guest, hlink, hguest, rfl⟩ := step_act_eq_some.mp hstep
  rw [Link.step] at hlink
  cases hqueue : w.link.toGuest with
  | nil => simp [hqueue] at hlink
  | cons x later =>
      obtain ⟨k, text⟩ := x
      simp only [hqueue] at hlink
      split at hlink
      · cases hlink
      · rename_i hnl
        cases hserve : serve os w.link.server ⟨text, hnl⟩ with
        | error e => simp [hserve] at hlink
        | ok turn =>
            simp only [hserve, Option.some.injEq] at hlink
            simp only [Link.moves, hqueue, dif_neg hnl] at hguest
            obtain ⟨g, hg, hrest⟩ := run_cons_eq_some.mp hguest
            rw [run_nil] at hrest
            exact ⟨k, text, later, rfl, hnl, turn, hserve, hg.trans hrest, hlink.symm⟩

/-- The programs are in step, and it is one server that they talk of. -/
structure Coherent (script : List Ask) (w : Whole) : Prop where
  /-- The programs are in step. -/
  inStep : InStep script w.link
  /-- The server at the end of the link is the one in the kernel's books. -/
  server : w.guest.server = w.link.server

/-- The server's moves carry out one exchange: they are the direct call of the server with the same
line. -/
theorem guest_direct {os : Os} {cr : Bool} (h : Coherent script w)
    (hstep : w.step (.act (.guest os cr)) = some w') :
    run Direct.step w.direct [some os] = some w'.direct ∧ w'.guest.server = w'.link.server := by
  obtain ⟨k, text, later, hqueue, hnl, turn, hserve, hguest, hlink⟩ := step_guest hstep
  obtain ⟨turn', kernel, hturn, -, hbooked⟩ := step_serve_eq_some.mp hguest
  obtain rfl : turn = turn' := by
    rw [h.server, hserve, Except.ok.injEq] at hturn
    exact hturn
  refine ⟨?_, by rw [hbooked, hlink]⟩
  cases h.inStep.flight with
  | idle as phase toHarness toGuest => simp [toGuest] at hqueue
  | asked a as phase toHarness toGuest => simp [toGuest] at hqueue
  | forwarded a as text' phase toHarness guestText toGuest quiet sent rest fleet =>
      rw [toGuest] at hqueue
      obtain ⟨hhead, rfl⟩ := List.cons.inj hqueue
      obtain ⟨rfl, rfl⟩ := Prod.mk.inj hhead
      obtain ⟨hpending, htexts⟩ := pending_of_quiet quiet
      rw [phase] at hpending
      obtain ⟨tail, hserved⟩ := serve_ask ⟨text', hnl⟩ guestText hserve
      have hphase : w'.link.phase = .waiting a as := hlink ▸ phase
      have hout : w'.link.stdout = w.link.stdout ++ (some w.link.returned.length,
          (a.expect ++ tail) ++ if cr then ['\r'] else []) :: [] := by
        rw [hlink, outputLines, hserved.output, if_neg (by simp), List.dropLast_concat]
      obtain ⟨hpending', htexts'⟩ := pending_of_answered hphase hout quiet (by simp [Quiet])
        (readerLine_append hserved.last cr)
      have hheard : a.heard turn.output.dropLast = trim tail := by
        have hexpected : readerLine (a.expect ++ tail ++ []) = a.expect ++ tail :=
          readerLine_append hserved.last false
        rw [List.append_nil] at hexpected
        rw [hserved.output, List.dropLast_concat]
        exact heard_expected hexpected
      have hcall := direct_serve (d := w.direct) hpending guestText hturn
      rw [run_cons_eq_some]
      refine ⟨_, hcall, ?_⟩
      rw [run_nil, hheard, Whole.direct, Whole.direct, hpending', htexts', htexts, hbooked,
        hlink]
  | answered a as before after line tail phase toHarness toGuest => simp [toGuest] at hqueue
  | finished phase toHarness toGuest => simp [toGuest] at hqueue

/-- A move that asks nothing of the guest leaves the guest as it is. -/
theorem step_other {a : Act} (ha : w.link.moves a = []) (hstep : w.step (.act a) = some w') :
    w.link.step a = some w'.link ∧ w'.guest = w.guest := by
  obtain ⟨link, guest, hlink, hguest, rfl⟩ := step_act_eq_some.mp hstep
  rw [ha, run_nil, Option.some.injEq] at hguest
  exact ⟨hlink, hguest.symm⟩

/-- The server of the link moves with the guest alone. -/
theorem server_of_step {a : Act} (ha : ∀ os cr, a ≠ .guest os cr)
    (hstep : σ.step a = some σ') : σ'.server = σ.server := by
  cases a with
  | guest os cr => exact absurd rfl (ha os cr)
  | noise line =>
      rw [Link.step, Option.some.injEq] at hstep
      rw [← hstep]
  | harness cr =>
      rw [Link.step] at hstep
      split at hstep
      · cases hstep
      · split at hstep <;> simp only [Option.some.injEq, reduceCtorEq] at hstep <;> rw [← hstep]
  | driver =>
      rw [Link.step] at hstep
      split at hstep
      · rw [← Option.some.inj hstep]
      · rw [← Option.some.inj hstep]
      · split at hstep
        · cases hstep
        · rw [← Option.some.inj hstep, Link.look]
          split <;> rfl
      · cases hstep

/-- **One step amounts to its calls**, and the programs stay in step. The exchange is carried out at
the moment its answer is written; the other moves carry the command there and the answer back, and
leave what is pending and what is heard the same. -/
theorem Coherent.step (hfit : TargetsFit script) (x : Happening) (hx : Undisturbed w x)
    (h : Coherent script w) (hstep : w.step x = some w') :
    Coherent script w' ∧ run Direct.step w.direct (w.calls x) = some w'.direct := by
  cases x with
  | exit pid =>
      cases hstep
      exact ⟨⟨h.inStep, h.server⟩, rfl⟩
  | act a =>
      have hinStep : InStep script w'.link := by
        obtain ⟨link, guest, hlink, -, rfl⟩ := step_act_eq_some.mp hstep
        exact h.inStep.step hfit w.link a link hx hlink
      cases a with
      | guest os cr =>
          obtain ⟨hdirect, hserver⟩ := guest_direct h hstep
          exact ⟨⟨hinStep, hserver⟩, hdirect⟩
      | driver =>
          obtain ⟨hlink, hguest⟩ := step_other rfl hstep
          obtain ⟨hpending, htexts⟩ := driver_pending h.inStep.flight hlink
          refine ⟨⟨hinStep, ?_⟩, ?_⟩
          · rw [hguest, h.server, server_of_step (by simp) hlink]
          · rw [Whole.calls, run_nil, Whole.direct, Whole.direct, hpending, htexts, hguest]
      | harness cr =>
          obtain ⟨hlink, hguest⟩ := step_other rfl hstep
          refine ⟨⟨hinStep, ?_⟩, ?_⟩
          · rw [hguest, h.server, server_of_step (by simp) hlink]
          · rw [harness_direct hfit h.inStep.flight hlink, ← hguest]
      | noise line =>
          obtain ⟨hlink, hguest⟩ := step_other rfl hstep
          obtain ⟨hpending, htexts⟩ := noise_pending hlink
          refine ⟨⟨hinStep, ?_⟩, ?_⟩
          · rw [hguest, h.server, server_of_step (by simp) hlink]
          · rw [Whole.calls, run_nil, Whole.direct, Whole.direct, hpending, htexts, hguest]

/-- At most one answer is on its way. -/
theorem length_coming_le (h : InStep script σ) : σ.coming.length ≤ 1 := by
  have hone := h.outstanding.1
  rw [Link.coming]
  split
  · rw [List.length_map]
    omega
  · exact Nat.zero_le 1
  · exact Nat.zero_le 1

end Moves

/-! ## Whole runs -/

/-- After the handshake the whole and its direct counterpart agree: no exchange is carried out on
either side. -/
theorem Program.coherent_init (p : Program) : Coherent p.script (Whole.init p.script) :=
  ⟨p.inStep_init, rfl⟩

/-- In every undisturbed run the whole and its direct counterpart agree. -/
theorem Program.coherent (p : Program) {happened : List Happening} {w : Whole}
    (hquiet : Along Whole.step Undisturbed (Whole.init p.script) happened)
    (hrun : run Whole.step (Whole.init p.script) happened = some w) : Coherent p.script w :=
  run_invariant (fun _ x _ hx h hstep => (h.step p.targetsFit x hx hstep).1) hquiet
    p.coherent_init hrun

/-- An undisturbed run, seen through its direct calls, is a run of the direct driver that comes to
the same place. -/
theorem Program.direct_of_run (p : Program) {happened : List Happening} {w : Whole}
    (hquiet : Along Whole.step Undisturbed (Whole.init p.script) happened)
    (hrun : run Whole.step (Whole.init p.script) happened = some w) :
    run Direct.step (Direct.init p.script)
      (observed Whole.step Whole.calls (Whole.init p.script) happened) = some w.direct :=
  run_refines (fun _ x _ hx h hstep => (h.step p.targetsFit x hx hstep).1)
    (fun _ x _ hx h hstep => (h.step p.targetsFit x hx hstep).2) hquiet p.coherent_init hrun

/-- **The exchanges are calls.** Whatever the order in which the driver, the harness and the guest
move, whatever is printed in between and whichever children exit by themselves, what the server
has done is what it does for a driver that calls it directly, command by command; and the driver
has heard what that driver hears, but for one answer at most that is still on its way. -/
theorem exchanges_are_calls (p : Program) {happened : List Happening} {w : Whole}
    (hquiet : Along Whole.step Undisturbed (Whole.init p.script) happened)
    (hrun : run Whole.step (Whole.init p.script) happened = some w) :
    ∃ d, run Direct.step (Direct.init p.script)
        (observed Whole.step Whole.calls (Whole.init p.script) happened) = some d
      ∧ d.server = w.guest.server ∧ d.log = w.guest.log
      ∧ w.link.returned.map Prod.snd <+: d.texts
      ∧ d.texts.length ≤ w.link.returned.length + 1 := by
  have h := (p.coherent hquiet hrun).inStep
  refine ⟨w.direct, p.direct_of_run hquiet hrun, rfl, rfl, List.prefix_append _ _, ?_⟩
  have hone := length_coming_le h
  simp only [Whole.direct, Link.texts, List.length_append, List.length_map]
  omega

/-- A service is started, dies, and is reported all the same. -/
theorem exchanges_are_calls_exit :
    ∃ w d, run Whole.step (Whole.init (Program.fleet 1 256 6).script)
        [.act .driver, .act (.harness false), .act (.guest plainOs true), .exit 100,
          .act (.noise (chars "[    0.2] exit")), .act .driver] = some w
      ∧ run Direct.step (Direct.init (Program.fleet 1 256 6).script) [some plainOs] = some d
      ∧ d.log = w.guest.log ∧ w.link.returned.map Prod.snd <+: d.texts := by
  obtain ⟨w, hw⟩ : ∃ w, run Whole.step (Whole.init (Program.fleet 1 256 6).script)
      [.act .driver, .act (.harness false), .act (.guest plainOs true), .exit 100,
        .act (.noise (chars "[    0.2] exit")), .act .driver] = some w := ⟨_, rfl⟩
  have hquiet : Along Whole.step Undisturbed (Whole.init (Program.fleet 1 256 6).script)
      [.act .driver, .act (.harness false), .act (.guest plainOs true), .exit 100,
        .act (.noise (chars "[    0.2] exit")), .act .driver] := by
    refine ⟨trivial, fun _ _ => ⟨trivial, fun _ _ => ⟨trivial, fun _ _ => ⟨trivial,
      fun _ _ => ⟨?_, fun _ _ => ⟨trivial, fun _ _ => trivial⟩⟩⟩⟩⟩⟩
    exact ⟨by decide, by decide⟩
  obtain ⟨d, hd, -, hlog, htexts, -⟩ := exchanges_are_calls (.fleet 1 256 6) hquiet hw
  exact ⟨w, d, hw, hd, hlog, htexts⟩

end VmRatchet.Vz
