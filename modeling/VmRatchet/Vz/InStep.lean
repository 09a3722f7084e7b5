import VmRatchet.Lib.Run
import VmRatchet.Vz.Driver

/-!
# Driver and guest stay in step

At every moment of every run, at most one command is somewhere between the driver, the harness,
the server and the way back, and whatever else is on the output is noise. That is the invariant
`Flight`; each of its cases says where the command is.

* `Flight.step` — one move of anybody keeps the invariant.
* `Flight.next`, `Flight.completes` — somebody can always move on, and the driver gets through its
  script.
* `driver_guest_in_step` — what follows for both scripts of the driver.
-/

namespace VmRatchet.Vz

open Text GuestInit Transition

/-! ## Lines on the output -/

/-- The reader takes off the carriage return that the console added. -/
theorem readerLine_append {l : List Char} (hl : ∀ c ∈ l.getLast?, isWhitespace c = false)
    (cr : Bool) : readerLine (l ++ if cr then ['\r'] else []) = l := by
  have hself : l.rdropWhile (· == '\r') = l := by
    rw [List.rdropWhile_eq_self_iff]
    intro hne h
    have hlast := hl _ (List.getLast?_eq_getLast_of_ne_nil hne)
    rw [beq_iff_eq.mp h] at hlast
    exact absurd hlast (by decide)
  cases cr with
  | false => simpa [readerLine] using hself
  | true =>
      rw [readerLine, if_pos rfl, List.rdropWhile_concat_pos _ _ _ (by simp)]
      exact hself

/-- Every line that is waited for belongs to one of the protocols. -/
theorem prefix_expect (a : Ask) :
    chars "RATCHET " <+: a.expect ∨ chars "HARNESS " <+: a.expect := by
  cases a with
  | balloon mib => exact .inr ⟨chars "balloon-target", rfl⟩
  | touch gib => exact .inl ⟨chars "TOUCHED", rfl⟩
  | free => exact .inl ⟨chars "FREED", rfl⟩
  | mem => exact .inl ⟨chars "MEM", rfl⟩
  | fleetStart mib => exact .inl ⟨chars "FLEET-STARTED", rfl⟩
  | fleetStopOne => exact .inl ⟨chars "FLEET-STOPPED", rfl⟩

/-- A wait passes over noise: no line of noise begins with what is awaited. -/
theorem IsNoise.passed_over {line : List Char} (h : IsNoise line) (a : Ask) :
    (readerLine line).dropPrefix? a.expect = none := by
  rw [dropPrefix?_eq_none]
  intro hexpect
  have hline : a.expect <+: line := hexpect.trans (List.rdropWhile_prefix _ _)
  rcases prefix_expect a with hp | hp
  · exact h.1 (hp.trans hline)
  · exact h.2 (hp.trans hline)

/-- Only noise is on the output: no answer and no event is waiting to be read. -/
def Quiet (q : List (Option ℕ × List Char)) : Prop := ∀ x ∈ q, x.1 = none ∧ IsNoise x.2

/-- An output with noise only stays one when more noise comes. -/
theorem Quiet.snoc {q : List (Option ℕ × List Char)} (h : Quiet q) {line : List Char}
    (hline : IsNoise line) : Quiet (q ++ [(none, line)]) := by
  intro x hx
  rcases List.mem_append.mp hx with hx | hx
  · exact h x hx
  · rw [List.mem_singleton.mp hx]
    exact ⟨rfl, hline⟩

/-- Noise that has been looked at leaves noise. -/
theorem Quiet.tail {x : Option ℕ × List Char} {q : List (Option ℕ × List Char)}
    (h : Quiet (x :: q)) : Quiet q :=
  fun y hy => h y (List.mem_cons_of_mem _ hy)

/-- Among noise there is no answer to any command. -/
theorem Quiet.filter_eq {q : List (Option ℕ × List Char)} (h : Quiet q) :
    q.filter (·.1.isSome) = [] := by
  rw [List.filter_eq_nil_iff]
  intro x hx
  simp [(h x hx).1]

/-! ## Where the command is -/

/-- The driver's reads of the available memory match the guest's. -/
def Matched (σ : Link) : Prop := σ.polls = σ.reads.map some

/-- Where the command is: nowhere, on its way to the harness, on its way to the guest, answered, or
there are no more of them. -/
inductive Flight (script : List Ask) (σ : Link) : Prop
  | idle (as : List Ask) (phase : σ.phase = .ready as) (toHarness : σ.toHarness = [])
      (toGuest : σ.toGuest = []) (quiet : Quiet σ.stdout) (sent : σ.sent = σ.returned.length)
      (rest : as = script.drop σ.returned.length) (fleet : Balanced σ.server.fleet.length as)
      (matched : Matched σ)
  | asked (a : Ask) (as : List Ask) (phase : σ.phase = .waiting a as)
      (toHarness : σ.toHarness = [(σ.returned.length, a.send)]) (toGuest : σ.toGuest = [])
      (quiet : Quiet σ.stdout) (sent : σ.sent = σ.returned.length + 1)
      (rest : a :: as = script.drop σ.returned.length)
      (fleet : Balanced σ.server.fleet.length (a :: as)) (matched : Matched σ)
  | forwarded (a : Ask) (as : List Ask) (text : List Char) (phase : σ.phase = .waiting a as)
      (toHarness : σ.toHarness = []) (guestText : a.guestText = some text)
      (toGuest : σ.toGuest = [(σ.returned.length, text)]) (quiet : Quiet σ.stdout)
      (sent : σ.sent = σ.returned.length + 1) (rest : a :: as = script.drop σ.returned.length)
      (fleet : Balanced σ.server.fleet.length (a :: as)) (matched : Matched σ)
  | answered (a : Ask) (as : List Ask) (before after : List (Option ℕ × List Char))
      (line tail : List Char) (phase : σ.phase = .waiting a as) (toHarness : σ.toHarness = [])
      (toGuest : σ.toGuest = [])
      (stdout : σ.stdout = before ++ (some σ.returned.length, line) :: after)
      (before_quiet : Quiet before) (after_quiet : Quiet after)
      (expected : readerLine line = a.expect ++ tail) (sent : σ.sent = σ.returned.length + 1)
      (rest : a :: as = script.drop σ.returned.length)
      (fleet : Balanced σ.server.fleet.length as)
      (mem : a = .mem → ∃ kib, σ.reads.map some = σ.polls ++ [some kib]
        ∧ parse 64 (trim tail) = some kib)
      (not_mem : a ≠ .mem → Matched σ)
  | finished (phase : σ.phase = .done) (toHarness : σ.toHarness = [(σ.sent, chars "quit")])
      (toGuest : σ.toGuest = []) (quiet : Quiet σ.stdout) (sent : σ.sent = σ.returned.length)
      (rest : script.length ≤ σ.returned.length) (fleet : σ.server.fleet = [])
      (matched : Matched σ)

/-- The lines waited for so far answered the commands sent so far, one by one. -/
def Tagged (σ : Link) : Prop :=
  σ.returned.map Prod.fst = (List.range σ.returned.length).map some

/-- One more answer, to the command whose turn it is, keeps the answers in the order of the
commands. -/
theorem Tagged.snoc {σ σ' : Link} (h : Tagged σ) {rest : List Char}
    (hret : σ'.returned = σ.returned ++ [(some σ.returned.length, rest)]) : Tagged σ' := by
  rw [Tagged] at h
  rw [Tagged, hret, List.map_append, h, List.length_append, List.length_singleton,
    List.range_succ, List.map_append]
  rfl

/-- The command is somewhere, and every wait so far has returned the answer to its command. -/
structure InStep (script : List Ask) (σ : Link) : Prop where
  /-- Where the command is. -/
  flight : Flight script σ
  /-- What the waits have returned. -/
  tagged : Tagged σ

/-! ## One move -/

section Moves

variable {script : List Ask} {σ σ' : Link}

/-- A wait that looks at noise goes on waiting. -/
theorem look_noise {a : Ask} {as : List Ask} {tag : Option ℕ} {line : List Char}
    {later : List (Option ℕ × List Char)} (h : IsNoise line) :
    σ.look a as tag line later = { σ with stdout := later } := by
  rw [Link.look, h.passed_over a]

/-- A wait that looks at the expected line returns. -/
theorem look_expected {a : Ask} {as : List Ask} {tag : Option ℕ} {line tail : List Char}
    {later : List (Option ℕ × List Char)} (h : readerLine line = a.expect ++ tail) :
    σ.look a as tag line later = { σ with
      stdout := later
      phase := .ready as
      returned := σ.returned ++ [(tag, trim tail)]
      polls := if a = .mem then σ.polls ++ [parse 64 (trim tail)] else σ.polls } := by
  rw [Link.look, h, dropPrefix?_append_self]

/-- A driver that waits looks at the first line of the output. -/
theorem step_waiting {a : Ask} {as : List Ask} (hphase : σ.phase = .waiting a as)
    (hstep : σ.step .driver = some σ') :
    ∃ tag line later, σ.stdout = (tag, line) :: later ∧ σ' = σ.look a as tag line later := by
  rw [Link.step, hphase] at hstep
  cases hout : σ.stdout with
  | nil => simp [hout] at hstep
  | cons x later =>
      simp only [hout, Option.some.injEq] at hstep
      exact ⟨x.1, x.2, later, rfl, hstep.symm⟩

/-- The next exchange of a script, and the others. -/
theorem drop_succ_of_cons {a : Ask} {as : List Ask} {n : ℕ} (h : a :: as = script.drop n) :
    as = script.drop (n + 1) := by
  rw [← List.tail_drop, ← h, List.tail_cons]

/-- A move of the driver keeps the programs in step: it sends the next command when nothing is on
its way, or looks at a line. -/
theorem InStep.driver (h : InStep script σ) (hstep : σ.step .driver = some σ') :
    InStep script σ' := by
  obtain ⟨hflight, htagged⟩ := h
  cases hflight with
  | idle as phase toHarness toGuest quiet sent rest fleet matched =>
      cases as with
      | nil =>
          rw [Link.step, phase, Option.some.injEq] at hstep
          subst hstep
          refine ⟨.finished rfl (by simp [toHarness]) toGuest quiet sent ?_ ?_ matched, htagged⟩
          · exact List.drop_eq_nil_iff.mp rest.symm
          · exact List.length_eq_zero_iff.mp fleet
      | cons a as =>
          rw [Link.step, phase, Option.some.injEq] at hstep
          subst hstep
          refine ⟨.asked a as rfl ?_ toGuest quiet ?_ rest fleet matched, htagged⟩
          · simp [toHarness, sent]
          · simp [sent]
  | asked a as phase toHarness toGuest quiet sent rest fleet matched =>
      obtain ⟨tag, line, later, hout, rfl⟩ := step_waiting phase hstep
      rw [hout] at quiet
      rw [look_noise (quiet _ List.mem_cons_self).2]
      exact ⟨.asked a as phase toHarness toGuest quiet.tail sent rest fleet matched, htagged⟩
  | forwarded a as text phase toHarness guestText toGuest quiet sent rest fleet matched =>
      obtain ⟨tag, line, later, hout, rfl⟩ := step_waiting phase hstep
      rw [hout] at quiet
      rw [look_noise (quiet _ List.mem_cons_self).2]
      exact ⟨.forwarded a as text phase toHarness guestText toGuest quiet.tail sent rest fleet
        matched, htagged⟩
  | answered a as before after line tail phase toHarness toGuest stdout before_quiet after_quiet
      expected sent rest fleet mem not_mem =>
      obtain ⟨tag, first, later, hout, rfl⟩ := step_waiting phase hstep
      rw [hout] at stdout
      cases before with
      | nil =>
          obtain ⟨hhead, rfl⟩ := List.cons.inj stdout
          obtain ⟨rfl, rfl⟩ := Prod.mk.inj hhead
          rw [look_expected expected]
          refine ⟨.idle as rfl toHarness toGuest after_quiet ?_ ?_ fleet ?_, ?_⟩
          · simp [sent]
          · simpa using drop_succ_of_cons rest
          · -- The number that was waited for is the last one the guest read.
            by_cases hmem : a = .mem
            · obtain ⟨kib, hreads, hparse⟩ := mem hmem
              simp only [Matched, hmem, if_true, hparse, hreads]
            · simp only [Matched, hmem, if_false]
              exact not_mem hmem
          · exact Tagged.snoc htagged rfl
      | cons x before =>
          obtain ⟨rfl, rfl⟩ := List.cons.inj stdout
          rw [look_noise (before_quiet _ List.mem_cons_self).2]
          exact ⟨.answered a as before after line tail phase toHarness toGuest rfl
            before_quiet.tail after_quiet expected sent rest fleet mem not_mem, htagged⟩
  | finished phase toHarness toGuest quiet sent rest fleet matched =>
      rw [Link.step, phase] at hstep
      cases hstep

/-- The balloon targets of a script fit 64 bits. -/
def TargetsFit (script : List Ask) : Prop := ∀ mib, .balloon mib ∈ script → mib < 2 ^ 64

/-- The event that answers a balloon command is on the output as one line, under the number of its
command. -/
theorem outputLines_balloon (k mib : ℕ) (cr : Bool) :
    outputLines k (eventLine (chars "balloon-target " ++ decimal mib)) cr
      = [(some k, ((Ask.balloon mib).expect ++ ' ' :: decimal mib)
          ++ if cr then ['\r'] else [])] := by
  have htext : chars "HARNESS " ++ (chars "balloon-target " ++ decimal mib)
      = (Ask.balloon mib).expect ++ ' ' :: decimal mib := rfl
  rw [outputLines, eventLine, if_neg (by simp), List.dropLast_concat, htext]

/-- A move of the harness keeps the programs in step: it passes the command on, or answers it. -/
theorem InStep.harness {cr : Bool} (hfit : TargetsFit script) (h : InStep script σ)
    (hstep : σ.step (.harness cr) = some σ') : InStep script σ' := by
  obtain ⟨hflight, htagged⟩ := h
  cases hflight with
  | idle as phase toHarness =>
      rw [Link.step, toHarness] at hstep
      cases hstep
  | asked a as phase toHarness toGuest quiet sent rest fleet matched =>
      rw [Link.step, toHarness] at hstep
      cases htext : a.guestText with
      | some text =>
          simp only [handle_send htext, Option.some.injEq] at hstep
          subst hstep
          exact ⟨.forwarded a as text phase rfl htext (by simp [toGuest]) quiet sent rest fleet
            matched, htagged⟩
      | none =>
          obtain ⟨mib, rfl⟩ : ∃ mib, a = .balloon mib := by
            cases a <;> simp [Ask.guestText] at htext
            exact ⟨_, rfl⟩
          have hmib : mib < 2 ^ 64 :=
            hfit mib (List.mem_of_mem_drop (rest ▸ List.mem_cons_self))
          simp only [handle_send_balloon hmib, Option.some.injEq] at hstep
          subst hstep
          refine ⟨.answered (.balloon mib) as σ.stdout [] _ (' ' :: decimal mib) phase rfl toGuest
            (congrArg (σ.stdout ++ ·) (outputLines_balloon _ mib cr)) quiet (by simp [Quiet])
            (readerLine_append (last_append_decimal _ mib) cr) sent rest fleet
            (fun hmem => by cases hmem) (fun _ => matched), htagged⟩
  | forwarded a as text phase toHarness =>
      rw [Link.step, toHarness] at hstep
      cases hstep
  | answered a as before after line tail phase toHarness =>
      rw [Link.step, toHarness] at hstep
      cases hstep
  | finished phase toHarness =>
      rw [Link.step, toHarness] at hstep
      simp only [show handle true (chars "quit") = .exit by decide] at hstep
      cases hstep

/-- A move of the server keeps the programs in step: the reply to the command is on the output,
under its number. -/
theorem InStep.guest {os : Os} {cr : Bool} (h : InStep script σ)
    (hstep : σ.step (.guest os cr) = some σ') : InStep script σ' := by
  obtain ⟨hflight, htagged⟩ := h
  cases hflight with
  | idle as phase toHarness toGuest =>
      rw [Link.step, toGuest] at hstep
      cases hstep
  | asked a as phase toHarness toGuest =>
      rw [Link.step, toGuest] at hstep
      cases hstep
  | forwarded a as text phase toHarness guestText toGuest quiet sent rest fleet matched =>
      rw [Link.step, toGuest] at hstep
      simp only at hstep
      split at hstep
      · cases hstep
      · rename_i hnl
        cases hserve : serve os σ.server ⟨text, hnl⟩ with
        | error e => simp [hserve] at hstep
        | ok turn =>
            simp only [hserve, Option.some.injEq] at hstep
            subst hstep
            obtain ⟨tail, hserved⟩ := serve_ask ⟨text, hnl⟩ guestText hserve
            have hout : outputLines σ.returned.length turn.output cr
                = [(some σ.returned.length, (a.expect ++ tail) ++ if cr then ['\r'] else [])] := by
              rw [outputLines, hserved.output, if_neg (by simp), List.dropLast_concat]
            refine ⟨.answered a as σ.stdout [] _ tail phase toHarness rfl ?_ quiet
              (by simp [Quiet]) (readerLine_append hserved.last cr) sent rest
              (hserved.fleet as fleet) ?_ ?_, htagged⟩
            · simp [hout]
            · intro hmem
              obtain ⟨kib, hread, hparse⟩ := hserved.mem hmem
              refine ⟨kib, ?_, hparse⟩
              simp only [hread, List.map_append, List.map_cons, List.map_nil]
              rw [show σ.polls = σ.reads.map some from matched]
            · intro hmem
              simp only [Matched, hserved.not_mem hmem, List.append_nil]
              exact matched
  | answered a as before after line tail phase toHarness toGuest =>
      rw [Link.step, toGuest] at hstep
      cases hstep
  | finished phase toHarness toGuest =>
      rw [Link.step, toGuest] at hstep
      cases hstep

/-- Noise that appears on the output keeps the programs in step. -/
theorem InStep.noise {line : List Char} (hline : IsNoise line) (h : InStep script σ)
    (hstep : σ.step (.noise line) = some σ') : InStep script σ' := by
  obtain ⟨hflight, htagged⟩ := h
  rw [Link.step, Option.some.injEq] at hstep
  subst hstep
  refine ⟨?_, htagged⟩
  cases hflight with
  | idle as phase toHarness toGuest quiet sent rest fleet matched =>
      exact .idle as phase toHarness toGuest (quiet.snoc hline) sent rest fleet matched
  | asked a as phase toHarness toGuest quiet sent rest fleet matched =>
      exact .asked a as phase toHarness toGuest (quiet.snoc hline) sent rest fleet matched
  | forwarded a as text phase toHarness guestText toGuest quiet sent rest fleet matched =>
      exact .forwarded a as text phase toHarness guestText toGuest (quiet.snoc hline) sent rest
        fleet matched
  | answered a as before after ln tail phase toHarness toGuest stdout before_quiet after_quiet
      expected sent rest fleet mem not_mem =>
      exact .answered a as before (after ++ [(none, line)]) ln tail phase toHarness toGuest
        (by simp [stdout]) before_quiet (after_quiet.snoc hline) expected sent rest fleet mem
        not_mem
  | finished phase toHarness toGuest quiet sent rest fleet matched =>
      exact .finished phase toHarness toGuest (quiet.snoc hline) sent rest fleet matched

/-- **One move of anybody keeps them in step**: the one command there may be is in one place, and
every wait so far has returned the answer to its own command. -/
theorem InStep.step (hfit : TargetsFit script) (σ : Link) (act : Act) (σ' : Link)
    (hallowed : Allowed σ act) (h : InStep script σ) (hstep : σ.step act = some σ') :
    InStep script σ' := by
  cases act with
  | driver => exact h.driver hstep
  | harness cr => exact h.harness hfit hstep
  | guest os cr => exact h.guest hstep
  | noise line => exact h.noise hallowed hstep

end Moves

/-! ## Somebody can always move on -/

section Progress

variable {script : List Ask} {σ : Link}

/-- A kernel that grants whatever the server asks for. -/
structure Granting (os : Os) : Prop where
  /-- Every `fork` succeeds. -/
  fork : ∀ i, (os.fork i).isSome
  /-- Every `mmap` succeeds. -/
  mmap : ∀ size, (os.mmap size).isSome
  /-- The available memory is reported. -/
  meminfo : ∃ kib, memAvailableKib os.meminfo = .ok kib

/-- With such a kernel the server survives every command of the driver that meets a fleet that is
enough for it. -/
theorem exists_serve {a : Ask} {as : List Ask} {os : Os} {s : Server} (line : Line)
    (hos : Granting os) (h : a.guestText = some line.text)
    (hfleet : Balanced s.fleet.length (a :: as)) : ∃ turn, serve os s line = .ok turn := by
  obtain ⟨hcommand, hblank⟩ := command_guestText h
  suffices hexec : ∃ o, exec os s line.command = .ok o by
    obtain ⟨o, ho⟩ := hexec
    exact ⟨_, (serve_eq_ok hblank).mpr ⟨o, ho, rfl⟩⟩
  cases a with
  | touch gib =>
      rw [← Option.some.inj hcommand]
      obtain ⟨ptr, hptr⟩ := Option.isSome_iff_exists.mp (hos.mmap (touchSize (decimal gib)))
      exact ⟨_, touch_eq_ok.mpr ⟨ptr, hptr, rfl⟩⟩
  | free =>
      rw [← Option.some.inj hcommand]
      exact ⟨_, rfl⟩
  | mem =>
      rw [← Option.some.inj hcommand]
      obtain ⟨kib, hkib⟩ := hos.meminfo
      exact ⟨_, mem_eq_ok.mpr ⟨kib, hkib, rfl⟩⟩
  | fleetStart mib =>
      rw [← Option.some.inj hcommand]
      obtain ⟨pid, hpid⟩ := Option.isSome_iff_exists.mp (hos.fork 0)
      have hpids : (List.range (startCount (chars "1 " ++ decimal mib))).mapM os.fork
          = some [pid] := by
        rw [startCount_one, List.range_one]
        simp [List.mapM_cons, hpid]
      exact ⟨_, fleetStart_eq_ok.mpr ⟨_, hpids, rfl⟩⟩
  | fleetStopOne =>
      rw [← Option.some.inj hcommand]
      exact ⟨_, fleetDrain_eq_ok.mpr ⟨hfleet.1, rfl⟩⟩
  | balloon mib => cases h

/-- The texts of the guest commands have no newline. -/
theorem newline_not_mem_guestText {a : Ask} {text : List Char} (h : a.guestText = some text) :
    '\n' ∉ text := by
  have hnumber : ∀ (s : List Char) (n : ℕ), '\n' ∉ s → '\n' ∉ s ++ decimal n := by
    intro s n hs hmem
    rcases List.mem_append.mp hmem with h | h
    · exact hs h
    · exact absurd (isWhitespace_of_mem_decimal h) (by decide)
  cases a with
  | touch gib =>
      rw [← Option.some.inj h]
      exact hnumber _ _ (by decide)
  | free =>
      rw [← Option.some.inj h]
      decide
  | mem =>
      rw [← Option.some.inj h]
      decide
  | fleetStart mib =>
      rw [← Option.some.inj h]
      exact hnumber _ _ (by decide)
  | fleetStopOne =>
      rw [← Option.some.inj h]
      decide
  | balloon mib => cases h

/-- How far the driver still has to go: a measure that every move but noise brings down. -/
def Link.todo (σ : Link) : ℕ :=
  (match σ.phase with
    | .ready as => 8 * as.length + 5
    | .waiting _ as => 8 * as.length + 6
    | .done => 0)
    + 4 * σ.toHarness.length + 2 * σ.toGuest.length + σ.stdout.length

/-- The move is not noise, and the guest's system answers as `os` does. -/
def Act.Works (os : Os) : Act → Prop
  | .driver | .harness _ => True
  | .guest os' _ => os' = os
  | .noise _ => False

/-- As long as the driver is not done, somebody can move, and there is less to do then: the driver
sends, the harness passes on or answers, the server replies, and the driver looks at the answer. -/
theorem InStep.next (hfit : TargetsFit script) {os : Os} (hos : Granting os)
    (h : InStep script σ) (hdone : σ.phase ≠ .done) :
    ∃ act σ', act.Works os ∧ σ.step act = some σ' ∧ σ'.todo < σ.todo := by
  obtain ⟨hflight, -⟩ := h
  cases hflight with
  | idle as phase toHarness =>
      cases as with
      | nil =>
          refine ⟨.driver, _, trivial, by rw [Link.step, phase], ?_⟩
          simp [Link.todo, phase, toHarness]
      | cons a as =>
          refine ⟨.driver, _, trivial, by rw [Link.step, phase], ?_⟩
          simp [Link.todo, phase, toHarness]
          omega
  | asked a as phase toHarness toGuest quiet sent rest =>
      cases htext : a.guestText with
      | some text =>
          refine ⟨.harness false,
            { σ with toHarness := [], toGuest := [(σ.returned.length, text)] }, trivial, ?_, ?_⟩
          · simp [Link.step, toHarness, handle_send htext, toGuest]
          · simp [Link.todo, phase, toHarness, toGuest]
      | none =>
          obtain ⟨mib, rfl⟩ : ∃ mib, a = .balloon mib := by
            cases a <;> simp [Ask.guestText] at htext
            exact ⟨_, rfl⟩
          have hmib : mib < 2 ^ 64 :=
            hfit mib (List.mem_of_mem_drop (rest ▸ List.mem_cons_self))
          have hstep : σ.step (.harness false) = some { σ with
              toHarness := []
              stdout := σ.stdout ++ outputLines σ.returned.length
                (eventLine (chars "balloon-target " ++ decimal mib)) false } := by
            rw [Link.step, toHarness]
            simp only [handle_send_balloon hmib]
          refine ⟨.harness false, _, trivial, hstep, ?_⟩
          rw [outputLines_balloon]
          simp [Link.todo, phase, toHarness, toGuest]
          omega
  | forwarded a as text phase toHarness guestText toGuest quiet sent rest fleet =>
      have hnl := newline_not_mem_guestText guestText
      obtain ⟨turn, hturn⟩ := exists_serve ⟨text, hnl⟩ hos guestText fleet
      have hstep : σ.step (.guest os false) = some { σ with
          toGuest := []
          server := turn.server
          reads := σ.reads ++ memRead os ⟨text, hnl⟩
          stdout := σ.stdout ++ outputLines σ.returned.length turn.output false } := by
        rw [Link.step, toGuest]
        simp only [dif_neg hnl, hturn]
      have hone : (outputLines σ.returned.length turn.output false).length ≤ 1 := by
        rw [outputLines]
        split <;> simp
      refine ⟨.guest os false, _, rfl, hstep, ?_⟩
      simp [Link.todo, phase, toHarness, toGuest]
      omega
  | answered a as before after line tail phase toHarness toGuest stdout _ _ expected =>
      refine ⟨.driver, ?_⟩
      cases before with
      | nil =>
          rw [List.nil_append] at stdout
          refine ⟨_, trivial, by rw [Link.step, phase, stdout], ?_⟩
          rw [look_expected expected]
          simp [Link.todo, phase, stdout]
          omega
      | cons x before =>
          rw [List.cons_append] at stdout
          refine ⟨_, trivial, by rw [Link.step, phase, stdout], ?_⟩
          rw [Link.look]
          split
          · simp [Link.todo, phase, stdout]
          · simp [Link.todo, phase, stdout]
            omega
  | finished phase => exact absurd phase hdone

/-- **The driver gets through its script.** From every state in step, and with an operating system
that grants what it is asked for, the driver comes to its end by moves of the programs alone. -/
theorem InStep.completes (hfit : TargetsFit script) {os : Os} (hos : Granting os)
    (h : InStep script σ) :
    ∃ acts σ', (∀ act ∈ acts, act.Works os) ∧ run Link.step σ acts = some σ'
      ∧ σ'.phase = .done := by
  induction hn : σ.todo using Nat.strong_induction_on generalizing σ with
  | _ n ih =>
      by_cases hdone : σ.phase = .done
      · exact ⟨[], σ, by simp, rfl, hdone⟩
      · obtain ⟨act, σ₁, hworks, hstep, hless⟩ := h.next hfit hos hdone
        have hallowed : Allowed σ act := by
          cases act with
          | noise line => exact absurd hworks id
          | driver => trivial
          | harness cr => trivial
          | guest os' cr => trivial
        have h₁ := InStep.step hfit σ act σ₁ hallowed h hstep
        obtain ⟨acts, σ', hall, hrun, hend⟩ := ih _ (hn ▸ hless) h₁ rfl
        refine ⟨act :: acts, σ', ?_, run_cons_eq_some.mpr ⟨σ₁, hstep, hrun⟩, hend⟩
        intro x hx
        rcases List.mem_cons.mp hx with rfl | hx
        · exact hworks
        · exact hall x hx

end Progress

/-! ## The two programs of the driver -/

/-- What the driver was started for: the plain run or the fleet run. -/
inductive Program
  /-- The plain run, with any number of polls. -/
  | plain (touchGb guestGb : UInt64) (polls : ℕ)
  /-- The fleet run. -/
  | fleet (services serviceMib guestGb : UInt64)

/-- The exchanges of a program. -/
def Program.script : Program → List Ask
  | .plain touchGb guestGb polls => mainScript touchGb guestGb polls
  | .fleet services serviceMib guestGb => fleetScript services serviceMib guestGb

/-- The balloon targets of a program are 64-bit numbers. -/
theorem Program.targetsFit (p : Program) : TargetsFit p.script := by
  intro mib hmem
  cases p with
  | plain touchGb guestGb polls =>
      simp only [script, mainScript, List.mem_append, List.mem_cons, List.mem_replicate,
        List.not_mem_nil, reduceCtorEq, Ask.balloon.injEq, or_false, false_or, and_false] at hmem
      exact hmem ▸ UInt64.toNat_lt _
  | fleet services serviceMib guestGb =>
      simp only [script, fleetScript, List.mem_append, List.mem_cons, List.mem_replicate,
        List.not_mem_nil, reduceCtorEq, Ask.balloon.injEq, or_false, false_or, and_false] at hmem
      exact hmem ▸ UInt64.toNat_lt _

/-- Polls do not touch the fleet, so they leave it balanced exactly if it is empty. -/
theorem balanced_polls (n k : ℕ) : Balanced n (List.replicate k .mem) ↔ n = 0 := by
  induction k with
  | zero => rfl
  | succ k ih =>
      rw [List.replicate_succ, Balanced]
      exact ih

/-- Starts add to the fleet: what follows must be balanced for so many services more. -/
theorem balanced_starts (n k mib : ℕ) (as : List Ask) :
    Balanced n (List.replicate k (.fleetStart mib) ++ as) ↔ Balanced (n + k) as := by
  induction k generalizing n with
  | zero => rfl
  | succ k ih =>
      rw [List.replicate_succ, List.cons_append, Balanced, ih, Nat.add_right_comm, Nat.add_assoc]

/-- As many stops as children are running, and the balloon after them, are balanced. -/
theorem balanced_stops (k mib : ℕ) :
    Balanced k (List.replicate k .fleetStopOne ++ [.balloon mib]) := by
  induction k with
  | zero => rfl
  | succ k ih =>
      rw [List.replicate_succ, List.cons_append, Balanced]
      exact ⟨Nat.succ_pos k, ih⟩

/-- Every program stops as many services as it starts, and none before it is started. -/
theorem Program.balanced (p : Program) : Balanced 0 p.script := by
  cases p with
  | plain touchGb guestGb polls =>
      simp only [script, mainScript, List.cons_append, List.nil_append, Balanced]
      exact (balanced_polls 0 polls).mpr rfl
  | fleet services serviceMib guestGb =>
      rw [script, fleetScript, List.append_assoc, balanced_starts, Nat.zero_add]
      exact balanced_stops _ _

/-- After the handshake the programs are in step: no command has been sent and no answer
returned. -/
theorem Program.inStep_init (p : Program) : InStep p.script (Link.init p.script) where
  flight := .idle p.script rfl rfl rfl (by simp [Quiet, Link.init]) rfl rfl p.balanced rfl
  tagged := rfl

/-! ## What follows -/

/-- The exchanges that have not been completed, the current one first. -/
def Phase.remaining : Phase → List Ask
  | .ready as => as
  | .waiting a as => a :: as
  | .done => []

/-- A `fleet stop-one` that reaches the guest finds a child. -/
def StopFindsChild (σ : Link) : Act → Prop
  | .guest _ _ => ∀ k later, σ.toGuest = (k, chars "fleet stop-one") :: later →
      σ.server.fleet ≠ []
  | .driver | .harness _ | .noise _ => True

section Consequences

variable {script : List Ask} {σ : Link}

/-- At most one command is between the programs, as a command or as an answer, and the driver has
sent at most one more than it has heard the answers of. -/
theorem InStep.outstanding (h : InStep script σ) :
    σ.toHarness.length + σ.toGuest.length + (σ.stdout.filter (·.1.isSome)).length ≤ 1
      ∧ σ.returned.length ≤ σ.sent ∧ σ.sent ≤ σ.returned.length + 1 := by
  obtain ⟨hflight, -⟩ := h
  cases hflight with
  | idle as phase toHarness toGuest quiet sent =>
      rw [toHarness, toGuest, quiet.filter_eq, sent]
      simp
  | asked a as phase toHarness toGuest quiet sent =>
      rw [toHarness, toGuest, quiet.filter_eq, sent]
      simp
  | forwarded a as text phase toHarness guestText toGuest quiet sent =>
      rw [toHarness, toGuest, quiet.filter_eq, sent]
      simp
  | answered a as before after line tail phase toHarness toGuest stdout before_quiet after_quiet
      expected sent =>
      rw [toHarness, toGuest, stdout, List.filter_append, before_quiet.filter_eq,
        List.filter_cons_of_pos rfl, after_quiet.filter_eq, sent]
      simp
  | finished phase toHarness toGuest quiet sent =>
      rw [toHarness, toGuest, quiet.filter_eq, sent]
      simp

/-- What the driver made of the answers to `mem` is what the guest read. -/
theorem InStep.polls_prefix (h : InStep script σ) : σ.polls <+: σ.reads.map some := by
  obtain ⟨hflight, -⟩ := h
  have of_matched : Matched σ → σ.polls <+: σ.reads.map some := fun hm => ⟨[], by
    rw [List.append_nil, show σ.polls = σ.reads.map some from hm]⟩
  cases hflight with
  | idle _ _ _ _ _ _ _ _ matched => exact of_matched matched
  | asked _ _ _ _ _ _ _ _ _ matched => exact of_matched matched
  | forwarded _ _ _ _ _ _ _ _ _ _ _ matched => exact of_matched matched
  | answered a _ _ _ _ _ _ _ _ _ _ _ _ _ _ _ mem not_mem =>
      by_cases hmem : a = .mem
      · obtain ⟨kib, hreads, -⟩ := mem hmem
        exact ⟨[some kib], hreads.symm⟩
      · exact of_matched (not_mem hmem)
  | finished _ _ _ _ _ _ _ matched => exact of_matched matched

/-- A `fleet stop-one` that reaches the guest finds a child to stop, in every state in step. -/
theorem InStep.stopFindsChild (h : InStep script σ) (act : Act) : StopFindsChild σ act := by
  cases act with
  | driver => trivial
  | harness cr => trivial
  | noise line => trivial
  | guest os cr =>
      intro k later hqueue hnil
      obtain ⟨hflight, -⟩ := h
      cases hflight with
      | idle _ _ _ toGuest => simp [toGuest] at hqueue
      | asked _ _ _ _ toGuest => simp [toGuest] at hqueue
      | forwarded a as text _ _ guestText toGuest _ _ _ fleet =>
          rw [toGuest] at hqueue
          obtain ⟨hhead, -⟩ := List.cons.inj hqueue
          rw [(Prod.mk.inj hhead).2] at guestText
          have ha : a = .fleetStopOne := by
            cases a <;> simp [Ask.guestText, chars] at guestText
            rfl
          rw [ha, hnil] at fleet
          exact absurd fleet.1 (lt_irrefl 0)
      | answered _ _ _ _ _ _ _ _ toGuest => simp [toGuest] at hqueue
      | finished _ _ toGuest => simp [toGuest] at hqueue

/-- Exchanges with the harness alone leave an empty fleet only if it is empty. -/
theorem balanced_balloons {as : List Ask} {n : ℕ} (has : ∀ a ∈ as, ∃ mib, a = .balloon mib)
    (h : Balanced n as) : n = 0 := by
  induction as with
  | nil => exact h
  | cons a as ih =>
      obtain ⟨mib, rfl⟩ := has a List.mem_cons_self
      exact ih (fun b hb => has b (List.mem_cons_of_mem _ hb)) h

/-- When only the balloon is left, the fleet is empty. -/
theorem InStep.fleet_empty (h : InStep script σ)
    (hrest : ∀ a ∈ σ.phase.remaining, ∃ mib, a = .balloon mib) : σ.server.fleet = [] := by
  obtain ⟨hflight, -⟩ := h
  rw [← List.length_eq_zero_iff]
  cases hflight with
  | idle as phase _ _ _ _ _ fleet =>
      rw [phase] at hrest
      exact balanced_balloons hrest fleet
  | asked a as phase _ _ _ _ _ fleet =>
      rw [phase] at hrest
      exact balanced_balloons hrest fleet
  | forwarded a as text phase _ _ _ _ _ _ fleet =>
      rw [phase] at hrest
      exact balanced_balloons hrest fleet
  | answered a as _ _ _ _ phase _ _ _ _ _ _ _ _ fleet =>
      rw [phase] at hrest
      exact balanced_balloons (fun b hb => hrest b (List.mem_cons_of_mem _ hb)) fleet
  | finished _ _ _ _ _ _ fleet => rw [fleet, List.length_nil]

end Consequences

/-- **Driver and guest stay in step.** In every run of the three programs, with noise anywhere: at
most one command is outstanding; the `k`-th wait has returned the answer to the `k`-th command; the
driver has read the numbers the guest read; every stop has found a child, and when only the balloon
is left the fleet is empty. And from every state that is reached, the driver gets through its
script as soon as the kernel grants what the server asks for. -/
theorem driver_guest_in_step (p : Program) {acts : List Act} {σ : Link}
    (hnoise : ∀ line, .noise line ∈ acts → IsNoise line)
    (hrun : run Link.step (Link.init p.script) acts = some σ) :
    (σ.toHarness.length + σ.toGuest.length + (σ.stdout.filter (·.1.isSome)).length ≤ 1
        ∧ σ.returned.length ≤ σ.sent ∧ σ.sent ≤ σ.returned.length + 1)
      ∧ σ.returned.map Prod.fst = (List.range σ.returned.length).map some
      ∧ σ.polls <+: σ.reads.map some
      ∧ Along Link.step StopFindsChild (Link.init p.script) acts
      ∧ ((∀ a ∈ σ.phase.remaining, ∃ mib, a = .balloon mib) → σ.server.fleet = [])
      ∧ ∀ os, Granting os → ∃ more σ', (∀ act ∈ more, act.Works os)
        ∧ run Link.step σ more = some σ' ∧ σ'.phase = .done
        ∧ p.script.length ≤ σ'.returned.length := by
  have hallowed : Along Link.step Allowed (Link.init p.script) acts := by
    refine Along.of_labels ?_ _
    intro act hact τ
    cases act with
    | noise line => exact hnoise line hact
    | driver => trivial
    | harness cr => trivial
    | guest os cr => trivial
  have h : InStep p.script σ :=
    run_invariant (InStep.step p.targetsFit) hallowed p.inStep_init hrun
  refine ⟨h.outstanding, h.tagged, h.polls_prefix, ?_, h.fleet_empty, ?_⟩
  · exact Along.of_invariant (InStep.step p.targetsFit)
      (fun τ act _ hτ => hτ.stopFindsChild act) hallowed p.inStep_init
  · intro os hos
    obtain ⟨more, σ', hworks, hmore, hdone⟩ := h.completes p.targetsFit hos
    have hmoreAllowed : Along Link.step Allowed σ more := by
      refine Along.of_labels ?_ _
      intro act hact τ
      cases act with
      | noise line => exact absurd (hworks _ hact) id
      | driver => trivial
      | harness cr => trivial
      | guest os cr => trivial
    have h' := run_invariant (InStep.step p.targetsFit) hmoreAllowed h hmore
    refine ⟨more, σ', hworks, hmore, hdone, ?_⟩
    obtain ⟨hflight, -⟩ := h'
    cases hflight with
    | finished _ _ _ _ _ rest => exact rest
    | idle _ phase => rw [phase] at hdone; cases hdone
    | asked _ _ phase => rw [phase] at hdone; cases hdone
    | forwarded _ _ _ phase => rw [phase] at hdone; cases hdone
    | answered _ _ _ _ _ _ phase => rw [phase] at hdone; cases hdone

/-- A service is started between two kernel log lines. -/
theorem driver_guest_in_step_plain :
    ∃ σ, run Link.step (Link.init (Program.fleet 1 256 6).script)
        [.noise (chars "[    0.1] boot"), .driver, .harness false, .guest plainOs true,
          .noise (chars "[    0.2] fork"), .driver, .driver] = some σ
      ∧ σ.returned.map Prod.fst = [some 0] := by
  obtain ⟨σ, hσ, hlen⟩ : ∃ σ, run Link.step (Link.init (Program.fleet 1 256 6).script)
      [.noise (chars "[    0.1] boot"), .driver, .harness false, .guest plainOs true,
        .noise (chars "[    0.2] fork"), .driver, .driver] = some σ ∧ σ.returned.length = 1 :=
    ⟨_, rfl, rfl⟩
  have hnoise : ∀ line, .noise line ∈ [Act.noise (chars "[    0.1] boot"), .driver, .harness false,
      .guest plainOs true, .noise (chars "[    0.2] fork"), .driver, .driver] → IsNoise line := by
    intro line hline
    simp only [List.mem_cons, Act.noise.injEq, reduceCtorEq, false_or, or_false,
      List.not_mem_nil] at hline
    rcases hline with rfl | rfl <;> exact ⟨by decide, by decide⟩
  refine ⟨σ, hσ, ?_⟩
  rw [(driver_guest_in_step (.fleet 1 256 6) hnoise hσ).2.1, hlen]
  rfl

end VmRatchet.Vz
