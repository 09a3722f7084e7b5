import VmRatchet.GuestInit.Server

/-!
# Which lines the command server survives

The server is PID 1 of the guest: if it panics, the guest kernel does. The protocol it implements
answers every line with one reply, and refuses what it cannot do (`ERR unknown command`,
`FLEET-STOPPED 0`) without side effects. This module says on which lines that is what happens.

* `Executable` — the line is a well-formed command that can be carried out now.
* `Survives` — the turn does not panic, writes one reply line, and leaves both lists alone unless
  the command is executable.
* `Sensible` — the condition on the line and on the fleet before it under which that is so.
* `serve_survives_iff_sensible` — the two agree after every history.
-/

namespace VmRatchet.GuestInit

open Text Transition

/-! ## The contract -/

/-- The command is well formed and can be carried out now: its numbers are numbers and not zero,
the lengths they stand for are representable, and there is something to stop. -/
def Executable (s : Server) : Command → Prop
  | .touch n => ∃ gib, parse 64 (trim n) = some gib ∧ gib ≠ 0 ∧ gib * 2 ^ 30 < 2 ^ 64
  | .free => True
  | .mem => True
  | .fleetStart rest => ∃ kWord mWord more k mib, splitWhitespace rest = kWord :: mWord :: more
      ∧ parse 64 kWord = some k ∧ k ≠ 0 ∧ parse 64 mWord = some mib ∧ mib ≠ 0
      ∧ mib * 2 ^ 20 < 2 ^ 64
  | .fleetStopOne => s.fleet ≠ []
  | .fleetStop => s.fleet ≠ []
  | .unknown _ => False

/-- One line that begins with the protocol prefix, and nothing else. -/
def IsReply (output : List Char) : Prop :=
  ∃ reply, '\n' ∉ reply ∧ output = replyLine reply

/-- The turn does not panic; a line that is not blank is answered by one reply line; a command
that is not executable changes neither list. -/
def Survives (s : Server) (r : Request) : Prop :=
  ∃ turn, serve r.os s r.line = .ok turn ∧ (¬ r.line.Blank → IsReply turn.output)
    ∧ (¬ Executable s r.line.command →
        turn.server.held = s.held ∧ turn.server.fleet = s.fleet)

/-- The condition on the line and on the fleet: the number of `touch` is a number from 1 to
`2^34 - 1`, a `fleet start` that forks at all names a size from 1 to `2^44 - 1` MiB, and
`fleet stop-one` finds a child. -/
def Sensible (s : Server) : Command → Prop
  | .touch n => 0 < touchGib n ∧ touchGib n < 2 ^ 34
  | .fleetStart rest => startCount rest = 0 ∨ (0 < startMib rest ∧ startMib rest < 2 ^ 44)
  | .fleetStopOne => s.fleet ≠ []
  | .free | .mem | .fleetStop | .unknown _ => True

instance (s : Server) : (c : Command) → Decidable (Sensible s c)
  | .touch n => inferInstanceAs (Decidable (0 < touchGib n ∧ touchGib n < 2 ^ 34))
  | .fleetStart rest => inferInstanceAs
      (Decidable (startCount rest = 0 ∨ (0 < startMib rest ∧ startMib rest < 2 ^ 44)))
  | .fleetStopOne => inferInstanceAs (Decidable (s.fleet ≠ []))
  | .free => isTrue trivial
  | .mem => isTrue trivial
  | .fleetStop => isTrue trivial
  | .unknown _ => isTrue trivial

/-! ## The reply is one line -/

/-- Trimming invents no characters: what is left was there before. -/
theorem mem_of_mem_trim {c : Char} {s : List Char} (h : c ∈ trim s) : c ∈ s :=
  (List.dropWhile_sublist _).mem ((List.rdropWhile_prefix _ _).sublist.mem h)

/-- A number written in decimal has no newline. -/
theorem newline_not_mem_decimal (n : ℕ) : '\n' ∉ decimal n := by
  intro h
  have := isWhitespace_of_mem_decimal h
  exact absurd this (by decide)

/-- Two texts without a newline, one after the other, have none. -/
theorem newline_not_mem_append {s t : List Char} (hs : '\n' ∉ s) (ht : '\n' ∉ t) :
    '\n' ∉ s ++ t := by
  intro h
  rcases List.mem_append.mp h with h | h
  · exact hs h
  · exact ht h

/-- An unknown command carries the line it was read from, which is what the server echoes. -/
theorem readCommand_unknown {line text : List Char} (h : readCommand line = .unknown text) :
    text = line := by
  cases htouch : line.dropPrefix? (chars "touch ") with
  | some n => simp [readCommand, htouch] at h
  | none =>
      cases hstart : line.dropPrefix? (chars "fleet start ") with
      | some rest =>
          simp only [readCommand, htouch, hstart] at h
          split_ifs at h
      | none =>
          simp only [readCommand, htouch, hstart] at h
          split_ifs at h
          exact (Command.unknown.inj h).symm

/-- No branch puts a newline into its reply, if the text that it may echo has none. -/
theorem exec_reply {os : Os} {s : Server} {c : Command} {o : Outcome}
    (hline : ∀ text, c = .unknown text → '\n' ∉ text) (h : exec os s c = .ok o) :
    '\n' ∉ o.reply := by
  cases c with
  | touch n =>
      obtain ⟨ptr, -, rfl⟩ := touch_eq_ok.mp h
      exact newline_not_mem_append (by decide) (newline_not_mem_decimal _)
  | free =>
      cases h
      simp [free, chars]
  | mem =>
      obtain ⟨kib, -, rfl⟩ := mem_eq_ok.mp h
      exact newline_not_mem_append (by decide) (newline_not_mem_decimal _)
  | fleetStart rest =>
      obtain ⟨pids, -, rfl⟩ := fleetStart_eq_ok.mp h
      exact newline_not_mem_append (by decide) (newline_not_mem_decimal _)
  | fleetStopOne =>
      obtain ⟨-, rfl⟩ := fleetDrain_eq_ok.mp h
      exact newline_not_mem_append (by decide) (newline_not_mem_decimal _)
  | fleetStop =>
      obtain ⟨-, rfl⟩ := fleetDrain_eq_ok.mp h
      exact newline_not_mem_append (by decide) (newline_not_mem_decimal _)
  | unknown text =>
      cases h
      exact newline_not_mem_append (by decide) (hline text rfl)

/-- A turn that does not panic answers a line that is not blank with one reply line. -/
theorem serve_isReply {os : Os} {s : Server} {line : Line} {turn : Turn}
    (h : serve os s line = .ok turn) (hblank : ¬ line.Blank) : IsReply turn.output := by
  obtain ⟨o, hexec, rfl⟩ := (serve_eq_ok hblank).mp h
  refine ⟨o.reply, exec_reply ?_ hexec, rfl⟩
  intro text htext hmem
  rw [readCommand_unknown htext] at hmem
  exact line.noNewline (mem_of_mem_trim hmem)

/-! ## Branch by branch -/

/-- `touch` can be executed exactly if its number is a positive one whose length in bytes fits 64
bits. -/
theorem executable_touch_iff {s : Server} {n : List Char} :
    Executable s (.touch n) ↔ Sensible s (.touch n) := by
  simp only [Executable, Sensible, touchGib]
  constructor
  · rintro ⟨gib, hgib, hpos, hlt⟩
    rw [hgib]
    simp only [Option.getD_some]
    omega
  · rintro ⟨hpos, hlt⟩
    cases hgib : parse 64 (trim n) with
    | none => simp [hgib] at hpos
    | some gib =>
        rw [hgib, Option.getD_some] at hpos hlt
        exact ⟨gib, rfl, by omega, by omega⟩

/-- A `fleet start` with a count and a size in range is executable. -/
theorem executable_fleetStart {s : Server} {rest : List Char} (hk : startCount rest ≠ 0)
    (hpos : 0 < startMib rest) (hlt : startMib rest < 2 ^ 44) :
    Executable s (.fleetStart rest) := by
  simp only [startCount, startMib] at hk hpos hlt
  rcases hwords : splitWhitespace rest with _ | ⟨kWord, _ | ⟨mWord, more⟩⟩
  · simp [hwords, nextNumber] at hk
  · simp [hwords, nextNumber] at hpos
  · rw [hwords] at hk hpos hlt
    simp only [List.tail_cons, nextNumber] at hk hpos hlt
    cases hkw : parse 64 kWord with
    | none => simp [hkw] at hk
    | some k =>
        cases hmw : parse 64 mWord with
        | none => simp [hmw] at hpos
        | some mib =>
            rw [hkw, Option.getD_some] at hk
            rw [hmw, Option.getD_some] at hpos hlt
            exact ⟨kWord, mWord, more, k, mib, hwords, hkw, hk, hmw, by omega, by omega⟩

/-- An executable `fleet start` forks, and names a size in range. -/
theorem sensible_of_executable_fleetStart {s : Server} {rest : List Char}
    (h : Executable s (.fleetStart rest)) : 0 < startMib rest ∧ startMib rest < 2 ^ 44 := by
  obtain ⟨kWord, mWord, more, k, mib, hwords, -, -, hmw, hpos, hlt⟩ := h
  rw [startMib, hwords, List.tail_cons, nextNumber, hmw, Option.getD_some]
  omega

/-- A number in range maps a length that is not 0, without wrapping. -/
theorem touchSize_of_lt {n : List Char} (h : touchGib n < 2 ^ 34) :
    touchSize n = touchGib n * 2 ^ 30 := by
  rw [touchSize, gibBytes, Nat.mod_eq_of_lt (by omega)]

/-- **Branch by branch**: a command gets through, and changes the lists only if it is executable,
exactly if it is sensible. For `touch` and the commands of the fleet that is a condition on the
number and on the fleet; `free` and `mem` are always sensible. -/
theorem exec_contract_iff {os : Os} (hos : os.Obliging) (s : Server) (c : Command) :
    (∃ o, exec os s c = .ok o
      ∧ (¬ Executable s c → o.server.held = s.held ∧ o.server.fleet = s.fleet))
      ↔ Sensible s c := by
  cases c with
  | touch n =>
      rw [← executable_touch_iff]
      constructor
      · rintro ⟨o, ho, hkeep⟩
        by_contra hex
        -- A command that is not executable has mapped something all the same.
        obtain ⟨ptr, -, rfl⟩ := touch_eq_ok.mp ho
        simpa using (hkeep hex).1
      · intro hex
        have hrange := executable_touch_iff.mp hex
        have hsize : touchSize n ≠ 0 := by
          rw [touchSize_of_lt hrange.2]
          have := hrange.1
          omega
        obtain ⟨o, ho⟩ := (exec_touch_isOk hos n).mpr hsize
        exact ⟨o, ho, fun hnot => absurd hex hnot⟩
  | free => simp [exec, Executable, Sensible]
  | mem =>
      obtain ⟨kib, hkib, hreport⟩ := hos.meminfo
      simp [exec_mem hkib hreport, Executable, Sensible]
  | fleetStart rest =>
      obtain ⟨pids, hlen, hexec⟩ := exec_fleetStart (s := s) hos rest
      rw [hexec]
      simp only [Except.ok.injEq, exists_eq_left', Sensible, true_and, List.append_right_eq_self]
      constructor
      · intro hkeep
        by_cases hk : startCount rest = 0
        · exact .inl hk
        · refine .inr (sensible_of_executable_fleetStart (s := s) ?_)
          by_contra hex
          rw [hkeep hex] at hlen
          exact hk hlen.symm
      · intro hsens hex
        by_contra hne
        have hk : startCount rest ≠ 0 := by
          rw [← hlen]
          simpa using hne
        obtain ⟨hpos, hlt⟩ := hsens.resolve_left hk
        exact hex (executable_fleetStart hk hpos hlt)
  | fleetStopOne =>
      simp only [exec, fleetDrain_eq_ok, Sensible, Executable]
      constructor
      · rintro ⟨o, ⟨hlen, -⟩, -⟩ hnil
        rw [hnil] at hlen
        cases hlen
      · intro hne
        exact ⟨_, ⟨List.length_pos_iff.mpr hne, rfl⟩, fun h => absurd hne h⟩
  | fleetStop =>
      simp only [exec, fleetDrain_eq_ok, Sensible, Executable, iff_true]
      refine ⟨_, ⟨le_rfl, rfl⟩, fun h => ⟨rfl, ?_⟩⟩
      rw [List.drop_length, not_not.mp h]
  | unknown text => simp [exec, Sensible]

/-- With an obliging operating system the server survives a line exactly if it is blank or a
sensible command for the children and mappings there are. -/
theorem survives_iff {r : Request} (hos : r.os.Obliging) (s : Server) :
    Survives s r ↔ r.line.Blank ∨ Sensible s r.line.command := by
  by_cases hblank : r.line.Blank
  · simp only [Survives, hblank, true_or, iff_true]
    exact ⟨_, serve_blank hblank, by simp, by simp⟩
  · rw [← exec_contract_iff hos]
    simp only [Survives, hblank, false_or, not_false_eq_true, true_implies]
    constructor
    · rintro ⟨turn, hturn, -, hkeep⟩
      obtain ⟨o, ho, rfl⟩ := (serve_eq_ok hblank).mp hturn
      exact ⟨o, ho, hkeep⟩
    · rintro ⟨o, ho, hkeep⟩
      have hturn := (serve_eq_ok hblank).mpr ⟨o, ho, rfl⟩
      exact ⟨_, hturn, serve_isReply hturn hblank, hkeep⟩

/-- A line that is blank or sensible in the state that meets it. -/
def SensibleRequest (s : Server) (r : Request) : Prop :=
  r.line.Blank ∨ Sensible s r.line.command

/-- A history of sensible lines never ends in a panic. -/
theorem run_of_sensible {reqs : List Request} (hos : ∀ r ∈ reqs, r.os.Obliging) {s : Server}
    (h : Along step SensibleRequest s reqs) : ∃ t, run step s reqs = some t := by
  induction reqs generalizing s with
  | nil => exact ⟨s, rfl⟩
  | cons r reqs ih =>
      obtain ⟨turn, hturn, -⟩ := (survives_iff (hos r List.mem_cons_self) s).mpr h.1
      have hstep : step s r = some turn.server := step_eq_some.mpr ⟨turn, hturn, rfl⟩
      obtain ⟨t, ht⟩ := ih (fun r' hr' => hos r' (List.mem_cons_of_mem _ hr')) (h.2 _ hstep)
      exact ⟨t, run_cons_eq_some.mpr ⟨_, hstep, ht⟩⟩

/-- Along a history, one condition may be replaced by another that agrees with it. -/
theorem along_survives_iff {reqs : List Request} (hos : ∀ r ∈ reqs, r.os.Obliging) (s : Server) :
    Along step Survives s reqs ↔ Along step SensibleRequest s reqs := by
  induction reqs generalizing s with
  | nil => simp [Along]
  | cons r reqs ih =>
      simp only [Along, survives_iff (hos r List.mem_cons_self), SensibleRequest]
      refine and_congr_right fun _ => forall₂_congr fun t _ => ?_
      exact ih (fun r' hr' => hos r' (List.mem_cons_of_mem _ hr')) t

/-- **Which lines the server survives.** After every history of lines, a further line is survived
exactly if it is blank or sensible; and a history is survived line by line, to its end, exactly
if each of its lines is. -/
theorem serve_survives_iff_sensible (reqs : List Request) (hos : ∀ r ∈ reqs, r.os.Obliging) :
    (∀ s, run step Server.init reqs = some s → ∀ r : Request, r.os.Obliging → ¬ r.line.Blank →
        (Survives s r ↔ Sensible s r.line.command))
      ∧ (Along step Survives Server.init reqs ↔ Along step SensibleRequest Server.init reqs)
      ∧ (Along step SensibleRequest Server.init reqs →
          ∃ s, run step Server.init reqs = some s) := by
  refine ⟨fun s _ r hr hblank => ?_, along_survives_iff hos _, run_of_sensible hos⟩
  rw [survives_iff hr]
  exact or_iff_right hblank

/-- A service is started and stopped; another stop would find nothing to stop. -/
theorem serve_survives_iff_sensible_plain :
    Survives ⟨[], [100]⟩ (plainRequest "fleet stop-one" (by decide))
      ↔ Sensible ⟨[], [100]⟩ .fleetStopOne := by
  have hrun : run step Server.init [plainRequest "fleet start 1 256" (by decide)]
      = some ⟨[], [100]⟩ := by decide
  have hline : (plainRequest "fleet stop-one" (by decide)).line.command = .fleetStopOne := by
    decide
  have h := (serve_survives_iff_sensible [plainRequest "fleet start 1 256" (by decide)]
    (by simp [plainRequest, plainOs_obliging])).1 _ hrun
    (plainRequest "fleet stop-one" (by decide)) plainOs_obliging (by unfold Line.Blank; decide)
  rwa [hline] at h

/-- The server does not survive every line: `touch 0` panics in a mapping of length 0,
`fleet stop-one` panics in the drain of an empty fleet, and `fleet start 2 x` is carried out as if
it were a command. -/
theorem serve_not_survived :
    plainOs.Obliging ∧ ¬ Survives Server.init (plainRequest "touch 0" (by decide))
      ∧ ¬ Survives Server.init (plainRequest "fleet stop-one" (by decide))
      ∧ ¬ Survives Server.init (plainRequest "fleet start 2 x" (by decide)) := by
  have hblank : ∀ r : Request, r.os = plainOs → trim r.line.text ≠ [] →
      ¬ Sensible Server.init r.line.command → ¬ Survives Server.init r := by
    intro r hos hline hsens h
    rcases (survives_iff (hos ▸ plainOs_obliging) _).mp h with hb | hs
    · exact hline hb
    · exact hsens hs
  refine ⟨plainOs_obliging, hblank _ rfl (by decide) ?_, hblank _ rfl (by decide) ?_,
    hblank _ rfl (by decide) ?_⟩
  · have hcmd : (plainRequest "touch 0" (by decide)).line.command = .touch ['0'] := by decide
    rw [hcmd]
    decide
  · have hcmd : (plainRequest "fleet stop-one" (by decide)).line.command = .fleetStopOne := by
      decide
    rw [hcmd]
    decide
  · have hcmd : (plainRequest "fleet start 2 x" (by decide)).line.command
        = .fleetStart (chars "2 x") := by decide
    rw [hcmd]
    decide

end VmRatchet.GuestInit
