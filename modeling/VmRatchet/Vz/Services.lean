import VmRatchet.Vz.Calls

/-!
# What the guest does in a run of the driver

The driver does not look at the numbers in `FLEET-STARTED` and `FLEET-STOPPED`: its marks count its
own loops. Since its exchanges are calls, both counts are the same, and what the guest has forked,
killed, mapped and unmapped is known at every moment.

* `call_start`, `call_stop`, `call_touch`, … — what each exchange does, as a call.
* `FleetRun.step`, `PlainRun.step` — the two scripts, call by call.
* `fleet_of_services` — the services of `--fleet`, at every moment of every run.
* `touched_and_freed` — the memory of the plain run, at every moment of every run.
-/

namespace VmRatchet.Vz

open Text GuestInit Transition

/-! ## The exchanges as calls -/

section Calls

variable {d d' : Direct} {as : List Ask} {c : Option Os}

/-- The direct call of an exchange with the guest is a turn of the server with that text: its events
are logged, and the text heard is in its reply. -/
theorem step_of_guestText {a : Ask} {text : List Char} (hscript : d.script = a :: as)
    (htext : a.guestText = some text) (hstep : d.step c = some d') :
    ∃ os line turn, line.text = text ∧ serve os d.server line = .ok turn
      ∧ d' = ⟨as, turn.server, d.log ++ turn.events,
        d.texts ++ [a.heard turn.output.dropLast]⟩ := by
  rw [Direct.step, hscript] at hstep
  cases c with
  | none => simp [handle_send htext] at hstep
  | some os =>
      have hnl := newline_not_mem_guestText htext
      simp only [handle_send htext, dif_neg hnl] at hstep
      cases hserve : serve os d.server ⟨text, hnl⟩ with
      | error e => simp [hserve] at hstep
      | ok turn =>
          simp only [hserve, Option.some.injEq] at hstep
          exact ⟨os, ⟨text, hnl⟩, turn, rfl, hserve, hstep.symm⟩

/-- The branch of the server that a call runs, and what is heard of its reply. -/
theorem step_of_command {a : Ask} {text : List Char} {command : Command}
    (hscript : d.script = a :: as) (htext : a.guestText = some text)
    (hcommand : a.command = some command) (hstep : d.step c = some d') :
    ∃ os o, exec os d.server command = .ok o
      ∧ d' = ⟨as, o.server, d.log ++ o.events,
        d.texts ++ [a.heard (chars "RATCHET " ++ o.reply)]⟩ := by
  obtain ⟨os, line, turn, rfl, hserve, rfl⟩ := step_of_guestText hscript htext hstep
  obtain ⟨hline, hblank⟩ := command_guestText htext
  obtain ⟨o, hexec, rfl⟩ := (serve_eq_ok hblank).mp hserve
  obtain rfl : command = line.command := Option.some.inj (hcommand.symm.trans hline)
  refine ⟨os, o, hexec, ?_⟩
  rw [replyLine, List.dropLast_concat]

/-- After the expected words and a blank a number is heard as its digits. -/
theorem heard_number (a : Ask) (n : ℕ) : a.heard (a.expect ++ ' ' :: decimal n) = decimal n := by
  have hline : readerLine (a.expect ++ ' ' :: decimal n ++ [])
      = a.expect ++ ' ' :: decimal n := readerLine_append (last_append_decimal _ n) false
  rw [List.append_nil] at hline
  rw [heard_expected hline, trim_blank_decimal]

/-- A reply that consists of the expected words, a blank and a number is heard as the digits of the
number. -/
theorem heard_reply {a : Ask} {start word : List Char} (h : start ++ word = a.expect ++ [' '])
    (n : ℕ) : a.heard (start ++ (word ++ decimal n)) = decimal n := by
  rw [← List.append_assoc, h, List.append_assoc, List.singleton_append, heard_number]

/-- The working set in the words of `fleet start 1 M` is `M`. -/
theorem startMib_one {mib : ℕ} (h : mib < 2 ^ 64) : startMib (chars "1 " ++ decimal mib) = mib := by
  have hwords : splitWhitespace (chars "1 " ++ decimal mib) = [chars "1", decimal mib] := by
    apply splitWhitespace_two (s := chars "1") (x := ' ') (by decide)
      (forall_mem_of_all (by decide)) (by decide)
    · exact fun _ hc => isWhitespace_of_mem_decimal hc
    · exact decimal_ne_nil mib
  rw [startMib, hwords, List.tail_cons, nextNumber, parse_decimal h, Option.getD_some]

/-- `fleet start 1 M` forks one child with the working set `M`, and the driver hears how many there
are. -/
theorem call_start {mib : ℕ} (hmib : mib < 2 ^ 64) (hscript : d.script = .fleetStart mib :: as)
    (hstep : d.step c = some d') :
    ∃ pid, d' = ⟨as, { d.server with fleet := d.server.fleet ++ [pid] },
      d.log ++ [.fork pid mib], d.texts ++ [decimal (d.server.fleet.length + 1)]⟩ := by
  obtain ⟨os, o, hexec, rfl⟩ := step_of_command hscript rfl rfl hstep
  obtain ⟨pids, hpids, rfl⟩ := fleetStart_eq_ok.mp hexec
  obtain ⟨pid, rfl⟩ : ∃ pid, pids = [pid] := by
    rw [startCount_one, List.range_one, List.mapM_cons, List.mapM_nil] at hpids
    cases hfork : os.fork 0 with
    | none => simp [hfork] at hpids
    | some pid =>
        simp only [hfork, Option.pure_def, Option.bind_eq_bind, Option.bind_some,
          Option.some.injEq] at hpids
        exact ⟨pid, hpids.symm⟩
  refine ⟨pid, ?_⟩
  have hwords : chars "RATCHET " ++ chars "FLEET-STARTED "
      = (Ask.fleetStart mib).expect ++ [' '] := rfl
  rw [startMib_one hmib, List.length_append, List.length_singleton, heard_reply hwords]
  rfl

/-- `fleet stop-one` kills and reaps the oldest child, and the driver hears how many are left. -/
theorem call_stop (hscript : d.script = .fleetStopOne :: as) (hstep : d.step c = some d') :
    ∃ pid rest, d.server.fleet = pid :: rest ∧ d' = ⟨as, { d.server with fleet := rest },
      d.log ++ [.kill pid, .waitpid pid], d.texts ++ [decimal rest.length]⟩ := by
  obtain ⟨os, o, hexec, rfl⟩ := step_of_command hscript rfl rfl hstep
  obtain ⟨hle, rfl⟩ := fleetDrain_eq_ok.mp hexec
  cases hfleet : d.server.fleet with
  | nil => simp [hfleet] at hle
  | cons pid rest =>
      have hwords : chars "RATCHET " ++ chars "FLEET-STOPPED "
          = Ask.fleetStopOne.expect ++ [' '] := by decide
      refine ⟨pid, rest, rfl, ?_⟩
      rw [heard_reply hwords]
      rfl

/-- `touch N` maps N GiB (modulo `2 ^ 64` bytes) and dirties the mapping. -/
theorem call_touch {gib : ℕ} (hgib : gib < 2 ^ 64) (hscript : d.script = .touch gib :: as)
    (hstep : d.step c = some d') :
    ∃ m : Mapping, m.size = gib * 2 ^ 30 % 2 ^ 64
      ∧ d' = ⟨as, { d.server with held := d.server.held ++ [m] },
        d.log ++ [.mmap m, .dirty m], d.texts ++ [decimal gib]⟩ := by
  obtain ⟨os, o, hexec, rfl⟩ := step_of_command hscript rfl rfl hstep
  obtain ⟨ptr, -, rfl⟩ := touch_eq_ok.mp hexec
  have htouch : touchGib (decimal gib) = gib := by
    rw [touchGib, trim_of_trimmed (trimmed_decimal gib), parse_decimal hgib, Option.getD_some]
  have hwords : chars "RATCHET " ++ chars "TOUCHED " = (Ask.touch gib).expect ++ [' '] := rfl
  refine ⟨⟨ptr, touchSize (decimal gib)⟩, ?_, ?_⟩
  · rw [touchSize, htouch, gibBytes]
  · rw [htouch, heard_reply hwords]

/-- `free` unmaps everything that is held. -/
theorem call_free (hscript : d.script = .free :: as) (hstep : d.step c = some d') :
    d' = ⟨as, { d.server with held := [] }, d.log ++ d.server.held.map .munmap,
      d.texts ++ [[]]⟩ := by
  obtain ⟨os, o, hexec, rfl⟩ := step_of_command hscript rfl rfl hstep
  cases hexec
  have hheard : Ask.free.heard (chars "RATCHET " ++ chars "FREED") = [] := by decide
  exact congrArg (Direct.mk _ _ _ <| d.texts ++ [·]) hheard

/-- `mem` reads a number and changes nothing in the guest. -/
theorem call_mem (hscript : d.script = .mem :: as) (hstep : d.step c = some d') :
    ∃ kib, d' = { d with script := as, texts := d.texts ++ [decimal kib] } := by
  obtain ⟨os, o, hexec, rfl⟩ := step_of_command hscript rfl rfl hstep
  obtain ⟨kib, -, rfl⟩ := mem_eq_ok.mp hexec
  have hwords : chars "RATCHET " ++ chars "MEM " = Ask.mem.expect ++ [' '] := by decide
  refine ⟨kib, ?_⟩
  rw [List.append_nil, heard_reply hwords]

/-- The balloon is the harness's business: the call repeats the target, and the guest's server does
nothing. -/
theorem call_balloon {mib : ℕ} (hmib : mib < 2 ^ 64) (hscript : d.script = .balloon mib :: as)
    (hstep : d.step c = some d') :
    d' = { d with script := as, texts := d.texts ++ [decimal mib] } := by
  have hemit := handle_send_balloon hmib
  rw [Direct.step, hscript] at hstep
  cases c with
  | some os => simp [hemit] at hstep
  | none =>
      simp only [hemit, Option.some.injEq] at hstep
      have hwords : chars "HARNESS " ++ chars "balloon-target "
          = (Ask.balloon mib).expect ++ [' '] := rfl
      rw [← hstep, eventLine, List.dropLast_concat, heard_reply hwords]

end Calls

/-! ## The services, call by call -/

/-- What the driver hears in the fleet run: the guest counts up to the number of services and down
again, and the harness repeats the target. -/
def fleetTexts (services target : ℕ) : List (List Char) :=
  (List.range services).map (fun i => decimal (i + 1))
    ++ (List.range services).map (fun i => decimal (services - (i + 1))) ++ [decimal target]

/-- The target of the balloon in the fleet run.
Source: `crates/vz-ratchet/src/fleet.rs`, `run` (`target_mib`) -/
def fleetTarget (services serviceMib guestGb : UInt64) : ℕ :=
  (guestGb * 1024 - services * serviceMib).toNat

section FleetRun

variable {services serviceMib guestGb : UInt64} {d d' : Direct}

/-- The exchanges of the fleet run and what is heard in them. -/
theorem fleetScript_getElem? {j : ℕ} {a : Ask}
    (h : (fleetScript services serviceMib guestGb)[j]? = some a) :
    (j < services.toNat ∧ a = .fleetStart serviceMib.toNat
        ∧ (fleetTexts services.toNat (fleetTarget services serviceMib guestGb))[j]?
          = some (decimal (j + 1)))
      ∨ (services.toNat ≤ j ∧ j < 2 * services.toNat ∧ a = .fleetStopOne
        ∧ (fleetTexts services.toNat (fleetTarget services serviceMib guestGb))[j]?
          = some (decimal (2 * services.toNat - (j + 1))))
      ∨ (j = 2 * services.toNat ∧ a = .balloon (fleetTarget services serviceMib guestGb)
        ∧ (fleetTexts services.toNat (fleetTarget services serviceMib guestGb))[j]?
          = some (decimal (fleetTarget services serviceMib guestGb))) := by
  generalize hn : services.toNat = n
  rw [fleetScript, hn, List.append_assoc] at h
  rw [fleetTexts, List.append_assoc]
  have hup : ((List.range n).map fun i => decimal (i + 1)).length = n := by simp
  have hdown : ((List.range n).map fun i => decimal (n - (i + 1))).length = n := by simp
  by_cases hstart : j < n
  · rw [List.getElem?_append_left (by simpa using hstart), List.getElem?_replicate,
      if_pos hstart, Option.some.injEq] at h
    refine .inl ⟨hstart, h.symm, ?_⟩
    rw [List.getElem?_append_left (by rw [hup]; exact hstart)]
    simp [hstart]
  · rw [List.getElem?_append_right (by simpa using hstart), List.length_replicate] at h
    rw [List.getElem?_append_right (by rw [hup]; omega), hup]
    by_cases hstop : j - n < n
    · rw [List.getElem?_append_left (by simpa using hstop), List.getElem?_replicate,
        if_pos hstop, Option.some.injEq] at h
      refine .inr (.inl ⟨by omega, by omega, h.symm, ?_⟩)
      rw [List.getElem?_append_left (by rw [hdown]; exact hstop)]
      have hcount : n - (j - n + 1) = 2 * n - (j + 1) := by omega
      simp [hstop, hcount]
    · rw [List.getElem?_append_right (by simpa using hstop), List.length_replicate] at h
      rw [List.getElem?_append_right (by rw [hdown]; omega), hdown]
      obtain ⟨hlast, ha⟩ : j - n - n = 0 ∧ .balloon (fleetTarget services serviceMib guestGb) = a :=
        by simpa [fleetTarget, List.getElem?_singleton] using h
      refine .inr (.inr ⟨by omega, ha.symm, ?_⟩)
      rw [hlast]
      rfl

/-- Where the fleet run stands after a number of calls: so many services have been started, and so
many of them stopped, oldest first. -/
structure FleetRun (services serviceMib guestGb : UInt64) (j : ℕ) (d : Direct) : Prop where
  /-- Every call was an exchange. -/
  bound : j ≤ 2 * services.toNat + 1
  /-- The exchanges to come. -/
  script : d.script = (fleetScript services serviceMib guestGb).drop j
  /-- What has been heard. -/
  texts : d.texts = (fleetTexts services.toNat (fleetTarget services serviceMib guestGb)).take j
  /-- The services that were started. -/
  forked : (forked d.log).length = min j services.toNat
  /-- Those that were killed. -/
  killed : killed d.log = (GuestInit.forked d.log).take (j - services.toNat)
  /-- Those that were reaped. -/
  reaped : reaped d.log = (GuestInit.forked d.log).take (j - services.toNat)
  /-- Those that are left. -/
  fleet : d.server.fleet = (GuestInit.forked d.log).drop (j - services.toNat)
  /-- The working set of each. -/
  mib : ∀ pid mib, .fork pid mib ∈ d.log → mib = serviceMib.toNat

/-- Before the first service nothing was forked, killed or heard. -/
theorem FleetRun.init :
    FleetRun services serviceMib guestGb 0 (.init (fleetScript services serviceMib guestGb)) where
  bound := Nat.zero_le _
  script := rfl
  texts := rfl
  forked := (Nat.zero_min _).symm
  killed := by simp [Direct.init, GuestInit.killed, GuestInit.forked]
  reaped := by simp [Direct.init, GuestInit.reaped, GuestInit.forked]
  fleet := by simp [Direct.init, Server.init, GuestInit.forked]
  mib := by simp [Direct.init]

/-- **One more call** of the fleet run starts the next service, or stops the oldest one, or sets the
balloon, whichever is due by the place in the script. What has been forked, killed and reaped, and
what the driver has heard, is then as it should be at the next place. -/
theorem FleetRun.step {j : ℕ} {c : Option Os} (h : FleetRun services serviceMib guestGb j d)
    (hstep : d.step c = some d') : FleetRun services serviceMib guestGb (j + 1) d' := by
  cases hscript : d.script with
  | nil => simp [Direct.step, hscript] at hstep
  | cons a as =>
      have hdrop := h.script.symm.trans hscript
      have hget : (fleetScript services serviceMib guestGb)[j]? = some a := by
        rw [← List.head?_drop, hdrop, List.head?_cons]
      have has : as = (fleetScript services serviceMib guestGb).drop (j + 1) :=
        drop_succ_of_cons hdrop.symm
      rcases fleetScript_getElem? hget with ⟨hj, rfl, htext⟩ | ⟨hge, hj, rfl, htext⟩ |
        ⟨hj, rfl, htext⟩
      · -- A service is started: nothing has been stopped yet.
        obtain ⟨pid, rfl⟩ := call_start (UInt64.toNat_lt _) hscript hstep
        have hnone : j - services.toNat = 0 := by omega
        have hnone' : j + 1 - services.toNat = 0 := by omega
        have hfleet := h.fleet
        rw [hnone, List.drop_zero] at hfleet
        have hlen : d.server.fleet.length = j := by
          rw [hfleet, h.forked]
          omega
        refine ⟨by omega, has, ?_, ?_, ?_, ?_, ?_, ?_⟩
        · rw [List.take_add_one, htext, h.texts, hlen]
          rfl
        · simp only [GuestInit.forked, List.filterMap_append, List.length_append]
          rw [← GuestInit.forked, h.forked]
          simp
          omega
        · have hkilled := h.killed
          rw [hnone, List.take_zero] at hkilled
          rw [hnone', List.take_zero, GuestInit.killed, List.filterMap_append, ← GuestInit.killed,
            hkilled]
          rfl
        · have hreaped := h.reaped
          rw [hnone, List.take_zero] at hreaped
          rw [hnone', List.take_zero, GuestInit.reaped, List.filterMap_append, ← GuestInit.reaped,
            hreaped]
          rfl
        · rw [hnone', List.drop_zero, GuestInit.forked, List.filterMap_append, ← GuestInit.forked,
            hfleet]
          rfl
        · intro pid' mib hmem
          rcases List.mem_append.mp hmem with hold | hnew
          · exact h.mib pid' mib hold
          · exact (Event.fork.inj (List.mem_singleton.mp hnew)).2
      · -- The oldest service that is left is stopped.
        obtain ⟨pid, rest, hfleet, rfl⟩ := call_stop hscript hstep
        have hnext : j + 1 - services.toNat = j - services.toNat + 1 := by omega
        have hdropped := h.fleet.symm.trans hfleet
        have hlen := h.forked
        have hpid : (GuestInit.forked d.log)[j - services.toNat]? = some pid := by
          rw [← List.head?_drop, hdropped, List.head?_cons]
        have hrest : rest = (GuestInit.forked d.log).drop (j - services.toNat + 1) := by
          rw [← List.tail_drop, hdropped, List.tail_cons]
        have hforked : GuestInit.forked (d.log ++ [.kill pid, .waitpid pid])
            = GuestInit.forked d.log := by
          simp [GuestInit.forked]
        refine ⟨by omega, has, ?_, ?_, ?_, ?_, ?_, ?_⟩
        · have hcount : rest.length = 2 * services.toNat - (j + 1) := by
            rw [hrest, List.length_drop, hlen]
            omega
          rw [List.take_add_one, htext, h.texts, hcount]
          rfl
        · rw [hforked, hlen]
          omega
        · rw [hforked, hnext, List.take_add_one, hpid, ← h.killed, GuestInit.killed,
            List.filterMap_append]
          rfl
        · rw [hforked, hnext, List.take_add_one, hpid, ← h.reaped, GuestInit.reaped,
            List.filterMap_append]
          rfl
        · rw [hforked, hnext]
          exact hrest
        · intro pid' mib hmem
          exact h.mib pid' mib (by simpa using hmem)
      · -- Every service has been stopped.
        rw [call_balloon (UInt64.toNat_lt _) hscript hstep]
        have hlen : (GuestInit.forked d.log).length = services.toNat := by
          rw [h.forked]
          omega
        have hall : (GuestInit.forked d.log).length ≤ j - services.toNat := by omega
        have hall' : (GuestInit.forked d.log).length ≤ j + 1 - services.toNat := by omega
        refine ⟨by omega, has, ?_, ?_, ?_, ?_, ?_, h.mib⟩
        · rw [List.take_add_one, htext, h.texts]
          rfl
        · rw [hlen]
          omega
        · rw [h.killed, List.take_of_length_le hall, List.take_of_length_le hall']
        · rw [h.reaped, List.take_of_length_le hall, List.take_of_length_le hall']
        · rw [h.fleet, List.drop_of_length_le hall, List.drop_of_length_le hall']

end FleetRun

/-! ## The memory of the plain run, call by call -/

/-- What is heard in an exchange of the plain run. -/
def Answers : Ask → List Char → Prop
  | .touch gib, text => text = decimal gib
  | .free, text => text = []
  | .mem, text => ∃ kib, text = decimal kib
  | .balloon mib, text => text = decimal mib
  | .fleetStart _, text | .fleetStopOne, text => ∃ n, text = decimal n

/-- What the guest holds, and has done, after a number of calls: one mapping is made, dirtied and
unmapped, and nothing else. -/
inductive Holding (size : ℕ) : ℕ → List Mapping → List Event → Prop
  | untouched : Holding size 0 [] []
  | touched (m : Mapping) (hm : m.size = size) : Holding size 1 [m] [.mmap m, .dirty m]
  | freed (m : Mapping) (hm : m.size = size) (j : ℕ) :
      Holding size (j + 2) [] [.mmap m, .dirty m, .munmap m]

section PlainRun

variable {touchGb guestGb : UInt64} {polls : ℕ} {d d' : Direct}

/-- Where the plain run stands after a number of calls. -/
structure PlainRun (touchGb guestGb : UInt64) (polls j : ℕ) (d : Direct) : Prop where
  /-- Every call was an exchange. -/
  bound : j ≤ polls + 4
  /-- The exchanges to come. -/
  script : d.script = (mainScript touchGb guestGb polls).drop j
  /-- What has been heard. -/
  texts : List.Forall₂ Answers ((mainScript touchGb guestGb polls).take j) d.texts
  /-- The mapping. -/
  holding : Holding (touchGb.toNat * 2 ^ 30 % 2 ^ 64) j d.server.held d.log

/-- The exchanges of the plain run, by their place: `touch`, `free`, `mem`, the balloon, and then
the polls. -/
theorem mainScript_getElem? {j : ℕ} {a : Ask}
    (h : (mainScript touchGb guestGb polls)[j]? = some a) :
    (j = 0 ∧ a = .touch touchGb.toNat) ∨ (j = 1 ∧ a = .free) ∨ (j = 2 ∧ a = .mem)
      ∨ (j = 3 ∧ a = .balloon ((guestGb - touchGb) * 1024).toNat)
      ∨ (4 ≤ j ∧ j < polls + 4 ∧ a = .mem) := by
  rw [mainScript] at h
  rcases j with _ | _ | _ | _ | j
  · exact .inl ⟨rfl, (Option.some.inj h).symm⟩
  · exact .inr (.inl ⟨rfl, (Option.some.inj h).symm⟩)
  · exact .inr (.inr (.inl ⟨rfl, (Option.some.inj h).symm⟩))
  · exact .inr (.inr (.inr (.inl ⟨rfl, (Option.some.inj h).symm⟩)))
  · have hpoll : (List.replicate polls Ask.mem)[j]? = some a := h
    rw [List.getElem?_replicate] at hpoll
    split at hpoll
    · exact .inr (.inr (.inr (.inr ⟨by omega, by omega, (Option.some.inj hpoll).symm⟩)))
    · cases hpoll

/-- Before `touch` nothing is held and nothing was heard. -/
theorem PlainRun.init :
    PlainRun touchGb guestGb polls 0 (.init (mainScript touchGb guestGb polls)) where
  bound := Nat.zero_le _
  script := rfl
  texts := .nil
  holding := .untouched

/-- One more answer to the exchange whose turn it is. -/
theorem answers_take {script : List Ask} {j : ℕ} {a : Ask} {texts : List (List Char)}
    {text : List Char} (hget : script[j]? = some a)
    (h : List.Forall₂ Answers (script.take j) texts) (ha : Answers a text) :
    List.Forall₂ Answers (script.take (j + 1)) (texts ++ [text]) := by
  rw [List.take_add_one, hget]
  exact List.rel_append h (.cons ha .nil)

/-- Nothing more is held after `free`, and nothing more is mapped. -/
theorem Holding.later {size j : ℕ} {held : List Mapping} {log : List Event}
    (h : Holding size j held log) (hj : 2 ≤ j) : Holding size (j + 1) held log := by
  cases h with
  | untouched => omega
  | touched m hm => omega
  | freed m hm j => exact .freed m hm (j + 1)

/-- **One more call** of the plain run is answered, and what the guest holds is as the place in the
run says. -/
theorem PlainRun.step {j : ℕ} {c : Option Os} (h : PlainRun touchGb guestGb polls j d)
    (hstep : d.step c = some d') : PlainRun touchGb guestGb polls (j + 1) d' := by
  cases hscript : d.script with
  | nil => simp [Direct.step, hscript] at hstep
  | cons a as =>
      have hdrop := h.script.symm.trans hscript
      have hget : (mainScript touchGb guestGb polls)[j]? = some a := by
        rw [← List.head?_drop, hdrop, List.head?_cons]
      have has : as = (mainScript touchGb guestGb polls).drop (j + 1) :=
        drop_succ_of_cons hdrop.symm
      have hholding := h.holding
      rcases mainScript_getElem? hget with ⟨rfl, rfl⟩ | ⟨rfl, rfl⟩ | ⟨rfl, rfl⟩ | ⟨rfl, rfl⟩ |
        ⟨hge, hlt, rfl⟩
      · obtain ⟨m, hm, rfl⟩ := call_touch (UInt64.toNat_lt _) hscript hstep
        refine ⟨by omega, has, answers_take hget h.texts rfl, ?_⟩
        generalize hheld : d.server.held = held at hholding
        generalize hlog : d.log = log at hholding
        cases hholding
        exact .touched m hm
      · rw [call_free hscript hstep]
        refine ⟨by omega, has, answers_take hget h.texts rfl, ?_⟩
        generalize hheld : d.server.held = held at hholding
        generalize hlog : d.log = log at hholding
        cases hholding with
        | touched m hm => exact .freed m hm 0
      · obtain ⟨kib, rfl⟩ := call_mem hscript hstep
        exact ⟨by omega, has, answers_take hget h.texts ⟨kib, rfl⟩, hholding.later (by omega)⟩
      · rw [call_balloon (UInt64.toNat_lt _) hscript hstep]
        exact ⟨by omega, has, answers_take hget h.texts rfl, hholding.later (by omega)⟩
      · obtain ⟨kib, rfl⟩ := call_mem hscript hstep
        exact ⟨by omega, has, answers_take hget h.texts ⟨kib, rfl⟩, hholding.later (by omega)⟩

end PlainRun

/-! ## Whole runs -/

/-- What the surroundings owe: lines that come in between belong to neither protocol, and the kernel
keeps its promises. -/
def Ordinary (w : Whole) (x : Happening) : Prop :=
  Undisturbed w x ∧ match x with
    | .act a => Along System.step GrantedMove w.guest (w.link.moves a)
    | .exit _ => True

section Runs

variable {w w' : Whole}

/-- The guest's move is ordinary if the kernel keeps its promises to the server. -/
theorem Ordinary.guest {os : Os} {cr : Bool} {k : ℕ} {line : Line} {later : List (ℕ × List Char)}
    {turn : Turn} (hqueue : w.link.toGuest = (k, line.text) :: later)
    (hserve : serve os w.guest.server line = .ok turn)
    (hgrant : Along Kernel.step Granted w.guest.kernel turn.events) :
    Ordinary w (.act (.guest os cr)) := by
  have hmoves : w.link.moves (.guest os cr) = [.serve ⟨os, line⟩] := by
    rw [Link.moves, hqueue]
    exact dif_neg line.noNewline
  refine ⟨trivial, ?_⟩
  show Along System.step GrantedMove w.guest (w.link.moves (.guest os cr))
  rw [hmoves]
  refine ⟨fun turn' hturn => ?_, fun _ _ => trivial⟩
  rw [hserve, Except.ok.injEq] at hturn
  exact hturn ▸ hgrant

/-- One step keeps the books of the guest's kernel. -/
theorem books_step {x : Happening} (hx : Ordinary w x) (h : Books w.guest)
    (hstep : w.step x = some w') : Books w'.guest := by
  cases x with
  | act a =>
      obtain ⟨link, guest, -, hguest, rfl⟩ := step_act_eq_some.mp hstep
      exact run_invariant Books.step hx.2 h hguest
  | exit pid =>
      cases hstep
      exact h.step w.guest (.exit pid) _ trivial rfl

/-- After a run: the calls it amounts to, the books, and how many answers are on their way. -/
theorem Program.calls_of_run (p : Program) {happened : List Happening}
    (hord : Along Whole.step Ordinary (Whole.init p.script) happened)
    (hrun : run Whole.step (Whole.init p.script) happened = some w) :
    (∃ cs, run Direct.step (.init p.script) cs = some w.direct)
      ∧ Coherent p.script w ∧ Books w.guest ∧ w.link.coming.length ≤ 1 := by
  have hquiet := hord.mono fun _ _ h => h.1
  have hcoherent := p.coherent hquiet hrun
  refine ⟨⟨_, p.direct_of_run hquiet hrun⟩, hcoherent, ?_, length_coming_le hcoherent.inStep⟩
  exact run_invariant (fun _ _ _ hx h hstep => books_step hx h hstep) hord books_init hrun

/-- A driver that has sent `quit` has completed its script. -/
theorem Coherent.done {script : List Ask} (h : Coherent script w) (hdone : w.link.phase = .done) :
    script.length ≤ w.link.returned.length := by
  cases h.inStep.flight with
  | finished _ _ _ _ _ rest => exact rest
  | idle _ phase =>
      rw [phase] at hdone
      cases hdone
  | asked _ _ phase =>
      rw [phase] at hdone
      cases hdone
  | forwarded _ _ _ phase =>
      rw [phase] at hdone
      cases hdone
  | answered _ _ _ _ _ _ phase =>
      rw [phase] at hdone
      cases hdone

/-- **The services of the fleet run.** At every moment of every run of the three programs, with
children of the guest exiting at any time: what the driver has heard is the guest counting the
services up and down again, so that its own marks agree with it; `j` exchanges have been served,
all that have been answered and at most one more, the first `services` of them have forked one
child each with the given working set, and every other one has killed and reaped the oldest that
was left. When the driver is done, no child is left. -/
theorem fleet_of_services (services serviceMib guestGb : UInt64) {happened : List Happening}
    (hord : Along Whole.step Ordinary
      (Whole.init (Program.fleet services serviceMib guestGb).script) happened)
    (hrun : run Whole.step (Whole.init (Program.fleet services serviceMib guestGb).script) happened
      = some w) :
    w.link.returned.map Prod.snd
        <+: fleetTexts services.toNat (fleetTarget services serviceMib guestGb)
      ∧ ∃ j, w.link.returned.length ≤ j ∧ j ≤ w.link.returned.length + 1
        ∧ (forked w.guest.log).length = min j services.toNat
        ∧ (∀ pid mib, .fork pid mib ∈ w.guest.log → mib = serviceMib.toNat)
        ∧ killed w.guest.log = (forked w.guest.log).take (j - services.toNat)
        ∧ reaped w.guest.log = (forked w.guest.log).take (j - services.toNat)
        ∧ w.guest.kernel.children = (forked w.guest.log).drop (j - services.toNat)
        ∧ (w.link.phase = .done → (forked w.guest.log).length = services.toNat
          ∧ killed w.guest.log = forked w.guest.log ∧ w.guest.kernel.children = []) := by
  obtain ⟨⟨cs, hcs⟩, hcoherent, hbooks, hone⟩ := Program.calls_of_run _ hord hrun
  have h : FleetRun services serviceMib guestGb (0 + cs.length) w.direct :=
    run_counted (fun _ _ _ _ h hstep => h.step hstep) .init hcs
  rw [Nat.zero_add] at h
  have htexts : w.link.returned.map Prod.snd ++ w.link.coming
      = (fleetTexts services.toNat (fleetTarget services serviceMib guestGb)).take cs.length :=
    h.texts
  have hlen : w.link.returned.length + w.link.coming.length = cs.length := by
    have hsum := congrArg List.length htexts
    have hbound := h.bound
    simp only [List.length_append, List.length_map, List.length_take, fleetTexts,
      List.length_range, List.length_singleton] at hsum
    omega
  have hchildren : w.guest.kernel.children
      = (forked w.guest.log).drop (cs.length - services.toNat) :=
    hbooks.agree.children.trans h.fleet
  refine ⟨?_, cs.length, by omega, by omega, h.forked, h.mib, h.killed, h.reaped, hchildren, ?_⟩
  · exact (List.prefix_append _ _).trans (htexts ▸ List.take_prefix _ _)
  · intro hdone
    have hscript := hcoherent.done hdone
    have hall : (Program.fleet services serviceMib guestGb).script.length
        = 2 * services.toNat + 1 := by
      simp only [Program.script, fleetScript, List.length_append, List.length_replicate,
        List.length_singleton]
      omega
    have hforked : (forked w.direct.log).length = services.toNat := by
      rw [h.forked]
      omega
    have hend : (forked w.direct.log).length ≤ cs.length - services.toNat := by omega
    exact ⟨hforked, h.killed.trans (List.take_of_length_le hend),
      hchildren.trans (List.drop_of_length_le hend)⟩

/-- The only service is started, exits before the driver has heard of it, and is stopped: it is
killed and reaped all the same, and no child is left. -/
theorem fleet_of_services_exit :
    ∃ w, run Whole.step (Whole.init (Program.fleet 1 256 6).script)
        [.act .driver, .act (.harness false), .act (.guest plainOs true), .exit 100,
          .act .driver, .act .driver, .act (.harness false), .act (.guest plainOs false),
          .act .driver] = some w
      ∧ w.link.returned.map Prod.snd <+: fleetTexts 1 (fleetTarget 1 256 6)
      ∧ w.link.returned.length = 2
      ∧ killed w.guest.log = forked w.guest.log ∧ w.guest.kernel.children = [] := by
  obtain ⟨w, hw, hlen⟩ : ∃ w, run Whole.step (Whole.init (Program.fleet 1 256 6).script)
      [.act .driver, .act (.harness false), .act (.guest plainOs true), .exit 100,
        .act .driver, .act .driver, .act (.harness false), .act (.guest plainOs false),
        .act .driver] = some w ∧ w.link.returned.length = 2 := ⟨_, rfl, rfl⟩
  have hstart : serve plainOs Server.init ⟨chars "fleet start 1 256", by decide⟩
      = .ok ⟨⟨[], [100]⟩, [.fork 100 256], chars "RATCHET FLEET-STARTED 1\n"⟩ := by decide
  have hstop : serve plainOs ⟨[], [100]⟩ ⟨chars "fleet stop-one", by decide⟩
      = .ok ⟨⟨[], []⟩, [.kill 100, .waitpid 100], chars "RATCHET FLEET-STOPPED 0\n"⟩ := by decide
  have hord : Along Whole.step Ordinary (Whole.init (Program.fleet 1 256 6).script)
      [.act .driver, .act (.harness false), .act (.guest plainOs true), .exit 100,
        .act .driver, .act .driver, .act (.harness false), .act (.guest plainOs false),
        .act .driver] := by
    refine .cons ⟨trivial, trivial⟩ rfl <| .cons ⟨trivial, trivial⟩ rfl <|
      .cons (Ordinary.guest rfl hstart ⟨List.not_mem_nil, fun _ _ => trivial⟩) rfl <|
      .cons ⟨trivial, trivial⟩ rfl <| .cons ⟨trivial, trivial⟩ rfl <|
      .cons ⟨trivial, trivial⟩ rfl <| .cons ⟨trivial, trivial⟩ rfl <|
      .cons (Ordinary.guest rfl hstop ?_) rfl <| .cons ⟨trivial, trivial⟩ rfl trivial
    exact ⟨trivial, fun _ _ => ⟨trivial, fun _ _ => trivial⟩⟩
  obtain ⟨htexts, j, hj, -, hforked, -, hkilled, -, hchildren, -⟩ :=
    fleet_of_services 1 256 6 hord hw
  -- the second exchange has been served, so the only child has been stopped
  have hone : (1 : UInt64).toNat = 1 := rfl
  have hend : (forked w.guest.log).length ≤ j - (1 : UInt64).toNat := by omega
  exact ⟨w, hw, htexts, hlen, hkilled.trans (List.take_of_length_le hend),
    hchildren.trans (List.drop_of_length_le hend)⟩

/-- **The memory of the plain run.** At every moment of every run of the three programs: what the
driver has heard answers its commands; the guest has mapped and dirtied the size it was told to,
once, and has unmapped it once as soon as `free` is served, and there is nothing else that it has
asked of the kernel. So nothing of it is live when the balloon inflates, or at any poll. -/
theorem touched_and_freed (touchGb guestGb : UInt64) (polls : ℕ) {happened : List Happening}
    (hord : Along Whole.step Ordinary
      (Whole.init (Program.plain touchGb guestGb polls).script) happened)
    (hrun : run Whole.step (Whole.init (Program.plain touchGb guestGb polls).script) happened
      = some w) :
    List.Forall₂ Answers ((mainScript touchGb guestGb polls).take w.link.returned.length)
        (w.link.returned.map Prod.snd)
      ∧ ∃ j, w.link.returned.length ≤ j ∧ j ≤ w.link.returned.length + 1
        ∧ Holding (touchGb.toNat * 2 ^ 30 % 2 ^ 64) j w.guest.kernel.live w.guest.log := by
  obtain ⟨⟨cs, hcs⟩, hcoherent, hbooks, hone⟩ := Program.calls_of_run _ hord hrun
  have h : PlainRun touchGb guestGb polls (0 + cs.length) w.direct :=
    run_counted (fun _ _ _ _ h hstep => h.step hstep) .init hcs
  rw [Nat.zero_add] at h
  have htexts : List.Forall₂ Answers ((mainScript touchGb guestGb polls).take cs.length)
      (w.link.returned.map Prod.snd ++ w.link.coming) := h.texts
  have hlen : w.link.returned.length + w.link.coming.length = cs.length := by
    have hsum := htexts.length_eq
    have hbound := h.bound
    simp only [List.length_append, List.length_map, List.length_take, mainScript,
      List.length_cons, List.length_nil, List.length_replicate] at hsum
    omega
  refine ⟨?_, cs.length, by omega, by omega, ?_⟩
  · have hfirst := List.forall₂_take w.link.returned.length htexts
    rw [List.take_take, Nat.min_eq_left (by omega), List.take_left' (by simp)] at hfirst
    exact hfirst
  · rw [hbooks.agree.live]
    exact h.holding

/-- One GiB is touched, reported before a line of the kernel log, and freed: nothing of it is live
afterwards. -/
theorem touched_and_freed_one :
    ∃ w, run Whole.step (Whole.init (Program.plain 1 2 0).script)
        [.act .driver, .act (.harness false), .act (.guest plainOs false),
          .act (.noise (chars "[    9.0] oom")), .act .driver, .act .driver,
          .act (.harness false), .act (.guest plainOs true), .act .driver, .act .driver] = some w
      ∧ w.link.returned.length = 2 ∧ w.guest.kernel.live = []
      ∧ ∃ j, Holding (2 ^ 30 % 2 ^ 64) j w.guest.kernel.live w.guest.log := by
  obtain ⟨w, hw, hlen⟩ : ∃ w, run Whole.step (Whole.init (Program.plain 1 2 0).script)
      [.act .driver, .act (.harness false), .act (.guest plainOs false),
        .act (.noise (chars "[    9.0] oom")), .act .driver, .act .driver,
        .act (.harness false), .act (.guest plainOs true), .act .driver, .act .driver] = some w
      ∧ w.link.returned.length = 2 := ⟨_, rfl, rfl⟩
  have htouch : serve plainOs Server.init ⟨chars "touch 1", by decide⟩
      = .ok ⟨⟨[⟨0x1000, 2 ^ 30⟩], []⟩, [.mmap ⟨0x1000, 2 ^ 30⟩, .dirty ⟨0x1000, 2 ^ 30⟩],
        chars "RATCHET TOUCHED 1\n"⟩ := by decide
  have hfree : serve plainOs ⟨[⟨0x1000, 2 ^ 30⟩], []⟩ ⟨chars "free", by decide⟩
      = .ok ⟨Server.init, [.munmap ⟨0x1000, 2 ^ 30⟩], chars "RATCHET FREED\n"⟩ := by decide
  have hord : Along Whole.step Ordinary (Whole.init (Program.plain 1 2 0).script)
      [.act .driver, .act (.harness false), .act (.guest plainOs false),
        .act (.noise (chars "[    9.0] oom")), .act .driver, .act .driver,
        .act (.harness false), .act (.guest plainOs true), .act .driver, .act .driver] := by
    refine .cons ⟨trivial, trivial⟩ rfl <| .cons ⟨trivial, trivial⟩ rfl <|
      .cons (Ordinary.guest rfl htouch ?_) rfl <|
      .cons ⟨⟨by decide, by decide⟩, trivial⟩ rfl <| .cons ⟨trivial, trivial⟩ rfl <|
      .cons ⟨trivial, trivial⟩ rfl <| .cons ⟨trivial, trivial⟩ rfl <|
      .cons (Ordinary.guest rfl hfree ⟨trivial, fun _ _ => trivial⟩) rfl <|
      .cons ⟨trivial, trivial⟩ rfl <| .cons ⟨trivial, trivial⟩ rfl trivial
    exact ⟨⟨by norm_num, fun _ hm => absurd hm List.not_mem_nil⟩,
      fun _ _ => ⟨trivial, fun _ _ => trivial⟩⟩
  obtain ⟨-, j, hj, -, h⟩ := touched_and_freed 1 2 0 hord hw
  refine ⟨w, hw, hlen, ?_, j, h⟩
  -- both commands have been served
  generalize hlive : w.guest.kernel.live = live at h
  generalize w.guest.log = log at h
  cases h with
  | untouched => omega
  | touched => omega
  | freed => rfl

end Runs

end VmRatchet.Vz
