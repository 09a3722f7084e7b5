import VmRatchet.Vz.Child

/-!
# The waits and the way out

Every line of the harness is somewhere: taken by the driver, in the channel, in the hand of the
reader thread, or among the bytes that have not been read. Hence what the waits have returned is a
function of the bytes the harness has written, whatever the two threads have done in which order;
an answer that has been written is heard, unless a deadline passes; and where the driver says that
the harness has exited, it has left no answer behind.

* `Sound` — where every line is.
* `Kept` — what the driver has to do with the harness, at each stage.
* `Accounts.step` — every move keeps both.
* `waits_hear_output` — what the waits hear.
* `driver_leaves_no_child` — the harness is waited for on every way out.
-/

namespace VmRatchet.Vz

open Lines Text Transition

/-! ## The lines -/

/-- The lines that a wait has passed over so far do not fit. -/
def PassedOver (passed : List (List Char)) : List Duty → Prop
  | .wait start :: _ => ∀ l ∈ passed, l.dropPrefix? start = none
  | _ => passed = []

/-- **Where every line is.** `read` are the lines the reader has read, `taken` those the driver has
taken from the channel, `done` what it has done, and `passed` the lines that its present wait has
passed over. -/
structure Sound (verbose : Bool) (duties : List Duty) (read : List (List UInt8))
    (taken passed : List (List Char)) (done : List Duty) (σ : Attached) : Prop where
  stream : Stream read σ.written σ.pipe σ.eof
  text : σ.reader ≠ .finished → ∀ l ∈ read, (decode l).isSome
  atEnd : σ.reader = .finished → Over read σ.pipe σ.eof
  lines : taken ++ (σ.queue ++ σ.held) <+: readLines read
  all : σ.reader ≠ .abandoned → taken ++ (σ.queue ++ σ.held) = readLines read
  abandoned : σ.reader = .abandoned → σ.stage.Ended
  duties : duties = done ++ σ.todo
  answers : answers (starts done) taken = some (σ.heard, passed)
  passed : PassedOver passed σ.todo
  printed : σ.printed = (readLines read).filter (shownLine verbose)

section sound

variable {verbose : Bool} {duties done : List Duty} {read : List (List UInt8)}
  {taken passed : List (List Char)} {σ σ' : Attached}

/-- Before the first move no line is anywhere, and all duties are still to be done. -/
theorem sound_init (verbose : Bool) (duties : List Duty) :
    Sound verbose duties [] [] [] [] (.init duties) where
  stream := ⟨by rw [Attached.init, rawLines_nil, List.append_nil], fun _ => rfl⟩
  text := fun _ l hl => by cases hl
  atEnd := fun h => by cases h
  lines := List.prefix_rfl
  all := fun _ => rfl
  abandoned := fun h => by cases h
  duties := rfl
  answers := rfl
  passed := by
    unfold PassedOver
    split
    · exact fun l hl => by cases hl
    · rfl
  printed := rfl

/-- What has been heard is what the waits hear in the output, and the lines that were passed over
come next in it, and then those that are on their way. -/
theorem Sound.heard (h : Sound verbose duties read taken passed done σ) :
    ∃ later, Vz.answers (starts done) σ.output = some (σ.heard, passed ++ later) ∧
      (σ.reader ≠ .abandoned → later = σ.ahead) := by
  by_cases hab : σ.reader = .abandoned
  · have hread : readLines read <+: σ.output := by
      rw [Attached.output, h.stream.lines, readLines_append (h.text (by simp [hab]))]
      exact List.prefix_append _ _
    obtain ⟨later, hlater⟩ := ((List.prefix_append taken _).trans h.lines).trans hread
    refine ⟨later, ?_, fun hnot => absurd hab hnot⟩
    rw [← hlater]
    exact answers_append h.answers later
  · refine ⟨σ.ahead, ?_, fun _ => rfl⟩
    have houtput : σ.output = taken ++ σ.ahead := by
      rw [Attached.output, Attached.ahead]
      by_cases hfin : σ.reader = .finished
      · rw [h.stream.readLines_of_over (h.atEnd hfin), if_pos hfin, List.append_nil, ← h.all hab]
      · rw [h.stream.lines, readLines_append (h.text hfin), if_neg hfin, ← h.all hab]
        simp only [List.append_assoc]
    rw [houtput]
    exact answers_append h.answers σ.ahead

/-- When the harness writes, every line stays where it is, and the bytes come behind them. -/
theorem Sound.write (h : Sound verbose duties read taken passed done σ) (hproc : σ.proc = .running)
    (bytes : List UInt8) : Sound verbose duties read taken passed done
      { σ with written := σ.written ++ bytes, pipe := σ.pipe ++ bytes } := by
  have heof : σ.eof = false := by rw [Attached.eof, hproc]; rfl
  have hstream := h.stream
  have hover := h.atEnd
  rw [heof] at hstream hover
  exact { h with
    stream := (show Stream read (σ.written ++ bytes) (σ.pipe ++ bytes) σ.eof from
      heof ▸ hstream.write bytes)
    atEnd := fun hfin => (show Over read (σ.pipe ++ bytes) σ.eof from
      heof ▸ (hover hfin).write bytes) }

/-- The harness exits, or the driver gets further without having anything to do with lines. -/
theorem Sound.goto (h : Sound verbose duties read taken passed done σ) {proc : Proc}
    {stage : Stage} (hproc : proc = σ.proc ∨ proc ≠ .running)
    (hstage : σ.stage.Ended → stage.Ended) : Sound verbose duties read taken passed done
      { σ with proc := proc, stage := stage } := by
  have heof : ({ σ with proc := proc, stage := stage } : Attached).eof = σ.eof ∨
      ({ σ with proc := proc, stage := stage } : Attached).eof = true := by
    rcases hproc with rfl | hproc
    · exact .inl rfl
    · exact .inr (by simpa [Attached.eof] using hproc)
  refine { h with
    stream := ?_
    atEnd := fun hfin => ?_
    abandoned := fun hab => hstage (h.abandoned hab) }
  · rcases heof with heof | heof
    · rw [heof]
      exact h.stream
    · rw [heof]
      exact h.stream.close
  · rcases heof with heof | heof
    · rw [heof]
      exact h.atEnd hfin
    · rw [heof]
      exact (h.atEnd hfin).close

/-- When the reader thread reads a line of text, the line is held for the channel, behind those that
were read before. -/
theorem Sound.read_text (h : Sound verbose duties read taken passed done σ)
    (hreader : σ.reader = .reading) {bytes later : List UInt8} {text : List Char}
    (hnext : nextLine σ.pipe σ.eof = some (bytes, later)) (htext : decode bytes = some text) :
    Sound verbose duties (read ++ [bytes]) taken passed done
      { σ with
        pipe := later
        reader := .sending (readerLine text.dropLast)
        printed := if shownLine verbose (readerLine text.dropLast) then
          σ.printed ++ [readerLine text.dropLast] else σ.printed } := by
  have hvalid : ∀ l ∈ read, (decode l).isSome := h.text (by simp [hreader])
  have hread : readLines (read ++ [bytes]) = readLines read ++ [readerLine text.dropLast] := by
    rw [readLines_append hvalid]
    simp only [readLines, htext]
  have hheld : σ.held = [] := by rw [Attached.held, hreader]
  have hall := h.all (by simp [hreader])
  have hnew : taken ++ (σ.queue ++ [readerLine text.dropLast]) = readLines (read ++ [bytes]) := by
    rw [hread, ← hall, hheld, List.append_nil, List.append_assoc]
  exact { h with
    stream := h.stream.next hnext
    text := fun _ l hl => by
      rcases List.mem_append.mp hl with hl | hl
      · exact hvalid l hl
      · rw [List.mem_singleton.mp hl, htext]
        rfl
    atEnd := fun hfin => by cases hfin
    lines := hnew ▸ List.prefix_rfl
    all := fun _ => hnew
    abandoned := fun hab => by cases hab
    printed := by
      rw [hread, List.filter_append, ← h.printed, List.filter_singleton]
      cases shownLine verbose (readerLine text.dropLast) <;> simp }

/-- When the reader thread reads a line that is not text, it ends, and every line stays accounted
for. -/
theorem Sound.read_bad (h : Sound verbose duties read taken passed done σ)
    (hreader : σ.reader = .reading) {bytes later : List UInt8}
    (hnext : nextLine σ.pipe σ.eof = some (bytes, later)) (hbad : decode bytes = none) :
    Sound verbose duties (read ++ [bytes]) taken passed done
      { σ with pipe := later, reader := .finished } := by
  have hread : readLines (read ++ [bytes]) = readLines read := by
    rw [readLines_append (h.text (by simp [hreader]))]
    simp only [readLines, hbad, List.append_nil]
  have hheld : σ.held = [] := by rw [Attached.held, hreader]
  have hall := h.all (by simp [hreader])
  have hnew : taken ++ (σ.queue ++ []) = readLines (read ++ [bytes]) := by
    rw [hread, ← hall, hheld]
  exact { h with
    stream := h.stream.next hnext
    text := fun hfin => absurd rfl hfin
    atEnd := fun _ => .inl ⟨bytes, List.mem_append_right _ List.mem_cons_self, hbad⟩
    lines := hnew ▸ List.prefix_rfl
    all := fun _ => hnew
    abandoned := fun hab => by cases hab
    printed := hread ▸ h.printed }

/-- When the reader thread comes to the end of the output, it ends, and every line stays accounted
for. -/
theorem Sound.read_end (h : Sound verbose duties read taken passed done σ)
    (hreader : σ.reader = .reading) (hnext : nextLine σ.pipe σ.eof = none) (heof : σ.eof = true) :
    Sound verbose duties read taken passed done { σ with reader := .finished } := by
  have hheld : σ.held = [] := by rw [Attached.held, hreader]
  have hall := h.all (by simp [hreader])
  rw [hheld] at hall
  exact { h with
    text := fun hfin => absurd rfl hfin
    atEnd := fun _ => .inr ⟨heof, (rawLines_of_nextLine_none hnext).2 heof⟩
    lines := hall ▸ List.prefix_rfl
    all := fun _ => hall
    abandoned := fun hab => by cases hab }

/-- When the reader thread passes a line on, the line goes to the end of the queue. -/
theorem Sound.pass_on (h : Sound verbose duties read taken passed done σ) {line : List Char}
    (hreader : σ.reader = .sending line) : Sound verbose duties read taken passed done
      { σ with reader := .reading, queue := σ.queue ++ [line] } := by
  have hheld : σ.held = [line] := by rw [Attached.held, hreader]
  have hall := h.all (by simp [hreader])
  have hnew : taken ++ (σ.queue ++ [line] ++ []) = readLines read := by
    rw [← hall, hheld, List.append_nil]
  exact { h with
    text := fun _ => h.text (by simp [hreader])
    atEnd := fun hfin => by cases hfin
    lines := hnew ▸ List.prefix_rfl
    all := fun _ => hnew
    abandoned := fun hab => by cases hab }

/-- When the reader thread finds the channel without a receiver, it gives its line up, which it only
does once the driver has ended. -/
theorem Sound.abandon (h : Sound verbose duties read taken passed done σ) {line : List Char}
    (hreader : σ.reader = .sending line) (hended : σ.stage.Ended) :
    Sound verbose duties read taken passed done { σ with reader := .abandoned } := by
  have hlines := h.lines
  exact { h with
    text := fun _ => h.text (by simp [hreader])
    atEnd := fun hfin => by cases hfin
    lines := by
      refine List.IsPrefix.trans ?_ hlines
      rw [List.prefix_append_right_inj]
      exact (List.prefix_append_right_inj _).mpr (List.nil_prefix)
    all := fun hab => absurd rfl hab
    abandoned := fun _ => hended }

/-- When the driver has done something that is no wait, it has done one duty more, and no line has
moved. -/
theorem Sound.done_other (h : Sound verbose duties read taken passed done σ) {duty : Duty}
    {todo : List Duty} (htodo : σ.todo = duty :: todo) (hduty : starts [duty] = []) :
    Sound verbose duties read taken [] (done ++ [duty]) { σ with todo := todo } := by
  have hpassed : passed = [] := by
    have := h.passed
    rw [htodo] at this
    cases duty with
    | send command => exact this
    | wait start => cases hduty
    | other => exact this
  exact { h with
    duties := by rw [h.duties, htodo, List.append_assoc, List.singleton_append]
    answers := by
      have hstarts : starts (done ++ [duty]) = starts done := by
        rw [starts, List.filterMap_append, ← starts, ← starts, hduty, List.append_nil]
      rw [hstarts, ← hpassed]
      exact h.answers
    passed := by
      unfold PassedOver
      split
      · exact fun l hl => by cases hl
      · rfl }

/-- When the driver takes the line it waits for, the wait is done, its answer heard, and nothing
passed over for the next one. -/
theorem Sound.take_answer (h : Sound verbose duties read taken passed done σ) {start : List Char}
    {todo : List Duty} {line rest : List Char} {queue : List (List Char)}
    (htodo : σ.todo = .wait start :: todo) (hqueue : σ.queue = line :: queue)
    (hline : line.dropPrefix? start = some rest) :
    Sound verbose duties read (taken ++ [line]) [] (done ++ [.wait start])
      { σ with queue := queue, todo := todo, heard := σ.heard ++ [trim rest] } := by
  have hlines := h.lines
  have hall := h.all
  have hshift : taken ++ (line :: queue ++ σ.held) = taken ++ [line] ++ (queue ++ σ.held) := by simp
  rw [hqueue, hshift] at hlines hall
  have hpassed := h.passed
  rw [htodo] at hpassed
  have hwait : wait start (passed ++ [line]) = some (trim rest, []) := by
    rw [wait_passed hpassed, wait, hline]
  exact { h with
    lines := hlines
    all := hall
    duties := by rw [h.duties, htodo, List.append_assoc, List.singleton_append]
    answers := by
      have hstarts : starts (done ++ [.wait start]) = starts done ++ [start] := by
        rw [starts, List.filterMap_append]
        rfl
      rw [hstarts, answers_snoc (answers_append h.answers [line]), hwait]
      rfl
    passed := by
      unfold PassedOver
      split
      · exact fun l hl => by cases hl
      · rfl }

/-- When the driver takes a line that it does not wait for, the line is passed over by the present
wait. -/
theorem Sound.take_other (h : Sound verbose duties read taken passed done σ) {start : List Char}
    {todo : List Duty} {line : List Char} {queue : List (List Char)}
    (htodo : σ.todo = .wait start :: todo) (hqueue : σ.queue = line :: queue)
    (hline : line.dropPrefix? start = none) :
    Sound verbose duties read (taken ++ [line]) (passed ++ [line]) done
      { σ with queue := queue } := by
  have hlines := h.lines
  have hall := h.all
  have hshift : taken ++ (line :: queue ++ σ.held) = taken ++ [line] ++ (queue ++ σ.held) := by simp
  rw [hqueue, hshift] at hlines hall
  have hpassed := h.passed
  rw [htodo] at hpassed
  exact { h with
    lines := hlines
    all := hall
    answers := answers_append h.answers [line]
    passed := by
      rw [show ({ σ with queue := queue } : Attached).todo = .wait start :: todo from htodo]
      intro l hl
      rcases List.mem_append.mp hl with hl | hl
      · exact hpassed l hl
      · rw [List.mem_singleton.mp hl, hline] }

end sound

/-! ## What the driver has to do with the harness -/

/-- Why the driver panics, and what is true of it then. -/
def Cause.Fits (σ : Attached) : Cause → Prop
  | .brokenPipe => σ.eof = true
  | .timedOut start => ∃ todo, σ.todo = .wait start :: todo
  | .exited start => (∃ todo, σ.todo = .wait start :: todo) ∧ σ.reader = .finished ∧ σ.queue = []
  | .other => ∃ todo, σ.todo = .other :: todo

/-- On the way out, with or without a cause. -/
def Attached.Leaving (σ : Attached) : Option Cause → Prop
  | none => σ.todo = []
  | some cause => cause.Fits σ

/-- Why the driver ends, once it does. -/
def Stage.why : Stage → Option (Option Cause)
  | .working | .quitting => none
  | .dropping why | .reaping why | .ended why => some why

/-- **The way out.** The harness has been waited for exactly if the driver has seen to it. -/
structure Kept (σ : Attached) : Prop where
  unreaped : σ.stage.why = none → σ.proc ≠ .reaped
  quitting : σ.stage = .quitting → σ.todo = []
  leaving : ∀ why, σ.stage.why = some why → σ.Leaving why
  dropping : ∀ why, σ.stage = .dropping why → (σ.proc = .reaped ↔ why = none)
  reaping : ∀ why, σ.stage = .reaping why → σ.proc ≠ .running
  ended : σ.stage.Ended → σ.proc = .reaped

section kept

variable {verbose : Bool} {duties : List Duty} {σ σ' : Attached}

/-- Before the first move the harness runs and the driver is not on its way out. -/
theorem kept_init (duties : List Duty) : Kept (.init duties) where
  unreaped := fun _ h => by cases h
  quitting := fun h => by cases h
  leaving := fun _ h => by cases h
  dropping := fun _ h => by cases h
  reaping := fun _ h => by cases h
  ended := fun h => h.elim

/-- The cause fits in any state that has the same to do, in which the harness has not come back, and
in which a finished reader has stayed what it is. -/
theorem Attached.Leaving.mono {why : Option Cause} (h : σ.Leaving why) (htodo : σ'.todo = σ.todo)
    (heof : σ.eof = true → σ'.eof = true)
    (hreader : σ.reader = .finished → σ.queue = [] → σ'.reader = .finished ∧ σ'.queue = []) :
    σ'.Leaving why := by
  cases why with
  | none => exact htodo.trans h
  | some cause =>
      cases cause with
      | brokenPipe => exact heof h
      | timedOut start =>
          obtain ⟨todo, ht⟩ := h
          exact ⟨todo, htodo.trans ht⟩
      | exited start =>
          obtain ⟨⟨todo, ht⟩, hfin, hq⟩ := h
          exact ⟨⟨todo, htodo.trans ht⟩, hreader hfin hq⟩
      | other =>
          obtain ⟨todo, ht⟩ := h
          exact ⟨todo, htodo.trans ht⟩

/-- A move of the harness or of the reader thread does not disturb the driver's way out. -/
theorem Kept.bystander (h : Kept σ) (hstage : σ'.stage = σ.stage) (htodo : σ'.todo = σ.todo)
    (hproc : σ'.proc = σ.proc ∨ σ.proc = .running ∧ σ'.proc = .exited)
    (hreader : σ.reader = .finished → σ.queue = [] → σ'.reader = .finished ∧ σ'.queue = []) :
    Kept σ' := by
  have heof : σ.eof = true → σ'.eof = true := by
    intro heof
    rcases hproc with hproc | ⟨hrun, -⟩
    · rw [Attached.eof, hproc]
      exact heof
    · rw [Attached.eof, hrun] at heof
      cases heof
  have hreaped : σ'.proc = .reaped ↔ σ.proc = .reaped := by
    rcases hproc with hproc | ⟨hrun, hexit⟩
    · rw [hproc]
    · rw [hrun, hexit]
      exact iff_of_false (by simp) (by simp)
  constructor
  · rw [hstage, Ne, hreaped]
    exact h.unreaped
  · rw [hstage, htodo]
    exact h.quitting
  · intro why hwhy
    rw [hstage] at hwhy
    exact (h.leaving why hwhy).mono htodo heof hreader
  · intro why hwhy
    rw [hstage] at hwhy
    rw [hreaped]
    exact h.dropping why hwhy
  · intro why hwhy hrun
    rw [hstage] at hwhy
    rcases hproc with hproc | ⟨hrun', -⟩
    · exact h.reaping why hwhy (hproc ▸ hrun)
    · exact h.reaping why hwhy hrun'
  · rw [hstage, hreaped]
    exact h.ended

/-- A driver that panics while it works is on its way out, for a cause that fits, with the harness
not yet waited for. -/
theorem Kept.panic (h : Kept σ) (cause : Cause) (hstage : σ.stage = .working)
    (hcause : cause.Fits σ) : Kept { σ with stage := .dropping (some cause) } := by
  have hproc : σ.proc ≠ .reaped := h.unreaped (by rw [hstage]; rfl)
  constructor
  · intro hnone
    cases hnone
  · intro hquit
    cases hquit
  · intro why hwhy
    obtain rfl := Option.some.inj hwhy
    cases cause with
    | brokenPipe => exact hcause
    | timedOut start => exact hcause
    | exited start => exact hcause
    | other => exact hcause
  · intro why hwhy
    cases hwhy
    exact iff_of_false hproc (by simp)
  · intro why hwhy
    cases hwhy
  · exact fun hended => hended.elim

/-- A driver that is through with its duties and has told the harness to quit waits for it to
exit. -/
theorem Kept.quit (h : Kept σ) (hstage : σ.stage = .working) (htodo : σ.todo = []) :
    Kept { σ with stage := .quitting } where
  unreaped := fun _ => h.unreaped (by rw [hstage]; rfl)
  quitting := fun _ => htodo
  leaving := fun _ hwhy => by cases hwhy
  dropping := fun _ hwhy => by cases hwhy
  reaping := fun _ hwhy => by cases hwhy
  ended := fun hended => hended.elim

/-- A driver that goes on working has not waited for the harness. -/
theorem Kept.work (h : Kept σ) (hstage : σ.stage = .working) {queue : List (List Char)}
    {todo : List Duty} {heard : List (List Char)} :
    Kept { σ with queue := queue, todo := todo, heard := heard } where
  unreaped := h.unreaped
  quitting := fun hquit => by
    rw [hstage] at hquit
    cases hquit
  leaving := fun why hwhy => by
    rw [hstage] at hwhy
    cases hwhy
  dropping := h.dropping
  reaping := h.reaping
  ended := h.ended

end kept

/-! ## Every move -/

/-- Both invariants: every line is accounted for, and so is every process on the way out. -/
def Accounts (verbose : Bool) (duties : List Duty) (σ : Attached) : Prop :=
  (∃ read taken passed done, Sound verbose duties read taken passed done σ) ∧ Kept σ

section moves

variable {verbose : Bool} {duties : List Duty} {σ σ' : Attached}

/-- A driver at a stage before the end has not ended, so nothing that needs its end holds. -/
theorem stage_ended_of {stage stage' : Stage} (hstage : σ.stage = stage) (hnot : ¬ stage.Ended) :
    σ.stage.Ended → stage'.Ended := by
  intro hended
  rw [hstage] at hended
  exact absurd hended hnot

/-- A move of the reader thread keeps account of every line and of the way out. -/
theorem Accounts.reader (h : Accounts verbose duties σ) (hstep : σ.stepReader verbose = some σ') :
    Accounts verbose duties σ' := by
  obtain ⟨⟨read, taken, passed, done, hsound⟩, hkept⟩ := h
  cases hreader : σ.reader with
  | reading =>
      have hnot : σ.reader ≠ .finished := by simp [hreader]
      cases hnext : nextLine σ.pipe σ.eof with
      | none =>
          rw [stepReader_end hreader hnext] at hstep
          split_ifs at hstep with heof
          obtain rfl := Option.some.inj hstep
          exact ⟨⟨_, _, _, _, hsound.read_end hreader hnext heof⟩,
            hkept.bystander rfl rfl (.inl rfl) fun hfin => absurd hfin hnot⟩
      | some next =>
          obtain ⟨bytes, later⟩ := next
          cases hdecode : decode bytes with
          | none =>
              rw [stepReader_bad hreader hnext hdecode] at hstep
              obtain rfl := Option.some.inj hstep
              exact ⟨⟨_, _, _, _, hsound.read_bad hreader hnext hdecode⟩,
                hkept.bystander rfl rfl (.inl rfl) fun hfin => absurd hfin hnot⟩
          | some text =>
              rw [stepReader_text hreader hnext hdecode] at hstep
              obtain rfl := Option.some.inj hstep
              exact ⟨⟨_, _, _, _, hsound.read_text hreader hnext hdecode⟩,
                hkept.bystander rfl rfl (.inl rfl) fun hfin => absurd hfin hnot⟩
  | sending line =>
      have hnot : σ.reader ≠ .finished := by simp [hreader]
      by_cases hended : σ.stage.Ended
      · rw [stepReader_abandoned hreader hended] at hstep
        obtain rfl := Option.some.inj hstep
        exact ⟨⟨_, _, _, _, hsound.abandon hreader hended⟩,
          hkept.bystander rfl rfl (.inl rfl) fun hfin => absurd hfin hnot⟩
      · rw [stepReader_sending hreader hended] at hstep
        obtain rfl := Option.some.inj hstep
        exact ⟨⟨_, _, _, _, hsound.pass_on hreader⟩,
          hkept.bystander rfl rfl (.inl rfl) fun hfin => absurd hfin hnot⟩
  | finished =>
      unfold Attached.stepReader at hstep
      simp only [hreader] at hstep
      cases hstep
  | abandoned =>
      unfold Attached.stepReader at hstep
      simp only [hreader] at hstep
      cases hstep

/-- What the driver does while it works, be it a command, a wait, the end or a panic, keeps account
of every line and of the way out. -/
theorem Accounts.work (h : Accounts verbose duties σ) (hstage : σ.stage = .working)
    (hstep : σ.stepWork = some σ') : Accounts verbose duties σ' := by
  obtain ⟨⟨read, taken, passed, done, hsound⟩, hkept⟩ := h
  have hnot : ∀ {stage : Stage}, σ.stage.Ended → stage.Ended := stage_ended_of hstage id
  cases htodo : σ.todo with
  | nil =>
      rw [stepWork_quit htodo] at hstep
      split_ifs at hstep with heof
      · obtain rfl := Option.some.inj hstep
        exact ⟨⟨_, _, _, _, hsound.goto (.inl rfl) hnot⟩,
          hkept.panic .brokenPipe hstage heof⟩
      · obtain rfl := Option.some.inj hstep
        exact ⟨⟨_, _, _, _, hsound.goto (.inl rfl) hnot⟩, hkept.quit hstage htodo⟩
  | cons duty todo =>
      cases duty with
      | send command =>
          rw [stepWork_send htodo] at hstep
          split_ifs at hstep with heof
          · obtain rfl := Option.some.inj hstep
            exact ⟨⟨_, _, _, _, hsound.goto (.inl rfl) hnot⟩,
              hkept.panic .brokenPipe hstage heof⟩
          · obtain rfl := Option.some.inj hstep
            exact ⟨⟨_, _, _, _, hsound.done_other htodo rfl⟩, hkept.work hstage⟩
      | wait start =>
          cases hqueue : σ.queue with
          | nil =>
              rw [stepWork_empty htodo hqueue] at hstep
              split_ifs at hstep with hfin
              obtain rfl := Option.some.inj hstep
              exact ⟨⟨_, _, _, _, hsound.goto (.inl rfl) hnot⟩,
                hkept.panic (.exited start) hstage ⟨⟨todo, htodo⟩, hfin, hqueue⟩⟩
          | cons line queue =>
              cases hline : line.dropPrefix? start with
              | none =>
                  rw [stepWork_pass htodo hqueue hline] at hstep
                  obtain rfl := Option.some.inj hstep
                  exact ⟨⟨_, _, _, _, hsound.take_other htodo hqueue hline⟩, hkept.work hstage⟩
              | some rest =>
                  rw [stepWork_answer htodo hqueue hline] at hstep
                  obtain rfl := Option.some.inj hstep
                  exact ⟨⟨_, _, _, _, hsound.take_answer htodo hqueue hline⟩, hkept.work hstage⟩
      | other =>
          rw [stepWork_other htodo] at hstep
          obtain rfl := Option.some.inj hstep
          exact ⟨⟨_, _, _, _, hsound.done_other htodo rfl⟩, hkept.work hstage⟩

/-- After `quit` the harness has been waited for when the driver drops its handle, so there is
nothing left to kill. -/
theorem Kept.waited (h : Kept σ) (hstage : σ.stage = .quitting) :
    Kept { σ with proc := .reaped, stage := .dropping none } where
  unreaped := fun hnone => by cases hnone
  quitting := fun hquit => by cases hquit
  leaving := fun why hwhy => by
    obtain rfl := Option.some.inj hwhy
    exact h.quitting hstage
  dropping := fun why hwhy => by
    cases hwhy
    exact iff_of_true rfl rfl
  reaping := fun _ hwhy => by cases hwhy
  ended := fun hended => hended.elim

/-- After the first half of the drop the harness no longer runs: it was killed, unless it had ended
before. -/
theorem Kept.killed (h : Kept σ) {why : Option Cause} (hstage : σ.stage = .dropping why)
    {proc : Proc} (hproc : proc ≠ .running) :
    Kept { σ with proc := proc, stage := .reaping why } where
  unreaped := fun hnone => by cases hnone
  quitting := fun hquit => by cases hquit
  leaving := fun why' hwhy => by
    obtain rfl := Option.some.inj hwhy
    refine (h.leaving why (by rw [hstage]; rfl)).mono rfl (fun _ => ?_) fun hfin hq => ⟨hfin, hq⟩
    simpa [Attached.eof] using hproc
  dropping := fun _ hwhy => by cases hwhy
  reaping := fun _ _ => hproc
  ended := fun hended => hended.elim

/-- After the second half of the drop the harness has been waited for, whether or not it had been
before. -/
theorem Kept.end (h : Kept σ) {why : Option Cause} (hstage : σ.stage = .reaping why) :
    Kept { σ with proc := .reaped, stage := .ended why } where
  unreaped := fun hnone => by cases hnone
  quitting := fun hquit => by cases hquit
  leaving := fun why' hwhy => by
    obtain rfl := Option.some.inj hwhy
    exact (h.leaving why (by rw [hstage]; rfl)).mono rfl (fun _ => rfl) fun hfin hq => ⟨hfin, hq⟩
  dropping := fun _ hwhy => by cases hwhy
  reaping := fun _ hwhy => by cases hwhy
  ended := fun _ => rfl

/-- A move of the driver keeps account of every line and of the way out. -/
theorem Accounts.driver (h : Accounts verbose duties σ) (hstep : σ.stepDriver = some σ') :
    Accounts verbose duties σ' := by
  unfold Attached.stepDriver at hstep
  split at hstep
  · next hstage => exact h.work hstage hstep
  · next hstage =>
      obtain ⟨⟨read, taken, passed, done, hsound⟩, hkept⟩ := h
      have hnot : ∀ {stage : Stage}, σ.stage.Ended → stage.Ended := stage_ended_of hstage id
      split at hstep
      · cases hstep
      all_goals
        obtain rfl := Option.some.inj hstep
        exact ⟨⟨_, _, _, _, hsound.goto (.inr (by simp)) hnot⟩, hkept.waited hstage⟩
  · next why hstage =>
      obtain ⟨⟨read, taken, passed, done, hsound⟩, hkept⟩ := h
      have hnot : ∀ {stage : Stage}, σ.stage.Ended → stage.Ended := stage_ended_of hstage id
      split at hstep
      · obtain rfl := Option.some.inj hstep
        exact ⟨⟨_, _, _, _, hsound.goto (.inr (by simp)) hnot⟩, hkept.killed hstage (by simp)⟩
      · obtain rfl := Option.some.inj hstep
        exact ⟨⟨_, _, _, _, hsound.goto (.inr (by simp)) hnot⟩, hkept.killed hstage (by simp)⟩
      · next hproc =>
          obtain rfl := Option.some.inj hstep
          exact ⟨⟨_, _, _, _, hsound.goto (.inl rfl) hnot⟩,
            hkept.killed hstage (by rw [hproc]; simp)⟩
  · next why hstage =>
      obtain ⟨⟨read, taken, passed, done, hsound⟩, hkept⟩ := h
      split at hstep
      · cases hstep
      all_goals
        obtain rfl := Option.some.inj hstep
        exact ⟨⟨_, _, _, _, hsound.goto (.inr (by simp)) fun _ => trivial⟩, hkept.end hstage⟩
  · cases hstep

/-- Every move, of the harness, the reader thread, the driver or a deadline that passes, keeps
account of every line and of the way out. -/
theorem Accounts.step {move : Action} (h : Accounts verbose duties σ)
    (hstep : σ.step verbose move = some σ') : Accounts verbose duties σ' := by
  cases move with
  | reader => exact h.reader hstep
  | driver => exact h.driver hstep
  | write bytes =>
      obtain ⟨⟨read, taken, passed, done, hsound⟩, hkept⟩ := h
      unfold Attached.step at hstep
      simp only at hstep
      split at hstep
      · next hproc =>
          obtain rfl := Option.some.inj hstep
          exact ⟨⟨_, _, _, _, hsound.write hproc bytes⟩,
            hkept.bystander rfl rfl (.inl rfl) fun hfin hq => ⟨hfin, hq⟩⟩
      all_goals cases hstep
  | exit =>
      obtain ⟨⟨read, taken, passed, done, hsound⟩, hkept⟩ := h
      unfold Attached.step at hstep
      simp only at hstep
      split at hstep
      · next hproc =>
          obtain rfl := Option.some.inj hstep
          have hgoto := hsound.goto (.inr (by simp : Proc.exited ≠ .running))
            (id : σ.stage.Ended → σ.stage.Ended)
          exact ⟨⟨_, _, _, _, hgoto⟩,
            hkept.bystander rfl rfl (.inr ⟨hproc, rfl⟩) fun hfin hq => ⟨hfin, hq⟩⟩
      all_goals cases hstep
  | timeout =>
      obtain ⟨⟨read, taken, passed, done, hsound⟩, hkept⟩ := h
      unfold Attached.step at hstep
      simp only at hstep
      split at hstep
      · next start todo hstage htodo =>
          obtain rfl := Option.some.inj hstep
          exact ⟨⟨_, _, _, _, hsound.goto (.inl rfl) (stage_ended_of hstage id)⟩,
            hkept.panic (.timedOut start) hstage ⟨todo, htodo⟩⟩
      · cases hstep
  | fail =>
      obtain ⟨⟨read, taken, passed, done, hsound⟩, hkept⟩ := h
      unfold Attached.step at hstep
      simp only at hstep
      split at hstep
      · next todo hstage htodo =>
          obtain rfl := Option.some.inj hstep
          exact ⟨⟨_, _, _, _, hsound.goto (.inl rfl) (stage_ended_of hstage id)⟩,
            hkept.panic .other hstage ⟨todo, htodo⟩⟩
      · cases hstep

/-- In every run from the start every line is accounted for, and so is the way out. -/
theorem accounts_run {moves : List Action}
    (hrun : run (Attached.step verbose) (.init duties) moves = some σ) :
    Accounts verbose duties σ :=
  run_invariant (fun _ _ _ _ h hstep => h.step hstep)
    (Along.of_labels (fun _ _ _ => trivial) (P := fun _ _ => True) _)
    ⟨⟨_, _, _, _, sound_init verbose duties⟩, kept_init duties⟩ hrun

end moves

/-! ## What is heard -/

section hears

variable {verbose : Bool} {σ : Attached} {start text : List Char} {todo : List Duty}
  {later : List (List Char)}

/-- Moves of the program: nobody fails, and no deadline passes. -/
def Action.Own : Action → Prop
  | .reader | .driver => True
  | .write _ | .exit | .timeout | .fail => False

/-- From here the answer can be heard by moves of reader and driver alone, and the driver goes on
with what is left to do. -/
def Attached.Hears (verbose : Bool) (σ : Attached) (text : List Char) (todo : List Duty) : Prop :=
  ∃ moves σ', (∀ move ∈ moves, move.Own) ∧ run (Attached.step verbose) σ moves = some σ' ∧
    σ'.heard = σ.heard ++ [text] ∧ σ'.stage = .working ∧ σ'.todo = todo

/-- If one move of reader or driver leads to a state from which an answer is heard by their moves
alone, it is heard from the state before. -/
theorem Attached.Hears.cons {σ₁ : Attached} (move : Action) (hmove : move.Own)
    (hstep : σ.step verbose move = some σ₁) (hheard : σ₁.heard = σ.heard)
    (h : σ₁.Hears verbose text todo) : σ.Hears verbose text todo := by
  obtain ⟨moves, σ', hmoves, hrun, htext, hstage, htodo⟩ := h
  refine ⟨move :: moves, σ', ?_, run_cons_eq_some.mpr ⟨σ₁, hstep, hrun⟩, hheard ▸ htext, hstage,
    htodo⟩
  intro m hm
  rcases List.mem_cons.mp hm with rfl | hm
  · exact hmove
  · exact hmoves m hm

/-- How far the lines that are on their way are from the driver. -/
def Attached.distance (σ : Attached) : ℕ :=
  3 * (rawLines σ.pipe σ.eof).length + 2 * σ.held.length + σ.queue.length

/-- **An answer that has been written is heard**, if the driver is given the time. The induction is
on the way the lines have to go, from the pipe through the reader thread and the channel to the
driver, which drops the lines that do not fit and stops at the first that does. -/
theorem hears_answer (hstage : σ.stage = .working) (htodo : σ.todo = .wait start :: todo)
    (hreader : σ.reader ≠ .abandoned) (hwait : wait start σ.ahead = some (text, later)) :
    σ.Hears verbose text todo := by
  induction hn : σ.distance using Nat.strong_induction_on generalizing σ with
  | h n ih =>
      have hended : ¬ σ.stage.Ended := by rw [hstage]; exact id
      have hdriver : σ.step verbose .driver = σ.stepWork := by
        simp only [Attached.step, Attached.stepDriver, hstage]
      cases hqueue : σ.queue with
      | cons line queue =>
          -- the driver takes a line
          have hahead : σ.ahead = line :: ({ σ with queue := queue } : Attached).ahead := by
            simp only [Attached.ahead, hqueue, List.cons_append, Attached.held, Attached.eof]
          rw [hahead, wait] at hwait
          cases hline : line.dropPrefix? start with
          | some rest =>
              rw [hline] at hwait
              obtain ⟨rfl, -⟩ := Prod.mk.inj (Option.some.inj hwait)
              have hstep := stepWork_answer htodo hqueue hline
              refine ⟨[.driver], _, ?_, run_cons_eq_some.mpr ⟨_, hdriver.trans hstep, rfl⟩, rfl,
                hstage, rfl⟩
              intro move hmove
              rw [List.mem_singleton.mp hmove]
              trivial
          | none =>
              rw [hline] at hwait
              have hstep := stepWork_pass htodo hqueue hline
              refine .cons .driver trivial (hdriver.trans hstep) rfl
                (ih _ ?_ (σ := { σ with queue := queue }) hstage htodo hreader hwait rfl)
              rw [← hn]
              simp only [Attached.distance, hqueue, Attached.held, Attached.eof, List.length_cons]
              omega
      | nil =>
          cases hread : σ.reader with
          | sending line =>
              have hstep : σ.stepReader verbose = _ := stepReader_sending hread hended
              refine .cons .reader trivial hstep rfl (ih _ ?_ hstage htodo (by simp) ?_ rfl)
              · rw [← hn]
                simp only [Attached.distance, hqueue, Attached.held, hread, Attached.eof,
                  List.length_cons, List.length_nil, List.nil_append]
                omega
              · rw [← hwait]
                simp only [Attached.ahead, hqueue, Attached.held, hread, Attached.eof]
                simp
          | reading =>
              cases hnext : nextLine σ.pipe σ.eof with
              | none =>
                  have hnone := (rawLines_of_nextLine_none hnext).1
                  simp only [Attached.ahead, hqueue, Attached.held, hread, hnone] at hwait
                  cases hwait
              | some next =>
                  obtain ⟨bytes, rest⟩ := next
                  have hlines := (rawLines_of_nextLine hnext).1
                  cases hdecode : decode bytes with
                  | none =>
                      simp only [Attached.ahead, hqueue, Attached.held, hread, hlines, readLines,
                        hdecode] at hwait
                      cases hwait
                  | some line =>
                      have hstep : σ.stepReader verbose = _ := stepReader_text hread hnext hdecode
                      refine .cons .reader trivial hstep rfl
                        (ih _ ?_ hstage htodo (by simp) ?_ rfl)
                      · rw [← hn]
                        simp only [Attached.distance, hqueue, Attached.held, hread, hlines,
                          List.length_cons, List.length_nil]
                        simp only [Attached.eof]
                        omega
                      · rw [← hwait]
                        simp only [Attached.ahead, hqueue, Attached.held, hread, hlines, readLines,
                          hdecode]
                        simp [Attached.eof]
          | finished =>
              simp only [Attached.ahead, hqueue, Attached.held, hread] at hwait
              cases hwait
          | abandoned => exact absurd hread hreader

end hears

/-- **The waits hear the output.** In every interleaving of the harness, the reader thread and the
driver, whatever the harness writes and whenever it exits, also in the middle of a line, whichever
deadlines pass and whatever fails:

* what the waits have returned is what the same waits hear in the lines of the harness's output, one
  after the other;
* the driver is never stuck at a wait whose answer has been written: moves of the reader thread and
  of the driver alone lead to its being heard;
* if the driver says that the harness has exited while it waits, then the harness has, or has
  written a line that is not text, and the line waited for is nowhere in its output;
* if the driver comes to its end without a panic, every wait has returned;
* and what has been printed are the first protocol lines of the output (or lines of any kind), in
  order. -/
theorem waits_hear_output (verbose : Bool) (duties : List Duty) {moves : List Action} {σ : Attached}
    (hrun : run (Attached.step verbose) (.init duties) moves = some σ) :
    ∃ done rest, duties = done ++ σ.todo ∧ answers (starts done) σ.output = some (σ.heard, rest) ∧
      (∀ start todo text later, σ.stage = .working → σ.todo = .wait start :: todo →
        wait start rest = some (text, later) → σ.Hears verbose text todo) ∧
      (∀ start, σ.stage.why = some (some (.exited start)) → wait start rest = none ∧
        (σ.proc ≠ .running ∨ ∃ l ∈ rawLines σ.written σ.eof, decode l = none)) ∧
      (σ.stage.why = some none → σ.todo = []) ∧
      σ.printed <+: σ.output.filter (shownLine verbose) := by
  obtain ⟨⟨read, taken, passed, done, hsound⟩, hkept⟩ := accounts_run hrun
  obtain ⟨later, hheard, hahead⟩ := hsound.heard
  have hpassed := hsound.passed
  refine ⟨done, passed ++ later, hsound.duties, hheard, ?_, ?_, ?_, ?_⟩
  · intro start todo text later' hstage htodo hwait
    have hreader : σ.reader ≠ .abandoned := by
      intro hab
      have hended := hsound.abandoned hab
      rw [hstage] at hended
      exact hended
    rw [htodo] at hpassed
    rw [wait_passed hpassed, hahead hreader] at hwait
    exact hears_answer hstage htodo hreader hwait
  · intro start hwhy
    obtain ⟨⟨todo, htodo⟩, hfin, hqueue⟩ := hkept.leaving _ hwhy
    have hnone : later = [] := by
      rw [hahead (by simp [hfin]), Attached.ahead, Attached.held, hqueue, hfin]
      rfl
    rw [htodo] at hpassed
    constructor
    · rw [wait_passed hpassed, hnone, wait]
    · rcases hsound.atEnd hfin with ⟨l, hl, hbad⟩ | ⟨heof, -⟩
      · exact .inr ⟨l, hsound.stream.lines ▸ List.mem_append_left _ hl, hbad⟩
      · exact .inl (by simpa [Attached.eof] using heof)
  · exact fun hwhy => hkept.leaving _ hwhy
  · rw [hsound.printed]
    refine List.IsPrefix.filter _ ?_
    rw [Attached.output]
    by_cases hfin : σ.reader = .finished
    · rw [hsound.stream.readLines_of_over (hsound.atEnd hfin)]
    · rw [hsound.stream.lines, readLines_append (hsound.text hfin)]
      exact List.prefix_append _ _

/-- The harness exits in the middle of the line that is waited for, and is heard all the same. -/
theorem waits_hear_output_cut : ∃ σ,
    run (Attached.step false) (.init (driverDuties [.free]))
        [.write (encode (chars "HARNESS star")), .write (encode (chars "ted")), .exit, .reader] =
      some σ ∧ σ.Hears false [] [.wait (chars "RATCHET READY"), .other, .send (chars "guest free"),
        .wait (chars "RATCHET FREED"), .other] := by
  obtain ⟨σ, hrun, hstage, htodo, houtput⟩ : ∃ σ,
      run (Attached.step false) (.init (driverDuties [.free]))
          [.write (encode (chars "HARNESS star")), .write (encode (chars "ted")), .exit, .reader] =
        some σ ∧ σ.stage = .working ∧ σ.todo = driverDuties [.free] ∧
        σ.output = [chars "HARNESS started"] := ⟨_, by rfl, rfl, rfl, by decide⟩
  obtain ⟨done, rest, hduties, hanswers, hhears, -⟩ :=
    waits_hear_output false (driverDuties [.free]) hrun
  have hdone : done = [] := by
    rw [htodo] at hduties
    exact List.append_left_eq_self.mp hduties.symm
  subst hdone
  refine ⟨σ, hrun, hhears _ _ _ [] hstage htodo ?_⟩
  have hrest : rest = [chars "HARNESS started"] := by
    rw [← houtput]
    exact (congrArg Prod.snd (Option.some.inj hanswers)).symm
  rw [hrest]
  decide

/-! ## The way out -/

section out

variable {verbose : Bool} {duties : List Duty} {σ : Attached}

/-- Moves that bring the driver to its end: its own, a deadline that passes, and the harness's exit
after `quit`. -/
def Action.Last : Action → Prop
  | .driver | .timeout | .exit => True
  | .write _ | .reader | .fail => False

/-- From here the driver can come to its end by last moves alone. -/
def Attached.Ends (verbose : Bool) (σ : Attached) : Prop :=
  ∃ moves σ', (∀ move ∈ moves, move.Last) ∧ run (Attached.step verbose) σ moves = some σ' ∧
    σ'.stage.Ended

/-- If one of the last moves leads to a state from which the driver ends, it ends from the state
before. -/
theorem Attached.Ends.cons {σ₁ : Attached} {move : Action}
    (hstep : σ.step verbose move = some σ₁) (hmove : move.Last) (h : σ₁.Ends verbose) :
    σ.Ends verbose := by
  obtain ⟨moves, σ', hmoves, hrun, hended⟩ := h
  refine ⟨move :: moves, σ', ?_, run_cons_eq_some.mpr ⟨σ₁, hstep, hrun⟩, hended⟩
  intro m hm
  rcases List.mem_cons.mp hm with rfl | hm
  · exact hmove
  · exact hmoves m hm

/-- Once the driver drops its handle, two moves of its own lead to its end, with the harness waited
for. -/
theorem run_dropping (verbose : Bool) {why : Option Cause} (hstage : σ.stage = .dropping why) :
    ∃ σ', run (Attached.step verbose) σ [.driver, .driver] = some σ' ∧ σ'.stage = .ended why ∧
      σ'.proc = .reaped := by
  cases hproc : σ.proc with
  | running | exited =>
      refine ⟨{ σ with proc := .reaped, stage := .ended why }, ?_, rfl, rfl⟩
      simp [run, Attached.step, Attached.stepDriver, hstage, hproc]
  | reaped =>
      refine ⟨{ σ with proc := .reaped, stage := .ended why }, ?_, rfl, rfl⟩
      simp [run, Attached.step, Attached.stepDriver, hstage, hproc]

/-- A driver that drops its handle can come to its end. -/
theorem ends_dropping {why : Option Cause} (hstage : σ.stage = .dropping why) :
    σ.Ends verbose := by
  obtain ⟨σ', hrun, hended, -⟩ := run_dropping verbose hstage
  refine ⟨[.driver, .driver], σ', ?_, hrun, hended ▸ trivial⟩
  intro move hmove
  rcases List.mem_cons.mp hmove with rfl | hmove
  · trivial
  · rw [List.mem_singleton.mp hmove]
    trivial

/-- After `quit` the driver ends as soon as the harness has exited. -/
theorem ends_quitting (hstage : σ.stage = .quitting) : σ.Ends verbose := by
  have hgone : ∀ τ : Attached, τ.stage = .quitting → τ.proc ≠ .running → τ.Ends verbose := by
    intro τ hτ hproc
    have hstep : τ.step verbose .driver =
        some { τ with proc := .reaped, stage := .dropping none } := by
      cases hp : τ.proc with
      | running => exact absurd hp hproc
      | exited | reaped => simp [Attached.step, Attached.stepDriver, hτ, hp]
    exact .cons hstep trivial (ends_dropping rfl)
  by_cases hproc : σ.proc = .running
  · have hstep : σ.step verbose .exit = some { σ with proc := .exited } := by
      simp [Attached.step, hproc]
    exact .cons hstep trivial (hgone _ hstage (by simp))
  · exact hgone σ hstage hproc

/-- While the driver works. The induction is on what is left to do. -/
theorem ends_working (hstage : σ.stage = .working) : σ.Ends verbose := by
  induction htodo : σ.todo generalizing σ with
  | nil =>
      have hdriver : σ.step verbose .driver = σ.stepWork := by
        simp only [Attached.step, Attached.stepDriver, hstage]
      rw [stepWork_quit htodo] at hdriver
      split_ifs at hdriver with heof
      · exact .cons hdriver trivial (ends_dropping rfl)
      · exact .cons hdriver trivial (ends_quitting rfl)
  | cons duty todo ih =>
      have hdriver : σ.step verbose .driver = σ.stepWork := by
        simp only [Attached.step, Attached.stepDriver, hstage]
      cases duty with
      | send command =>
          rw [stepWork_send htodo] at hdriver
          split_ifs at hdriver with heof
          · exact .cons hdriver trivial (ends_dropping rfl)
          · exact .cons hdriver trivial (ih hstage rfl)
      | wait start =>
          have hstep : σ.step verbose .timeout =
              some { σ with stage := .dropping (some (.timedOut start)) } := by
            unfold Attached.step
            simp only [hstage, htodo]
          exact .cons hstep trivial (ends_dropping rfl)
      | other =>
          rw [stepWork_other htodo] at hdriver
          exact .cons hdriver trivial (ih hstage rfl)

end out

/-- **The driver leaves no child behind.** In every interleaving, whatever fails: as long as the
driver deals with the harness, nobody has waited for it, so that the process it kills is its own;
once the driver has ended, with a panic or without, the harness has been waited for; on the way out
two moves of the driver, at which it does not have to wait for anybody, are all that is left; and
from every state the driver can come to its end. -/
theorem driver_leaves_no_child (verbose : Bool) (duties : List Duty) {moves : List Action}
    {σ : Attached} (hrun : run (Attached.step verbose) (.init duties) moves = some σ) :
    (σ.stage = .working ∨ σ.stage = .quitting ∨ (∃ cause, σ.stage = .dropping (some cause)) →
        σ.proc ≠ .reaped) ∧
      (σ.stage.Ended → σ.proc = .reaped) ∧
      (∀ why, σ.stage = .dropping why → ∃ σ', run (Attached.step verbose) σ [.driver, .driver] =
        some σ' ∧ σ'.stage = .ended why ∧ σ'.proc = .reaped) ∧
      σ.Ends verbose := by
  obtain ⟨-, hkept⟩ := accounts_run hrun
  refine ⟨?_, hkept.ended, fun why hstage => run_dropping _ hstage, ?_⟩
  · rintro (hstage | hstage | ⟨cause, hstage⟩)
    · exact hkept.unreaped (by rw [hstage]; rfl)
    · exact hkept.unreaped (by rw [hstage]; rfl)
    · intro hproc
      have hnone := (hkept.dropping _ hstage).mp hproc
      cases hnone
  · cases hstage : σ.stage with
    | working => exact ends_working hstage
    | quitting => exact ends_quitting hstage
    | dropping why => exact ends_dropping hstage
    | reaping why =>
        have hproc := hkept.reaping why hstage
        have hstep : σ.step verbose .driver =
            some { σ with proc := .reaped, stage := .ended why } := by
          cases hp : σ.proc with
          | running => exact absurd hp hproc
          | exited | reaped => simp [Attached.step, Attached.stepDriver, hstage, hp]
        exact .cons hstep trivial ⟨[], _, by simp, rfl, trivial⟩
    | ended why => exact ⟨[], σ, by simp, rfl, hstage ▸ trivial⟩

/-- The deadline of the first wait passes: the driver panics, kills the harness and waits for it. -/
theorem driver_leaves_no_child_timeout : ∃ σ,
    run (Attached.step false) (.init (driverDuties [])) [.timeout, .driver, .driver] = some σ ∧
      σ.stage.Ended ∧ σ.proc = .reaped := by
  obtain ⟨σ, hrun, hended⟩ : ∃ σ,
      run (Attached.step false) (.init (driverDuties [])) [.timeout, .driver, .driver] = some σ ∧
        σ.stage.Ended := ⟨_, rfl, trivial⟩
  exact ⟨σ, hrun, hended, (driver_leaves_no_child false (driverDuties []) hrun).2.1 hended⟩

end VmRatchet.Vz
