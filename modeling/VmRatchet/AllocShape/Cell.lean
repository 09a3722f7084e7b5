import VmRatchet.AllocShape.Verdict
import VmRatchet.Lib.Decimal
import VmRatchet.Main.Trace
import VmRatchet.Soak.Worker

/-!
# One cell of the allocation-shape matrix, in a process of its own

`alloc_shape::run` starts one child for each cell. Parent and child speak two formats: the parent
puts the cell into an environment variable as `shape:toucher:sequence:size_gb`, the child answers
on its standard output with one `CELL` line of nine words.

* `spec`, `parseSpec` — the first format; `parseSpec_spec`.
* `Meets`, `runCell` — the child: what it reads and is told by the system, what it prints, and the
  advice it gives over guest RAM.
* `report` — what the child prints, as a status and four numbers.
* `reads_runCell` — the second format, from the child's side to the parent's.
* `measure`, `measure_eq` — the whole matrix, through both formats.
* `cell_protocol_round_trips` — the two formats, and the matrix.

Left out are the calls that build and tear down the virtual machine, each of which succeeds or ends
the child without a line.
-/

namespace VmRatchet.AllocShape

open Text (chars decimal integer showFixed rounded parseFloat unwords Word)
open Main (madvFreeReusable)
open Soak (deltaMib)

/-! ## The cell in an environment variable -/

/-- `none` is a panic.
Source: `alloc_shape.rs`, `Shape::parse` -/
def Shape.parse (s : List Char) : Option Shape :=
  if s = chars "private" then some .mmapPrivate
  else if s = chars "shared" then some .mmapShared
  else if s = chars "hvalloc" then some .hvAllocate
  else none

/-- `none` is a panic.
Source: `alloc_shape.rs`, `Toucher::parse` -/
def Toucher.parse (s : List Char) : Option Toucher :=
  if s = chars "host" then some .host
  else if s = chars "guest" then some .guest
  else none

/-- `none` is a panic.
Source: `alloc_shape.rs`, `Sequence::parse` -/
def Sequence.parse (s : List Char) : Option Sequence :=
  if s = chars "inplace" then some .inPlace
  else if s = chars "unmap" then some .unmapFirst
  else if s = chars "unmaponly" then some .unmapOnly
  else none

/-- Source: `alloc_shape.rs`, `run` (`spec`) -/
def spec (shape : Shape) (toucher : Toucher) (sequence : Sequence) (sizeGb : ℕ) : List Char :=
  shape.tag ++ ':' :: (toucher.name ++ ':' :: (sequence.tag ++ ':' :: decimal sizeGb))

/-- `none` is a panic.
Source: `alloc_shape.rs`, `maybe_run_cell` -/
def parseSpec (spec : List Char) : Option (Shape × Toucher × Sequence × ℕ) :=
  match spec.splitOn ':' with
  | [shape, toucher, sequence, sizeGb] => do
      let shape ← Shape.parse shape
      let toucher ← Toucher.parse toucher
      let sequence ← Sequence.parse sequence
      let sizeGb ← Text.parse 64 sizeGb
      return (shape, toucher, sequence, sizeGb)
  | _ => none

/-- The three words that name a cell have no colon, and each of them is read back as what it
names. -/
theorem parse_tags (s : Shape) (t : Toucher) (q : Sequence) :
    (':' ∉ s.tag ∧ ':' ∉ t.name ∧ ':' ∉ q.tag) ∧ Shape.parse s.tag = some s ∧
      Toucher.parse t.name = some t ∧ Sequence.parse q.tag = some q := by
  cases s <;> cases t <;> cases q <;> decide

/-- A number written in decimal contains no colon, so it can be the last part of a cell's name. -/
theorem colon_not_mem_decimal (n : ℕ) : ':' ∉ decimal n := by
  intro h
  obtain ⟨d, hd, hc⟩ := Text.mem_decimal h
  interval_cases d <;> exact absurd hc (by decide)

/-- The child reads back from its environment variable the cell that the parent wrote there, if the
size fits 64 bits. -/
theorem parseSpec_spec (s : Shape) (t : Toucher) (q : Sequence) {sizeGb : ℕ}
    (h : sizeGb < 2 ^ 64) : parseSpec (spec s t q sizeGb) = some (s, t, q, sizeGb) := by
  obtain ⟨⟨hs, ht, hq⟩, hshape, htoucher, hsequence⟩ := parse_tags s t q
  have hsplit : (spec s t q sizeGb).splitOn ':' = [s.tag, t.name, q.tag, decimal sizeGb] := by
    rw [spec, List.splitOn_append_cons_self_of_not_mem hs,
      List.splitOn_append_cons_self_of_not_mem ht, List.splitOn_append_cons_self_of_not_mem hq,
      List.splitOn_eq_singleton (colon_not_mem_decimal sizeGb)]
  simp only [parseSpec, hsplit, hshape, htoucher, hsequence, Text.parse_decimal h,
    Option.bind_eq_bind, Option.bind_some, Option.pure_def]

/-! ## The child -/

/-- The counters of a ledger reading that a cell uses, in bytes.
Source: `ledger/lib.rs`, `Ledger` -/
structure Ledger where
  physFootprint : ℕ
  reusable : ℕ

/-- Source: `ledger/lib.rs`, `mib` -/
def mib (bytes : ℕ) : ℚ := bytes / (1024 * 1024)

/-- What a child meets: the readings of the ledger, where its guest RAM was allocated, and the
answer to its `madvise`. -/
structure Meets where
  /-- The ledger before anything is allocated. -/
  idle : Ledger
  /-- Where guest RAM was allocated, if it was. -/
  ram : Option ℕ
  /-- The ledger after the pages were touched. -/
  before : Ledger
  /-- What `madvise` returns. -/
  rc : ℤ
  /-- `last_os_error().raw_os_error()` -/
  osError : Option ℤ
  /-- The ledger at the end. -/
  after : Ledger

/-- What became of the advice.
Source: `alloc_shape.rs`, `run_cell` -/
def Meets.status (e : Meets) (sequence : Sequence) : List Char :=
  let skipped := decide (sequence = .unmapOnly)
  let rc := if skipped then 0 else e.rc
  let errno := if rc = 0 then 0 else e.osError.getD (-1)
  if skipped then chars "none"
  else if rc = 0 then chars "ok"
  else chars "errno" ++ integer errno

/-- What a child reports: the status, and the figures as they are printed.
Source: `alloc_shape.rs`, `run_cell` -/
def report (sequence : Sequence) (e : Meets) : Cell :=
  match e.ram with
  | none => allocFailed
  | some _ =>
    { status := e.status sequence
      deltaMib := rounded 1 (deltaMib e.after.physFootprint e.before.physFootprint)
      beforeMib := rounded 1 (mib e.before.physFootprint)
      hostIdleMib := rounded 1 (mib e.idle.physFootprint)
      reusableMib := rounded 1 (deltaMib e.after.reusable e.before.reusable) }

/-- The line a child prints that got its memory.
Source: `alloc_shape.rs`, `run_cell` (the last `println!`) -/
def resultLine (shape : Shape) (toucher : Toucher) (sequence : Sequence) (e : Meets) : List Char :=
  unwords [chars "CELL", shape.tag, toucher.name, sequence.tag, e.status sequence,
    showFixed 1 (deltaMib e.after.physFootprint e.before.physFootprint),
    showFixed 1 (mib e.before.physFootprint),
    showFixed 1 (mib e.idle.physFootprint),
    showFixed 1 (deltaMib e.after.reusable e.before.reusable)] ++ ['\n']

/-- What a child leaves behind: what it printed, and the `madvise` calls it made over guest RAM. -/
structure Child where
  stdout : List Char
  /-- The `madvise` calls over guest RAM: address, length and advice. -/
  advised : List (ℕ × ℕ × ℤ)

/-- Source: `alloc_shape.rs`, `run_cell` -/
def runCell (shape : Shape) (toucher : Toucher) (sequence : Sequence) (size : ℕ) (e : Meets) :
    Child :=
  match e.ram with
  | none => ⟨allocFailedLine shape toucher sequence, []⟩
  | some ram =>
    ⟨resultLine shape toucher sequence e,
      if sequence = .unmapOnly then [] else [(ram, size, madvFreeReusable)]⟩

/-- The child reads its cell and runs it; `none` is a panic. `env` is what the cells meet.
Source: `alloc_shape.rs`, `maybe_run_cell` -/
def maybeRunCell (env : Shape → Toucher → Sequence → Meets) (spec : List Char) : Option Child :=
  (parseSpec spec).map fun (shape, toucher, sequence, sizeGb) =>
    runCell shape toucher sequence ((sizeGb <<< 30) % 2 ^ 64) (env shape toucher sequence)

/-! ## The line on standard output -/

/-- The line the parent looks for, the one that begins with `CELL `; all other lines are ignored. -/
def isCell (line : List Char) : Bool := (chars "CELL ").isPrefixOf line

/-- The four figures of a line as the parent reads them, before a default stands in for one that
cannot be read.
Source: `alloc_shape.rs`, `run` (the arguments of `unwrap_or(0.0)`) -/
def readFigures (parse : List Char → Option ℚ) (stdout : List Char) : Option (List (Option ℚ)) := do
  let line ← (Text.lines stdout).find? isCell
  let f := Text.splitWhitespace line
  return [f[5]?.bind parse, f[6]?.bind parse, f[7]?.bind parse, f[8]?.bind parse]

/-- The parent reads `c`, and none of its figures is a default. -/
structure Reads (parse : List Char → Option ℚ) (stdout : List Char) (c : Cell) : Prop where
  cell : readCell parse stdout = some c
  figures : readFigures parse stdout =
    some [some c.deltaMib, some c.beforeMib, some c.hostIdleMib, some c.reusableMib]

section line

variable {parse : List Char → Option ℚ} {stdout line shape toucher sequence : List Char}
  {delta before idle reusable : List Char} {c : Cell}

/-- If the line of a cell has nine words, the last four of which can be read, the parent reads the
cell with that status and these figures. -/
theorem reads_of_words (hline : (Text.lines stdout).find? isCell = some line)
    (hwords : Text.splitWhitespace line = [chars "CELL", shape, toucher, sequence, c.status, delta,
      before, idle, reusable])
    (hdelta : parse delta = some c.deltaMib) (hbefore : parse before = some c.beforeMib)
    (hidle : parse idle = some c.hostIdleMib) (hreusable : parse reusable = some c.reusableMib) :
    Reads parse stdout c := by
  have hline' : (Text.lines stdout).find? (fun l => (chars "CELL ").isPrefixOf l) = some line :=
    hline
  constructor
  · simp [readCell, hline', hwords, hdelta, hbefore, hidle, hreusable]
  · simp [readFigures, hline, hwords, hdelta, hbefore, hidle, hreusable]

/-- The first `CELL` line is found behind lines of another kind and before anything else. -/
theorem find_isCell {earlier : List (List Char)} (hcell : isCell line = true)
    (hline : '\n' ∉ line) (hlast : ∀ c ∈ line.getLast?, Text.isWhitespace c = false)
    (hearlier : ∀ l ∈ earlier, '\n' ∉ l ∧ isCell l = false) (later : List Char) :
    (Text.lines (earlier.flatMap (· ++ ['\n']) ++ (line ++ '\n' :: later))).find? isCell =
      some line := by
  induction earlier with
  | nil =>
      rw [List.flatMap_nil, List.nil_append, Text.lines_cons hline,
        Text.stripCr_of_visible hlast, List.find?_cons_of_pos hcell]
  | cons l earlier ih =>
      obtain ⟨hl, hother⟩ := hearlier l (by simp)
      have hstrip : isCell (Text.stripCr l) = false := by
        rw [← Bool.not_eq_true, isCell, List.isPrefixOf_iff_prefix] at hother ⊢
        exact fun h => hother (h.trans (Text.stripCr_prefix l))
      rw [List.flatMap_cons, List.append_assoc, List.append_assoc, List.singleton_append,
        Text.lines_cons hl, List.find?_cons_of_neg (by simp [hstrip])]
      exact ih fun l' hl' => hearlier l' (List.mem_cons_of_mem _ hl')

end line

/-- The status a child prints is one word, so it is one column of its line. -/
theorem status_word (e : Meets) (q : Sequence) : Word (e.status q) := by
  unfold Meets.status
  simp only
  split_ifs
  · exact ⟨Text.forall_mem_of_all (by decide), by decide⟩
  · exact ⟨Text.forall_mem_of_all (by decide), by decide⟩
  · refine ⟨fun c hc => ?_, by simp [chars]⟩
    rcases List.mem_append.mp hc with h | h
    · exact Text.forall_mem_of_all (b := false) (by decide) c h
    · exact Text.isWhitespace_of_mem_integer h

/-- The tags of shape, toucher and sequence are one word each. -/
theorem tags_word (s : Shape) (t : Toucher) (q : Sequence) :
    Word s.tag ∧ Word t.name ∧ Word q.tag := by
  cases s <;> cases t <;> cases q <;>
    exact ⟨⟨Text.forall_mem_of_all (by decide), by decide⟩,
      ⟨Text.forall_mem_of_all (by decide), by decide⟩,
      ⟨Text.forall_mem_of_all (by decide), by decide⟩⟩

/-- Nine words, of which the first is `CELL`, are read as a cell wherever they are the first such
line. -/
theorem reads_unwords {parse : List Char → Option ℚ} {earlier : List (List Char)}
    (hearlier : ∀ l ∈ earlier, '\n' ∉ l ∧ isCell l = false) {s : Shape} {t : Toucher}
    {q : Sequence} {status delta before idle reusable : List Char} {x y z v : ℚ}
    (hstatus : Word status) (hfigures : Word delta ∧ Word before ∧ Word idle ∧ Word reusable)
    (hdelta : parse delta = some x) (hbefore : parse before = some y) (hidle : parse idle = some z)
    (hreusable : parse reusable = some v) (later : List Char) :
    Reads parse (earlier.flatMap (· ++ ['\n']) ++ (unwords [chars "CELL", s.tag, t.name, q.tag,
      status, delta, before, idle, reusable] ++ '\n' :: later)) ⟨status, x, y, z, v⟩ := by
  obtain ⟨hs, ht, hq⟩ := tags_word s t q
  obtain ⟨hd, hb, hi, hr⟩ := hfigures
  have hcell : Word (chars "CELL") := ⟨Text.forall_mem_of_all (by decide), by decide⟩
  have hwords : ∀ w ∈ [chars "CELL", s.tag, t.name, q.tag, status, delta, before, idle,
      reusable], Word w := by
    simp only [List.mem_cons, List.not_mem_nil, or_false, forall_eq_or_imp, forall_eq]
    exact ⟨hcell, hs, ht, hq, hstatus, hd, hb, hi, hr⟩
  refine reads_of_words (find_isCell rfl (Text.newline_not_mem_unwords hwords)
    (Text.getLast?_unwords hwords) hearlier later) (Text.splitWhitespace_unwords hwords)
    hdelta hbefore hidle hreusable

/-- **From the child's figures to the parent's.** Whatever lines stand before the child's line and
whatever follows it, the parent reads what the child reported. -/
theorem reads_runCell (s : Shape) (t : Toucher) (q : Sequence) (size : ℕ) (e : Meets)
    (earlier : List (List Char)) (hearlier : ∀ l ∈ earlier, '\n' ∉ l ∧ isCell l = false)
    (later : List Char) :
    Reads parseFloat (earlier.flatMap (· ++ ['\n']) ++ ((runCell s t q size e).stdout ++ later))
      (report q e) := by
  cases hram : e.ram with
  | none =>
      have hzero : parseFloat (chars "0") = some 0 := by decide +kernel
      have hword : Word (chars "0") := ⟨Text.forall_mem_of_all (by decide), by decide⟩
      have hstatus : Word allocFailed.status := ⟨Text.forall_mem_of_all (by decide), by decide⟩
      have hline : allocFailedLine s t q = unwords [chars "CELL", s.tag, t.name, q.tag,
          allocFailed.status, chars "0", chars "0", chars "0", chars "0"] ++ ['\n'] := by
        simp [allocFailedLine, unwords, allocFailed, chars]
      have hreport : report q e = allocFailed := by rw [report, hram]
      have hout : (runCell s t q size e).stdout = allocFailedLine s t q := by rw [runCell, hram]
      rw [hreport, hout, hline, List.append_assoc, List.singleton_append]
      exact reads_unwords hearlier hstatus ⟨hword, hword, hword, hword⟩
        hzero hzero hzero hzero later
  | some ram =>
      have hword := Text.showFixed_word 1
      have hread := Text.parseFloat_showFixed 1
      have hout : (runCell s t q size e).stdout = resultLine s t q e := by rw [runCell, hram]
      rw [report, hram, hout, resultLine, List.append_assoc, List.singleton_append]
      refine reads_unwords hearlier (status_word e q) ?_ ?_ ?_ ?_ ?_ later
      · exact ⟨hword _, hword _, hword _, hword _⟩
      · exact hread _
      · exact hread _
      · exact hread _
      · exact hread _

/-! ## The whole matrix -/

section matrix

variable (env : Shape → Toucher → Sequence → Meets)

/-- What the child of a cell prints. A child that panics prints no line.
Source: `alloc_shape.rs`, `run` (`Command::new(&exe).env(CELL_ENV, &spec).output()`) -/
def childStdout (sizeGb : ℕ) (s : Shape) (t : Toucher) (q : Sequence) : List Char :=
  ((maybeRunCell env (spec s t q sizeGb)).map Child.stdout).getD []

/-- The rows of the table; `none` is a panic.
Source: `alloc_shape.rs`, `run` (the three loops) -/
def measure (sizeGb : ℕ) : Option (List Row) := collectRows parseFloat (childStdout env sizeGb)

/-- The child runs the cell the parent asked for: the one whose name stands in its environment
variable. -/
theorem maybeRunCell_spec (s : Shape) (t : Toucher) (q : Sequence) {sizeGb : ℕ}
    (h : sizeGb < 2 ^ 64) : maybeRunCell env (spec s t q sizeGb) =
      some (runCell s t q ((sizeGb <<< 30) % 2 ^ 64) (env s t q)) := by
  rw [maybeRunCell, parseSpec_spec s t q h, Option.map_some]

/-- **The matrix.** Every row carries what the child of its cell reported. -/
theorem measure_eq {sizeGb : ℕ} (h : sizeGb < 2 ^ 64) :
    measure env sizeGb = some (rows fun s t q => report q (env s t q)) := by
  have hread : ∀ s t q, readCell parseFloat (childStdout env sizeGb s t q) =
      some (report q (env s t q)) := by
    intro s t q
    have hreads := reads_runCell s t q ((sizeGb <<< 30) % 2 ^ 64) (env s t q) [] (by simp) []
    rw [List.flatMap_nil, List.nil_append, List.append_nil] at hreads
    rw [childStdout, maybeRunCell_spec env s t q h]
    exact hreads.cell
  simp only [measure, collectRows, hread, Option.map_some]
  exact List.mapM_pure

end matrix

/-- **The cell protocol round-trips.** The child reads back the cell and the size it was given,
whatever they are; the parent reads the status and the four figures the child printed, each in its
own field and none of them a default, for every reading of the ledger, every return code and error
number and for a failed allocation, from whatever output has the child's line as its first `CELL`
line; and so the rows of the matrix are the reports of the children. -/
theorem cell_protocol_round_trips (s : Shape) (t : Toucher) (q : Sequence) (sizeGb : UInt64)
    (env : Shape → Toucher → Sequence → Meets) (earlier : List (List Char))
    (hearlier : ∀ l ∈ earlier, '\n' ∉ l ∧ isCell l = false) (later : List Char) :
    parseSpec (spec s t q sizeGb.toNat) = some (s, t, q, sizeGb.toNat) ∧
      (∃ child, maybeRunCell env (spec s t q sizeGb.toNat) = some child ∧
        Reads parseFloat (earlier.flatMap (· ++ ['\n']) ++ (child.stdout ++ later))
          (report q (env s t q))) ∧
      measure env sizeGb.toNat = some (rows fun s t q => report q (env s t q)) := by
  have hsize : sizeGb.toNat < 2 ^ 64 := sizeGb.toNat_lt
  refine ⟨parseSpec_spec s t q hsize, ⟨_, maybeRunCell_spec env s t q hsize, ?_⟩, ?_⟩
  · exact reads_runCell s t q _ (env s t q) earlier hearlier later
  · exact measure_eq env hsize

/-- A child behind a line of another kind, on a machine whose `madvise` fails. -/
theorem cell_protocol_round_trips_errno :
    let e : Meets := ⟨⟨10485760, 0⟩, some 0, ⟨4303355904, 0⟩, -1, some 22, ⟨4303093760, 16384⟩⟩
    (∃ child, maybeRunCell (fun _ _ _ => e) (spec .mmapShared .guest .inPlace 4) = some child ∧
      Reads parseFloat (chars "hello\n" ++ (child.stdout ++ chars "bye")) (report .inPlace e)) ∧
    report .inPlace e = ⟨chars "errno22", -2 / 10, 4104, 10, 0⟩ := by
  refine ⟨?_, by decide +kernel⟩
  have hearlier : ∀ l ∈ [chars "hello"], '\n' ∉ l ∧ isCell l = false := by decide
  exact (cell_protocol_round_trips .mmapShared .guest .inPlace 4 _ [chars "hello"] hearlier
    (chars "bye")).2.1

end VmRatchet.AllocShape
