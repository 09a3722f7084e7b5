import Mathlib.Algebra.Order.Ring.Rat
import Mathlib.Tactic.NormNum
import VmRatchet.Lib.Text

/-!
# The verdict of the allocation-shape matrix

`alloc_shape::run` measures eighteen cells, each in a child process of its own, prints them as a
table and draws three conclusions. The table is three-valued: a cell that was never charged for
its memory says nothing about releasing it. The conclusions are drawn with a two-valued predicate,
so a cell that says nothing counts for the negative ones.

* `collectRows`, `rows` — the matrix, from the line each child prints.
* `Row.released`, `Row.column` — the predicate and the column of the table; `column_eq_no_iff`.
* `verdict` — the three conclusions.
* `Supported` — every negative conclusion rests on cells that were charged and did not release.
* `verdict_supported_iff` — when that is so.

Measurements are exact rational numbers here, where the code subtracts, halves and compares in
`f64`: every statement of this module is about the exact figures. The formatting of the table and
of the texts is left out; a conclusion carries the numbers its text shows.
-/

namespace VmRatchet.AllocShape

open Text (chars)

/-! ## The matrix -/

/-- Source: `alloc_shape.rs`, `Shape` -/
inductive Shape
  | mmapPrivate
  | mmapShared
  | hvAllocate
  deriving DecidableEq

/-- Source: `alloc_shape.rs`, `Toucher` -/
inductive Toucher
  | host
  | guest
  deriving DecidableEq

/-- Source: `alloc_shape.rs`, `Sequence` -/
inductive Sequence
  | inPlace
  | unmapFirst
  | unmapOnly
  deriving DecidableEq

/-- Source: `alloc_shape.rs`, `Shape::tag` -/
def Shape.tag : Shape → List Char
  | .mmapPrivate => chars "private"
  | .mmapShared => chars "shared"
  | .hvAllocate => chars "hvalloc"

/-- Source: `alloc_shape.rs`, `Toucher::name` -/
def Toucher.name : Toucher → List Char
  | .host => chars "host"
  | .guest => chars "guest"

/-- Source: `alloc_shape.rs`, `Sequence::tag` -/
def Sequence.tag : Sequence → List Char
  | .inPlace => chars "inplace"
  | .unmapFirst => chars "unmap"
  | .unmapOnly => chars "unmaponly"

/-- What one child reports. `status` says what became of the advice, or that there was no memory
to advise.
Source: `alloc_shape.rs`, `Row` (the measured part) -/
structure Cell where
  status : List Char
  deltaMib : ℚ
  beforeMib : ℚ
  hostIdleMib : ℚ
  /-- Change in the `reusable` counter. -/
  reusableMib : ℚ
  deriving DecidableEq

/-- Source: `alloc_shape.rs`, `Row` -/
structure Row extends Cell where
  shape : Shape
  toucher : Toucher
  sequence : Sequence
  deriving DecidableEq

/-- The report of a child whose allocation failed: no toucher ran and nothing was measured, and its
figures are printed as zeros. -/
def allocFailed : Cell := ⟨chars "alloc-failed", 0, 0, 0, 0⟩

/-- The cells, in the order in which `run` measures them.
Source: `alloc_shape.rs`, `run` (the three loops) -/
def cells : List (Shape × Toucher × Sequence) :=
  [Shape.mmapPrivate, .mmapShared, .hvAllocate].flatMap fun shape =>
    [Toucher.host, .guest].flatMap fun toucher =>
      [Sequence.inPlace, .unmapFirst, .unmapOnly].map fun sequence => (shape, toucher, sequence)

/-- What each cell measured: one report for every shape, toucher and sequence. -/
def Matrix : Type := Shape → Toucher → Sequence → Cell

/-- The row of one cell, the report of its child under the cell's own shape, toucher and
sequence. -/
def Matrix.row (m : Matrix) (c : Shape × Toucher × Sequence) : Row :=
  { m c.1 c.2.1 c.2.2 with shape := c.1, toucher := c.2.1, sequence := c.2.2 }

/-- All rows. -/
def rows (m : Matrix) : List Row := cells.map m.row

/-- Read the line a child printed; `none` is a panic. `parse` reads a number.
Source: `alloc_shape.rs`, `run` (the body of the loops) -/
def readCell (parse : List Char → Option ℚ) (stdout : List Char) : Option Cell := do
  let line ← (Text.lines stdout).find? fun l => (chars "CELL ").isPrefixOf l
  let f := Text.splitWhitespace line
  let status ← f[4]?
  let delta ← f[5]?
  return {
    status
    deltaMib := (parse delta).getD 0
    beforeMib := (f[6]?.bind parse).getD 0
    hostIdleMib := (f[7]?.bind parse).getD 0
    reusableMib := (f[8]?.bind parse).getD 0 }

/-- What a child prints whose allocation failed.
Source: `alloc_shape.rs`, `run_cell` -/
def allocFailedLine (shape : Shape) (toucher : Toucher) (sequence : Sequence) : List Char :=
  chars "CELL " ++ shape.tag ++ chars " " ++ toucher.name ++ chars " " ++ sequence.tag ++
    chars " alloc-failed 0 0 0 0\n"

/-- Measure the whole matrix: `stdout` is what the child of each cell prints.
Source: `alloc_shape.rs`, `run` -/
def collectRows (parse : List Char → Option ℚ) (stdout : Shape → Toucher → Sequence → List Char) :
    Option (List Row) :=
  cells.mapM fun c => (readCell parse (stdout c.1 c.2.1 c.2.2)).map fun cell =>
    { cell with shape := c.1, toucher := c.2.1, sequence := c.2.2 }

/-- If a list is mapped by a function that may fail and does not, and every success is `g` of its
argument, the result is the image of the list under `g`. -/
theorem eq_map_of_mapM {α β : Type} {f : α → Option β} {g : α → β}
    (hg : ∀ a b, f a = some b → b = g a) {l : List α} {bs : List β} (h : l.mapM f = some bs) :
    bs = l.map g := by
  induction l generalizing bs with
  | nil => simpa using h.symm
  | cons a l ih =>
      rw [List.mapM_cons] at h
      obtain ⟨b, hb, h⟩ := Option.bind_eq_some_iff.mp h
      obtain ⟨bs', hbs', h⟩ := Option.bind_eq_some_iff.mp h
      cases h
      rw [List.map_cons, ← ih hbs', ← hg a b hb]

/-- What is collected from the children, if all their lines can be read, is the list of rows of a
matrix, one for each cell in the order in which they run. -/
theorem collectRows_eq_rows {parse : List Char → Option ℚ}
    {stdout : Shape → Toucher → Sequence → List Char} {rs : List Row}
    (h : collectRows parse stdout = some rs) : ∃ m, rs = rows m := by
  refine ⟨fun s t q => (readCell parse (stdout s t q)).getD allocFailed, eq_map_of_mapM ?_ h⟩
  intro c r hr
  obtain ⟨cell, hcell, rfl⟩ := Option.map_eq_some_iff.mp hr
  simp only [Matrix.row, hcell, Option.getD_some]

/-- Every combination of shape, toucher and sequence is one of the cells that are measured. -/
theorem mem_cells (c : Shape × Toucher × Sequence) : c ∈ cells := by
  obtain ⟨s, t, q⟩ := c
  cases s <;> cases t <;> cases q <;> decide

/-- The rows of a matrix are those of its cells, and no others. -/
theorem mem_rows {m : Matrix} {r : Row} : r ∈ rows m ↔ ∃ c, m.row c = r := by
  simp [rows, mem_cells]

/-! ## The table -/

/-- What the cell was charged for its memory.
Source: `alloc_shape.rs`, `run` (`charged`) -/
def Row.charge (r : Row) : ℚ := r.beforeMib - r.hostIdleMib

/-- The ledger went down by at least half of what the cell was charged. This is a comparison of
exact rationals, where the code compares the `f64` that its subtraction and its product are rounded
to: a row whose drop is within that rounding of one half may fall on the other side there.
Source: `alloc_shape.rs`, `run` (`r.delta_mib <= -(charged * 0.5)`) -/
def Row.Moved (r : Row) : Prop := r.deltaMib ≤ -(r.charge * (1 / 2))

instance (r : Row) : Decidable r.Moved := inferInstanceAs (Decidable (_ ≤ _))

/-- The cell was charged at least 64 MiB and the ledger went down by at least half of the charge.
Both comparisons are of exact rationals (see `Row.Moved`).
Source: `alloc_shape.rs`, `run` (the closure `released`) -/
def Row.released (r : Row) : Bool := decide (64 ≤ r.charge) && decide r.Moved

/-- The last column of the table. -/
inductive Column
  /-- `n/a` -/
  | notApplicable
  /-- `YES` -/
  | yes
  /-- `no` -/
  | no
  deriving DecidableEq

/-- The column of a row: `n/a` below a charge of 64 MiB, else whether the ledger moved. It rests on
the same exact comparisons as `Row.released`, as the two of the code rest on the same rounded
ones.
Source: `alloc_shape.rs`, `run` (the loop that prints the table) -/
def Row.column (r : Row) : Column :=
  if r.charge < 64 then .notApplicable
  else if r.Moved then .yes
  else .no

/-- The cell was charged: its delta was at least 64 MiB, the threshold of the code. -/
def Row.Charged (r : Row) : Prop := 64 ≤ r.charge

/-- There was memory to measure, that is, the status is not `alloc-failed`. -/
def Row.Allocated (r : Row) : Prop := r.status ≠ chars "alloc-failed"

/-- The column and the predicate agree where the column says `YES`: it says so of exactly the rows
that `released` holds of. -/
theorem column_eq_yes_iff (r : Row) : r.column = .yes ↔ r.released = true := by
  unfold Row.column Row.released
  split_ifs with h₁ h₂
  · simp [h₁]
  · simp [h₂, not_lt.mp h₁]
  · simp [h₂]

/-- The column says `no` of exactly the rows that were charged and that `released` does not hold of.
So it tells a cell that kept its memory from one that says nothing, which the predicate alone does
not. -/
theorem column_eq_no_iff (r : Row) : r.column = .no ↔ r.Charged ∧ r.released = false := by
  unfold Row.column Row.released Row.Charged
  split_ifs with h₁ h₂
  · simp [h₁]
  · simp [h₂]
  · simp [h₂, not_lt.mp h₁]

/-! ## The conclusions -/

/-- Is allocation shape what separates the two camps? -/
inductive First
  /-- "Allocation shape IS the precondition" -/
  | isPrecondition
  /-- "Allocation shape is NOT what separates the two camps: in-place advice releases nothing on
  guest-touched pages in any shape tested, including Apple's own hv_vm_allocate." -/
  | notWhatSeparates
  deriving DecidableEq

/-- What does the platform's documented allocator actually give a VMM? -/
inductive Second
  /-- "hv_vm_allocate memory can be released by at least one sequence." -/
  | canBeReleased
  /-- "hv_vm_allocate memory is charged (… MiB) and released by NOTHING here" -/
  | releasedByNothing (hvCharged : ℚ)
  deriving DecidableEq

/-- "The advice is NOT what releases guest memory. … The control holds: unmap alone releases
nothing host-touched", with the four numbers of that text. -/
structure Third where
  without : ℚ
  withAdvice : ℚ
  reusable : ℚ
  hostOnly : ℚ
  deriving DecidableEq

/-- What `run` prints under `verdict:`: which of the alternatives of the first two conclusions, and
whether the third conclusion is printed at all. -/
structure Verdict where
  first : First
  second : Second
  /-- The third conclusion is printed or not. -/
  third : Option Third
  deriving DecidableEq

/-- The row of a cell; `none` is the "cell present" panic.
Source: `alloc_shape.rs`, `run` (the closure `cell`) -/
def cell (rs : List Row) (shape : Shape) (toucher : Toucher) (sequence : Sequence) : Option Row :=
  rs.find? fun r => r.shape = shape ∧ r.toucher = toucher ∧ r.sequence = sequence

/-- Source: `alloc_shape.rs`, `run` (from `verdict:` on) -/
def verdict (rs : List Row) : Option Verdict := do
  let first :=
    if rs.any fun r => r.toucher = .guest ∧ r.sequence = .inPlace ∧ r.released then
      First.isPrecondition
    else First.notWhatSeparates
  let hv ← cell rs .hvAllocate .guest .inPlace
  let second :=
    if rs.any fun r => r.shape = .hvAllocate ∧ r.released then Second.canBeReleased
    else Second.releasedByNothing hv.charge
  let withAdvice ← cell rs .mmapPrivate .guest .unmapFirst
  let without ← cell rs .mmapPrivate .guest .unmapOnly
  let hostOnly ← cell rs .mmapPrivate .host .unmapOnly
  let third :=
    if without.released ∧ withAdvice.released ∧ ¬ hostOnly.released then
      some ⟨without.deltaMib, withAdvice.deltaMib, without.reusableMib, hostOnly.deltaMib⟩
    else none
  return ⟨first, second, third⟩

section matrix

variable (m : Matrix)

/-- `cell` finds the row of every cell, so the `expect` behind it never fails. -/
theorem cell_rows (s : Shape) (t : Toucher) (q : Sequence) :
    cell (rows m) s t q = some (m.row (s, t, q)) := by
  cases s <;> cases t <;> cases q <;> simp [cell, rows, cells, Matrix.row]

/-- The guest-touched cell of a shape that was advised in place, with the guest's mapping still
there. -/
def Matrix.inPlace (s : Shape) : Row := m.row (s, .guest, .inPlace)

/-- The cell of the documented allocator, `hv_vm_allocate`, with the given toucher and sequence. -/
def Matrix.hv (c : Toucher × Sequence) : Row := m.row (.hvAllocate, c)

/-- The control: host-touched private memory, unmapped and not advised. -/
def Matrix.control : Row := m.row (.mmapPrivate, .host, .unmapOnly)

/-- Unmapping alone released guest-touched private memory, and so did unmapping with advice. -/
def Matrix.UnmapReleases : Prop :=
  (m.row (.mmapPrivate, .guest, .unmapOnly)).released = true ∧
    (m.row (.mmapPrivate, .guest, .unmapFirst)).released = true

/-- A guest-touched cell has released in place exactly if such a cell of one of the shapes has. -/
theorem any_inPlace_iff : ((rows m).any fun r =>
    r.toucher = .guest ∧ r.sequence = .inPlace ∧ r.released) = true ↔
      ∃ s, (m.inPlace s).released = true := by
  simp only [List.any_eq_true, decide_eq_true_eq, mem_rows]
  constructor
  · rintro ⟨r, ⟨⟨s, t, q⟩, rfl⟩, rfl, rfl, h⟩
    exact ⟨s, h⟩
  · rintro ⟨s, h⟩
    exact ⟨_, ⟨(s, .guest, .inPlace), rfl⟩, rfl, rfl, h⟩

/-- A cell of the documented allocator has released exactly if one of its six has. -/
theorem any_hv_iff : ((rows m).any fun r => r.shape = .hvAllocate ∧ r.released) = true ↔
      ∃ c, (m.hv c).released = true := by
  simp only [List.any_eq_true, decide_eq_true_eq, mem_rows]
  constructor
  · rintro ⟨r, ⟨⟨s, c⟩, rfl⟩, rfl, h⟩
    exact ⟨c, h⟩
  · rintro ⟨c, h⟩
    exact ⟨_, ⟨(.hvAllocate, c), rfl⟩, rfl, h⟩

/-- **The conclusions of a matrix.** They are always drawn; the first and the second are negative
where no cell of theirs released, the third is drawn where unmapping releases and the control did
not. -/
theorem verdict_rows : ∃ v, verdict (rows m) = some v ∧
    (v.first = .notWhatSeparates ↔ ∀ s, (m.inPlace s).released = false) ∧
    ((∃ x, v.second = .releasedByNothing x) ↔ ∀ c, (m.hv c).released = false) ∧
    (v.third ≠ none ↔ m.UnmapReleases ∧ m.control.released = false) := by
  have h₁ := any_inPlace_iff m
  have h₂ := any_hv_iff m
  unfold verdict
  simp only [cell_rows, Option.bind_eq_bind, Option.bind_some, Option.pure_def,
    Option.some.injEq, exists_eq_left']
  refine ⟨?_, ?_, ?_⟩
  · split_ifs with h
    · rw [h₁] at h
      simpa using h
    · rw [h₁] at h
      simpa using h
  · split_ifs with h
    · rw [h₂] at h
      simpa using h
    · rw [h₂] at h
      simpa using h
  · simp [Matrix.UnmapReleases, Matrix.control, and_assoc]

end matrix

/-! ## When a negative conclusion is supported -/

/-- The cell kept memory it was charged for: it is a measurement, and by the figures as printed at
least half of the charge was still there after the advice. -/
structure Row.Kept (r : Row) : Prop where
  charged : r.Charged
  allocated : r.Allocated
  released : r.released = false

/-- Every negative conclusion rests on cells that kept memory they were charged for; a cell that
was not charged or failed supports none. -/
structure Supported (m : Matrix) (v : Verdict) : Prop where
  first : v.first = .notWhatSeparates → ∀ s, (m.inPlace s).Kept
  second : (∃ x, v.second = .releasedByNothing x) → ∀ c, (m.hv c).Kept
  third : v.third ≠ none → m.control.Kept

/-- A family of cells can be judged: one of them released, or all of them were charged. -/
def Judged {ι : Type} (r : ι → Row) : Prop :=
  (∃ i, (r i).released = true) ∨ ∀ i, (r i).Charged ∧ (r i).Allocated

/-- "None released" means "all kept" exactly where the family can be judged. -/
theorem judged_iff {ι : Type} {r : ι → Row} :
    ((∀ i, (r i).released = false) → ∀ i, (r i).Kept) ↔ Judged r := by
  constructor
  · intro h
    by_cases hrel : ∃ i, (r i).released = true
    · exact .inl hrel
    · right
      intro i
      have hkept := h (by simpa using hrel) i
      exact ⟨hkept.charged, hkept.allocated⟩
  · rintro (⟨i, hi⟩ | hall) hnone
    · rw [hnone i] at hi
      cases hi
    · intro i
      exact ⟨(hall i).1, (hall i).2, hnone i⟩

/-- **When the verdict is supported by the table.** For every matrix: if some guest-touched cell
released in place or all of these cells were charged, and the same for the cells of
`hv_vm_allocate`, and for the control where unmapping releases guest-touched memory — and in no
other case. -/
theorem verdict_supported_iff (m : Matrix) : ∃ v, verdict (rows m) = some v ∧
    (Supported m v ↔ Judged m.inPlace ∧ Judged m.hv ∧
      (m.UnmapReleases → Judged fun _ : Unit => m.control)) := by
  obtain ⟨v, hv, hfirst, hsecond, hthird⟩ := verdict_rows m
  refine ⟨v, hv, ?_⟩
  rw [← judged_iff, ← judged_iff, ← judged_iff]
  constructor
  · intro h
    refine ⟨fun hnone => h.first (hfirst.mpr hnone), fun hnone => h.second (hsecond.mpr hnone), ?_⟩
    intro hunmap hnone _
    exact h.third (hthird.mpr ⟨hunmap, hnone ()⟩)
  · rintro ⟨h₁, h₂, h₃⟩
    refine ⟨fun h => h₁ (hfirst.mp h), fun h => h₂ (hsecond.mp h), fun h => ?_⟩
    obtain ⟨hunmap, hnone⟩ := hthird.mp h
    exact h₃ hunmap (fun _ => hnone) ()

/-- A machine whose allocator refuses the size, and on which unmapping releases guest-touched
memory and advice host-touched memory. -/
def refused : Matrix
  | .hvAllocate, _, _ => allocFailed
  | _, .guest, .inPlace => ⟨chars "ok", 0, 4200, 10, 0⟩
  | _, .guest, .unmapFirst => ⟨chars "ok", -4096, 4200, 10, 0⟩
  | _, .guest, .unmapOnly => ⟨chars "none", -4096, 4200, 10, 0⟩
  | _, .host, .unmapOnly => ⟨chars "none", 0, 4200, 10, 0⟩
  | _, .host, _ => ⟨chars "ok", -4096, 4200, 10, 4096⟩

/-- There `run` says that memory it never got "is charged and released by NOTHING". -/
theorem verdict_not_supported : ∃ v, verdict (rows refused) = some v ∧ ¬ Supported refused v := by
  obtain ⟨v, hv, -, hsecond, -⟩ := verdict_rows refused
  refine ⟨v, hv, fun h => ?_⟩
  have hnone : ∀ c, (refused.hv c).released = false := by
    intro c
    simp [Matrix.hv, Matrix.row, refused, allocFailed, Row.released, Row.charge]
  have hcharged := (h.second (hsecond.mpr hnone) (.guest, .inPlace)).charged
  norm_num [Row.Charged, Row.charge, Matrix.hv, Matrix.row, refused, allocFailed] at hcharged

end VmRatchet.AllocShape
