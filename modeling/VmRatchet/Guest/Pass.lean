import Mathlib.Tactic.IntervalCases
import VmRatchet.Guest.Vcpu

/-!
# The pass machine: what the five programs do, instruction by instruction

The five programs share one shape: an optional entry (`mov x1, x6`), a body of one to four
instructions on the word under the cursor, the stride, the comparison with the end, the branch
back, and the doorbell. `PState` is a vCPU seen at that level — a location `Loc` in the program
and the three working registers — and `passStep` is one instruction on it.

`vcpuStep_sim` connects the level to the machine: from a register file that stands at location
`s` of pass `p` (`Sim p s c`), one vCPU instruction does exactly what `passStep` says, provided
that the pass `Fits` its mapping. Everything later — the sequential refinement, the soak, the
hammer — argues about `passStep` and never about instruction words again.
-/

namespace VmRatchet.Guest

open Arm64 ByteMemory

/-! ## Geometry of a pass -/

namespace Pass

/-- Guest-physical address of the first word of the pass. -/
def base (p : Pass) : ℕ := ramGpa + p.startOff

/-- The number of pages a pass visits: `⌈(endOff - startOff) / PAGE⌉`. -/
def pages (p : Pass) : ℕ := (p.endOff - p.startOff + (page - 1)) / page

/-- Guest-physical address of the word visited in page `i`. -/
def word (p : Pass) (i : ℕ) : ℕ := p.base + i * page

/-- What a pass needs of its range: it is nonempty, its words are stage-2 mapped, its cursor does
not wrap, and the doorbell is unmapped. -/
structure Fits (p : Pass) (mapped : ℕ → Bool) : Prop where
  lt : p.startOff < p.endOff
  cursor_lt : p.word p.pages < 2 ^ 64
  end_lt : ramGpa + p.endOff < 2 ^ 64
  words_mapped : ∀ i < p.pages, ∀ b < 8, mapped (p.word i + b) = true
  doorbell_unmapped : mapped doorbellGpa.toNat = false

/-- The words of distinct pages share no byte. -/
theorem word_disjoint (p : Pass) {i j : ℕ} (h : i ≠ j) :
    p.word i + 8 ≤ p.word j ∨ p.word j + 8 ≤ p.word i := by
  unfold word page
  omega

/-- The cursor is below the end exactly while a page is left. -/
theorem word_lt_end_iff (p : Pass) (h : p.startOff < p.endOff) (i : ℕ) :
    p.word i < ramGpa + p.endOff ↔ i < p.pages := by
  unfold word base pages page
  omega

/-- A pass over a nonempty range visits at least one page. -/
theorem pages_pos (p : Pass) (h : p.startOff < p.endOff) : 0 < p.pages := by
  unfold pages page
  omega

/-- The addresses of the words grow with the page. -/
theorem word_mono (p : Pass) {i j : ℕ} (h : i ≤ j) : p.word i ≤ p.word j := by
  unfold word page
  omega

/-- From one word to the next the cursor advances by the page size, 16 KiB. -/
theorem word_succ (p : Pass) (i : ℕ) : p.word (i + 1) = p.word i + 16384 := by
  unfold word page
  omega

/-- The addresses of the words visited, and that of the cursor behind the last of them, are
representable in 64 bits. -/
theorem Fits.word_lt {p : Pass} {mapped : ℕ → Bool} (h : p.Fits mapped) {i : ℕ}
    (hi : i ≤ p.pages) : p.word i < 2 ^ 64 :=
  lt_of_le_of_lt (p.word_mono hi) h.cursor_lt

end Pass

/-! ## Locations -/

/-- A location in a program. `i` is the page under the cursor. -/
inductive Loc
  /-- `mov x1, x6`: the entry of the hammer. -/
  | enter
  /-- Instruction `j` of the body. -/
  | body (j i : ℕ)
  /-- `add x1, x1, #4, lsl 12`. -/
  | advance (i : ℕ)
  /-- `cmp x1, x2`, the cursor already advanced past page `i`. -/
  | compare (i : ℕ)
  /-- `b.lo loop`. -/
  | branch (i : ℕ)
  /-- `add x4, x4, #1`: the hammer counts a sweep. -/
  | finish
  /-- The store to the doorbell. -/
  | doorbell
  /-- `b outer`: the hammer starts over. -/
  | again
  deriving DecidableEq

/-- The length of a program's body, the instructions between the loop's entry and its step to the
next page. -/
def Program.bodyLen : Program → ℕ
  | .hammer => 3
  | .verify => 4
  | _ => 1

/-- The instructions of the outer loop before the body; only the hammer has one, which sets its page
register for the next sweep. -/
def Program.lead : Program → ℕ
  | .hammer => 1
  | _ => 0

namespace Loc

/-- The instruction index of a location, counted from the program's first instruction. -/
def index (P : Program) : Loc → ℕ
  | enter => 0
  | body j _ => P.lead + j
  | advance _ => P.lead + P.bodyLen
  | compare _ => P.lead + P.bodyLen + 1
  | branch _ => P.lead + P.bodyLen + 2
  | finish => 7
  | doorbell => P.lead + P.bodyLen + 3 + P.lead
  | again => 9

/-- The locations a program has, for a pass over `n` pages. -/
def Valid (P : Program) (n : ℕ) : Loc → Prop
  | enter => P = .hammer
  | body j i => j < P.bodyLen ∧ i < n
  | advance i => i < n
  | compare i => i < n
  | branch i => i < n
  | finish => P = .hammer
  | doorbell => True
  | again => P = .hammer

/-- The page whose word address the cursor `x1` holds, where the program still uses it. -/
def cursor : Loc → Option ℕ
  | body _ i => some i
  | advance i => some i
  | compare i => some (i + 1)
  | branch i => some (i + 1)
  | _ => none

/-- How many of the `n` pages have been dealt with at a location; behind the page loop it is all of
them. -/
def progress (n : ℕ) : Loc → ℕ
  | enter => 0
  | body _ i => i
  | advance i => i + 1
  | compare i => i + 1
  | branch i => i + 1
  | finish => n
  | doorbell => n
  | again => n

end Loc

/-! ## The pass machine -/

/-- A vCPU inside a pass: its location, the working registers, and the outcome of the last word
comparison. -/
structure PState where
  loc : Loc
  x4 : BitVec 64
  x5 : BitVec 64
  x6 : BitVec 64
  eq : Bool

/-- The first instruction of the body on page `i`: the touch pass stores, the others load the page's
word. -/
def bodyFirst (p : Pass) (i : ℕ) (s : PState) (m : Mem) : PState × Mem :=
  match p.prog with
  | .touch => ({ s with loc := .advance i }, store64 m (p.word i) (BitVec.ofNat 64 (p.word i)))
  | .read => ({ s with loc := .advance i, x5 := load64 m (p.word i) }, m)
  | .fill => ({ s with loc := .advance i }, store64 m (p.word i) s.x5)
  | .hammer => ({ s with loc := .body 1 i, x5 := load64 m (p.word i) }, m)
  | .verify => ({ s with loc := .body 1 i, x6 := load64 m (p.word i) }, m)

/-- One instruction of a pass; `none` when it rings the doorbell. -/
def passStep (p : Pass) (s : PState) (m : Mem) : Option (PState × Mem) :=
  match s.loc with
  | .enter => some ({ s with loc := .body 0 0 }, m)
  | .body 0 i => some (bodyFirst p i s m)
  | .body 1 i =>
      if p.prog = .hammer then some ({ s with loc := .body 2 i, x5 := s.x5 + 1 }, m)
      else some ({ s with loc := .body 2 i, eq := s.x6 == s.x5 }, m)
  | .body 2 i =>
      if p.prog = .hammer then some ({ s with loc := .advance i }, store64 m (p.word i) s.x5)
      else some ({ s with loc := if s.eq then .advance i else .body 3 i }, m)
  | .body _ i => some ({ s with loc := .advance i, x4 := s.x4 + 1 }, m)
  | .advance i => some ({ s with loc := .compare i }, m)
  | .compare i => some ({ s with loc := .branch i }, m)
  | .branch i =>
      some ({ s with loc := if i + 1 < p.pages then .body 0 (i + 1)
        else if p.prog = .hammer then .finish else .doorbell }, m)
  | .finish => some ({ s with loc := .doorbell, x4 := s.x4 + 1 }, m)
  | .doorbell => none
  | .again => some ({ s with loc := .enter }, m)

section equations

variable {p : Pass} {s : PState} {m : Mem} {i : ℕ}

/-- From the entry of the hammer the pass comes to the body of its first page. -/
theorem passStep_enter (h : s.loc = .enter) :
    passStep p s m = some ({ s with loc := .body 0 0 }, m) := by
  simp only [passStep, h]

/-- The first instruction of a body does what `bodyFirst` says of the program: load, touch, read or
fill. -/
theorem passStep_body_zero (h : s.loc = .body 0 i) :
    passStep p s m = some (bodyFirst p i s m) := by
  simp only [passStep, h]

/-- The second instruction of the hammer's body adds one to the loaded word. -/
theorem passStep_increment (h : s.loc = .body 1 i) (hp : p.prog = .hammer) :
    passStep p s m = some ({ s with loc := .body 2 i, x5 := s.x5 + 1 }, m) := by
  simp only [passStep, h, hp, if_true]

/-- The third instruction of the hammer's body stores the word back and ends the page. -/
theorem passStep_store (h : s.loc = .body 2 i) (hp : p.prog = .hammer) :
    passStep p s m = some ({ s with loc := .advance i }, store64 m (p.word i) s.x5) := by
  simp only [passStep, h, hp, if_true]

/-- The second instruction of the verifier's body compares the loaded word with the expected one. -/
theorem passStep_compare_word (h : s.loc = .body 1 i) (hp : p.prog ≠ .hammer) :
    passStep p s m = some ({ s with loc := .body 2 i, eq := s.x6 == s.x5 }, m) := by
  simp only [passStep, h, if_neg hp]

/-- The third instruction of the verifier's body skips the count if the words were equal. -/
theorem passStep_skip (h : s.loc = .body 2 i) (hp : p.prog ≠ .hammer) :
    passStep p s m =
      some ({ s with loc := if s.eq then .advance i else .body 3 i }, m) := by
  simp only [passStep, h, if_neg hp]

/-- The fourth instruction of the verifier's body counts a mismatch. -/
theorem passStep_count (h : s.loc = .body 3 i) :
    passStep p s m = some ({ s with loc := .advance i, x4 := s.x4 + 1 }, m) := by
  simp only [passStep, h]

/-- The cursor advances to the next page. -/
theorem passStep_advance (h : s.loc = .advance i) :
    passStep p s m = some ({ s with loc := .compare i }, m) := by
  simp only [passStep, h]

/-- The cursor is compared with the end of the range. -/
theorem passStep_compare (h : s.loc = .compare i) :
    passStep p s m = some ({ s with loc := .branch i }, m) := by
  simp only [passStep, h]

/-- After the comparison the pass goes on with the next page, if there is one; else the hammer
counts its sweep and every other program rings the doorbell. -/
theorem passStep_branch (h : s.loc = .branch i) :
    passStep p s m = some ({ s with loc := if i + 1 < p.pages then .body 0 (i + 1)
      else if p.prog = .hammer then .finish else .doorbell }, m) := by
  simp only [passStep, h]

/-- At the end of a sweep the hammer adds one to its count and comes to the doorbell. -/
theorem passStep_finish (h : s.loc = .finish) :
    passStep p s m = some ({ s with loc := .doorbell, x4 := s.x4 + 1 }, m) := by
  simp only [passStep, h]

/-- At the doorbell the pass takes no further instruction inside the guest. -/
theorem passStep_doorbell (h : s.loc = .doorbell) : passStep p s m = none := by
  simp only [passStep, h]

/-- The branch behind the doorbell leads the hammer back to its entry. -/
theorem passStep_again (h : s.loc = .again) :
    passStep p s m = some ({ s with loc := .enter }, m) := by
  simp only [passStep, h]

/-- Only the doorbell leaves the guest: at every other location an instruction is executed. -/
theorem passStep_eq_none (h : passStep p s m = none) : s.loc = .doorbell := by
  cases hs : s.loc with
  | doorbell => rfl
  | body j i =>
      unfold passStep at h
      rw [hs] at h
      rcases j with _ | _ | _ | j
      · cases h
      · change (if _ then _ else _) = none at h
        split_ifs at h
      · change (if _ then _ else _) = none at h
        split_ifs at h
      · cases h
  | _ => simp [passStep, hs] at h

end equations

/-- The register file `c` stands at state `s` of pass `p`. -/
structure Sim (p : Pass) (s : PState) (c : Cpu) : Prop where
  valid : s.loc.Valid p.prog p.pages
  pc : c.pc = p.prog.entry + BitVec.ofNat 64 (4 * s.loc.index p.prog)
  x1 : ∀ i, s.loc.cursor = some i → c.x 1#5 = BitVec.ofNat 64 (p.word i)
  x2 : c.x 2#5 = ramAddr p.endOff
  x3 : c.x 3#5 = doorbellGpa
  x4 : c.x 4#5 = s.x4
  x5 : c.x 5#5 = s.x5
  x6 : c.x 6#5 = s.x6
  base : p.prog = .hammer → s.x6 = BitVec.ofNat 64 p.base
  eq : p.prog = .verify → ∀ i, s.loc = .body 2 i → c.flags.z = s.eq
  lo : ∀ i, s.loc = .branch i → c.flags.c = !decide (i + 1 < p.pages)

/-! ## The machine follows the pass machine -/

/-- Where the program counter is at index `j` of a program, one step of the vCPU executes the
instruction at that index of its listing. -/
theorem vcpuStep_eq {mapped : ℕ → Bool} {c : Cpu} {m : Mem} {P : Program} {j : ℕ} {i : Insn}
    (hpc : c.pc = P.entry + BitVec.ofNat 64 (4 * j)) (hi : P.listing[j]? = some i) :
    vcpuStep mapped c m = .ofOutcome (exec mapped i c m) := by
  have hf : fetch c.pc = some i := hpc ▸ fetch_listing P hi
  simp only [vcpuStep, hf]

/-- The instruction behind index `j` is at index `j + 1`: instructions are four bytes long. -/
theorem pc_succ (e : BitVec 64) (j : ℕ) :
    e + BitVec.ofNat 64 (4 * j) + 4#64 = e + BitVec.ofNat 64 (4 * (j + 1)) := by
  rw [Nat.mul_add, BitVec.ofNat_add, BitVec.add_assoc]

/-- A branch back by `d` instructions from index `j` comes to index `j - d`. -/
theorem pc_back (e : BitVec 64) {j d : ℕ} (h : d ≤ j) :
    e + BitVec.ofNat 64 (4 * j) + -(BitVec.ofNat 64 (4 * d)) =
      e + BitVec.ofNat 64 (4 * (j - d)) := by
  obtain ⟨t, rfl⟩ := Nat.exists_eq_add_of_le h
  rw [Nat.add_sub_cancel_left, Nat.mul_add, BitVec.ofNat_add]
  generalize BitVec.ofNat 64 (4 * d) = a
  generalize BitVec.ofNat 64 (4 * t) = b
  rw [BitVec.add_assoc, BitVec.add_comm a b, BitVec.add_assoc, BitVec.add_right_neg,
    BitVec.add_zero]

/-- The cursor as a number is the address of the word it points to, since it does not wrap. -/
theorem word_toNat {p : Pass} {mapped : ℕ → Bool} (h : p.Fits mapped) {i : ℕ}
    (hi : i ≤ p.pages) : (BitVec.ofNat 64 (p.word i)).toNat = p.word i := by
  rw [BitVec.toNat_ofNat, Nat.mod_eq_of_lt (h.word_lt hi)]

/-- The words of a pass may be accessed by the guest: they are aligned and their bytes are
mapped. -/
theorem accessible_word {p : Pass} {mapped : ℕ → Bool} (h : p.Fits mapped) {i : ℕ}
    (hi : i < p.pages) : accessible mapped (BitVec.ofNat 64 (p.word i)) = true := by
  rw [accessible_iff, word_toNat h (le_of_lt hi)]
  exact h.words_mapped i hi

section sim

variable {p : Pass} {mapped : ℕ → Bool} {s : PState} {c : Cpu} {m : Mem}

/-- An instruction that writes no register: only the location and the flags move. -/
theorem Sim.goto (h : Sim p s c) {c' : Cpu} {l : Loc} {e : Bool} (hx : c'.x = c.x)
    (hv : l.Valid p.prog p.pages)
    (hpc : c'.pc = p.prog.entry + BitVec.ofNat 64 (4 * l.index p.prog))
    (hcur : ∀ i, l.cursor = some i → c.x 1#5 = BitVec.ofNat 64 (p.word i))
    (heq : p.prog = .verify → ∀ i, l = .body 2 i → c'.flags.z = e)
    (hlo : ∀ i, l = .branch i → c'.flags.c = !decide (i + 1 < p.pages)) :
    Sim p { s with loc := l, eq := e } c' where
  valid := hv
  pc := hpc
  x1 i hi := by rw [hx]; exact hcur i hi
  x2 := by rw [hx]; exact h.x2
  x3 := by rw [hx]; exact h.x3
  x4 := by rw [hx]; exact h.x4
  x5 := by rw [hx]; exact h.x5
  x6 := by rw [hx]; exact h.x6
  base := h.base
  eq := heq
  lo := hlo

/-- What it means that one vCPU instruction follows the pass machine. -/
def Follows (p : Pass) (mapped : ℕ → Bool) (s : PState) (c : Cpu) (m : Mem) : Prop :=
  match passStep p s m with
  | some (s', m') => ∃ c', vcpuStep mapped c m = .ran c' m' ∧ Sim p s' c'
  | none => vcpuStep mapped c m = .exited (exceptionExit ecDataAbortLowerEl doorbellGpa)

/-- At the end of a page the vCPU adds the page size to its cursor, as the pass machine says. -/
theorem follows_advance (h : Sim p s c) {i : ℕ} (hs : s.loc = .advance i) :
    Follows p mapped s c m := by
  have hi : p.prog.listing[s.loc.index p.prog]? = some (.addImm 1 1 0x4000) := by
    rw [hs]
    cases p.prog <;> rfl
  have hv : i < p.pages := by simpa [hs, Loc.Valid] using h.valid
  have hx1 : c.x 1#5 = BitVec.ofNat 64 (p.word i) := h.x1 i (by rw [hs]; rfl)
  have hword : BitVec.ofNat 64 (p.word i) + 16384#64 = BitVec.ofNat 64 (p.word (i + 1)) := by
    rw [p.word_succ, BitVec.ofNat_add]
  unfold Follows
  rw [passStep_advance hs]
  refine ⟨_, by rw [vcpuStep_eq h.pc hi]; rfl, ?_⟩
  constructor
  · exact hv
  · simp [h.pc, pc_succ, hs, Loc.index]
  · rintro j hj
    obtain rfl : i + 1 = j := by simpa [Loc.cursor] using hj
    simp [Cpu.set_x, Cpu.get_of_ne, hx1, hword]
  · simpa [Cpu.set_x] using h.x2
  · simpa [Cpu.set_x] using h.x3
  · simpa [Cpu.set_x] using h.x4
  · simpa [Cpu.set_x] using h.x5
  · simpa [Cpu.set_x] using h.x6
  · exact h.base
  · simp
  · simp

/-- The vCPU compares its cursor with the end of the range, and its carry flag says afterwards
whether a page is left. -/
theorem follows_compare (hf : p.Fits mapped) (h : Sim p s c) {i : ℕ} (hs : s.loc = .compare i) :
    Follows p mapped s c m := by
  have hi : p.prog.listing[s.loc.index p.prog]? = some (.subs 31 1 2) := by
    rw [hs]
    cases p.prog <;> rfl
  have hv : i < p.pages := by simpa [hs, Loc.Valid] using h.valid
  have hx1 : c.x 1#5 = BitVec.ofNat 64 (p.word (i + 1)) := h.x1 (i + 1) (by rw [hs]; rfl)
  have hend : (ramAddr p.endOff).toNat = ramGpa + p.endOff := by
    unfold ramAddr
    rw [BitVec.toNat_ofNat, Nat.mod_eq_of_lt hf.end_lt]
  have hcarry : decide ((ramAddr p.endOff).toNat ≤ (BitVec.ofNat 64 (p.word (i + 1))).toNat) =
      !decide (i + 1 < p.pages) := by
    rw [hend, word_toNat hf hv, ← decide_not, decide_eq_decide, ← p.word_lt_end_iff hf.lt,
      Nat.not_lt]
  unfold Follows
  rw [passStep_compare hs]
  refine ⟨_, by rw [vcpuStep_eq h.pc hi]; rfl, h.goto ?_ hv ?_ ?_ (by simp) ?_⟩
  · simp
  · simp [h.pc, pc_succ, hs, Loc.index]
  · rintro j hj
    obtain rfl : i + 1 = j := by simpa [Loc.cursor] using hj
    exact hx1
  · rintro j hj
    obtain rfl : i = j := by simpa using hj
    simpa [subFlags, Cpu.get_of_ne, hx1, h.x2] using hcarry

/-- The vCPU branches by the carry flag as the pass machine does by the number of pages: back to the
body while there is a page left, and else on to the count of the sweep or to the doorbell. -/
theorem follows_branch (h : Sim p s c) {i : ℕ} (hs : s.loc = .branch i) :
    Follows p mapped s c m := by
  have hi : p.prog.listing[s.loc.index p.prog]? =
      some (.bcond .lo (-(BitVec.ofNat 64 (4 * (p.prog.bodyLen + 2))))) := by
    rw [hs]
    cases p.prog <;> rfl
  have hx1 : c.x 1#5 = BitVec.ofNat 64 (p.word (i + 1)) := h.x1 (i + 1) (by rw [hs]; rfl)
  have hlo : Cond.lo.holds c.flags = decide (i + 1 < p.pages) := by
    simp [Cond.holds, h.lo i hs]
  have hpc : c.pc = p.prog.entry + BitVec.ofNat 64 (4 * (p.prog.lead + p.prog.bodyLen + 2)) := by
    rw [h.pc, hs, Loc.index]
  unfold Follows
  rw [passStep_branch hs]
  refine ⟨_, by rw [vcpuStep_eq h.pc hi]; rfl, ?_⟩
  rw [hlo]
  by_cases hlt : i + 1 < p.pages
  · -- back to the body, one page further
    rw [decide_eq_true hlt, if_pos rfl, if_pos hlt]
    have hbody : 0 < p.prog.bodyLen := by cases p.prog <;> decide
    refine h.goto rfl ⟨hbody, hlt⟩ ?_ ?_ (by simp) (by simp)
    · show c.pc + _ = _
      rw [hpc, pc_back _ (by omega)]
      congr 3
      show _ = p.prog.lead + 0
      omega
    · rintro j hj
      obtain rfl : i + 1 = j := by simpa [Loc.cursor] using hj
      exact hx1
  · -- past the end: fall through to the sweep count or straight to the doorbell
    rw [decide_eq_false hlt, if_neg hlt, if_neg Bool.false_ne_true]
    refine h.goto rfl ?_ ?_ ?_ ?_ ?_
    · by_cases hp : p.prog = .hammer <;> simp [hp, Loc.Valid]
    · rw [Cpu.next_pc, hpc]
      show _ + 4#64 = _
      rw [pc_succ]
      cases p.prog <;> rfl
    · intro j hj
      by_cases hp : p.prog = .hammer <;> simp [hp, Loc.cursor] at hj
    · intro hp j hj
      simp [hp] at hj
    · intro j hj
      by_cases hp : p.prog = .hammer <;> simp [hp] at hj

/-- At the doorbell the vCPU leaves the guest with a data abort at the doorbell address, since that
page is not mapped. -/
theorem follows_doorbell (hf : p.Fits mapped) (h : Sim p s c) (hs : s.loc = .doorbell) :
    Follows p mapped s c m := by
  obtain ⟨r, hi⟩ : ∃ r, p.prog.listing[s.loc.index p.prog]? = some (.str r 3 0) := by
    rw [hs]
    cases p.prog <;> exact ⟨_, rfl⟩
  have hacc : accessible mapped doorbellGpa = false := accessible_eq_false hf.doorbell_unmapped
  have h3 : c.get 3 + 0 = doorbellGpa := by simpa [Cpu.get_of_ne] using h.x3
  unfold Follows
  rw [passStep_doorbell hs, vcpuStep_eq h.pc hi]
  simp only [exec, h3, hacc, Bool.false_eq_true, if_false, VcpuStep.ofOutcome]

/-- `mov x1, x6`, `add x4, x4, #1` and `b outer`: the instructions only the hammer has. -/
theorem follows_hammer (h : Sim p s c) (hlt : 0 < p.pages)
    (hs : s.loc = .enter ∨ s.loc = .finish ∨ s.loc = .again) : Follows p mapped s c m := by
  have hp : p.prog = .hammer := by
    have hv := h.valid
    rcases hs with hs | hs | hs <;> rw [hs] at hv <;> exact hv
  have hbase := h.base hp
  have hpc := h.pc
  rw [hp] at hpc
  unfold Follows
  rcases hs with hs | hs | hs
  · rw [passStep_enter hs]
    rw [hs] at hpc
    refine ⟨_, by rw [vcpuStep_eq (i := .orr 1 31 6) hpc rfl]; rfl, ?_⟩
    constructor
    · simp [Loc.Valid, hp, Program.bodyLen, hlt]
    · simp [hpc, hp, Loc.index, Program.lead]
    · rintro j hj
      obtain rfl : 0 = j := by simpa [Loc.cursor] using hj
      simp [Cpu.set_x, Cpu.get_of_ne, h.x6, hbase, Pass.word]
    · simpa [Cpu.set_x] using h.x2
    · simpa [Cpu.set_x] using h.x3
    · simpa [Cpu.set_x] using h.x4
    · simpa [Cpu.set_x] using h.x5
    · simpa [Cpu.set_x] using h.x6
    · exact h.base
    · simp
    · simp
  · rw [passStep_finish hs]
    rw [hs] at hpc
    refine ⟨_, by rw [vcpuStep_eq (i := .addImm 4 4 1) hpc rfl]; rfl, ?_⟩
    constructor
    · simp [Loc.Valid]
    · simp only [Cpu.next_pc, Cpu.set_pc, hpc, hp]
      exact pc_succ _ 7
    · simp [Loc.cursor]
    · simpa [Cpu.set_x] using h.x2
    · simpa [Cpu.set_x] using h.x3
    · simpa [Cpu.set_x, Cpu.get_of_ne] using h.x4
    · simpa [Cpu.set_x] using h.x5
    · simpa [Cpu.set_x] using h.x6
    · exact h.base
    · simp
    · simp
  · rw [passStep_again hs]
    rw [hs] at hpc
    refine ⟨{ c with pc := c.pc + -(BitVec.ofNat 64 (4 * 9)) },
      by rw [vcpuStep_eq (i := .b (-(BitVec.ofNat 64 (4 * 9)))) hpc rfl]; rfl,
      h.goto rfl ?_ ?_ (by simp [Loc.cursor]) (by simp) (by simp)⟩
    · simp [Loc.Valid, hp]
    · show c.pc + _ = _
      rw [hpc, pc_back _ (by decide), hp]
      rfl

section body

variable (hf : p.Fits mapped) (h : Sim p s c) {i j : ℕ} (hs : s.loc = .body j i)

include h hs

/-- In the body the cursor points at the word of the current page. -/
theorem Sim.body_x1 : c.x 1#5 = BitVec.ofNat 64 (p.word i) := h.x1 i (by rw [hs]; rfl)

/-- In the body of a program the instruction is one of the body and the page is one of the pass. -/
theorem Sim.body_lt : j < p.prog.bodyLen ∧ i < p.pages := by
  have hv := h.valid
  rw [hs] at hv
  exact hv

include hf

/-- A load through the cursor reads the word of the page the pass stands at, and the program counter
moves on. -/
theorem exec_ldr_cursor (rt : Reg) :
    exec mapped (.ldr rt 1 0) c m = .next (c.set rt (load64 m (p.word i))).next m := by
  have hi := (h.body_lt hs).2
  have haddr : c.get 1 + 0 = BitVec.ofNat 64 (p.word i) := by
    simpa [Cpu.get_of_ne] using h.body_x1 hs
  simp only [exec, haddr, accessible_word hf hi, if_true, word_toNat hf (le_of_lt hi)]

/-- A store through the cursor writes the word of the page the pass stands at, and nothing else, and
the program counter moves on. -/
theorem exec_str_cursor {rt : Reg} (hrt : rt ≠ 31) :
    exec mapped (.str rt 1 0) c m = .next c.next (store64 m (p.word i) (c.x rt)) := by
  have hi := (h.body_lt hs).2
  have haddr : c.get 1 + 0 = BitVec.ofNat 64 (p.word i) := by
    simpa [Cpu.get_of_ne] using h.body_x1 hs
  simp only [exec, haddr, accessible_word hf hi, if_true, word_toNat hf (le_of_lt hi),
    Cpu.get_of_ne hrt]

omit hf in
/-- After the last instruction of a body the program moves on to the stride, and stands at the same
page. -/
theorem Sim.stored (hj : j + 1 = p.prog.bodyLen) : Sim p { s with loc := .advance i } c.next := by
  refine h.goto rfl (h.body_lt hs).2 ?_ ?_ (by simp) (by simp)
  · rw [Cpu.next_pc, h.pc, hs]
    show _ + BitVec.ofNat 64 (4 * (p.prog.lead + j)) + 4#64 = _
    rw [pc_succ]
    congr 3
    show _ = p.prog.lead + p.prog.bodyLen
    omega
  · rintro k hk
    obtain rfl : i = k := by simpa [Loc.cursor] using hk
    exact h.body_x1 hs

omit hf in
/-- After a register has been loaded or changed the program moves on to a location `l` right
behind, with the same cursor. -/
theorem Sim.loaded {l : Loc} {r : Reg} {v : BitVec 64} {s' : PState}
    (hr : r = 4#5 ∨ r = 5#5 ∨ r = 6#5)
    (hl : s'.loc = l) (hcur : l.cursor = some i) (hidx : l.index p.prog = p.prog.lead + j + 1)
    (hv : l.Valid p.prog p.pages) (h4 : s'.x4 = if 4#5 = r then v else s.x4)
    (h5 : s'.x5 = if 5#5 = r then v else s.x5) (h6 : s'.x6 = if 6#5 = r then v else s.x6)
    (hbase : p.prog = .hammer → 6#5 ≠ r) (hne : p.prog = .verify → ∀ k, l ≠ .body 2 k)
    (hbr : ∀ k, l ≠ .branch k) : Sim p s' (c.set r v).next := by
  have hr31 : r ≠ 31 := by rcases hr with rfl | rfl | rfl <;> decide
  have hx : ∀ q, (c.set r v).next.x q = if q = r then v else c.x q := fun q => Cpu.set_x hr31 v q
  have hother : ∀ q : Reg, q = 1#5 ∨ q = 2#5 ∨ q = 3#5 → q ≠ r := by
    rcases hr with rfl | rfl | rfl <;> decide
  constructor
  · rw [hl]
    exact hv
  · rw [Cpu.next_pc, Cpu.set_pc, h.pc, hs, hl, hidx]
    exact pc_succ _ (p.prog.lead + j)
  · intro k hk
    rw [hl, hcur] at hk
    obtain rfl : i = k := by simpa using hk
    rw [hx, if_neg (hother _ (.inl rfl))]
    exact h.body_x1 hs
  · rw [hx, if_neg (hother _ (.inr (.inl rfl)))]
    exact h.x2
  · rw [hx, if_neg (hother _ (.inr (.inr rfl)))]
    exact h.x3
  · rw [hx, h4, h.x4]
  · rw [hx, h5, h.x5]
  · rw [hx, h6, h.x6]
  · intro hp
    rw [h6, if_neg (hbase hp)]
    exact h.base hp
  · intro hp k hk
    exact absurd (hl ▸ hk) (hne hp k)
  · intro k hk
    exact absurd (hl ▸ hk) (hbr k)

end body

/-- On the vCPU the body of the touch, read and fill programs, which is one instruction, does what
the pass machine says. -/
theorem follows_body_single (hf : p.Fits mapped) (h : Sim p s c) {i : ℕ}
    (hs : s.loc = .body 0 i) (hlen : p.prog.bodyLen = 1) : Follows p mapped s c m := by
  have hi := (h.body_lt hs).2
  have hx1 := h.body_x1 hs
  have hpc := h.pc
  rw [hs] at hpc
  unfold Follows
  rw [passStep_body_zero hs]
  simp only [bodyFirst]
  cases hprog : p.prog with
  | hammer => rw [hprog] at hlen; cases hlen
  | verify => rw [hprog] at hlen; cases hlen
  | touch =>
      rw [hprog] at hpc
      refine ⟨c.next, ?_, h.stored hs hlen.symm⟩
      rw [vcpuStep_eq (i := .str 1 1 0) hpc rfl, exec_str_cursor hf h hs (by decide)]
      exact congrArg _ (congrArg _ hx1)
  | fill =>
      rw [hprog] at hpc
      refine ⟨c.next, ?_, h.stored hs hlen.symm⟩
      rw [vcpuStep_eq (i := .str 5 1 0) hpc rfl, exec_str_cursor hf h hs (by decide)]
      exact congrArg _ (congrArg _ h.x5)
  | read =>
      rw [hprog] at hpc
      refine ⟨(c.set 5 (load64 m (p.word i))).next, ?_, ?_⟩
      · rw [vcpuStep_eq (i := .ldr 5 1 0) hpc rfl, exec_ldr_cursor hf h hs]
        rfl
      · refine h.loaded hs (.inr (.inl rfl)) rfl rfl ?_ hi rfl rfl rfl ?_ ?_ ?_
        · simp [Loc.index, hlen]
        all_goals simp [hprog]

/-- The body of the hammer on the vCPU is the one of the pass machine: load, increment, store. -/
theorem follows_body_hammer (hf : p.Fits mapped) (h : Sim p s c) {i j : ℕ}
    (hs : s.loc = .body j i) (hp : p.prog = .hammer) : Follows p mapped s c m := by
  obtain ⟨hj, hi⟩ := h.body_lt hs
  have hpc := h.pc
  rw [hp] at hpc hj
  rw [hs] at hpc
  unfold Follows
  have hj3 : j < 3 := hj
  interval_cases j
  · rw [passStep_body_zero hs]
    simp only [bodyFirst, hp]
    refine ⟨(c.set 5 (load64 m (p.word i))).next, ?_, ?_⟩
    · rw [vcpuStep_eq (i := .ldr 5 1 0) hpc rfl, exec_ldr_cursor hf h hs]
      rfl
    · refine h.loaded hs (.inr (.inl rfl)) rfl rfl ?_ ?_ rfl rfl rfl ?_ ?_ ?_
      · simp [Loc.index]
      · simp [Loc.Valid, hp, Program.bodyLen, hi]
      all_goals simp [hp]
  · rw [passStep_increment hs hp]
    refine ⟨(c.set 5 (c.get 5 + 1)).next, ?_, ?_⟩
    · rw [vcpuStep_eq (i := .addImm 5 5 1) hpc rfl]
      rfl
    · refine h.loaded hs (.inr (.inl rfl)) rfl rfl ?_ ?_ rfl ?_ rfl ?_ ?_ ?_
      · simp [Loc.index]
      · simp [Loc.Valid, hp, Program.bodyLen, hi]
      · simp [Cpu.get_of_ne, h.x5]
      all_goals simp [hp]
  · rw [passStep_store hs hp]
    refine ⟨c.next, ?_, h.stored hs (by rw [hp]; rfl)⟩
    rw [vcpuStep_eq (i := .str 5 1 0) hpc rfl, exec_str_cursor hf h hs (by decide)]
    exact congrArg _ (congrArg _ h.x5)

/-- On the vCPU the body of the verifier does what the pass machine says: load, compare, skip on
equality, count. The comparison leaves its outcome in the zero flag, where the conditional branch
finds it. -/
theorem follows_body_verify (hf : p.Fits mapped) (h : Sim p s c) {i j : ℕ}
    (hs : s.loc = .body j i) (hp : p.prog = .verify) : Follows p mapped s c m := by
  obtain ⟨hj, hi⟩ := h.body_lt hs
  have hx1 := h.body_x1 hs
  have hcur : ∀ k, some i = some k → c.x 1#5 = BitVec.ofNat 64 (p.word k) := by
    rintro k hk
    obtain rfl : i = k := by simpa using hk
    exact hx1
  have hne : p.prog ≠ .hammer := by rw [hp]; decide
  have hpc := h.pc
  rw [hp] at hpc hj
  rw [hs] at hpc
  unfold Follows
  have hj4 : j < 4 := hj
  interval_cases j
  · rw [passStep_body_zero hs]
    simp only [bodyFirst, hp]
    refine ⟨(c.set 6 (load64 m (p.word i))).next, ?_, ?_⟩
    · rw [vcpuStep_eq (i := .ldr 6 1 0) hpc rfl, exec_ldr_cursor hf h hs]
      rfl
    · refine h.loaded hs (.inr (.inr rfl)) rfl rfl ?_ ?_ rfl rfl rfl ?_ ?_ ?_
      · simp [Loc.index]
      · simp [Loc.Valid, hp, Program.bodyLen, hi]
      all_goals simp [hp]
  · rw [passStep_compare_word hs hne]
    refine ⟨_, by rw [vcpuStep_eq (i := .subs 31 6 5) hpc rfl]; rfl,
      h.goto ?_ ?_ ?_ hcur ?_ (by simp)⟩
    · simp
    · simp [Loc.Valid, hp, Program.bodyLen, hi]
    · simp [hpc, hp, Loc.index, Program.lead, BitVec.add_assoc]
    · intro _ k _
      simp [subFlags, Cpu.get_of_ne, h.x5, h.x6]
  · rw [passStep_skip hs hne]
    have hz : Cond.eq.holds c.flags = s.eq := h.eq hp i hs
    refine ⟨if s.eq then { c with pc := c.pc + 8 } else c.next, ?_, ?_⟩
    · rw [vcpuStep_eq (i := .bcond .eq 8) hpc rfl]
      simp only [exec, hz, VcpuStep.ofOutcome]
    · cases heq : s.eq with
      | false =>
          refine h.goto rfl ?_ ?_ ?_ ?_ ?_
          · simp [Loc.Valid, hp, Program.bodyLen, hi]
          · simp [hpc, hp, Loc.index, Program.lead, BitVec.add_assoc]
          · exact hcur
          all_goals simp
      | true =>
          refine h.goto rfl hi ?_ hcur ?_ ?_
          · simp [hpc, hp, Loc.index, Program.lead, Program.bodyLen, BitVec.add_assoc]
          all_goals simp
  · rw [passStep_count hs]
    refine ⟨(c.set 4 (c.get 4 + 1)).next, ?_, ?_⟩
    · rw [vcpuStep_eq (i := .addImm 4 4 1) hpc rfl]
      rfl
    · refine h.loaded hs (.inl rfl) rfl rfl ?_ hi ?_ rfl rfl ?_ ?_ ?_
      · simp [Loc.index, hp, Program.bodyLen, Program.lead]
      · simp [Cpu.get_of_ne, h.x4]
      all_goals simp [hp]

/-- **The machine follows the pass machine.** From a register file at state `s` of a pass that
fits its mapping, one vCPU instruction is one `passStep`. -/
theorem vcpuStep_sim (hf : p.Fits mapped) (h : Sim p s c) : Follows p mapped s c m := by
  have hn := p.pages_pos hf.lt
  cases hs : s.loc with
  | enter => exact follows_hammer h hn (.inl hs)
  | finish => exact follows_hammer h hn (.inr (.inl hs))
  | again => exact follows_hammer h hn (.inr (.inr hs))
  | doorbell => exact follows_doorbell hf h hs
  | advance i => exact follows_advance h hs
  | compare i => exact follows_compare hf h hs
  | branch i => exact follows_branch h hs
  | body j i =>
      have hj := (h.body_lt hs).1
      cases hp : p.prog with
      | hammer => exact follows_body_hammer hf h hs hp
      | verify => exact follows_body_verify hf h hs hp
      | touch | read | fill =>
          have hlen : p.prog.bodyLen = 1 := by rw [hp]; rfl
          obtain rfl : j = 0 := by omega
          exact follows_body_single hf h hs hlen

/-- One vCPU instruction inside a pass: the doorbell, or a step of the pass machine. -/
theorem Sim.step (hf : p.Fits mapped) (h : Sim p s c) (m : Mem) :
    (s.loc = .doorbell ∧
        vcpuStep mapped c m = .exited (exceptionExit ecDataAbortLowerEl doorbellGpa)) ∨
      ∃ s' m' c', passStep p s m = some (s', m') ∧ vcpuStep mapped c m = .ran c' m' ∧
        Sim p s' c' := by
  have hsim := vcpuStep_sim (m := m) hf h
  unfold Follows at hsim
  cases hstep : passStep p s m with
  | none =>
      rw [hstep] at hsim
      exact .inl ⟨passStep_eq_none hstep, hsim⟩
  | some r =>
      obtain ⟨s', m'⟩ := r
      rw [hstep] at hsim
      obtain ⟨c', hrun, hsim'⟩ := hsim
      exact .inr ⟨s', m', c', rfl, hrun, hsim'⟩

end sim

end VmRatchet.Guest
