import VmRatchet.Guest.Discard
import VmRatchet.Guest.Refine

/-!
# The hammer loop

`run_hammer` arms the vCPU once and then lets the hammer program run sweep after sweep: at every
doorbell the host asks a callback whether to go on, and if so steps the program counter past the
doorbell store by hand. One sweep is the pass `hammerPass` over all of guest RAM, so the pass
machine describes the guest between two doorbells; what is new is the host's part.

* `armHammer`, `hammerTurn` — the registers the host writes, and what it does with an exit.
* `sim_armHammer`, `Sim.resume` — both leave the vCPU inside the pass, at its entry and at
  `b outer`; `Swept.resume`, `Swept.again` carry a page from one sweep to the next.
* `hammer_window_iff` — the instants between the load and the store of page `i`, seen in the
  registers of the vCPU.
-/

namespace VmRatchet.Guest

open Arm64 ByteMemory

/-- The size of guest RAM: a positive number of whole pages whose addresses fit in a register.
Source: `main.rs`, `ram_size` -/
structure RamSize where
  bytes : ℕ
  pos : 0 < bytes
  aligned : page ∣ bytes
  addressable : ramGpa + bytes < 2 ^ 64

/-- The number of pages of guest RAM; the size is a multiple of the page. -/
def RamSize.pages (r : RamSize) : ℕ := r.bytes / page

/-- Guest RAM is made of its pages: their number times the page size is its length. -/
theorem RamSize.pages_mul (r : RamSize) : r.pages * page = r.bytes := Nat.div_mul_cancel r.aligned

/-- One GiB is a positive number of bytes. -/
theorem oneGib_pos : 0 < 2 ^ 30 := by decide

/-- One GiB is a whole number of pages. -/
theorem page_dvd_oneGib : page ∣ 2 ^ 30 := by decide

/-- One GiB of guest RAM lies below `2 ^ 64`, so that its addresses do not wrap. -/
theorem ramGpa_add_oneGib_lt : ramGpa + 2 ^ 30 < 2 ^ 64 := by decide

/-- The offset of page `i` lies in guest RAM exactly if guest RAM has such a page. -/
theorem RamSize.mul_page_lt_iff (r : RamSize) (i : ℕ) : i * page < r.bytes ↔ i < r.pages := by
  have h := r.pages_mul
  rw [page_eq] at *
  omega

/-! ## The host's part -/

/-- The registers `run_hammer` writes before it first enters the guest. The cursor `x1` is not
among them: the program loads it from `x6`.
Source: `guest.rs`, `run_hammer` -/
def armHammer (r : RamSize) (c : Cpu) : Cpu :=
  ((({ c with pc := Program.hammer.entry }.set 2 (ramAddr r.bytes)).set 3 doorbellGpa).set 4 0).set
    6 (ramAddr 0)

/-- What one turn of the loop of `run_hammer` leads to. -/
inductive HammerTurn
  /-- The guest is entered again. -/
  | reenter (c : Cpu)
  /-- `run_hammer` returned the number of completed sweeps. -/
  | returned (sweeps : BitVec 64)
  /-- `run_to_doorbell` panicked. -/
  | panicked

/-- One turn of the loop of `run_hammer`, after the guest was left with `info`; `keepGoing` is
what the callback answers, should it be asked.
Source: `guest.rs`, `run_hammer` -/
def hammerTurn (info : HvVcpuExitInfo) (keepGoing : Bool) (c : Cpu) : HammerTurn :=
  match runToDoorbell info with
  | some .canceled => .reenter c
  | some .doorbell =>
      let sweeps := c.x 4
      if keepGoing then .reenter { c with pc := c.pc + 4 } else .returned sweeps
  | none => .panicked

/-! ## The guest's part -/

/-- One sweep of the hammer over all of guest RAM. -/
def hammerPass (r : RamSize) : Pass := ⟨.hammer, 0, r.bytes, 0⟩

section hammer

variable {r : RamSize} {s : PState} {c : Cpu} {m : Mem} {i : ℕ} {v : BitVec 64}

/-- A sweep of the hammer visits every page of guest RAM. -/
@[simp] theorem hammerPass_pages (r : RamSize) : (hammerPass r).pages = r.pages := by
  have h := r.pages_mul
  unfold hammerPass Pass.pages RamSize.pages at *
  rw [page_eq] at *
  simp only
  omega

/-- In every page the sweep visits the first word. -/
theorem hammerPass_word (r : RamSize) (i : ℕ) : (hammerPass r).word i = ramGpa + i * page := by
  simp [hammerPass, Pass.word, Pass.base]

/-- A sweep of the hammer fits the stage-2 mapping of guest RAM: its words are mapped, its cursor
does not wrap, and the doorbell is not mapped. -/
theorem hammerPass_fits (r : RamSize) : (hammerPass r).Fits (ramMapped r.bytes) where
  lt := r.pos
  cursor_lt := by
    rw [hammerPass_word, hammerPass_pages, r.pages_mul]
    exact r.addressable
  end_lt := r.addressable
  words_mapped i hi b hb := by
    have h := r.pages_mul
    rw [hammerPass_pages] at hi
    rw [hammerPass_word]
    unfold ramMapped
    rw [page_eq] at *
    exact decide_eq_true ⟨by omega, by omega⟩
  doorbell_unmapped := by
    simp [ramMapped, ramGpa, doorbellGpa]

/-- The state of the pass machine when `run_hammer` first enters the guest. -/
def hammerStart (c : Cpu) : PState := ⟨.enter, 0, c.x 5, ramAddr 0, false⟩

/-- Arming the hammer puts the vCPU at the entry of a sweep, whatever the registers held before. -/
theorem sim_armHammer (r : RamSize) (c : Cpu) :
    Sim (hammerPass r) (hammerStart c) (armHammer r c) := by
  constructor
  · rfl
  · simp [armHammer, hammerPass, hammerStart, Loc.index]
  · intro i hi
    cases hi
  · simp [armHammer, hammerPass, Cpu.set_x]
  · simp [armHammer, Cpu.set_x]
  · simp [armHammer, hammerStart, Cpu.set_x]
  · simp [armHammer, hammerStart, Cpu.set_x]
  · simp [armHammer, hammerStart, Cpu.set_x]
  · intro _
    rfl
  · intro hp
    cases hp
  · intro i hi
    cases hi

/-- Stepping past the store to the doorbell leads to the branch `b outer`, with all registers as
they were. -/
theorem Sim.resume (h : Sim (hammerPass r) s c) (hs : s.loc = .doorbell) :
    Sim (hammerPass r) { s with loc := .again } { c with pc := c.pc + 4 } := by
  refine h.goto (e := s.eq) rfl rfl ?_ (by simp [Loc.cursor]) (by simp) (by simp)
  change c.pc + 4#64 = _
  rw [h.pc, hs]
  exact pc_succ _ 8

/-- A page between two sweeps, on the way to `b outer` … -/
theorem Swept.resume {p : Pass} (h : Swept p i v s m) (hs : s.loc = .doorbell) :
    Swept p i v { s with loc := .again } m :=
  h.goto (by simp [hs]) (by simp [hs]) (by simp) (by simp [hs, Loc.progress])

/-- … and on the way to the entry: the next sweep begins where the last one left it. -/
theorem Swept.again {p : Pass} (h : Swept p i v s m) (hi : i < p.pages) (hs : s.loc = .again) :
    Swept p i (v + 1) { s with loc := .enter } m := by
  refine Swept.of_word (by simp) (by simp) ?_
  rw [h.word (by simp [hs]) (by simp [hs]), hs]
  simp [Loc.progress, hi]

/-- The guest counts a sweep on its way to the doorbell, and only there: the instruction behind the
page loop adds one to `x4` and leads to the doorbell, and every other one leaves `x4` alone and
leads elsewhere. -/
theorem passStep_hammer_count {p : Pass} {s' : PState} {m' : Mem} (hp : p.prog = .hammer)
    (hv : s.loc.Valid p.prog p.pages) (hstep : passStep p s m = some (s', m')) :
    (s.loc = .finish ∧ s'.loc = .doorbell ∧ s'.x4 = s.x4 + 1) ∨
      (s.loc ≠ .doorbell ∧ s'.loc ≠ .doorbell ∧ s'.x4 = s.x4) := by
  cases hs : s.loc with
  | doorbell =>
      rw [passStep_doorbell hs] at hstep
      cases hstep
  | finish =>
      rw [passStep_finish hs, Option.some.injEq, Prod.mk.injEq] at hstep
      obtain ⟨rfl, rfl⟩ := hstep
      exact .inl ⟨rfl, rfl, rfl⟩
  | enter =>
      rw [passStep_enter hs, Option.some.injEq, Prod.mk.injEq] at hstep
      obtain ⟨rfl, rfl⟩ := hstep
      exact .inr (by simp)
  | again =>
      rw [passStep_again hs, Option.some.injEq, Prod.mk.injEq] at hstep
      obtain ⟨rfl, rfl⟩ := hstep
      exact .inr (by simp)
  | advance t =>
      rw [passStep_advance hs, Option.some.injEq, Prod.mk.injEq] at hstep
      obtain ⟨rfl, rfl⟩ := hstep
      exact .inr (by simp)
  | compare t =>
      rw [passStep_compare hs, Option.some.injEq, Prod.mk.injEq] at hstep
      obtain ⟨rfl, rfl⟩ := hstep
      exact .inr (by simp)
  | branch t =>
      rw [passStep_branch hs, Option.some.injEq, Prod.mk.injEq] at hstep
      obtain ⟨rfl, rfl⟩ := hstep
      refine .inr ⟨by simp, ?_, rfl⟩
      simp only [hp, if_true]
      split_ifs <;> simp
  | body j t =>
      have hj : j < 3 := by
        rw [hs, hp] at hv
        exact hv.1
      interval_cases j
      · rw [passStep_body_zero hs] at hstep
        simp only [bodyFirst, hp, Option.some.injEq, Prod.mk.injEq] at hstep
        obtain ⟨rfl, rfl⟩ := hstep
        exact .inr (by simp)
      · rw [passStep_increment hs hp, Option.some.injEq, Prod.mk.injEq] at hstep
        obtain ⟨rfl, rfl⟩ := hstep
        exact .inr (by simp)
      · rw [passStep_store hs hp, Option.some.injEq, Prod.mk.injEq] at hstep
        obtain ⟨rfl, rfl⟩ := hstep
        exact .inr (by simp)

/-! ## Between the load and the store -/

/-- The addresses of the words of a pass differ also as 64-bit registers hold them: equal registers
mean the same page. -/
theorem word_inj {p : Pass} {mapped : ℕ → Bool} (hf : p.Fits mapped) {i j : ℕ} (hi : i ≤ p.pages)
    (hj : j ≤ p.pages) (h : BitVec.ofNat 64 (p.word i) = BitVec.ofNat 64 (p.word j)) : i = j := by
  have hn : p.word i = p.word j := by
    rw [← word_toNat hf hi, h, word_toNat hf hj]
  by_contra hne
  have := p.word_disjoint hne
  omega

/-- The program counter tells which instruction of the hammer it stands at, since the listing has
fewer than ten. -/
theorem pc_hammer_inj {j t : ℕ} (hj : j < 10) (ht : t < 10)
    (h : Program.hammer.entry + BitVec.ofNat 64 (4 * j) =
      Program.hammer.entry + BitVec.ofNat 64 (4 * t)) : j = t := by
  rw [BitVec.add_right_inj] at h
  have := congrArg BitVec.toNat h
  simp only [BitVec.toNat_ofNat] at this
  omega

/-- The vCPU has loaded the word of page `i` and not yet stored it, exactly if the program counter
stands at `add x5, x5, #1` or at `str x5, [x1]` and the cursor at the page. -/
theorem hammer_window_iff (h : Sim (hammerPass r) s c) (hi : i < r.pages) :
    ((c.pc = Program.hammer.entry + BitVec.ofNat 64 (4 * 2) ∨
        c.pc = Program.hammer.entry + BitVec.ofNat 64 (4 * 3)) ∧ c.x 1 = ramAddr (i * page)) ↔
      s.loc = .body 1 i ∨ s.loc = .body 2 i := by
  have hf := hammerPass_fits r
  have haddr : ramAddr (i * page) = BitVec.ofNat 64 ((hammerPass r).word i) := by
    rw [hammerPass_word, ramAddr]
  have hpc : c.pc = Program.hammer.entry + BitVec.ofNat 64 (4 * s.loc.index .hammer) := h.pc
  have hlt := Loc.index_lt h.valid
  have hn : i ≤ (hammerPass r).pages := by
    rw [hammerPass_pages]
    exact le_of_lt hi
  constructor
  · rintro ⟨hwin, hx1⟩
    obtain ⟨j, hj, hindex⟩ : ∃ j, (j = 1 ∨ j = 2) ∧ s.loc.index .hammer = 1 + j := by
      rcases hwin with hw | hw
      · exact ⟨1, .inl rfl, pc_hammer_inj hlt (by decide) (hpc.symm.trans hw)⟩
      · exact ⟨2, .inr rfl, pc_hammer_inj hlt (by decide) (hpc.symm.trans hw)⟩
    cases hs : s.loc with
    | body j' i' =>
        rw [hs] at hindex
        obtain rfl : j' = j := by
          simp only [Loc.index, Program.lead] at hindex
          omega
        have hv := h.valid
        rw [hs] at hv
        have hcur := (h.x1 i' (by rw [hs]; rfl)).symm.trans (hx1.trans haddr)
        obtain rfl := word_inj hf (le_of_lt hv.2) hn hcur
        simpa using hj
    | _ =>
        rw [hs] at hindex
        simp only [Loc.index, Program.lead, Program.bodyLen] at hindex
        omega
  · intro hwin
    have hcur : s.loc.cursor = some i := by
      rcases hwin with hw | hw <;> rw [hw] <;> rfl
    refine ⟨?_, (h.x1 i hcur).trans haddr.symm⟩
    rcases hwin with hw | hw
    · exact .inl (by rw [hpc, hw]; rfl)
    · exact .inr (by rw [hpc, hw]; rfl)

end hammer

end VmRatchet.Guest
