import VmRatchet.Lib.Arm64

/-!
# The guest programs and the code page

`guest.rs` carries five hand-assembled programs as arrays of instruction words and writes them
into one page of guest memory, each at its own offset. This module embeds the words and the
writes, and reads the programs back through the decoder:

* `touchCode`, `hammerCode`, `readCode`, `verifyCode`, `fillCode` — the words as the source has
  them; `Program.code` and `Program.off` collect them with their offsets in the page.
* `writeCodePage` — the five write loops; `codePage` is the page they build on fresh memory.
* `Program.listing` — the assembly listing of each program, taken from the doc comments of the
  source. `code_decodes` says that the words *are* that listing, and `fetch_listing` that the
  vCPU fetches instruction `j` of a program at `entry + 4 j` — no program overwrites another.
-/

namespace VmRatchet

open Arm64

/-- Apple Silicon host page size, the stride of every pass.
Source: `ledger/src/lib.rs`, `PAGE` -/
def page : ℕ := 16 * 1024

/-- The page size as a literal, for the arithmetic of offsets: 16 KiB. -/
theorem page_eq : page = 16384 := rfl

namespace Guest

/-! ## Guest-physical layout -/

/-- Source: `guest.rs`, `CODE_GPA` -/
def codeGpa : BitVec 64 := 0x10000000

/-- Source: `guest.rs`, `RAM_GPA` -/
def ramGpa : ℕ := 0x80000000

/-- Deliberately unmapped.
Source: `guest.rs`, `DOORBELL_GPA` -/
def doorbellGpa : BitVec 64 := 0x0F000000

/-! ## The instruction words -/

/-- One touch pass: every page's first word gets its own address.
Source: `guest.rs`, `TOUCH_CODE` -/
def touchCode : List (BitVec 32) :=
  [0xF9000021, 0x91401021, 0xEB02003F, 0x54FFFFA3, 0xF900007F, 0xD503207F, 0x17FFFFFF]

/-- The read-modify-write sweep.
Source: `guest.rs`, `HAMMER_CODE` -/
def hammerCode : List (BitVec 32) :=
  [0xAA0603E1, 0xF9400025, 0x910004A5, 0xF9000025, 0x91401021, 0xEB02003F, 0x54FFFF63,
    0x91000484, 0xF9000064, 0x17FFFFF7]

/-- The read-only sweep.
Source: `guest.rs`, `READ_CODE` -/
def readCode : List (BitVec 32) :=
  [0xF9400025, 0x91401021, 0xEB02003F, 0x54FFFFA3, 0xF900007F, 0xD503207F, 0x17FFFFFF]

/-- The guest-side integrity check.
Source: `guest.rs`, `VERIFY_CODE` -/
def verifyCode : List (BitVec 32) :=
  [0xF9400026, 0xEB0500DF, 0x54000040, 0x91000484, 0x91401021, 0xEB02003F, 0x54FFFF43,
    0xF9000064, 0xD503207F, 0x17FFFFFF]

/-- Stamp one value over a range.
Source: `guest.rs`, `FILL_CODE` -/
def fillCode : List (BitVec 32) :=
  [0xF9000025, 0x91401021, 0xEB02003F, 0x54FFFFA3, 0xF900007F, 0xD503207F, 0x17FFFFFF]

/-- Source: `guest.rs`, `HAMMER_OFF` -/
def hammerOff : ℕ := 0x80

/-- Source: `guest.rs`, `READ_OFF` -/
def readOff : ℕ := 0x100

/-- Source: `guest.rs`, `VERIFY_OFF` -/
def verifyOff : ℕ := 0x180

/-- Source: `guest.rs`, `FILL_OFF` -/
def fillOff : ℕ := 0x200

/-- The five programs that are written to the code page, each at an offset of its own. -/
inductive Program
  | touch
  | hammer
  | read
  | verify
  | fill
  deriving DecidableEq

namespace Program

/-- The instruction words of a program, in the order in which they stand on the code page. -/
def code : Program → List (BitVec 32)
  | touch => touchCode
  | hammer => hammerCode
  | read => readCode
  | verify => verifyCode
  | fill => fillCode

/-- The byte offset of a program in the code page. -/
def off : Program → ℕ
  | touch => 0
  | hammer => hammerOff
  | read => readOff
  | verify => verifyOff
  | fill => fillOff

/-- The guest-physical entry point of a program.
Source: `guest.rs`, `CODE_GPA`, `HAMMER_GPA`, `READ_GPA`, `VERIFY_GPA`, `FILL_GPA` -/
def entry (P : Program) : BitVec 64 := codeGpa + BitVec.ofNat 64 P.off

/-- The assembly listing of a program.
Source: `guest.rs`, the doc comments of the five arrays -/
def listing : Program → List Insn
  | touch => [.str 1 1 0, .addImm 1 1 0x4000, .subs 31 1 2, .bcond .lo (-12), .str 31 3 0, .wfi,
      .b (-4)]
  | hammer => [.orr 1 31 6, .ldr 5 1 0, .addImm 5 5 1, .str 5 1 0, .addImm 1 1 0x4000,
      .subs 31 1 2, .bcond .lo (-20), .addImm 4 4 1, .str 4 3 0, .b (-36)]
  | read => [.ldr 5 1 0, .addImm 1 1 0x4000, .subs 31 1 2, .bcond .lo (-12), .str 31 3 0, .wfi,
      .b (-4)]
  | verify => [.ldr 6 1 0, .subs 31 6 5, .bcond .eq 8, .addImm 4 4 1, .addImm 1 1 0x4000,
      .subs 31 1 2, .bcond .lo (-24), .str 4 3 0, .wfi, .b (-4)]
  | fill => [.str 5 1 0, .addImm 1 1 0x4000, .subs 31 1 2, .bcond .lo (-12), .str 31 3 0, .wfi,
      .b (-4)]

/-- The words of every program decode to its documented listing, instruction by instruction. -/
theorem code_decodes (P : Program) : P.code.map decode = P.listing.map some := by
  cases P <;> decide

end Program

/-! ## The code page -/

/-- The code page: the instruction word at each byte offset (a multiple of four). -/
abbrev CodePage := ℕ → BitVec 32

/-- Write consecutive words from byte offset `off` on: one of the loops of `write_code_page`. -/
def writeWords : ℕ → List (BitVec 32) → CodePage → CodePage
  | _, [], p => p
  | off, w :: ws, p => writeWords (off + 4) ws fun o => if o = off then w else p o

/-- Write all guest programs into the code page.
Source: `guest.rs`, `write_code_page` -/
def writeCodePage (p : CodePage) : CodePage :=
  writeWords fillOff fillCode <| writeWords verifyOff verifyCode <|
    writeWords readOff readCode <| writeWords hammerOff hammerCode <| writeWords 0 touchCode p

/-- The page the guest executes: the programs on fresh anonymous memory. -/
def codePage : CodePage := writeCodePage fun _ => 0

/-- Instruction fetch: only the code page is mapped executable. -/
def fetch (pc : BitVec 64) : Option Insn :=
  let o := (pc - codeGpa).toNat
  if o < page ∧ o % 4 = 0 then decode (codePage o) else none

/-- The vCPU fetches instruction `j` of a program at `entry + 4 j`. -/
theorem fetch_listing (P : Program) {j : ℕ} {i : Insn} (h : P.listing[j]? = some i) :
    fetch (P.entry + BitVec.ofNat 64 (4 * j)) = some i := by
  have hj : j < P.listing.length := (List.getElem?_eq_some_iff.mp h).1
  have hlen : P.listing.length ≤ 10 := by cases P <;> decide
  have hall : ∀ j : Fin 10, j.1 < P.listing.length →
      fetch (P.entry + BitVec.ofNat 64 (4 * j.1)) = P.listing[j.1]? := by
    cases P <;> decide
  rw [hall ⟨j, by omega⟩ hj]
  exact h

end Guest

end VmRatchet
