import VmRatchet.Guest.Code

/-!
# The vCPU and the host loops that drive it

* `vcpuStep mapped c m` — one guest instruction: fetch from the code page, decode, execute
  against the bytes that are stage-2 mapped (`mapped`). Whatever the guest cannot complete by
  itself is an exit to the host, reported as `HvVcpuExitInfo`.
* `runToDoorbell` — how the host reads an exit: canceled, the doorbell, or the panic.
* `Pass` / `Pass.arm` — one call of `run_touch_range`, `run_read_pass`, `run_sweep_range`,
  `run_fill_range` or `run_verify_range`: the registers it writes before it enters the guest.
* `hvVcpuRun`, `runPass` — the sequential form. Each entry into the guest is left by the doorbell
  or by a `Canceled` exit after some number of instructions; a `CancelSchedule` fixes these
  numbers, and its `live` field says that the guest is not starved for ever. The source's `loop`
  is replayed with a bound on the number of entries (`PassResult.running` when it is used up).

The interleaved systems use `vcpuStep` and `Pass.arm` directly, one instruction at a time.

What is left out: the faulting virtual address (never read) and the instruction cache. A data
read of the code page, which no program performs, aborts here like any access outside guest RAM.
-/

namespace VmRatchet.Guest

open Arm64 ByteMemory

/-! ## Exits -/

/-- Source: `hvf.rs`, `HvVcpuExitInfo` (the fields the host reads) -/
structure HvVcpuExitInfo where
  reason : BitVec 32
  syndrome : BitVec 64
  physicalAddress : BitVec 64
  deriving DecidableEq

/-- Source: `hvf.rs`, `HV_EXIT_REASON_CANCELED` -/
def hvExitReasonCanceled : BitVec 32 := 0

/-- Source: `hvf.rs`, `HV_EXIT_REASON_EXCEPTION` -/
def hvExitReasonException : BitVec 32 := 1

/-- Source: `hvf.rs`, `EC_DATA_ABORT_LOWER_EL` -/
def ecDataAbortLowerEl : BitVec 64 := 0x24

/-- The exit of a guest exception with exception class `ec` at physical address `pa`. -/
def exceptionExit (ec pa : BitVec 64) : HvVcpuExitInfo := ⟨hvExitReasonException, ec <<< 26, pa⟩

/-- The exit of `hv_vcpu_run` when the host cancels it. -/
def canceledExit : HvVcpuExitInfo := ⟨hvExitReasonCanceled, 0, 0⟩

/-- Source: `guest.rs`, `GuestExit` -/
inductive GuestExit
  | canceled
  | doorbell
  deriving DecidableEq

/-- How the host reads an exit; `none` is the "unexpected exit" panic.
Source: `guest.rs`, `run_to_doorbell` -/
def runToDoorbell (info : HvVcpuExitInfo) : Option GuestExit :=
  if info.reason = hvExitReasonCanceled then some .canceled
  else
    let ec := (info.syndrome >>> 26) &&& 0x3F
    if info.reason = hvExitReasonException ∧ ec = ecDataAbortLowerEl
        ∧ info.physicalAddress = doorbellGpa then some .doorbell
    else none

/-- A canceled entry is read as `Canceled` by the host, and not as a panic. -/
@[simp] theorem runToDoorbell_canceled : runToDoorbell canceledExit = some .canceled := by decide

/-- A data abort at the doorbell page is read as the doorbell by the host. -/
@[simp] theorem runToDoorbell_doorbell :
    runToDoorbell (exceptionExit ecDataAbortLowerEl doorbellGpa) = some .doorbell := by decide

/-! ## One guest instruction -/

/-- One instruction on the vCPU: it ran, or it left the guest with its registers unchanged. -/
inductive VcpuStep
  | ran (c : Cpu) (m : Mem)
  | exited (info : HvVcpuExitInfo)

/-- The exit an instruction's outcome causes: a refused data access is a data abort, `wfi` a
trapped instruction. -/
def VcpuStep.ofOutcome : Outcome → VcpuStep
  | .next c m => .ran c m
  | .dataAbort a => .exited (exceptionExit ecDataAbortLowerEl a)
  | .sleep => .exited (exceptionExit 0x01 0)

/-- Execute one guest instruction. `mapped a` says that guest-physical byte `a` is stage-2 mapped
readable and writable. A refused data access exits without advancing the program counter. A word
that cannot be fetched or decoded ends in an instruction abort, which the host does not expect
any more than a `wfi`. -/
def vcpuStep (mapped : ℕ → Bool) (c : Cpu) (m : Mem) : VcpuStep :=
  match fetch c.pc with
  | none => .exited (exceptionExit 0x20 c.pc)
  | some i => .ofOutcome (exec mapped i c m)

/-! ## Arming a pass -/

/-- A guest-physical address of guest RAM in a register (`u64` arithmetic).
Source: `guest.rs`, `RAM_GPA + off as u64` -/
def ramAddr (off : ℕ) : BitVec 64 := BitVec.ofNat 64 (ramGpa + off)

/-- The registers `run_pass` writes before it enters the guest.
Source: `guest.rs`, `run_pass` -/
def armPass (entry : BitVec 64) (startOff endOff : ℕ) (c : Cpu) : Cpu :=
  (({ c with pc := entry }.set 1 (ramAddr startOff)).set 2 (ramAddr endOff)).set 3 doorbellGpa

/-- One call of a guest pass over `[startOff, endOff)` of guest RAM. `value` is the fill value or
the expected value, and unused by the other three programs. -/
structure Pass where
  prog : Program
  startOff : ℕ
  endOff : ℕ
  value : BitVec 64 := 0

/-- The registers the host writes for one call: what `run_sweep_range`, `run_fill_range` and
`run_verify_range` add, then `run_pass`.
Source: `guest.rs`, `run_touch_range`, `run_read_pass`, `run_sweep_range`, `run_fill_range`,
`run_verify_range` -/
def Pass.arm (p : Pass) (c : Cpu) : Cpu :=
  let c := match p.prog with
    | .touch | .read => c
    | .hammer => c.set 6 (ramAddr p.startOff)
    | .fill => c.set 5 p.value
    | .verify => (c.set 4 0).set 5 p.value
  armPass p.prog.entry p.startOff p.endOff c

/-! ## The sequential host loop -/

/-- One vCPU together with the guest memory it sees; another vCPU or the host may change the memory
between two instructions. -/
structure Vm where
  cpu : Cpu
  mem : Mem

/-- Enter the guest; the entry is canceled once `budget` instructions have completed.
Source: `hvf.rs`, `hv_vcpu_run` -/
def hvVcpuRun (mapped : ℕ → Bool) : ℕ → Vm → HvVcpuExitInfo × Vm
  | 0, vm => (canceledExit, vm)
  | budget + 1, vm =>
      match vcpuStep mapped vm.cpu vm.mem with
      | .ran c m => hvVcpuRun mapped budget ⟨c, m⟩
      | .exited info => (info, vm)

/-- When each entry into the guest is canceled: entry `k` after `budget k` instructions, unless it
rings the doorbell before. The guest is not starved for ever. -/
structure CancelSchedule where
  budget : ℕ → ℕ
  live : ∀ k, ∃ j, k ≤ j ∧ 0 < budget j

/-- The schedule that cancels every other entry at once lets an entry through again and again, so it
is a live one. -/
theorem everyOther_live (k : ℕ) : ∃ j, k ≤ j ∧ 0 < j % 2 := ⟨2 * k + 1, by omega, by omega⟩

/-- How a call of `run_pass` stands after a bounded number of entries into the guest. -/
inductive PassResult
  /-- `run_pass` returned. -/
  | returned (vm : Vm)
  /-- `run_to_doorbell` panicked. -/
  | panicked
  /-- Still re-entering the guest. -/
  | running

/-- The loop of `run_pass`, from entry number `k` on, for at most `entries` entries.
Source: `guest.rs`, `run_pass` -/
def runPassLoop (mapped : ℕ → Bool) (sched : CancelSchedule) : ℕ → ℕ → Vm → PassResult
  | 0, _, _ => .running
  | entries + 1, k, vm =>
      let (info, vm') := hvVcpuRun mapped (sched.budget k) vm
      match runToDoorbell info with
      | some .canceled => runPassLoop mapped sched entries (k + 1) vm'
      | some .doorbell => .returned vm'
      | none => .panicked

/-- One whole call: arm the registers, then loop until the doorbell. -/
def runPass (mapped : ℕ → Bool) (sched : CancelSchedule) (entries : ℕ) (p : Pass) (vm : Vm) :
    PassResult :=
  runPassLoop mapped sched entries 0 ⟨p.arm vm.cpu, vm.mem⟩

section calls

variable (mapped : ℕ → Bool) (sched : CancelSchedule) (entries : ℕ)

/-- Source: `guest.rs`, `run_touch_range` -/
def runTouchRange (startOff endOff : ℕ) : Vm → PassResult :=
  runPass mapped sched entries ⟨.touch, startOff, endOff, 0⟩

/-- Source: `guest.rs`, `run_read_pass` -/
def runReadPass (ramSize : ℕ) : Vm → PassResult :=
  runPass mapped sched entries ⟨.read, 0, ramSize, 0⟩

/-- Source: `guest.rs`, `run_sweep_range` -/
def runSweepRange (startOff endOff : ℕ) : Vm → PassResult :=
  runPass mapped sched entries ⟨.hammer, startOff, endOff, 0⟩

/-- Source: `guest.rs`, `run_fill_range` -/
def runFillRange (startOff endOff : ℕ) (value : BitVec 64) : Vm → PassResult :=
  runPass mapped sched entries ⟨.fill, startOff, endOff, value⟩

/-- The count comes back in `x4`; `none` when the pass has not returned.
Source: `guest.rs`, `run_verify_range` -/
def runVerifyRange (startOff endOff : ℕ) (expected : BitVec 64) (vm : Vm) :
    Option (BitVec 64 × Vm) :=
  match runPass mapped sched entries ⟨.verify, startOff, endOff, expected⟩ vm with
  | .returned vm' => some (vm'.cpu.x 4, vm')
  | _ => none

end calls

end VmRatchet.Guest
