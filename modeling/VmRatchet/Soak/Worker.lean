import Mathlib.Data.Rat.Defs
import VmRatchet.Guest.Refine
import VmRatchet.Lib.Threads
import VmRatchet.Soak.Geometry

/-!
# The soak: workers, main thread, pressure thread and operating system

`soak::run` starts one worker thread per vCPU and a pressure thread, waits for the deadline and
prints a verdict. The whole process is one `Threads.System`:

* a `Worker` is one thread of `worker`: the statement it is at (`Stmt`, in the order of the
  source), its local variables, and its vCPU. A guest pass is not one step: arming it is a step
  of the host, every instruction of it a step of its own, and so is every `Canceled` exit.
* `Shared` is what the threads share: guest memory, the stage-2 map, the host address space, the
  task's footprint, `Stats`, and the main and pressure threads.
* `Act` is what can happen in or to a worker, `Env` everything else: the operating system zeroing
  guest pages, allocations of other threads, other changes of the footprint, the clock, and the
  steps of the main and the pressure thread.

A label says who moves, so a run is an arbitrary interleaving. Every system call succeeds or makes
its caller panic (`Act.fail`, which may strike at every statement). Nothing here restricts the
operating system: each result states what it assumes of the events along the run.

What is left out: the texts of the progress lines; CPSR, which no guest instruction reads; and
floating point, with `f64` sums and quotients taken as exact rationals.
-/

namespace VmRatchet.Soak

open Arm64 ByteMemory Guest

/-! ## Configuration -/

/-- What `run` is started with. `ram` is the host address of guest RAM; `run` has checked the
slots, and its caller has stage-2 mapped all of guest RAM, so that its last byte has a 64-bit
guest-physical address. -/
structure Config extends Options where
  ram : ℕ
  accepted : toOptions.Accepted
  addressable : ramGpa + toOptions.ramSize < 2 ^ 64

/-- The two halves of a slot. -/
inductive Side
  | hot
  | cold
  deriving DecidableEq

/-- The range of one half of a slot, by its first and last offset. -/
def Options.range (o : Options) (k : ℕ) : Side → ℕ × ℕ
  | .hot => o.hot k
  | .cold => o.cold k

/-- Source: `soak.rs`, `worker` (`pages_per_half`) -/
def Options.pagesPerHalf (o : Options) : ℕ := o.half / page

/-- Source: `soak.rs`, `HOT_SWEEPS_PER_CYCLE` -/
def hotSweepsPerCycle : ℕ := 4

/-- Source: `soak.rs`, `worker` (`stamp`) -/
def stampOf (k : ℕ) (cycle : BitVec 64) : BitVec 64 := BitVec.ofNat 64 k <<< 32 ||| cycle

/-- Source: `soak.rs`, `detector_self_test` (`victim`) -/
def Options.victim (o : Options) (k : ℕ) : ℕ := (o.hot k).1 + page

/-! ## Statements -/

/-- The statements of `worker`, `detector_self_test` and `reclaim`, in the order of the source. -/
inductive Stmt
  | vcpuCreate
  | setCpsr
  /-- The sweep that brings the hot half under the guest, and `hot_sweeps += 1`. -/
  | firstSweep
  | firstCount
  /-- `detector_self_test`: the planted corruption, its verification, the restore and the two
  assertions. -/
  | plantRead
  | plantWrite
  | plantVerify
  | restore
  | assertFound
  | cleanVerify
  | assertClean
  /-- `while Instant::now() < deadline` -/
  | deadline
  /-- Round `i` of the hot loop. -/
  | hotSweep (i : ℕ)
  | hotCount (i : ℕ)
  | hotSwept (i : ℕ)
  | hotVerify (i : ℕ)
  | hotChecked (i : ℕ)
  | hotBad (i : ℕ)
  /-- `cycle += 1` and the new stamp. -/
  | nextCycle
  | coldSweep
  | coldSwept
  | ledgerBefore
  /-- Inside `reclaim`, with the calls still to be made. -/
  | reclaim (rest : List Call)
  | ledgerAfter
  | reclaimCount
  | push
  | coldFill
  /-- The verification after the fill, and `again` after the sleep. -/
  | coldVerify (again : Bool)
  | coldChecked (again : Bool)
  | coldBad (again : Bool)
  | sleep
  | vcpuDestroy
  | done
  deriving DecidableEq

/-- The guest pass a statement calls: over which half, with which program. -/
def Stmt.call : Stmt → Option (Side × Program)
  | .firstSweep => some (.hot, .hammer)
  | .plantVerify => some (.hot, .verify)
  | .cleanVerify => some (.hot, .verify)
  | .hotSweep _ => some (.hot, .hammer)
  | .hotVerify _ => some (.hot, .verify)
  | .coldSweep => some (.cold, .hammer)
  | .coldFill => some (.cold, .fill)
  | .coldVerify _ => some (.cold, .verify)
  | _ => none

/-- The statement after a guest pass. -/
def Stmt.afterPass : Stmt → Stmt
  | .firstSweep => .firstCount
  | .plantVerify => .restore
  | .cleanVerify => .assertClean
  | .hotSweep i => .hotCount i
  | .hotVerify i => .hotChecked i
  | .coldSweep => .coldSwept
  | .coldFill => .coldVerify false
  | .coldVerify again => .coldChecked again
  | s => s

/-- From the reclaim to the start of the fill: the worker has handed its cold half back. -/
def Stmt.released : Stmt → Bool
  | .reclaim _ | .ledgerAfter | .reclaimCount | .push | .coldFill => true
  | _ => false

/-! ## State -/

/-- Source: `soak.rs`, `Stats` -/
structure Stats where
  sweeps : BitVec 64 := 0
  pageChecks : BitVec 64 := 0
  mismatches : BitVec 64 := 0
  reclaims : BitVec 64 := 0
  reclaimedMib : List ℚ := []

/-- One load of a verification pass: the statement that made it, the cycles completed before it,
the address, and whether the pass went on to count it as a mismatch. -/
structure Check where
  stmt : Stmt
  cycles : ℕ
  addr : BitVec 64
  counted : Bool

/-- One worker thread with its vCPU. The last four fields are history: no statement reads them.
Source: `soak.rs`, `worker` -/
structure Worker where
  stmt : Stmt := .vcpuCreate
  /-- The guest pass of `stmt` has been armed and has not rung. -/
  running : Bool := false
  /-- The thread has panicked, at `stmt`. -/
  dead : Bool := false
  cpu : Cpu
  hotSweeps : BitVec 64 := 0
  cycle : BitVec 64 := 0
  stamp : BitVec 64 := 0
  saved : BitVec 64 := 0
  found : BitVec 64 := 0
  clean : BitVec 64 := 0
  bad : BitVec 64 := 0
  before : ℕ := 0
  after : ℕ := 0
  /-- Cycles completed. -/
  cycles : ℕ := 0
  /-- The cold pages the operating system has taken since the last fill. -/
  taken : ℕ → Bool := fun _ => false
  /-- The loads of all verification passes, newest first. -/
  checks : List Check := []
  /-- The sum of all mismatch counts added to `Stats.mismatches`. -/
  reported : ℕ := 0

/-- Where the main thread stands in `run`.
Source: `soak.rs`, `run` -/
inductive MainAt
  | progress
  | join (k : ℕ)
  | storeStop
  | joinPressure
  | verdict
  | returned
  deriving DecidableEq

/-- Where the pressure thread stands in its loop.
Source: `soak.rs`, `run` -/
inductive PressureAt
  | test
  | apply
  | on
  | off
  | ended
  deriving DecidableEq

/-- The conclusion `run` prints.
Source: `soak.rs`, `run` -/
inductive Conclusion
  /-- "no corruption in `checks` checked pages", with the rule-of-three bound. -/
  | noCorruption (checks : BitVec 64)
  /-- "CORRUPTION DETECTED". -/
  | corruptionDetected (bad : BitVec 64)
  deriving DecidableEq

/-- The last lines `run` prints: the summary and the conclusion.
Source: `soak.rs`, `run` -/
structure Report where
  checks : BitVec 64
  bad : BitVec 64
  reclaims : BitVec 64
  releasedGib : ℚ
  conclusion : Conclusion

/-- What the threads of the process share. -/
structure Shared where
  /-- Guest-physical memory. -/
  mem : Mem
  /-- The stage-2 map: which guest-physical bytes are mapped. -/
  mapped : ℕ → Bool
  /-- Which host addresses are mapped. -/
  hostMapped : ℕ → Bool
  /-- The ranges other threads have allocated and not freed, as addresses and lengths. -/
  allocs : List (ℕ × ℕ) := []
  /-- `phys_footprint` of the task, in bytes. -/
  footprint : ℕ
  stats : Stats := {}
  /-- The deadline has passed. -/
  expired : Bool := false
  stop : Bool := false
  pressure : PressureAt := .test
  /-- The results of `pressure::apply` so far, newest first. -/
  applied : List Bool := []
  main : MainAt := .progress
  /-- The line "detector self-test: planted corruption found, …" has been printed. -/
  selfTest : Bool := false
  report : Option Report := none

/-! ## System calls -/

/-- Source: `ledger/lib.rs`, `delta_mib` -/
def deltaMib (after before : ℕ) : ℚ := ((after : ℚ) - before) / (1024 * 1024)

/-- What a successful system call of `reclaim` does to the two maps and to guest memory; `ram` is
the host address of guest RAM. `madvise` leaves the pages to the operating system, which may take
them from then on (`Act.take`). `mmap(MAP_ANON | MAP_FIXED)` puts fresh zero-fill where the
unmapped pages were: whatever they held is gone.
Source: `soak.rs`, `reclaim` -/
def Shared.call (ram : ℕ) (sh : Shared) : Call → Shared
  | .hvVmUnmap gpa len => { sh with mapped := setRange sh.mapped gpa len false }
  | .madvise _ _ _ => sh
  | .munmap addr len => { sh with hostMapped := setRange sh.hostMapped addr len false }
  | .mmapFixed addr len => { sh with
      hostMapped := setRange sh.hostMapped addr len true
      mem := setRange sh.mem (ramGpa + (addr - ram)) len 0 }
  | .hvVmMap _ gpa len => { sh with mapped := setRange sh.mapped gpa len true }

/-! ## One worker -/

namespace Worker

variable (cfg : Config) (k : ℕ)

/-- The guest pass the worker's statement calls, with its arguments.
Source: `soak.rs`, `worker`, `detector_self_test` -/
def pass (w : Worker) : Option Pass :=
  w.stmt.call.map fun (side, prog) =>
    { prog := prog
      startOff := (cfg.range k side).1
      endOff := (cfg.range k side).2
      value := match prog, side with
        | .verify, .hot => w.hotSweeps
        | .verify, .cold => w.stamp
        | .fill, _ => w.stamp
        | _, _ => 0 }

/-- Arm the guest pass.
Source: `guest.rs`, `run_pass` -/
def enter (w : Worker) (p : Pass) : Worker := { w with running := true, cpu := p.arm w.cpu }

/-- The guest pass returns; a verification returns the count in `x4`.
Source: `guest.rs`, `run_verify_range`; `soak.rs`, `worker`, `detector_self_test` -/
def ring (w : Worker) : Worker :=
  { w with
    running := false
    stmt := w.stmt.afterPass
    found := if w.stmt = .plantVerify then w.cpu.x 4 else w.found
    clean := if w.stmt = .cleanVerify then w.cpu.x 4 else w.clean
    bad := match w.stmt with
      | .hotVerify _ | .coldVerify _ => w.cpu.x 4
      | _ => w.bad
    taken := if w.stmt = .coldFill then fun _ => false else w.taken }

/-- An exit of the vCPU: re-enter, return from the pass, or panic.
Source: `guest.rs`, `run_pass`, `run_to_doorbell` -/
def onExit (w : Worker) (info : HvVcpuExitInfo) : Worker :=
  match runToDoorbell info with
  | some .canceled => w
  | some .doorbell => w.ring
  | none => { w with dead := true }

/-- The history of verification loads after one instruction: the load of `VERIFY_CODE` opens an
entry, its `add x4, x4, #1` marks the newest one. -/
def observe (w : Worker) : List Check :=
  if w.cpu.pc = Program.verify.entry then ⟨w.stmt, w.cycles, w.cpu.x 1, false⟩ :: w.checks
  else if w.cpu.pc = Program.verify.entry + 12 then
    match w.checks with
    | c :: cs => { c with counted := true } :: cs
    | [] => []
  else w.checks

/-- One guest instruction, which runs or leaves the guest; an exit is dealt with by the host thread
that waits for it. -/
def guest (w : Worker) (sh : Shared) : Worker × Shared :=
  match vcpuStep sh.mapped w.cpu sh.mem with
  | .ran c m => ({ w with cpu := c, checks := w.observe }, { sh with mem := m })
  | .exited info => (w.onExit info, sh)

/-- One host statement other than a guest pass and a call of `reclaim`.
Source: `soak.rs`, `worker`, `detector_self_test` -/
def host (w : Worker) (sh : Shared) : Option (Worker × Shared) :=
  match w.stmt with
  | .vcpuCreate => some ({ w with stmt := .setCpsr }, sh)
  | .setCpsr => some ({ w with stmt := .firstSweep }, sh)
  | .firstCount =>
      some ({ w with
        hotSweeps := w.hotSweeps + 1
        stmt := if k = 0 then .plantRead else .deadline }, sh)
  | .plantRead =>
      some ({ w with saved := load64 sh.mem (ramGpa + cfg.victim k), stmt := .plantWrite }, sh)
  | .plantWrite =>
      some ({ w with stmt := .plantVerify },
        { sh with mem := store64 sh.mem (ramGpa + cfg.victim k) (w.saved ^^^ 0xDEADBEEF) })
  | .restore =>
      some ({ w with stmt := .assertFound },
        { sh with mem := store64 sh.mem (ramGpa + cfg.victim k) w.saved })
  | .assertFound =>
      if w.found = 1 then some ({ w with stmt := .cleanVerify }, sh)
      else some ({ w with dead := true }, sh)
  | .assertClean =>
      if w.clean = 0 then some ({ w with stmt := .deadline }, { sh with selfTest := true })
      else some ({ w with dead := true }, sh)
  | .deadline => some ({ w with stmt := if sh.expired then .vcpuDestroy else .hotSweep 0 }, sh)
  | .hotCount i => some ({ w with hotSweeps := w.hotSweeps + 1, stmt := .hotSwept i }, sh)
  | .hotSwept i =>
      some ({ w with stmt := .hotVerify i },
        { sh with stats := { sh.stats with sweeps := sh.stats.sweeps + 1 } })
  | .hotChecked i =>
      some ({ w with stmt := .hotBad i }, { sh with stats := { sh.stats with
        pageChecks := sh.stats.pageChecks + BitVec.ofNat 64 cfg.pagesPerHalf } })
  | .hotBad i =>
      some ({ w with
          stmt := if i + 1 < hotSweepsPerCycle then .hotSweep (i + 1) else .nextCycle
          reported := w.reported + w.bad.toNat },
        { sh with stats := { sh.stats with mismatches := sh.stats.mismatches + w.bad } })
  | .nextCycle =>
      some ({ w with
        cycle := w.cycle + 1
        stamp := stampOf k (w.cycle + 1)
        stmt := .coldSweep }, sh)
  | .coldSwept =>
      some ({ w with stmt := .ledgerBefore },
        { sh with stats := { sh.stats with sweeps := sh.stats.sweeps + 1 } })
  | .ledgerBefore =>
      some ({ w with
        before := sh.footprint
        stmt := .reclaim (reclaimCalls cfg.ram (cfg.cold k) cfg.mode cfg.advice) }, sh)
  | .reclaim [] => some ({ w with stmt := .ledgerAfter }, sh)
  | .ledgerAfter => some ({ w with after := sh.footprint, stmt := .reclaimCount }, sh)
  | .reclaimCount =>
      some ({ w with stmt := .push },
        { sh with stats := { sh.stats with reclaims := sh.stats.reclaims + 1 } })
  | .push =>
      some ({ w with stmt := .coldFill }, { sh with stats := { sh.stats with
        reclaimedMib := sh.stats.reclaimedMib ++ [deltaMib w.before w.after] } })
  | .coldChecked again =>
      some ({ w with stmt := .coldBad again }, { sh with stats := { sh.stats with
        pageChecks := sh.stats.pageChecks + BitVec.ofNat 64 cfg.pagesPerHalf } })
  | .coldBad again =>
      some ({ w with
          stmt := if again then .deadline else .sleep
          cycles := if again then w.cycles + 1 else w.cycles
          reported := w.reported + w.bad.toNat },
        { sh with stats := { sh.stats with mismatches := sh.stats.mismatches + w.bad } })
  | .sleep => some ({ w with stmt := .coldVerify true }, sh)
  | .vcpuDestroy => some ({ w with stmt := .done }, sh)
  | _ => none

end Worker

/-! ## Actions of a worker -/

/-- What can happen in or to a worker: a statement of its host thread, an instruction of its guest,
an interruption, a call of its reclaim, a page that is taken, or a panic. -/
inductive Act
  /-- The next statement of the host thread, or the arming of a guest pass. -/
  | host
  /-- One guest instruction. -/
  | guest
  /-- `hv_vcpu_run` returns with a `Canceled` exit. -/
  | cancel
  /-- The next call of `reclaim`, which releases so many bytes of the footprint. -/
  | call (released : ℕ)
  /-- The operating system takes page `i` of the released cold half and leaves other bytes. -/
  | take (i : ℕ) (bytes : ℕ → BitVec 8)
  /-- The statement fails and the thread panics. -/
  | fail

/-- One action of worker `k`, on its own state and the shared one; a dead worker does nothing. -/
def Worker.step (cfg : Config) (k : ℕ) (a : Act) (w : Worker) (sh : Shared) :
    Option (Worker × Shared) :=
  if w.dead then none
  else match a with
    | .host =>
        if w.running then none
        else match w.pass cfg k with
          | some p => some (w.enter p, sh)
          | none => w.host cfg k sh
    | .guest => if w.running then some (w.guest sh) else none
    | .cancel => if w.running then some (w.onExit canceledExit, sh) else none
    | .call released =>
        match w.stmt with
        | .reclaim (c :: rest) =>
            if released ≤ sh.footprint then
              some ({ w with stmt := .reclaim rest },
                { sh.call cfg.ram c with footprint := sh.footprint - released })
            else none
        | _ => none
    | .take i bytes =>
        if w.stmt.released = true ∧ w.running = false ∧ i < cfg.pagesPerHalf then
          some ({ w with taken := fun j => j = i || w.taken j },
            { sh with mem := fun a =>
                let start := ramGpa + (cfg.cold k).1 + i * page
                if start ≤ a ∧ a < start + page then bytes (a - start) else sh.mem a })
        else none
    | .fail => if w.stmt = .done then none else some ({ w with dead := true }, sh)

/-! ## The rest of the process -/

/-- Everything that is not an action of a worker. -/
inductive Env
  /-- The operating system zeroes `n` bytes of guest memory. -/
  | zero (a n : ℕ)
  /-- Another thread's `mmap(NULL, n, …)` is placed at `a`. -/
  | alloc (a n : ℕ)
  /-- Another thread unmaps a range it has allocated. -/
  | free (r : ℕ × ℕ)
  /-- The footprint changes for another reason. -/
  | footprint (n : ℕ)
  /-- The deadline passes. -/
  | expire
  /-- A step of the pressure thread; `ok` is the result, if it is `pressure::apply`. -/
  | pressure (ok : Bool)
  /-- A step of the main thread. -/
  | main

/-- One step of the pressure thread; the waits of its two inner loops may end at any time.
Source: `soak.rs`, `run` -/
def Shared.pressureStep (sh : Shared) (ok : Bool) : Option Shared :=
  match sh.pressure with
  | .test => some { sh with pressure := if sh.stop then .ended else .apply }
  | .apply => some { sh with pressure := .on, applied := ok :: sh.applied }
  | .on => some { sh with pressure := .off }
  | .off => some { sh with pressure := .test }
  | .ended => none

/-- The summary and the conclusion.
Source: `soak.rs`, `run` -/
def Stats.report (s : Stats) : Report where
  checks := s.pageChecks
  bad := s.mismatches
  reclaims := s.reclaims
  releasedGib := s.reclaimedMib.sum / 1024
  conclusion :=
    if s.mismatches = 0 then .noCorruption s.pageChecks else .corruptionDetected s.mismatches

/-- The thread has returned or panicked: `join` does not block, and its result is ignored.
Source: `soak.rs`, `run` (`let _ = w.join()`) -/
def Worker.ended (w : Worker) : Bool := w.dead || w.stmt == .done

/-- One step of the main thread.
Source: `soak.rs`, `run` -/
def Shared.mainStep (cfg : Config) (workers : ℕ → Worker) (sh : Shared) : Option Shared :=
  match sh.main with
  | .progress => some { sh with main := if sh.expired then .join 0 else .progress }
  | .join k =>
      if k < cfg.vcpuCount then
        if (workers k).ended then some { sh with main := .join (k + 1) } else none
      else some { sh with main := .storeStop }
  | .storeStop => some { sh with stop := true, main := .joinPressure }
  | .joinPressure => if sh.pressure = .ended then some { sh with main := .verdict } else none
  | .verdict => some { sh with report := some sh.stats.report, main := .returned }
  | .returned => none

/-- One event outside the workers: the operating system, another thread, the clock, the pressure
thread or the main thread makes its step. -/
def Env.step (cfg : Config) (e : Env) (workers : ℕ → Worker) (sh : Shared) : Option Shared :=
  match e with
  | .zero a n => some { sh with mem := setRange sh.mem a n 0 }
  | .alloc a n =>
      if 0 < n ∧ ∀ i < n, sh.hostMapped (a + i) = false then
        some { sh with
          hostMapped := setRange sh.hostMapped a n true
          allocs := (a, n) :: sh.allocs }
      else none
  | .free r =>
      if r ∈ sh.allocs then
        some { sh with
          hostMapped := setRange sh.hostMapped r.1 r.2 false
          allocs := sh.allocs.erase r }
      else none
  | .footprint n => some { sh with footprint := n }
  | .expire => some { sh with expired := true }
  | .pressure ok => sh.pressureStep ok
  | .main => sh.mainStep cfg workers

/-- The process: one thread for each vCPU, and everything else. -/
def soak (cfg : Config) : Threads.System Worker Shared Act Env where
  count := cfg.vcpuCount
  act := Worker.step cfg
  env := Env.step cfg

/-- States and labels of the soak. -/
abbrev Proc := Threads.State Worker Shared

/-- Who moves. -/
abbrev Move := Threads.Label Act Env

/-- The process as `run` starts its threads: fresh workers with arbitrary register files, zeroed
guest RAM, all of it stage-2 mapped and mapped in the host. -/
structure Initial (cfg : Config) (st : Proc) : Prop where
  fresh : ∀ k, ∃ cpu, st.thread k = { cpu := cpu }
  zeroed : ∀ a, ramGpa ≤ a → a < ramGpa + cfg.ramSize → st.shared.mem a = 0
  mapped : st.shared.mapped = ramMapped cfg.ramSize
  hostMapped : ∀ a, cfg.ram ≤ a → a < cfg.ram + cfg.ramSize → st.shared.hostMapped a = true
  allocs : st.shared.allocs = []
  stats : st.shared.stats = {}
  expired : st.shared.expired = false
  stop : st.shared.stop = false
  pressure : st.shared.pressure = .test
  applied : st.shared.applied = []
  main : st.shared.main = .progress
  selfTest : st.shared.selfTest = false
  report : st.shared.report = none

/-- One such process, with all registers zero and the whole host address space mapped up to the
end of guest RAM. -/
def boot (cfg : Config) : Proc where
  thread _ := { cpu := ⟨fun _ => 0, 0, ⟨false, false, false, false⟩⟩ }
  shared :=
    { mem := fun _ => 0
      mapped := ramMapped cfg.ramSize
      hostMapped := fun a => decide (a < cfg.ram + cfg.ramSize)
      footprint := 0 }

/-- The process at its start, with RAM zero, everything mapped and no worker past its first
statement, is an initial state. -/
theorem boot_initial (cfg : Config) : Initial cfg (boot cfg) where
  fresh _ := ⟨_, rfl⟩
  zeroed _ _ _ := rfl
  mapped := rfl
  hostMapped a _ h := by
    simp only [boot]
    exact decide_eq_true h
  allocs := rfl
  stats := rfl
  expired := rfl
  stop := rfl
  pressure := rfl
  applied := rfl
  main := rfl
  selfTest := rfl
  report := rfl

end VmRatchet.Soak
