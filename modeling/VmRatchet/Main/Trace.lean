import VmRatchet.Main.World
import VmRatchet.Soak.Geometry

/-!
# The operations of a run

The runs of `main` that keep one vCPU — the plain reclaim loop, `timing::run` and
`fleet_sim::run` — as lists of operations, in the order of the source. Two things are not decided
by the program: where the kernel places a mapping (`Placement`), and whether a call succeeds; the
lists are those of runs in which every call does.

The host pointer `ram` is a variable of the program: a cycle reset replaces it, and `timing::run`
hands the last one back to `main`, which unmaps it. The loops below thread it through.

Left out: creating and destroying the vCPU, ledger readings, sleeps, the pressure generator (a
child process) and the output, none of which touches a map of this process. `--soak` and
`--alloc-shape` leave `main` before the part modelled here.
-/

namespace VmRatchet.Main

open Guest
open Soak (ReclaimMode)

/-- The options these runs read.
Source: `main.rs`, `Options` -/
structure Options where
  advice : ℤ
  sizeGb : ℕ
  naive : Bool
  hostTouch : Bool
  guestRead : Bool
  pressureCheck : Bool
  hammer : Bool
  repeats : ℕ
  timeReclaim : Bool
  extentKb : ℕ
  reclaimMode : ReclaimMode
  steadyState : Bool
  fleetSim : Bool
  services : ℕ
  serviceMib : ℕ

namespace Options

variable (o : Options)

/-- `opts.size_gb << 30` in `usize`.
Source: `main.rs`, `main` -/
def ramSize : ℕ := (o.sizeGb <<< 30) % 2 ^ 64

/-- Source: `timing.rs`, `run` -/
def extent : ℕ := if o.extentKb = 0 then o.ramSize else (o.extentKb * 1024) % 2 ^ 64

/-- The assertion at the head of `timing::run`.
Source: `timing.rs`, `run` -/
def extentAdmissible : Prop := page ∣ o.extent ∧ o.extent ∣ o.ramSize

/-- `opts.service_mib << 20` in `usize`.
Source: `fleet_sim.rs`, `run` -/
def region : ℕ := (o.serviceMib <<< 20) % 2 ^ 64

end Options

/-- Where the kernel places the mappings of a run. -/
structure Placement where
  /-- Guest RAM, as of this cycle; cycle 1 uses the mapping made at the start. -/
  ram : ℕ → ℕ
  code : ℕ
  /-- The canary of `parked_pressure_check`. -/
  parkedCanary : ℕ
  /-- The canary of `hammer_check`. -/
  hammerCanary : ℕ

/-- Source: `libc`, `MADV_FREE` -/
def madvFree : ℤ := 5

/-- Source: `libc`, `MADV_FREE_REUSABLE` -/
def madvFreeReusable : ℤ := 7

/-- `(0..n).step_by(k)`, for a positive step. -/
def stepBy (n k : ℕ) : List ℕ := (List.range ((n + k - 1) / k)).map (· * k)

/-- The body of a loop `for cycle in 1..=n` that reassigns `ram`: the operations and the new
`ram`. -/
def cycles (body : ℕ → ℕ → List Op × ℕ) : ℕ → ℕ → List Op × ℕ
  | 0, ram => ([], ram)
  | n + 1, ram =>
      let before := cycles body n ram
      let last := body (n + 1) before.2
      (before.1 ++ last.1, last.2)

/-! ## The pieces -/

section pieces

variable (o : Options) (pl : Placement)

/-- Everything up to the first use of the guest.
Source: `main.rs`, `main` -/
def setup (ram : ℕ) : List Op :=
  [.mmap ram o.ramSize, .mmap pl.code page, .access pl.code page, .hvVmCreate,
    .hvVmMap pl.code codeGpa.toNat page, .hvVmMap ram ramGpa o.ramSize]

/-- Everything after the last use of the guest.
Source: `main.rs`, `main` -/
def teardown (ram : ℕ) : List Op :=
  [.hvVmDestroy, .munmap ram o.ramSize, .munmap pl.code page]

/-- A cycle reset: fresh memory at the same guest-physical addresses.
Source: `main.rs`, `main`; `timing.rs`, `run` -/
def cycleReset (ram ram' : ℕ) : List Op :=
  [.hvVmUnmap ramGpa o.ramSize, .munmap ram o.ramSize, .mmap ram' o.ramSize,
    .hvVmMap ram' ramGpa o.ramSize]

/-- The reclaim answer to a doorbell.
Source: `main.rs`, `reclaim` -/
def reclaim (ram : ℕ) : List Op :=
  (if o.naive then [] else [.hvVmUnmap ramGpa o.ramSize]) ++
    [.madvise ram o.ramSize o.advice] ++
    (if o.naive then [] else [.hvVmMap ram ramGpa o.ramSize])

/-- `run_touch_pass`. -/
def touchPass (ram : ℕ) : List Op := [.pass ⟨.touch, 0, o.ramSize, 0⟩ ram]

/-- Dirtying guest RAM in one cycle: from the host, or by a guest pass.
Source: `main.rs`, `main` -/
def dirty (ram : ℕ) : List Op :=
  if o.hostTouch then [.access ram o.ramSize]
  else if o.guestRead then [.pass ⟨.read, 0, o.ramSize, 0⟩ ram]
  else touchPass o ram

/-- `Canary::arm(1)`: map, dirty and mark one GiB.
Source: `canary.rs`, `Canary::arm` -/
def canaryArm (ptr : ℕ) : List Op :=
  [.mmap ptr (1 <<< 30), .access ptr (1 <<< 30), .madvise ptr (1 <<< 30) madvFree]

/-- `canary.survey()`, the survey of guest RAM through the host mapping, and the canary's `drop`.
Source: `main.rs`, the ends of `parked_pressure_check` and `hammer_check`; `canary.rs`,
`Canary::survey`, `Canary::drop` -/
def surveys (ptr ram : ℕ) : List Op :=
  [.access ptr (1 <<< 30), .access ram o.ramSize, .munmap ptr (1 <<< 30)]

/-- Source: `main.rs`, `parked_pressure_check` -/
def parkedPressureCheck (ram : ℕ) : List Op :=
  canaryArm pl.parkedCanary ++ surveys o pl.parkedCanary ram

/-- Source: `main.rs`, `hammer_check` -/
def hammerCheck (ram : ℕ) : List Op :=
  canaryArm pl.hammerCanary ++ [.pass ⟨.hammer, 0, o.ramSize, 0⟩ ram] ++
    surveys o pl.hammerCanary ram

/-! ## The plain reclaim loop -/

/-- One turn of the loop over `--repeat`.
Source: `main.rs`, `main` -/
def plainCycle (cycle ram : ℕ) : List Op × ℕ :=
  if 1 < cycle then
    let ram' := pl.ram cycle
    (cycleReset o ram ram' ++ dirty o ram' ++ reclaim o ram', ram')
  else (dirty o ram ++ reclaim o ram, ram)

/-- Pass 2 and the safety probes.
Source: `main.rs`, `main` -/
def passTwo (ram : ℕ) : List Op :=
  if o.hostTouch = false ∧ o.repeats = 1 then
    touchPass o ram ++ (if o.pressureCheck then parkedPressureCheck o pl ram else []) ++
      (if o.hammer then hammerCheck o pl ram else [])
  else []

/-! ## Timing -/

/-- The reclaim triple of one extent: unmap, release, remap.
Source: `timing.rs`, `reclaim_extents` (the loop body) -/
def extentTriple (ram off len : ℕ) (mode : ReclaimMode) (advice : ℤ) : List Op :=
  let host := ram + off
  let gpa := (ramGpa + off) % 2 ^ 64
  [.hvVmUnmap gpa len] ++
    (match mode with
      | .reusable => [.madvise host len advice]
      | .munmap => [.munmap host len, .mmapFixed host len]) ++
    [.hvVmMap host gpa len]

/-- The triple over the whole range, one extent at a time.
Source: `timing.rs`, `reclaim_extents` -/
def reclaimExtents (ram ramSize extent : ℕ) (mode : ReclaimMode) (advice : ℤ) : List Op :=
  (stepBy ramSize extent).flatMap fun off => extentTriple ram off extent mode advice

/-- One turn of the loop over `--repeat`.
Source: `timing.rs`, `run` -/
def timingCycle (cycle ram : ℕ) : List Op × ℕ :=
  if 1 < cycle ∧ o.steadyState = false then
    let ram' := pl.ram cycle
    (cycleReset o ram ram' ++ touchPass o ram' ++
      reclaimExtents ram' o.ramSize o.extent o.reclaimMode o.advice ++ touchPass o ram', ram')
  else
    (touchPass o ram ++ reclaimExtents ram o.ramSize o.extent o.reclaimMode o.advice ++
      touchPass o ram, ram)

/-- The operations, and the RAM mapping handed back.
Source: `timing.rs`, `run` -/
def timingRun (ram : ℕ) : List Op × ℕ := cycles (timingCycle o pl) o.repeats ram

/-! ## The fleet -/

/-- Where region `i` starts, in `usize`; it ends where the next one starts.
Source: `fleet_sim.rs`, `run` (`i * region`) -/
def Options.serviceOff (i : ℕ) : ℕ := (i * o.region) % 2 ^ 64

/-- Starting a service: the guest dirties its region.
Source: `fleet_sim.rs`, `run` (the first loop) -/
def serviceStart (ram i : ℕ) : List Op :=
  [.pass ⟨.touch, o.serviceOff i, o.serviceOff (i + 1), 0⟩ ram]

/-- Stopping a service: the host reclaims its region.
Source: `fleet_sim.rs`, `run` (the second loop) -/
def serviceStop (ram i : ℕ) : List Op :=
  extentTriple ram (o.serviceOff i) o.region .reusable madvFreeReusable

/-- Services start one after another and stop one after another.
Source: `fleet_sim.rs`, `run` -/
def fleetRun (ram : ℕ) : List Op :=
  (List.range o.services).flatMap (serviceStart o ram) ++
    (List.range o.services).flatMap (serviceStop o ram)

/-! ## The whole run -/

/-- The run of `main`, from its first mapping to its last `munmap`.
Source: `main.rs`, `main` -/
def mainRun : List Op :=
  let ram := pl.ram 1
  if o.timeReclaim then
    let timed := timingRun o pl ram
    setup o pl ram ++ timed.1 ++ teardown o pl timed.2
  else if o.fleetSim then setup o pl ram ++ fleetRun o ram ++ teardown o pl ram
  else
    let looped := cycles (plainCycle o pl) o.repeats ram
    setup o pl ram ++ looped.1 ++ passTwo o pl looped.2 ++ teardown o pl looped.2

end pieces

end VmRatchet.Main
