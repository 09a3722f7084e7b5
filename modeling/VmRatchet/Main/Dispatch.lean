import VmRatchet.AllocShape.Cell
import VmRatchet.Main.Cli
import VmRatchet.Main.Fleet
import VmRatchet.Soak.Control

/-!
# Where the flags go

`main` leaves for one of four modes or goes on with the plain path. This module asks of a run of
`main`, in whichever mode, whether it did what the flags said: whether the safety probes were
entered, and which advice the `madvise` calls over guest RAM were given.

* `Event`, `mainEvents` — the operations of a run with the entries of the two probes between them;
  `mainEvents_ops` — without these they are those of `mainRun`.
* `Traced`, `Advises` — a run of operations that remembers where guest RAM is, and a `madvise` that
  meets it.
* `Run`, `Run.Executes`, `Run.AdvisedWith` — the runs of `main` in its modes: the children of
  `--alloc-shape`, the threads of `--soak`, and one vCPU.
* `HasRam`, `triple_passTwo_selected` — on the plain path, guest RAM stays mapped while the canary
  is mapped, so the canary's own advice is not for guest RAM.
* `Run.Overrides` — the modes that have an advice of their own, where they come to use it.
* `flags_honoured_iff` — when the flags of accepted arguments are honoured.
-/

namespace VmRatchet.Main

open AllocShape Guest Transition
open Text (chars)

/-! ## The operations of a run, and its probes -/

/-- The options `soak::run` reads. -/
def Cli.soakOptions (c : Cli) : Soak.Options where
  sizeGb := c.sizeGb
  vcpus := c.vcpus
  mode := c.reclaimMode
  advice := c.advice

/-- An operation, or the entry of a safety probe. -/
inductive Event
  | op (op : Op)
  | parkedPressureCheck
  | hammerCheck

/-- The operation an event is, if it is one and not the entry of a probe. -/
def Event.op? : Event → Option Op
  | op o => some o
  | _ => none

section events

variable (c : Cli) (pl : Placement)

/-- Pass 2 and the safety probes.
Source: `main.rs`, `main` -/
def passTwoEvents (o : Options) (pl : Placement) (ram : ℕ) : List Event :=
  if o.hostTouch = false ∧ o.repeats = 1 then
    (touchPass o ram).map .op ++
      (if o.pressureCheck then .parkedPressureCheck :: (parkedPressureCheck o pl ram).map .op
        else []) ++
      (if o.hammer then .hammerCheck :: (hammerCheck o pl ram).map .op else [])
  else []

/-- The operations of `main` with one vCPU.
Source: `main.rs`, `main` -/
def mainEvents : List Event :=
  let o := c.toOptions
  let ram := pl.ram 1
  if o.timeReclaim then
    let timed := timingRun o pl ram
    (setup o pl ram ++ timed.1 ++ teardown o pl timed.2).map .op
  else if o.fleetSim then (setup o pl ram ++ fleetRun o ram ++ teardown o pl ram).map .op
  else
    let looped := cycles (plainCycle o pl) o.repeats ram
    (setup o pl ram ++ looped.1).map .op ++ passTwoEvents o pl looped.2 ++
      (teardown o pl looped.2).map .op

/-- Without the entries of the probes these are the operations of `mainRun`. -/
theorem mainEvents_ops : (mainEvents c pl).filterMap Event.op? = mainRun c.toOptions pl := by
  have hops : ∀ l : List Op, (l.map Event.op).filterMap Event.op? = l := by
    intro l
    rw [List.filterMap_map]
    exact List.filterMap_some
  have hpass : ∀ o ram, (passTwoEvents o pl ram).filterMap Event.op? = passTwo o pl ram := by
    intro o ram
    unfold passTwoEvents passTwo
    have hparked : Event.op? .parkedPressureCheck = none := rfl
    have hhammer : Event.op? .hammerCheck = none := rfl
    split_ifs <;> simp [hops, List.filterMap_cons_none hparked, List.filterMap_cons_none hhammer]
  simp only [mainEvents, mainRun]
  split_ifs
  · exact hops _
  · exact hops _
  · simp only [List.filterMap_append, hops, hpass]

end events

/-! ## Guest RAM along a run -/

/-- Where guest RAM is after an operation: where `RAM_GPA` was mapped to last. -/
def Op.ramAfter (ram : Option ℕ) : Op → Option ℕ
  | .hvVmMap addr gpa _ => if gpa = ramGpa then some addr else ram
  | _ => ram

/-- A world that remembers where guest RAM is: the address that was last mapped at its place in the
guest. -/
structure Traced where
  world : World
  ram : Option ℕ

/-- One operation, which may move guest RAM to another address. -/
def Traced.step (s : Traced) (op : Op) : Option Traced :=
  (s.world.step op).map fun w => ⟨w, op.ramAfter s.ram⟩

/-- Two ranges with a byte in common. -/
def Overlaps (ram size addr len : ℕ) : Prop := ∃ b < len, ram ≤ addr + b ∧ addr + b < ram + size

/-- The operation is a `madvise` over guest RAM, with this advice. -/
def Advises (size : ℕ) (advice : ℤ) (s : Traced) (op : Op) : Prop :=
  ∃ addr len ram, op = .madvise addr len advice ∧ s.ram = some ram ∧ Overlaps ram size addr len

/-- If it is a `madvise` over guest RAM, it has this advice. -/
def Selected (size : ℕ) (advice : ℤ) (s : Traced) (op : Op) : Prop :=
  ∀ a, Advises size a s op → a = advice

/-- The bytes of guest RAM at `ram` are all mapped in the process, and there is at least one. -/
def Mapped (size ram : ℕ) (s : Traced) : Prop :=
  0 < size ∧ ∀ b < size, s.world.host (ram + b) ≠ none

/-- Guest RAM is at `ram`, and all of it is mapped in the process. -/
structure HasRam (size ram : ℕ) (s : Traced) : Prop where
  eq : s.ram = some ram
  mapped : Mapped size ram s

/-- The operation takes memory away from the process: it unmaps a range, or maps another one over
it. -/
def Op.takes : Op → Bool
  | .munmap _ _ | .mmapFixed _ _ => true
  | _ => false

section traced

variable {size ram : ℕ} {advice : ℤ} {s t : Traced} {op : Op} {ops : List Op}

/-- One operation with the memory of the run on the side: it goes through exactly if it does
without, and what is known of guest RAM is updated. -/
theorem Traced.step_eq_some : s.step op = some t ↔
    ∃ w, s.world.step op = some w ∧ t = ⟨w, op.ramAfter s.ram⟩ := by
  rw [Traced.step, Option.map_eq_some_iff]
  constructor
  · rintro ⟨w, hw, rfl⟩
    exact ⟨w, hw, rfl⟩
  · rintro ⟨w, hw, rfl⟩
    exact ⟨w, hw, rfl⟩

/-- Mapped memory stays mapped through an operation that takes no memory away. -/
theorem host_of_step {w w' : World} {a : ℕ} (h : w.step op = some w') (hop : op.takes = false)
    (ha : w.host a ≠ none) : w'.host a ≠ none := by
  cases op with
  | mmap addr len =>
      simp only [World.step, Option.ite_none_right_eq_some, Option.some.injEq] at h
      obtain ⟨-, rfl⟩ := h
      by_cases hmem : addr ≤ a ∧ a < addr + len
      · rw [provide_host_of_mem hmem]
        exact Option.some_ne_none _
      · rwa [provide_host_of_not_mem hmem]
  | mmapFixed | munmap => cases hop
  | _ =>
      cases h
      exact ha

/-- An operation that advises, if at all, with the selected advice takes a selected step from every
state. -/
theorem selected_of_advice (h : ∀ addr len a, op = .madvise addr len a → a = advice) (s : Traced) :
    Selected size advice s op := by
  rintro a ⟨addr, len, _, rfl, -, -⟩
  exact h addr len a rfl

/-- All operations of a list have this advice, if any. -/
def OnlyAdvice (advice : ℤ) (ops : List Op) : Prop :=
  ∀ addr len a, .madvise addr len a ∈ ops → a = advice

/-- Lists that know one advice only may be put one after the other. -/
theorem OnlyAdvice.append {ops' : List Op} (h : OnlyAdvice advice ops)
    (h' : OnlyAdvice advice ops') : OnlyAdvice advice (ops ++ ops') := by
  intro addr len a hmem
  rcases List.mem_append.mp hmem with hmem | hmem
  · exact h addr len a hmem
  · exact h' addr len a hmem

/-- Operations that know one advice only take selected steps from every state, wherever guest RAM
is. -/
theorem triple_any (size : ℕ) (h : OnlyAdvice advice ops) :
    Triple Traced.step (Selected size advice) (fun _ => True) ops (fun _ => True) := by
  refine fun s _ => ⟨.of_labels (fun op hop => selected_of_advice ?_) s, fun _ _ => trivial⟩
  rintro addr len a rfl
  exact h addr len a hop

/-- A mapping of the process's own is mapped once `mmap` has returned. -/
theorem triple_mapped_mmap {pre : Traced → Prop} : Triple Traced.step (Selected size advice) pre
    [.mmap ram size] (Mapped size ram) := by
  refine Triple.single (fun s _ => selected_of_advice (by simp) s) fun s t _ hstep => ?_
  obtain ⟨w, hw, rfl⟩ := Traced.step_eq_some.mp hstep
  simp only [World.step, Option.ite_none_right_eq_some, Option.some.injEq] at hw
  obtain ⟨⟨hpos, -⟩, rfl⟩ := hw
  refine ⟨hpos, fun b hb => ?_⟩
  rw [provide_host_of_mem ⟨by omega, by omega⟩]
  exact Option.some_ne_none _

/-- A mapping stays mapped while no operation takes memory away. -/
theorem triple_mapped (htakes : ∀ op ∈ ops, op.takes = false) (h : OnlyAdvice advice ops) :
    Triple Traced.step (Selected size advice) (Mapped size ram) ops (Mapped size ram) := by
  intro s hs
  obtain ⟨halong, -⟩ := triple_any size h s trivial
  refine ⟨halong, fun t ht => ⟨hs.1, fun b hb => ?_⟩⟩
  have hstep : ∀ s op t, op.takes = false → s.world.host (ram + b) ≠ none →
      Traced.step s op = some t → t.world.host (ram + b) ≠ none := by
    intro s op t hop hmapped hstep
    obtain ⟨w, hw, rfl⟩ := Traced.step_eq_some.mp hstep
    exact host_of_step hw hop hmapped
  exact run_invariant hstep (.of_labels (fun op hop _ => htakes op hop) s) (hs.2 b hb) ht

/-- Mapping it into the guest makes it guest RAM. -/
theorem triple_mapped_hvVmMap : Triple Traced.step (Selected size advice) (Mapped size ram)
    [.hvVmMap ram ramGpa size] (HasRam size ram) := by
  refine Triple.single (fun s _ => selected_of_advice (by simp) s) fun s t hs hstep => ?_
  obtain ⟨w, hw, rfl⟩ := Traced.step_eq_some.mp hstep
  exact ⟨by simp [Op.ramAfter], hs.1, fun b hb => host_of_step hw rfl (hs.2 b hb)⟩

/-- Guest RAM stays where it is: no memory is taken away, and nothing else is mapped at its
place. -/
def Op.Keeps (ram : ℕ) (op : Op) : Prop :=
  op.takes = false ∧ ∀ addr len, op = .hvVmMap addr ramGpa len → addr = ram

/-- An operation that keeps guest RAM mapped leaves it where it is. -/
theorem Op.Keeps.ramAfter (h : op.Keeps ram) : op.ramAfter (some ram) = some ram := by
  cases op with
  | hvVmMap addr gpa len =>
      simp only [Op.ramAfter]
      split_ifs with hgpa
      · rw [h.2 addr len (by rw [hgpa])]
      · rfl
  | _ => rfl

/-- **Guest RAM stays mapped** under operations that keep it. -/
theorem triple_keeps (hkeep : ∀ op ∈ ops, op.Keeps ram) (h : OnlyAdvice advice ops) :
    Triple Traced.step (Selected size advice) (HasRam size ram) ops (HasRam size ram) := by
  intro s hs
  obtain ⟨halong, hmapped⟩ := triple_mapped (fun op hop => (hkeep op hop).1) h s hs.mapped
  refine ⟨halong, fun t ht => ⟨?_, hmapped t ht⟩⟩
  have hstep : ∀ s op t, op.Keeps ram → s.ram = some ram → Traced.step s op = some t →
      t.ram = some ram := by
    intro s op t hop hs hstep
    obtain ⟨w, -, rfl⟩ := Traced.step_eq_some.mp hstep
    rw [hs]
    exact hop.ramAfter
  exact run_invariant hstep (.of_labels (fun op hop _ => hkeep op hop) s) hs.eq ht

end traced

/-! ## The plain path -/

section plain

variable {o : Options} {pl : Placement} {ram : ℕ}

/-- Everything up to the first use of the guest takes selected steps only, and leads to guest RAM at
its mapping. -/
theorem triple_setup_selected : Triple Traced.step (Selected o.ramSize o.advice) (fun _ => True)
    (setup o pl ram) (HasRam o.ramSize ram) := by
  have hmiddle : ∀ op ∈ [Op.mmap pl.code page, .access pl.code page, .hvVmCreate,
      .hvVmMap pl.code codeGpa.toNat page], op.takes = false := by
    simp [Op.takes]
  exact triple_mapped_mmap.cons ((triple_mapped hmiddle (by simp [OnlyAdvice])).append
    triple_mapped_hvVmMap)

/-- A cycle reset takes selected steps only, and leads to guest RAM at the new mapping. -/
theorem triple_cycleReset_selected (ram' : ℕ) : Triple Traced.step
    (Selected o.ramSize o.advice) (HasRam o.ramSize ram) (cycleReset o ram ram')
    (HasRam o.ramSize ram') := by
  have hrelease : OnlyAdvice o.advice [.hvVmUnmap ramGpa o.ramSize, .munmap ram o.ramSize] := by
    simp [OnlyAdvice]
  exact ((triple_any _ hrelease).mono (fun _ _ => trivial) fun _ => id).append
    (triple_mapped_mmap.cons triple_mapped_hvVmMap)

/-- Dirtying guest RAM and reclaiming it takes selected steps only, and leaves guest RAM where it
is. -/
theorem triple_dirty_reclaim : Triple Traced.step (Selected o.ramSize o.advice)
    (HasRam o.ramSize ram) (dirty o ram ++ reclaim o ram) (HasRam o.ramSize ram) := by
  apply triple_keeps
  · unfold dirty touchPass reclaim
    split_ifs <;> simp [Op.Keeps, Op.takes]
  · unfold dirty touchPass reclaim
    split_ifs <;> simp [OnlyAdvice]

/-- One turn of the plain loop takes selected steps only, and leaves guest RAM at the mapping of the
turn. -/
theorem triple_plainCycle_selected (cycle ram : ℕ) : Triple Traced.step
    (Selected o.ramSize o.advice) (HasRam o.ramSize ram) (plainCycle o pl cycle ram).1
    (HasRam o.ramSize (plainCycle o pl cycle ram).2) := by
  unfold plainCycle
  split_ifs
  · simp only [List.append_assoc]
    exact (triple_cycleReset_selected _).append triple_dirty_reclaim
  · exact triple_dirty_reclaim

/-- A new mapping shares no byte with guest RAM. -/
theorem triple_mmap_apart (ptr len : ℕ) : Triple Traced.step (Selected o.ramSize o.advice)
    (HasRam o.ramSize ram) [.mmap ptr len]
      fun s => ¬ Overlaps ram o.ramSize ptr len ∧ HasRam o.ramSize ram s := by
  have hkeep : Triple Traced.step (Selected o.ramSize o.advice) (HasRam o.ramSize ram)
      [.mmap ptr len] (HasRam o.ramSize ram) :=
    triple_keeps (by simp [Op.Keeps, Op.takes]) (by simp [OnlyAdvice])
  intro s hs
  obtain ⟨halong, hram⟩ := hkeep s hs
  refine ⟨halong, fun t ht => ⟨?_, hram t ht⟩⟩
  obtain ⟨u, hu, -⟩ := run_cons_eq_some.mp ht
  obtain ⟨w, hw, -⟩ := Traced.step_eq_some.mp hu
  simp only [World.step, Option.ite_none_right_eq_some] at hw
  rintro ⟨b, hb, hle, hlt⟩
  have hmapped := hs.mapped.2 (ptr + b - ram) (by omega)
  rw [Nat.add_sub_cancel' hle] at hmapped
  exact hmapped (hw.1.2 b hb)

/-- **The canary.** Arming it takes selected steps only, although it advises: its memory shares no
byte with guest RAM. -/
theorem triple_canaryArm_selected (ptr : ℕ) : Triple Traced.step (Selected o.ramSize o.advice)
    (HasRam o.ramSize ram) (canaryArm ptr) (HasRam o.ramSize ram) := by
  refine (triple_mmap_apart ptr (1 <<< 30)).cons (Triple.assume fun hapart => ?_)
  have haccess : Triple Traced.step (Selected o.ramSize o.advice) (HasRam o.ramSize ram)
      [.access ptr (1 <<< 30)] (HasRam o.ramSize ram) :=
    triple_keeps (by simp [Op.Keeps, Op.takes]) (by simp [OnlyAdvice])
  refine haccess.cons (Triple.single (fun s hs => ?_) fun s t hs hstep => ?_)
  · rintro a ⟨addr, len, ram', hop, hram, hover⟩
    cases hop
    rw [hs.eq, Option.some.injEq] at hram
    exact absurd (hram ▸ hover) hapart
  · obtain ⟨w, hw, rfl⟩ := Traced.step_eq_some.mp hstep
    cases hw
    exact ⟨hs.eq, hs.mapped⟩

/-- Pass 2 and the safety probes, of which one may run, take selected steps only and leave guest RAM
where it is. -/
theorem triple_passTwo_selected (hone : o.pressureCheck = false ∨ o.hammer = false) :
    Triple Traced.step (Selected o.ramSize o.advice) (HasRam o.ramSize ram) (passTwo o pl ram)
      (fun _ => True) := by
  have htouch : Triple Traced.step (Selected o.ramSize o.advice) (HasRam o.ramSize ram)
      (touchPass o ram) (HasRam o.ramSize ram) :=
    triple_keeps (by simp [touchPass, Op.Keeps, Op.takes]) (by simp [touchPass, OnlyAdvice])
  -- what follows the canary has no `madvise`
  have hprobe : ∀ {ptr} {ops : List Op}, OnlyAdvice o.advice ops →
      Triple Traced.step (Selected o.ramSize o.advice) (HasRam o.ramSize ram)
        (canaryArm ptr ++ ops) (fun _ => True) := fun hops =>
    (triple_canaryArm_selected _).append ((triple_any _ hops).mono (fun _ _ => trivial) fun _ => id)
  have hend : Triple Traced.step (Selected o.ramSize o.advice) (HasRam o.ramSize ram) []
      (fun _ => True) := Triple.nil.mono (fun _ => id) fun _ _ => trivial
  unfold passTwo
  split_ifs with _ hparked hhammer hhammer
  · rcases hone with h | h
    · exact absurd hparked (by simp [h])
    · exact absurd hhammer (by simp [h])
  · rw [List.append_nil, parkedPressureCheck]
    exact htouch.append (hprobe (by simp [surveys, OnlyAdvice]))
  · rw [List.append_nil, hammerCheck, List.append_assoc]
    exact htouch.append (hprobe (by simp [surveys, OnlyAdvice]))
  · rw [List.append_nil, List.append_nil]
    exact htouch.mono (fun _ => id) fun _ _ => trivial
  · exact hend

/-- **The plain path.** Every `madvise` over guest RAM has the selected advice. -/
theorem triple_plain_selected (htime : o.timeReclaim = false) (hfleet : o.fleetSim = false)
    (hone : o.pressureCheck = false ∨ o.hammer = false) :
    Triple Traced.step (Selected o.ramSize o.advice) (fun _ => True) (mainRun o pl)
      (fun _ => True) := by
  have hteardown : ∀ ram, OnlyAdvice o.advice (teardown o pl ram) := by
    simp [teardown, OnlyAdvice]
  simp only [mainRun, htime, hfleet, Bool.false_eq_true, if_false]
  refine ((triple_setup_selected.append (triple_cycles triple_plainCycle_selected _ _)).append
    (triple_passTwo_selected hone)).append (triple_any _ (hteardown _))

end plain

/-! ## Timing and the fleet -/

section modes

variable {o : Options} {pl : Placement} {ram : ℕ}

/-- A loop over lists that know one advice only is such a list. -/
theorem onlyAdvice_flatMap {α : Type} {advice : ℤ} {f : α → List Op} {xs : List α}
    (h : ∀ x, OnlyAdvice advice (f x)) : OnlyAdvice advice (xs.flatMap f) := by
  intro addr len a hmem
  obtain ⟨x, -, hx⟩ := List.mem_flatMap.mp hmem
  exact h x addr len a hx

/-- The triple of an extent knows only the advice it is given. -/
theorem onlyAdvice_extentTriple (off len : ℕ) (mode : Soak.ReclaimMode) (advice : ℤ) :
    OnlyAdvice advice (extentTriple ram off len mode advice) := by
  intro addr len' a hmem
  rcases mem_extentTriple hmem with h | h | h | h | h <;> cases h
  rfl

/-- **`timing::run`** passes the selected advice on: no `madvise` of its operations has another
one. -/
theorem onlyAdvice_timing (htime : o.timeReclaim = true) :
    OnlyAdvice o.advice (mainRun o pl) := by
  have hextents : ∀ ram, OnlyAdvice o.advice
      (reclaimExtents ram o.ramSize o.extent o.reclaimMode o.advice) := fun ram =>
    onlyAdvice_flatMap fun off => onlyAdvice_extentTriple off _ _ _
  have htouch : ∀ ram, OnlyAdvice o.advice (touchPass o ram) := by simp [touchPass, OnlyAdvice]
  have hreset : ∀ ram ram', OnlyAdvice o.advice (cycleReset o ram ram') := by
    simp [cycleReset, OnlyAdvice]
  have hcycle : ∀ cycle ram, OnlyAdvice o.advice (timingCycle o pl cycle ram).1 := by
    intro cycle ram
    unfold timingCycle
    split_ifs
    · exact (((hreset _ _).append (htouch _)).append (hextents _)).append (htouch _)
    · exact ((htouch _).append (hextents _)).append (htouch _)
  have hcycles : ∀ n ram, OnlyAdvice o.advice (cycles (timingCycle o pl) n ram).1 := by
    intro n ram
    induction n with
    | zero => simp [cycles, OnlyAdvice]
    | succ n ih => exact ih.append (hcycle _ _)
  simp only [mainRun, htime, if_true]
  exact (OnlyAdvice.append (by simp [setup, OnlyAdvice]) (hcycles _ _)).append
    (by simp [teardown, OnlyAdvice])

/-- **`fleet_sim::run`** has an advice of its own: every `madvise` of its operations has
`MADV_FREE_REUSABLE`, whatever is selected. -/
theorem onlyAdvice_fleet (htime : o.timeReclaim = false) (hfleet : o.fleetSim = true) :
    OnlyAdvice madvFreeReusable (mainRun o pl) := by
  have hstart : OnlyAdvice madvFreeReusable
      ((List.range o.services).flatMap (serviceStart o (pl.ram 1))) :=
    onlyAdvice_flatMap fun i => by simp [serviceStart, OnlyAdvice]
  have hstop : OnlyAdvice madvFreeReusable
      ((List.range o.services).flatMap (serviceStop o (pl.ram 1))) :=
    onlyAdvice_flatMap fun i => onlyAdvice_extentTriple _ _ _ _
  simp only [mainRun, htime, hfleet, Bool.false_eq_true, if_false, if_true]
  exact (OnlyAdvice.append (by simp [setup, OnlyAdvice]) (hstart.append hstop)).append
    (by simp [teardown, OnlyAdvice])

/-- The `madvise` of a triple is over its extent. -/
theorem len_of_madvise_extentTriple {off len addr len' : ℕ} {mode : Soak.ReclaimMode}
    {advice a : ℤ} (h : .madvise addr len' a ∈ extentTriple ram off len mode advice) :
    len' = len := by
  rcases mem_extentTriple h with h | h | h | h | h <;> cases h
  rfl

/-- Where it comes to a `madvise`: a service stops, and the range is its region. -/
theorem len_of_madvise_fleet (htime : o.timeReclaim = false) (hfleet : o.fleetSim = true)
    {addr len : ℕ} {a : ℤ} (h : .madvise addr len a ∈ mainRun o pl) :
    0 < o.services ∧ len = o.region := by
  simp only [mainRun, htime, hfleet, Bool.false_eq_true, if_false, if_true, fleetRun,
    List.mem_append] at h
  rcases h with (h | h | h) | h
  · simp [setup] at h
  · obtain ⟨i, -, hstart⟩ := List.mem_flatMap.mp h
    simp [serviceStart] at hstart
  · obtain ⟨i, hi, hstop⟩ := List.mem_flatMap.mp h
    exact ⟨(Nat.zero_le i).trans_lt (List.mem_range.mp hi), len_of_madvise_extentTriple hstop⟩
  · simp [teardown] at h

/-- The run of a fleet with services begins with all its starts, and then the first service to stop
is unmapped from the guest and its region advised. -/
theorem fleet_split (pl : Placement) (htime : o.timeReclaim = false) (hfleet : o.fleetSim = true)
    (hservices : 0 < o.services) : ∃ after, mainRun o pl =
      (setup o pl (pl.ram 1) ++ (List.range o.services).flatMap (serviceStart o (pl.ram 1)) ++
        [.hvVmUnmap ((ramGpa + o.serviceOff 0) % 2 ^ 64) o.region]) ++
        .madvise (pl.ram 1 + o.serviceOff 0) o.region madvFreeReusable :: after := by
  obtain ⟨n, hn⟩ : ∃ n, o.services = n + 1 := Nat.exists_eq_succ_of_ne_zero hservices.ne'
  have hstops : (List.range o.services).flatMap (serviceStop o (pl.ram 1)) =
      serviceStop o (pl.ram 1) 0 ++
        ((List.range n).map Nat.succ).flatMap (serviceStop o (pl.ram 1)) := by
    rw [hn, List.range_succ_eq_map, List.flatMap_cons]
  refine ⟨.hvVmMap (pl.ram 1 + o.serviceOff 0) ((ramGpa + o.serviceOff 0) % 2 ^ 64) o.region ::
    (((List.range n).map Nat.succ).flatMap (serviceStop o (pl.ram 1)) ++
      teardown o pl (pl.ram 1)), ?_⟩
  simp only [mainRun, htime, hfleet, Bool.false_eq_true, if_false, if_true, fleetRun]
  rw [hstops, serviceStop, extentTriple]
  simp only [List.append_assoc, List.cons_append, List.nil_append]

/-- With at least one nonempty service, the run of the fleet advises a range of guest RAM with
`MADV_FREE_REUSABLE`. -/
theorem fleet_advises (htime : o.timeReclaim = false) (hfleet : o.fleetSim = true)
    (hservices : 0 < o.services) (hregion : 0 < o.region) {s t : Traced}
    (hrun : run Traced.step s (mainRun o pl) = some t) :
    Sometime Traced.step (Advises o.ramSize madvFreeReusable) s (mainRun o pl) := by
  obtain ⟨after, hops⟩ := fleet_split pl htime hfleet hservices
  rw [hops] at hrun ⊢
  obtain ⟨u, hu, -⟩ := run_append.mp hrun
  have hstart : ∀ op ∈ (List.range o.services).flatMap (serviceStart o (pl.ram 1)) ++
      [Op.hvVmUnmap ((ramGpa + o.serviceOff 0) % 2 ^ 64) o.region],
      op.Keeps (pl.ram 1) ∧ ∀ addr len a, op ≠ .madvise addr len a := by
    intro op hop
    rcases List.mem_append.mp hop with hop | hop
    · obtain ⟨i, -, hstart⟩ := List.mem_flatMap.mp hop
      rw [List.mem_singleton.mp hstart]
      simp [Op.Keeps, Op.takes]
    · rw [List.mem_singleton.mp hop]
      simp [Op.Keeps, Op.takes]
  have hkeep : Triple Traced.step (Selected o.ramSize o.advice) (HasRam o.ramSize (pl.ram 1)) _
      (HasRam o.ramSize (pl.ram 1)) := triple_keeps (fun op hop => (hstart op hop).1)
    fun addr len a hmem => absurd rfl ((hstart _ hmem).2 addr len a)
  rw [List.append_assoc] at hu
  have hram : HasRam o.ramSize (pl.ram 1) u :=
    ((triple_setup_selected.append hkeep) s trivial).2 u hu
  refine sometime_append_cons hu ⟨_, _, _, rfl, hram.eq, 0, hregion, ?_⟩ after
  have hzero : o.serviceOff 0 = 0 := by simp [Options.serviceOff]
  have hpos := hram.mapped.1
  omega

end modes

/-! ## The runs of `main` -/

/-- The operations of `main` around a soak.
Source: `main.rs`, `main` (the branch of `--soak`) -/
def soakFrame (o : Options) (pl : Placement) : List Op :=
  setup o pl (pl.ram 1) ++ teardown o pl (pl.ram 1)

/-- A worker of the soak is at a `madvise` over guest RAM, with this advice. -/
def SoakAdvises (cfg : Soak.Config) (advice : ℤ) (st : Soak.Proc) (l : Soak.Move) : Prop :=
  ∃ k < cfg.vcpuCount, ∃ released addr len rest, l = .act k (.call released) ∧
    (st.thread k).stmt = .reclaim (.madvise addr len advice :: rest) ∧
      Overlaps cfg.ram cfg.ramSize addr len

/-- A run of `main` with the options `c` that does not fail. -/
inductive Run (c : Cli) : Type
  /-- `--alloc-shape`: one child for each cell; `env` is what the children meet. -/
  | cells (env : Shape → Toucher → Sequence → Meets) (rows : List Row)
      (hmode : c.allocShape = true) (hrows : measure env c.sizeGb = some rows)
  /-- `--soak`: the threads take any steps. -/
  | soak (pl : Placement) (w : World) (t : Traced) (cfg : Soak.Config) (st st' : Soak.Proc)
      (ls : List Soak.Move) (hmode : c.allocShape = false ∧ c.soak = true)
      (hcfg : cfg.toOptions = c.soakOptions ∧ cfg.ram = pl.ram 1) (hinit : Soak.Initial cfg st)
      (hsoak : run (Soak.soak cfg).step st ls = some st')
      (hrun : run Traced.step ⟨w, none⟩ (soakFrame c.toOptions pl) = some t)
  /-- One vCPU: `--time-reclaim`, `--fleet-sim` or the plain path. -/
  | single (pl : Placement) (w : World) (t : Traced)
      (hmode : c.allocShape = false ∧ c.soak = false)
      (hextent : c.timeReclaim = true → c.extentAdmissible)
      (hfleet : c.timeReclaim = false → c.fleetSim = true → c.fleetAdmissible)
      (hrun : run Traced.step ⟨w, none⟩ (mainRun c.toOptions pl) = some t)

namespace Run

variable {c : Cli}

/-- A safety probe is entered in this run; the matrix and the soak enter none. -/
def Executes (e : Event) : Run c → Prop
  | cells .. => False
  | soak .. => False
  | single pl .. => e ∈ mainEvents c pl

/-- Some `madvise` over guest RAM is given this advice. -/
def AdvisedWith (advice : ℤ) : Run c → Prop
  | cells env .. => ∃ x ∈ AllocShape.cells, ∃ child ram addr len,
      maybeRunCell env (spec x.1 x.2.1 x.2.2 c.sizeGb) = some child ∧
        (env x.1 x.2.1 x.2.2).ram = some ram ∧ (addr, len, advice) ∈ child.advised ∧
          Overlaps ram c.ramSize addr len
  | soak pl w _ cfg st _ ls .. =>
      Sometime Traced.step (Advises c.ramSize advice) ⟨w, none⟩ (soakFrame c.toOptions pl) ∨
        Sometime (Soak.soak cfg).step (SoakAdvises cfg advice) st ls
  | single pl w .. =>
      Sometime Traced.step (Advises c.ramSize advice) ⟨w, none⟩ (mainRun c.toOptions pl)

/-- The run comes to a `madvise` over guest RAM that has an advice of its own: a service of
`--fleet-sim` that is not empty stops, or a cell of `--alloc-shape` that is advised got memory. -/
def Overrides : Run c → Prop
  | cells env .. => 0 < c.ramSize ∧
      ∃ x ∈ AllocShape.cells, x.2.2 ≠ .unmapOnly ∧ (env x.1 x.2.1 x.2.2).ram ≠ none
  | soak .. => False
  | single .. => c.timeReclaim = false ∧ c.fleetSim = true ∧ 0 < c.services ∧ 0 < c.region

end Run

/-- The flags of a run's arguments were honoured: the probes that were asked for are entered, and
every advice that is given to guest RAM is the one that was asked for. -/
structure Honoured (args : List (List Char)) {c : Cli} (r : Run c) : Prop where
  parked : Flag.pressureCheck.text ∈ args → r.Executes .parkedPressureCheck
  hammer : Flag.hammer.text ∈ args → r.Executes .hammerCheck
  advice : ∀ a, r.AdvisedWith a → a = selectedAdvice args

section honoured

variable {c : Cli}

/-- A run of selected steps never advises guest RAM with another advice than the selected one. -/
theorem not_sometime_of_selected {size : ℕ} {advice a : ℤ} {s : Traced} {ops : List Op}
    (h : Along Traced.step (Selected size advice) s ops)
    (ha : Sometime Traced.step (Advises size a) s ops) : a = advice := by
  by_contra hne
  exact h.not_sometime (fun s op hsel hadv => hne (hsel a hadv)) ha

/-- A child of `--alloc-shape` advises with `MADV_FREE_REUSABLE` only, over the whole of its
mapping, and only in the two sequences that advise. -/
theorem mem_advised {s : Shape} {t : Toucher} {q : Sequence} {size addr len : ℕ} {a : ℤ} {e : Meets}
    (h : (addr, len, a) ∈ (runCell s t q size e).advised) :
    q ≠ .unmapOnly ∧ e.ram = some addr ∧ len = size ∧ a = madvFreeReusable := by
  unfold runCell at h
  split at h
  case h_1 => cases h
  case h_2 ram hram =>
    simp only at h
    split_ifs at h with hq
    · cases h
    · cases List.mem_singleton.mp h
      exact ⟨hq, hram, rfl, rfl⟩

/-- Every `madvise` among the calls of a worker's reclaim has the selected advice. -/
theorem advice_of_mem_reclaimCalls {ram addr len : ℕ} {range : ℕ × ℕ} {mode : Soak.ReclaimMode}
    {advice a : ℤ} (h : .madvise addr len a ∈ Soak.reclaimCalls ram range mode advice) :
    a = advice := by
  cases mode with
  | reusable =>
      simp only [Soak.reclaimCalls, List.cons_append, List.nil_append, List.mem_cons,
        List.not_mem_nil, or_false, reduceCtorEq, false_or, Soak.Call.madvise.injEq] at h
      exact h.2.2
  | munmap => simp [Soak.reclaimCalls] at h

/-- **The soak** passes the selected advice on: in no run from an initial state does a worker advise
its cold half with another one. -/
theorem soak_advises {cfg : Soak.Config} {st : Soak.Proc} {ls : List Soak.Move} {a : ℤ}
    (hinit : Soak.Initial cfg st)
    (h : Sometime (Soak.soak cfg).step (SoakAdvises cfg a) st ls) : a = cfg.advice := by
  let selected st l := ∀ a, SoakAdvises cfg a st l → a = cfg.advice
  have hsafe : ∀ st l, True → (Soak.soak cfg).Everywhere (Soak.Control cfg) st →
      selected st l := by
    rintro st l - hcontrol a ⟨k, hk, _, _, _, _, -, hstmt, -⟩
    have hcalls := (hcontrol k hk).calls _ hstmt
    exact advice_of_mem_reclaimCalls (hcalls.subset List.mem_cons_self)
  have halong : Along (Soak.soak cfg).step selected st ls := Along.of_invariant Soak.control_step
    hsafe (.of_labels (fun _ _ _ => trivial) st) (Soak.control_initial hinit)
  by_contra hne
  exact halong.not_sometime (fun st l hl hadv => hne (hl a hadv)) h

/-- In `--alloc-shape` the memory of a cell is advised with `a` exactly if some cell that advises
gets its memory and `a` is `MADV_FREE_REUSABLE`. -/
theorem advisedWith_cells (hacc : Accepted c) {env : Shape → Toucher → Sequence → Meets}
    {rows : List Row} (hmode : c.allocShape = true) (hrows : measure env c.sizeGb = some rows)
    (a : ℤ) : (Run.cells env rows hmode hrows).AdvisedWith a ↔
      (Run.cells env rows hmode hrows).Overrides ∧ a = madvFreeReusable := by
  have hchild : ∀ x : Shape × Toucher × Sequence,
      maybeRunCell env (spec x.1 x.2.1 x.2.2 c.sizeGb) =
        some (runCell x.1 x.2.1 x.2.2 c.ramSize (env x.1 x.2.1 x.2.2)) := fun x =>
    maybeRunCell_spec env x.1 x.2.1 x.2.2 hacc.sizeGb
  constructor
  · rintro ⟨x, hx, child, ram, addr, len, hrun, hram, hmem, b, hb, -⟩
    rw [hchild x, Option.some.injEq] at hrun
    rw [← hrun] at hmem
    obtain ⟨hq, -, hlen, ha⟩ := mem_advised hmem
    rw [hlen] at hb
    exact ⟨⟨(Nat.zero_le b).trans_lt hb, x, hx, hq, by simp [hram]⟩, ha⟩
  · rintro ⟨⟨hpos, x, hx, hq, hne⟩, rfl⟩
    obtain ⟨ram, hram⟩ := Option.ne_none_iff_exists'.mp hne
    have hmem : (ram, c.ramSize, madvFreeReusable) ∈
        (runCell x.1 x.2.1 x.2.2 c.ramSize (env x.1 x.2.1 x.2.2)).advised := by
      rw [runCell, hram]
      simp only [if_neg hq, List.mem_singleton]
    have hover : Overlaps ram c.ramSize ram c.ramSize :=
      ⟨0, hpos, Nat.le_refl _, Nat.add_lt_add_left hpos ram⟩
    exact ⟨x, hx, _, ram, ram, c.ramSize, hchild x, hram, hmem, hover⟩

/-- In `--fleet-sim` guest RAM is advised with `MADV_FREE_REUSABLE` and nothing else, if there is a
nonempty service; if there is none, with nothing but the selected advice. -/
theorem advisedWith_fleet {o : Options} {pl : Placement} {s t : Traced}
    (htime : o.timeReclaim = false) (hfleet : o.fleetSim = true)
    (hrun : run Traced.step s (mainRun o pl) = some t) :
    let advised a := Sometime Traced.step (Advises o.ramSize a) s (mainRun o pl)
    let overrides := o.timeReclaim = false ∧ o.fleetSim = true ∧ 0 < o.services ∧ 0 < o.region
    (¬ overrides → ∀ a, advised a → a = o.advice) ∧
      (overrides → ∀ a, advised a ↔ a = madvFreeReusable) := by
  refine ⟨fun hno a ha => ?_, fun hover a => ⟨fun ha => ?_, ?_⟩⟩
  · -- an empty region has no byte in common with guest RAM
    have hnone : Along Traced.step (fun s op => ¬ Advises o.ramSize a s op) s (mainRun o pl) := by
      refine .of_labels (fun op hop s => ?_) s
      rintro ⟨addr, len, ram, rfl, -, b, hb, -⟩
      obtain ⟨hservices, hlen⟩ := len_of_madvise_fleet htime hfleet hop
      rw [hlen] at hb
      exact hno ⟨htime, hfleet, hservices, (Nat.zero_le b).trans_lt hb⟩
    exact absurd ha (hnone.not_sometime fun _ _ => id)
  · have honly : OnlyAdvice madvFreeReusable (mainRun o pl) := onlyAdvice_fleet htime hfleet
    exact not_sometime_of_selected (triple_any _ honly s trivial).1 ha
  · rintro rfl
    exact fleet_advises htime hfleet hover.2.2.1 hover.2.2.2 hrun

/-- **The advice of a run.** Without a mode that overrides it, it is the option's; otherwise it is
that mode's own, `MADV_FREE_REUSABLE`, and is really given. One lemma for each mode: the matrix, the
soak, the timing, the fleet and the plain run. -/
theorem advisedWith_iff (hacc : Accepted c) (r : Run c) :
    (¬ r.Overrides → ∀ a, r.AdvisedWith a → a = c.advice) ∧
      (r.Overrides → ∀ a, r.AdvisedWith a ↔ a = madvFreeReusable) := by
  cases r with
  | cells env rows hmode hrows =>
      have hiff := advisedWith_cells hacc hmode hrows
      exact ⟨fun hno a ha => absurd ((hiff a).mp ha).1 hno, fun hover a =>
        ⟨fun ha => ((hiff a).mp ha).2, fun ha => (hiff a).mpr ⟨hover, ha⟩⟩⟩
  | soak pl w t cfg st st' ls hmode hcfg hinit hsoak hrun =>
      have hframe : OnlyAdvice c.advice (soakFrame c.toOptions pl) := by
        simp [soakFrame, setup, teardown, OnlyAdvice]
      refine ⟨fun _ a ha => ?_, fun h => h.elim⟩
      rcases ha with ha | ha
      · exact not_sometime_of_selected (triple_any _ hframe _ trivial).1 ha
      · rw [soak_advises hinit ha, hcfg.1]
        rfl
  | single pl w t hmode hextent hfleet hrun =>
      cases htime : c.timeReclaim with
      | true =>
          refine ⟨fun _ a ha => ?_, fun h => absurd (htime.symm.trans h.1) (by simp)⟩
          exact not_sometime_of_selected (triple_any _ (onlyAdvice_timing htime) _ trivial).1 ha
      | false =>
          cases hsim : c.fleetSim with
          | true => exact advisedWith_fleet htime hsim hrun
          | false =>
              refine ⟨fun _ a ha => ?_, fun h => absurd (hsim.symm.trans h.2.1) (by simp)⟩
              have hone : c.pressureCheck = false ∨ c.hammer = false := by
                cases hhammer : c.hammer with
                | false => exact .inr rfl
                | true => exact .inl (hacc.hammer hhammer).2.2
              exact not_sometime_of_selected
                (triple_plain_selected htime hsim hone _ trivial).1 ha

/-- If no exclusive option is on, none of the four modes is. -/
theorem modes_off (h : c.exclusive = 0) :
    c.timeReclaim = false ∧ c.fleetSim = false ∧ c.soak = false ∧ c.allocShape = false := by
  simpa [Cli.exclusive, and_assoc] using h

/-- With a safety probe asked for, the run takes the plain path. -/
theorem exists_mainEvents (hacc : Accepted c) (hprobe : c.pressureCheck = true ∨ c.hammer = true)
    (r : Run c) : ∃ pl ram, ∀ e, (∀ op, e ≠ .op op) →
      (r.Executes e ↔ e ∈ passTwoEvents c.toOptions pl ram) := by
  obtain ⟨htime, hfleet, hsoak, halloc⟩ := modes_off (hacc.probes hprobe)
  cases r with
  | cells env rows hmode => exact absurd (halloc.symm.trans hmode) (by simp)
  | soak pl w t cfg st st' ls hmode => exact absurd (hsoak.symm.trans hmode.2) (by simp)
  | single pl w t hmode hextent hsim hrun =>
      refine ⟨pl, (cycles (plainCycle c.toOptions pl) c.repeats (pl.ram 1)).2, fun e he => ?_⟩
      have hops : ∀ l : List Op, e ∉ l.map Event.op := by
        intro l hmem
        obtain ⟨op, -, rfl⟩ := List.mem_map.mp hmem
        exact he op rfl
      simp only [Run.Executes, mainEvents, htime, hfleet, Bool.false_eq_true, if_false,
        List.mem_append, hops, false_or, or_false]

/-- `--pressure-check` is carried out unless the host touched the memory. -/
theorem executes_parked_iff (hacc : Accepted c) (hparked : c.pressureCheck = true) (r : Run c) :
    r.Executes .parkedPressureCheck ↔ c.hostTouch = false := by
  obtain ⟨pl, ram, hevents⟩ := exists_mainEvents hacc (.inl hparked) r
  have hrepeats := hacc.repeats (.inl hparked)
  rw [hevents _ (by simp)]
  cases htouch : c.hostTouch <;> simp [passTwoEvents, htouch, hrepeats, hparked]

/-- If `--hammer` is among accepted options, every run carries out the hammer check, since the
exclusions leave nothing in its way. -/
theorem executes_hammer (hacc : Accepted c) (hhammer : c.hammer = true) (r : Run c) :
    r.Executes .hammerCheck := by
  obtain ⟨pl, ram, hevents⟩ := exists_mainEvents hacc (.inr hhammer) r
  have hrepeats := hacc.repeats (.inr hhammer)
  have htouch := (hacc.hammer hhammer).1
  rw [hevents _ (by simp)]
  simp [passTwoEvents, htouch, hrepeats, hhammer]

end honoured

/-- **When the flags are honoured.** Take any argument list that `parse_args` accepts and any run of
`main` on it, in whichever mode. The safety probes that were given are executed, and every `madvise`
over guest RAM has the advice of the last `--advice`, if and only if `--pressure-check` did not come
with `--host-touch`, and the advice is the default or the run does not come to a `madvise` of
`--fleet-sim` or `--alloc-shape`. -/
theorem flags_honoured_iff (args : List (List Char)) (c : Cli) (hargs : parseArgs args = .ok c)
    (r : Run c) : Honoured args r ↔
      ¬ (Flag.pressureCheck.text ∈ args ∧ Flag.hostTouch.text ∈ args) ∧
        (selectedAdvice args = madvFreeReusable ∨ ¬ r.Overrides) := by
  obtain ⟨hreads, hacc⟩ := accepted_of_parseArgs hargs
  have hparked : c.pressureCheck = true ↔ Flag.pressureCheck.text ∈ args := by
    simpa [defaults] using hreads.pressureCheck_iff
  have hhammer : c.hammer = true ↔ Flag.hammer.text ∈ args := by
    simpa [defaults] using hreads.hammer_iff
  have htouch : c.hostTouch = true ↔ Flag.hostTouch.text ∈ args := by
    simpa [defaults] using hreads.hostTouch_iff
  obtain ⟨hselected, hoverridden⟩ := advisedWith_iff hacc r
  rw [hreads.advice_eq] at hselected
  constructor
  · intro h
    constructor
    · rintro ⟨hgiven, hhost⟩
      have hoff := (executes_parked_iff hacc (hparked.mpr hgiven) r).mp (h.parked hgiven)
      exact absurd (htouch.mpr hhost) (by simp [hoff])
    · by_cases hover : r.Overrides
      · exact .inl (h.advice _ ((hoverridden hover _).mpr rfl)).symm
      · exact .inr hover
  · rintro ⟨hboth, hadvice⟩
    refine ⟨fun hgiven => ?_, fun hgiven => executes_hammer hacc (hhammer.mpr hgiven) r, ?_⟩
    · rw [executes_parked_iff hacc (hparked.mpr hgiven), ← Bool.not_eq_true, htouch]
      exact fun hhost => hboth ⟨hgiven, hhost⟩
    · intro a ha
      by_cases hover : r.Overrides
      · rw [(hoverridden hover a).mp ha]
        exact (hadvice.resolve_right (not_not_intro hover)).symm
      · exact hselected hover a ha

/-! ## Runs on fixed arguments -/

/-- If the run goes through, it does so with guest RAM tracked on the side. -/
theorem exists_traced {ops : List Op} {s : Traced}
    (h : ∃ w, run World.step s.world ops = some w) : ∃ t, run Traced.step s ops = some t := by
  induction ops generalizing s with
  | nil => exact ⟨s, rfl⟩
  | cons op ops ih =>
      obtain ⟨w, hw⟩ := h
      obtain ⟨u, hu, hrest⟩ := run_cons_eq_some.mp hw
      obtain ⟨t, ht⟩ := ih (s := ⟨u, op.ramAfter s.ram⟩) ⟨w, hrest⟩
      exact ⟨t, run_cons_eq_some.mpr ⟨_, Traced.step_eq_some.mpr ⟨u, hu, rfl⟩, ht⟩⟩

/-- The code page, guest RAM above it, and the canaries far away. -/
def apartPlacement : Placement :=
  { ram := fun _ => 2 * page, code := 0, parkedCanary := 2 ^ 40, hammerCanary := 2 ^ 40 }

/-- `--hammer --size-gb 1 --advice free` -/
def hammerArgs : List (List Char) :=
  [chars "--hammer", chars "--size-gb", chars "1", chars "--advice", chars "free"]

/-- What they set. -/
def hammerCli : Cli :=
  { defaults with
    hammer := true, sizeGb := 1, advice := madvFree, adviceName := chars "MADV_FREE" }

/-- A hammered run with another advice: both flags are honoured. -/
theorem flags_honoured_hammer : parseArgs hammerArgs = .ok hammerCli ∧
    ∃ r : Run hammerCli, Honoured hammerArgs r := by
  have hargs : parseArgs hammerArgs = .ok hammerCli := rfl
  have hroom : (mainRun hammerCli.toOptions apartPlacement).filterMap Op.room =
      [(2 * page, 2 ^ 30), (0, page), (2 ^ 40, 2 ^ 30)] := by decide
  obtain ⟨t, ht⟩ : ∃ t, run Traced.step ⟨emptyWorld, none⟩
      (mainRun hammerCli.toOptions apartPlacement) = some t := by
    apply exists_traced
    apply exists_run
    · decide
    · rw [hroom]
      decide
    · rw [hroom]
      simp [World.Free, emptyWorld, page]
  refine ⟨hargs, .single apartPlacement emptyWorld t ⟨rfl, rfl⟩
    (fun h => absurd h Bool.false_ne_true) (fun _ h => absurd h Bool.false_ne_true) ht, ?_⟩
  refine (flags_honoured_iff hammerArgs hammerCli hargs _).mpr ⟨by decide, .inr fun h => ?_⟩
  exact absurd h.2.1 Bool.false_ne_true

/-- `--pressure-check --host-touch --size-gb 1` -/
def parkedArgs : List (List Char) :=
  [chars "--pressure-check", chars "--host-touch", chars "--size-gb", chars "1"]

/-- What they set. -/
def parkedCli : Cli := { defaults with pressureCheck := true, hostTouch := true, sizeGb := 1 }

/-- `--fleet-sim --advice free` -/
def fleetArgs : List (List Char) := [chars "--fleet-sim", chars "--advice", chars "free"]

/-- What they set. -/
def fleetCli : Cli :=
  { defaults with fleetSim := true, advice := madvFree, adviceName := chars "MADV_FREE" }

/-- `--alloc-shape --advice free` -/
def cellsArgs : List (List Char) := [chars "--alloc-shape", chars "--advice", chars "free"]

/-- What they set. -/
def cellsCli : Cli :=
  { defaults with allocShape := true, advice := madvFree, adviceName := chars "MADV_FREE" }

/-- Three accepted argument lists and runs on them: the parked probe is not executed, and two modes
advise guest RAM with `MADV_FREE_REUSABLE` although `MADV_FREE` was selected. -/
theorem flags_not_honoured :
    (parseArgs parkedArgs = .ok parkedCli ∧ ∃ r : Run parkedCli, ¬ Honoured parkedArgs r) ∧
    (parseArgs fleetArgs = .ok fleetCli ∧ ∃ r : Run fleetCli, ¬ Honoured fleetArgs r) ∧
    (parseArgs cellsArgs = .ok cellsCli ∧ ∃ r : Run cellsCli, ¬ Honoured cellsArgs r) := by
  have hparked : parseArgs parkedArgs = .ok parkedCli := rfl
  have hfleet : parseArgs fleetArgs = .ok fleetCli := rfl
  have hcells : parseArgs cellsArgs = .ok cellsCli := rfl
  have hrun : ∀ c : Cli, (∀ op ∈ mainRun c.toOptions apartPlacement, op.isFixed = false) →
      (mainRun c.toOptions apartPlacement).filterMap Op.room =
        [(2 * page, c.ramSize), (0, page)] → 0 < c.ramSize →
      ∃ t, run Traced.step ⟨emptyWorld, none⟩ (mainRun c.toOptions apartPlacement) = some t := by
    intro c hfixed hroom hpos
    apply exists_traced
    apply exists_run hfixed
    · rw [hroom]
      simp [page]
    · rw [hroom]
      simp [World.Free, emptyWorld, page, hpos]
  refine ⟨⟨hparked, ?_⟩, ⟨hfleet, ?_⟩, hcells, ?_⟩
  · obtain ⟨t, ht⟩ := hrun parkedCli (by decide) (by decide) (by decide)
    refine ⟨.single apartPlacement emptyWorld t ⟨rfl, rfl⟩
      (fun h => absurd h Bool.false_ne_true) (fun _ h => absurd h Bool.false_ne_true) ht,
      fun h => ?_⟩
    have hacc := (accepted_of_parseArgs hparked).2
    have htouch := (executes_parked_iff hacc rfl _).mp (h.parked (by decide))
    exact absurd htouch.symm Bool.false_ne_true
  · obtain ⟨t, ht⟩ := hrun fleetCli (by decide) (by decide) (by decide)
    have hadm : fleetCli.fleetAdmissible := by
      unfold Options.fleetAdmissible
      decide
    refine ⟨.single apartPlacement emptyWorld t ⟨rfl, rfl⟩
      (fun h => absurd h Bool.false_ne_true) (fun _ _ => hadm) ht, fun h => ?_⟩
    have hadvised := fleet_advises (o := fleetCli.toOptions) rfl rfl (by decide) (by decide) ht
    exact absurd (h.advice _ hadvised) (by decide)
  · let env : Shape → Toucher → Sequence → Meets := fun _ _ _ =>
      ⟨⟨0, 0⟩, some 0, ⟨0, 0⟩, 0, none, ⟨0, 0⟩⟩
    have hacc := (accepted_of_parseArgs hcells).2
    refine ⟨.cells env _ rfl (measure_eq env hacc.sizeGb), fun h => ?_⟩
    have hover : 0 < cellsCli.ramSize ∧ ∃ x ∈ AllocShape.cells, x.2.2 ≠ .unmapOnly ∧
        (env x.1 x.2.1 x.2.2).ram ≠ none :=
      ⟨by decide, (.mmapPrivate, .host, .inPlace), by decide, by decide, by decide⟩
    have hadvised := (advisedWith_cells hacc rfl (measure_eq env hacc.sizeGb) _).mpr ⟨hover, rfl⟩
    exact absurd (h.advice _ hadvised) (by decide)

end VmRatchet.Main
