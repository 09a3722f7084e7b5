import Mathlib.Order.Interval.Finset.Nat
import VmRatchet.Main.Footprint

/-!
# Regimes of use

What `timing::run` and `fleet_sim::run` do to the uses of guest RAM, over all their cycles and
services.

The timing run has two release modes, an advice, and the choice whether to keep the mapping from
cycle to cycle. Only a mapping that is kept and advised with `MADV_FREE_REUSABLE` collects marks;
with every other choice a cycle finds guest RAM as the first one did, or never gives it back.

* `Options.beforeTouch`, `Options.afterReclaim` — what a cycle finds and leaves.
* `timing_cycle_uses` — every cycle.
* `Tracked.charged` — how much of guest RAM is in use.
* `fleet_staircase` — it follows the fleet.
-/

namespace VmRatchet.Main

open ByteMemory Guest Transition
open Soak (ReclaimMode)

/-! ## Timing -/

section timing

variable {o : Options} {pl : Placement} {r : RamSize} {F : Set ℕ} {code ram : ℕ} {u : ℕ → Use}

/-- How often the mapping was marked before cycle `n + 1` marks it: only a mapping that is kept,
and advised rather than torn out, keeps its marks. -/
def Options.marks (o : Options) (n : ℕ) : ℕ :=
  if o.steadyState = true ∧ o.reclaimMode = .reusable ∧ o.advice = madvFreeReusable then n else 0

end timing

/-! ## The fleet -/

section fleet

variable {o : Options} {pl : Placement} {r : RamSize} {F : Set ℕ} {code ram : ℕ}

/-- How many of the first bytes from `ram` on are in use: what the system charges for them. -/
def Tracked.charged (t : Tracked) (ram size : ℕ) : ℕ :=
  ((Finset.range size).filter fun off => (t.uses (ram + off)).live = true).card

/-- If the live bytes of guest RAM are those between two offsets, their number is the difference. -/
theorem charged_eq_sub {t : Tracked} {size lo hi : ℕ} (hle : hi ≤ size)
    (h : ∀ off < size, (t.uses (ram + off)).live = decide (lo ≤ off ∧ off < hi)) :
    t.charged ram size = hi - lo := by
  have hset : (Finset.range size).filter (fun off => (t.uses (ram + off)).live = true) =
      Finset.Ico lo hi := by
    ext off
    rw [Finset.mem_filter, Finset.mem_range, Finset.mem_Ico]
    constructor
    · rintro ⟨hoff, hlive⟩
      rw [h off hoff] at hlive
      exact of_decide_eq_true hlive
    · intro hmem
      refine ⟨by omega, ?_⟩
      rw [h off (by omega)]
      exact decide_eq_true hmem
  rw [Tracked.charged, hset, Nat.card_Ico]

/-- How guest RAM is used once `started` services have started and `stopped` of them stopped. -/
def Options.fleetUse (o : Options) (started stopped off : ℕ) : Use :=
  if off < stopped * o.region then ⟨false, false, 1⟩
  else if off < started * o.region then ⟨true, true, 0⟩ else .fresh

/-- Of the fleet's memory the bytes from the end of the stopped services to the end of the started
ones are live. -/
theorem fleetUse_live (started stopped off : ℕ) : (o.fleetUse started stopped off).live =
    decide (stopped * o.region ≤ off ∧ off < started * o.region) := by
  unfold Options.fleetUse
  split_ifs with hstopped hstarted
  · exact (decide_eq_false (by omega)).symm
  · exact (decide_eq_true (by omega)).symm
  · exact (decide_eq_false (by omega)).symm

/-- One more service that starts faults in its region, and leaves the rest as it is. -/
theorem stage_serviceStart (ho : o.ramSize = r.bytes) (hpos : 0 < o.region)
    (hfit : o.services * o.region ≤ o.ramSize) {i : ℕ} (hi : i < o.services) :
    Tracks (Stage r F code ram (o.fleetUse i 0)) (serviceStart o ram i)
      (Stage r F code ram (o.fleetUse (i + 1) 0)) := by
  have hoff := serviceOff_of_fits ho hfit (le_of_lt hi)
  have hnext := serviceOff_of_fits ho hfit hi
  have hlt : o.serviceOff i < o.serviceOff (i + 1) := by
    rw [serviceOff_succ ho hfit hi]
    omega
  refine (stage_pass (p := ⟨.touch, o.serviceOff i, o.serviceOff (i + 1), 0⟩) hlt
    (page_dvd_serviceOff o i) (page_dvd_serviceOff o (i + 1)) (ho ▸ serviceOff_le ho hfit hi)).mono
    (fun _ => id) fun t ht => ⟨ht.1, fun off hoff' => ?_⟩
  rw [ht.2 off hoff']
  simp only [hoff, hnext, Options.fleetUse, Nat.zero_mul, Nat.not_lt_zero, if_false]
  rw [Nat.succ_mul]
  split_ifs <;> first | rfl | omega

/-- One more service that stops gives back its region, marked once, and leaves the rest as it is. -/
theorem stage_serviceStop (ho : o.ramSize = r.bytes) (hpos : 0 < o.region)
    (hfit : o.services * o.region ≤ o.ramSize) {j : ℕ} (hj : j < o.services) :
    Tracks (Stage r F code ram (o.fleetUse o.services j)) (serviceStop o ram j)
      (Stage r F code ram (o.fleetUse o.services (j + 1))) := by
  have hoff := serviceOff_of_fits ho hfit (le_of_lt hj)
  have hle : j * o.region + o.region ≤ o.services * o.region := by
    rw [← Nat.succ_mul]
    exact Nat.mul_le_mul_right _ hj
  have hgive : useCalls.triple .reusable madvFreeReusable ⟨true, true, 0⟩ = ⟨false, false, 1⟩ := rfl
  unfold serviceStop
  rw [hoff]
  refine (stage_extent hpos (by omega) .reusable madvFreeReusable).mono
    (fun _ => id) fun t ht => ⟨ht.1, fun off hoff' => ?_⟩
  rw [ht.2 off hoff']
  simp only [Options.fleetUse, Nat.succ_mul]
  split_ifs <;> first | rfl | omega

/-- After the first `i` starts the uses of guest RAM are those of a fleet with `i` services started
and none stopped. -/
theorem stage_starts (ho : o.ramSize = r.bytes) (hpos : 0 < o.region)
    (hfit : o.services * o.region ≤ o.ramSize) {i : ℕ} (hi : i ≤ o.services) :
    Tracks (Stage r F code ram fun _ => .fresh) ((List.range i).flatMap (serviceStart o ram))
      (Stage r F code ram (o.fleetUse i 0)) := by
  induction i with
  | zero =>
      refine Triple.nil.mono (fun _ => id) fun t ht => ⟨ht.1, fun off hoff => ?_⟩
      rw [ht.2 off hoff]
      simp [Options.fleetUse]
  | succ i ih =>
      rw [List.range_succ, List.flatMap_append, List.flatMap_singleton]
      exact (ih (by omega)).append (stage_serviceStart ho hpos hfit hi)

/-- After all the starts and the first `j` stops the uses are those of a fleet with `j` services
stopped. -/
theorem stage_stops (ho : o.ramSize = r.bytes) (hpos : 0 < o.region)
    (hfit : o.services * o.region ≤ o.ramSize) {j : ℕ} (hj : j ≤ o.services) :
    Tracks (Stage r F code ram (o.fleetUse o.services 0))
      ((List.range j).flatMap (serviceStop o ram))
      (Stage r F code ram (o.fleetUse o.services j)) := by
  induction j with
  | zero => exact Triple.nil
  | succ j ih =>
      rw [List.range_succ, List.flatMap_append, List.flatMap_singleton]
      exact (ih (by omega)).append (stage_serviceStop ho hpos hfit hj)

/-- The first turns of a loop over a range are the beginning of all of them. -/
theorem isPrefix_flatMap_range {α : Type} (f : ℕ → List α) {m n : ℕ} (h : m ≤ n) :
    (List.range m).flatMap f <+: (List.range n).flatMap f := by
  obtain ⟨d, rfl⟩ := Nat.exists_eq_add_of_le h
  exact List.IsPrefix.flatMap ⟨_, List.range_add.symm⟩ f

/-- Regions whose total does not wrap and that pass the assertion at the head of `fleet_sim::run`
fit in guest RAM. -/
theorem fleet_fits (hadm : o.fleetAdmissible) (hlt : o.region * o.services < 2 ^ 64) :
    o.services * o.region ≤ o.ramSize := by
  unfold Options.fleetAdmissible at hadm
  rw [Nat.mod_eq_of_lt hlt, Nat.mul_comm] at hadm
  exact hadm

/-- A beginning of the run of a fleet, and the bytes in use at its end. -/
theorem fleet_reached (ho : o.ramSize = r.bytes) (htime : o.timeReclaim = false)
    (hsim : o.fleetSim = true) {t₀ t : Tracked} (h₀ : Fresh t₀.world)
    (hrun : run Tracked.step t₀ (mainRun o pl) = some t) {ops : List Op} {i j : ℕ}
    (hops : ops <+: fleetRun o (pl.ram 1))
    (htracks : Tracks
      (Stage r {a | t₀.world.host a = some .foreign} pl.code (pl.ram 1) fun _ => .fresh) ops
      (Stage r {a | t₀.world.host a = some .foreign} pl.code (pl.ram 1) (o.fleetUse i j)))
    (hi : i * o.region ≤ o.ramSize) :
    ∃ t₁, setup o pl (pl.ram 1) ++ ops <+: mainRun o pl ∧
      run Tracked.step t₀ (setup o pl (pl.ram 1) ++ ops) = some t₁ ∧
      t₁.charged (pl.ram 1) r.bytes = i * o.region - j * o.region ∧
      ∀ off < r.bytes, t₁.uses (pl.ram 1 + off) = o.fleetUse i j off := by
  have hmain : mainRun o pl = setup o pl (pl.ram 1) ++ (fleetRun o (pl.ram 1) ++
      teardown o pl (pl.ram 1)) := by
    unfold mainRun
    simp only [htime, hsim, Bool.false_eq_true, if_false, if_true, List.append_assoc]
  have hpre : setup o pl (pl.ram 1) ++ ops <+: mainRun o pl := by
    rw [hmain]
    exact (List.prefix_append_right_inj _).mpr (hops.trans (List.prefix_append _ _))
  obtain ⟨rest, hrest⟩ := hpre
  rw [← hrest] at hrun
  obtain ⟨t₁, h₁, -⟩ := run_append.mp hrun
  have hstage := (((stage_setup ho).append htracks) t₀ h₀.tracked).2 t₁ h₁
  refine ⟨t₁, ⟨rest, hrest⟩, h₁, ?_, hstage.2⟩
  refine charged_eq_sub (ho ▸ hi) fun off hoff => ?_
  rw [hstage.2 off hoff, fleetUse_live]

/-- **The footprint is a staircase.** In every run of a fleet whose regions are nonempty and fit,
the bytes of guest RAM in use go up by one region with every service that starts and down by one
with every service that stops: they follow the fleet, not its high-water mark. After `i` starts
exactly the first `i` regions are in use, faulted in by the guest and never marked, and the rest
of guest RAM is fresh; after `j` stops exactly the first `j` are given back, marked once, and the
others are as they were. -/
theorem fleet_staircase (o : Options) (pl : Placement) (r : RamSize) (ho : o.ramSize = r.bytes)
    (htime : o.timeReclaim = false) (hsim : o.fleetSim = true) (hadm : o.fleetAdmissible)
    (hpos : 0 < o.region) (hlt : o.region * o.services < 2 ^ 64) {t₀ t : Tracked}
    (h₀ : Fresh t₀.world) (hrun : run Tracked.step t₀ (mainRun o pl) = some t) :
    (∀ i ≤ o.services, ∃ t₁,
      setup o pl (pl.ram 1) ++ (List.range i).flatMap (serviceStart o (pl.ram 1)) <+:
        mainRun o pl ∧
      run Tracked.step t₀
        (setup o pl (pl.ram 1) ++ (List.range i).flatMap (serviceStart o (pl.ram 1))) = some t₁ ∧
      t₁.charged (pl.ram 1) r.bytes = i * o.region ∧
      ∀ off < r.bytes, t₁.uses (pl.ram 1 + off) =
        if off < i * o.region then ⟨true, true, 0⟩ else .fresh) ∧
    ∀ j ≤ o.services, ∃ t₁,
      setup o pl (pl.ram 1) ++ ((List.range o.services).flatMap (serviceStart o (pl.ram 1)) ++
        (List.range j).flatMap (serviceStop o (pl.ram 1))) <+: mainRun o pl ∧
      run Tracked.step t₀
        (setup o pl (pl.ram 1) ++ ((List.range o.services).flatMap (serviceStart o (pl.ram 1)) ++
          (List.range j).flatMap (serviceStop o (pl.ram 1)))) = some t₁ ∧
      t₁.charged (pl.ram 1) r.bytes = (o.services - j) * o.region ∧
      ∀ off < r.bytes, t₁.uses (pl.ram 1 + off) =
        if off < j * o.region then ⟨false, false, 1⟩
        else if off < o.services * o.region then ⟨true, true, 0⟩ else .fresh := by
  have hfit := fleet_fits hadm hlt
  constructor
  · intro i hi
    have hops : (List.range i).flatMap (serviceStart o (pl.ram 1)) <+: fleetRun o (pl.ram 1) :=
      (isPrefix_flatMap_range _ hi).trans (List.prefix_append _ _)
    obtain ⟨t₁, hpre, h₁, hcharged, huses⟩ := fleet_reached ho htime hsim h₀ hrun hops
      (stage_starts ho hpos hfit hi) (le_trans (Nat.mul_le_mul_right _ hi) hfit)
    refine ⟨t₁, hpre, h₁, by rw [hcharged, Nat.zero_mul, Nat.sub_zero], ?_⟩
    intro off hoff
    rw [huses off hoff]
    simp [Options.fleetUse]
  · intro j hj
    have hops : (List.range o.services).flatMap (serviceStart o (pl.ram 1)) ++
        (List.range j).flatMap (serviceStop o (pl.ram 1)) <+: fleetRun o (pl.ram 1) :=
      (List.prefix_append_right_inj _).mpr (isPrefix_flatMap_range _ hj)
    obtain ⟨t₁, hpre, h₁, hcharged, huses⟩ := fleet_reached ho htime hsim h₀ hrun hops
      ((stage_starts ho hpos hfit le_rfl).append (stage_stops ho hpos hfit hj)) hfit
    exact ⟨t₁, hpre, h₁, by rw [hcharged, Nat.sub_mul], huses⟩

/-- The theorem at work: after the first of four stops, three regions are in use. -/
theorem fleet_staircase_four : ∃ t₁,
    run Tracked.step ⟨emptyWorld, fun _ => .fresh⟩ (setup fleetOptions spacedPlacement (2 ^ 31) ++
        ((List.range 4).flatMap (serviceStart fleetOptions (2 ^ 31)) ++
          (List.range 1).flatMap (serviceStop fleetOptions (2 ^ 31)))) = some t₁ ∧
      t₁.charged (2 ^ 31) (2 ^ 30) = 3 * 2 ^ 28 := by
  have hroom : (mainRun fleetOptions spacedPlacement).filterMap Op.room =
      [(1 * 2 ^ 31, fleetOptions.ramSize), (0, page)] := by decide
  have hsize : fleetOptions.ramSize = 2 ^ 30 := by decide
  have hadm : fleetOptions.fleetAdmissible := by
    unfold Options.fleetAdmissible
    decide
  obtain ⟨t, hrun⟩ := exists_tracked_run (mainRun fleetOptions spacedPlacement)
    (fun _ => .fresh) (by decide) (by rw [hroom, hsize]; simp [page])
    (by rw [hroom, hsize]; simp [page])
  obtain ⟨-, hstops⟩ := fleet_staircase fleetOptions spacedPlacement plainRam (by decide) rfl rfl
    hadm (by decide) (by decide) fresh_emptyWorld hrun
  obtain ⟨t₁, -, h₁, hcharged, -⟩ := hstops 1 (by decide)
  exact ⟨t₁, h₁, hcharged⟩

end fleet

end VmRatchet.Main
