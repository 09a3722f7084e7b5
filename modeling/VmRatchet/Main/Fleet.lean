import VmRatchet.Main.Extents

/-!
# Services in guest RAM

`fleet_sim::run` divides guest RAM into one region for each service. Starting a service is a touch
pass over its region, stopping it a reclaim triple over it. One assertion stands before all this:
the size of a region times the number of services, in `usize`, is at most the size of guest RAM.

* `StartsIn`, `StopsExactly` — a start stores nowhere else, a stop unmaps, advises and remaps
  nothing else.
* `FleetInside` — both, of regions that are nonempty, disjoint and inside guest RAM.
* `lt_of_increasing` — regions that increase do not wrap.
* `fleet_inside_iff` — when the assertion keeps its promise.
-/

namespace VmRatchet.Main

open ByteMemory Guest Transition

/-- The assertion at the head of `fleet_sim::run`, in `usize`.
Source: `fleet_sim.rs`, `run` -/
def Options.fleetAdmissible (o : Options) : Prop := (o.region * o.services) % 2 ^ 64 ≤ o.ramSize

section fleet

variable (o : Options) (r : RamSize) (i : ℕ)

/-- A guest-physical address in the region of service `i`. -/
def Options.InService (g : ℕ) : Prop :=
  ramGpa + o.serviceOff i ≤ g ∧ g < ramGpa + o.serviceOff (i + 1)

/-- The touch pass that starts service `i`. -/
def Options.startPass : Pass := ⟨.touch, o.serviceOff i, o.serviceOff (i + 1), 0⟩

/-- Starting a service stores into its own region only: after any number of instructions, and when
the call returns, which it does under every live schedule. -/
structure StartsIn : Prop where
  during : ∀ (vm vm' : Vm) (n : ℕ) (info : HvVcpuExitInfo),
    hvVcpuRun (ramMapped r.bytes) n ⟨(o.startPass i).arm vm.cpu, vm.mem⟩ = (info, vm') →
      ∀ a, ¬ o.InService i a → vm'.mem a = vm.mem a
  returns : ∀ (vm : Vm) (sched : CancelSchedule), ∃ bound vm',
    (∀ entries ≥ bound, runTouchRange (ramMapped r.bytes) sched entries (o.serviceOff i)
      (o.serviceOff (i + 1)) vm = .returned vm') ∧
    PassEffect (o.serviceOff i) (o.serviceOff (i + 1))
      (fun k _ => BitVec.ofNat 64 (ramGpa + o.serviceOff i + k * page)) vm.mem vm'.mem ∧
    ∀ a, ¬ o.InService i a → vm'.mem a = vm.mem a

/-- Stopping a service unmaps, advises and remaps each byte of its region once, and nothing else;
at every point of it the stage-2 map is as before outside the region, and at the end everywhere. -/
structure StopsExactly : Prop where
  once : ∀ ram, EachOnce (serviceStop o ram i) .reusable ram (o.serviceOff i)
    (o.serviceOff (i + 1) - o.serviceOff i)
  during : ∀ {H : Type} (calls : Calls H) (ram : ℕ) (w : Pages H),
    RamInOrder w.stage2 ram r.bytes → ∀ pre, pre <+: serviceStop o ram i →
      ∃ w', run (Pages.step calls) w pre = some w' ∧
        ∀ g, ¬ o.InService i g → w'.stage2 g = w.stage2 g
  restores : ∀ {H : Type} (calls : Calls H) (ram : ℕ) (w : Pages H),
    RamInOrder w.stage2 ram r.bytes →
      ∃ w', run (Pages.step calls) w (serviceStop o ram i) = some w' ∧ w'.stage2 = w.stage2

/-- Every service has a region of its own inside guest RAM, and keeps to it. -/
structure FleetInside : Prop where
  nonempty : ∀ i < o.services, o.serviceOff i < o.serviceOff (i + 1)
  disjoint : ∀ i < o.services, ∀ j < o.services, i ≠ j →
    o.serviceOff (i + 1) ≤ o.serviceOff j ∨ o.serviceOff (j + 1) ≤ o.serviceOff i
  inside : ∀ i < o.services, o.serviceOff (i + 1) ≤ o.ramSize
  starts : ∀ i < o.services, StartsIn o r i
  stops : ∀ i < o.services, StopsExactly o r i

end fleet

/-! ## Whole pages -/

section pages

variable {p : Pass} {r : RamSize}

/-- A pass over whole pages visits no word past its end. -/
theorem word_add_page_le (hlt : p.startOff < p.endOff) (hs : page ∣ p.startOff)
    (he : page ∣ p.endOff) {k : ℕ} (hk : k < p.pages) :
    p.word k + page ≤ ramGpa + p.endOff := by
  have hword := (p.word_lt_end_iff hlt k).mpr hk
  obtain ⟨x, hx⟩ := hs
  obtain ⟨y, hy⟩ := he
  unfold Pass.word Pass.base at *
  rw [page_eq] at *
  omega

/-- A pass over whole pages of guest RAM fits. -/
theorem fits_of_aligned (hlt : p.startOff < p.endOff) (hs : page ∣ p.startOff)
    (he : page ∣ p.endOff) (hin : p.endOff ≤ r.bytes) : p.Fits (ramMapped r.bytes) := by
  apply fits_ramMapped hlt
  · intro k hk
    have hword := word_add_page_le hlt hs he hk
    unfold Pass.word Pass.base at hword
    rw [page_eq] at *
    omega
  · obtain ⟨y, hy⟩ := he
    have := r.addressable
    rw [show ramGpa = 2 ^ 31 from rfl] at *
    rw [page_eq] at *
    omega

/-- A byte outside the range lies in none of its words. -/
theorem not_word_of_not_mem (hlt : p.startOff < p.endOff) (hs : page ∣ p.startOff)
    (he : page ∣ p.endOff) {a : ℕ} (ha : ¬ (ramGpa + p.startOff ≤ a ∧ a < ramGpa + p.endOff)) :
    ∀ k < p.pages, a < p.word k ∨ p.word k + 8 ≤ a := by
  intro k hk
  have hword := word_add_page_le hlt hs he hk
  unfold Pass.word Pass.base at *
  rw [page_eq] at *
  omega

/-- It stores into the pages it visits only, after any number of instructions … -/
theorem hvVcpuRun_frame (hlt : p.startOff < p.endOff) (hs : page ∣ p.startOff)
    (he : page ∣ p.endOff) (hin : p.endOff ≤ r.bytes) {vm vm' : Vm} {n : ℕ}
    {info : HvVcpuExitInfo}
    (h : hvVcpuRun (ramMapped r.bytes) n ⟨p.arm vm.cpu, vm.mem⟩ = (info, vm')) {a : ℕ}
    (ha : ¬ (ramGpa + p.startOff ≤ a ∧ a < ramGpa + p.endOff)) : vm'.mem a = vm.mem a := by
  have hf := fits_of_aligned hlt hs he hin
  obtain ⟨s', vm₁, hin', hres⟩ :=
    hvVcpuRun_advances (Inside.step hf) n (Inside.start vm (p.pages_pos hlt))
  obtain rfl : vm₁ = vm' := by
    rcases hres with ⟨hc, -⟩ | ⟨-, hc⟩
    · exact (Prod.mk.inj (hc.symm.trans h)).2
    · exact (Prod.mk.inj (hc.symm.trans h)).2
  exact hin'.frame a (not_word_of_not_mem hlt hs he ha)

/-- The call of a pass over whole pages returns, and has then stored inside its range only. -/
theorem runPass_aligned (hlt : p.startOff < p.endOff) (hs : page ∣ p.startOff)
    (he : page ∣ p.endOff) (hin : p.endOff ≤ r.bytes) (vm : Vm) (sched : CancelSchedule) :
    ∃ bound vm', (∀ entries ≥ bound,
        runPass (ramMapped r.bytes) sched entries p vm = .returned vm') ∧
      PassEffect p.startOff p.endOff p.newWord vm.mem vm'.mem ∧
      ∀ a, ¬ (ramGpa + p.startOff ≤ a ∧ a < ramGpa + p.endOff) → vm'.mem a = vm.mem a := by
  obtain ⟨bound, vm', hret, heff⟩ := runPass_effect (fits_of_aligned hlt hs he hin) sched vm
  refine ⟨bound, vm', fun entries he => runPassLoop_mono hret he, heff, ?_⟩
  intro a ha
  exact heff.frame a (not_word_of_not_mem hlt hs he ha)

end pages

/-! ## Regions -/

section regions

variable {o : Options} {r : RamSize} {i : ℕ}

/-- A region is a whole number of pages: it is given in MiB. -/
theorem page_dvd_region (o : Options) : page ∣ o.region := by
  have hpow : page ∣ 2 ^ 64 := by decide
  rw [Options.region, Nat.dvd_mod_iff hpow, Nat.shiftLeft_eq]
  exact Dvd.dvd.mul_left (by decide) _

/-- Every region starts at a page. -/
theorem page_dvd_serviceOff (o : Options) (i : ℕ) : page ∣ o.serviceOff i := by
  have hpow : page ∣ 2 ^ 64 := by decide
  rw [Options.serviceOff, Nat.dvd_mod_iff hpow]
  exact Dvd.dvd.mul_left (page_dvd_region o) _

/-- The length of a region, as `usize` holds it, is below `2 ^ 64`. -/
theorem region_lt (o : Options) : o.region < 2 ^ 64 := Nat.mod_lt _ (by decide)

/-- **Regions that increase do not wrap.** The first offset that wrapped would come out smaller
than the one before it. -/
theorem lt_of_increasing (h : ∀ i < o.services, o.serviceOff i < o.serviceOff (i + 1)) {i : ℕ}
    (hi : i ≤ o.services) : i * o.region < 2 ^ 64 := by
  induction i with
  | zero => simp
  | succ i ih =>
      have hstep := h i hi
      have hlt := ih (by omega)
      have hregion := region_lt o
      unfold Options.serviceOff at hstep
      rw [Nat.succ_mul] at *
      omega

/-- A region of services that fit ends where the next one begins. -/
theorem serviceOff_succ (ho : o.ramSize = r.bytes) (hfit : o.services * o.region ≤ o.ramSize)
    (hi : i < o.services) : o.serviceOff (i + 1) = o.serviceOff i + o.region := by
  rw [serviceOff_of_fits ho hfit hi, serviceOff_of_fits ho hfit (le_of_lt hi), Nat.succ_mul]

/-- If the regions fit, every service starts inside guest RAM, or at its end. -/
theorem serviceOff_le (ho : o.ramSize = r.bytes) (hfit : o.services * o.region ≤ o.ramSize)
    (hi : i ≤ o.services) : o.serviceOff i ≤ o.ramSize := by
  rw [serviceOff_of_fits ho hfit hi]
  exact le_trans (Nat.mul_le_mul_right _ hi) hfit

/-- Starting a service that fits stores into its own region only, and returns. -/
theorem startsIn_of_fits (ho : o.ramSize = r.bytes) (hpos : 0 < o.region)
    (hfit : o.services * o.region ≤ o.ramSize) (hi : i < o.services) : StartsIn o r i := by
  have hlt : (o.startPass i).startOff < (o.startPass i).endOff := by
    change o.serviceOff i < o.serviceOff (i + 1)
    rw [serviceOff_succ ho hfit hi]
    omega
  have hin : (o.startPass i).endOff ≤ r.bytes := ho ▸ serviceOff_le ho hfit hi
  have hs : page ∣ (o.startPass i).startOff := page_dvd_serviceOff o i
  have he : page ∣ (o.startPass i).endOff := page_dvd_serviceOff o (i + 1)
  constructor
  · intro vm vm' n info h a ha
    exact hvVcpuRun_frame hlt hs he hin h ha
  · intro vm sched
    exact runPass_aligned hlt hs he hin vm sched

/-- Stopping a service that fits unmaps, advises and maps back exactly its own region. -/
theorem stopsExactly_of_fits (ho : o.ramSize = r.bytes) (hpos : 0 < o.region)
    (hfit : o.services * o.region ≤ o.ramSize) (hi : i < o.services) : StopsExactly o r i := by
  have hnext := serviceOff_succ ho hfit hi
  have hle : o.serviceOff i + o.region ≤ r.bytes := by
    rw [← hnext, ← ho]
    exact serviceOff_le ho hfit hi
  have hgpa : (ramGpa + o.serviceOff i) % 2 ^ 64 = ramGpa + o.serviceOff i := by
    apply Nat.mod_eq_of_lt
    have := r.addressable
    omega
  constructor
  · intro ram
    rw [hnext, Nat.add_sub_cancel_left]
    exact eachOnce_extentTriple hgpa madvFreeReusable
  · intro H calls ram w hw pre hpre
    obtain ⟨q, hq⟩ := hpre
    have hrun := run_extentTriple calls hw hpos hle .reusable madvFreeReusable
    rw [show extentTriple ram (o.serviceOff i) o.region .reusable madvFreeReusable = pre ++ q from
      hq.symm] at hrun
    obtain ⟨w', hw', -⟩ := run_append.mp hrun
    refine ⟨w', hw', fun g hg => run_prefix_extentTriple calls ⟨q, hq⟩ hw' ?_⟩
    rw [hgpa]
    unfold Options.InService at hg
    omega
  · intro H calls ram w hw
    exact ⟨_, run_extentTriple calls hw hpos hle .reusable madvFreeReusable, rfl⟩

/-- If all regions fit and are not empty, every start and every stop of the fleet stays inside its
own region of guest RAM. -/
theorem fleetInside_of_fits (ho : o.ramSize = r.bytes) (hpos : 0 < o.region)
    (hfit : o.services * o.region ≤ o.ramSize) : FleetInside o r := by
  constructor
  · intro i hi
    rw [serviceOff_succ ho hfit hi]
    omega
  · intro i hi j hj hij
    rw [serviceOff_of_fits ho hfit hi, serviceOff_of_fits ho hfit hj,
      serviceOff_of_fits ho hfit (le_of_lt hi), serviceOff_of_fits ho hfit (le_of_lt hj)]
    rcases Nat.lt_or_gt_of_ne hij with hlt | hlt
    · exact .inl (Nat.mul_le_mul_right _ hlt)
    · exact .inr (Nat.mul_le_mul_right _ hlt)
  · intro i hi
    exact serviceOff_le ho hfit hi
  · intro i hi
    exact startsIn_of_fits ho hpos hfit hi
  · intro i hi
    exact stopsExactly_of_fits ho hpos hfit hi

end regions

/-- **When the guard keeps every service inside guest RAM.** Of the fleets that pass the assertion,
with guest RAM mapped: exactly those without services, and those whose regions are not empty and
whose size times number does not overflow `usize`. -/
theorem fleet_inside_iff (o : Options) (r : RamSize) (ho : o.ramSize = r.bytes)
    (hadm : o.fleetAdmissible) :
    FleetInside o r ↔ o.services = 0 ∨ (o.region ≠ 0 ∧ o.region * o.services < 2 ^ 64) := by
  constructor
  · intro h
    by_cases hzero : o.services = 0
    · exact .inl hzero
    · have hfirst := h.nonempty 0 (by omega)
      have hlast := lt_of_increasing h.nonempty (le_refl o.services)
      refine .inr ⟨fun hregion => ?_, by rwa [Nat.mul_comm]⟩
      simp [Options.serviceOff, hregion] at hfirst
  · rintro (hzero | ⟨hregion, hlt⟩)
    · constructor <;> intro i hi <;> omega
    · unfold Options.fleetAdmissible at hadm
      rw [Nat.mod_eq_of_lt hlt, Nat.mul_comm] at hadm
      exact fleetInside_of_fits ho (Nat.pos_of_ne_zero hregion) hadm

/-- Four services of 256 MiB in one GiB. -/
def fleetOptions : Options := { plainOptions with fleetSim := true, services := 4 }

/-- Four services of 256 MiB on 1 GiB keep to their regions of guest RAM. -/
theorem fleet_inside_four : FleetInside fleetOptions plainRam := by
  have hadm : fleetOptions.fleetAdmissible := by
    unfold Options.fleetAdmissible
    decide
  apply (fleet_inside_iff fleetOptions plainRam (by decide) hadm).mpr
  exact .inr ⟨by decide, by decide⟩

/-- Services of no size pass the assertion, and have no region; so do two services of 2 ^ 43 MiB,
whose total wraps to nothing. -/
theorem fleet_not_inside :
    ({ fleetOptions with serviceMib := 0 }.fleetAdmissible ∧
      ¬ FleetInside { fleetOptions with serviceMib := 0 } plainRam) ∧
    { fleetOptions with services := 2, serviceMib := 2 ^ 43 }.fleetAdmissible ∧
      ¬ FleetInside { fleetOptions with services := 2, serviceMib := 2 ^ 43 } plainRam := by
  refine ⟨⟨?_, fun h => ?_⟩, ?_, fun h => ?_⟩
  · unfold Options.fleetAdmissible
    decide
  · exact absurd (h.nonempty 0 (by decide)) (by decide)
  · unfold Options.fleetAdmissible
    decide
  · exact absurd (h.inside 0 (by decide)) (by decide)

end VmRatchet.Main
