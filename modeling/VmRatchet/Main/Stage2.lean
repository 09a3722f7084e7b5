import VmRatchet.Main.Trace

/-!
# Stage-2 never dangles

The pieces of a run all keep one state, `Running`: guest RAM is mapped in order to the bytes of
the current `ram`, the code page to those of `code`, the run owns these bytes and no others, and
the two do not overlap. Each piece passes through other states on its way — parts of RAM unmapped
from the guest, released, mapped again — and comes back.

* `triple_extent` — unmap, release and remap one extent, in either release mode.
* `triple_cycleReset` — the one piece after which `ram` is another pointer.
* `stage2_never_dangles` — the whole run, in every mode.
* `exists_run` — there are such runs: where the kernel has room for the mappings, apart from each
  other.
-/

namespace VmRatchet.Main

open ByteMemory Guest Transition
open Soak (ReclaimMode)

/-! ## The stage-2 map of a running VM -/

/-- The stage-2 map in which only the code page is mapped, to the host page `code`. -/
def codeMap (code : ℕ) : ℕ → Option ℕ := mapRange (fun _ => none) codeGpa.toNat page code

/-- The stage-2 map of a running VM: the code page, and all of guest RAM in order from `ram` on. -/
def fullMap (r : RamSize) (code ram : ℕ) : ℕ → Option ℕ :=
  mapRange (codeMap code) ramGpa r.bytes ram

/-- What a running VM owns of the process: the code page and guest RAM. -/
def vmBytes (r : RamSize) (code ram : ℕ) : Set ℕ := span code page ∪ span ram r.bytes

/-- Between two pieces of a run: the VM is mapped in full, its two allocations are disjoint, and
they are all the run owns beside `F`. -/
def Running (r : RamSize) (F : Set ℕ) (code ram : ℕ) (w : World) : Prop :=
  Disjoint (span code page) (span ram r.bytes) ∧ At (fullMap r code ram) (vmBytes r code ram) F w

section maps

variable {r : RamSize} {F : Set ℕ} {code ram : ℕ}

/-- The code page lies below guest RAM. -/
theorem code_lt_ram {g : ℕ} (h : g < codeGpa.toNat + page) : g < ramGpa := by
  have hle : codeGpa.toNat + page ≤ ramGpa := by simp [codeGpa, page, ramGpa]
  exact lt_of_lt_of_le h hle

/-- The code map leads only from addresses below guest RAM, and only into the code page. -/
theorem codeMap_points {g a : ℕ} (h : codeMap code g = some a) :
    g < ramGpa ∧ a ∈ span code page := by
  rcases mapRange_eq_some h with ⟨hle, hlt, ha⟩ | ⟨-, h⟩
  · rw [ha]
    exact ⟨code_lt_ram hlt, add_mem_span (by omega)⟩
  · cases h

/-- The code map has no address of guest RAM. -/
theorem codeMap_ram (off : ℕ) : codeMap code (ramGpa + off) = none := by
  cases h : codeMap code (ramGpa + off) with
  | none => rfl
  | some a => exact absurd (codeMap_points h).1 (Nat.not_lt.mpr (Nat.le_add_right _ _))

/-- An entry of the full map leads from an address of guest RAM to the byte at the same offset of
its mapping, or from below guest RAM into the code page. -/
theorem fullMap_points {g a : ℕ} (h : fullMap r code ram g = some a) :
    (∃ off < r.bytes, g = ramGpa + off ∧ a = ram + off) ∨ (g < ramGpa ∧ a ∈ span code page) := by
  rcases mapRange_eq_some h with ⟨hle, hlt, ha⟩ | ⟨-, h⟩
  · exact .inl ⟨g - ramGpa, by omega, by omega, ha⟩
  · exact .inr (codeMap_points h)

/-- The full map leads every address of guest RAM to the byte at the same offset of the mapping. -/
theorem fullMap_ram {off : ℕ} (h : off < r.bytes) :
    fullMap r code ram (ramGpa + off) = some (ram + off) := by
  rw [fullMap, mapRange_of_mem ⟨by omega, by omega⟩, Nat.add_sub_cancel_left]

/-- Unmapping all of guest RAM leaves nothing but the code page in the stage-2 map. -/
theorem fullMap_unmap : setRange (fullMap r code ram) ramGpa r.bytes none = codeMap code := by
  funext g
  by_cases hg : ramGpa ≤ g ∧ g < ramGpa + r.bytes
  · rw [setRange_of_mem hg, ← Nat.add_sub_cancel' hg.1, codeMap_ram]
  · rw [setRange_of_not_mem (by omega), fullMap, mapRange_of_not_mem hg]

/-- Unmapping an extent of guest RAM and mapping it back at its place restores the full map. -/
theorem fullMap_remap {off len : ℕ} (h : off + len ≤ r.bytes) :
    mapRange (setRange (fullMap r code ram) (ramGpa + off) len none) (ramGpa + off) len
      (ram + off) = fullMap r code ram := by
  apply mapRange_setRange
  intro b hb
  rw [Nat.add_assoc, fullMap_ram (by omega), Nat.add_assoc]

/-- An extent of guest RAM belongs to the VM. -/
theorem extent_subset {off len : ℕ} (h : off + len ≤ r.bytes) :
    span (ram + off) len ⊆ vmBytes r code ram := by
  intro a ha
  rw [mem_span] at ha
  exact .inr (mem_span.mpr ⟨by omega, by omega⟩)

/-- Once an extent is unmapped from the guest, nothing points to it. -/
theorem fullMap_unmapped_points {off len : ℕ} (hd : Disjoint (span code page) (span ram r.bytes))
    (h : off + len ≤ r.bytes) {g a : ℕ}
    (hg : setRange (fullMap r code ram) (ramGpa + off) len none g = some a) :
    a ∉ span (ram + off) len := by
  by_cases hmem : ramGpa + off ≤ g ∧ g < ramGpa + off + len
  · rw [setRange_of_mem hmem] at hg
    cases hg
  · rw [setRange_of_not_mem (by omega)] at hg
    rcases fullMap_points hg with ⟨d, hd, rfl, rfl⟩ | ⟨-, ha⟩
    · rw [mem_span]
      omega
    · intro hc
      rw [mem_span] at hc
      exact Set.disjoint_left.mp hd ha (mem_span.mpr ⟨by omega, by omega⟩)

end maps

/-! ## The pieces of a run -/

section pieces

variable {r : RamSize} {F : Set ℕ} {code ram : ℕ}

/-- **One extent.** Unmapping it from the guest, releasing it in either mode and mapping it back is
safe, and leaves all maps as they were. -/
theorem triple_extent {off len : ℕ} (hlen : 0 < len) (h : off + len ≤ r.bytes)
    (mode : ReclaimMode) (advice : ℤ) : Triple World.step (Safe r) (Running r F code ram)
      (extentTriple ram off len mode advice) (Running r F code ram) := by
  have hgpa : (ramGpa + off) % 2 ^ 64 = ramGpa + off := Nat.mod_eq_of_lt (by
    have := r.addressable
    omega)
  unfold extentTriple
  simp only [hgpa]
  refine Triple.assume fun hd => ?_
  have hunmap : Triple World.step (Safe r) (At (fullMap r code ram) (vmBytes r code ram) F)
      [.hvVmUnmap (ramGpa + off) len]
      (At (setRange (fullMap r code ram) (ramGpa + off) len none) (vmBytes r code ram) F) := by
    refine triple_hvVmUnmap fun b hb => ?_
    rw [Nat.add_assoc, fullMap_ram (by omega)]
    simp
  have hmap : Triple World.step (Safe r)
      (At (setRange (fullMap r code ram) (ramGpa + off) len none) (vmBytes r code ram) F)
      [.hvVmMap (ram + off) (ramGpa + off) len] (Running r F code ram) := by
    refine (triple_hvVmMap (fun b hb => setRange_of_mem ⟨by omega, by omega⟩)
      (extent_subset h)).mono (fun _ => id) fun w hw => ⟨hd, ?_⟩
    rwa [fullMap_remap h] at hw
  refine (hunmap.append ?_).append hmap
  cases mode with
  | reusable => exact triple_madvise (extent_subset h) advice
  | munmap =>
      refine (triple_munmap (extent_subset h) fun g a => fullMap_unmapped_points hd h).cons ?_
      refine Triple.assume fun hF => ?_
      refine (triple_mmapFixed Set.disjoint_sdiff_left hF).mono (fun _ => id) fun w hw => ?_
      rwa [Set.sdiff_union_of_subset (extent_subset h)] at hw

/-- A guest pass in a run that has guest RAM and the code page mapped is safe and changes no map,
whatever else the run owns. -/
theorem triple_fullMap_pass {S : Set ℕ} (hd : Disjoint (span code page) (span ram r.bytes))
    (p : Pass) : Triple World.step (Safe r) (At (fullMap r code ram) S F) [.pass p ram]
      (At (fullMap r code ram) S F) := by
  refine triple_pass p (fun off => fullMap_ram) fun g a hg ha => ?_
  rcases fullMap_points hg with ⟨off, -, rfl, rfl⟩ | ⟨-, hcode⟩
  · rw [Nat.add_sub_cancel_left]
  · exact absurd ha (Set.disjoint_left.mp hd hcode)

/-- A guest pass in a running machine is safe and changes no map. -/
theorem triple_running_pass (p : Pass) : Triple World.step (Safe r) (Running r F code ram)
    [.pass p ram] (Running r F code ram) := by
  refine Triple.assume fun hd => ?_
  exact (triple_fullMap_pass hd p).mono (fun _ => id) fun w hw => ⟨hd, hw⟩

/-- The host's access to guest RAM is safe while the machine runs. -/
theorem triple_running_access : Triple World.step (Safe r) (Running r F code ram)
    [.access ram r.bytes] (Running r F code ram) := by
  refine Triple.assume fun hd => ?_
  exact (triple_access Set.subset_union_right).mono (fun _ => id) fun w hw => ⟨hd, hw⟩

/-- Advice over guest RAM is safe while the machine runs, whether guest RAM is mapped for the guest
or not. -/
theorem triple_running_madvise (advice : ℤ) : Triple World.step (Safe r) (Running r F code ram)
    [.madvise ram r.bytes advice] (Running r F code ram) := by
  refine Triple.assume fun hd => ?_
  exact (triple_madvise Set.subset_union_right advice).mono (fun _ => id) fun w hw => ⟨hd, hw⟩

/-- When guest RAM is unmapped from the process, the code page is left of what the machine owns. -/
theorem vmBytes_sdiff_ram (hd : Disjoint (span code page) (span ram r.bytes)) :
    vmBytes r code ram \ span ram r.bytes = span code page := by
  rw [vmBytes, Set.union_sdiff_right, hd.sdiff_eq_left]

/-- Mapping new guest RAM into a VM that has only its code page. -/
theorem triple_map_ram (ram' : ℕ) : Triple World.step (Safe r)
    (At (codeMap code) (span code page) F)
    [.mmap ram' r.bytes, .hvVmMap ram' ramGpa r.bytes] (Running r F code ram') := by
  refine triple_mmap.cons ?_
  refine Triple.assume fun hd => ?_
  refine (triple_hvVmMap (fun b _ => codeMap_ram b) Set.subset_union_right).mono (fun _ => id) ?_
  exact fun w hw => ⟨hd.1, hw⟩

/-- Unmapping guest RAM, first from the guest and then from the process, is safe, and leaves the
code page in both maps. -/
theorem triple_unmap_ram : Triple World.step (Safe r) (Running r F code ram)
    [.hvVmUnmap ramGpa r.bytes, .munmap ram r.bytes] (At (codeMap code) (span code page) F) := by
  refine Triple.assume fun hd => ?_
  refine (triple_hvVmUnmap fun b hb => by rw [fullMap_ram hb]; simp).cons ?_
  rw [fullMap_unmap]
  refine (triple_munmap Set.subset_union_right fun g a hg => ?_).mono (fun _ => id) fun w hw => ?_
  · exact Set.disjoint_left.mp hd (codeMap_points hg).2
  · rw [← vmBytes_sdiff_ram hd]
    exact hw.2

/-- Unmapping the last mapping of the run leaves it without any. -/
theorem triple_munmap_last {S : Set ℕ} {addr len : ℕ} (hS : S = span addr len) :
    Triple World.step (Safe r) (At (fun _ => none) S F) [.munmap addr len]
      (At (fun _ => none) ∅ F) := by
  refine (triple_munmap hS.ge (by simp)).mono (fun _ => id) fun w hw => ?_
  rw [← Set.sdiff_eq_empty.mpr hS.le]
  exact hw.2

variable {o : Options} {pl : Placement}

/-- Everything up to the first use of the guest is safe from a state with nothing mapped, and leads
to a running machine. -/
theorem triple_setup (ho : o.ramSize = r.bytes) : Triple World.step (Safe r)
    (At (fun _ => none) ∅ F) (setup o pl ram) (Running r F pl.code ram) := by
  unfold setup
  rw [ho]
  refine triple_mmap.cons ?_
  refine Triple.assume fun _ => ?_
  rw [Set.empty_union]
  refine triple_mmap.cons ?_
  refine Triple.assume fun hd => ?_
  rw [Set.union_comm]
  refine (triple_access Set.subset_union_left).cons ?_
  refine triple_hvVmCreate.cons ?_
  refine (triple_hvVmMap (fun _ _ => rfl) Set.subset_union_left).cons ?_
  refine (triple_hvVmMap (fun b _ => codeMap_ram b) Set.subset_union_right).mono (fun _ => id) ?_
  exact fun w hw => ⟨hd.1.symm, hw⟩

/-- Everything after the last use of the guest is safe, and leaves neither a stage-2 entry nor a
mapping of this run. -/
theorem triple_teardown (ho : o.ramSize = r.bytes) : Triple World.step (Safe r)
    (Running r F pl.code ram) (teardown o pl ram) (At (fun _ => none) ∅ F) := by
  unfold teardown
  rw [ho]
  refine Triple.assume fun hd => ?_
  refine triple_hvVmDestroy.cons ?_
  refine (triple_munmap Set.subset_union_right (by simp)).cons ?_
  refine Triple.assume fun _ => ?_
  exact triple_munmap_last (vmBytes_sdiff_ram hd)

/-- **A cycle reset** takes guest RAM down and maps it anew, safely; afterwards `ram` is another
pointer. -/
theorem triple_cycleReset (ho : o.ramSize = r.bytes) (ram' : ℕ) : Triple World.step (Safe r)
    (Running r F code ram) (cycleReset o ram ram') (Running r F code ram') := by
  unfold cycleReset
  rw [ho]
  exact triple_unmap_ram.append (triple_map_ram ram')

/-- The reclaim of `main`, naive or not, is safe and leaves all maps as they were. -/
theorem triple_reclaim (ho : o.ramSize = r.bytes) : Triple World.step (Safe r)
    (Running r F code ram) (reclaim o ram) (Running r F code ram) := by
  unfold reclaim
  rw [ho]
  by_cases hnaive : o.naive
  · simp only [hnaive, if_true, List.nil_append, List.append_nil]
    exact triple_running_madvise o.advice
  · simp only [hnaive, Bool.false_eq_true, if_false]
    have hgpa : ramGpa % 2 ^ 64 = ramGpa := Nat.mod_eq_of_lt (by
      have := r.addressable
      omega)
    have hle : 0 + r.bytes ≤ r.bytes := by omega
    have htriple : Triple World.step (Safe r) (Running r F code ram)
        (extentTriple ram 0 r.bytes .reusable o.advice) (Running r F code ram) :=
      triple_extent r.pos hle .reusable o.advice
    simpa only [extentTriple, Nat.add_zero, hgpa] using htriple

/-- Dirtying guest RAM is safe, by the guest or by the host, and changes no map. -/
theorem triple_dirty (ho : o.ramSize = r.bytes) : Triple World.step (Safe r)
    (Running r F code ram) (dirty o ram) (Running r F code ram) := by
  unfold dirty touchPass
  split_ifs
  · rw [ho]
    exact triple_running_access
  · exact triple_running_pass _
  · exact triple_running_pass _

/-- A piece of the run that needs nothing but `Running`, with a canary around it. -/
theorem triple_canary (ho : o.ramSize = r.bytes) {ptr : ℕ} {ops : List Op}
    (hops : ∀ S, Disjoint (vmBytes r code ram) S → Disjoint (span code page) (span ram r.bytes) →
      Triple World.step (Safe r) (At (fullMap r code ram) (vmBytes r code ram ∪ S) F) ops
        (At (fullMap r code ram) (vmBytes r code ram ∪ S) F)) :
    Triple World.step (Safe r) (Running r F code ram) (canaryArm ptr ++ ops ++ surveys o ptr ram)
      (Running r F code ram) := by
  refine Triple.assume fun hd => ?_
  unfold canaryArm surveys
  rw [ho, List.append_assoc]
  refine triple_mmap.cons ?_
  refine Triple.assume fun hK => ?_
  refine (triple_access Set.subset_union_right).cons ?_
  refine (triple_madvise Set.subset_union_right madvFree).cons ?_
  refine (hops _ hK.1 hd).append ?_
  refine (triple_access Set.subset_union_right).cons ?_
  refine (triple_access (Set.subset_union_right.trans Set.subset_union_left)).cons ?_
  refine (triple_munmap Set.subset_union_right fun g a hg hc => ?_).mono (fun _ => id)
    fun w hw => ⟨hd, ?_⟩
  · -- the stage-2 map points to the VM's own bytes, not into the canary
    refine Set.disjoint_left.mp hK.1 ?_ hc
    rcases fullMap_points hg with ⟨off, hoff, -, rfl⟩ | ⟨-, ha⟩
    · exact .inr (add_mem_span hoff)
    · exact .inl ha
  · have hsame : (vmBytes r code ram ∪ span ptr (1 <<< 30)) \ span ptr (1 <<< 30) =
        vmBytes r code ram := by
      rw [Set.union_sdiff_right, hK.1.sdiff_eq_left]
    rw [← hsame]
    exact hw.2

/-- The second pass and the safety probes are safe, and leave the machine running. -/
theorem triple_passTwo (ho : o.ramSize = r.bytes) : Triple World.step (Safe r)
    (Running r F code ram) (passTwo o pl ram) (Running r F code ram) := by
  have hparked : Triple World.step (Safe r) (Running r F code ram)
      (parkedPressureCheck o pl ram) (Running r F code ram) := by
    have hcanary : Triple World.step (Safe r) (Running r F code ram)
        (canaryArm pl.parkedCanary ++ [] ++ surveys o pl.parkedCanary ram)
        (Running r F code ram) := triple_canary ho fun _ _ _ => Triple.nil
    simpa only [List.append_nil, parkedPressureCheck] using hcanary
  have hhammer : Triple World.step (Safe r) (Running r F code ram) (hammerCheck o pl ram)
      (Running r F code ram) := triple_canary ho fun _ _ hd => triple_fullMap_pass hd _
  unfold passTwo touchPass
  split_ifs
  · exact ((triple_running_pass _).append hparked).append hhammer
  · exact ((triple_running_pass _).append hparked).append Triple.nil
  · exact ((triple_running_pass _).append Triple.nil).append hhammer
  · exact ((triple_running_pass _).append Triple.nil).append Triple.nil
  · exact Triple.nil

/-! ## The loops -/

/-- A loop that threads `ram` keeps what its body keeps, for the `ram` of the moment. -/
theorem triple_cycles {σ : Type} {step : σ → Op → Option σ} {P : σ → Op → Prop}
    {I : ℕ → σ → Prop} {body : ℕ → ℕ → List Op × ℕ}
    (h : ∀ c ram, Triple step P (I ram) (body c ram).1 (I (body c ram).2)) (n ram : ℕ) :
    Triple step P (I ram) (cycles body n ram).1 (I (cycles body n ram).2) := by
  induction n with
  | zero => exact Triple.nil
  | succ n ih => exact ih.append (h (n + 1) _)

/-- One turn of the plain loop is safe and leads to a running machine, at the mapping of the
turn. -/
theorem triple_plainCycle (ho : o.ramSize = r.bytes) (cycle ram : ℕ) : Triple World.step (Safe r)
    (Running r F code ram) (plainCycle o pl cycle ram).1
    (Running r F code (plainCycle o pl cycle ram).2) := by
  unfold plainCycle
  split_ifs
  · exact ((triple_cycleReset ho _).append (triple_dirty ho)).append (triple_reclaim ho)
  · exact (triple_dirty ho).append (triple_reclaim ho)

/-- The offsets of the extents of a range that they divide are the multiples of the extent below its
length. -/
theorem stepBy_of_dvd {n k : ℕ} (hk : k ∣ n) (hn : 0 < n) :
    stepBy n k = (List.range (n / k)).map (· * k) := by
  obtain ⟨q, rfl⟩ := hk
  have hpos : 0 < k := Nat.pos_of_mul_pos_right hn
  have hq : (k * q + k - 1) / k = q := by
    rw [Nat.add_sub_assoc hpos, Nat.mul_add_div hpos, Nat.div_eq_of_lt (by omega), Nat.add_zero]
  rw [stepBy, hq, Nat.mul_div_cancel_left q hpos]

/-- The extents that fit in a range as a whole lie in it. -/
theorem extent_le {n k i : ℕ} (hi : i < n / k) : i * k + k ≤ n := by
  calc i * k + k = (i + 1) * k := (Nat.succ_mul i k).symm
    _ ≤ n / k * k := Nat.mul_le_mul_right k hi
    _ ≤ n := Nat.div_mul_le_self n k

/-- If the extent divides the length of a range, every extent of the loop over it lies in the
range. -/
theorem mem_stepBy {n k off : ℕ} (hk : k ∣ n) (hn : 0 < n) (h : off ∈ stepBy n k) :
    0 < k ∧ off + k ≤ n := by
  rw [stepBy_of_dvd hk hn] at h
  obtain ⟨i, hi, rfl⟩ := List.mem_map.mp h
  exact ⟨Nat.pos_of_dvd_of_pos hk hn, extent_le (List.mem_range.mp hi)⟩

/-- The triples of all extents, one after another, are safe and leave all maps as they were. -/
theorem triple_reclaimExtents {extent : ℕ} (hdvd : extent ∣ r.bytes) (mode : ReclaimMode)
    (advice : ℤ) : Triple World.step (Safe r) (Running r F code ram)
      (reclaimExtents ram r.bytes extent mode advice) (Running r F code ram) := by
  refine Triple.flatMap fun off hoff => ?_
  obtain ⟨hpos, hle⟩ := mem_stepBy hdvd r.pos hoff
  exact triple_extent hpos hle mode advice

/-- One turn of the timing loop is safe and leads to a running machine, at the mapping of the
turn. -/
theorem triple_timingCycle (ho : o.ramSize = r.bytes) (hext : o.extentAdmissible)
    (cycle ram : ℕ) : Triple World.step (Safe r) (Running r F code ram)
      (timingCycle o pl cycle ram).1 (Running r F code (timingCycle o pl cycle ram).2) := by
  have hextents : ∀ ram, Triple World.step (Safe r) (Running r F code ram)
      (reclaimExtents ram o.ramSize o.extent o.reclaimMode o.advice) (Running r F code ram) := by
    intro ram
    rw [ho]
    exact triple_reclaimExtents (ho ▸ hext.2) _ _
  unfold timingCycle touchPass
  split_ifs
  · exact (((triple_cycleReset ho _).append (triple_running_pass _)).append
      (hextents _)).append (triple_running_pass _)
  · exact ((triple_running_pass _).append (hextents _)).append (triple_running_pass _)

/-- The offsets of services that fit are not wrapped by `usize`. -/
theorem serviceOff_of_fits (ho : o.ramSize = r.bytes) (hfit : o.services * o.region ≤ o.ramSize)
    {i : ℕ} (hi : i ≤ o.services) : o.serviceOff i = i * o.region := by
  refine Nat.mod_eq_of_lt ?_
  have hle : i * o.region ≤ o.services * o.region := Nat.mul_le_mul_right _ hi
  have := r.addressable
  omega

/-- The starts and the stops of a fleet that fits are safe, and leave all maps as they were. -/
theorem triple_fleetRun (ho : o.ramSize = r.bytes) (hpos : 0 < o.region)
    (hfit : o.services * o.region ≤ o.ramSize) : Triple World.step (Safe r)
    (Running r F code ram) (fleetRun o ram) (Running r F code ram) := by
  refine Triple.append (Triple.flatMap fun i _ => triple_running_pass _)
    (Triple.flatMap fun i hi => ?_)
  rw [List.mem_range] at hi
  unfold serviceStop
  rw [serviceOff_of_fits ho hfit (le_of_lt hi)]
  refine triple_extent hpos ?_ _ _
  have hle : (i + 1) * o.region ≤ o.services * o.region := Nat.mul_le_mul_right _ hi
  rw [Nat.succ_mul] at hle
  omega

/-! ## The whole run -/

/-- **The run of `main`**, in each of its three loops and with all of its probes, is safe from a
state with nothing mapped, and leads back to one. -/
theorem triple_mainRun (ho : o.ramSize = r.bytes)
    (hext : o.timeReclaim = true → o.extentAdmissible)
    (hfleet : o.timeReclaim = false → o.fleetSim = true →
      0 < o.region ∧ o.services * o.region ≤ o.ramSize) :
    Triple World.step (Safe r) (At (fun _ => none) ∅ F) (mainRun o pl)
      (At (fun _ => none) ∅ F) := by
  unfold mainRun
  split_ifs with htime hsim
  · exact ((triple_setup ho).append
      (triple_cycles (triple_timingCycle ho (hext htime)) _ _)).append (triple_teardown ho)
  · obtain ⟨hpos, hfit⟩ := hfleet (by simpa using htime) hsim
    exact ((triple_setup ho).append (triple_fleetRun ho hpos hfit)).append (triple_teardown ho)
  · exact (((triple_setup ho).append (triple_cycles (triple_plainCycle ho) _ _)).append
      (triple_passTwo ho)).append (triple_teardown ho)

end pieces

/-- Before the run: no VM, and no mapping of this run. -/
structure Fresh (w : World) : Prop where
  stage2 : w.stage2 = fun _ => none
  host : ∀ a id, w.host a ≠ some (.mapping id)
  created : w.created = []
  unmapped : w.unmapped = fun _ _ => 0

/-- Before the run no address is mapped for the guest and the run owns no memory, whatever others
own. -/
theorem Fresh.at {w : World} (h : Fresh w) :
    At (fun _ => none) ∅ {a | w.host a = some .foreign} w where
  stage2 := h.stage2
  owned a := iff_of_false (fun ⟨id, hid⟩ => h.host a id hid) (Set.notMem_empty a)
  foreign _ := Iff.rfl
  points g a hg := by cases hg
  balanced :=
    { made := fun id a hid => absurd hid (h.host a id)
      live := fun id a hid => absurd hid (h.host a id)
      gone := fun id a ⟨x, hx, _⟩ => by simp [h.created] at hx
      fresh := fun id a _ => by rw [h.unmapped] }

/-- **Stage-2 never dangles.** Take any run of the plain reclaim loop, of `timing::run` with an
admissible extent, or of `fleet_sim::run` with nonempty regions that fit, in which every call
succeeds. Before every operation no stage-2 entry dangles and the operation may be made (`Safe`);
nothing dangles at the end either; the process's map is then what it was before the run, and every
byte of every mapping the run created has been unmapped exactly once. -/
theorem stage2_never_dangles (o : Options) (pl : Placement) (r : RamSize)
    (ho : o.ramSize = r.bytes) (hext : o.timeReclaim = true → o.extentAdmissible)
    (hfleet : o.timeReclaim = false → o.fleetSim = true →
      0 < o.region ∧ o.services * o.region ≤ o.ramSize)
    {w₀ w : World} (h₀ : Fresh w₀) (hrun : run World.step w₀ (mainRun o pl) = some w) :
    Along World.step (Safe r) w₀ (mainRun o pl) ∧ w.Sound ∧ w.host = w₀.host ∧
      ∀ id a, w.Made id a → w.unmapped id a = 1 := by
  have htriple : Triple World.step (Safe r)
      (At (fun _ => none) ∅ {a | w₀.host a = some .foreign}) (mainRun o pl)
      (At (fun _ => none) ∅ {a | w₀.host a = some .foreign}) := triple_mainRun ho hext hfleet
  obtain ⟨halong, hend⟩ := htriple w₀ h₀.at
  have hat := hend w hrun
  have hnot : ∀ a id, w.host a ≠ some (.mapping id) := fun a id hid =>
    (hat.owned a).mp ⟨id, hid⟩
  refine ⟨halong, hat.sound, ?_, fun id a hmade => hat.balanced.gone id a hmade (hnot a id)⟩
  funext a
  by_cases ha : w₀.host a = some .foreign
  · rw [ha]
    exact (hat.foreign a).mpr ha
  · rw [h₀.at.host_eq_none (Set.notMem_empty a) ha, hat.host_eq_none (Set.notMem_empty a) ha]

/-- Operations without an `mmap` that is to find room go through in every world. -/
theorem run_of_no_mmap {ops : List Op} (h : ∀ op ∈ ops, ∀ addr len, op ≠ .mmap addr len)
    (w : World) : ∃ w', run World.step w ops = some w' := by
  induction ops generalizing w with
  | nil => exact ⟨w, rfl⟩
  | cons op ops ih =>
      obtain ⟨w₁, hw₁⟩ : ∃ w₁, w.step op = some w₁ := by
        cases op with
        | mmap addr len => exact absurd rfl (h _ (List.mem_cons_self ..) addr len)
        | _ => exact ⟨_, rfl⟩
      obtain ⟨w', hw'⟩ := ih (fun op hop => h op (List.mem_cons_of_mem _ hop)) w₁
      exact ⟨w', run_cons_eq_some.mpr ⟨w₁, hw₁, hw'⟩⟩

/-- Where an operation needs room, which only a new mapping does. -/
def Op.room : Op → Option (ℕ × ℕ)
  | .mmap addr len => some (addr, len)
  | _ => none

/-- The operation is an `mmap(MAP_FIXED)`. -/
def Op.isFixed : Op → Bool
  | .mmapFixed _ _ => true
  | _ => false

/-- What is free stays free through an operation that is not given this range. -/
theorem free_of_step {w w' : World} {op : Op} {addr len : ℕ} (hw : w.step op = some w')
    (hfixed : op.isFixed = false)
    (hapart : ∀ x, op.room = some x → x.1 + x.2 ≤ addr ∨ addr + len ≤ x.1)
    (hfree : w.Free addr len) : w'.Free addr len := by
  intro b hb
  cases op with
  | mmap addr' len' =>
      simp only [World.step, Option.ite_none_right_eq_some, Option.some.injEq] at hw
      obtain ⟨-, rfl⟩ := hw
      have hne := hapart _ rfl
      rw [provide_host_of_not_mem (by simp only at hne; omega)]
      exact hfree b hb
  | munmap addr' len' =>
      cases hw
      by_cases hmem : addr' ≤ addr + b ∧ addr + b < addr' + len'
      · exact release_host_of_mem hmem
      · rw [release_host_of_not_mem hmem]
        exact hfree b hb
  | mmapFixed => exact absurd hfixed (by simp [Op.isFixed])
  | _ =>
      cases hw
      exact hfree b hb

/-- A run goes through if the kernel places its mappings apart from each other, where there is
room. -/
theorem exists_run {ops : List Op} {w : World} (hfixed : ∀ op ∈ ops, op.isFixed = false)
    (hapart : (ops.filterMap Op.room).Pairwise fun x y => x.1 + x.2 ≤ y.1 ∨ y.1 + y.2 ≤ x.1)
    (hfree : ∀ x ∈ ops.filterMap Op.room, 0 < x.2 ∧ w.Free x.1 x.2) :
    ∃ w', run World.step w ops = some w' := by
  induction ops generalizing w with
  | nil => exact ⟨w, rfl⟩
  | cons op ops ih =>
      obtain ⟨w₁, hw₁⟩ : ∃ w₁, w.step op = some w₁ := by
        cases op with
        | mmap addr len =>
            have hroom := hfree (addr, len) (List.mem_filterMap.mpr ⟨_, List.mem_cons_self, rfl⟩)
            exact ⟨_, step_mmap w addr len hroom.1 hroom.2⟩
        | _ => exact ⟨_, rfl⟩
      have hrest : ∀ x ∈ ops.filterMap Op.room, x ∈ (op :: ops).filterMap Op.room := fun x hx =>
        ((List.sublist_cons_self op ops).filterMap _).subset hx
      have hne : ∀ x, op.room = some x → ∀ y ∈ ops.filterMap Op.room,
          x.1 + x.2 ≤ y.1 ∨ y.1 + y.2 ≤ x.1 := by
        intro x hx y hy
        rw [List.filterMap_cons_some hx] at hapart
        exact List.rel_of_pairwise_cons hapart hy
      obtain ⟨w', hw'⟩ := ih (w := w₁) (fun op hop => hfixed op (List.mem_cons_of_mem _ hop))
        (hapart.sublist ((List.sublist_cons_self op ops).filterMap _)) fun x hx =>
          ⟨(hfree x (hrest x hx)).1, free_of_step hw₁ (hfixed op List.mem_cons_self)
            (fun y hy => hne y hy x hx) (hfree x (hrest x hx)).2⟩
      exact ⟨w', run_cons_eq_some.mpr ⟨w₁, hw₁, hw'⟩⟩

/-- A process in which nothing is mapped yet. -/
def emptyWorld : World := { host := fun _ => none, stage2 := fun _ => none }

/-- The empty world is a start: nothing is mapped, and nothing was ever. -/
theorem fresh_emptyWorld : Fresh emptyWorld :=
  ⟨rfl, fun _ _ => by simp [emptyWorld], rfl, rfl⟩

/-- One GiB, dirtied and reclaimed once, all flags off. -/
def plainOptions : Options :=
  { advice := madvFreeReusable, sizeGb := 1, naive := false, hostTouch := false,
    guestRead := false, pressureCheck := false, hammer := false, repeats := 1,
    timeReclaim := false, extentKb := 0, reclaimMode := .reusable, steadyState := false,
    fleetSim := false, services := 8, serviceMib := 256 }

/-- One GiB of guest RAM. -/
def plainRam : RamSize := ⟨2 ^ 30, oneGib_pos, page_dvd_oneGib, ramGpa_add_oneGib_lt⟩

/-- Two cycles over one GiB, each in a mapping of its own. -/
def repeatOptions : Options := { plainOptions with repeats := 2 }

/-- The mapping of cycle `c` at `c * 2 ^ 31`, and the canary below the first one. -/
def spacedPlacement : Placement :=
  { ram := fun c => c * 2 ^ 31, code := 0, parkedCanary := 2 ^ 30, hammerCanary := 2 ^ 30 }

/-- The run of two cycles goes through and is safe, although guest RAM is another mapping in the
second one; every byte it has mapped is unmapped exactly once. -/
theorem stage2_never_dangles_two_cycles : ∃ w,
    run World.step emptyWorld (mainRun repeatOptions spacedPlacement) = some w ∧
      Along World.step (Safe plainRam) emptyWorld (mainRun repeatOptions spacedPlacement) ∧
      w.host = emptyWorld.host ∧ ∀ id a, w.Made id a → w.unmapped id a = 1 := by
  have hsize : repeatOptions.ramSize = plainRam.bytes := by decide
  have hroom : (mainRun repeatOptions spacedPlacement).filterMap Op.room =
      [(1 * 2 ^ 31, repeatOptions.ramSize), (0, page), (2 * 2 ^ 31, repeatOptions.ramSize)] := by
    decide
  obtain ⟨w, hrun⟩ : ∃ w, run World.step emptyWorld (mainRun repeatOptions spacedPlacement) =
      some w := by
    apply exists_run (by decide)
    · rw [hroom, hsize]
      simp [page, plainRam]
    · rw [hroom, hsize]
      simp [World.Free, emptyWorld, page, plainRam.pos]
  obtain ⟨halong, -, hhost, hunmapped⟩ := stage2_never_dangles repeatOptions spacedPlacement
    plainRam hsize (fun h => by cases h) (fun _ h => by cases h) fresh_emptyWorld hrun
  exact ⟨w, hrun, halong, hhost, hunmapped⟩

end VmRatchet.Main
