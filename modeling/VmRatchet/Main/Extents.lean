import VmRatchet.Main.Stage2

/-!
# Extent by extent, or all at once

`reclaim_extents` makes the reclaim triple once for each extent of guest RAM; with the extent as
large as guest RAM it is a single triple, that of `reclaim` in `main`. What a call does to one
byte of the process is up to the system; all that is assumed is that it acts byte by byte on
exactly its range (`Calls`, over an arbitrary type of states of a byte). Whether a byte is mapped,
whether it was released and how, whether the guest holds it down, are all part of that state.

* `Pages`, `Pages.step` — the stage-2 map and the state of every byte of the process.
* `run_extentTriple`, `run_extentsUpTo` — one triple, and the first so many.
* `exists_prefix_flatMap`, `run_prefix_extentTriple` — in the middle of a triple only its own
  extent is missing.
* `World.run_pages` — the maps of `World`, up to the numbers of mappings, are an instance.
* `extents_eq_whole_range` — the extents tile guest RAM, and end where the whole range ends.
-/

namespace VmRatchet.Main

open ByteMemory Guest Transition
open Soak (ReclaimMode)

/-! ## Calls that act byte by byte -/

/-- What the calls of a reclaim do to one byte of the process. -/
structure Calls (H : Type) where
  madvise : ℤ → H → H
  munmap : H → H
  mmapFixed : H → H
  /-- The byte is mapped into the guest … -/
  hvVmMap : H → H
  /-- … and out of it. -/
  hvVmUnmap : H → H

/-- The stage-2 map, and the state of every byte of the process. -/
structure Pages (H : Type) where
  stage2 : ℕ → Option ℕ
  host : ℕ → H

section pages

variable {H : Type} (calls : Calls H)

/-- One call of a reclaim. The other operations of a run are not part of one. -/
def Pages.step (w : Pages H) : Op → Option (Pages H)
  | .madvise addr len advice =>
      some { w with host := updateRange w.host addr len (calls.madvise advice) }
  | .munmap addr len => some { w with host := updateRange w.host addr len calls.munmap }
  | .mmapFixed addr len => some { w with host := updateRange w.host addr len calls.mmapFixed }
  | .hvVmMap addr gpa len =>
      some ⟨mapRange w.stage2 gpa len addr, updateRange w.host addr len calls.hvVmMap⟩
  | .hvVmUnmap gpa len =>
      some ⟨setRange w.stage2 gpa len none, fun a =>
        if ∃ b < len, w.stage2 (gpa + b) = some a then calls.hvVmUnmap (w.host a) else w.host a⟩
  | _ => none

/-- What one reclaim triple does to a byte: unmap it from the guest, advise or replace it, and map
it again. -/
def Calls.triple (mode : ReclaimMode) (advice : ℤ) (h : H) : H :=
  calls.hvVmMap (match mode with
    | .reusable => calls.madvise advice (calls.hvVmUnmap h)
    | .munmap => calls.mmapFixed (calls.munmap (calls.hvVmUnmap h)))

/-- Guest RAM is mapped in order to the bytes at `ram`; guest-physical addresses are `u64`. -/
structure RamInOrder (stage2 : ℕ → Option ℕ) (ram size : ℕ) : Prop where
  mapped : ∀ off < size, stage2 (ramGpa + off) = some (ram + off)
  u64 : ∀ g, stage2 g ≠ none → g < 2 ^ 64

variable {w : Pages H} {ram size : ℕ}

/-- If guest RAM is mapped in order, the guest-physical address of a byte of it is not wrapped. -/
theorem RamInOrder.gpa_mod {stage2 : ℕ → Option ℕ} (h : RamInOrder stage2 ram size) {off : ℕ}
    (hoff : off < size) : (ramGpa + off) % 2 ^ 64 = ramGpa + off := by
  apply Nat.mod_eq_of_lt
  apply h.u64
  rw [h.mapped off hoff]
  simp

/-- While the machine runs guest RAM is mapped in order. This is how `timing::run` finds it whenever
it calls `reclaim_extents`. -/
theorem Running.ramInOrder {r : RamSize} {F : Set ℕ} {code : ℕ} {W : World}
    (h : Running r F code ram W) : RamInOrder W.stage2 ram r.bytes := by
  rw [h.2.stage2]
  refine ⟨fun off => fullMap_ram, fun g hg => ?_⟩
  obtain ⟨a, ha⟩ := Option.ne_none_iff_exists'.mp hg
  have haddr := r.addressable
  rcases fullMap_points ha with ⟨off, hoff, rfl, -⟩ | ⟨hlt, -⟩
  · omega
  · omega

/-- Unmapping an extent from the guest reaches the bytes it was mapped to. -/
theorem unmap_reaches {stage2 : ℕ → Option ℕ} {gpa host len : ℕ}
    (h : ∀ b < len, stage2 (gpa + b) = some (host + b)) (a : ℕ) :
    (∃ b < len, stage2 (gpa + b) = some a) ↔ host ≤ a ∧ a < host + len := by
  constructor
  · rintro ⟨b, hb, hs⟩
    rw [h b hb, Option.some.injEq] at hs
    omega
  · rintro ⟨hle, hlt⟩
    obtain ⟨b, rfl⟩ := Nat.exists_eq_add_of_le hle
    exact ⟨b, by omega, h b (by omega)⟩

/-! ## One triple -/

/-- **One triple.** The stage-2 map is what it was, and the bytes of the extent, no others, have
gone through the triple. -/
theorem run_extentTriple (hw : RamInOrder w.stage2 ram size) {off len : ℕ} (hlen : 0 < len)
    (h : off + len ≤ size) (mode : ReclaimMode) (advice : ℤ) :
    run (Pages.step calls) w (extentTriple ram off len mode advice) =
      some { w with host := updateRange w.host (ram + off) len (calls.triple mode advice) } := by
  have hmapped : ∀ b < len, w.stage2 (ramGpa + off + b) = some (ram + off + b) := by
    intro b hb
    rw [Nat.add_assoc, hw.mapped (off + b) (by omega), Nat.add_assoc]
  have hunmap : (fun a => if ∃ b < len, w.stage2 (ramGpa + off + b) = some a
      then calls.hvVmUnmap (w.host a) else w.host a) =
      updateRange w.host (ram + off) len calls.hvVmUnmap := by
    funext a
    simp only [unmap_reaches hmapped, updateRange]
  have hremap : mapRange (setRange w.stage2 (ramGpa + off) len none) (ramGpa + off) len
      (ram + off) = w.stage2 := mapRange_setRange hmapped
  unfold extentTriple
  rw [hw.gpa_mod (by omega)]
  cases mode with
  | reusable =>
      simp only [List.cons_append, List.nil_append, run, Pages.step, Option.bind_some, hunmap,
        hremap, updateRange_updateRange]
      rfl
  | munmap =>
      simp only [List.cons_append, List.nil_append, run, Pages.step, Option.bind_some, hunmap,
        hremap, updateRange_updateRange]
      rfl

/-- The operations of a triple: it unmaps its extent, releases it on the host side only, and maps it
again. -/
theorem mem_extentTriple {off len : ℕ} {mode : ReclaimMode} {advice : ℤ} {op : Op}
    (hop : op ∈ extentTriple ram off len mode advice) :
    op = .hvVmUnmap ((ramGpa + off) % 2 ^ 64) len ∨ op = .madvise (ram + off) len advice ∨
      op = .munmap (ram + off) len ∨ op = .mmapFixed (ram + off) len ∨
      op = .hvVmMap (ram + off) ((ramGpa + off) % 2 ^ 64) len := by
  unfold extentTriple at hop
  simp only [List.mem_append, List.mem_singleton] at hop
  rcases hop with (rfl | hop) | rfl
  · exact .inl rfl
  · cases mode with
    | reusable => exact .inr (.inl (List.mem_singleton.mp hop))
    | munmap =>
        rcases List.mem_pair.mp hop with rfl | rfl
        · exact .inr (.inr (.inl rfl))
        · exact .inr (.inr (.inr (.inl rfl)))
  · exact .inr (.inr (.inr (.inr rfl)))

/-- The operations of a triple change the stage-2 map in their own extent only. -/
theorem step_extentTriple_stage2 {off len : ℕ} {mode : ReclaimMode} {advice : ℤ} {op : Op}
    (hop : op ∈ extentTriple ram off len mode advice) {w' : Pages H}
    (hstep : w.step calls op = some w') {g : ℕ}
    (hg : ¬ ((ramGpa + off) % 2 ^ 64 ≤ g ∧ g < (ramGpa + off) % 2 ^ 64 + len)) :
    w'.stage2 g = w.stage2 g := by
  rcases mem_extentTriple hop with rfl | rfl | rfl | rfl | rfl <;>
    simp only [Pages.step, Option.some.injEq] at hstep <;> subst hstep
  · exact if_neg hg
  · rfl
  · rfl
  · rfl
  · exact if_neg hg

/-- **In the middle of a triple** everything outside its extent is mapped as before. -/
theorem run_prefix_extentTriple {off len : ℕ} {mode : ReclaimMode} {advice : ℤ} {p : List Op}
    (hp : p <+: extentTriple ram off len mode advice) {w' : Pages H}
    (hrun : run (Pages.step calls) w p = some w') {g : ℕ}
    (hg : ¬ ((ramGpa + off) % 2 ^ 64 ≤ g ∧ g < (ramGpa + off) % 2 ^ 64 + len)) :
    w'.stage2 g = w.stage2 g := by
  have halong : Along (Pages.step calls)
      (fun _ op => op ∈ extentTriple ram off len mode advice) w p :=
    Along.of_labels (fun op hop _ => hp.subset hop) w
  refine run_invariant (I := fun v => v.stage2 g = w.stage2 g) ?_ halong rfl hrun
  intro v op v' hop hv hstep
  exact (step_extentTriple_stage2 calls hop hstep hg).trans hv

/-! ## One triple after another -/

/-- The triples of the first `n` extents, one after the other. -/
def extentsUpTo (ram extent : ℕ) (mode : ReclaimMode) (advice : ℤ) (n : ℕ) : List Op :=
  (List.range n).flatMap fun i => extentTriple ram (i * extent) extent mode advice

/-- One more extent adds the triple of that extent. -/
theorem extentsUpTo_succ (ram extent : ℕ) (mode : ReclaimMode) (advice : ℤ) (n : ℕ) :
    extentsUpTo ram extent mode advice (n + 1) =
      extentsUpTo ram extent mode advice n ++ extentTriple ram (n * extent) extent mode advice := by
  simp [extentsUpTo, List.range_succ]

/-- The loop of `reclaim_extents` makes the triples of the extents that fit, in ascending order. -/
theorem reclaimExtents_eq {extent : ℕ} (hdvd : extent ∣ size) (hpos : 0 < size)
    (mode : ReclaimMode) (advice : ℤ) : reclaimExtents ram size extent mode advice =
      extentsUpTo ram extent mode advice (size / extent) := by
  rw [reclaimExtents, stepBy_of_dvd hdvd hpos, List.flatMap_map]
  rfl

/-- With an extent as large as guest RAM the loop makes one triple, over all of it. -/
theorem reclaimExtents_whole (hpos : 0 < size) (mode : ReclaimMode) (advice : ℤ) :
    reclaimExtents ram size size mode advice = extentTriple ram 0 size mode advice := by
  rw [reclaimExtents_eq dvd_rfl hpos, Nat.div_self hpos]
  simp [extentsUpTo]

/-- **The first extents.** The bytes below have gone through the triple, each once. -/
theorem run_extentsUpTo (hw : RamInOrder w.stage2 ram size) {extent : ℕ} (hext : 0 < extent)
    (mode : ReclaimMode) (advice : ℤ) {n : ℕ} (hn : n ≤ size / extent) :
    run (Pages.step calls) w (extentsUpTo ram extent mode advice n) =
      some { w with host := updateRange w.host ram (n * extent) (calls.triple mode advice) } := by
  induction n with
  | zero => simp [extentsUpTo]
  | succ n ih =>
      rw [extentsUpTo_succ, run_append]
      refine ⟨_, ih (by omega), ?_⟩
      have hstep := run_extentTriple calls
        (w := { w with host := updateRange w.host ram (n * extent) (calls.triple mode advice) })
        hw hext (extent_le hn) mode advice
      rw [hstep, updateRange_add, Nat.succ_mul]

end pages

/-! ## In the middle of the loop -/

/-- A run of a loop that has not come to its end is in one of its turns. -/
theorem exists_prefix_flatMap {α : Type} {f : ℕ → List α} {n : ℕ} (hn : 0 < n) {pre : List α}
    (h : pre <+: (List.range n).flatMap f) :
    ∃ i < n, ∃ p, p <+: f i ∧ pre = (List.range i).flatMap f ++ p := by
  induction n with
  | zero => omega
  | succ n ih =>
      rw [List.range_succ, List.flatMap_append, List.flatMap_singleton] at h
      rcases List.prefix_or_prefix_of_prefix h (List.prefix_append _ _) with hpre | ⟨p, rfl⟩
      · by_cases hn0 : n = 0
        · subst hn0
          obtain rfl := List.prefix_nil.mp hpre
          exact ⟨0, by omega, [], List.nil_prefix, rfl⟩
        · obtain ⟨i, hi, hrest⟩ := ih (by omega) hpre
          exact ⟨i, by omega, hrest⟩
      · exact ⟨n, by omega, p, (List.prefix_append_right_inj _).mp h, rfl⟩

/-! ## Every byte once -/

/-- The operation unmaps this address from the guest. -/
def Op.unmaps (g : ℕ) : Op → Bool
  | .hvVmUnmap gpa len => decide (gpa ≤ g ∧ g < gpa + len)
  | _ => false

/-- The operation releases this byte of the process, in either mode. -/
def Op.releases (a : ℕ) : Op → Bool
  | .madvise addr len _ => decide (addr ≤ a ∧ a < addr + len)
  | .munmap addr len => decide (addr ≤ a ∧ a < addr + len)
  | _ => false

/-- The operation puts fresh memory in the place of this byte. -/
def Op.replaces (a : ℕ) : Op → Bool
  | .mmapFixed addr len => decide (addr ≤ a ∧ a < addr + len)
  | _ => false

/-- The operation maps this address into the guest. -/
def Op.remaps (g : ℕ) : Op → Bool
  | .hvVmMap _ gpa len => decide (gpa ≤ g ∧ g < gpa + len)
  | _ => false

/-- In a range that starts at `off` in guest RAM every byte is unmapped, released, replaced in
`munmap` mode, and mapped again exactly once, and nothing is done to any other. -/
structure EachOnce (ops : List Op) (mode : ReclaimMode) (ram off len : ℕ) : Prop where
  unmaps : ∀ g, ops.countP (Op.unmaps g) =
    if ramGpa + off ≤ g ∧ g < ramGpa + off + len then 1 else 0
  releases : ∀ a, ops.countP (Op.releases a) =
    if ram + off ≤ a ∧ a < ram + off + len then 1 else 0
  replaces : ∀ a, ops.countP (Op.replaces a) =
    if mode = .munmap ∧ ram + off ≤ a ∧ a < ram + off + len then 1 else 0
  remaps : ∀ g, ops.countP (Op.remaps g) =
    if ramGpa + off ≤ g ∧ g < ramGpa + off + len then 1 else 0

section once

variable {mode : ReclaimMode} {ram : ℕ}

/-- The triple of an extent does its three calls to every byte of the extent exactly once, and to no
other byte. -/
theorem eachOnce_extentTriple {off len : ℕ} (hgpa : (ramGpa + off) % 2 ^ 64 = ramGpa + off)
    (advice : ℤ) : EachOnce (extentTriple ram off len mode advice) mode ram off len := by
  unfold extentTriple
  rw [hgpa]
  cases mode with
  | reusable =>
      constructor
      · intro g
        simp [List.countP_cons, Op.unmaps]
      · intro a
        simp [List.countP_cons, Op.releases]
      · intro a
        simp [Op.replaces]
      · intro g
        simp [List.countP_cons, Op.remaps]
  | munmap =>
      constructor
      · intro g
        simp [List.countP_cons, Op.unmaps]
      · intro a
        simp [List.countP_cons, Op.releases]
      · intro a
        simp [List.countP_cons, Op.replaces]
      · intro g
        simp [List.countP_cons, Op.remaps]

/-- Two lists that treat neighbouring ranges exactly once treat the joined range exactly once, one
after the other. -/
theorem EachOnce.append {ops ops' : List Op} {off len len' : ℕ}
    (h : EachOnce ops mode ram off len) (h' : EachOnce ops' mode ram (off + len) len') :
    EachOnce (ops ++ ops') mode ram off (len + len') := by
  have hsum : ∀ base x, (if base + off ≤ x ∧ x < base + off + len then 1 else 0) +
      (if base + (off + len) ≤ x ∧ x < base + (off + len) + len' then 1 else 0) =
      if base + off ≤ x ∧ x < base + off + (len + len') then 1 else 0 := by
    intro base x
    split_ifs <;> omega
  constructor
  · intro g
    rw [List.countP_append, h.unmaps, h'.unmaps, hsum]
  · intro a
    rw [List.countP_append, h.releases, h'.releases, hsum]
  · intro a
    rw [List.countP_append, h.replaces, h'.replaces]
    by_cases hmode : mode = .munmap
    · simp only [hmode, true_and]
      exact hsum ram a
    · simp [hmode]
  · intro g
    rw [List.countP_append, h.remaps, h'.remaps, hsum]

/-- The first `n` extents treat each byte below `n * extent` exactly once and leave all others
alone. -/
theorem eachOnce_extentsUpTo {stage2 : ℕ → Option ℕ} {size extent : ℕ}
    (hw : RamInOrder stage2 ram size) (hext : 0 < extent) (advice : ℤ) {n : ℕ}
    (hn : n ≤ size / extent) :
    EachOnce (extentsUpTo ram extent mode advice n) mode ram 0 (n * extent) := by
  induction n with
  | zero =>
      constructor <;> intro x <;> simp [extentsUpTo]
  | succ n ih =>
      rw [extentsUpTo_succ, Nat.succ_mul]
      apply (ih (by omega)).append
      rw [Nat.zero_add]
      have hle := extent_le hn
      exact eachOnce_extentTriple (hw.gpa_mod (by omega)) advice

end once

/-! ## The maps of a run -/

/-- Who holds a mapped byte, whichever mapping of the run it belongs to. -/
inductive Holder
  | foreign
  | run
  deriving DecidableEq

/-- The holder of a byte, from its owner. -/
def Owner.holder : Owner → Holder
  | .foreign => .foreign
  | .mapping _ => .run

/-- What the calls do to the process's map: `munmap` removes a byte, `mmap(MAP_FIXED)` makes it one
of this run, the others leave the map alone. -/
def mapCalls : Calls (Option Holder) where
  madvise _ h := h
  munmap _ := none
  mmapFixed _ := some .run
  hvVmMap h := h
  hvVmUnmap h := h

/-- The maps of a world, up to the numbers of mappings. -/
def World.pages (w : World) : Pages (Option Holder) :=
  ⟨w.stage2, fun a => (w.host a).map Owner.holder⟩

/-- Setting a range of owners to a constant sets the holders in that range. -/
theorem map_setRange {h : ℕ → Option Owner} {addr len : ℕ} {x : Option Owner} :
    (fun a => (setRange h addr len x a).map Owner.holder) =
      updateRange (fun a => (h a).map Owner.holder) addr len fun _ => x.map Owner.holder := by
  funext a
  unfold setRange updateRange
  split_ifs <;> rfl

/-- A call of a reclaim does to the maps of a world what `mapCalls` says. -/
theorem World.step_pages {w w' : World} {op : Op} (h : w.step op = some w')
    {v : Pages (Option Holder)} (hv : w.pages.step mapCalls op = some v) : v = w'.pages := by
  cases op with
  | madvise addr len advice =>
      simp only [World.step, Pages.step, Option.some.injEq] at h hv
      subst h hv
      simp only [World.pages, mapCalls, Pages.mk.injEq, true_and]
      funext a
      simp [updateRange]
  | munmap addr len =>
      simp only [World.step, Pages.step, Option.some.injEq] at h hv
      subst h hv
      simp only [World.pages, World.release, map_setRange]
      rfl
  | mmapFixed addr len =>
      simp only [World.step, Pages.step, Option.some.injEq] at h hv
      subst h hv
      simp only [World.pages, World.release, World.provide, map_setRange,
        updateRange_updateRange]
      rfl
  | hvVmMap addr gpa len =>
      simp only [World.step, Pages.step, Option.some.injEq] at h hv
      subst h hv
      simp only [World.pages, mapCalls, Pages.mk.injEq, true_and]
      funext a
      simp [updateRange]
  | hvVmUnmap gpa len =>
      simp only [World.step, Pages.step, Option.some.injEq] at h hv
      subst h hv
      simp only [World.pages, mapCalls, Pages.mk.injEq, true_and]
      funext a
      exact ite_self _
  | mmap addr len => cases hv
  | access addr len => cases hv
  | hvVmCreate => cases hv
  | hvVmDestroy => cases hv
  | pass p ram => cases hv

/-- Through a whole list of operations the pages, as the abstract calls leave them, are those of the
world. -/
theorem World.run_pages {ops : List Op} {w w' : World}
    (h : Transition.run World.step w ops = some w') {v : Pages (Option Holder)}
    (hv : Transition.run (Pages.step mapCalls) w.pages ops = some v) : v = w'.pages := by
  induction ops generalizing w with
  | nil =>
      rw [run_nil, Option.some.injEq] at h hv
      rw [← hv, h]
  | cons op ops ih =>
      obtain ⟨w₁, hw₁, hrest⟩ := run_cons_eq_some.mp h
      obtain ⟨v₁, hv₁, hvrest⟩ := run_cons_eq_some.mp hv
      obtain rfl := World.step_pages hw₁ hv₁
      exact ih hrest hvrest

/-- No triple makes a mapping without `MAP_FIXED`, so nothing is placed elsewhere. -/
theorem extentTriple_no_mmap {ram off len : ℕ} {mode : ReclaimMode} {advice : ℤ} {op : Op}
    (hop : op ∈ extentTriple ram off len mode advice) (addr n : ℕ) : op ≠ .mmap addr n := by
  rcases mem_extentTriple hop with rfl | rfl | rfl | rfl | rfl <;> simp

/-- The triples of the extents go through in every world. -/
theorem run_reclaimExtents_world (w : World) (ram size extent : ℕ) (mode : ReclaimMode)
    (advice : ℤ) :
    ∃ w', Transition.run World.step w (reclaimExtents ram size extent mode advice) = some w' := by
  apply run_of_no_mmap
  intro op hop
  obtain ⟨off, -, hop⟩ := List.mem_flatMap.mp hop
  exact extentTriple_no_mmap hop

/-! ## The extents and the whole range -/

section whole

variable {H : Type} {o : Options} {ram : ℕ}

/-- The extent of an admissible run is not empty. -/
theorem extent_pos (hpos : 0 < o.ramSize) (hext : o.extentAdmissible) : 0 < o.extent :=
  Nat.pos_of_dvd_of_pos hext.2 hpos

/-- The loop ends with every byte of guest RAM through the triple, whatever the extent. -/
theorem run_reclaimExtents (calls : Calls H) {w : Pages H} {size extent : ℕ}
    (hw : RamInOrder w.stage2 ram size) (hpos : 0 < size) (hdvd : extent ∣ size)
    (mode : ReclaimMode) (advice : ℤ) :
    run (Pages.step calls) w (reclaimExtents ram size extent mode advice) =
      some { w with host := updateRange w.host ram size (calls.triple mode advice) } := by
  have hext : 0 < extent := Nat.pos_of_dvd_of_pos hdvd hpos
  rw [reclaimExtents_eq hdvd hpos, run_extentsUpTo calls hw hext mode advice le_rfl,
    Nat.div_mul_cancel hdvd]

/-- The reclaim of `main` is the triple over the whole range. -/
theorem reclaim_eq_reclaimExtents (hnaive : o.naive = false) (hpos : 0 < o.ramSize) :
    reclaim o ram = reclaimExtents ram o.ramSize o.ramSize .reusable o.advice := by
  have hgpa : (ramGpa + 0) % 2 ^ 64 = ramGpa := by decide
  rw [reclaimExtents_whole hpos, extentTriple, hgpa]
  simp [reclaim, hnaive]

/-- At every point of the loop, in some turn of it, everything outside the extent of that turn is
mapped to its place in `ram`. -/
theorem run_prefix_reclaimExtents (calls : Calls H) {w : Pages H} {size extent : ℕ}
    (hw : RamInOrder w.stage2 ram size) (hpos : 0 < size) (hdvd : extent ∣ size)
    {mode : ReclaimMode} {advice : ℤ} {pre : List Op}
    (hpre : pre <+: reclaimExtents ram size extent mode advice) :
    ∃ i < size / extent, ∃ p w', p <+: extentTriple ram (i * extent) extent mode advice ∧
      pre = extentsUpTo ram extent mode advice i ++ p ∧
      run (Pages.step calls) w pre = some w' ∧
      ∀ off < size, ¬ (i * extent ≤ off ∧ off < i * extent + extent) →
        w'.stage2 (ramGpa + off) = some (ram + off) := by
  have hext : 0 < extent := Nat.pos_of_dvd_of_pos hdvd hpos
  have hn : 0 < size / extent := Nat.div_pos (Nat.le_of_dvd hpos hdvd) hext
  rw [reclaimExtents_eq hdvd hpos] at hpre
  obtain ⟨i, hi, p, ⟨q, hq⟩, rfl⟩ := exists_prefix_flatMap hn hpre
  have hle := extent_le hi
  have hfirst := run_extentsUpTo calls hw hext mode advice (le_of_lt hi)
  -- the turn goes through as a whole, so its beginning does
  have htriple := run_extentTriple calls
    (w := { w with host := updateRange w.host ram (i * extent) (calls.triple mode advice) })
    hw hext hle mode advice
  rw [← hq] at htriple
  obtain ⟨w', hw', -⟩ := run_append.mp htriple
  refine ⟨i, hi, p, w', ⟨q, hq⟩, rfl, run_append.mpr ⟨_, hfirst, hw'⟩, ?_⟩
  intro off hoff hnot
  rw [run_prefix_extentTriple calls ⟨q, hq⟩ hw', hw.mapped off hoff]
  rw [hw.gpa_mod (by omega)]
  omega

/-- In a world with guest RAM in order the loop leaves the stage-2 map as it was and does its calls
to every byte once. -/
theorem pages_reclaimExtents {W : World} {size extent : ℕ} (hW : RamInOrder W.stage2 ram size)
    (hpos : 0 < size) (hdvd : extent ∣ size) (mode : ReclaimMode) (advice : ℤ) :
    ∃ W', run World.step W (reclaimExtents ram size extent mode advice) = some W' ∧
      W'.pages = { W.pages with
        host := updateRange W.pages.host ram size (mapCalls.triple mode advice) } := by
  obtain ⟨W', hW'⟩ := run_reclaimExtents_world W ram size extent mode advice
  have hrun : run (Pages.step mapCalls) W.pages (reclaimExtents ram size extent mode advice) = _ :=
    run_reclaimExtents mapCalls hW hpos hdvd mode advice
  exact ⟨W', hW', (World.run_pages hW' hrun).symm⟩

/-- **Extent by extent is all at once.** For every size of guest RAM, every extent that passes the
assertion of `timing::run` and both release modes, with calls that act byte by byte on exactly
their range:

* the loop makes `ram_size / extent` turns, and each of its calls goes through;
* every byte of guest RAM is unmapped, released and mapped again exactly once;
* at every point of the loop, in some turn of it, everything outside the extent of that turn is
  mapped to its place in `ram`;
* the maps and the state of every byte end as after a single triple over the whole range, which
  in `reusable` mode is the reclaim of `main`; and so do the maps of `World`, up to the numbers of
  mappings. -/
theorem extents_eq_whole_range (calls : Calls H) (o : Options) (mode : ReclaimMode) (ram : ℕ)
    (hpos : 0 < o.ramSize) (hext : o.extentAdmissible) (w : Pages H)
    (hw : RamInOrder w.stage2 ram o.ramSize) :
    (0 < o.extent ∧ (stepBy o.ramSize o.extent).length = o.ramSize / o.extent ∧
      o.ramSize / o.extent * o.extent = o.ramSize) ∧
    EachOnce (reclaimExtents ram o.ramSize o.extent mode o.advice) mode ram 0 o.ramSize ∧
    (∀ pre, pre <+: reclaimExtents ram o.ramSize o.extent mode o.advice →
      ∃ i < o.ramSize / o.extent, ∃ p w',
        p <+: extentTriple ram (i * o.extent) o.extent mode o.advice ∧
        pre = extentsUpTo ram o.extent mode o.advice i ++ p ∧
        run (Pages.step calls) w pre = some w' ∧
        ∀ off < o.ramSize, ¬ (i * o.extent ≤ off ∧ off < i * o.extent + o.extent) →
          w'.stage2 (ramGpa + off) = some (ram + off)) ∧
    (∃ w', run (Pages.step calls) w (reclaimExtents ram o.ramSize o.extent mode o.advice) =
        some w' ∧
      run (Pages.step calls) w (reclaimExtents ram o.ramSize o.ramSize mode o.advice) = some w' ∧
      (mode = .reusable → o.naive = false →
        run (Pages.step calls) w (reclaim o ram) = some w')) ∧
    ∀ W : World, W.stage2 = w.stage2 → ∃ W₁ W₂,
      run World.step W (reclaimExtents ram o.ramSize o.extent mode o.advice) = some W₁ ∧
      run World.step W (reclaimExtents ram o.ramSize o.ramSize mode o.advice) = some W₂ ∧
      W₁.stage2 = W₂.stage2 ∧
      ∀ a, (W₁.host a).map Owner.holder = (W₂.host a).map Owner.holder := by
  have hpos' := extent_pos hpos hext
  have hdiv : o.ramSize / o.extent * o.extent = o.ramSize := Nat.div_mul_cancel hext.2
  refine ⟨⟨hpos', ?_, hdiv⟩, ?_, ?_, ?_, ?_⟩
  · rw [stepBy_of_dvd hext.2 hpos, List.length_map, List.length_range]
  · have honce : EachOnce (extentsUpTo ram o.extent mode o.advice (o.ramSize / o.extent)) mode ram 0
        (o.ramSize / o.extent * o.extent) := eachOnce_extentsUpTo hw hpos' o.advice le_rfl
    rwa [hdiv, ← reclaimExtents_eq hext.2 hpos] at honce
  · intro pre hpre
    exact run_prefix_reclaimExtents calls hw hpos hext.2 hpre
  · refine ⟨_, run_reclaimExtents calls hw hpos hext.2 mode o.advice,
      run_reclaimExtents calls hw hpos dvd_rfl mode o.advice, ?_⟩
    rintro rfl hnaive
    rw [reclaim_eq_reclaimExtents hnaive hpos]
    exact run_reclaimExtents calls hw hpos dvd_rfl .reusable o.advice
  · intro W hW
    rw [← hW] at hw
    obtain ⟨W₁, h₁, hp₁⟩ := pages_reclaimExtents hw hpos hext.2 mode o.advice
    obtain ⟨W₂, h₂, hp₂⟩ := pages_reclaimExtents hw hpos dvd_rfl mode o.advice
    have hsame : W₁.pages = W₂.pages := hp₁.trans hp₂.symm
    refine ⟨W₁, W₂, h₁, h₂, congrArg Pages.stage2 hsame, fun a => ?_⟩
    exact congrFun (congrArg Pages.host hsame) a

/-- One byte of the process, as a reclaim sees it. -/
structure HostByte where
  mapped : Bool
  /-- The guest has it mapped. -/
  guest : Bool
  /-- The last advice that reached it while the guest did not. -/
  advised : Option ℤ
  deriving DecidableEq

/-- What the calls do to such a byte: advice reaches it once the guest has let go of it, and fresh
memory has had none. -/
def hostCalls : Calls HostByte where
  madvise advice h := if h.guest then h else { h with advised := some advice }
  munmap h := { h with mapped := false }
  mmapFixed h := { h with mapped := true, advised := none }
  hvVmMap h := { h with guest := true }
  hvVmUnmap h := { h with guest := false }

/-- The stage-2 map of a VM with one GiB of guest RAM and nothing else. -/
def ramOnlyMap (ram : ℕ) : ℕ → Option ℕ := mapRange (fun _ => none) ramGpa (2 ^ 30) ram

/-- The map with nothing but guest RAM has guest RAM in order. -/
theorem ramInOrder_ramOnlyMap (ram : ℕ) : RamInOrder (ramOnlyMap ram) ram (2 ^ 30) where
  mapped off hoff := by
    rw [ramOnlyMap, mapRange_of_mem ⟨by omega, by omega⟩, Nat.add_sub_cancel_left]
  u64 g hg := by
    by_contra hle
    apply hg
    apply mapRange_of_not_mem
    rw [show ramGpa = 2 ^ 31 from rfl]
    omega

/-- One GiB in extents of 64 KiB. The conversion of `extent_kb` to bytes wraps to that. -/
def timedOptions : Options :=
  { plainOptions with timeReclaim := true, extentKb := 2 ^ 54 + 64, reclaimMode := .munmap }

/-- The theorem at work: one GiB of dirtied memory, torn out extent by extent. -/
theorem extents_eq_whole_range_timed : ∃ w',
    run (Pages.step hostCalls) ⟨ramOnlyMap page, fun _ => ⟨true, true, none⟩⟩
      (reclaimExtents page timedOptions.ramSize timedOptions.extent .munmap timedOptions.advice) =
        some w' ∧
    run (Pages.step hostCalls) ⟨ramOnlyMap page, fun _ => ⟨true, true, none⟩⟩
      (reclaimExtents page timedOptions.ramSize timedOptions.ramSize .munmap
        timedOptions.advice) = some w' := by
  have hadm : timedOptions.extentAdmissible := by
    constructor <;> decide
  obtain ⟨-, -, -, ⟨w', h₁, h₂, -⟩, -⟩ := extents_eq_whole_range hostCalls timedOptions .munmap page
    (by decide) hadm ⟨ramOnlyMap page, fun _ => ⟨true, true, none⟩⟩ (ramInOrder_ramOnlyMap page)
  exact ⟨w', h₁, h₂⟩

end whole

end VmRatchet.Main
