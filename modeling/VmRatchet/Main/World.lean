import Mathlib.Order.Interval.Set.Basic
import Mathlib.Order.CompletePartialOrder
import VmRatchet.Guest.Hammer
import VmRatchet.Lib.Triple

/-!
# The host map and the stage-2 map

What the runs of `main` do to memory maps is a sequence of operations (`Op`): the system calls of
the host, the calls that change the stage-2 map of the VM, and the points at which somebody uses
memory — the host itself, or a guest pass.

* `World`, `World.step` — the process's map (who backs each byte, if anybody), the stage-2 map
  (which host byte each guest-physical byte is), and as history every mapping the run created and
  how often each of its bytes was unmapped. An `mmap` without `MAP_FIXED` goes through only where
  the kernel finds the range free.
* `Safe` — no stage-2 entry dangles, and the operation at hand is one that may be made.
* `At f S F` — the abstract state: the stage-2 map is `f`, the run owns exactly the bytes `S`,
  others own exactly `F`. One rule for each operation (`triple_mmap`, `triple_munmap`, …) says how
  it moves this state, and under which condition it is safe.
-/

namespace VmRatchet.Main

open ByteMemory Guest Transition

/-! ## The world -/

/-- Who backs a mapped byte of the process: one of the mappings of this run, or memory from before
it. -/
inductive Owner
  /-- Memory this run did not create. -/
  | foreign
  /-- The mapping with this number, in the order of creation. -/
  | mapping (id : ℕ)
  deriving DecidableEq

/-- The maps of the process and of its VM. -/
structure World where
  host : ℕ → Option Owner
  stage2 : ℕ → Option ℕ
  /-- Address and length of every mapping the run created. -/
  created : List (ℕ × ℕ) := []
  /-- How often each byte of each mapping was unmapped. -/
  unmapped : ℕ → ℕ → ℕ := fun _ _ => 0

/-- The operations of a run that touch memory or maps, with the addresses the kernel returned. -/
inductive Op
  /-- `mmap` without a wish; `addr` is what the kernel returned. -/
  | mmap (addr len : ℕ)
  | mmapFixed (addr len : ℕ)
  | munmap (addr len : ℕ)
  | madvise (addr len : ℕ) (advice : ℤ)
  /-- The host reads or writes memory of the range. -/
  | access (addr len : ℕ)
  | hvVmCreate
  | hvVmDestroy
  | hvVmMap (addr gpa len : ℕ)
  | hvVmUnmap (gpa len : ℕ)
  /-- A guest pass runs, while the host's variable `ram` holds this pointer. -/
  | pass (p : Pass) (ram : ℕ)

namespace World

/-- Byte `a` belongs to a mapping of this run. -/
def Owned (w : World) (a : ℕ) : Prop := ∃ id, w.host a = some (.mapping id)

/-- Nothing is mapped in the range. -/
def Free (w : World) (addr len : ℕ) : Prop := ∀ b < len, w.host (addr + b) = none

instance (w : World) (addr len : ℕ) : Decidable (w.Free addr len) :=
  inferInstanceAs (Decidable (∀ b < len, w.host (addr + b) = none))

/-- A new mapping backs the range, and is entered under the next number. -/
def provide (w : World) (addr len : ℕ) : World :=
  { w with
    host := setRange w.host addr len (some (.mapping w.created.length))
    created := w.created ++ [(addr, len)] }

/-- Nothing backs the range any more; for each mapping it is counted which of its bytes have been
unmapped how often. -/
def release (w : World) (addr len : ℕ) : World :=
  { w with
    host := setRange w.host addr len none
    unmapped := fun id a => if (addr ≤ a ∧ a < addr + len) ∧ w.host a = some (.mapping id)
      then w.unmapped id a + 1 else w.unmapped id a }

/-- One operation, or `none` for a mapping that the kernel would not make. -/
def step (w : World) : Op → Option World
  | .mmap addr len => if 0 < len ∧ w.Free addr len then some (w.provide addr len) else none
  | .mmapFixed addr len => some ((w.release addr len).provide addr len)
  | .munmap addr len => some (w.release addr len)
  | .madvise _ _ _ => some w
  | .access _ _ => some w
  | .hvVmCreate => some { w with stage2 := fun _ => none }
  | .hvVmDestroy => some { w with stage2 := fun _ => none }
  | .hvVmMap addr gpa len => some { w with stage2 := mapRange w.stage2 gpa len addr }
  | .hvVmUnmap gpa len => some { w with stage2 := setRange w.stage2 gpa len none }
  | .pass _ _ => some w

/-- No stage-2 entry dangles: each points to memory of this run that is mapped now. -/
def Sound (w : World) : Prop := ∀ g a, w.stage2 g = some a → w.Owned a

end World

/-- The operation may be made in this world: fixed mappings replace nothing, only memory of this
run is unmapped, advised or used, stage-2 ranges are mapped where nothing is mapped and unmapped
where everything is, and a guest pass sees `ram` in order, at no second address. -/
def Allowed (r : RamSize) (w : World) : Op → Prop
  | .mmap _ _ => True
  | .mmapFixed addr len => w.Free addr len
  | .munmap addr len => ∀ b < len, w.Owned (addr + b)
  | .madvise addr len _ => ∀ b < len, w.Owned (addr + b)
  | .access addr len => ∀ b < len, w.Owned (addr + b)
  | .hvVmCreate => ∀ g, w.stage2 g = none
  | .hvVmDestroy => True
  | .hvVmMap addr gpa len =>
      (∀ b < len, w.stage2 (gpa + b) = none) ∧ ∀ b < len, w.Owned (addr + b)
  | .hvVmUnmap gpa len => ∀ b < len, w.stage2 (gpa + b) ≠ none
  | .pass _ ram =>
      (∀ off < r.bytes, w.stage2 (ramGpa + off) = some (ram + off)) ∧
        ∀ g a, w.stage2 g = some a → ram ≤ a → a < ram + r.bytes → g = ramGpa + (a - ram)

/-- Nothing dangles in this world, and the operation may be made in it. -/
def Safe (r : RamSize) (w : World) (op : Op) : Prop := w.Sound ∧ Allowed r w op

section maps

variable {w : World} {addr len a : ℕ}

/-- A byte of the new mapping belongs to it. -/
theorem provide_host_of_mem (h : addr ≤ a ∧ a < addr + len) :
    (w.provide addr len).host a = some (.mapping w.created.length) := setRange_of_mem h

/-- A byte outside the new mapping belongs to whom it belonged before. -/
theorem provide_host_of_not_mem (h : ¬ (addr ≤ a ∧ a < addr + len)) :
    (w.provide addr len).host a = w.host a := if_neg h

/-- A byte of the range that was unmapped belongs to nobody. -/
theorem release_host_of_mem (h : addr ≤ a ∧ a < addr + len) :
    (w.release addr len).host a = none := setRange_of_mem h

/-- A byte outside the range that was unmapped belongs to whom it belonged before. -/
theorem release_host_of_not_mem (h : ¬ (addr ≤ a ∧ a < addr + len)) :
    (w.release addr len).host a = w.host a := if_neg h

/-- In a free range no byte belongs to anybody. -/
theorem World.Free.host (hfree : w.Free addr len) (h : addr ≤ a ∧ a < addr + len) :
    w.host a = none := by
  have := hfree (a - addr) (by omega)
  rwa [Nat.add_sub_cancel' h.1] at this

/-- `mmap` goes through where there is room, and provides the mapping. -/
theorem step_mmap (w : World) (addr len : ℕ) (hlen : 0 < len) (hfree : w.Free addr len) :
    w.step (.mmap addr len) = some (w.provide addr len) := by
  simp only [World.step, if_pos (And.intro hlen hfree)]

end maps

/-! ## The balance of mappings -/

/-- Byte `a` belonged to mapping number `id` when it was created. -/
def World.Made (w : World) (id a : ℕ) : Prop :=
  ∃ x, w.created[id]? = some x ∧ x.1 ≤ a ∧ a < x.1 + x.2

/-- Every byte of every mapping of this run is mapped now and was never unmapped, or is not and
was unmapped once. -/
structure Balanced (w : World) : Prop where
  made : ∀ id a, w.host a = some (.mapping id) → w.Made id a
  live : ∀ id a, w.host a = some (.mapping id) → w.unmapped id a = 0
  gone : ∀ id a, w.Made id a → w.host a ≠ some (.mapping id) → w.unmapped id a = 1
  fresh : ∀ id a, w.created.length ≤ id → w.unmapped id a = 0

section balance

variable {w : World} {addr len : ℕ}

/-- After one more mapping was created, the bytes of the mappings are those of before and the range
of the new one. -/
theorem made_provide {id a : ℕ} :
    (w.provide addr len).Made id a ↔
      w.Made id a ∨ (id = w.created.length ∧ addr ≤ a ∧ a < addr + len) := by
  simp only [World.Made, World.provide]
  by_cases hid : id < w.created.length
  · rw [List.getElem?_append_left hid]
    exact (or_iff_left fun hc => Nat.ne_of_lt hid hc.1).symm
  · have hnone : w.created[id]? = none := List.getElem?_eq_none (by omega)
    rw [List.getElem?_append_right (by omega), hnone]
    by_cases heq : id = w.created.length
    · simp [heq]
    · have hnone' : [(addr, len)][id - w.created.length]? = none :=
        List.getElem?_eq_none (by simp only [List.length_singleton]; omega)
      simp [heq, hnone']

/-- A new mapping of free memory keeps the account of mappings and bytes. -/
theorem Balanced.provide (h : Balanced w) (hfree : w.Free addr len) :
    Balanced (w.provide addr len) := by
  refine ⟨fun id a hid => ?_, fun id a hid => ?_, fun id a hmade hid => ?_, fun id a hid => ?_⟩
  · rw [made_provide]
    by_cases ha : addr ≤ a ∧ a < addr + len
    · rw [provide_host_of_mem ha, Option.some.injEq, Owner.mapping.injEq] at hid
      exact .inr ⟨hid.symm, ha⟩
    · rw [provide_host_of_not_mem ha] at hid
      exact .inl (h.made id a hid)
  · by_cases ha : addr ≤ a ∧ a < addr + len
    · rw [provide_host_of_mem ha, Option.some.injEq, Owner.mapping.injEq] at hid
      exact h.fresh id a (le_of_eq hid)
    · rw [provide_host_of_not_mem ha] at hid
      exact h.live id a hid
  · rcases made_provide.mp hmade with hmade | ⟨rfl, ha⟩
    · refine h.gone id a hmade fun hc => ?_
      by_cases ha : addr ≤ a ∧ a < addr + len
      · rw [hfree.host ha] at hc
        cases hc
      · rw [provide_host_of_not_mem ha] at hid
        exact hid hc
    · exact absurd (provide_host_of_mem ha) hid
  · refine h.fresh id a ?_
    simp only [World.provide, List.length_append, List.length_singleton] at hid
    omega

/-- Unmapping a range counts one more unmapping for each byte of the range, of the mapping it
belonged to. -/
theorem release_unmapped (w : World) (addr len id a : ℕ) :
    (w.release addr len).unmapped id a =
      if (addr ≤ a ∧ a < addr + len) ∧ w.host a = some (.mapping id) then w.unmapped id a + 1
      else w.unmapped id a := rfl

/-- Unmapping any range keeps the account of mappings and bytes. -/
theorem Balanced.release (h : Balanced w) (addr len : ℕ) : Balanced (w.release addr len) := by
  have hkeep : ∀ {id a}, (w.release addr len).host a = some (.mapping id) →
      ¬ (addr ≤ a ∧ a < addr + len) ∧ w.host a = some (.mapping id) := by
    intro id a hid
    by_cases ha : addr ≤ a ∧ a < addr + len
    · rw [release_host_of_mem ha] at hid
      cases hid
    · rw [release_host_of_not_mem ha] at hid
      exact ⟨ha, hid⟩
  refine ⟨fun id a hid => ?_, fun id a hid => ?_, fun id a hmade hid => ?_, fun id a hid => ?_⟩
  · exact h.made id a (hkeep hid).2
  · rw [release_unmapped, if_neg fun hc => (hkeep hid).1 hc.1]
    exact h.live id a (hkeep hid).2
  · rw [release_unmapped]
    by_cases hhost : w.host a = some (.mapping id)
    · have ha : addr ≤ a ∧ a < addr + len := by
        by_contra ha
        rw [release_host_of_not_mem ha] at hid
        exact hid hhost
      rw [if_pos ⟨ha, hhost⟩, h.live id a hhost]
    · rw [if_neg fun hc => hhost hc.2]
      exact h.gone id a hmade hhost
  · rw [release_unmapped, if_neg]
    · exact h.fresh id a hid
    · rintro ⟨-, hc⟩
      obtain ⟨x, hx, -⟩ := h.made id a hc
      have := (List.getElem?_eq_some_iff.mp hx).1
      exact absurd (lt_of_lt_of_le this hid) (Nat.lt_irrefl id)

end balance

/-! ## The abstract state -/

/-- The bytes of a range. -/
def span (addr len : ℕ) : Set ℕ := Set.Ico addr (addr + len)

/-- An address is in the span of a range exactly if it lies between its bounds. -/
theorem mem_span {addr len a : ℕ} : a ∈ span addr len ↔ addr ≤ a ∧ a < addr + len := Set.mem_Ico

/-- The `b`-th byte of a range lies in its span. -/
theorem add_mem_span {addr len b : ℕ} (h : b < len) : addr + b ∈ span addr len :=
  mem_span.mpr ⟨by omega, by omega⟩

/-- The stage-2 map is `f`, this run owns exactly the bytes `S` and others exactly `F`; what `f`
points to is owned. -/
structure At (f : ℕ → Option ℕ) (S F : Set ℕ) (w : World) : Prop where
  stage2 : w.stage2 = f
  owned : ∀ a, w.Owned a ↔ a ∈ S
  foreign : ∀ a, w.host a = some .foreign ↔ a ∈ F
  points : ∀ g a, f g = some a → a ∈ S
  balanced : Balanced w

section rules

variable {r : RamSize} {f : ℕ → Option ℕ} {S F : Set ℕ} {w : World} {addr len gpa a : ℕ}

/-- In a state where the stage-2 map points into what the run owns, nothing dangles. -/
theorem At.sound (h : At f S F w) : w.Sound := by
  intro g a hg
  rw [h.stage2] at hg
  exact (h.owned a).mpr (h.points g a hg)

/-- A byte that neither the run nor others own is not mapped. -/
theorem At.host_eq_none (h : At f S F w) (hS : a ∉ S) (hF : a ∉ F) : w.host a = none := by
  cases hhost : w.host a with
  | none => rfl
  | some o =>
      cases o with
      | foreign => exact absurd ((h.foreign a).mp hhost) hF
      | mapping id => exact absurd ((h.owned a).mp ⟨id, hhost⟩) hS

/-- No byte is owned both by the run and by others. -/
theorem At.not_mem_foreign (h : At f S F w) (ha : a ∈ S) : a ∉ F := by
  intro hF
  obtain ⟨id, hid⟩ := (h.owned a).mpr ha
  rw [(h.foreign a).mpr hF] at hid
  cases hid

/-- Every byte of a range that the run owns as a whole is owned by it. -/
theorem At.owned_of_subset (h : At f S F w) (hsub : span addr len ⊆ S) :
    ∀ b < len, w.Owned (addr + b) :=
  fun _ hb => (h.owned _).mpr (hsub (add_mem_span hb))

/-- A new mapping of free memory adds its range to what the run owns, and changes nothing else. -/
theorem At.provide (h : At f S F w) (hfree : w.Free addr len) :
    At f (S ∪ span addr len) F (w.provide addr len) where
  stage2 := h.stage2
  owned a := by
    rw [Set.mem_union, mem_span, ← h.owned a]
    by_cases ha : addr ≤ a ∧ a < addr + len
    · exact iff_of_true ⟨_, provide_host_of_mem ha⟩ (.inr ha)
    · unfold World.Owned
      rw [provide_host_of_not_mem ha]
      exact (or_iff_left ha).symm
  foreign a := by
    rw [← h.foreign a]
    by_cases ha : addr ≤ a ∧ a < addr + len
    · simp [provide_host_of_mem ha, hfree.host ha]
    · rw [provide_host_of_not_mem ha]
  points g a hg := .inl (h.points g a hg)
  balanced := h.balanced.provide hfree

/-- Unmapping a range of this run to which no stage-2 entry points removes it from what the run
owns, and changes nothing else. -/
theorem At.release (h : At f S F w) (hsub : span addr len ⊆ S)
    (hpoints : ∀ g a, f g = some a → a ∉ span addr len) :
    At f (S \ span addr len) F (w.release addr len) where
  stage2 := h.stage2
  owned a := by
    rw [Set.mem_sdiff, mem_span, ← h.owned a]
    unfold World.Owned
    by_cases ha : addr ≤ a ∧ a < addr + len
    · simp [release_host_of_mem ha, ha]
    · rw [release_host_of_not_mem ha]
      exact (and_iff_left ha).symm
  foreign a := by
    by_cases ha : addr ≤ a ∧ a < addr + len
    · have hF := h.not_mem_foreign (hsub (mem_span.mpr ha))
      simp [release_host_of_mem ha, hF]
    · rw [release_host_of_not_mem ha, h.foreign a]
  points g a hg := ⟨h.points g a hg, hpoints g a hg⟩
  balanced := h.balanced.release addr len

/-- The stage-2 map may be replaced by any other that points into what the run owns. -/
theorem At.remap (h : At f S F w) {f' : ℕ → Option ℕ} (hpoints : ∀ g a, f' g = some a → a ∈ S) :
    At f' S F { w with stage2 := f' } :=
  ⟨rfl, h.owned, h.foreign, hpoints,
    ⟨h.balanced.made, h.balanced.live, h.balanced.gone, h.balanced.fresh⟩⟩

/-! ### One rule for each operation -/

/-- `mmap` finds room apart from what the run owns, and adds it. -/
theorem triple_mmap : Triple World.step (Safe r) (At f S F) [.mmap addr len]
    fun w => (Disjoint S (span addr len) ∧ 0 < len) ∧ At f (S ∪ span addr len) F w := by
  refine Triple.single (fun w h => ⟨h.sound, trivial⟩) fun w w' h hstep => ?_
  simp only [World.step, Option.ite_none_right_eq_some, Option.some.injEq] at hstep
  obtain ⟨⟨hlen, hfree⟩, rfl⟩ := hstep
  refine ⟨⟨Set.disjoint_left.mpr fun a ha hspan => ?_, hlen⟩, h.provide hfree⟩
  obtain ⟨id, hid⟩ := (h.owned a).mpr ha
  rw [hfree.host (mem_span.mp hspan)] at hid
  cases hid

/-- `mmap(MAP_FIXED)` over a range where nothing is mapped is safe, and adds the range to what the
run owns. -/
theorem triple_mmapFixed (hS : Disjoint S (span addr len)) (hF : Disjoint F (span addr len)) :
    Triple World.step (Safe r) (At f S F) [.mmapFixed addr len]
      (At f (S ∪ span addr len) F) := by
  have hfree : ∀ w, At f S F w → w.Free addr len := fun w h b hb =>
    h.host_eq_none (fun hc => Set.disjoint_left.mp hS hc (add_mem_span hb))
      (fun hc => Set.disjoint_left.mp hF hc (add_mem_span hb))
  refine Triple.single (fun w h => ⟨h.sound, hfree w h⟩) fun w w' h hstep => ?_
  simp only [World.step, Option.some.injEq] at hstep
  subst hstep
  have hw : w.release addr len = w := by
    have hhost : (w.release addr len).host = w.host := by
      funext a
      by_cases ha : addr ≤ a ∧ a < addr + len
      · rw [release_host_of_mem ha, (hfree w h).host ha]
      · rw [release_host_of_not_mem ha]
    have hunmapped : (w.release addr len).unmapped = w.unmapped := by
      funext id a
      rw [release_unmapped, if_neg]
      rintro ⟨ha, hc⟩
      rw [(hfree w h).host ha] at hc
      cases hc
    calc w.release addr len
        = ⟨(w.release addr len).host, w.stage2, w.created, (w.release addr len).unmapped⟩ := rfl
      _ = w := by rw [hhost, hunmapped]
  rw [hw]
  exact h.provide (hfree w h)

/-- `munmap` of memory of this run to which no stage-2 entry points is safe, and removes it from
what the run owns. -/
theorem triple_munmap (hsub : span addr len ⊆ S)
    (hpoints : ∀ g a, f g = some a → a ∉ span addr len) :
    Triple World.step (Safe r) (At f S F) [.munmap addr len]
      fun w => Disjoint F (span addr len) ∧ At f (S \ span addr len) F w := by
  refine Triple.single (fun w h => ⟨h.sound, h.owned_of_subset hsub⟩) fun w w' h hstep => ?_
  simp only [World.step, Option.some.injEq] at hstep
  subst hstep
  refine ⟨Set.disjoint_right.mpr fun a ha => h.not_mem_foreign (hsub ha), ?_⟩
  exact h.release hsub hpoints

/-- `madvise` on memory of this run is safe, and changes no map. -/
theorem triple_madvise (hsub : span addr len ⊆ S) (advice : ℤ) :
    Triple World.step (Safe r) (At f S F) [.madvise addr len advice] (At f S F) := by
  refine Triple.single (fun w h => ⟨h.sound, h.owned_of_subset hsub⟩) fun w w' h hstep => ?_
  simp only [World.step, Option.some.injEq] at hstep
  exact hstep ▸ h

/-- The host's access to memory of this run is safe, and changes no map. -/
theorem triple_access (hsub : span addr len ⊆ S) :
    Triple World.step (Safe r) (At f S F) [.access addr len] (At f S F) := by
  refine Triple.single (fun w h => ⟨h.sound, h.owned_of_subset hsub⟩) fun w w' h hstep => ?_
  simp only [World.step, Option.some.injEq] at hstep
  exact hstep ▸ h

/-- `hv_vm_create` is safe where there is no stage-2 entry, and makes none. -/
theorem triple_hvVmCreate : Triple World.step (Safe r) (At (fun _ => none) S F) [.hvVmCreate]
    (At (fun _ => none) S F) := by
  refine Triple.single (fun w h => ⟨h.sound, fun g => by rw [h.stage2]⟩) fun w w' h hstep => ?_
  simp only [World.step, Option.some.injEq] at hstep
  subst hstep
  exact h.remap (by simp)

/-- `hv_vm_destroy` takes the whole stage-2 map with it. -/
theorem triple_hvVmDestroy : Triple World.step (Safe r) (At f S F) [.hvVmDestroy]
    (At (fun _ => none) S F) := by
  refine Triple.single (fun w h => ⟨h.sound, trivial⟩) fun w w' h hstep => ?_
  simp only [World.step, Option.some.injEq] at hstep
  subst hstep
  exact h.remap (by simp)

/-- `hv_vm_map` of memory of this run at guest-physical addresses that are not mapped. -/
theorem triple_hvVmMap (hnone : ∀ b < len, f (gpa + b) = none) (hsub : span addr len ⊆ S) :
    Triple World.step (Safe r) (At f S F) [.hvVmMap addr gpa len]
      (At (mapRange f gpa len addr) S F) := by
  refine Triple.single (fun w h => ⟨h.sound, ?_, h.owned_of_subset hsub⟩) fun w w' h hstep => ?_
  · rw [h.stage2]
    exact hnone
  · simp only [World.step, Option.some.injEq] at hstep
    subst hstep
    rw [h.stage2]
    refine h.remap fun g a hg => ?_
    rcases mapRange_eq_some hg with ⟨hle, hlt, rfl⟩ | ⟨-, hg⟩
    · exact hsub (add_mem_span (by omega))
    · exact h.points g a hg

/-- `hv_vm_unmap` of guest-physical addresses that are mapped is safe, and removes exactly these
from the stage-2 map. -/
theorem triple_hvVmUnmap (hsome : ∀ b < len, f (gpa + b) ≠ none) :
    Triple World.step (Safe r) (At f S F) [.hvVmUnmap gpa len]
      (At (setRange f gpa len none) S F) := by
  refine Triple.single (fun w h => ⟨h.sound, ?_⟩) fun w w' h hstep => ?_
  · change ∀ b < len, w.stage2 (gpa + b) ≠ none
    rw [h.stage2]
    exact hsome
  · simp only [World.step, Option.some.injEq] at hstep
    subst hstep
    rw [h.stage2]
    refine h.remap fun g a hg => ?_
    by_cases hmem : gpa ≤ g ∧ g < gpa + len
    · rw [setRange_of_mem hmem] at hg
      cases hg
    · rw [setRange_of_not_mem (by omega)] at hg
      exact h.points g a hg

/-- A guest pass over RAM that is mapped in order, at no second address. -/
theorem triple_pass {ram : ℕ} (p : Pass)
    (hram : ∀ off < r.bytes, f (ramGpa + off) = some (ram + off))
    (halias : ∀ g a, f g = some a → a ∈ span ram r.bytes → g = ramGpa + (a - ram)) :
    Triple World.step (Safe r) (At f S F) [.pass p ram] (At f S F) := by
  refine Triple.single (fun w h => ⟨h.sound, ?_⟩) fun w w' h hstep => ?_
  · unfold Allowed
    rw [h.stage2]
    exact ⟨hram, fun g a hg hle hlt => halias g a hg (mem_span.mpr ⟨hle, hlt⟩)⟩
  · simp only [World.step, Option.some.injEq] at hstep
    exact hstep ▸ h

end rules

end VmRatchet.Main
