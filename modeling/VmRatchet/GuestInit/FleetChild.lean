import Mathlib.Algebra.Group.Nat.Defs
import Mathlib.Data.List.Perm.Lattice
import VmRatchet.Lib.Run

/-!
# The services of the guest

`fleet_child` is what the command server's children run until they are killed: map the working set,
dirty it, and then write to one eighth of it after the other, for ever. The footprint that is
measured counts on two things: that the whole working set is dirty, and that it stays warm.

* `Service`, `Service.step` — the child, write by write.
* `step_refused`, `step_granted`, `step_dirtying`, `step_warming` — what one step does at each point;
  nothing later looks into `Service.step`.
* `Working`, `Working.step` — what a service has written, at every moment.
* `working_set_kept` — every write stays inside the mapping, and the working set is dirty once the
  rotation begins.
* `rotation_covers` — eight rounds, from whichever slot, write to each page of it once.
-/

namespace VmRatchet.GuestInit

open Transition

/-! ## The child -/

/-- Source: `guest-init/src/main.rs`, `STRIDE` -/
def stride : ℕ := 4096

/-- `mib << 20` in `usize`.
Source: `guest-init/src/main.rs`, `fleet_child` (`size`) -/
def childSize (mib : ℕ) : ℕ := (mib <<< 20) % 2 ^ 64

/-- Source: `guest-init/src/main.rs`, `fleet_child` (`slice`) -/
def childSlice (mib : ℕ) : ℕ := childSize mib / 8

/-- Where a service stands in `fleet_child`: in its request for a mapping, in one of its two loops,
or past its end. -/
inductive Point
  /-- Before `mmap`. -/
  | mapping
  /-- In the first loop. -/
  | dirtying (off : ℕ)
  /-- In a round of the second one. -/
  | warming (slot off : ℕ)
  /-- After `_exit(1)`. -/
  | exited
deriving DecidableEq, Repr

/-- A service process: where it stands, and what it has written. -/
structure Service where
  /-- Where it stands. -/
  point : Point
  /-- Its mapping, by offset; a fresh one reads as zeros. -/
  bytes : ℕ → BitVec 8
  /-- How many rounds it has completed. -/
  rounds : ℕ

/-- A child right after the `fork`: it has no mapping yet, and has written nothing. -/
def Service.init : Service := ⟨.mapping, fun _ => 0, 0⟩

/-- What happens next to a service: the kernel answers its request for a mapping, or the child does
the next thing it has to do. -/
inductive Tick
  /-- The kernel answers the request for a mapping; `none` is `MAP_FAILED`. -/
  | mmap (base : Option ℕ)
  /-- The child goes on: one test of a loop, and the write or the sleep after it. -/
  | go

/-- The offset that is written in a step, if one is: in the first loop each page in turn, in the
second the pages of the slot whose turn it is. -/
def Service.writes (mib : ℕ) (s : Service) : Tick → List ℕ
  | .mmap _ => []
  | .go =>
    match s.point with
    | .dirtying off => if off < childSize mib then [off] else []
    | .warming slot off => if off < slot * childSlice mib + childSlice mib then [off] else []
    | .mapping | .exited => []

/-- One step.
Source: `guest-init/src/main.rs`, `fleet_child` -/
def Service.step (mib : ℕ) (s : Service) (t : Tick) : Option Service :=
  match s.point, t with
  | .mapping, .mmap none => some { s with point := .exited }
  | .mapping, .mmap (some _) => some { s with point := .dirtying 0 }
  | .dirtying off, .go =>
    if off < childSize mib then
      some { s with point := .dirtying (off + stride), bytes := Function.update s.bytes off 0xA5 }
    else some { s with point := .warming 0 0 }
  | .warming slot off, .go =>
    if off < slot * childSlice mib + childSlice mib then
      some { s with
        point := .warming slot (off + stride), bytes := Function.update s.bytes off 0x5A }
    else
      let slot' := (slot + 1) % 8
      some { s with point := .warming slot' (slot' * childSlice mib), rounds := s.rounds + 1 }
  | .mapping, .go | .dirtying _, .mmap _ | .warming _ _, .mmap _ | .exited, _ => none

section equations

variable (mib rounds : ℕ) (bytes : ℕ → BitVec 8)

/-- A child that is refused its mapping exits. -/
theorem step_refused : Service.step mib ⟨.mapping, bytes, rounds⟩ (.mmap none) =
    some ⟨.exited, bytes, rounds⟩ := rfl

/-- A child that is granted its mapping begins its first loop, at the first page. -/
theorem step_granted (base : ℕ) : Service.step mib ⟨.mapping, bytes, rounds⟩ (.mmap (some base)) =
    some ⟨.dirtying 0, bytes, rounds⟩ := rfl

/-- In its first loop a child dirties the page at its offset and goes on to the next one; at the end
of the working set it begins its rotation. -/
theorem step_dirtying (off : ℕ) : Service.step mib ⟨.dirtying off, bytes, rounds⟩ .go =
    if off < childSize mib then
      some ⟨.dirtying (off + stride), Function.update bytes off 0xA5, rounds⟩
    else some ⟨.warming 0 0, bytes, rounds⟩ := rfl

/-- In a round a child writes to the page at its offset and goes on to the next one; at the end of
the slot it has completed the round, and begins the one over the next slot. -/
theorem step_warming (slot off : ℕ) : Service.step mib ⟨.warming slot off, bytes, rounds⟩ .go =
    if off < slot * childSlice mib + childSlice mib then
      some ⟨.warming slot (off + stride), Function.update bytes off 0x5A, rounds⟩
    else some ⟨.warming ((slot + 1) % 8) ((slot + 1) % 8 * childSlice mib), bytes,
      rounds + 1⟩ := rfl

end equations

/-! ## Sizes -/

/-- The size of a service is its number of MiB in bytes, modulo `2 ^ 44` MiB: the shift wraps at 64
bits. -/
theorem childSize_eq (mib : ℕ) : childSize mib = mib % 2 ^ 44 * 2 ^ 20 := by
  rw [childSize, Nat.shiftLeft_eq, show (2 : ℕ) ^ 64 = 2 ^ 44 * 2 ^ 20 from rfl,
    Nat.mul_mod_mul_right]

/-- Eight slices are the whole working set: nothing is lost to the division, since a MiB is
divisible by eight. -/
theorem eight_slices (mib : ℕ) : 8 * childSlice mib = childSize mib := by
  rw [childSlice, childSize_eq]
  omega

/-- How many pages a slice has; the size in bytes is taken in 64 bits, and one slice is an eighth of
it. -/
def slicePages (mib : ℕ) : ℕ := mib % 2 ^ 44 * 32

/-- A slice is a whole number of pages. -/
theorem childSlice_eq (mib : ℕ) : childSlice mib = slicePages mib * stride := by
  rw [childSlice, childSize_eq, slicePages, stride]
  omega

/-- The working set is a whole number of pages, eight times those of a slice. -/
theorem childSize_eq_pages (mib : ℕ) : childSize mib = 8 * slicePages mib * stride := by
  rw [← eight_slices, childSlice_eq, Nat.mul_assoc]

/-- The working set has eight times as many pages as a slice. -/
theorem childSize_pages (mib : ℕ) : childSize mib / stride = 8 * slicePages mib := by
  rw [childSize_eq_pages, Nat.mul_div_cancel _ (by decide : 0 < stride)]

/-! ## What has been written -/

/-- The mapping when the first `n` pages are dirty: the byte at the start of each of them is the
fill, all others are zero. -/
def dirtyTo (n : ℕ) : ℕ → BitVec 8 := fun o => if stride ∣ o ∧ o / stride < n then 0xA5 else 0

/-- In a round every page below the cursor is warm, and after eight rounds every page is. -/
def warmTo (mib rounds n : ℕ) : ℕ → BitVec 8 := fun o =>
  if stride ∣ o ∧ o / stride < 8 * slicePages mib then
    if 8 ≤ rounds ∨ o / stride < n then 0x5A else 0xA5
  else 0

/-- What a service has written so far, by the point where it stands: nothing before its mapping, the
pages up to the current one in the first loop, all pages in the second, whose writes change nothing,
and nothing when it was refused a mapping and exited. -/
inductive Working (mib : ℕ) : Service → Prop
  | mapping : Working mib ⟨.mapping, dirtyTo 0, 0⟩
  | exited : Working mib ⟨.exited, dirtyTo 0, 0⟩
  | dirtying (n : ℕ) (hn : n ≤ 8 * slicePages mib) :
      Working mib ⟨.dirtying (n * stride), dirtyTo n, 0⟩
  | warming (rounds n : ℕ) (hlo : rounds % 8 * slicePages mib ≤ n)
      (hhi : n ≤ rounds % 8 * slicePages mib + slicePages mib) :
      Working mib ⟨.warming (rounds % 8) (n * stride), warmTo mib rounds n, rounds⟩

/-- An offset is that of page `n` exactly if it is a multiple of the page size and `n` pages up. -/
theorem eq_cursor_iff {o n : ℕ} : o = n * stride ↔ stride ∣ o ∧ o / stride = n := by
  rw [stride]
  omega

/-- Writing `0xA5` to the page behind the first `n` dirty ones makes `n + 1` dirty ones. -/
theorem update_dirtyTo (n : ℕ) :
    Function.update (dirtyTo n) (n * stride) 0xA5 = dirtyTo (n + 1) := by
  funext o
  rw [Function.update_apply, dirtyTo, dirtyTo]
  by_cases ho : o = n * stride
  · obtain ⟨hdvd, hpage⟩ := eq_cursor_iff.mp ho
    rw [if_pos ho, if_pos ⟨hdvd, by omega⟩]
  · have hne : stride ∣ o → o / stride ≠ n := fun hdvd hpage => ho (eq_cursor_iff.mpr ⟨hdvd, hpage⟩)
    rw [if_neg ho]
    congr 1
    rw [eq_iff_iff]
    refine and_congr_right fun hdvd => ?_
    have := hne hdvd
    omega

/-- Working memory in which every page is dirty is that of a rotation that begins: no round is made,
and no page of the current slot is warm. -/
theorem dirtyTo_all (mib : ℕ) : dirtyTo (8 * slicePages mib) = warmTo mib 0 0 := by
  funext o
  rw [dirtyTo, warmTo, if_neg (c := 8 ≤ 0 ∨ o / stride < 0) (by simp)]

/-- Writing `0x5A` to the next page of the current slot makes one more page warm. -/
theorem update_warmTo {mib rounds n : ℕ} (hn : n < 8 * slicePages mib) :
    Function.update (warmTo mib rounds n) (n * stride) 0x5A = warmTo mib rounds (n + 1) := by
  funext o
  rw [Function.update_apply, warmTo, warmTo]
  by_cases ho : o = n * stride
  · obtain ⟨hdvd, hpage⟩ := eq_cursor_iff.mp ho
    rw [if_pos ho, if_pos ⟨hdvd, by omega⟩, if_pos (.inr (by omega))]
  · rw [if_neg ho]
    split
    · rename_i hpage
      have hne : o / stride ≠ n := fun h => ho (eq_cursor_iff.mpr ⟨hpage.1, h⟩)
      congr 1
      rw [eq_iff_iff]
      omega
    · rfl

/-- Each of the eight slots lies inside the working set. -/
theorem slot_le (mib rounds : ℕ) :
    rounds % 8 * slicePages mib + slicePages mib ≤ 8 * slicePages mib := by
  have hslot : (rounds % 8).succ ≤ 8 := Nat.succ_le_of_lt (Nat.mod_lt rounds (Nat.succ_pos 7))
  have hmul := Nat.mul_le_mul_right (slicePages mib) hslot
  rwa [Nat.succ_mul] at hmul

/-- The end of a round is the beginning of the next one. -/
theorem warmTo_next (mib rounds : ℕ) :
    warmTo mib rounds (rounds % 8 * slicePages mib + slicePages mib)
      = warmTo mib (rounds + 1) ((rounds + 1) % 8 * slicePages mib) := by
  funext o
  rw [warmTo, warmTo]
  split
  · rename_i hpage
    congr 1
    rw [eq_iff_iff]
    rcases Nat.lt_trichotomy (rounds + 1) 8 with hlt | heq | hgt
    · rw [Nat.mod_eq_of_lt hlt, Nat.mod_eq_of_lt (by omega : rounds < 8), Nat.add_mul, Nat.one_mul]
      omega
    · obtain rfl : rounds = 7 := by omega
      simp only [Nat.reduceMod]
      omega
    · exact ⟨fun _ => .inl (by omega), fun _ => .inl (by omega)⟩
  · rfl

section Step

variable {mib : ℕ} {s s' : Service} {t : Tick}

/-- An offset of whole pages lies below the size exactly if its page is one of the working set. -/
theorem page_lt {n : ℕ} : n * stride < childSize mib ↔ n < 8 * slicePages mib := by
  rw [childSize_eq_pages, stride]
  omega

/-- An offset of whole pages lies before the end of slot `k` exactly if its page does. -/
theorem page_lt_slot {k n : ℕ} : n * stride < k * childSlice mib + childSlice mib ↔
    n < k * slicePages mib + slicePages mib := by
  rw [childSlice_eq, ← Nat.mul_assoc, ← Nat.add_mul, stride]
  omega

/-- **One step** of a service keeps its memory in step with where it is: so many pages are dirty, or
every page is and so many of the current slot are warm. -/
theorem Working.step (h : Working mib s) (hstep : s.step mib t = some s') : Working mib s' := by
  cases h with
  | mapping =>
      cases t with
      | go => cases hstep
      | mmap base =>
          cases base with
          | none =>
              rw [step_refused, Option.some.injEq] at hstep
              exact hstep ▸ .exited
          | some base =>
              rw [step_granted, Option.some.injEq, ← Nat.zero_mul stride] at hstep
              exact hstep ▸ .dirtying 0 (Nat.zero_le _)
  | exited => cases hstep
  | dirtying n hn =>
      cases t with
      | mmap base => cases hstep
      | go =>
          simp only [step_dirtying, page_lt] at hstep
          split at hstep
          · rename_i hlt
            rw [Option.some.injEq, update_dirtyTo, ← Nat.succ_mul] at hstep
            exact hstep ▸ .dirtying (n + 1) hlt
          · obtain rfl : n = 8 * slicePages mib := by omega
            rw [Option.some.injEq, dirtyTo_all, ← Nat.zero_mul stride] at hstep
            exact hstep ▸ .warming 0 0 (by simp) (by simp)
  | warming rounds n hlo hhi =>
      cases t with
      | mmap base => cases hstep
      | go =>
          simp only [step_warming, page_lt_slot] at hstep
          split at hstep
          · rename_i hlt
            have hinside := slot_le mib rounds
            rw [Option.some.injEq, update_warmTo (by omega), ← Nat.succ_mul] at hstep
            exact hstep ▸ .warming rounds (n + 1) (by omega) hlt
          · obtain rfl : n = rounds % 8 * slicePages mib + slicePages mib := by omega
            have hslot : (rounds % 8 + 1) % 8 = (rounds + 1) % 8 := by omega
            rw [Option.some.injEq, warmTo_next, hslot, childSlice_eq, ← Nat.mul_assoc] at hstep
            exact hstep ▸ .warming (rounds + 1) _ (Nat.le_refl _) (Nat.le_add_right _ _)

/-- Whatever a service writes to is a page of its working set. -/
theorem Working.writes (h : Working mib s) {o : ℕ} (ho : o ∈ s.writes mib t) :
    stride ∣ o ∧ o < childSize mib := by
  cases t with
  | mmap base => exact absurd ho List.not_mem_nil
  | go =>
      cases h with
      | mapping => exact absurd ho List.not_mem_nil
      | exited => exact absurd ho List.not_mem_nil
      | dirtying n hn =>
          simp only [Service.writes] at ho
          split at ho
          · rename_i hlt
            rw [List.mem_singleton.mp ho]
            exact ⟨Nat.dvd_mul_left _ _, hlt⟩
          · exact absurd ho List.not_mem_nil
      | warming rounds n hlo hhi =>
          simp only [Service.writes, page_lt_slot] at ho
          split at ho
          · rename_i hlt
            have hinside := slot_le mib rounds
            rw [List.mem_singleton.mp ho]
            exact ⟨Nat.dvd_mul_left _ _, page_lt.mpr (by omega)⟩
          · exact absurd ho List.not_mem_nil

end Step

/-! ## Whole runs -/

/-- A fresh mapping has not been written to. -/
theorem working_init (mib : ℕ) : Working mib .init := by
  have hzero : dirtyTo 0 = fun _ => 0 := by
    funext o
    rw [dirtyTo, if_neg (by simp)]
  rw [Service.init, ← hzero]
  exact .mapping

/-- The child has its mapping: it is in its first or its second loop. -/
def Point.Mapped : Point → Prop
  | .dirtying _ | .warming _ _ => True
  | .mapping | .exited => False

/-- A service that has got its mapping never exits by itself: it goes on in its loops. -/
theorem mapped_step {mib : ℕ} {s s' : Service} {t : Tick} (h : s.point.Mapped)
    (hstep : s.step mib t = some s') : s'.point.Mapped := by
  obtain ⟨point, bytes, rounds⟩ := s
  cases point with
  | mapping => exact absurd h id
  | exited => exact absurd h id
  | dirtying off =>
      cases t with
      | mmap base => cases hstep
      | go =>
          rw [step_dirtying] at hstep
          split at hstep <;> exact Option.some.inj hstep ▸ trivial
  | warming slot off =>
      cases t with
      | mmap base => cases hstep
      | go =>
          rw [step_warming] at hstep
          split at hstep <;> exact Option.some.inj hstep ▸ trivial

/-- A child exits by itself only if it is refused the mapping, and then that was all it did: once it
has its mapping it stays in one of its two loops. -/
theorem refused_of_exited {mib : ℕ} {ts : List Tick} {s : Service}
    (hrun : run (Service.step mib) .init ts = some s) (h : s.point = .exited) :
    ts = [.mmap none] := by
  cases ts with
  | nil =>
      rw [run_nil, Option.some.injEq] at hrun
      rw [← hrun] at h
      cases h
  | cons t ts =>
      obtain ⟨u, hu, hrest⟩ := run_cons_eq_some.mp hrun
      cases t with
      | go => cases hu
      | mmap base =>
          cases base with
          | none =>
              rw [Service.init, step_refused, Option.some.injEq] at hu
              cases ts with
              | nil => rfl
              | cons t ts =>
                  obtain ⟨v, hv, -⟩ := run_cons_eq_some.mp hrest
                  rw [← hu] at hv
                  cases hv
          | some base =>
              rw [Service.init, step_granted, Option.some.injEq] at hu
              have hu' : u.point.Mapped := hu ▸ trivial
              have hs : s.point.Mapped := by
                have hall : Along (Service.step mib) (fun _ _ => True) u ts :=
                  .of_labels (fun _ _ _ => trivial) u
                exact run_invariant (I := fun s => s.point.Mapped)
                  (fun _ _ _ _ h hstep => mapped_step h hstep) hall hu' hrest
              rw [h] at hs
              exact absurd hs id

/-- The dirty offsets in a round are the pages of the working set. -/
theorem warmTo_ne_zero_iff {mib rounds n o : ℕ} :
    warmTo mib rounds n o ≠ 0 ↔ stride ∣ o ∧ o < childSize mib := by
  have hpage : o / stride < 8 * slicePages mib ↔ o < childSize mib := by
    rw [childSize_eq_pages, Nat.div_lt_iff_lt_mul (by decide)]
  rw [warmTo, ← hpage]
  split
  · rename_i hin
    refine iff_of_true ?_ hin
    split <;> decide
  · rename_i hout
    exact iff_of_false (fun h => h rfl) hout

/-- After eight rounds each of them has been written again. -/
theorem warmTo_of_ne_zero {mib rounds n o : ℕ} (h8 : 8 ≤ rounds)
    (h : warmTo mib rounds n o ≠ 0) : warmTo mib rounds n o = 0x5A := by
  rw [warmTo] at h ⊢
  split at h
  · rename_i hin
    rw [if_pos hin, if_pos (.inl h8)]
  · exact absurd rfl h

/-- **The working set is kept.** For every size that is asked for, whatever the kernel answers and
however far the child has come when it is killed: every write was at a page of its mapping; a child
that has exited has written nothing; and from the first round on every page of the working set is
dirty, and nothing else, and from the eighth on every page has been written again. -/
theorem working_set_kept (mib : ℕ) {ts : List Tick} {s : Service}
    (hrun : run (Service.step mib) .init ts = some s) :
    (∀ o ∈ observed (Service.step mib) (Service.writes mib) .init ts,
        stride ∣ o ∧ o < childSize mib)
      ∧ (s.point = .exited →
        observed (Service.step mib) (Service.writes mib) .init ts = [] ∧ ∀ o, s.bytes o = 0)
      ∧ (∀ slot off, s.point = .warming slot off → slot = s.rounds % 8
        ∧ (∀ o, s.bytes o ≠ 0 ↔ stride ∣ o ∧ o < childSize mib)
        ∧ (8 ≤ s.rounds → ∀ o, s.bytes o ≠ 0 → s.bytes o = 0x5A)) := by
  have hall : Along (Service.step mib) (fun _ _ => True) .init ts :=
    .of_labels (fun _ _ _ => trivial) _
  have hworking : Working mib s :=
    run_invariant (fun _ _ _ _ h hstep => h.step hstep) hall (working_init mib) hrun
  refine ⟨?_, fun hexit => ?_, fun slot off hwarm => ?_⟩
  · exact forall_observed (fun _ _ _ _ h hstep => h.step hstep)
      (fun _ _ _ _ h _ o ho => h.writes ho) hall (working_init mib) hrun
  · obtain rfl := refused_of_exited hrun hexit
    obtain ⟨u, hu, hrest⟩ := run_cons_eq_some.mp hrun
    rw [Service.init, step_refused, Option.some.injEq] at hu
    rw [run_nil, Option.some.injEq, ← hu] at hrest
    rw [← hrest]
    exact ⟨rfl, fun _ => rfl⟩
  · cases hworking with
    | mapping => cases hwarm
    | exited => cases hwarm
    | dirtying n hn => cases hwarm
    | warming rounds n hlo hhi =>
        obtain ⟨rfl, -⟩ := Point.warming.inj hwarm
        exact ⟨rfl, fun o => warmTo_ne_zero_iff, fun h8 o ho => warmTo_of_ne_zero h8 ho⟩

/-! ## The rotation -/

section Rotation

variable {mib : ℕ}

/-- From the cursor at page `n` of a slot the next `k` pages can be written, one by one, as long as
they lie in the slot, and nothing else is written. -/
theorem run_pages (slot rounds : ℕ) {n k : ℕ} (bytes : ℕ → BitVec 8)
    (h : n + k ≤ slot * slicePages mib + slicePages mib) :
    ∃ bytes', run (Service.step mib) ⟨.warming slot (n * stride), bytes, rounds⟩
        (List.replicate k .go) = some ⟨.warming slot ((n + k) * stride), bytes', rounds⟩
      ∧ observed (Service.step mib) (Service.writes mib) ⟨.warming slot (n * stride), bytes, rounds⟩
        (List.replicate k .go) = (List.range' n k).map (· * stride) := by
  induction k generalizing n bytes with
  | zero => exact ⟨bytes, rfl, rfl⟩
  | succ k ih =>
      have hlt : n < slot * slicePages mib + slicePages mib := by omega
      have hstep : Service.step mib ⟨.warming slot (n * stride), bytes, rounds⟩ .go
          = some ⟨.warming slot ((n + 1) * stride), Function.update bytes (n * stride) 0x5A,
            rounds⟩ := by
        rw [step_warming, if_pos (page_lt_slot.mpr hlt), Nat.succ_mul]
      have hwrites : Service.writes mib ⟨.warming slot (n * stride), bytes, rounds⟩ .go
          = [n * stride] := by
        simp only [Service.writes, page_lt_slot, if_pos hlt]
      obtain ⟨bytes', hrun, hobs⟩ := ih (n := n + 1) (Function.update bytes (n * stride) 0x5A)
        (by omega)
      refine ⟨bytes', ?_, ?_⟩
      · rw [List.replicate_succ, run_cons_eq_some]
        refine ⟨_, hstep, ?_⟩
        rw [hrun, Nat.add_right_comm, Nat.add_assoc]
      · rw [List.replicate_succ, observed_cons hstep, hwrites, hobs, List.range'_succ]
        rfl

/-- At the end of a slot the service counts a round, writes nothing, and goes to the start of the
next slot. -/
theorem step_slot_end {rounds n : ℕ} (bytes : ℕ → BitVec 8)
    (hn : n = rounds % 8 * slicePages mib + slicePages mib) :
    Service.step mib ⟨.warming (rounds % 8) (n * stride), bytes, rounds⟩ .go
      = some ⟨.warming ((rounds + 1) % 8) ((rounds + 1) % 8 * slicePages mib * stride), bytes,
        rounds + 1⟩
      ∧ Service.writes mib ⟨.warming (rounds % 8) (n * stride), bytes, rounds⟩ .go = [] := by
  have hge : ¬ n < rounds % 8 * slicePages mib + slicePages mib := by omega
  have hslot : (rounds % 8 + 1) % 8 = (rounds + 1) % 8 := by omega
  constructor
  · rw [step_warming, if_neg (mt page_lt_slot.mp hge), hslot, childSlice_eq, ← Nat.mul_assoc]
  · simp only [Service.writes, page_lt_slot, if_neg hge]

/-- The pages of a slot, as offsets: the consecutive pages of one slice. -/
def slotPages (mib slot : ℕ) : List ℕ :=
  (List.range' (slot * slicePages mib) (slicePages mib)).map (· * stride)

/-- From a cursor in a slot to the end of the round. -/
theorem run_round (rounds : ℕ) {n k : ℕ} (bytes : ℕ → BitVec 8)
    (h : n + k = rounds % 8 * slicePages mib + slicePages mib) :
    ∃ bytes', run (Service.step mib) ⟨.warming (rounds % 8) (n * stride), bytes, rounds⟩
        (List.replicate (k + 1) .go)
        = some ⟨.warming ((rounds + 1) % 8) ((rounds + 1) % 8 * slicePages mib * stride), bytes',
          rounds + 1⟩
      ∧ observed (Service.step mib) (Service.writes mib)
          ⟨.warming (rounds % 8) (n * stride), bytes, rounds⟩ (List.replicate (k + 1) .go)
        = (List.range' n k).map (· * stride) := by
  obtain ⟨bytes', hrun, hobs⟩ := run_pages _ rounds bytes (Nat.le_of_eq h)
  obtain ⟨hstep, hwrites⟩ := step_slot_end bytes' h
  refine ⟨bytes', ?_, ?_⟩
  · rw [List.replicate_succ', run_append]
    exact ⟨_, hrun, run_cons_eq_some.mpr ⟨_, hstep, rfl⟩⟩
  · rw [List.replicate_succ', observed_append hrun, hobs, observed_cons hstep, hwrites]
    exact List.append_nil _

/-- Whole rounds can be run one slot after the other, and write each page of those slots once, in
order. -/
theorem run_rounds (r rounds : ℕ) (bytes : ℕ → BitVec 8) :
    ∃ bytes', run (Service.step mib)
        ⟨.warming (rounds % 8) (rounds % 8 * slicePages mib * stride), bytes, rounds⟩
        (List.replicate (r * (slicePages mib + 1)) .go)
        = some ⟨.warming ((rounds + r) % 8) ((rounds + r) % 8 * slicePages mib * stride), bytes',
          rounds + r⟩
      ∧ observed (Service.step mib) (Service.writes mib)
          ⟨.warming (rounds % 8) (rounds % 8 * slicePages mib * stride), bytes, rounds⟩
          (List.replicate (r * (slicePages mib + 1)) .go)
        = (List.range r).flatMap fun i => slotPages mib ((rounds + i) % 8) := by
  induction r with
  | zero => exact ⟨bytes, by rw [Nat.zero_mul]; rfl, by rw [Nat.zero_mul]; rfl⟩
  | succ r ih =>
      obtain ⟨bytes', hrun, hobs⟩ := ih
      obtain ⟨bytes'', hrun', hobs'⟩ := run_round (rounds + r) bytes' rfl
      refine ⟨bytes'', ?_, ?_⟩
      · rw [Nat.succ_mul, List.replicate_add, run_append]
        exact ⟨_, hrun, hrun'⟩
      · rw [Nat.succ_mul, List.replicate_add, observed_append hrun, hobs, hobs', List.range_succ,
          List.flatMap_append, List.flatMap_singleton, slotPages]

/-- Blocks of one length, one after the other, make up the whole range. -/
theorem flatMap_blocks (m a : ℕ) :
    ((List.range a).flatMap fun i => List.range' (i * m) m) = List.range (a * m) := by
  induction a with
  | zero => rw [Nat.zero_mul]; rfl
  | succ a ih =>
      rw [List.range_succ, List.flatMap_append, ih, List.flatMap_singleton, Nat.succ_mul,
        List.range_eq_range', List.range_eq_range', ← List.range'_append_1, Nat.zero_add]

/-- Eight slots in a row, from whichever, are all of them. -/
theorem eight_slots (mib rounds : ℕ) :
    ((List.range 8).flatMap fun i => slotPages mib ((rounds + i) % 8)).Perm
      ((List.range (8 * slicePages mib)).map (· * stride)) := by
  have hslots : ∀ slot < 8,
      ((List.range 8).map fun i => (slot + i) % 8).Perm (List.range 8) := by decide
  have hmod : ((List.range 8).map fun i => (rounds + i) % 8)
      = (List.range 8).map fun i => (rounds % 8 + i) % 8 := by
    refine List.map_congr_left fun i _ => ?_
    rw [Nat.mod_add_mod]
  have hperm := hslots (rounds % 8) (Nat.mod_lt _ (by decide))
  rw [← hmod] at hperm
  have hflat := hperm.flatMap_right (slotPages mib)
  rw [List.flatMap_map] at hflat
  refine hflat.trans (List.Perm.of_eq ?_)
  rw [← flatMap_blocks, List.map_flatMap]
  rfl

/-- The first loop of a service ends after all pages, at the start of the rotation. -/
theorem run_dirtying {n k : ℕ} (bytes : ℕ → BitVec 8) (h : n + k = 8 * slicePages mib) :
    ∃ bytes', run (Service.step mib) ⟨.dirtying (n * stride), bytes, 0⟩
      (List.replicate (k + 1) .go) = some ⟨.warming 0 0, bytes', 0⟩ := by
  induction k generalizing n bytes with
  | zero =>
      have hge : ¬ n < 8 * slicePages mib := by omega
      refine ⟨bytes, run_cons_eq_some.mpr ⟨_, ?_, rfl⟩⟩
      rw [step_dirtying, if_neg (mt page_lt.mp hge)]
  | succ k ih =>
      have hlt : n < 8 * slicePages mib := by omega
      obtain ⟨bytes', hrun⟩ := ih (n := n + 1) (Function.update bytes (n * stride) 0xA5) (by omega)
      refine ⟨bytes', run_cons_eq_some.mpr ⟨_, ?_, hrun⟩⟩
      rw [step_dirtying, if_pos (page_lt.mpr hlt), Nat.succ_mul]

/-- A child that is granted its mapping gets to its rotation, after as many steps as the working set
has pages and two more. -/
theorem run_to_rotation (mib base : ℕ) :
    ∃ bytes, run (Service.step mib) .init
      (.mmap (some base) :: List.replicate (8 * slicePages mib + 1) .go)
        = some ⟨.warming 0 0, bytes, 0⟩ := by
  obtain ⟨bytes, hrun⟩ := run_dirtying (n := 0) (fun _ => 0) (Nat.zero_add (8 * slicePages mib))
  rw [Nat.zero_mul] at hrun
  exact ⟨bytes, run_cons_eq_some.mpr ⟨_, rfl, hrun⟩⟩

end Rotation

/-- For one MiB: the pages that are dirty when the rotation begins are exactly those of the working
set. -/
theorem working_set_kept_one :
    ∃ bytes, run (Service.step 1) .init
        (.mmap (some 0x1000) :: List.replicate (8 * slicePages 1 + 1) .go)
          = some ⟨.warming 0 0, bytes, 0⟩
      ∧ ∀ o, bytes o ≠ 0 ↔ stride ∣ o ∧ o < childSize 1 := by
  obtain ⟨bytes, hrun⟩ := run_to_rotation 1 0x1000
  exact ⟨bytes, hrun, ((working_set_kept 1 hrun).2.2 0 0 rfl).2.1⟩

/-- **The rotation covers the working set.** A child that is granted its mapping gets to the
rotation, and there, from every state that it reaches, the steps of eight rounds can be taken, lead
back to the same place, and write to every page of the working set exactly once, also when they
begin in the middle of a round. -/
theorem rotation_covers (mib base : ℕ) :
    (∃ s, run (Service.step mib) .init
        (.mmap (some base) :: List.replicate (8 * slicePages mib + 1) .go) = some s
      ∧ s.point = .warming 0 0)
    ∧ ∀ (ts : List Tick) (s : Service) (slot off : ℕ),
      run (Service.step mib) .init ts = some s → s.point = .warming slot off →
      ∃ s', run (Service.step mib) s (List.replicate (8 * (slicePages mib + 1)) .go) = some s'
        ∧ s'.point = s.point ∧ s'.rounds = s.rounds + 8
        ∧ (observed (Service.step mib) (Service.writes mib) s
            (List.replicate (8 * (slicePages mib + 1)) .go)).Perm
          ((List.range (childSize mib / stride)).map (· * stride)) := by
  constructor
  · obtain ⟨bytes, hrun⟩ := run_to_rotation mib base
    exact ⟨_, hrun, rfl⟩
  · intro ts s slot off hrun hwarm
    have hall : Along (Service.step mib) (fun _ _ => True) .init ts :=
      .of_labels (fun _ _ _ => trivial) _
    have hworking : Working mib s :=
      run_invariant (fun _ _ _ _ h hstep => h.step hstep) hall (working_init mib) hrun
    cases hworking with
    | mapping => cases hwarm
    | exited => cases hwarm
    | dirtying n hn => cases hwarm
    | warming rounds n hlo hhi =>
        -- The rest of this round, seven rounds, and as much of this slot as had been done.
        obtain ⟨done, rfl⟩ := Nat.exists_eq_add_of_le hlo
        obtain ⟨left, hleft⟩ := Nat.exists_eq_add_of_le hhi
        have hslot : done + left = slicePages mib := by omega
        obtain ⟨bytes₁, hrun₁, hobs₁⟩ := run_round rounds
          (warmTo mib rounds (rounds % 8 * slicePages mib + done)) hleft.symm
        obtain ⟨bytes₂, hrun₂, hobs₂⟩ := run_rounds 7 (rounds + 1) bytes₁
        have hback : (rounds + 1 + 7) % 8 = rounds % 8 := by omega
        rw [hback] at hrun₂
        obtain ⟨bytes₃, hrun₃, hobs₃⟩ := run_pages (rounds % 8) (rounds + 1 + 7) (k := done)
          bytes₂ (n := rounds % 8 * slicePages mib) (by omega)
        have hsteps : 8 * (slicePages mib + 1)
            = (left + 1) + (7 * (slicePages mib + 1) + done) := by omega
        refine ⟨⟨.warming (rounds % 8) ((rounds % 8 * slicePages mib + done) * stride), bytes₃,
          rounds + 1 + 7⟩, ?_, rfl, rfl, ?_⟩
        · rw [hsteps, List.replicate_add, run_append]
          refine ⟨_, hrun₁, ?_⟩
          rw [List.replicate_add, run_append]
          exact ⟨_, hrun₂, hrun₃⟩
        · rw [hsteps, List.replicate_add, observed_append hrun₁, hobs₁, List.replicate_add,
            observed_append hrun₂, hobs₂, hobs₃, ← List.append_assoc]
          refine List.perm_append_comm.trans ?_
          rw [← List.append_assoc, ← List.map_append, List.range'_append_1, hslot, ← slotPages]
          have hall := eight_slots mib rounds
          rw [← childSize_pages] at hall
          refine List.Perm.trans (List.Perm.of_eq ?_) hall
          rw [List.range_succ_eq_map, List.flatMap_cons, List.flatMap_map]
          congr 1

/-- For one MiB: the first eight rounds lead back to where the rotation began. -/
theorem rotation_covers_one :
    ∃ s s', run (Service.step 1) .init
        (.mmap (some 0x1000) :: List.replicate (8 * slicePages 1 + 1) .go) = some s
      ∧ run (Service.step 1) s (List.replicate (8 * (slicePages 1 + 1)) .go) = some s'
      ∧ s'.point = .warming 0 0 := by
  obtain ⟨⟨s, hrun, hpoint⟩, hround⟩ := rotation_covers 1 0x1000
  obtain ⟨s', hrun', hback, -⟩ := hround _ s 0 0 hrun hpoint
  exact ⟨s, s', hrun, hrun', hback.trans hpoint⟩

end VmRatchet.GuestInit
