import VmRatchet.Lib.Pages
import VmRatchet.Main.Fleet

/-!
# Markers and surveys

Three pairs of a writer and a survey tell pages that were discarded from pages that were kept: the
canary of the pressure experiments, the two buffers of `pressure-discard`, and guest RAM after the
guest's touch pass, whose writer is the machine code of the guest. Each writes a marker that
depends on the page's offset into the first word of every page, and later compares.

* `Canary.arm`, `Canary.survey`, `Verdict.conclusive` — the canary.
* `fill`, `survey` — the buffers.
* `runTouchPass`, `parkedSurvey` — guest RAM.
* `patternAt_ne_zero`, `ramAddr_ne_zero` — no marker is the zero of a discarded page.
* `Surveyed` — the three surveys count the discarded pages; `surveys_count_discarded`.

Discarded pages read as zeros (`ByteMemory.zeroPages`).
-/

namespace VmRatchet.Ledger

open ByteMemory Guest
open Main (stepBy)

/-! ## The markers -/

/-- Source: `canary.rs`, `PATTERN`; `pressure-discard/src/main.rs`, `PATTERN` -/
def pattern : BitVec 64 := 0xC0DED00DFEEDFACE

/-- `PATTERN ^ off as u64` -/
def patternAt (off : ℕ) : BitVec 64 := pattern ^^^ BitVec.ofNat 64 off

/-- The loop that writes a marker into every page of a buffer. -/
def writeMarkers (marker : ℕ → BitVec 64) (ptr size : ℕ) (m : Mem) : Mem :=
  (stepBy size page).foldl (fun m off => store64 m (ptr + off) (marker off)) m

/-! ## The canary -/

/-- Source: `canary.rs`, `Canary` -/
structure Canary where
  ptr : ℕ
  size : ℕ

/-- Source: `canary.rs`, `Verdict` -/
structure Verdict where
  discarded : ℕ
  total : ℕ
  deriving DecidableEq

/-- Source: `canary.rs`, `Verdict::conclusive` -/
def Verdict.conclusive (v : Verdict) : Bool := decide (v.total ≤ v.discarded * 2 % 2 ^ 64)

/-- The canary's pages are marked.
Source: `canary.rs`, `Canary::arm` (the loop) -/
def Canary.mark (c : Canary) : Mem → Mem := writeMarkers patternAt c.ptr c.size

/-- A canary of `gib` GiB, at the address `mmap` returned.
Source: `canary.rs`, `Canary::arm` -/
def Canary.arm (ptr gib : ℕ) (m : Mem) : Canary × Mem :=
  let c : Canary := ⟨ptr, (gib <<< 30) % 2 ^ 64⟩
  (c, c.mark m)

/-- Source: `canary.rs`, `Canary::survey` -/
def Canary.survey (c : Canary) (m : Mem) : Verdict where
  discarded := (stepBy c.size page).foldl
    (fun discarded off => if load64 m (c.ptr + off) ≠ patternAt off then discarded + 1
      else discarded) 0
  total := c.size / page

/-! ## The buffers of `pressure-discard` -/

/-- Source: `pressure-discard/src/main.rs`, `fill` -/
def fill : ℕ → ℕ → Mem → Mem := writeMarkers patternAt

/-- The pages whose marker survived, and those that read zero.
Source: `pressure-discard/src/main.rs`, `survey` -/
def survey (ptr size : ℕ) (m : Mem) : ℕ × ℕ :=
  (stepBy size page).foldl
    (fun (intact, zeroed) off =>
      let v := load64 m (ptr + off)
      if v = patternAt off then (intact + 1, zeroed)
      else if v = 0 then (intact, zeroed + 1)
      else (intact, zeroed)) (0, 0)

/-! ## Guest RAM -/

/-- Source: `guest.rs`, `run_touch_pass` -/
def runTouchPass (mapped : ℕ → Bool) (sched : CancelSchedule) (entries ramSize : ℕ) :
    Vm → PassResult :=
  runTouchRange mapped sched entries 0 ramSize

/-- The pages that hold the guest-physical address the guest wrote, and the others. The host reads
guest RAM through its own mapping.
Source: `main.rs`, `parked_pressure_check` (the loop over `off`) -/
def parkedSurvey (ramSize : ℕ) (m : Mem) : ℕ × ℕ :=
  (stepBy ramSize page).foldl
    (fun (intact, lost) off =>
      let v := load64 m (ramGpa + off)
      if v = ramAddr off then (intact + 1, lost) else (intact, lost + 1)) (0, 0)

/-! ## No marker is zero -/

/-- A page offset has its low 14 bits clear, and the pattern has not. -/
theorem patternAt_ne_zero {off : ℕ} (h : page ∣ off) : patternAt off ≠ 0 := by
  intro hzero
  have heq : BitVec.ofNat 64 off = pattern := by
    have := congrArg (pattern ^^^ ·) hzero
    simpa [patternAt, ← BitVec.xor_assoc] using this
  have hmod : (BitVec.ofNat 64 off).toNat % page = 0 := by
    rw [BitVec.toNat_ofNat]
    obtain ⟨k, rfl⟩ := h
    rw [page_eq]
    omega
  rw [heq] at hmod
  exact absurd hmod (by decide)

/-- Below `2 ^ 63` a guest-physical address of guest RAM does not wrap. -/
theorem ramAddr_ne_zero {off : ℕ} (h : off < 2 ^ 63) : ramAddr off ≠ 0 := by
  intro hzero
  have hnat := congrArg BitVec.toNat hzero
  rw [ramAddr, BitVec.toNat_ofNat, show ramGpa = 2 ^ 31 from rfl] at hnat
  change _ = 0 at hnat
  omega

/-! ## Counting -/

section counting

variable {m : Mem} {ptr size : ℕ} {D : Finset ℕ} {marker : ℕ → BitVec 64}

/-- What the pages hold once markers were written and the pages of `D` discarded. -/
structure Marked (marker : ℕ → BitVec 64) (ptr size : ℕ) (D : Finset ℕ) (m : Mem) : Prop where
  pages : ∀ i < size / page,
    load64 m (ptr + i * page) = if i ∈ D then 0 else marker (i * page)
  marker_ne : ∀ i < size / page, marker (i * page) ≠ 0

/-- Writing the markers over a range of whole pages marks each of its pages with the marker of its
offset. -/
theorem writeMarkers_eq (hpos : 0 < size) (hdvd : page ∣ size) : writeMarkers marker ptr size m =
    markPages ptr page (fun i => marker (i * page)) (size / page) m := by
  rw [writeMarkers, Main.stepBy_of_dvd hdvd hpos, List.foldl_map]
  rfl

/-- After the markers are written and the pages of `D` discarded, those read zero and all others
their marker. -/
theorem marked_of_writeMarkers (hpos : 0 < size) (hdvd : page ∣ size)
    (hne : ∀ i < size / page, marker (i * page) ≠ 0) :
    Marked marker ptr size D (zeroPages ptr page D (writeMarkers marker ptr size m)) where
  pages i hi := by
    rw [load64_zeroPages (by decide), writeMarkers_eq hpos hdvd,
      load64_markPages (by decide) hi]
  marker_ne := hne

/-- A page is as it was marked exactly if it was not discarded. -/
theorem Marked.eq_iff (hm : Marked marker ptr size D m) {i : ℕ} (hi : i < size / page) :
    load64 m (ptr + i * page) = marker (i * page) ↔ i ∉ D := by
  rw [hm.pages i hi]
  split_ifs with h
  · exact ⟨fun hz => absurd hz.symm (hm.marker_ne i hi), fun hn => absurd h hn⟩
  · exact ⟨fun _ => h, fun _ => rfl⟩

/-- The pages that differ from their marker are as many as were discarded. -/
theorem Marked.countP_ne (hm : Marked marker ptr size D m)
    (hD : D ⊆ Finset.range (size / page)) :
    (List.range (size / page)).countP
      (fun i => decide (load64 m (ptr + i * page) ≠ marker (i * page))) = D.card := by
  rw [← countP_mem_range hD]
  refine List.countP_congr fun i hi => ?_
  have := hm.eq_iff (List.mem_range.mp hi)
  simp only [decide_eq_true_eq, ne_eq, this, not_not]

/-- The pages that still hold their marker are all the others. -/
theorem Marked.countP_eq (hm : Marked marker ptr size D m)
    (hD : D ⊆ Finset.range (size / page)) :
    (List.range (size / page)).countP
      (fun i => decide (load64 m (ptr + i * page) = marker (i * page))) =
        size / page - D.card := by
  rw [← countP_not_mem_range hD]
  refine List.countP_congr fun i hi => ?_
  have := hm.eq_iff (List.mem_range.mp hi)
  simp only [decide_eq_true_eq, this]

/-- The canary's survey counts as lost exactly the discarded pages, out of all its pages. -/
theorem Marked.canary_survey {c : Canary} (hm : Marked patternAt c.ptr c.size D m)
    (hpos : 0 < c.size) (hdvd : page ∣ c.size) (hD : D ⊆ Finset.range (c.size / page)) :
    c.survey m = ⟨D.card, c.size / page⟩ := by
  have hcount := foldl_count (fun i => decide (load64 m (c.ptr + i * page) ≠ patternAt (i * page)))
    (List.range (c.size / page)) 0
  simp only [decide_eq_true_eq] at hcount
  rw [Canary.survey, Main.stepBy_of_dvd hdvd hpos, List.foldl_map, hcount, hm.countP_ne hD,
    Nat.zero_add]

/-- The survey of a buffer: a page that lost its marker reads zero. -/
theorem Marked.survey (hm : Marked patternAt ptr size D m) (hpos : 0 < size) (hdvd : page ∣ size)
    (hD : D ⊆ Finset.range (size / page)) :
    survey ptr size m = (size / page - D.card, D.card) := by
  have hcount := foldl_count_two
    (fun i => decide (load64 m (ptr + i * page) = patternAt (i * page)))
    (fun i => decide (load64 m (ptr + i * page) = 0)) (List.range (size / page)) 0 0
  simp only [decide_eq_true_eq] at hcount
  have hzero : (List.range (size / page)).countP (fun i =>
      !decide (load64 m (ptr + i * page) = patternAt (i * page)) &&
        decide (load64 m (ptr + i * page) = 0)) = D.card := by
    rw [← hm.countP_ne hD]
    refine List.countP_congr fun i hi => ?_
    have hi := List.mem_range.mp hi
    have heq := hm.eq_iff hi
    simp only [Bool.and_eq_true, Bool.not_eq_true', decide_eq_false_iff_not, decide_eq_true_eq,
      ne_eq, and_iff_left_iff_imp, heq, not_not]
    intro hmem
    rw [hm.pages i hi, if_pos hmem]
  rw [Ledger.survey, Main.stepBy_of_dvd hdvd hpos, List.foldl_map, hcount, hm.countP_eq hD, hzero,
    Nat.zero_add, Nat.zero_add]

/-- The survey of guest RAM counts the pages that were not discarded as intact and the discarded
ones as lost. -/
theorem Marked.parkedSurvey (hm : Marked ramAddr ramGpa size D m) (hpos : 0 < size)
    (hdvd : page ∣ size) (hD : D ⊆ Finset.range (size / page)) :
    parkedSurvey size m = (size / page - D.card, D.card) := by
  have hcount := foldl_count_two
    (fun i => decide (load64 m (ramGpa + i * page) = ramAddr (i * page)))
    (fun _ => true) (List.range (size / page)) 0 0
  simp only [decide_eq_true_eq, if_true, Bool.and_true] at hcount
  have hne : (List.range (size / page)).countP (fun i =>
      !decide (load64 m (ramGpa + i * page) = ramAddr (i * page))) = D.card := by
    rw [← hm.countP_ne hD]
    refine List.countP_congr fun i _ => ?_
    simp only [Bool.not_eq_true', decide_eq_false_iff_not, decide_eq_true_eq, ne_eq]
  rw [Ledger.parkedSurvey, Main.stepBy_of_dvd hdvd hpos, List.foldl_map, hcount, hm.countP_eq hD,
    hne, Nat.zero_add, Nat.zero_add]

end counting

/-! ## The guest's markers -/

/-- The touch pass marks every page of guest RAM with its address. -/
theorem runTouchPass_marks {size : ℕ} (hpos : 0 < size) (hdvd : page ∣ size)
    (hsize : size ≤ 2 ^ 63) (vm : Vm) (sched : CancelSchedule) :
    ∃ bound vm', (∀ entries ≥ bound,
        runTouchPass (ramMapped size) sched entries size vm = .returned vm') ∧
      ∀ D, Marked ramAddr ramGpa size D (zeroPages ramGpa page D vm'.mem) := by
  let r : RamSize := ⟨size, hpos, hdvd, by rw [show ramGpa = 2 ^ 31 from rfl]; omega⟩
  obtain ⟨bound, vm', hret, heff, -⟩ := Main.runPass_aligned (r := r) (p := ⟨.touch, 0, size, 0⟩)
    hpos (dvd_zero page) hdvd le_rfl vm sched
  have hpages : (size - 0 + (page - 1)) / page = size / page := by
    rw [page_eq] at *
    omega
  refine ⟨bound, vm', hret, fun D => ⟨fun i hi => ?_, fun i hi => ?_⟩⟩
  · have hword := heff.words i (by rw [hpages]; exact hi)
    rw [Nat.add_zero] at hword
    rw [load64_zeroPages (by decide), hword]
    rfl
  · refine ramAddr_ne_zero ?_
    have := Main.extent_le hi
    rw [page_eq] at *
    omega

/-! ## The three surveys -/

/-- The surveys of a range of `size` bytes whose pages of `D` were discarded after they had been
marked. -/
structure Surveyed (size : ℕ) (D : Finset ℕ) : Prop where
  /-- No marker is the zero of a discarded page. -/
  markers : ∀ off < size, page ∣ off → patternAt off ≠ 0 ∧ ramAddr off ≠ 0
  /-- The canary. -/
  canary : ∀ (c : Canary) (m : Mem), c.size = size →
    let v := c.survey (zeroPages c.ptr page D (c.mark m))
    v.total = size / page ∧ v.discarded = D.card ∧ (v.conclusive = true ↔ v.total ≤ 2 * D.card)
  /-- The canary as it is armed, with a size in GiB. -/
  arm : ∀ ptr gib m, (gib <<< 30) % 2 ^ 64 = size → (Canary.arm ptr gib m).1.survey
    (zeroPages ptr page D (Canary.arm ptr gib m).2) = ⟨D.card, size / page⟩
  /-- The buffers of `pressure-discard`. -/
  buffer : ∀ (ptr : ℕ) (m : Mem),
    survey ptr size (zeroPages ptr page D (fill ptr size m)) = (size / page - D.card, D.card)
  /-- Guest RAM, after a full touch pass under any live schedule. -/
  guestRam : ∀ (vm : Vm) (sched : CancelSchedule), ∃ bound vm', (∀ entries ≥ bound,
      runTouchPass (ramMapped size) sched entries size vm = .returned vm') ∧
    parkedSurvey size (zeroPages ramGpa page D vm'.mem) = (size / page - D.card, D.card)

/-- **Every survey counts exactly the discarded pages.** For every positive number of whole pages
whose offsets stay below `2 ^ 63`, and every set of discarded pages among them. -/
theorem surveys_count_discarded {size : ℕ} (hpos : 0 < size) (hdvd : page ∣ size)
    (hsize : size ≤ 2 ^ 63) {D : Finset ℕ} (hD : D ⊆ Finset.range (size / page)) :
    Surveyed size D := by
  have hne : ∀ i < size / page, patternAt (i * page) ≠ 0 := fun i _ =>
    patternAt_ne_zero (Dvd.intro_left i rfl)
  constructor
  case markers =>
    intro off hoff hpage
    exact ⟨patternAt_ne_zero hpage, ramAddr_ne_zero (lt_of_lt_of_le hoff hsize)⟩
  case arm =>
    intro ptr gib m hgib
    have harm : Canary.arm ptr gib m = (⟨ptr, size⟩, Canary.mark ⟨ptr, size⟩ m) := by
      simp only [Canary.arm, hgib]
    have hm : Marked patternAt ptr size D (zeroPages ptr page D (Canary.mark ⟨ptr, size⟩ m)) :=
      marked_of_writeMarkers hpos hdvd hne
    rw [harm]
    exact Marked.canary_survey (c := ⟨ptr, size⟩) hm hpos hdvd hD
  case canary =>
    intro c m hc
    subst hc
    have hm : Marked patternAt c.ptr c.size D (zeroPages c.ptr page D (c.mark m)) :=
      marked_of_writeMarkers hpos hdvd hne
    have hcard : D.card ≤ c.size / page := by
      simpa using Finset.card_le_card hD
    rw [hm.canary_survey hpos hdvd hD]
    refine ⟨rfl, rfl, ?_⟩
    simp only [Verdict.conclusive, decide_eq_true_eq]
    rw [page_eq] at *
    omega
  case buffer =>
    intro ptr m
    exact (marked_of_writeMarkers hpos hdvd hne).survey hpos hdvd hD
  case guestRam =>
    intro vm sched
    obtain ⟨bound, vm', hret, hm⟩ := runTouchPass_marks hpos hdvd hsize vm sched
    exact ⟨bound, vm', hret, (hm D).parkedSurvey hpos hdvd hD⟩

/-- Three pages, of which two are discarded; and the canary of the experiments, one GiB. -/
theorem surveys_count_discarded_three_pages :
    Surveyed 49152 {0, 2} ∧ ∀ ptr m, ((Canary.arm ptr 1 m).1.survey
      (zeroPages ptr page {0, 65535} (Canary.arm ptr 1 m).2)).discarded = 2 := by
  have hD : ({0, 2} : Finset ℕ) ⊆ Finset.range (49152 / page) := by decide
  have hgib : ({0, 65535} : Finset ℕ) ⊆ Finset.range (2 ^ 30 / page) := by
    intro i hi
    rw [Finset.mem_insert, Finset.mem_singleton] at hi
    rw [Finset.mem_range, page_eq]
    omega
  refine ⟨surveys_count_discarded (by decide) (by decide) (by decide) hD, fun ptr m => ?_⟩
  have h := surveys_count_discarded (by decide : 0 < 2 ^ 30) (by decide) (by decide) hgib
  rw [h.arm ptr 1 m rfl]
  rfl

end VmRatchet.Ledger
