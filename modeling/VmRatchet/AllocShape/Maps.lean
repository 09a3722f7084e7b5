import VmRatchet.AllocShape.Cell
import VmRatchet.Main.Footprint

/-!
# What the cells of the matrix differ in

A cell allocates guest RAM in a shape, maps it into a virtual machine of its own, lets the host or
the guest dirty it, and answers with one of three sequences, between two readings of the ledger. The
verdicts compare cells, and so count on the cells being alike in everything but what they are named
after.

A failed `hv_vm_*` call ends the child; refused memory and refused advice do not.

* `cellRun` — what the child of a cell does to memory.
* `cell_isolates` — what the two readings and the advice find, and what is left at the end.
-/

namespace VmRatchet.AllocShape

open ByteMemory Guest Transition
open Main

/-! ## The child's operations -/

section operations

variable (size ram code : ℕ)

/-- Memory of the process: `mmap` with either flag, or `hv_vm_allocate`. To the maps and the uses
the three are one operation, so that nothing here tells the shapes apart; what the system charges
for them is what the matrix measures.
Source: `alloc_shape.rs`, `Shape::allocate`, `mmap_flags` -/
def Shape.allocate (_ : Shape) : List Op := [.mmap ram size]

/-- The memory is given back, with `munmap` or with `hv_vm_deallocate`, which are one operation
here.
Source: `alloc_shape.rs`, `Shape::release` -/
def Shape.release (_ : Shape) : List Op := [.munmap ram size]

/-- Up to the first use of guest RAM.
Source: `alloc_shape.rs`, `run_cell` -/
def cellSetup (shape : Shape) : List Op :=
  shape.allocate size ram ++
    [.mmap code page, .access code page, .hvVmCreate, .hvVmMap code codeGpa.toNat page,
      .hvVmMap ram ramGpa size]

/-- Every page is dirtied.
Source: `alloc_shape.rs`, `run_cell` -/
def Toucher.touch : Toucher → List Op
  | .host => [.access ram size]
  | .guest => [.pass ⟨.touch, 0, size, 0⟩ ram]

/-- Source: `alloc_shape.rs`, `run_cell` -/
def Sequence.unmap (sequence : Sequence) : List Op :=
  if sequence = .inPlace then [] else [.hvVmUnmap ramGpa size]

/-- Source: `alloc_shape.rs`, `run_cell` -/
def Sequence.advise (sequence : Sequence) : List Op :=
  if sequence = .unmapOnly then [] else [.madvise ram size madvFreeReusable]

/-- Source: `alloc_shape.rs`, `run_cell` -/
def Sequence.remap (sequence : Sequence) : List Op :=
  if sequence = .inPlace then [] else [.hvVmMap ram ramGpa size]

/-- What a cell has done when it takes the reading `before`: it has allocated the memory in its
shape, and the toucher has dirtied all of it. -/
def upToBefore (shape : Shape) (toucher : Toucher) : List Op :=
  cellSetup size ram code shape ++ toucher.touch size ram

/-- After the reading `after`.
Source: `alloc_shape.rs`, `run_cell` -/
def cellTeardown (shape : Shape) : List Op :=
  .hvVmDestroy :: shape.release size ram ++ [.munmap code page]

/-- The whole child; `ram` is where its memory was allocated, if it was.
Source: `alloc_shape.rs`, `run_cell` -/
def cellRun (size : ℕ) (ram : Option ℕ) (code : ℕ) (shape : Shape) (toucher : Toucher)
    (sequence : Sequence) : List Op :=
  match ram with
  | none => []
  | some ram =>
    upToBefore size ram code shape toucher ++ sequence.unmap size ++ sequence.advise size ram ++
      sequence.remap size ram ++ cellTeardown size ram code shape

end operations

/-! ## The rules -/

section rules

variable {r : RamSize} {F : Set ℕ} {code ram : ℕ} {shape : Shape} {toucher : Toucher}
  {sequence : Sequence}

/-- The options of a run over so much memory. -/
def cellOptions (sizeGb : ℕ) : Options := { plainOptions with sizeGb := sizeGb }

/-- The stage-2 map while the advice is given. -/
def Sequence.during (sequence : Sequence) (r : RamSize) (code ram : ℕ) : ℕ → Option ℕ :=
  if sequence = .inPlace then fullMap r code ram else codeMap code

/-- While the advice is given. -/
def Advised (r : RamSize) (F : Set ℕ) (code ram : ℕ) (sequence : Sequence) (w : World) : Prop :=
  Disjoint (span code page) (span ram r.bytes) ∧
    At (sequence.during r code ram) (vmBytes r code ram) F w

/-- Taking guest RAM away from the guest, which the in-place sequences do not do, is safe, and leads
to the state in which the advice is due. -/
theorem triple_unmap : Triple World.step (Safe r) (Running r F code ram)
    (sequence.unmap r.bytes) (Advised r F code ram sequence) := by
  unfold Sequence.unmap
  refine Triple.assume fun hd => ?_
  split_ifs with hseq
  · refine Triple.nil.mono (fun _ => id) fun w hw => ⟨hd, ?_⟩
    rw [Sequence.during, if_pos hseq]
    exact hw
  · refine (triple_hvVmUnmap fun b hb => by rw [fullMap_ram hb]; simp).mono (fun _ => id)
      fun w hw => ⟨hd, ?_⟩
    rw [Sequence.during, if_neg hseq, ← fullMap_unmap]
    exact hw

/-- Whatever the sequence advises is safe where it is due, and changes none of the maps. -/
theorem triple_advise : Triple World.step (Safe r) (Advised r F code ram sequence)
    (sequence.advise r.bytes ram) (Advised r F code ram sequence) := by
  unfold Sequence.advise
  split_ifs with hseq
  · exact Triple.nil
  · refine Triple.assume fun hd => ?_
    exact (triple_madvise Set.subset_union_right _).mono (fun _ => id) fun w hw => ⟨hd, hw⟩

/-- After the advice guest RAM is given back to the guest where the sequence had taken it away, and
the cell runs as before the reclaim. -/
theorem triple_remap : Triple World.step (Safe r) (Advised r F code ram sequence)
    (sequence.remap r.bytes ram) (Running r F code ram) := by
  unfold Sequence.remap
  refine Triple.assume fun hd => ?_
  rw [Sequence.during]
  split_ifs with hseq
  · exact Triple.nil.mono (fun _ => id) fun w hw => ⟨hd, hw⟩
  · refine (triple_hvVmMap (fun b _ => codeMap_ram b) Set.subset_union_right).mono (fun _ => id) ?_
    exact fun w hw => ⟨hd, hw⟩

/-- Dirtying guest RAM, by the guest or by the host, is safe while the cell runs and changes none of
the maps. -/
theorem triple_touch : Triple World.step (Safe r) (Running r F code ram)
    (toucher.touch r.bytes ram) (Running r F code ram) := by
  cases toucher with
  | host => exact triple_running_access
  | guest => exact triple_running_pass _

/-- How guest RAM is used when it is read for the first time. -/
theorem stage_touch : Tracks (Stage r F code ram fun _ => .fresh) (toucher.touch r.bytes ram)
    (Stage r F code ram fun _ => ⟨true, decide (toucher = .guest), 0⟩) := by
  cases toucher with
  | host => exact stage_access
  | guest => exact stage_pass_whole .touch

/-- Where guest RAM is taken away from the guest, its bytes are no longer wired; where it is not,
they are used as before. -/
theorem stage_unmap {u : Use} : Tracks (Stage r F code ram fun _ => u) (sequence.unmap r.bytes)
    (fun t => Advised r F code ram sequence t.world ∧ ∀ off < r.bytes,
      t.uses (ram + off) = if sequence = .inPlace then u else u.unwire) := by
  refine tracks_of_triple triple_unmap fun t t' hA _ hrun hU off hoff => ?_
  unfold Sequence.unmap at hrun
  split_ifs at hrun ⊢ with hseq
  · rw [run_nil, Option.some.injEq] at hrun
    rw [← hrun, hU off hoff]
  · obtain ⟨t₁, hstep, hrest⟩ := run_cons_eq_some.mp hrun
    rw [run_nil, Option.some.injEq] at hrest
    subst hrest
    have hreach := unmap_reaches hA.ramInOrder.mapped (ram + off)
    have hhost : (fun a => if ∃ b < r.bytes, t.world.stage2 (ramGpa + b) = some a
        then (t.uses a).unwire else t.uses a) = t₁.uses :=
      congrArg Pages.host (Tracked.step_pages hstep rfl)
    rw [← congrFun hhost (ram + off), if_pos (hreach.mpr ⟨by omega, by omega⟩), hU off hoff]

variable {sizeGb : ℕ} {pl : Placement}

/-- A cell sets up its virtual machine with the same operations as `main` does. -/
theorem cellSetup_eq (hsize : (cellOptions sizeGb).ramSize = r.bytes) :
    cellSetup r.bytes ram pl.code shape = setup (cellOptions sizeGb) pl ram := by
  unfold cellSetup setup Shape.allocate
  rw [hsize]
  rfl

/-- A cell takes its machine down with the same operations as `main` does. -/
theorem cellTeardown_eq (hsize : (cellOptions sizeGb).ramSize = r.bytes) :
    cellTeardown r.bytes ram pl.code shape = teardown (cellOptions sizeGb) pl ram := by
  unfold cellTeardown teardown Shape.release
  rw [hsize]
  rfl

/-- From any state without a machine the operations up to the first reading are safe, and lead to a
cell that runs. -/
theorem triple_upToBefore (hsize : (cellOptions sizeGb).ramSize = r.bytes) :
    Triple World.step (Safe r) (At (fun _ => none) ∅ F)
      (upToBefore r.bytes ram pl.code shape toucher) (Running r F pl.code ram) := by
  unfold upToBefore
  rw [cellSetup_eq hsize]
  exact (triple_setup hsize).append triple_touch

/-- From any state without a machine the operations up to the first reading leave every byte of
guest RAM used, never marked, and wired for the guest exactly if the toucher is the guest. -/
theorem stage_upToBefore (hsize : (cellOptions sizeGb).ramSize = r.bytes) :
    Tracks (fun t => At (fun _ => none) ∅ F t.world ∧ True)
      (upToBefore r.bytes ram pl.code shape toucher)
      (Stage r F pl.code ram fun _ => ⟨true, decide (toucher = .guest), 0⟩) := by
  unfold upToBefore
  rw [cellSetup_eq hsize]
  exact (stage_setup hsize).append stage_touch

/-- The whole child is safe from any state without a machine, and at its end the maps are what they
were: nothing is mapped for a guest, and nothing more in the process. -/
theorem triple_cellRun (hsize : (cellOptions sizeGb).ramSize = r.bytes) :
    Triple World.step (Safe r) (At (fun _ => none) ∅ F)
      (cellRun r.bytes (some ram) pl.code shape toucher sequence) (At (fun _ => none) ∅ F) := by
  have hdown : Triple World.step (Safe r) (Running r F pl.code ram)
      (cellTeardown r.bytes ram pl.code shape) (At (fun _ => none) ∅ F) := by
    rw [cellTeardown_eq hsize]
    exact triple_teardown hsize
  unfold cellRun
  exact ((((triple_upToBefore hsize).append triple_unmap).append triple_advise).append
    triple_remap).append hdown

end rules

/-- What a rule for a whole run in an otherwise empty process says of the maps. -/
theorem balanced_of_triple {r : RamSize} {w₀ w : World} {ops : List Op}
    (h : Triple World.step (Safe r) (At (fun _ => none) ∅ {a | w₀.host a = some .foreign}) ops
      (At (fun _ => none) ∅ {a | w₀.host a = some .foreign}))
    (h₀ : Fresh w₀) (hrun : run World.step w₀ ops = some w) :
    Along World.step (Safe r) w₀ ops ∧ w.Sound ∧ w.host = w₀.host ∧
      ∀ id a, w.Made id a → w.unmapped id a = 1 := by
  obtain ⟨halong, hend⟩ := h w₀ h₀.at
  have hat := hend w hrun
  have hnot : ∀ a id, w.host a ≠ some (.mapping id) := fun a id hid =>
    (hat.owned a).mp ⟨id, hid⟩
  refine ⟨halong, hat.sound, ?_, fun id a hmade => hat.balanced.gone id a hmade (hnot a id)⟩
  funext a
  by_cases ha : w₀.host a = some .foreign
  · rw [ha]
    exact (hat.foreign a).mpr ha
  · rw [h₀.at.host_eq_none (Set.notMem_empty a) ha, hat.host_eq_none (Set.notMem_empty a) ha]

/-- **The cells differ in toucher and sequence alone.** Take any cell over guest RAM of any size
that fits, in any of the three shapes, which are one operation to the maps, wherever its memory
lies, in which every call succeeds. No stage-2 entry ever dangles, no operation is one that may not
be made, and at the end the process is mapped as it was and every byte the child mapped has been
unmapped once. At the reading `before` every byte of guest RAM is in use and was never marked, and
the guest has it wired exactly if the guest was to touch it. When the advice is due that is still
so, but for the wiring and the mapping, which are left in the cells that advise in place only. At
the reading `after` the guest sees what it saw at `before`: all of guest RAM, in order. -/
theorem cell_isolates (r : RamSize) (sizeGb : ℕ) (hsize : (cellOptions sizeGb).ramSize = r.bytes)
    (ram code : ℕ) (shape : Shape) (toucher : Toucher) (sequence : Sequence) {t₀ t : Tracked}
    (h₀ : Fresh t₀.world) (hrun : run Tracked.step t₀
      (cellRun r.bytes (some ram) code shape toucher sequence) = some t) :
    (Along World.step (Safe r) t₀.world
        (cellRun r.bytes (some ram) code shape toucher sequence) ∧
      t.world.Sound ∧ t.world.host = t₀.world.host ∧
      ∀ id a, t.world.Made id a → t.world.unmapped id a = 1) ∧
    ∃ before due advised after,
      run Tracked.step t₀ (upToBefore r.bytes ram code shape toucher) = some before ∧
      run Tracked.step before (sequence.unmap r.bytes) = some due ∧
      run Tracked.step due (sequence.advise r.bytes ram) = some advised ∧
      run Tracked.step advised (sequence.remap r.bytes ram) = some after ∧
      after.world.stage2 = before.world.stage2 ∧
      ∀ off < r.bytes, before.uses (ram + off) = ⟨true, decide (toucher = .guest), 0⟩ ∧
        due.uses (ram + off) =
          ⟨true, decide (toucher = .guest ∧ sequence = .inPlace), 0⟩ ∧
        before.world.stage2 (ramGpa + off) = some (ram + off) ∧
        due.world.stage2 (ramGpa + off) =
          if sequence = .inPlace then some (ram + off) else none := by
  obtain ⟨pl, rfl⟩ : ∃ pl : Placement, pl.code = code := ⟨⟨fun _ => ram, code, 0, 0⟩, rfl⟩
  refine ⟨balanced_of_triple (triple_cellRun hsize) h₀ (Tracked.run_world hrun), ?_⟩
  unfold cellRun at hrun
  obtain ⟨after, hafter, -⟩ := run_append.mp hrun
  obtain ⟨advised, hadvised, h₄⟩ := run_append.mp hafter
  obtain ⟨due, hdue, h₃⟩ := run_append.mp hadvised
  obtain ⟨before, h₁, h₂⟩ := run_append.mp hdue
  have hbefore := (stage_upToBefore hsize t₀ h₀.tracked).2 before h₁
  have hstage := (stage_unmap before hbefore).2 due h₂
  have hcheck := (triple_advise due.world hstage.1).2 _ (Tracked.run_world h₃)
  have hback := (triple_remap advised.world hcheck).2 _ (Tracked.run_world h₄)
  refine ⟨before, due, advised, after, h₁, h₂, h₃, h₄, ?_, fun off hoff =>
    ⟨hbefore.2 off hoff, ?_, ?_, ?_⟩⟩
  · rw [hback.2.stage2, hbefore.1.2.stage2]
  · rw [hstage.2 off hoff]
    cases toucher <;> cases sequence <;> rfl
  · rw [hbefore.1.2.stage2, fullMap_ram hoff]
  · rw [hstage.1.2.stage2, Sequence.during]
    split_ifs with hseq
    · exact fullMap_ram hoff
    · exact codeMap_ram off

/-- The theorem at work: what the guest touched is no longer wired once it is unmapped. -/
theorem cell_isolates_unmapFirst : ∃ before due,
    run Tracked.step ⟨emptyWorld, fun _ => .fresh⟩
        (upToBefore (2 ^ 30) (2 * page) 0 .hvAllocate .guest) = some before ∧
      run Tracked.step before (Sequence.unmapFirst.unmap (2 ^ 30)) = some due ∧
      before.uses (2 * page) = ⟨true, true, 0⟩ ∧ due.uses (2 * page) = ⟨true, false, 0⟩ := by
  have hroom : (cellRun (2 ^ 30) (some (2 * page)) 0 .hvAllocate .guest .unmapFirst).filterMap
      Op.room = [(2 * page, 2 ^ 30), (0, page)] := by decide
  obtain ⟨t, hrun⟩ := exists_tracked_run
    (cellRun (2 ^ 30) (some (2 * page)) 0 .hvAllocate .guest .unmapFirst) (fun _ => .fresh)
    (by decide) (by rw [hroom]; simp [page]) (by rw [hroom]; simp [page])
  obtain ⟨-, before, due, -, -, h₁, h₂, -, -, -, huses⟩ := cell_isolates plainRam 1 (by decide)
    (2 * page) 0 .hvAllocate .guest .unmapFirst fresh_emptyWorld hrun
  obtain ⟨hbefore, hdue, -⟩ := huses 0 plainRam.pos
  exact ⟨before, due, h₁, h₂, hbefore, hdue⟩

end VmRatchet.AllocShape
