import VmRatchet.Main.Fleet

/-!
# What a reclaim gives back

The runs of `main` exist to be measured: what does the system charge for guest RAM before and
after a reclaim? The program's notes say what decides it. A page that the guest faults in through
stage-2 is wired until `hv_vm_unmap`; a page that only the host used is not.
`madvise(MADV_FREE_REUSABLE)` marks the pages in use that are not wired and silently skips the
others; the other advices leave the ledger flat. A page that was marked and used again stays
marked, so that a later cycle over the same mapping measures something else than the first.

* `Use`, `useCalls` — how a byte of the process was used since it was mapped, and what the calls of
  a reclaim do to that, an instance of `Calls`.
* `Tracked`, `Tracked.step` — `World` with the use of every byte. A guest pass reaches what the
  stage-2 map says, not what the variable `ram` says.
* `Stage` — a running VM, with the uses of guest RAM as a function of the offset. One rule for each
  piece of a run.
* `plain_cycle_uses` — what every cycle of the plain loop measures.
* `Holds`, `probes_see_marked` — what the safety probes look at.
-/

namespace VmRatchet.Main

open ByteMemory Guest Transition
open Soak (ReclaimMode)

/-! ## Uses -/

/-- How a byte of the process was used since it was mapped.
Source: `README.md`, "What the xnu source says"; `main.rs`, the module's notes -/
structure Use where
  /-- It was used since it was mapped or last marked: it is charged, and what it holds counts. -/
  live : Bool
  /-- The guest has faulted it in, and still has it mapped. -/
  wired : Bool
  /-- How often it was marked reusable. -/
  marked : ℕ
  deriving DecidableEq

namespace Use

/-- A byte that nobody has used since it was mapped: it is not charged. -/
def fresh : Use := ⟨false, false, 0⟩

/-- The host uses the byte: it is charged, and whether it is wired stays as it was. -/
def touch (u : Use) : Use := { u with live := true }

/-- The guest uses the byte through stage-2: it is charged, and wired. -/
def fault (u : Use) : Use := { u with live := true, wired := true }

/-- The guest's mapping of the byte is gone, by `hv_vm_unmap` or with the VM: it is wired no
longer. -/
def unwire (u : Use) : Use := { u with wired := false }

/-- `madvise`: only `MADV_FREE_REUSABLE` has an effect, and only on a byte that is in use and not
wired. -/
def advise (advice : ℤ) (u : Use) : Use :=
  if advice = madvFreeReusable ∧ u.live = true ∧ u.wired = false then
    { u with live := false, marked := u.marked + 1 }
  else u

end Use

/-- What the calls of a reclaim do to the use of a byte. This is an assumption about the kernel, the
one the notes of the program state: the ledger wires what the guest faults in until `hv_vm_unmap`,
and marks what is in use and not wired. -/
def useCalls : Calls Use where
  madvise := Use.advise
  munmap _ := .fresh
  mmapFixed _ := .fresh
  hvVmMap u := u
  hvVmUnmap := Use.unwire

/-- The host page of one of the words that the pass visits is mapped to this byte. -/
def Reached (stage2 : ℕ → Option ℕ) (p : Pass) (a : ℕ) : Prop :=
  ∃ k < p.pages, ∃ b < page, stage2 (p.word k + b) = some a

instance (stage2 : ℕ → Option ℕ) (p : Pass) (a : ℕ) : Decidable (Reached stage2 p a) :=
  inferInstanceAs (Decidable (∃ k < p.pages, ∃ b < page, stage2 (p.word k + b) = some a))

/-- The uses after an operation: a fresh mapping has none, an access touches its range, a pass
faults in the pages it visits, and the calls of a reclaim do what `useCalls` says. -/
def Pages.use (v : Pages Use) : Op → ℕ → Use
  | .mmap addr len => updateRange v.host addr len fun _ => .fresh
  | .access addr len => updateRange v.host addr len Use.touch
  | .pass p _ => fun a => if Reached v.stage2 p a then (v.host a).fault else v.host a
  | .hvVmDestroy => fun a => (v.host a).unwire
  | op => ((v.step useCalls op).map Pages.host).getD v.host

/-- The maps of the process and of its VM, and how every byte was used. -/
structure Tracked where
  world : World
  uses : ℕ → Use

namespace Tracked

/-- The stage-2 map and the uses, as the two maps that the calls of a reclaim act on. -/
def pages (t : Tracked) : Pages Use := ⟨t.world.stage2, t.uses⟩

/-- One operation: the world makes its step, and the uses follow. -/
def step (t : Tracked) (op : Op) : Option Tracked :=
  (t.world.step op).map fun w => ⟨w, t.pages.use op⟩

end Tracked

section tracked

variable {t t' : Tracked} {ops : List Op}

/-- A tracked step is a step of the world, beside which the uses become what the operation makes of
them. -/
theorem Tracked.step_eq_some {op : Op} :
    t.step op = some t' ↔ t.world.step op = some t'.world ∧ t'.uses = t.pages.use op := by
  simp only [Tracked.step, Option.map_eq_some_iff]
  constructor
  · rintro ⟨w, hw, rfl⟩
    exact ⟨hw, rfl⟩
  · rintro ⟨hw, hu⟩
    exact ⟨t'.world, hw, by rw [← hu]⟩

/-- The uses do not decide what goes through: without them the run is a run of the world. -/
theorem Tracked.run_world (h : run Tracked.step t ops = some t') :
    run World.step t.world ops = some t'.world := by
  induction ops generalizing t with
  | nil =>
      rw [run_nil, Option.some.injEq] at h
      rw [run_nil, h]
  | cons op ops ih =>
      obtain ⟨t₁, hstep, hrest⟩ := run_cons_eq_some.mp h
      exact run_cons_eq_some.mpr ⟨t₁.world, (Tracked.step_eq_some.mp hstep).1, ih hrest⟩

/-- Every run of the maps is the run of some uses. -/
theorem Tracked.exists_run {w : World} (h : run World.step t.world ops = some w) :
    ∃ t', run Tracked.step t ops = some t' ∧ t'.world = w := by
  induction ops generalizing t with
  | nil =>
      rw [run_nil, Option.some.injEq] at h
      exact ⟨t, rfl, h⟩
  | cons op ops ih =>
      obtain ⟨w₁, hstep, hrest⟩ := run_cons_eq_some.mp h
      obtain ⟨t', hrun, hw⟩ := ih (t := ⟨w₁, t.pages.use op⟩) hrest
      exact ⟨t', run_cons_eq_some.mpr ⟨_, Tracked.step_eq_some.mpr ⟨hstep, rfl⟩, hrun⟩, hw⟩

/-- A call of a reclaim does to maps and uses what `useCalls` says. -/
theorem Tracked.step_pages {op : Op} (h : t.step op = some t') {v : Pages Use}
    (hv : t.pages.step useCalls op = some v) : v = t'.pages := by
  obtain ⟨w', u'⟩ := t'
  obtain ⟨hworld, rfl⟩ := Tracked.step_eq_some.mp h
  cases op with
  | madvise addr len advice =>
      cases hworld
      cases hv
      rfl
  | munmap addr len =>
      cases hworld
      cases hv
      rfl
  | mmapFixed addr len =>
      cases hworld
      cases hv
      rfl
  | hvVmMap addr gpa len =>
      cases hworld
      cases hv
      rfl
  | hvVmUnmap gpa len =>
      cases hworld
      cases hv
      rfl
  | mmap addr len => cases hv
  | access addr len => cases hv
  | hvVmCreate => cases hv
  | hvVmDestroy => cases hv
  | pass p ram => cases hv

/-- Through a whole list of operations the uses of guest RAM, as the abstract calls leave them, are
those of the process's memory. -/
theorem Tracked.run_pages (h : run Tracked.step t ops = some t') {v : Pages Use}
    (hv : run (Pages.step useCalls) t.pages ops = some v) : v = t'.pages := by
  induction ops generalizing t with
  | nil =>
      rw [run_nil, Option.some.injEq] at h hv
      rw [← hv, h]
  | cons op ops ih =>
      obtain ⟨t₁, ht₁, hrest⟩ := run_cons_eq_some.mp h
      obtain ⟨v₁, hv₁, hvrest⟩ := run_cons_eq_some.mp hv
      obtain rfl := Tracked.step_pages ht₁ hv₁
      exact ih hrest hvrest

end tracked

/-! ## A running VM and the uses of its RAM -/

/-- Between two pieces of a run, with byte `off` of guest RAM used as `u off` says. -/
def Stage (r : RamSize) (F : Set ℕ) (code ram : ℕ) (u : ℕ → Use) (t : Tracked) : Prop :=
  Running r F code ram t.world ∧ ∀ off < r.bytes, t.uses (ram + off) = u off

/-- What a piece of a run does to the uses, beside what it does to the maps. -/
abbrev Tracks (pre : Tracked → Prop) (ops : List Op) (post : Tracked → Prop) : Prop :=
  Triple Tracked.step (fun _ _ => True) pre ops post

section rules

variable {r : RamSize} {F : Set ℕ} {code ram : ℕ} {u : ℕ → Use} {t t' : Tracked}

/-- A rule for the maps, and what the piece does to the uses. -/
theorem tracks_of_triple {A B : World → Prop} {U U' : Tracked → Prop} {ops : List Op}
    (h : Triple World.step (Safe r) A ops B)
    (huse : ∀ t t', A t.world → B t'.world → run Tracked.step t ops = some t' → U t → U' t') :
    Tracks (fun t => A t.world ∧ U t) ops fun t => B t.world ∧ U' t := by
  rintro t ⟨hA, hU⟩
  refine ⟨Along.of_labels (fun _ _ _ => trivial) t, fun t' hrun => ?_⟩
  have hB := (h t.world hA).2 t'.world (Tracked.run_world hrun)
  exact ⟨hB, huse t t' hA hB hrun hU⟩

/-- The uses after one operation are what the operation makes of the uses before. -/
theorem uses_of_run_single {op : Op} (h : run Tracked.step t [op] = some t') :
    t'.uses = t.pages.use op := by
  obtain ⟨t₁, hstep, hrest⟩ := run_cons_eq_some.mp h
  rw [run_nil, Option.some.injEq] at hrest
  exact hrest ▸ (Tracked.step_eq_some.mp hstep).2

/-- The first operation of a piece leads to a state with the uses it makes, from which the rest of
the piece goes on. -/
theorem exists_uses_of_run_cons {op : Op} {ops : List Op}
    (h : run Tracked.step t (op :: ops) = some t') :
    ∃ t₁, t₁.uses = t.pages.use op ∧ run Tracked.step t₁ ops = some t' := by
  obtain ⟨t₁, hstep, hrest⟩ := run_cons_eq_some.mp h
  exact ⟨t₁, (Tracked.step_eq_some.mp hstep).2, hrest⟩

/-- New memory is fresh, whatever was there before. -/
theorem use_mmap (t : Tracked) (addr len : ℕ) :
    t.pages.use (.mmap addr len) = updateRange t.uses addr len fun _ => .fresh := rfl

/-- The host's access touches the bytes of its range, and no others. -/
theorem use_access (t : Tracked) (addr len : ℕ) :
    t.pages.use (.access addr len) = updateRange t.uses addr len Use.touch := rfl

/-- Advice goes to the uses of its range, and to no others. -/
theorem use_madvise (t : Tracked) (addr len : ℕ) (advice : ℤ) :
    t.pages.use (.madvise addr len advice) = updateRange t.uses addr len (Use.advise advice) := rfl

/-- What is unmapped is fresh: whoever maps it next starts anew. -/
theorem use_munmap (t : Tracked) (addr len : ℕ) :
    t.pages.use (.munmap addr len) = updateRange t.uses addr len fun _ => .fresh := rfl

/-- Mapping memory into the guest is no use of it. -/
theorem use_hvVmMap (t : Tracked) (addr gpa len : ℕ) :
    t.pages.use (.hvVmMap addr gpa len) = t.uses := by
  funext a
  simp [Pages.use, Pages.step, useCalls, updateRange, Tracked.pages]

/-- Creating the VM is no use of memory. -/
theorem use_hvVmCreate (t : Tracked) : t.pages.use .hvVmCreate = t.uses := rfl

/-- A pass over whole pages of a running VM reaches exactly its range. -/
theorem reached_iff {w : World} (h : Running r F code ram w) {p : Pass}
    (hlt : p.startOff < p.endOff) (hs : page ∣ p.startOff) (he : page ∣ p.endOff)
    (hin : p.endOff ≤ r.bytes) {off : ℕ} (hoff : off < r.bytes) :
    Reached w.stage2 p (ram + off) ↔ p.startOff ≤ off ∧ off < p.endOff := by
  rw [h.2.stage2]
  constructor
  · rintro ⟨k, hk, b, hb, hmap⟩
    have hword := word_add_page_le hlt hs he hk
    have heq : p.word k + b = ramGpa + (p.startOff + k * page + b) := by
      unfold Pass.word Pass.base
      omega
    have hlt' : p.startOff + k * page + b < p.endOff := by omega
    rw [heq, fullMap_ram (by omega), Option.some.injEq] at hmap
    omega
  · rintro ⟨hle, hlt'⟩
    have hdiv := Nat.div_add_mod' (off - p.startOff) page
    have hmod : (off - p.startOff) % page < page := Nat.mod_lt _ (by decide)
    have heq : p.word ((off - p.startOff) / page) + (off - p.startOff) % page = ramGpa + off := by
      unfold Pass.word Pass.base
      omega
    refine ⟨(off - p.startOff) / page, ?_, (off - p.startOff) % page, hmod, ?_⟩
    · rw [← p.word_lt_end_iff hlt]
      omega
    · rw [heq, fullMap_ram hoff]

/-- A guest pass faults in the bytes of its range, and leaves the uses of all others as they are. -/
theorem stage_pass {p : Pass} (hlt : p.startOff < p.endOff) (hs : page ∣ p.startOff)
    (he : page ∣ p.endOff) (hin : p.endOff ≤ r.bytes) :
    Tracks (Stage r F code ram u) [.pass p ram] (Stage r F code ram fun off =>
      if p.startOff ≤ off ∧ off < p.endOff then (u off).fault else u off) := by
  refine tracks_of_triple (triple_running_pass p) fun t t' hA _ hrun hU off hoff => ?_
  rw [uses_of_run_single hrun]
  simp only [Pages.use, Tracked.pages, reached_iff hA hlt hs he hin hoff, hU off hoff]

/-- A guest pass over all of guest RAM faults in every byte of it. -/
theorem stage_pass_whole (prog : Program) :
    Tracks (Stage r F code ram u) [.pass ⟨prog, 0, r.bytes, 0⟩ ram]
      (Stage r F code ram fun off => (u off).fault) := by
  refine (stage_pass r.pos (dvd_zero _) r.aligned le_rfl).mono (fun _ => id) fun t ht => ?_
  refine ⟨ht.1, fun off hoff => ?_⟩
  rw [ht.2 off hoff]
  exact if_pos ⟨Nat.zero_le off, hoff⟩

/-- The host's access to all of guest RAM touches every byte of it. -/
theorem stage_access : Tracks (Stage r F code ram u) [.access ram r.bytes]
    (Stage r F code ram fun off => (u off).touch) := by
  refine tracks_of_triple triple_running_access fun t t' _ _ hrun hU off hoff => ?_
  rw [uses_of_run_single hrun]
  rw [use_access, updateRange_of_mem ⟨by omega, by omega⟩, hU off hoff]

/-- The host advises guest RAM as it is, mapped into the guest. -/
theorem stage_madvise (advice : ℤ) : Tracks (Stage r F code ram u) [.madvise ram r.bytes advice]
    (Stage r F code ram fun off => (u off).advise advice) := by
  refine tracks_of_triple (triple_running_madvise advice) fun t t' _ _ hrun hU off hoff => ?_
  rw [uses_of_run_single hrun]
  rw [use_madvise, updateRange_of_mem ⟨by omega, by omega⟩, hU off hoff]

/-- The reclaim triple of one extent does to the uses of its bytes what the three calls do, and
leaves all others as they are. -/
theorem stage_extent {off len : ℕ} (hlen : 0 < len) (hle : off + len ≤ r.bytes)
    (mode : ReclaimMode) (advice : ℤ) :
    Tracks (Stage r F code ram u) (extentTriple ram off len mode advice)
      (Stage r F code ram fun x =>
        if off ≤ x ∧ x < off + len then useCalls.triple mode advice (u x) else u x) := by
  refine tracks_of_triple (triple_extent hlen hle mode advice) fun t t' hA _ hrun hU x hx => ?_
  have hend := Tracked.run_pages hrun
    (run_extentTriple useCalls (w := t.pages) hA.ramInOrder hlen hle mode advice)
  have huses : updateRange t.uses (ram + off) len (useCalls.triple mode advice) = t'.uses :=
    congrArg Pages.host hend
  rw [← huses, updateRange]
  simp only [Nat.add_assoc, Nat.add_le_add_iff_left, Nat.add_lt_add_iff_left, hU x hx]

/-- The reclaim triples of all extents do to the use of every byte of guest RAM what the three calls
do, once. -/
theorem stage_reclaimExtents {extent : ℕ} (hdvd : extent ∣ r.bytes) (mode : ReclaimMode)
    (advice : ℤ) : Tracks (Stage r F code ram u) (reclaimExtents ram r.bytes extent mode advice)
      (Stage r F code ram fun off => useCalls.triple mode advice (u off)) := by
  refine tracks_of_triple (triple_reclaimExtents hdvd mode advice)
    fun t t' hA _ hrun hU off hoff => ?_
  have hend := Tracked.run_pages hrun
    (run_reclaimExtents useCalls (w := t.pages) hA.ramInOrder r.pos hdvd mode advice)
  have huses : updateRange t.uses ram r.bytes (useCalls.triple mode advice) = t'.uses :=
    congrArg Pages.host hend
  rw [← huses, updateRange_of_mem ⟨by omega, by omega⟩, hU off hoff]

variable {o : Options} {pl : Placement}

/-- After the first mappings guest RAM is fresh, however memory was used before. -/
theorem stage_setup (ho : o.ramSize = r.bytes) :
    Tracks (fun t => At (fun _ => none) ∅ F t.world ∧ True) (setup o pl ram)
      (Stage r F pl.code ram fun _ => .fresh) := by
  refine tracks_of_triple (triple_setup ho) fun t t' _ hB hrun _ off hoff => ?_
  obtain ⟨t₁, h₁, hrun⟩ := exists_uses_of_run_cons hrun
  obtain ⟨t₂, h₂, hrun⟩ := exists_uses_of_run_cons hrun
  obtain ⟨t₃, h₃, hrun⟩ := exists_uses_of_run_cons hrun
  obtain ⟨t₄, h₄, hrun⟩ := exists_uses_of_run_cons hrun
  obtain ⟨t₅, h₅, hrun⟩ := exists_uses_of_run_cons hrun
  have hcode : ¬ (pl.code ≤ ram + off ∧ ram + off < pl.code + page) := fun hc =>
    Set.disjoint_left.mp hB.1 (mem_span.mpr hc) (add_mem_span hoff)
  have hram : t₁.uses (ram + off) = .fresh := by
    rw [h₁, use_mmap, updateRange_of_mem ⟨by omega, by rw [ho]; omega⟩]
  have htwo : t₂.uses (ram + off) = .fresh := by
    rw [h₂, use_mmap, updateRange_of_not_mem hcode, hram]
  have hthree : t₃.uses (ram + off) = .fresh := by
    rw [h₃, use_access, updateRange_of_not_mem hcode, htwo]
  rw [uses_of_run_single hrun, use_hvVmMap, h₅, use_hvVmMap, h₄, use_hvVmCreate, hthree]

/-- A cycle reset gives fresh guest RAM, whatever was done to the old. -/
theorem stage_cycleReset (ho : o.ramSize = r.bytes) (ram' : ℕ) :
    Tracks (Stage r F code ram u) (cycleReset o ram ram')
      (Stage r F code ram' fun _ => .fresh) := by
  have hfirst : Tracks (Stage r F code ram u) [.hvVmUnmap ramGpa r.bytes, .munmap ram r.bytes]
      fun t => At (codeMap code) (span code page) F t.world ∧ True :=
    tracks_of_triple triple_unmap_ram fun _ _ _ _ _ _ => trivial
  unfold cycleReset
  rw [ho]
  refine hfirst.append (tracks_of_triple (triple_map_ram ram') fun t t' _ _ hrun _ off hoff => ?_)
  obtain ⟨t₁, h₁, hrun⟩ := exists_uses_of_run_cons hrun
  rw [uses_of_run_single hrun, use_hvVmMap, h₁, use_mmap,
    updateRange_of_mem ⟨by omega, by omega⟩]

/-! ### The loops -/

/-- A loop that threads `ram`, with a state that depends on the number of turns made. -/
theorem tracks_cycles {I : ℕ → ℕ → Tracked → Prop} {body : ℕ → ℕ → List Op × ℕ}
    (h : ∀ n ram, Tracks (I n ram) (body (n + 1) ram).1 (I (n + 1) (body (n + 1) ram).2))
    (n ram : ℕ) : Tracks (I 0 ram) (cycles body n ram).1 (I n (cycles body n ram).2) := by
  induction n with
  | zero => exact Triple.nil
  | succ n ih => exact ih.append (h n _)

/-- The first turns of a loop are the beginning of all of them. -/
theorem isPrefix_cycles (body : ℕ → ℕ → List Op × ℕ) {m n : ℕ} (h : m ≤ n) (ram : ℕ) :
    (cycles body m ram).1 <+: (cycles body n ram).1 := by
  induction n with
  | zero =>
      obtain rfl : m = 0 := by omega
      exact List.prefix_rfl
  | succ n ih =>
      by_cases hm : m = n + 1
      · exact hm ▸ List.prefix_rfl
      · exact (ih (by omega)).trans (List.prefix_append _ _)

/-- A touch pass over guest RAM faults in every byte of it. -/
theorem stage_touchPass (ho : o.ramSize = r.bytes) : Tracks (Stage r F code ram u)
    (touchPass o ram) (Stage r F code ram fun off => (u off).fault) := by
  rw [touchPass, ho]
  exact stage_pass_whole .touch

/-- Before a run the world is in the state with nothing mapped, as `Tracks` has its
preconditions. -/
theorem Fresh.tracked (h : Fresh t.world) :
    At (fun _ => none) ∅ {a | t.world.host a = some .foreign} t.world ∧ True := ⟨h.at, trivial⟩

end rules

/-- In an empty process a run goes through if its mappings lie apart; the uses may be anything. -/
theorem exists_tracked_run (ops : List Op) (u : ℕ → Use)
    (hfixed : ∀ op ∈ ops, op.isFixed = false)
    (hapart : (ops.filterMap Op.room).Pairwise fun x y => x.1 + x.2 ≤ y.1 ∨ y.1 + y.2 ≤ x.1)
    (hpos : ∀ x ∈ ops.filterMap Op.room, 0 < x.2) :
    ∃ t, run Tracked.step ⟨emptyWorld, u⟩ ops = some t := by
  obtain ⟨w, hw⟩ := exists_run (w := emptyWorld) hfixed hapart
    fun x hx => ⟨hpos x hx, fun _ _ => rfl⟩
  obtain ⟨t, ht, -⟩ := Tracked.exists_run (t := ⟨emptyWorld, u⟩) hw
  exact ⟨t, ht⟩

/-! ## The plain loop -/

/-- How a byte of guest RAM was used once a cycle of the plain loop has dirtied it. -/
def Options.dirtyUse (o : Options) (u : Use) : Use := if o.hostTouch then u.touch else u.fault

/-- How a byte of guest RAM was used once the reclaim of `main` is over: advised in place with
`--naive`, and else taken through the triple. -/
def Options.reclaimUse (o : Options) (u : Use) : Use :=
  if o.naive then u.advise o.advice else useCalls.triple .reusable o.advice u

section plain

variable {o : Options} {pl : Placement} {r : RamSize} {F : Set ℕ} {code ram : ℕ} {u : ℕ → Use}

/-- Dirtying guest RAM, by the guest or the host, makes of every byte what `dirtyUse` says. -/
theorem stage_dirty (ho : o.ramSize = r.bytes) : Tracks (Stage r F code ram u) (dirty o ram)
    (Stage r F code ram fun off => o.dirtyUse (u off)) := by
  unfold dirty touchPass Options.dirtyUse
  rw [ho]
  split_ifs
  · exact stage_access
  · exact stage_pass_whole .read
  · exact stage_pass_whole .touch

/-- The reclaim of `main`, naive or not, makes of every byte what `reclaimUse` says. -/
theorem stage_reclaim (ho : o.ramSize = r.bytes) : Tracks (Stage r F code ram u) (reclaim o ram)
    (Stage r F code ram fun off => o.reclaimUse (u off)) := by
  by_cases hnaive : o.naive = true
  · have hlist : reclaim o ram = [.madvise ram r.bytes o.advice] := by
      rw [reclaim, hnaive, ho]
      rfl
    simp only [hlist, Options.reclaimUse, hnaive, if_true]
    exact stage_madvise o.advice
  · have hnaive : o.naive = false := by simpa using hnaive
    have hlist : reclaim o ram = reclaimExtents ram r.bytes r.bytes .reusable o.advice := by
      rw [reclaim_eq_reclaimExtents hnaive (ho ▸ r.pos), ho]
    simp only [hlist, Options.reclaimUse, hnaive, Bool.false_eq_true, if_false]
    exact stage_reclaimExtents dvd_rfl .reusable o.advice

/-- Fresh memory that is dirtied is live, never marked, and wired exactly if the guest dirties
it. -/
theorem dirtyUse_fresh : o.dirtyUse .fresh = ⟨true, !o.hostTouch, 0⟩ := by
  unfold Options.dirtyUse
  cases o.hostTouch <;> rfl

/-- And reclaimed: given back if the advice is the right one and reaches the pages. -/
theorem reclaimUse_dirty : o.reclaimUse ⟨true, !o.hostTouch, 0⟩ =
    if o.advice = madvFreeReusable ∧ (o.naive = false ∨ o.hostTouch = true) then ⟨false, false, 1⟩
    else ⟨true, o.naive && !o.hostTouch, 0⟩ := by
  unfold Options.reclaimUse
  by_cases hadvice : o.advice = madvFreeReusable <;> cases o.naive <;> cases o.hostTouch <;>
    simp [Calls.triple, useCalls, Use.advise, Use.unwire, hadvice]

/-- The operations up to the dirtying of guest RAM in cycle `n + 1`. -/
def upToDirty (o : Options) (pl : Placement) (n : ℕ) : List Op :=
  let before := cycles (plainCycle o pl) n (pl.ram 1)
  setup o pl (pl.ram 1) ++ (before.1 ++
    if n = 0 then [] else cycleReset o before.2 (pl.ram (n + 1)))

/-- A turn of the plain loop: reset, but for the first one, dirty, reclaim. -/
theorem plainCycle_succ (n : ℕ) : plainCycle o pl (n + 1) ram =
    (((if n = 0 then [] else cycleReset o ram (pl.ram (n + 1))) ++
      dirty o (if n = 0 then ram else pl.ram (n + 1))) ++
      reclaim o (if n = 0 then ram else pl.ram (n + 1)),
    if n = 0 then ram else pl.ram (n + 1)) := by
  unfold plainCycle
  by_cases hn : n = 0
  · simp [hn]
  · have hlt : 1 < n + 1 := by omega
    simp [hn, hlt]

/-- After any positive number of turns of the plain loop guest RAM is at the mapping of the last of
them. -/
theorem cycles_plainCycle_snd (n : ℕ) :
    (cycles (plainCycle o pl) (n + 1) (pl.ram 1)).2 = pl.ram (n + 1) := by
  rw [cycles, plainCycle_succ]
  by_cases hn : n = 0
  · simp [hn, cycles]
  · simp [hn]

/-- One more turn of the plain loop, from the start of the run. -/
theorem setup_cycles_plainCycle (n : ℕ) :
    setup o pl (pl.ram 1) ++ (cycles (plainCycle o pl) (n + 1) (pl.ram 1)).1 =
      upToDirty o pl n ++ dirty o (pl.ram (n + 1)) ++ reclaim o (pl.ram (n + 1)) := by
  rw [cycles, plainCycle_succ, upToDirty]
  by_cases hn : n = 0
  · simp [hn, cycles]
  · simp [hn]

/-- After any number of turns of the plain loop guest RAM is as the reclaim of the last turn leaves
it, since every turn starts from fresh memory. -/
theorem stage_plainCycles (ho : o.ramSize = r.bytes) (n ram : ℕ) :
    Tracks (Stage r F code ram fun _ => .fresh) (cycles (plainCycle o pl) n ram).1
      (Stage r F code (cycles (plainCycle o pl) n ram).2 fun _ =>
        if n = 0 then .fresh else o.reclaimUse (o.dirtyUse .fresh)) := by
  refine tracks_cycles (I := fun n ram => Stage r F code ram fun _ =>
    if n = 0 then .fresh else o.reclaimUse (o.dirtyUse .fresh)) (fun n ram => ?_) n ram
  rw [plainCycle_succ]
  refine Triple.append (Triple.append ?_ (stage_dirty ho (u := fun _ => .fresh))) (stage_reclaim ho)
  by_cases hn : n = 0
  · simp only [hn, if_true]
    exact Triple.nil
  · simp only [hn, if_false]
    exact stage_cycleReset ho _

/-- When a cycle comes to dirty guest RAM, nobody has used it. -/
theorem stage_upToDirty (ho : o.ramSize = r.bytes) (n : ℕ) :
    Tracks (fun t => At (fun _ => none) ∅ F t.world ∧ True) (upToDirty o pl n)
      (Stage r F pl.code (pl.ram (n + 1)) fun _ => .fresh) := by
  refine (stage_setup ho).append ((stage_plainCycles ho n (pl.ram 1)).append ?_)
  by_cases hn : n = 0
  · simp only [hn, if_true, cycles]
    exact Triple.nil
  · simp only [hn, if_false]
    exact stage_cycleReset ho _

/-- **Every cycle of the plain loop measures a first reclaim.** In every run of the loop over
`--repeat`, in each of its cycles, wherever the kernel places the mappings: no byte of guest RAM
has been used when the cycle comes to dirty it; all of them have when it comes to reclaim; and the
reclaim gives all of them back, marked for the first time, exactly if the advice is
`MADV_FREE_REUSABLE` and the pages were unmapped from the guest or dirtied by the host. Otherwise
it gives none of them back. -/
theorem plain_cycle_uses (o : Options) (pl : Placement) (r : RamSize) (ho : o.ramSize = r.bytes)
    (htime : o.timeReclaim = false) (hsim : o.fleetSim = false) {t₀ t : Tracked}
    (h₀ : Fresh t₀.world) (hrun : run Tracked.step t₀ (mainRun o pl) = some t) {n : ℕ}
    (hn : n < o.repeats) :
    upToDirty o pl n ++ dirty o (pl.ram (n + 1)) ++ reclaim o (pl.ram (n + 1)) <+: mainRun o pl ∧
    ∃ t₁ t₂ t₃, run Tracked.step t₀ (upToDirty o pl n) = some t₁ ∧
      run Tracked.step t₁ (dirty o (pl.ram (n + 1))) = some t₂ ∧
      run Tracked.step t₂ (reclaim o (pl.ram (n + 1))) = some t₃ ∧
      ∀ off < r.bytes, t₁.uses (pl.ram (n + 1) + off) = .fresh ∧
        t₂.uses (pl.ram (n + 1) + off) = ⟨true, !o.hostTouch, 0⟩ ∧
        t₃.uses (pl.ram (n + 1) + off) =
          if o.advice = madvFreeReusable ∧ (o.naive = false ∨ o.hostTouch = true)
          then ⟨false, false, 1⟩ else ⟨true, o.naive && !o.hostTouch, 0⟩ := by
  have hpre : upToDirty o pl n ++ dirty o (pl.ram (n + 1)) ++ reclaim o (pl.ram (n + 1)) <+:
      mainRun o pl := by
    have hturns := isPrefix_cycles (plainCycle o pl) (show n + 1 ≤ o.repeats from hn) (pl.ram 1)
    rw [← setup_cycles_plainCycle]
    unfold mainRun
    simp only [htime, hsim, Bool.false_eq_true, if_false, List.append_assoc]
    exact (List.prefix_append_right_inj _).mpr (hturns.trans (List.prefix_append _ _))
  refine ⟨hpre, ?_⟩
  obtain ⟨rest, hrest⟩ := hpre
  rw [← hrest] at hrun
  obtain ⟨t₃, hrun₃, -⟩ := run_append.mp hrun
  obtain ⟨t₂, hrun₂, h₃⟩ := run_append.mp hrun₃
  obtain ⟨t₁, h₁, h₂⟩ := run_append.mp hrun₂
  have hstage₁ := (stage_upToDirty ho n t₀ h₀.tracked).2 t₁ h₁
  have hstage₂ := (stage_dirty ho t₁ hstage₁).2 t₂ h₂
  have hstage₃ := (stage_reclaim ho t₂ hstage₂).2 t₃ h₃
  refine ⟨t₁, t₂, t₃, h₁, h₂, h₃, fun off hoff => ⟨hstage₁.2 off hoff, ?_, ?_⟩⟩
  · rw [hstage₂.2 off hoff, dirtyUse_fresh]
  · rw [hstage₃.2 off hoff, dirtyUse_fresh, reclaimUse_dirty]

/-- The second of two cycles, with memory whose uses before the run were anything: fresh before it
is dirtied, and given back by the reclaim. -/
theorem plain_cycle_uses_second : ∃ t₁ t₂ t₃,
    run Tracked.step ⟨emptyWorld, fun _ => ⟨true, true, 7⟩⟩
        (upToDirty repeatOptions spacedPlacement 1) = some t₁ ∧
      run Tracked.step t₁ (dirty repeatOptions (2 * 2 ^ 31)) = some t₂ ∧
      run Tracked.step t₂ (reclaim repeatOptions (2 * 2 ^ 31)) = some t₃ ∧
      t₁.uses (2 * 2 ^ 31) = .fresh ∧ t₂.uses (2 * 2 ^ 31) = ⟨true, true, 0⟩ ∧
      t₃.uses (2 * 2 ^ 31) = ⟨false, false, 1⟩ := by
  have hroom : (mainRun repeatOptions spacedPlacement).filterMap Op.room =
      [(1 * 2 ^ 31, repeatOptions.ramSize), (0, page), (2 * 2 ^ 31, repeatOptions.ramSize)] := by
    decide
  have hsize : repeatOptions.ramSize = 2 ^ 30 := by decide
  obtain ⟨t, hrun⟩ := exists_tracked_run (mainRun repeatOptions spacedPlacement)
    (fun _ => ⟨true, true, 7⟩) (by decide) (by rw [hroom, hsize]; simp [page])
    (by rw [hroom, hsize]; simp [page])
  obtain ⟨-, t₁, t₂, t₃, h₁, h₂, h₃, huses⟩ := plain_cycle_uses repeatOptions spacedPlacement
    plainRam (by decide) rfl rfl fresh_emptyWorld hrun (n := 1) (by decide)
  exact ⟨t₁, t₂, t₃, h₁, h₂, h₃, huses 0 plainRam.pos⟩

/-! ### The safety probes -/

/-- Every byte of guest RAM is used like this. -/
def Held (r : RamSize) (ram : ℕ) (v : Use) (t : Tracked) : Prop :=
  ∀ off < r.bytes, t.uses (ram + off) = v

/-- A piece of a run that does this to the maps, and before each operation of which, and at its
end, guest RAM is used like that. -/
def Holds (r : RamSize) (ram : ℕ) (v : Use) (A : World → Prop) (ops : List Op)
    (B : World → Prop) : Prop :=
  Triple Tracked.step (fun t _ => Held r ram v t) (fun t => A t.world ∧ Held r ram v t) ops
    fun t => B t.world ∧ Held r ram v t

namespace Holds

variable {v : Use} {A B C : World → Prop} {ops ops' : List Op}

/-- An operation that leads from `A` to `B` and does nothing to the uses of guest RAM holds them. -/
theorem single {op : Op} (h : Triple World.step (Safe r) A [op] B)
    (huse : ∀ t w', A t.world → B w' → Held r ram v t →
      ∀ off < r.bytes, t.pages.use op (ram + off) = v) : Holds r ram v A [op] B := by
  refine Triple.single (fun t ht => ht.2) fun t t' ht hstep => ?_
  obtain ⟨hworld, huses⟩ := Tracked.step_eq_some.mp hstep
  have hB := (h t.world ht.1).2 t'.world (run_cons_eq_some.mpr ⟨_, hworld, rfl⟩)
  refine ⟨hB, fun off hoff => ?_⟩
  rw [huses]
  exact huse t t'.world ht.1 hB ht.2 off hoff

/-- One piece after another holds the uses of guest RAM, if both do. -/
theorem append (h : Holds r ram v A ops B) (h' : Holds r ram v B ops' C) :
    Holds r ram v A (ops ++ ops') C := Triple.append h h'

/-- A first operation, and the rest. -/
theorem cons {op : Op} (h : Holds r ram v A [op] B) (h' : Holds r ram v B ops' C) :
    Holds r ram v A (op :: ops') C := Triple.cons h h'

/-- A pure fact in the precondition may be assumed. -/
theorem assume {φ : Prop} (h : φ → Holds r ram v A ops B) :
    Holds r ram v (fun w => φ ∧ A w) ops B :=
  fun t ht => h ht.1.1 t ⟨ht.1.2, ht.2⟩

/-- The rule of consequence: the precondition may be strengthened and the postcondition weakened. -/
theorem mono {A' B' : World → Prop} (h : Holds r ram v A ops B) (hA : ∀ w, A' w → A w)
    (hB : ∀ w, B w → B' w) : Holds r ram v A' ops B' :=
  Triple.mono h (fun t ht => ⟨hA t.world ht.1, ht.2⟩) fun t ht => ⟨hB t.world ht.1, ht.2⟩

end Holds

/-- Guest RAM that the guest uses stays as it is under whatever is done to a canary, and when the
host looks at it. The canary is a mapping of its own, which has no byte of guest RAM, so its
accesses and its advice pass the uses of guest RAM by. -/
theorem holds_canary (ho : o.ramSize = r.bytes) {m ptr : ℕ} {ops : List Op}
    (hops : ∀ S, Disjoint (span code page) (span ram r.bytes) →
      Holds r ram ⟨true, true, m⟩ (At (fullMap r code ram) (vmBytes r code ram ∪ S) F) ops
        (At (fullMap r code ram) (vmBytes r code ram ∪ S) F)) :
    Holds r ram ⟨true, true, m⟩ (Running r F code ram)
      (canaryArm ptr ++ ops ++ surveys o ptr ram) (Running r F code ram) := by
  refine Holds.assume fun hd => ?_
  -- the canary has no byte of guest RAM
  have hapart : Disjoint (vmBytes r code ram) (span ptr (1 <<< 30)) → ∀ off < r.bytes,
      ¬ (ptr ≤ ram + off ∧ ram + off < ptr + (1 <<< 30)) := by
    intro hK off hoff hc
    exact Set.disjoint_left.mp hK (.inr (add_mem_span hoff)) (mem_span.mpr hc)
  unfold canaryArm surveys
  rw [ho, List.append_assoc]
  refine (Holds.single triple_mmap fun t w' _ hB hU off hoff => ?_).cons ?_
  · rw [use_mmap, updateRange_of_not_mem (hapart hB.1.1 off hoff), hU off hoff]
  refine Holds.assume fun hK => ?_
  have hcanary : Holds r ram ⟨true, true, m⟩
      (At (fullMap r code ram) (vmBytes r code ram ∪ span ptr (1 <<< 30)) F)
      [.access ptr (1 <<< 30)]
      (At (fullMap r code ram) (vmBytes r code ram ∪ span ptr (1 <<< 30)) F) := by
    refine Holds.single (triple_access Set.subset_union_right) fun t w' _ _ hU off hoff => ?_
    rw [use_access, updateRange_of_not_mem (hapart hK.1 off hoff), hU off hoff]
  refine hcanary.cons ?_
  refine (Holds.single (triple_madvise Set.subset_union_right madvFree)
    fun t w' _ _ hU off hoff => ?_).cons ?_
  · rw [use_madvise, updateRange_of_not_mem (hapart hK.1 off hoff), hU off hoff]
  refine (hops _ hd).append ?_
  refine hcanary.cons ?_
  refine (Holds.single (triple_access (Set.subset_union_right.trans Set.subset_union_left))
    fun t w' _ _ hU off hoff => ?_).cons ?_
  · rw [use_access, updateRange_of_mem ⟨by omega, by omega⟩, hU off hoff]
    rfl
  have hpoints : ∀ g a, fullMap r code ram g = some a → a ∉ span ptr (1 <<< 30) := by
    intro g a hg hc
    refine Set.disjoint_left.mp hK.1 ?_ hc
    rcases fullMap_points hg with ⟨off, hoff, -, rfl⟩ | ⟨-, ha⟩
    · exact .inr (add_mem_span hoff)
    · exact .inl ha
  refine (Holds.single (triple_munmap Set.subset_union_right hpoints)
    fun t w' _ _ hU off hoff => ?_).mono (fun _ => id) fun w hw => ⟨hd, ?_⟩
  · rw [use_munmap, updateRange_of_not_mem (hapart hK.1 off hoff), hU off hoff]
  · have hsame : (vmBytes r code ram ∪ span ptr (1 <<< 30)) \ span ptr (1 <<< 30) =
        vmBytes r code ram := by
      rw [Set.union_sdiff_right, hK.1.sdiff_eq_left]
    rw [← hsame]
    exact hw.2

/-- The safety probes of a run.
Source: `main.rs`, `main` (pass 2) -/
def probes (o : Options) (pl : Placement) (ram : ℕ) : List Op :=
  (if o.pressureCheck then parkedPressureCheck o pl ram else []) ++
    if o.hammer then hammerCheck o pl ram else []

/-- Neither probe does anything to how guest RAM is used, before any of its operations and at its
end. -/
theorem holds_probes (ho : o.ramSize = r.bytes) (m : ℕ) :
    Holds r ram ⟨true, true, m⟩ (Running r F code ram) (probes o pl ram)
      (Running r F code ram) := by
  have hparked : Holds r ram ⟨true, true, m⟩ (Running r F code ram)
      (parkedPressureCheck o pl ram) (Running r F code ram) := by
    have hcanary : Holds r ram ⟨true, true, m⟩ (Running r F code ram)
        (canaryArm pl.parkedCanary ++ [] ++ surveys o pl.parkedCanary ram)
        (Running r F code ram) := holds_canary ho fun _ _ => Triple.nil
    simpa only [List.append_nil, parkedPressureCheck] using hcanary
  have hhammer : Holds r ram ⟨true, true, m⟩ (Running r F code ram) (hammerCheck o pl ram)
      (Running r F code ram) := by
    refine holds_canary ho fun S hd => ?_
    refine Holds.single (triple_fullMap_pass hd _) fun t w' _ _ hU off hoff => ?_
    have hpass : t.pages.use (.pass ⟨.hammer, 0, o.ramSize, 0⟩ ram) (ram + off) =
        if Reached t.world.stage2 ⟨.hammer, 0, o.ramSize, 0⟩ (ram + off)
        then (t.uses (ram + off)).fault else t.uses (ram + off) := rfl
    rw [hpass, hU off hoff]
    exact ite_self _
  unfold probes
  split_ifs
  · exact hparked.append hhammer
  · exact hparked.append Triple.nil
  · exact Holds.append (B := Running r F code ram) Triple.nil hhammer
  · exact Triple.nil

/-- **The safety probes look at the pages they are about.** In a run that reclaims once what the
guest dirtied, and then lets the guest touch it again, all of guest RAM is in use by the guest and
was marked once — the state whose safety is in question — if the pages were unmapped first and the
advice is `MADV_FREE_REUSABLE`, and was never marked otherwise, so that the naive sequence is a
true no-op; and that stays so before every operation of the probes and at their end, whatever they
do with their canaries. -/
theorem probes_see_marked (o : Options) (pl : Placement) (r : RamSize) (ho : o.ramSize = r.bytes)
    (htime : o.timeReclaim = false) (hsim : o.fleetSim = false) (hhost : o.hostTouch = false)
    (honce : o.repeats = 1) {t₀ t : Tracked} (h₀ : Fresh t₀.world)
    (hrun : run Tracked.step t₀ (mainRun o pl) = some t) :
    let ram := pl.ram 1
    let again := upToDirty o pl 0 ++ dirty o ram ++ reclaim o ram ++ touchPass o ram
    let v : Use := ⟨true, true, if o.advice = madvFreeReusable ∧ o.naive = false then 1 else 0⟩
    mainRun o pl = again ++ probes o pl ram ++ teardown o pl ram ∧
    ∃ t₁ t₂, run Tracked.step t₀ again = some t₁ ∧
      run Tracked.step t₁ (probes o pl ram) = some t₂ ∧
      Along Tracked.step (fun t _ => Held r ram v t) t₁ (probes o pl ram) ∧
      Held r ram v t₁ ∧ Held r ram v t₂ := by
  intro ram again v
  have hmain : mainRun o pl = again ++ probes o pl ram ++ teardown o pl ram := by
    unfold mainRun passTwo
    simp only [htime, hsim, honce, hhost, Bool.false_eq_true, if_false, and_self, if_true]
    rw [setup_cycles_plainCycle, cycles_plainCycle_snd]
    simp only [again, ram, probes, List.append_assoc]
  refine ⟨hmain, ?_⟩
  rw [hmain] at hrun
  obtain ⟨t₂, hrun₂, -⟩ := run_append.mp hrun
  obtain ⟨t₁, h₁, h₂⟩ := run_append.mp hrun₂
  have hstage := ((((stage_upToDirty ho 0).append (stage_dirty ho)).append
    (stage_reclaim ho)).append (stage_touchPass ho) t₀ h₀.tracked).2 t₁ h₁
  have hheld : Held r ram v t₁ := by
    intro off hoff
    rw [hstage.2 off hoff, dirtyUse_fresh, reclaimUse_dirty]
    simp only [hhost, Bool.false_eq_true, or_false, v]
    split_ifs
    · rfl
    · rfl
  have hprobes : Holds r ram v (Running r {a | t₀.world.host a = some .foreign} pl.code ram)
      (probes o pl ram) (Running r {a | t₀.world.host a = some .foreign} pl.code ram) :=
    holds_probes ho _
  obtain ⟨halong, hend⟩ := hprobes t₁ ⟨hstage.1, hheld⟩
  exact ⟨t₁, t₂, h₁, h₂, halong, hheld, (hend t₂ h₂).2⟩

/-- One cycle, and the parked probe. -/
def probeOptions : Options := { plainOptions with pressureCheck := true }

/-- The probe of the parked guest sees live data on pages that were marked once. -/
theorem probes_see_marked_parked : ∃ t₁ t₂,
    run Tracked.step t₁
        (parkedPressureCheck probeOptions spacedPlacement (2 ^ 31) ++ []) = some t₂ ∧
      Held plainRam (2 ^ 31) ⟨true, true, 1⟩ t₁ ∧ Held plainRam (2 ^ 31) ⟨true, true, 1⟩ t₂ := by
  have hroom : (mainRun probeOptions spacedPlacement).filterMap Op.room =
      [(1 * 2 ^ 31, probeOptions.ramSize), (0, page), (2 ^ 30, 1 <<< 30)] := by decide
  have hsize : probeOptions.ramSize = 2 ^ 30 := by decide
  obtain ⟨t, hrun⟩ := exists_tracked_run (mainRun probeOptions spacedPlacement)
    (fun _ => .fresh) (by decide) (by rw [hroom, hsize]; simp [page])
    (by rw [hroom, hsize]; simp [page])
  obtain ⟨-, t₁, t₂, -, h₂, -, hbefore, hafter⟩ := probes_see_marked probeOptions spacedPlacement
    plainRam (by decide) rfl rfl rfl rfl fresh_emptyWorld hrun
  exact ⟨t₁, t₂, h₂, hbefore, hafter⟩

end plain

end VmRatchet.Main
