import VmRatchet.Soak.Worker

/-!
# Control: where the workers are, whatever memory holds

The results of this module assume nothing of the operating system. `Control cfg k w sh` says that
worker `k` inside a pass stands at a location of that pass (`Sim`), that its hot half is stage-2
mapped at all times and its cold half outside its own reclaim, and that the statement it is at is
one the source can be at. Every step of every thread keeps it (`control_step`), so a guest
instruction always does what the pass machine says (`Control.guest`): no pass ever reaches the
"unexpected exit" panic.

* `Worker.Step` — the inversion of `Worker.step`, one constructor for each kind of action.
* `host_frame` — what a host statement can change.
* `step_mem_outside`, `step_mapped_outside` — a worker touches its own slot only.
-/

namespace VmRatchet.Soak

open Arm64 ByteMemory Guest

/-! ## Addresses -/

namespace Options

variable (o : Options) (k : ℕ)

/-- Guest-physical address of the first word of page `i` of a half. -/
def word (side : Side) (i : ℕ) : ℕ := ramGpa + (o.range k side).1 + i * page

/-- The guest-physical byte `a` belongs to the slot of worker `k`. -/
def InSlot (a : ℕ) : Prop := ramGpa + k * o.slot ≤ a ∧ a < ramGpa + (k + 1) * o.slot

/-- The guest-physical byte `a` belongs to a half of worker `k`. -/
def InRange (side : Side) (a : ℕ) : Prop :=
  ramGpa + (o.range k side).1 ≤ a ∧ a < ramGpa + (o.range k side).2

/-- Both halves of a slot have the length `half`. -/
theorem range_snd (side : Side) : (o.range k side).2 = (o.range k side).1 + o.half := by
  cases side
  · rfl
  · simp only [range, cold]
    omega

/-- The length of a half is a whole number of pages, `pagesPerHalf`. -/
theorem pagesPerHalf_mul : o.pagesPerHalf * page = o.half := Nat.div_mul_cancel o.page_dvd_half

/-- An address in one of the two halves of a slot lies in the slot. -/
theorem InRange.inSlot {o : Options} {k : ℕ} {side : Side} {a : ℕ} (h : o.InRange k side a) :
    o.InSlot k a := by
  have hfit := (o.range_in_slot k).2.2
  obtain ⟨h1, h2⟩ := h
  cases side <;> simp only [range, hot, cold] at h1 h2 hfit <;> exact ⟨by omega, by omega⟩

/-- The pages of a half end inside it. -/
theorem word_add_page_le (side : Side) {i : ℕ} (hi : i < o.pagesPerHalf) :
    o.word k side i + page ≤ ramGpa + (o.range k side).1 + o.half := by
  have hmul : (i + 1) * page ≤ o.half := by
    rw [← o.pagesPerHalf_mul]
    exact Nat.mul_le_mul_right _ hi
  rw [Nat.add_mul, Nat.one_mul] at hmul
  unfold word
  omega

/-- Every byte of a page of a half is a byte of that half. -/
theorem inRange_of_mem_page {side : Side} {i x : ℕ} (hi : i < o.pagesPerHalf)
    (h1 : o.word k side i ≤ x) (h2 : x < o.word k side i + page) : o.InRange k side x := by
  have hend := o.word_add_page_le k side hi
  unfold InRange
  unfold word at h1
  rw [o.range_snd]
  exact ⟨by omega, by omega⟩

/-- Slots of different workers share no byte: an address that lies in two slots shows that they are
the same. -/
theorem InSlot.ne {o : Options} {k j a : ℕ} (h : o.InSlot k a) (h' : o.InSlot j a) : j = k := by
  obtain ⟨h1, h2⟩ := h
  obtain ⟨h3, h4⟩ := h'
  rcases Nat.lt_trichotomy j k with hlt | heq | hlt
  · have := Nat.mul_le_mul_right o.slot (Nat.succ_le_of_lt hlt)
    simp only [Nat.succ_eq_add_one] at this
    omega
  · exact heq
  · have := Nat.mul_le_mul_right o.slot (Nat.succ_le_of_lt hlt)
    simp only [Nat.succ_eq_add_one] at this
    omega

/-- The hot and the cold half of a slot share no byte: an address that lies in both shows that they
are the same. -/
theorem InRange.side_eq {o : Options} {k : ℕ} {s s' : Side} {a : ℕ} (h : o.InRange k s a)
    (h' : o.InRange k s' a) : s = s' := by
  obtain ⟨h1, h2⟩ := h
  obtain ⟨h3, h4⟩ := h'
  cases s <;> cases s' <;> simp only [range, hot, cold] at h1 h2 h3 h4
  · rfl
  · omega
  · omega
  · rfl

/-- Distinct pages share no byte: an address in the page of two words shows that they are of the
same worker, of the same side and at the same place in the half. -/
theorem page_eq_of_mem {j : ℕ} {s s' : Side} {i i' x : ℕ} (hi : i < o.pagesPerHalf)
    (hi' : i' < o.pagesPerHalf) (h : o.word k s i ≤ x ∧ x < o.word k s i + page)
    (h' : o.word j s' i' ≤ x ∧ x < o.word j s' i' + page) : k = j ∧ s = s' ∧ i = i' := by
  have hin := o.inRange_of_mem_page k hi h.1 h.2
  have hin' := o.inRange_of_mem_page j hi' h'.1 h'.2
  obtain rfl : k = j := hin'.inSlot.ne hin.inSlot
  obtain rfl : s = s' := hin.side_eq hin'
  unfold word page at h h'
  exact ⟨rfl, rfl, by omega⟩

/-- A slot of an existing worker lies in guest RAM. -/
theorem InSlot.in_ram {o : Options} {k a : ℕ} (hk : k < o.vcpuCount) (h : o.InSlot k a) :
    ramGpa ≤ a ∧ a < ramGpa + o.ramSize := by
  have hle := o.slot_le_ramSize hk
  obtain ⟨h1, h2⟩ := h
  exact ⟨by omega, by omega⟩

/-- The page the self-test corrupts is the second page of the hot half. -/
theorem victim_word : ramGpa + o.victim k = o.word k .hot 1 := by
  simp only [victim, word, range]
  omega

end Options

/-- An accepted configuration has at least sixteen pages in each half. -/
theorem Config.le_pagesPerHalf (cfg : Config) : 16 ≤ cfg.pagesPerHalf := by
  have h := cfg.toOptions.le_half cfg.accepted
  rw [← cfg.toOptions.pagesPerHalf_mul] at h
  exact Nat.le_of_mul_le_mul_right h (by decide)

/-- The number of pages fits a 64-bit counter. -/
theorem Config.pagesPerHalf_lt (cfg : Config) : cfg.pagesPerHalf < 2 ^ 64 := by
  have hslot := cfg.toOptions.slot_lt
  have hhalf := cfg.toOptions.two_mul_half_le
  have hdiv : cfg.pagesPerHalf ≤ cfg.half := Nat.div_le_self _ _
  omega

/-! ## The passes of a worker -/

section pass

variable {cfg : Config} {k : ℕ} {w : Worker} {p : Pass}

/-- A guest pass goes over exactly one half of the worker's slot, the one named by the statement
that calls it, with the program named there. -/
theorem pass_range (h : w.pass cfg k = some p) : ∃ side, w.stmt.call = some (side, p.prog) ∧
    p.startOff = (cfg.range k side).1 ∧ p.endOff = (cfg.range k side).2 := by
  obtain ⟨⟨side, prog⟩, hcall, rfl⟩ := Option.map_eq_some_iff.mp h
  exact ⟨side, hcall, rfl, rfl⟩

/-- A pass over a half visits every page of it. -/
theorem range_pages (side : Side) (h1 : p.startOff = (cfg.range k side).1)
    (h2 : p.endOff = (cfg.range k side).2) : p.pages = cfg.pagesPerHalf := by
  have hmul := cfg.toOptions.pagesPerHalf_mul
  unfold Pass.pages
  rw [h1, h2, Options.range_snd, Nat.add_sub_cancel_left, ← hmul]
  rw [page_eq]
  omega

/-- A worker's pass visits every page of its half. -/
theorem pass_pages (h : w.pass cfg k = some p) : p.pages = cfg.pagesPerHalf := by
  obtain ⟨side, -, h1, h2⟩ := pass_range h
  exact range_pages side h1 h2

/-- The words a pass over one half visits are the words of that half, page by page. -/
theorem pass_word {side : Side} (h : p.startOff = (cfg.range k side).1) (i : ℕ) :
    p.word i = cfg.word k side i := by
  unfold Pass.word Pass.base Options.word
  rw [h]

/-- A statement without a call has no pass. -/
theorem pass_eq_none : w.pass cfg k = none ↔ w.stmt.call = none := by
  simp [Worker.pass]

end pass

/-! ## Inversion of a worker's step -/

/-- What an action of worker `k` does, by kind of action. -/
inductive Worker.Step (cfg : Config) (k : ℕ) (w : Worker) (sh : Shared) :
    Act → Worker → Shared → Prop
  | enter {p : Pass} (hr : w.running = false) (hp : w.pass cfg k = some p) :
      Step cfg k w sh .host (w.enter p) sh
  | host {w' : Worker} {sh' : Shared} (hr : w.running = false) (hp : w.stmt.call = none)
      (h : w.host cfg k sh = some (w', sh')) : Step cfg k w sh .host w' sh'
  | guest (hr : w.running = true) : Step cfg k w sh .guest (w.guest sh).1 (w.guest sh).2
  | cancel (hr : w.running = true) : Step cfg k w sh .cancel w sh
  | call {released : ℕ} {c : Call} {rest : List Call} (hs : w.stmt = .reclaim (c :: rest))
      (hle : released ≤ sh.footprint) :
      Step cfg k w sh (.call released) { w with stmt := .reclaim rest }
        { sh.call cfg.ram c with footprint := sh.footprint - released }
  | take {i : ℕ} {bytes : ℕ → BitVec 8} (hs : w.stmt.released = true) (hr : w.running = false)
      (hi : i < cfg.pagesPerHalf) :
      Step cfg k w sh (.take i bytes) { w with taken := fun j => j = i || w.taken j }
        { sh with mem := fun a =>
            if cfg.word k .cold i ≤ a ∧ a < cfg.word k .cold i + page then
              bytes (a - cfg.word k .cold i) else sh.mem a }
  | fail (hs : w.stmt ≠ .done) : Step cfg k w sh .fail { w with dead := true } sh

section inversion

variable {cfg : Config} {k : ℕ} {a : Act} {w w' : Worker} {sh sh' : Shared}

/-- Every step of a worker is one of those listed in `Worker.Step`, and only a living worker takes
one. -/
theorem Worker.step_inv (h : w.step cfg k a sh = some (w', sh')) :
    w.dead = false ∧ Worker.Step cfg k w sh a w' sh' := by
  unfold Worker.step at h
  rw [Option.ite_none_left_eq_some] at h
  obtain ⟨hd, h⟩ := h
  refine ⟨by simpa using hd, ?_⟩
  cases a with
  | host =>
      simp only [Option.ite_none_left_eq_some, Bool.not_eq_true] at h
      obtain ⟨hr, h⟩ := h
      cases hp : w.pass cfg k with
      | some p =>
          simp only [hp, Option.some.injEq, Prod.mk.injEq] at h
          obtain ⟨rfl, rfl⟩ := h
          exact .enter hr hp
      | none =>
          simp only [hp] at h
          exact .host hr (pass_eq_none.mp hp) h
  | guest =>
      simp only [Option.ite_none_right_eq_some, Option.some.injEq] at h
      obtain ⟨hr, h⟩ := h
      have h1 : (w.guest sh).1 = w' := by rw [h]
      have h2 : (w.guest sh).2 = sh' := by rw [h]
      exact h1 ▸ h2 ▸ .guest hr
  | cancel =>
      simp only [Option.ite_none_right_eq_some, Option.some.injEq, Prod.mk.injEq] at h
      obtain ⟨hr, rfl, rfl⟩ := h
      exact .cancel hr
  | call released =>
      simp only at h
      split at h
      · rename_i c rest hs
        simp only [Option.ite_none_right_eq_some, Option.some.injEq, Prod.mk.injEq] at h
        obtain ⟨hle, rfl, rfl⟩ := h
        exact .call hs hle
      · cases h
  | take i bytes =>
      simp only [Option.ite_none_right_eq_some, Option.some.injEq, Prod.mk.injEq] at h
      obtain ⟨⟨hs, hr, hi⟩, rfl, rfl⟩ := h
      exact .take hs hr hi
  | fail =>
      simp only [Option.ite_none_left_eq_some, Option.some.injEq, Prod.mk.injEq] at h
      obtain ⟨hs, rfl, rfl⟩ := h
      exact .fail hs

/-- **What a host statement can change**: local variables and statistics, one word of guest
memory, nothing else. -/
structure HostFrame (cfg : Config) (k : ℕ) (w w' : Worker) (sh sh' : Shared) : Prop where
  running : w'.running = w.running
  cpu : w'.cpu = w.cpu
  taken : w'.taken = w.taken
  checks : w'.checks = w.checks
  mapped : sh'.mapped = sh.mapped
  hostMapped : sh'.hostMapped = sh.hostMapped
  allocs : sh'.allocs = sh.allocs
  footprint : sh'.footprint = sh.footprint
  expired : sh'.expired = sh.expired
  stop : sh'.stop = sh.stop
  pressure : sh'.pressure = sh.pressure
  applied : sh'.applied = sh.applied
  main : sh'.main = sh.main
  report : sh'.report = sh.report
  mem : sh'.mem = sh.mem ∨ ∃ v, sh'.mem = store64 sh.mem (cfg.word k .hot 1) v

/-- What every host statement of a worker leaves alone, whichever it is: the worker's vCPU, both
maps, the footprint and all that belongs to the other threads. Of guest memory it stores at most to
the word of page 1 of its hot half, which is where the self-test plants its corruption. -/
theorem host_frame (h : w.host cfg k sh = some (w', sh')) : HostFrame cfg k w w' sh sh' := by
  unfold Worker.host at h
  split at h
  case h_5 | h_6 =>
    rw [Option.some.injEq, Prod.mk.injEq] at h
    obtain ⟨rfl, rfl⟩ := h
    exact ⟨rfl, rfl, rfl, rfl, rfl, rfl, rfl, rfl, rfl, rfl, rfl, rfl, rfl, rfl,
      .inr ⟨_, by rw [← Options.victim_word]⟩⟩
  case h_25 => cases h
  all_goals
    try split_ifs at h
    all_goals
      rw [Option.some.injEq, Prod.mk.injEq] at h
      obtain ⟨rfl, rfl⟩ := h
      exact ⟨rfl, rfl, rfl, rfl, rfl, rfl, rfl, rfl, rfl, rfl, rfl, rfl, rfl, rfl, .inl rfl⟩

end inversion

/-! ## The calls of a reclaim -/

/-- The call replaces the pages of a host range by fresh zero-fill. -/
def Call.remaps : Call → Bool
  | .mmapFixed _ _ => true
  | _ => false

/-- The worker has unmapped its cold half from the guest and not mapped it again. -/
def Stmt.unmapped : Stmt → Bool
  | .reclaim [] => false
  | .reclaim (.hvVmUnmap _ _ :: _) => false
  | .reclaim _ => true
  | _ => false

/-- The rounds of the hot loop are below their number; the other statements have none. -/
def Stmt.Valid : Stmt → Prop
  | .hotSweep i | .hotCount i | .hotSwept i | .hotVerify i | .hotChecked i | .hotBad i =>
      i < hotSweepsPerCycle
  | _ => True

section calls

variable {ram : ℕ} {range : ℕ × ℕ} {mode : ReclaimMode} {advice : ℤ}

/-- The calls that may be left inside `reclaim`: none, the last one, that and the one before, and so
on, in either mode. -/
theorem suffix_reclaimCalls {l : List Call} (h : l <:+ reclaimCalls ram range mode advice) :
    l = [] ∨ l = [.hvVmMap (ram + range.1) (ramGpa + range.1) (range.2 - range.1)] ∨
      (∃ c, (c = .madvise (ram + range.1) (range.2 - range.1) advice ∨
          c = .mmapFixed (ram + range.1) (range.2 - range.1)) ∧
        l = [c, .hvVmMap (ram + range.1) (ramGpa + range.1) (range.2 - range.1)]) ∨
      l = [.munmap (ram + range.1) (range.2 - range.1),
        .mmapFixed (ram + range.1) (range.2 - range.1),
        .hvVmMap (ram + range.1) (ramGpa + range.1) (range.2 - range.1)] ∨
      l = reclaimCalls ram range mode advice := by
  cases mode <;> simp only [reclaimCalls, List.cons_append, List.nil_append,
    List.suffix_cons_iff, List.suffix_nil] at h ⊢
  · rcases h with rfl | rfl | rfl | rfl
    · simp
    · exact .inr (.inr (.inl ⟨_, .inl rfl, rfl⟩))
    · simp
    · simp
  · rcases h with rfl | rfl | rfl | rfl | rfl
    · simp
    · simp
    · exact .inr (.inr (.inl ⟨_, .inr rfl, rfl⟩))
    · simp
    · simp

/-- The two stage-2 calls of a reclaim get exactly the range that is reclaimed. -/
theorem mem_reclaimCalls {c : Call} (h : c ∈ reclaimCalls ram range mode advice) :
    (∀ gpa len, c = .hvVmUnmap gpa len → gpa = ramGpa + range.1 ∧ len = range.2 - range.1) ∧
      ∀ addr gpa len, c = .hvVmMap addr gpa len →
        gpa = ramGpa + range.1 ∧ len = range.2 - range.1 := by
  cases mode <;> simp only [reclaimCalls, List.cons_append, List.nil_append, List.mem_cons,
    List.not_mem_nil, or_false] at h
  · rcases h with rfl | rfl | rfl <;> simp
  · rcases h with rfl | rfl | rfl | rfl <;> simp

/-- A reclaim makes at least three calls, in both modes and with every advice. -/
theorem length_reclaimCalls : 3 ≤ (reclaimCalls ram range mode advice).length := by
  cases mode <;> simp [reclaimCalls]

/-- Where the `mmap(MAP_FIXED)` of a reclaim stands: only in munmap mode, on the range of the
reclaim, with at most `hv_vm_map` left after it. Of the other calls of munmap mode none is the one
that leaves only `hv_vm_map` to do. -/
theorem remaps_reclaimCalls {c : Call} {rest : List Call}
    (h : c :: rest <:+ reclaimCalls ram range mode advice) :
    (c.remaps = true → mode = .munmap ∧ c = .mmapFixed (ram + range.1) (range.2 - range.1) ∧
      rest.length ≤ 1) ∧
    (c.remaps = false → mode = .munmap → (rest.length ≤ 1 ↔ (c :: rest).length ≤ 1)) := by
  cases mode <;> simp only [reclaimCalls, List.cons_append, List.nil_append,
    List.suffix_cons_iff, List.suffix_nil, List.cons.injEq, reduceCtorEq, or_false] at h
  · rcases h with ⟨rfl, rfl⟩ | ⟨rfl, rfl⟩ | ⟨rfl, rfl⟩ <;> simp [Call.remaps]
  · rcases h with ⟨rfl, rfl⟩ | ⟨rfl, rfl⟩ | ⟨rfl, rfl⟩ | ⟨rfl, rfl⟩ <;> simp [Call.remaps]

end calls

/-! ## The invariant -/

/-- **Control.** What holds of worker `k` whatever guest memory contains. -/
structure Control (cfg : Config) (k : ℕ) (w : Worker) (sh : Shared) : Prop where
  inside : w.running = true → ∃ p s, w.pass cfg k = some p ∧ Sim p s w.cpu
  hot : ∀ a, cfg.InRange k .hot a → sh.mapped a = true
  cold : w.stmt.unmapped = false → ∀ a, cfg.InRange k .cold a → sh.mapped a = true
  doorbell : sh.mapped doorbellGpa.toNat = false
  calls : ∀ rest, w.stmt = .reclaim rest →
    rest <:+ reclaimCalls cfg.ram (cfg.cold k) cfg.mode cfg.advice
  valid : w.stmt.Valid

section control

variable {cfg : Config} {k : ℕ} {a : Act} {w w' : Worker} {sh sh' : Shared} {p : Pass} {s : PState}

/-- The doorbell page lies below guest RAM, so no half of any slot covers it. -/
theorem not_inRange_doorbell (side : Side) : ¬ cfg.InRange k side doorbellGpa.toNat := by
  rintro ⟨h, -⟩
  have hdoor : doorbellGpa.toNat < ramGpa := by decide
  omega

/-- A statement that calls a pass is not inside `reclaim`. -/
theorem Stmt.unmapped_of_call {st : Stmt} {c : Side × Program} (h : st.call = some c) :
    st.unmapped = false := by
  cases st <;> first | rfl | cases h

/-- A pass over a half fits every mapping that covers the half. -/
theorem range_fits {mapped : ℕ → Bool} (side : Side) (hk : k < cfg.vcpuCount)
    (h1 : p.startOff = (cfg.range k side).1) (h2 : p.endOff = (cfg.range k side).2)
    (hmap : ∀ x, cfg.InRange k side x → mapped x = true)
    (hdoor : mapped doorbellGpa.toNat = false) : p.Fits mapped := by
  have hsnd := cfg.toOptions.range_snd k side
  have hhalf := cfg.toOptions.le_half cfg.accepted
  have hpage : 0 < page := by decide
  have hram : (cfg.range k side).2 ≤ cfg.ramSize := by
    have hmem : cfg.range k side ∈ cfg.ranges :=
      (cfg.toOptions.mem_ranges).mpr ⟨k, hk, by cases side <;> simp [Options.range]⟩
    exact (cfg.toOptions.range_le_ramSize hmem).2
  have haddr := cfg.addressable
  have hmul := cfg.toOptions.pagesPerHalf_mul
  have hpages := range_pages side h1 h2
  constructor
  · omega
  · rw [pass_word h1, hpages]
    unfold Options.word
    omega
  · omega
  · intro i hi b hb
    rw [hpages] at hi
    rw [pass_word h1]
    exact hmap _ (cfg.toOptions.inRange_of_mem_page k hi (by omega) (by rw [page_eq]; omega))
  · exact hdoor

/-- The pass that a worker under control calls fits the guest's map: its words are mapped, and the
doorbell is not. -/
theorem Control.fits (hk : k < cfg.vcpuCount) (h : Control cfg k w sh)
    (hp : w.pass cfg k = some p) : p.Fits sh.mapped := by
  obtain ⟨side, hcall, h1, h2⟩ := pass_range hp
  refine range_fits side hk h1 h2 (fun x hx => ?_) h.doorbell
  cases side with
  | hot => exact h.hot x hx
  | cold => exact h.cold (Stmt.unmapped_of_call hcall) x hx

/-- **One guest instruction** of a worker inside a pass: the pass returns, or the instruction does
what the pass machine says. -/
theorem Control.guest (hk : k < cfg.vcpuCount) (h : Control cfg k w sh)
    (hp : w.pass cfg k = some p) (hs : Sim p s w.cpu) :
    (s.loc = .doorbell ∧ w.guest sh = (w.ring, sh)) ∨
      ∃ s' m' c', passStep p s sh.mem = some (s', m') ∧ Sim p s' c' ∧
        w.guest sh = ({ w with cpu := c', checks := w.observe }, { sh with mem := m' }) := by
  rcases hs.step (h.fits hk hp) sh.mem with ⟨hloc, hexit⟩ | ⟨s', m', c', hstep, hran, hs'⟩
  · refine .inl ⟨hloc, ?_⟩
    simp only [Worker.guest, hexit, Worker.onExit, runToDoorbell_doorbell]
  · refine .inr ⟨s', m', c', hstep, hs', ?_⟩
    simp only [Worker.guest, hran]

/-! ## What a worker's step leaves alone -/

/-- A guest instruction writes only words of its own half. -/
theorem passStep_mem_outside (hp : w.pass cfg k = some p) (hs : Sim p s w.cpu) {s' : PState}
    {m m' : Mem} (h : passStep p s m = some (s', m')) {side : Side}
    (hside : p.startOff = (cfg.range k side).1) {x : ℕ} (hx : ¬ cfg.InRange k side x) :
    m' x = m x := by
  refine passStep_frame hs.valid h fun i hi => ?_
  rw [pass_pages hp] at hi
  rw [pass_word hside]
  by_contra hc
  exact hx (cfg.toOptions.inRange_of_mem_page k hi (by omega) (by rw [page_eq]; omega))

/-- **What the calls of a reclaim do to guest memory**: `mmap(MAP_FIXED)` zeroes the cold half, and
the other calls leave every byte alone. -/
theorem call_mem {c : Call} {rest : List Call}
    (hc : c :: rest <:+ reclaimCalls cfg.ram (cfg.cold k) cfg.mode cfg.advice) :
    (sh.call cfg.ram c).mem =
      if c.remaps then setRange sh.mem (ramGpa + (cfg.cold k).1) cfg.half 0 else sh.mem := by
  have hsnd := cfg.toOptions.range_snd k .cold
  simp only [Options.range] at hsnd
  cases hr : c.remaps with
  | false => cases c <;> first | rfl | cases hr
  | true =>
      obtain ⟨-, rfl, -⟩ := (remaps_reclaimCalls hc).1 hr
      simp only [Shared.call, Nat.add_sub_cancel_left, hsnd, if_true]

/-- A reclaim changes no byte of guest memory outside the cold half. -/
theorem call_mem_outside {c : Call} {rest : List Call}
    (hc : c :: rest <:+ reclaimCalls cfg.ram (cfg.cold k) cfg.mode cfg.advice) {x : ℕ}
    (hx : ¬ cfg.InRange k .cold x) : (sh.call cfg.ram c).mem x = sh.mem x := by
  have hsnd := cfg.toOptions.range_snd k .cold
  rw [call_mem hc]
  split_ifs
  · refine setRange_of_not_mem ?_
    by_contra hcon
    simp only [Options.InRange, Options.range] at hx hsnd
    omega
  · rfl

/-- **A worker writes only bytes of its own slot**: its passes store to the words of the pages of
its halves, its self-test to a page of its hot half, and its reclaim replaces or loses pages of its
cold half. -/
theorem step_mem_outside (hk : k < cfg.vcpuCount) (hC : Control cfg k w sh)
    (h : w.step cfg k a sh = some (w', sh')) {x : ℕ} (hx : ¬ cfg.InSlot k x) :
    sh'.mem x = sh.mem x := by
  obtain ⟨-, h⟩ := Worker.step_inv h
  cases h with
  | enter | cancel | fail => rfl
  | host hr hp h =>
      rcases (host_frame h).mem with hm | ⟨v, hm⟩
      · rw [hm]
      · rw [hm]
        refine store64_apply_of_not_mem ?_
        by_contra hc
        have hpages := cfg.le_pagesPerHalf
        have hin : cfg.InRange k .hot x := cfg.toOptions.inRange_of_mem_page k (i := 1) (by omega)
          (by omega) (by rw [page_eq]; omega)
        exact hx hin.inSlot
  | guest hr =>
      obtain ⟨p, s, hp, hs⟩ := hC.inside hr
      obtain ⟨side, -, hside, -⟩ := pass_range hp
      rcases hC.guest hk hp hs with ⟨-, hg⟩ | ⟨s', m', c', hstep, -, hg⟩
      · rw [hg]
      · rw [hg]
        exact passStep_mem_outside hp hs hstep hside fun hin => hx hin.inSlot
  | call hs hle => exact call_mem_outside (hC.calls _ hs) fun hin => hx hin.inSlot
  | @take i bytes hs hr hi =>
      refine if_neg fun hc => hx ?_
      exact (cfg.toOptions.inRange_of_mem_page k hi hc.1 hc.2).inSlot

/-- The calls of a reclaim leave the map outside the cold half alone. -/
theorem call_mapped_outside {c : Call}
    (hc : c ∈ reclaimCalls cfg.ram (cfg.cold k) cfg.mode cfg.advice) {x : ℕ}
    (hx : ¬ cfg.InRange k .cold x) : (sh.call cfg.ram c).mapped x = sh.mapped x := by
  have hsnd := cfg.toOptions.range_snd k .cold
  have hout : x < ramGpa + (cfg.cold k).1 ∨
      ramGpa + (cfg.cold k).1 + ((cfg.cold k).2 - (cfg.cold k).1) ≤ x := by
    by_contra hcon
    simp only [Options.InRange, Options.range] at hx hsnd
    omega
  obtain ⟨hunmap, hmap⟩ := mem_reclaimCalls hc
  cases c with
  | madvise | munmap | mmapFixed => rfl
  | hvVmUnmap gpa len =>
      obtain ⟨rfl, rfl⟩ := hunmap gpa len rfl
      exact setRange_of_not_mem hout
  | hvVmMap addr gpa len =>
      obtain ⟨rfl, rfl⟩ := hmap addr gpa len rfl
      exact setRange_of_not_mem hout

/-- **A worker maps and unmaps only its own cold half.** -/
theorem step_mapped_outside (hk : k < cfg.vcpuCount) (hC : Control cfg k w sh)
    (h : w.step cfg k a sh = some (w', sh')) {x : ℕ} (hx : ¬ cfg.InRange k .cold x) :
    sh'.mapped x = sh.mapped x := by
  obtain ⟨-, h⟩ := Worker.step_inv h
  cases h with
  | enter | cancel | fail | take => rfl
  | host hr hp h => rw [(host_frame h).mapped]
  | guest hr =>
      obtain ⟨p, s, hp, hs⟩ := hC.inside hr
      rcases hC.guest hk hp hs with ⟨-, hg⟩ | ⟨s', m', c', hstep, -, hg⟩ <;> rw [hg]
  | @call r c rest hs hle =>
      exact call_mapped_outside ((hC.calls _ hs).subset (List.mem_cons_self ..)) hx

/-! ## Every step keeps control -/

/-- Where a host statement leads: it is none at which the cold half is unmapped and neither is the
next, which is valid again; and if the next is a reclaim, what is left to call is a suffix of the
calls of `reclaim`. -/
theorem host_stmt (hv : w.stmt.Valid) (h : w.host cfg k sh = some (w', sh')) :
    w.stmt.unmapped = false ∧ w'.stmt.unmapped = false ∧ w'.stmt.Valid ∧
      ∀ rest, w'.stmt = .reclaim rest →
        rest <:+ reclaimCalls cfg.ram (cfg.cold k) cfg.mode cfg.advice := by
  unfold Worker.host at h
  split at h
  case h_25 => cases h
  all_goals
    rename_i hst
    try split_ifs at h
    all_goals
      rw [Option.some.injEq, Prod.mk.injEq] at h
      obtain ⟨rfl, rfl⟩ := h
      simp only [hst, Stmt.Valid, hotSweepsPerCycle] at hv ⊢
      try split_ifs
      all_goals
        refine ⟨rfl, rfl, ?_, ?_⟩
        · trivial
        · intro rest hrest
          cases hrest
          try exact List.suffix_refl _

/-- A call of `reclaim` keeps the map of the worker's own halves as `Control` has it. -/
theorem control_call {released : ℕ} {c : Call} {rest : List Call} (h : Control cfg k w sh)
    (hs : w.stmt = .reclaim (c :: rest)) :
    Control cfg k { w with stmt := .reclaim rest }
      { sh.call cfg.ram c with footprint := sh.footprint - released } := by
  have hsnd := cfg.toOptions.range_snd k .cold
  simp only [Options.range] at hsnd
  have hrest : rest <:+ reclaimCalls cfg.ram (cfg.cold k) cfg.mode cfg.advice :=
    (List.suffix_cons c rest).trans (h.calls _ hs)
  have hmem : c ∈ reclaimCalls cfg.ram (cfg.cold k) cfg.mode cfg.advice :=
    (h.calls _ hs).subset (List.mem_cons_self ..)
  refine ⟨?_, ?_, ?_, ?_, ?_, trivial⟩
  · intro hr
    obtain ⟨p, s, hp, -⟩ := h.inside hr
    simp [Worker.pass, hs, Stmt.call] at hp
  · intro x hx
    refine (call_mapped_outside hmem fun hx' => ?_).trans (h.hot x hx)
    cases hx.side_eq hx'
  · -- only the last call leaves the cold half mapped
    intro hun x hx
    rcases suffix_reclaimCalls (h.calls _ hs) with hl | hl | ⟨c', -, hl⟩ | hl | hl
    · cases hl
    · cases hl
      refine setRange_of_mem ?_
      simp only [Options.InRange, Options.range] at hx
      omega
    · cases hl
      cases hun
    · cases hl
      cases hun
    · cases hmode : cfg.mode <;> simp [reclaimCalls, hmode] at hl <;> obtain ⟨-, rfl⟩ := hl <;>
        cases hun
  · exact (call_mapped_outside hmem (not_inRange_doorbell .cold)).trans h.doorbell
  · intro rest' hrest'
    cases hrest'
    exact hrest

/-- A worker's own step keeps it under control: while its vCPU runs, it is at an instruction of the
pass its statement calls; the guest has the hot half mapped, and the cold half outside a reclaim;
and what a reclaim has left to do is the rest of its calls. -/
theorem control_own (hk : k < cfg.vcpuCount) (hC : Control cfg k w sh)
    (h : w.step cfg k a sh = some (w', sh')) : Control cfg k w' sh' := by
  obtain ⟨-, h⟩ := Worker.step_inv h
  cases h with
  | cancel => exact hC
  | fail => exact ⟨hC.inside, hC.hot, hC.cold, hC.doorbell, hC.calls, hC.valid⟩
  | take => exact ⟨hC.inside, hC.hot, hC.cold, hC.doorbell, hC.calls, hC.valid⟩
  | call hs hle => exact control_call hC hs
  | @enter p hr hp =>
      have hpages : 0 < p.pages := p.pages_pos (hC.fits hk hp).lt
      exact ⟨fun _ => ⟨p, p.start w.cpu, hp, sim_arm p w.cpu hpages⟩, hC.hot, hC.cold, hC.doorbell,
        hC.calls, hC.valid⟩
  | host hr hp h =>
      obtain ⟨hun, hun', hv, hcalls⟩ := host_stmt hC.valid h
      have hf := host_frame h
      refine ⟨?_, ?_, ?_, ?_, hcalls, hv⟩
      · intro hr'
        rw [hf.running, hr] at hr'
        cases hr'
      · rw [hf.mapped]
        exact hC.hot
      · intro _
        rw [hf.mapped]
        exact hC.cold hun
      · rw [hf.mapped]
        exact hC.doorbell
  | guest hr =>
      obtain ⟨p, s, hp, hs⟩ := hC.inside hr
      obtain ⟨side, hcall, -, -⟩ := pass_range hp
      rcases hC.guest hk hp hs with ⟨-, hg⟩ | ⟨s', m', c', -, hs', hg⟩
      · rw [hg]
        have hnext : w.stmt.afterPass.unmapped = false ∧ (w.stmt.Valid → w.stmt.afterPass.Valid) ∧
            ∀ rest, w.stmt.afterPass ≠ .reclaim rest := by
          cases hst : w.stmt <;> simp [hst, Stmt.call] at hcall <;>
            simp [Stmt.afterPass, Stmt.unmapped, Stmt.Valid]
        refine ⟨fun hr' => ?_, hC.hot, fun _ => ?_, hC.doorbell, fun rest hrest => ?_,
          hnext.2.1 hC.valid⟩
        · cases hr'
        · exact hC.cold (Stmt.unmapped_of_call hcall)
        · exact absurd hrest (hnext.2.2 rest)
      · rw [hg]
        exact ⟨fun _ => ⟨p, s', hp, hs'⟩, hC.hot, hC.cold, hC.doorbell, hC.calls, hC.valid⟩

/-- Control depends on the map of the worker's halves and of the doorbell only. -/
theorem Control.congr (h : Control cfg k w sh)
    (hin : ∀ side x, cfg.InRange k side x → sh'.mapped x = sh.mapped x)
    (hdoor : sh'.mapped doorbellGpa.toNat = sh.mapped doorbellGpa.toNat) :
    Control cfg k w sh' where
  inside := h.inside
  hot x hx := (hin .hot x hx).trans (h.hot x hx)
  cold hun x hx := (hin .cold x hx).trans (h.cold hun x hx)
  doorbell := hdoor.trans h.doorbell
  calls := h.calls
  valid := h.valid

/-- **What the environment can change**, event by event. -/
structure EnvFrame (e : Env) (sh sh' : Shared) : Prop where
  mapped : sh'.mapped = sh.mapped
  stats : sh'.stats = sh.stats
  selfTest : sh'.selfTest = sh.selfTest
  mem : (∀ a n, e ≠ .zero a n) → sh'.mem = sh.mem
  hostMapped : (∀ a n, e ≠ .alloc a n) → (∀ r, e ≠ .free r) → sh'.hostMapped = sh.hostMapped
  allocs : (∀ a n, e ≠ .alloc a n) → (∀ r, e ≠ .free r) → sh'.allocs = sh.allocs
  footprint : (∀ n, e ≠ .footprint n) → sh'.footprint = sh.footprint

/-- What an event of the environment leaves alone, whichever it is. -/
theorem env_frame {e : Env} {ws : ℕ → Worker} (h : e.step cfg ws sh = some sh') :
    EnvFrame e sh sh' := by
  cases e with
  | zero a n =>
      simp only [Env.step, Option.some.injEq] at h
      subst h
      exact ⟨rfl, rfl, rfl, fun hne => absurd rfl (hne a n), fun _ _ => rfl, fun _ _ => rfl,
        fun _ => rfl⟩
  | alloc a n =>
      simp only [Env.step, Option.ite_none_right_eq_some, Option.some.injEq] at h
      obtain ⟨-, rfl⟩ := h
      exact ⟨rfl, rfl, rfl, fun _ => rfl, fun hne _ => absurd rfl (hne a n),
        fun hne _ => absurd rfl (hne a n), fun _ => rfl⟩
  | free r =>
      simp only [Env.step, Option.ite_none_right_eq_some, Option.some.injEq] at h
      obtain ⟨-, rfl⟩ := h
      exact ⟨rfl, rfl, rfl, fun _ => rfl, fun _ hne => absurd rfl (hne r),
        fun _ hne => absurd rfl (hne r), fun _ => rfl⟩
  | footprint n =>
      simp only [Env.step, Option.some.injEq] at h
      subst h
      exact ⟨rfl, rfl, rfl, fun _ => rfl, fun _ _ => rfl, fun _ _ => rfl,
        fun hne => absurd rfl (hne n)⟩
  | expire =>
      simp only [Env.step, Option.some.injEq] at h
      subst h
      exact ⟨rfl, rfl, rfl, fun _ => rfl, fun _ _ => rfl, fun _ _ => rfl, fun _ => rfl⟩
  | pressure ok =>
      simp only [Env.step, Shared.pressureStep] at h
      split at h
      case h_5 => cases h
      all_goals
        rw [Option.some.injEq] at h
        subst h
        exact ⟨rfl, rfl, rfl, fun _ => rfl, fun _ _ => rfl, fun _ _ => rfl, fun _ => rfl⟩
  | main =>
      simp only [Env.step, Shared.mainStep] at h
      split at h
      case h_6 => cases h
      all_goals
        try split_ifs at h
        all_goals
          rw [Option.some.injEq] at h
          subst h
          exact ⟨rfl, rfl, rfl, fun _ => rfl, fun _ _ => rfl, fun _ _ => rfl, fun _ => rfl⟩

/-- A step of worker `k` keeps every other worker `j` under control: it changes the guest's map
inside its own cold half only, which shares no byte with the halves of `j`. -/
theorem control_other {j : ℕ} {v : Worker} (hk : k < cfg.vcpuCount) (hjk : j ≠ k)
    (hC : Control cfg k w sh) (h : w.step cfg k a sh = some (w', sh'))
    (hj : Control cfg j v sh) : Control cfg j v sh' := by
  refine hj.congr (fun side x hx => ?_) ?_
  · refine step_mapped_outside hk hC h fun hx' => hjk ?_
    exact hx'.inSlot.ne hx.inSlot
  · exact step_mapped_outside hk hC h (not_inRange_doorbell .cold)

/-- An event of the environment keeps every worker under control, because it changes neither the
guest's map nor any worker. -/
theorem control_env {e : Env} {ws : ℕ → Worker} (h : e.step cfg ws sh = some sh')
    (hC : Control cfg k w sh) : Control cfg k w sh' := by
  have hf := (env_frame h).mapped
  exact hC.congr (fun side x _ => by rw [hf]) (by rw [hf])

/-- **Control is kept by every step of the process**, of a worker, of the pressure thread, of the
main thread or of the environment. -/
theorem control_step (st : Proc) (l : Move) (st' : Proc) (_ : True)
    (h : (soak cfg).Everywhere (Control cfg) st) (hstep : (soak cfg).step st l = some st') :
    (soak cfg).Everywhere (Control cfg) st' := by
  refine Threads.System.local_invariant (P := fun _ _ => True) ?_ ?_ ?_ st l st' trivial h hstep
  · intro st k a w' sh' _ hk hC hact
    exact control_own hk (hC k hk) hact
  · intro st k j a w' sh' _ hk hj hjk hC hact
    exact control_other hk hjk (hC k hk) hact (hC j hj)
  · intro st e sh' _ hC henv j hj
    exact control_env henv (hC j hj)

/-- The process starts under control: every worker is at its first statement, outside a pass, with
all of guest RAM mapped for the guest and the doorbell page unmapped. -/
theorem control_initial {st : Proc} (h : Initial cfg st) :
    (soak cfg).Everywhere (Control cfg) st := by
  intro k hk
  obtain ⟨cpu, hw⟩ := h.fresh k
  have hmap : ∀ side x, cfg.InRange k side x → st.shared.mapped x = true := by
    intro side x hx
    rw [h.mapped]
    exact decide_eq_true (hx.inSlot.in_ram hk)
  rw [hw]
  refine ⟨by simp, hmap .hot, fun _ => hmap .cold, ?_, by simp, trivial⟩
  rw [h.mapped]
  simp [ramMapped, ramGpa, doorbellGpa]

end control

end VmRatchet.Soak
