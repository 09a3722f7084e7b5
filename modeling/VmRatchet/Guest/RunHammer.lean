import VmRatchet.Guest.Hammer

/-!
# Sweep after sweep

`run_hammer` with nobody else at the guest's memory: the guest may be canceled at any instruction
boundary, and the callback is any machine that is asked once a sweep. One sweep of the hammer is a
pass, so the guest rings after each; `Hammering r m₀ j` says what is true during the sweep that
follows the first `j`, and stepping past the doorbell leads from sweep `j` to sweep `j + 1`.

* `runHammer` — the host loop with its callback, for a bounded number of entries into the guest.
* `callback` — what a callback answers when it is asked with `1, 2, 3, …`.
* `runHammer_returns` — the loop returns at the first call answered `false`.
* `runSweeps` — as many calls of `run_sweep_range` over all of guest RAM, one after the other.
* `run_hammer_counts_sweeps` — both leave the same memory, and the host saw every sweep once.
-/

namespace VmRatchet.Guest

open Arm64 ByteMemory

/-! ## The host loop -/

section loop

variable {κ : Type} (mapped : ℕ → Bool) (sched : CancelSchedule)
  (keepGoing : BitVec 64 → κ → Bool × κ)

/-- How a call of `run_hammer` stands after a bounded number of entries into the guest. -/
inductive HammerResult (κ : Type)
  /-- `run_hammer` returned `sweeps`, having asked its callback with `calls`. -/
  | returned (sweeps : BitVec 64) (vm : Vm) (q : κ) (calls : List (BitVec 64))
  /-- `run_to_doorbell` panicked. -/
  | panicked
  /-- Still re-entering the guest. -/
  | running

/-- The loop of `run_hammer`, from entry number `k` on, for at most `entries` entries. The callback
is asked at a doorbell only; `q` is what it remembers, `calls` the values it was asked with.
Source: `guest.rs`, `run_hammer` -/
def runHammerLoop : ℕ → ℕ → Vm → κ → List (BitVec 64) → HammerResult κ
  | 0, _, _, _, _ => .running
  | entries + 1, k, vm, q, calls =>
      let (info, vm') := hvVcpuRun mapped (sched.budget k) vm
      let sweeps := vm'.cpu.x 4
      let answer := keepGoing sweeps q
      let asked := runToDoorbell info = some .doorbell
      let q' := if asked then answer.2 else q
      let calls' := if asked then calls ++ [sweeps] else calls
      match hammerTurn info answer.1 vm'.cpu with
      | .reenter c => runHammerLoop entries (k + 1) ⟨c, vm'.mem⟩ q' calls'
      | .returned sweeps => .returned sweeps vm' q' calls'
      | .panicked => .panicked

/-- One whole call: arm the registers, then loop.
Source: `guest.rs`, `run_hammer` -/
def runHammer (entries : ℕ) (r : RamSize) (vm : Vm) (q : κ) : HammerResult κ :=
  runHammerLoop mapped sched keepGoing entries 0 ⟨armHammer r vm.cpu, vm.mem⟩ q []

/-- The answer of a callback to its `j`-th call, and what it remembers then, when the calls are
made with `1, 2, 3, …` in a `u64`. -/
def callback (q : κ) : ℕ → Bool × κ
  | 0 => (true, q)
  | j + 1 => keepGoing (BitVec.ofNat 64 (j + 1)) (callback q j).2

/-- Call number `n` is the first that the callback answers `false`. -/
def StopsAt (q : κ) (n : ℕ) : Prop :=
  (callback keepGoing q n).1 = false ∧ ∀ j < n, (callback keepGoing q j).1 = true

/-- The values of the first `n` calls of the callback: the numbers from one on, as the guest's
64-bit counter has them. -/
def sweepCounts (n : ℕ) : List (BitVec 64) := (List.range n).map fun j => BitVec.ofNat 64 (j + 1)

/-- One more sweep is reported with the next number. -/
theorem sweepCounts_succ (n : ℕ) :
    sweepCounts (n + 1) = sweepCounts n ++ [BitVec.ofNat 64 (n + 1)] := by
  simp [sweepCounts, List.range_succ]

/-- A callback that answers `false` at some time does so a first time, and not before it was
asked. -/
theorem exists_stopsAt {keepGoing : BitVec 64 → κ → Bool × κ} {q : κ}
    (h : ∃ j, (callback keepGoing q j).1 = false) : ∃ n, 0 < n ∧ StopsAt keepGoing q n := by
  classical
  have hfirst := Nat.find_spec h
  refine ⟨Nat.find h, ?_, hfirst, ?_⟩
  · rw [Nat.pos_iff_ne_zero]
    intro h0
    rw [h0] at hfirst
    cases hfirst
  · intro j hj
    simpa using Nat.find_min h hj

variable {mapped sched}

/-- From an entry whose guest will ring, the loop comes to the callback with the value in `x4`. -/
theorem runHammerLoop_of_rings {k k' : ℕ} {vm vm' : Vm} (h : Rings mapped sched k vm k' vm')
    (q : κ) (calls : List (BitVec 64)) :
    ∃ e, ∀ entries, runHammerLoop mapped sched keepGoing (entries + e) k vm q calls =
      if (keepGoing (vm'.cpu.x 4) q).1 then
        runHammerLoop mapped sched keepGoing entries (k' + 1)
          ⟨{ vm'.cpu with pc := vm'.cpu.pc + 4 }, vm'.mem⟩ (keepGoing (vm'.cpu.x 4) q).2
          (calls ++ [vm'.cpu.x 4])
      else .returned (vm'.cpu.x 4) vm' (keepGoing (vm'.cpu.x 4) q).2 (calls ++ [vm'.cpu.x 4]) := by
  induction h with
  | now hb =>
      refine ⟨1, fun entries => ?_⟩
      rw [runHammerLoop]
      simp only [hb, hammerTurn, runToDoorbell_doorbell]
      split_ifs <;> rfl
  | later hc _ ih =>
      obtain ⟨e, he⟩ := ih
      refine ⟨e + 1, fun entries => ?_⟩
      rw [← he entries, ← Nat.add_assoc, runHammerLoop]
      simp only [hc, hammerTurn, runToDoorbell_canceled]
      rfl

end loop

/-! ## During one sweep -/

section sweep

variable {r : RamSize} {m₀ : Mem} {j : ℕ} {s : PState} {vm : Vm}

/-- The guest during the sweep that follows the first `j`, all of them on memory `m₀` to begin
with. `b outer` belongs to the sweep it leads to. -/
structure Hammering (r : RamSize) (m₀ : Mem) (j : ℕ) (s : PState) (vm : Vm) : Prop where
  sim : Sim (hammerPass r) s vm.cpu
  count : s.x4 = BitVec.ofNat 64 (if s.loc = .doorbell then j + 1 else j)
  effect : (s.loc = .again ∧ ∀ i < r.pages, load64 vm.mem ((hammerPass r).word i) =
      load64 m₀ ((hammerPass r).word i) + BitVec.ofNat 64 j) ∨
    Effect (hammerPass r) (fun i => load64 m₀ ((hammerPass r).word i) + BitVec.ofNat 64 j) s vm.mem
  frame : ∀ a, (∀ i < (hammerPass r).pages,
    a < (hammerPass r).word i ∨ (hammerPass r).word i + 8 ≤ a) → vm.mem a = m₀ a

/-- A hammer about to enter a sweep has done nothing in it yet. -/
theorem effect_enter {p : Pass} {f : ℕ → BitVec 64} {m : Mem} (hp : p.prog = .hammer)
    (hs : s.loc = .enter) (hf : ∀ i < p.pages, load64 m (p.word i) = f i) : Effect p f s m := by
  refine .of_hammer hp ?_ ?_ ?_ ?_ ?_
  · rw [hs]
    exact hp
  · rw [hs]
    simp
  · intro i hi
    rw [hf i hi, hs]
    exact (if_neg (Nat.not_lt_zero i)).symm
  · simp [hs]
  · simp [hs]

/-- Arming the hammer begins the first sweep, with the count at zero and memory as it was. -/
theorem Hammering.start (r : RamSize) (vm : Vm) :
    Hammering r vm.mem 0 (hammerStart vm.cpu) ⟨armHammer r vm.cpu, vm.mem⟩ where
  sim := sim_armHammer r vm.cpu
  count := rfl
  effect := .inr (effect_enter rfl rfl fun i _ => by simp)
  frame _ _ := rfl

/-- One instruction of a sweep: the doorbell, or one step nearer to it. -/
theorem Hammering.step (r : RamSize) (m₀ : Mem) (j : ℕ) :
    Advances (ramMapped r.bytes) (hammerPass r).pages (Hammering r m₀ j) := by
  intro s vm h
  rcases h.sim.step (hammerPass_fits r) vm.mem with ⟨hs, hexit⟩ | ⟨s', m', c', hstep, hran, hsim'⟩
  · exact .inl ⟨hs, hexit⟩
  · refine .inr ⟨s', ⟨c', m'⟩, hran, ⟨hsim', ?_, ?_, ?_⟩, remaining_lt h.sim.valid hstep⟩
    · have hx4 := h.count
      rcases passStep_hammer_count rfl h.sim.valid hstep with ⟨hs, hs', hx⟩ | ⟨hs, hs', hx⟩
      · rw [hs, if_neg (by simp)] at hx4
        rw [hx, hx4, hs', if_pos rfl, BitVec.ofNat_add]
        rfl
      · rw [if_neg hs] at hx4
        rw [hx, hx4, if_neg hs']
    · right
      rcases h.effect with ⟨hs, hw⟩ | heff
      · rw [passStep_again hs, Option.some.injEq, Prod.mk.injEq] at hstep
        obtain ⟨rfl, rfl⟩ := hstep
        apply effect_enter rfl rfl
        intro i hi
        rw [hammerPass_pages] at hi
        exact hw i hi
      · exact heff.step ((hammerPass r).pages_pos r.pos) hstep
    · intro a ha
      exact (passStep_frame h.sim.valid hstep ha).trans (h.frame a ha)

/-- At the doorbell after `j` sweeps and one more the host reads `j + 1` from `x4`. -/
theorem Hammering.x4 (h : Hammering r m₀ j s vm) (hs : s.loc = .doorbell) :
    vm.cpu.x 4 = BitVec.ofNat 64 (j + 1) := by
  have hx4 := h.count
  rw [if_pos hs] at hx4
  exact h.sim.x4.trans hx4

/-- … every page holds that many more than at the beginning … -/
theorem Hammering.grown (h : Hammering r m₀ j s vm) (hs : s.loc = .doorbell) :
    PassEffect 0 r.bytes (fun _ old => old + BitVec.ofNat 64 (j + 1)) m₀ vm.mem := by
  refine ⟨?_, h.frame⟩
  intro i hi
  rcases h.effect with ⟨hs', _⟩ | heff
  · rw [hs] at hs'
    cases hs'
  · have hdone := heff.done hs i hi
    rw [BitVec.ofNat_add, ← BitVec.add_assoc]
    exact hdone

/-- Stepping past the store to the doorbell begins the next sweep, with one sweep more behind it. -/
theorem Hammering.resume (h : Hammering r m₀ j s vm) (hs : s.loc = .doorbell) :
    Hammering r m₀ (j + 1) { s with loc := .again }
      ⟨{ vm.cpu with pc := vm.cpu.pc + 4 }, vm.mem⟩ where
  sim := h.sim.resume hs
  count := by
    have hx4 := h.count
    rw [if_pos hs] at hx4
    exact hx4
  effect := by
    refine .inl ⟨rfl, fun i hi => ?_⟩
    rw [← hammerPass_pages] at hi
    exact (h.grown hs).words i hi
  frame := h.frame

end sweep

/-! ## The whole call -/

section call

variable {κ : Type} {keepGoing : BitVec 64 → κ → Bool × κ} {r : RamSize} {m₀ : Mem}

/-- From sweep `j` the loop returns at the end of sweep `n`, where call `n` is the first that is
answered `false`. The induction is on the sweeps still to come. -/
theorem runHammerLoop_returns (sched : CancelSchedule) {q : κ} {n : ℕ}
    (hstop : StopsAt keepGoing q n) (d : ℕ) :
    ∀ {j k : ℕ} {s : PState} {vm : Vm}, Hammering r m₀ j s vm → j + 1 + d = n →
      ∃ e vm', (∀ entries, runHammerLoop (ramMapped r.bytes) sched keepGoing (entries + e) k vm
          (callback keepGoing q j).2 (sweepCounts j) =
            .returned (BitVec.ofNat 64 n) vm' (callback keepGoing q n).2 (sweepCounts n)) ∧
        PassEffect 0 r.bytes (fun _ old => old + BitVec.ofNat 64 n) m₀ vm'.mem := by
  induction d with
  | zero =>
      intro j k s vm h hn
      obtain ⟨s', k', vm', hrings, h', hs'⟩ := exists_rings (Hammering.step r m₀ j) sched k h
      obtain ⟨e, he⟩ := runHammerLoop_of_rings keepGoing hrings (callback keepGoing q j).2
        (sweepCounts j)
      obtain rfl : j + 1 = n := hn
      have hfalse := hstop.1
      rw [callback] at hfalse
      refine ⟨e, vm', fun entries => ?_, h'.grown hs'⟩
      rw [he entries, h'.x4 hs', hfalse, ← sweepCounts_succ]
      rfl
  | succ d ih =>
      intro j k s vm h hn
      obtain ⟨s', k', vm', hrings, h', hs'⟩ := exists_rings (Hammering.step r m₀ j) sched k h
      obtain ⟨e, he⟩ := runHammerLoop_of_rings keepGoing hrings (callback keepGoing q j).2
        (sweepCounts j)
      obtain ⟨e', vm'', he', heff⟩ := ih (j := j + 1) (k := k' + 1) (h'.resume hs') (by omega)
      have htrue := hstop.2 (j + 1) (by omega)
      rw [callback] at htrue
      refine ⟨e' + e, vm'', fun entries => ?_, heff⟩
      rw [← Nat.add_assoc, he (entries + e'), h'.x4 hs', htrue, ← sweepCounts_succ]
      exact he' entries

/-- **The call returns**, with the number of the first call answered `false`, and every page has
grown by as much. -/
theorem runHammer_returns (r : RamSize) (vm : Vm) (sched : CancelSchedule) {q : κ} {n : ℕ}
    (hstop : StopsAt keepGoing q n) (hn : 0 < n) :
    ∃ bound vm', (∀ entries ≥ bound,
        runHammer (ramMapped r.bytes) sched keepGoing entries r vm q =
          .returned (BitVec.ofNat 64 n) vm' (callback keepGoing q n).2 (sweepCounts n)) ∧
      PassEffect 0 r.bytes (fun _ old => old + BitVec.ofNat 64 n) vm.mem vm'.mem := by
  obtain ⟨e, vm', hret, heff⟩ := runHammerLoop_returns (k := 0) sched hstop (n - 1)
    (Hammering.start r vm) (by omega)
  refine ⟨e, vm', ?_, heff⟩
  intro entries he
  obtain ⟨entries, rfl⟩ := Nat.exists_eq_add_of_le' he
  exact hret entries

end call

/-! ## As many single sweeps -/

/-- `n` calls of `run_sweep_range(0, ram_size)`, call `j` under its own schedule, each with
`entries` entries at most.
Source: `guest.rs`, `run_sweep_range` -/
def runSweeps (mapped : ℕ → Bool) (scheds : ℕ → CancelSchedule) (entries : ℕ) (r : RamSize) :
    ℕ → Vm → PassResult
  | 0, vm => .returned vm
  | n + 1, vm =>
      match runSweeps mapped scheds entries r n vm with
      | .returned vm' => runSweepRange mapped (scheds n) entries 0 r.bytes vm'
      | .panicked => .panicked
      | .running => .running

/-- The single sweeps return too, and each adds one to every page. -/
theorem runSweeps_returns (r : RamSize) (scheds : ℕ → CancelSchedule) (vm : Vm) (n : ℕ) :
    ∃ bound vm', (∀ entries ≥ bound,
        runSweeps (ramMapped r.bytes) scheds entries r n vm = .returned vm') ∧
      PassEffect 0 r.bytes (fun _ old => old + BitVec.ofNat 64 n) vm.mem vm'.mem := by
  induction n with
  | zero =>
      refine ⟨0, vm, fun _ _ => rfl, ?_, fun _ _ => rfl⟩
      intro i _
      simp
  | succ n ih =>
      obtain ⟨bound, vm₁, hret₁, heff₁⟩ := ih
      obtain ⟨entries₂, vm₂, hret₂, heff₂⟩ := runPass_effect (hammerPass_fits r) (scheds n) vm₁
      refine ⟨max bound entries₂, vm₂, ?_, ?_⟩
      · intro entries he
        rw [runSweeps, hret₁ entries (le_trans (le_max_left _ _) he)]
        exact runPassLoop_mono hret₂ (le_trans (le_max_right _ _) he)
      · have heff := heff₁.comp heff₂
        rw [show (fun (_ : ℕ) (old : BitVec 64) => old + BitVec.ofNat 64 (n + 1)) =
          fun i old => (hammerPass r).newWord i (old + BitVec.ofNat 64 n) from ?_]
        · exact heff
        · funext _ old
          rw [BitVec.ofNat_add, ← BitVec.add_assoc]
          rfl

/-! ## The count is exact -/

/-- Below `2 ^ 64` sweeps the values of the calls are the numbers `1, …, n`. -/
theorem map_toNat_sweepCounts {n : ℕ} (hn : n < 2 ^ 64) :
    (sweepCounts n).map BitVec.toNat = (List.range n).map (· + 1) := by
  rw [sweepCounts, List.map_map]
  apply List.map_congr_left
  intro j hj
  rw [List.mem_range] at hj
  exact Nat.mod_eq_of_lt (by omega)

/-- **The hammer counts its sweeps and agrees with single sweeps.** For every guest memory, register
file, size of guest RAM, live schedule of canceled entries and callback that answers `false` at
some time, with `n` the first call so answered: `run_hammer` returns `n`, having asked its callback
with `1, …, n`, where counts are `u64`; every page's first word has grown by `n` and no other byte
has changed; and `n` calls of `run_sweep_range` over all of guest RAM, from any registers and under
any schedules, leave the same memory. Up to `2 ^ 64 - 1` sweeps the counts are exact. -/
theorem run_hammer_counts_sweeps {κ : Type} (keepGoing : BitVec 64 → κ → Bool × κ) (q : κ)
    (r : RamSize) (vm : Vm) (sched : CancelSchedule)
    (hfalse : ∃ j, (callback keepGoing q j).1 = false) :
    ∃ n bound vm', 0 < n ∧ StopsAt keepGoing q n ∧
      (∀ entries ≥ bound, runHammer (ramMapped r.bytes) sched keepGoing entries r vm q =
        .returned (BitVec.ofNat 64 n) vm' (callback keepGoing q n).2
          ((List.range n).map fun j => BitVec.ofNat 64 (j + 1))) ∧
      (n < 2 ^ 64 → (BitVec.ofNat 64 n).toNat = n ∧
        ((List.range n).map fun j => BitVec.ofNat 64 (j + 1)).map BitVec.toNat =
          (List.range n).map (· + 1)) ∧
      (∀ i < r.pages, load64 vm'.mem (ramGpa + i * page) =
        load64 vm.mem (ramGpa + i * page) + BitVec.ofNat 64 n) ∧
      (∀ a, (∀ i < r.pages, a < ramGpa + i * page ∨ ramGpa + i * page + 8 ≤ a) →
        vm'.mem a = vm.mem a) ∧
      ∀ (scheds : ℕ → CancelSchedule) (c : Cpu), ∃ bound' vm'', vm''.mem = vm'.mem ∧
        ∀ entries ≥ bound', runSweeps (ramMapped r.bytes) scheds entries r n ⟨c, vm.mem⟩ =
          .returned vm'' := by
  obtain ⟨n, hn, hstop⟩ := exists_stopsAt hfalse
  obtain ⟨bound, vm', hret, heff⟩ := runHammer_returns r vm sched hstop hn
  have hpages : (r.bytes - 0 + (page - 1)) / page = r.pages := hammerPass_pages r
  have hwords := heff.words
  have hframe := heff.frame
  rw [hpages] at hwords hframe
  refine ⟨n, bound, vm', hn, hstop, hret, ?_, hwords, hframe, ?_⟩
  · intro hlt
    exact ⟨Nat.mod_eq_of_lt hlt, map_toNat_sweepCounts hlt⟩
  · intro scheds c
    obtain ⟨bound', vm'', hret', heff'⟩ := runSweeps_returns r scheds ⟨c, vm.mem⟩ n
    exact ⟨bound', vm'', heff'.unique heff, hret'⟩

/-- One page of guest RAM. -/
def onePage : RamSize where
  bytes := page
  pos := by decide
  aligned := dvd_rfl
  addressable := by decide

/-- A vCPU whose registers hold what some earlier pass left in them, and cleared memory. -/
def staleVm : Vm := ⟨⟨fun _ => 7, 0, ⟨true, true, true, true⟩⟩, fun _ => 0⟩

/-- A schedule that cancels every other entry before its first instruction. -/
def everyOther : CancelSchedule := ⟨fun k => k % 2, everyOther_live⟩

/-- A callback that counts its calls and answers `false` from call `n` on. -/
def stopAfter (n : ℕ) (_ : BitVec 64) (q : ℕ) : Bool × ℕ := (decide (q + 1 < n), q + 1)

/-- A callback that is to stop after `n` calls goes on at each earlier one, and reports the count it
was given. -/
theorem callback_stopAfter {n : ℕ} (hn : 0 < n) (j : ℕ) :
    callback (stopAfter n) 0 j = (decide (j < n), j) := by
  induction j with
  | zero => simp [callback, hn]
  | succ j ih => simp [callback, stopAfter, ih]

/-- Two sweeps over one page: a callback that stops at the second call gets the number two back,
after it was asked with one and with two. -/
theorem run_hammer_counts_two_sweeps :
    ∃ n bound vm', StopsAt (stopAfter 2) 0 n ∧ ∀ entries ≥ bound,
      runHammer (ramMapped onePage.bytes) everyOther (stopAfter 2) entries onePage staleVm 0 =
        .returned (BitVec.ofNat 64 n) vm' (callback (stopAfter 2) 0 n).2
          ((List.range n).map fun j => BitVec.ofNat 64 (j + 1)) := by
  obtain ⟨n, bound, vm', -, hstop, hret, -⟩ := run_hammer_counts_sweeps (stopAfter 2) 0 onePage
    staleVm everyOther ⟨2, by rw [callback_stopAfter (by decide)]; rfl⟩
  exact ⟨n, bound, vm', hstop, hret⟩

/-- The counts as natural numbers: with call `n` the first that is answered `false`, `run_hammer`
returns the number `n`, having asked its callback with the numbers `1, …, n`. -/
def CountsExactly {κ : Type} (keepGoing : BitVec 64 → κ → Bool × κ) (q : κ) (r : RamSize) (vm : Vm)
    (sched : CancelSchedule) : Prop :=
  ∀ n, 0 < n → StopsAt keepGoing q n →
    ∃ bound sweeps vm' q' calls, sweeps.toNat = n ∧
      calls.map BitVec.toNat = (List.range n).map (· + 1) ∧
      ∀ entries ≥ bound, runHammer (ramMapped r.bytes) sched keepGoing entries r vm q =
        .returned sweeps vm' q' calls

/-- A callback that lets the hammer make `2 ^ 64` sweeps is told, and gets back, that there was
none: the count is a register. -/
theorem run_hammer_count_wraps :
    ¬ CountsExactly (stopAfter (2 ^ 64)) 0 onePage staleVm everyOther := by
  intro h
  have hpos : 0 < 2 ^ 64 := by decide
  have hstop : StopsAt (stopAfter (2 ^ 64)) 0 (2 ^ 64) := by
    refine ⟨?_, fun j hj => ?_⟩
    · rw [callback_stopAfter hpos]
      exact decide_eq_false (Nat.lt_irrefl (2 ^ 64))
    · rw [callback_stopAfter hpos]
      exact decide_eq_true hj
  obtain ⟨bound, sweeps, vm', q', calls, hsweeps, -, hret⟩ := h _ hpos hstop
  obtain ⟨bound', vm'', hret', -⟩ := runHammer_returns onePage staleVm everyOther hstop hpos
  have heq := (hret _ (le_max_left bound bound')).symm.trans (hret' _ (le_max_right bound bound'))
  injection heq with hcount
  rw [hcount, BitVec.toNat_ofNat, Nat.mod_self] at hsweeps
  omega

end VmRatchet.Guest
