import VmRatchet.Guest.Effect

/-!
# The guest passes refine their reference definition

A host call enters the guest again and again until the doorbell rings; each entry may be canceled
at any instruction boundary. `hvVcpuRun_advances` says what one entry does to a vCPU that comes
nearer to the doorbell with every instruction, `exists_rings` that the doorbell rings under every
live schedule, `runPassLoop_returns` that the loop returns, and `runPass_effect` what it has done to
memory: `PassEffect`, the reference definition of the pass — the word of every visited page
replaced, every other byte as before.

The result for the four memory-touching calls of the source is `guest_passes_refine`.
-/

namespace VmRatchet.Guest

open Arm64 ByteMemory

/-! ## The reference definition -/

/-- The reference effect of a pass over `[startOff, endOff)`: in each of the
`⌈(endOff - startOff) / PAGE⌉` visited pages the word at the start of the page becomes
`new i old`, and no other byte changes. -/
structure PassEffect (startOff endOff : ℕ) (new : ℕ → BitVec 64 → BitVec 64) (m m' : Mem) :
    Prop where
  words : ∀ i < (endOff - startOff + (page - 1)) / page,
    load64 m' (ramGpa + startOff + i * page) = new i (load64 m (ramGpa + startOff + i * page))
  frame : ∀ a, (∀ i < (endOff - startOff + (page - 1)) / page,
    a < ramGpa + startOff + i * page ∨ ramGpa + startOff + i * page + 8 ≤ a) → m' a = m a

/-- Two passes over the same range, one after the other, have the effect of one pass that does both
to each word. -/
theorem PassEffect.comp {startOff endOff : ℕ} {f g : ℕ → BitVec 64 → BitVec 64} {m m' m'' : Mem}
    (h : PassEffect startOff endOff f m m') (h' : PassEffect startOff endOff g m' m'') :
    PassEffect startOff endOff (fun i old => g i (f i old)) m m'' where
  words i hi := by rw [h'.words i hi, h.words i hi]
  frame a ha := (h'.frame a ha).trans (h.frame a ha)

/-- The reference effect determines the memory afterwards: a byte lies in a visited word, or in
the frame. -/
theorem PassEffect.unique {startOff endOff : ℕ} {f : ℕ → BitVec 64 → BitVec 64} {m m' m'' : Mem}
    (h : PassEffect startOff endOff f m m') (h' : PassEffect startOff endOff f m m'') :
    m' = m'' := by
  funext a
  by_cases ha : ∀ i < (endOff - startOff + (page - 1)) / page,
      a < ramGpa + startOff + i * page ∨ ramGpa + startOff + i * page + 8 ≤ a
  · exact (h.frame a ha).trans (h'.frame a ha).symm
  · push Not at ha
    obtain ⟨i, hi, hin⟩ := ha
    apply eq_of_load64_eq _ hin
    rw [h.words i hi, h'.words i hi]

/-! ## Up to the next doorbell -/

section rings

variable {mapped : ℕ → Bool} {n : ℕ} {I : PState → Vm → Prop}

/-- One instruction of a vCPU with `I` rings the doorbell, or keeps `I` and brings the doorbell
nearer. -/
def Advances (mapped : ℕ → Bool) (n : ℕ) (I : PState → Vm → Prop) : Prop :=
  ∀ s vm, I s vm →
    (s.loc = .doorbell ∧ vcpuStep mapped vm.cpu vm.mem =
        .exited (exceptionExit ecDataAbortLowerEl doorbellGpa)) ∨
      ∃ s' vm', vcpuStep mapped vm.cpu vm.mem = .ran vm'.cpu vm'.mem ∧ I s' vm' ∧
        s'.loc.remaining n < s.loc.remaining n

/-- What one entry of at most `budget` instructions does to such a vCPU. -/
theorem hvVcpuRun_advances (hI : Advances mapped n I) :
    ∀ (budget : ℕ) {s : PState} {vm : Vm}, I s vm →
      ∃ s' vm', I s' vm' ∧
        ((hvVcpuRun mapped budget vm = (canceledExit, vm') ∧
            s'.loc.remaining n + budget ≤ s.loc.remaining n) ∨
          (s'.loc = .doorbell ∧ hvVcpuRun mapped budget vm =
            (exceptionExit ecDataAbortLowerEl doorbellGpa, vm')))
  | 0, s, vm, h => ⟨s, vm, h, .inl ⟨rfl, le_rfl⟩⟩
  | budget + 1, s, vm, h => by
      rcases hI s vm h with ⟨hs, hexit⟩ | ⟨s₁, vm₁, hran, h₁, hlt⟩
      · refine ⟨s, vm, h, .inr ⟨hs, ?_⟩⟩
        simp only [hvVcpuRun, hexit]
      · obtain ⟨s₂, vm₂, h₂, hres⟩ := hvVcpuRun_advances hI budget h₁
        have heq : hvVcpuRun mapped (budget + 1) vm = hvVcpuRun mapped budget vm₁ := by
          simp only [hvVcpuRun, hran]
        refine ⟨s₂, vm₂, h₂, ?_⟩
        rw [heq]
        rcases hres with ⟨hc, hle⟩ | hbell
        · exact .inl ⟨hc, by omega⟩
        · exact .inr hbell

/-- From entry `k` with `vm` on, entry `k'` is the first that is not canceled; it rings and leaves
`vm'`. -/
inductive Rings (mapped : ℕ → Bool) (sched : CancelSchedule) : ℕ → Vm → ℕ → Vm → Prop
  | now {k : ℕ} {vm vm' : Vm} (h : hvVcpuRun mapped (sched.budget k) vm =
      (exceptionExit ecDataAbortLowerEl doorbellGpa, vm')) : Rings mapped sched k vm k vm'
  | later {k k' : ℕ} {vm vm₁ vm' : Vm}
      (h : hvVcpuRun mapped (sched.budget k) vm = (canceledExit, vm₁))
      (hrest : Rings mapped sched (k + 1) vm₁ k' vm') : Rings mapped sched k vm k' vm'

/-- **The doorbell rings**, under every live schedule. The outer induction is on the instructions
left, the inner one on the number of entries that are canceled before their first instruction. -/
theorem exists_rings (hI : Advances mapped n I) (sched : CancelSchedule) (k : ℕ) {s : PState}
    {vm : Vm} (h : I s vm) :
    ∃ s' k' vm', Rings mapped sched k vm k' vm' ∧ I s' vm' ∧ s'.loc = .doorbell := by
  suffices hmain : ∀ r k (s : PState) (vm : Vm), I s vm → s.loc.remaining n ≤ r →
      ∃ s' k' vm', Rings mapped sched k vm k' vm' ∧ I s' vm' ∧ s'.loc = .doorbell from
    hmain _ k s vm h le_rfl
  intro r
  induction r using Nat.strong_induction_on with
  | h r ih =>
      intro k s vm h hr
      obtain ⟨j, hkj, hj⟩ := sched.live k
      obtain ⟨d, rfl⟩ := Nat.exists_eq_add_of_le hkj
      induction d generalizing k s vm with
      | zero =>
          obtain ⟨s', vm', h', hres⟩ := hvVcpuRun_advances hI (sched.budget k) h
          rcases hres with ⟨hc, hle⟩ | ⟨hs, hb⟩
          · rw [Nat.add_zero] at hj
            obtain ⟨s₂, k₂, vm₂, hrings, h₂, hs₂⟩ :=
              ih (s'.loc.remaining n) (by omega) _ _ _ h' le_rfl
            exact ⟨s₂, k₂, vm₂, .later hc hrings, h₂, hs₂⟩
          · exact ⟨s', k, vm', .now hb, h', hs⟩
      | succ d ihd =>
          obtain ⟨s', vm', h', hres⟩ := hvVcpuRun_advances hI (sched.budget k) h
          rcases hres with ⟨hc, hle⟩ | ⟨hs, hb⟩
          · have hj' : 0 < sched.budget (k + 1 + d) := by
              rw [show k + 1 + d = k + (d + 1) by omega]
              exact hj
            obtain ⟨s₂, k₂, vm₂, hrings, h₂, hs₂⟩ :=
              ihd (k + 1) s' vm' h' (by omega) (by omega) hj'
            exact ⟨s₂, k₂, vm₂, .later hc hrings, h₂, hs₂⟩
          · exact ⟨s', k, vm', .now hb, h', hs⟩

end rings

/-! ## Inside a pass -/

section run

variable {p : Pass} {mapped : ℕ → Bool} {m₀ : Mem} {f : ℕ → BitVec 64}

/-- A vCPU in the middle of a pass that began on memory `m₀`. -/
structure Inside (p : Pass) (m₀ : Mem) (s : PState) (vm : Vm) : Prop where
  sim : Sim p s vm.cpu
  effect : Effect p (fun i => load64 m₀ (p.word i)) s vm.mem
  frame : ∀ a, (∀ i < p.pages, a < p.word i ∨ p.word i + 8 ≤ a) → vm.mem a = m₀ a

/-- Arming a pass leads into it: the registers stand at its start, and memory is as it was. -/
theorem Inside.start (vm : Vm) (hn : 0 < p.pages) :
    Inside p vm.mem (p.start vm.cpu) ⟨p.arm vm.cpu, vm.mem⟩ :=
  ⟨sim_arm p vm.cpu hn, Effect.start p vm.cpu vm.mem hn, fun _ _ => rfl⟩

/-- One instruction inside a pass: the doorbell, or one step nearer to it. -/
theorem Inside.step (hf : p.Fits mapped) : Advances mapped p.pages (Inside p m₀) := by
  intro s vm h
  rcases h.sim.step hf vm.mem with ⟨hs, hexit⟩ | ⟨s', m', c', hstep, hran, hsim'⟩
  · exact .inl ⟨hs, hexit⟩
  · refine .inr ⟨s', ⟨c', m'⟩, hran, ⟨hsim', ?_, ?_⟩, remaining_lt h.sim.valid hstep⟩
    · exact h.effect.step (p.pages_pos hf.lt) hstep
    · intro a ha
      exact (passStep_frame h.sim.valid hstep ha).trans (h.frame a ha)

/-! ## The host loop -/

/-- The call returned at the doorbell, still inside the pass. -/
def Returns (p : Pass) (mapped : ℕ → Bool) (sched : CancelSchedule) (m₀ : Mem) (k : ℕ) (vm : Vm) :
    Prop :=
  ∃ entries s' vm', runPassLoop mapped sched entries k vm = .returned vm' ∧
    Inside p m₀ s' vm' ∧ s'.loc = .doorbell

/-- A canceled entry hands its vCPU to the next one. -/
theorem Returns.of_canceled {sched : CancelSchedule} {k : ℕ} {vm vm' : Vm}
    (hc : hvVcpuRun mapped (sched.budget k) vm = (canceledExit, vm'))
    (h : Returns p mapped sched m₀ (k + 1) vm') : Returns p mapped sched m₀ k vm := by
  obtain ⟨entries, s', vm'', hret, hin, hs⟩ := h
  refine ⟨entries + 1, s', vm'', ?_, hin, hs⟩
  simp only [runPassLoop, hc, runToDoorbell_canceled, hret]

/-- An entry that ends at the doorbell ends the call, and the loop returns. -/
theorem Returns.of_doorbell {sched : CancelSchedule} {k : ℕ} {s' : PState} {vm vm' : Vm}
    (hb : hvVcpuRun mapped (sched.budget k) vm =
      (exceptionExit ecDataAbortLowerEl doorbellGpa, vm'))
    (hin : Inside p m₀ s' vm') (hs : s'.loc = .doorbell) : Returns p mapped sched m₀ k vm := by
  refine ⟨1, s', vm', ?_, hin, hs⟩
  simp only [runPassLoop, hb, runToDoorbell_doorbell]

/-- A call in which the guest rings after any number of canceled entries returns, still inside the
pass and at the doorbell. -/
theorem Returns.of_rings {sched : CancelSchedule} {k k' : ℕ} {s' : PState} {vm vm' : Vm}
    (h : Rings mapped sched k vm k' vm') (hin : Inside p m₀ s' vm') (hs : s'.loc = .doorbell) :
    Returns p mapped sched m₀ k vm := by
  induction h with
  | now hb => exact .of_doorbell hb hin hs
  | later hc _ ih => exact .of_canceled hc (ih hin)

/-- From inside a pass the loop of the host returns, whatever the live schedule of cancellations, at
the doorbell of the same pass. -/
theorem runPassLoop_returns (hf : p.Fits mapped) (sched : CancelSchedule) (k : ℕ) {s : PState}
    {vm : Vm} (h : Inside p m₀ s vm) : Returns p mapped sched m₀ k vm := by
  obtain ⟨s', k', vm', hrings, hin, hs⟩ := exists_rings (Inside.step hf) sched k h
  exact .of_rings hrings hin hs

/-- More entries do not change a call that has returned. -/
theorem runPassLoop_mono {sched : CancelSchedule} {entries entries' k : ℕ} {vm vm' : Vm}
    (h : runPassLoop mapped sched entries k vm = .returned vm') (hle : entries ≤ entries') :
    runPassLoop mapped sched entries' k vm = .returned vm' := by
  induction entries generalizing entries' k vm with
  | zero => cases h
  | succ entries ih =>
      obtain ⟨e, rfl⟩ : ∃ e, entries' = e + 1 := ⟨entries' - 1, by omega⟩
      rw [runPassLoop] at h ⊢
      simp only at h ⊢
      split at h
      · exact ih h (by omega)
      · exact h
      · cases h

/-- A call returns at the doorbell, under every live schedule and from every register file. -/
theorem runPass_returns (hf : p.Fits mapped) (sched : CancelSchedule) (vm : Vm) :
    ∃ entries s' vm', runPass mapped sched entries p vm = .returned vm' ∧
      Inside p vm.mem s' vm' ∧ s'.loc = .doorbell :=
  runPassLoop_returns hf sched 0 (Inside.start vm (p.pages_pos hf.lt))

/-- **One call.** Under every live schedule, from every register file, a pass that fits its
mapping returns without panicking and has done its reference effect. -/
theorem runPass_effect (hf : p.Fits mapped) (sched : CancelSchedule) (vm : Vm) :
    ∃ entries vm', runPass mapped sched entries p vm = .returned vm' ∧
      PassEffect p.startOff p.endOff p.newWord vm.mem vm'.mem := by
  obtain ⟨entries, s', vm', hret, hin, hs⟩ := runPass_returns hf sched vm
  exact ⟨entries, vm', hret, ⟨hin.effect.done hs, hin.frame⟩⟩

/-- **One verification.** It returns the number of visited words that differ from the expected
one, and leaves memory as it was. -/
theorem runVerifyRange_count {startOff endOff : ℕ} {expected : BitVec 64}
    (hf : (⟨.verify, startOff, endOff, expected⟩ : Pass).Fits mapped) (sched : CancelSchedule)
    (vm : Vm) : ∃ entries vm',
      runVerifyRange mapped sched entries startOff endOff expected vm =
        some (BitVec.ofNat 64 (mismatchCount
          (fun i => load64 vm.mem (ramGpa + startOff + i * page)) expected
          ((endOff - startOff + (page - 1)) / page)), vm') ∧
      PassEffect startOff endOff (fun _ old => old) vm.mem vm'.mem := by
  obtain ⟨entries, s', vm', hret, hin, hs⟩ := runPass_returns hf sched vm
  refine ⟨entries, vm', ?_, ⟨hin.effect.done hs, hin.frame⟩⟩
  rw [runVerifyRange, hret]
  exact congrArg (fun x => some (x, vm')) (verify_result hin.sim hin.effect hs rfl)

end run

/-! ## The four calls -/

/-- The stage-2 mapping of guest RAM: `[RAM_GPA, RAM_GPA + ramSize)`. -/
def ramMapped (ramSize : ℕ) : ℕ → Bool := fun a => decide (ramGpa ≤ a ∧ a < ramGpa + ramSize)

/-- A range whose visited words lie in mapped RAM and whose cursor does not wrap fits. -/
theorem fits_ramMapped {p : Pass} {ramSize : ℕ} (hlt : p.startOff < p.endOff)
    (hin : ∀ i < p.pages, p.startOff + i * page + 8 ≤ ramSize)
    (hwrap : ramGpa + p.endOff + page ≤ 2 ^ 64) : p.Fits (ramMapped ramSize) where
  lt := hlt
  cursor_lt := by
    have := p.word_lt_end_iff hlt (p.pages - 1)
    have hpos := p.pages_pos hlt
    have hlast : p.word (p.pages - 1) < ramGpa + p.endOff := this.mpr (by omega)
    have hsucc := p.word_succ (p.pages - 1)
    rw [show p.pages - 1 + 1 = p.pages by omega] at hsucc
    rw [page_eq] at hwrap
    omega
  end_lt := by
    rw [page_eq] at hwrap
    omega
  words_mapped i hi b hb := by
    have := hin i hi
    unfold ramMapped Pass.word Pass.base
    exact decide_eq_true ⟨by omega, by omega⟩
  doorbell_unmapped := by
    simp [ramMapped, ramGpa, doorbellGpa]

/-- **The guest passes refine their reference definition.** For every memory, every register
file and every live schedule of canceled entries, each of the four calls returns (it neither
panics nor loops for ever), and afterwards every visited word is, respectively, its own address,
unchanged, one larger, or the fill value, while every other byte of memory is as before. -/
theorem guest_passes_refine (ramSize startOff endOff : ℕ) (value : BitVec 64) (vm : Vm)
    (sched : CancelSchedule) (hlt : startOff < endOff)
    (hin : ∀ i < (endOff - startOff + (page - 1)) / page, startOff + i * page + 8 ≤ ramSize)
    (hwrap : ramGpa + endOff + page ≤ 2 ^ 64) :
    (∃ entries vm', runTouchRange (ramMapped ramSize) sched entries startOff endOff vm
        = .returned vm' ∧ PassEffect startOff endOff
          (fun i _ => BitVec.ofNat 64 (ramGpa + startOff + i * page)) vm.mem vm'.mem) ∧
      (startOff = 0 → ∃ entries vm',
        runReadPass (ramMapped ramSize) sched entries endOff vm = .returned vm' ∧
          PassEffect startOff endOff (fun _ old => old) vm.mem vm'.mem) ∧
      (∃ entries vm', runSweepRange (ramMapped ramSize) sched entries startOff endOff vm
        = .returned vm' ∧ PassEffect startOff endOff (fun _ old => old + 1) vm.mem vm'.mem) ∧
      (∃ entries vm', runFillRange (ramMapped ramSize) sched entries startOff endOff value vm
        = .returned vm' ∧ PassEffect startOff endOff (fun _ _ => value) vm.mem vm'.mem) := by
  have hfits : ∀ prog, (⟨prog, startOff, endOff, value⟩ : Pass).Fits (ramMapped ramSize) :=
    fun prog => fits_ramMapped hlt hin hwrap
  have hfits0 : ∀ prog, (⟨prog, startOff, endOff, 0⟩ : Pass).Fits (ramMapped ramSize) :=
    fun prog => fits_ramMapped hlt hin hwrap
  refine ⟨runPass_effect (hfits0 .touch) sched vm, ?_, runPass_effect (hfits0 .hammer) sched vm,
    runPass_effect (hfits .fill) sched vm⟩
  rintro rfl
  exact runPass_effect (hfits0 .read) sched vm

/-- The theorem at work: five pages, offsets that are no multiples of a page or of a word, and a
schedule that cancels every other entry. -/
theorem guest_passes_refine_five_pages :
    (80000 - 5 + (page - 1)) / page = 5 ∧
      (∃ entries vm', runTouchRange (ramMapped 131072)
        ⟨fun k => k % 2, fun k => ⟨2 * k + 1, by omega, by omega⟩⟩ entries 5 80000
          ⟨⟨fun _ => 7, 0, ⟨true, true, true, true⟩⟩, fun _ => 0⟩ = .returned vm' ∧
        PassEffect 5 80000 (fun i _ => BitVec.ofNat 64 (ramGpa + 5 + i * page)) (fun _ => 0)
          vm'.mem) ∧
      ∃ entries vm', runSweepRange (ramMapped 131072)
        ⟨fun k => k % 2, fun k => ⟨2 * k + 1, by omega, by omega⟩⟩ entries 5 80000
          ⟨⟨fun _ => 7, 0, ⟨true, true, true, true⟩⟩, fun _ => 0⟩ = .returned vm' ∧
        PassEffect 5 80000 (fun _ old => old + 1) (fun _ => 0) vm'.mem := by
  obtain ⟨htouch, -, hsweep, -⟩ := guest_passes_refine 131072 5 80000 0
    ⟨⟨fun _ => 7, 0, ⟨true, true, true, true⟩⟩, fun _ => 0⟩
    ⟨fun k => k % 2, fun k => ⟨2 * k + 1, by omega, by omega⟩⟩ (by decide)
    (by intro i hi; rw [page_eq] at hi ⊢; omega) (by decide)
  exact ⟨by decide, htouch, hsweep⟩

end VmRatchet.Guest
