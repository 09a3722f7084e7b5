import VmRatchet.Guest.Discard
import VmRatchet.Soak.Counters

/-!
# The log of verification loads

`Worker.checks` is the history of all loads a worker's verification passes have made. This module
connects it with what the program computes, under every behaviour of the operating system:

* `Logged` — the counted loads are the mismatches the worker has reported, or is about to report:
  `logged_step` for every step of the process.
* `Watched R n` — of the loads made since the log had length `n`, those that satisfy `R` are all
  counted. It is kept by every step whose load, if it satisfies `R`, meets a word other than the
  expected one (`watched_own`); what remains to be shown of a page is only that.
-/

namespace VmRatchet.Soak

open Arm64 ByteMemory Guest

/-! ## What one instruction adds to the log -/

section observe

variable {cfg : Config} {k : ℕ} {w : Worker} {p : Pass} {s : PState}

/-- The program counter is at the load (`t = 0`) or at the count (`t = 3`) of the verifier exactly
if the pass is a verification and stands there. -/
theorem pc_eq_verify_iff (hs : Sim p s w.cpu) {t : ℕ}
    (ht : t = 0 ∨ t = 3) :
    w.cpu.pc = Program.verify.entry + BitVec.ofNat 64 (4 * t) ↔
      p.prog = .verify ∧ s.loc.index p.prog = t := by
  rw [hs.pc]
  exact pc_verify_iff (Loc.index_lt hs.valid) ht

/-- The instructions of the other programs add nothing to the log of loads. -/
theorem observe_of_ne (hs : Sim p s w.cpu) (hp : p.prog ≠ .verify) : w.observe = w.checks := by
  have h0 : w.cpu.pc ≠ Program.verify.entry := fun h =>
    hp ((pc_eq_verify_iff hs (.inl rfl)).mp h).1
  have h3 : w.cpu.pc ≠ Program.verify.entry + 12 := fun h =>
    hp ((pc_eq_verify_iff hs (.inr rfl)).mp h).1
  rw [Worker.observe, if_neg h0, if_neg h3]

/-- The load of a verification opens an entry of the log, with the statement, the cycle and the
address, not yet counted. -/
theorem observe_load (hs : Sim p s w.cpu) (hp : p.prog = .verify) {t : ℕ}
    (hl : s.loc = .body 0 t) :
    w.observe = ⟨w.stmt, w.cycles, BitVec.ofNat 64 (p.word t), false⟩ :: w.checks := by
  have h0 : w.cpu.pc = Program.verify.entry :=
    (pc_eq_verify_iff hs (.inl rfl)).mpr ⟨hp, by rw [hl, hp]; rfl⟩
  have hx1 : w.cpu.x 1#5 = BitVec.ofNat 64 (p.word t) := hs.x1 t (by rw [hl]; rfl)
  rw [Worker.observe, if_pos h0]
  exact congrArg (fun x => (⟨w.stmt, w.cycles, x, false⟩ : Check) :: w.checks) hx1

/-- The instruction that counts a mismatch marks the newest entry of the log as counted. -/
theorem observe_count (hs : Sim p s w.cpu) (hp : p.prog = .verify) {t : ℕ}
    (hl : s.loc = .body 3 t) :
    w.observe = w.checks.modifyHead fun c => { c with counted := true } := by
  have hidx : s.loc.index p.prog = 3 := by rw [hl, hp]; rfl
  have h0 : w.cpu.pc ≠ Program.verify.entry := fun h => by
    have := ((pc_eq_verify_iff hs (.inl rfl)).mp h).2
    omega
  have h3 : w.cpu.pc = Program.verify.entry + 12 :=
    (pc_eq_verify_iff hs (.inr rfl)).mpr ⟨hp, hidx⟩
  rw [Worker.observe, if_neg h0, if_pos h3]
  cases w.checks <;> rfl

/-- The other instructions of the verifier leave the log as it is. -/
theorem observe_other (hs : Sim p s w.cpu) (hp : p.prog = .verify)
    (h0 : ∀ t, s.loc ≠ .body 0 t) (h3 : ∀ t, s.loc ≠ .body 3 t) : w.observe = w.checks := by
  have hidx : s.loc.index p.prog ≠ 0 ∧ s.loc.index p.prog ≠ 3 := by
    have hv := hs.valid
    rw [hp] at hv ⊢
    cases hl : s.loc with
    | enter | finish | again =>
        rw [hl] at hv
        cases hv
    | body j t =>
        refine ⟨fun hj => h0 t ?_, fun hj => h3 t ?_⟩ <;>
          simp [Loc.index, Program.lead] at hj <;> rw [hl, hj]
    | _ => simp [Loc.index, Program.lead, Program.bodyLen]
  rw [Worker.observe, if_neg, if_neg]
  · exact fun h => hidx.2 ((pc_eq_verify_iff hs (.inr rfl)).mp h).2
  · exact fun h => hidx.1 ((pc_eq_verify_iff hs (.inl rfl)).mp h).2

end observe

/-! ## The counted loads are reported -/

/-- The statements whose pass reports its count to the statistics. -/
def Stmt.reports : Stmt → Bool
  | .hotVerify _ | .coldVerify _ => true
  | _ => false

namespace Worker

/-- The counted loads of the reporting passes, those whose mismatches go into the statistics. -/
def countedLoads (w : Worker) : ℕ := w.checks.countP fun c => c.counted && c.stmt.reports

/-- The mismatches a pass has returned and the worker has not yet reported. -/
def pendingBad (w : Worker) : ℕ :=
  match w.stmt with
  | .hotChecked _ | .hotBad _ | .coldChecked _ | .coldBad _ => w.bad.toNat
  | _ => 0

end Worker

/-- The newest entry is the one the verifier is working on, and is not yet counted. -/
def Newest (w : Worker) : Prop :=
  ∃ c rest, w.checks = c :: rest ∧ c.stmt = w.stmt ∧ c.counted = false

/-- **Every counted load is reported**, or about to be. -/
structure Logged (cfg : Config) (k : ℕ) (w : Worker) : Prop where
  idle : w.running = false → w.countedLoads = w.reported + w.pendingBad
  busy : w.running = true → ∃ p s, w.pass cfg k = some p ∧ Sim p s w.cpu ∧
    (p.prog = .verify → Verifying p s ∧ ∀ j t, s.loc = .body (j + 1) t → Newest w) ∧
    w.countedLoads = w.reported + if w.stmt.reports = true then s.x4.toNat else 0

section logged

variable {cfg : Config} {k : ℕ} {a : Act} {w w' : Worker} {sh sh' : Shared} {p : Pass}
  {s s' : PState} {m : Mem}

/-- A statement that reports mismatches calls the verifier and no other program. -/
theorem verify_of_reports (hp : w.pass cfg k = some p) (h : w.stmt.reports = true) :
    p.prog = .verify := by
  obtain ⟨side, hcall, -, -⟩ := pass_range hp
  cases hst : w.stmt <;> simp [hst, Stmt.reports] at h <;> simp [hst, Stmt.call] at hcall <;>
    exact hcall.2.symm

/-- A statement that calls a pass has nothing to report yet. -/
theorem pendingBad_of_call (h : w.stmt.call ≠ none) : w.pendingBad = 0 := by
  cases hst : w.stmt <;> simp [hst, Stmt.call] at h <;> simp [Worker.pendingBad, hst]

/-- A host statement reports what the pass has returned, and no more: what is reported and what is
about to be keep their sum. -/
theorem host_reported (h : w.host cfg k sh = some (w', sh')) :
    w'.reported + w'.pendingBad = w.reported + w.pendingBad := by
  cases hst : w.stmt
  case reclaim rest =>
    cases rest <;>
      simp only [Worker.host, hst, Option.some.injEq, Prod.mk.injEq, reduceCtorEq] at h
    obtain ⟨rfl, rfl⟩ := h
    simp [Worker.pendingBad, hst]
  all_goals
    simp only [Worker.host, hst, reduceCtorEq] at h
    try split_ifs at h
    all_goals
      rw [Option.some.injEq, Prod.mk.injEq] at h
      obtain ⟨rfl, rfl⟩ := h
      simp only [Worker.pendingBad, hst]
      try split_ifs
      all_goals simp

/-- Marking an uncounted entry counts one more load, if its pass reports. -/
theorem countP_mark (c : Check) (rest : List Check) (h : c.counted = false) :
    ((c :: rest).modifyHead fun c => { c with counted := true }).countP
        (fun c => c.counted && c.stmt.reports) =
      (c :: rest).countP (fun c => c.counted && c.stmt.reports) +
        if c.stmt.reports = true then 1 else 0 := by
  simp [List.modifyHead, List.countP_cons, h]

/-- One instruction of a verification keeps the log: the entry it works on is the newest one, and
the counted loads are those reported so far and those in the count register. -/
theorem logged_verify (hs : Sim p s w.cpu) (hp : w.pass cfg k = some p) (hprog : p.prog = .verify)
    (hreg : Verifying p s) (hnew : ∀ j t, s.loc = .body (j + 1) t → Newest w)
    (hcount : w.countedLoads = w.reported + if w.stmt.reports = true then s.x4.toNat else 0)
    {c' : Cpu} (hs' : Sim p s' c') (hstep : VerifyStep p s m s') (hr : w.running = true) :
    Logged cfg k { w with cpu := c', checks := w.observe } := by
  have hlt : p.pages < 2 ^ 64 := by
    rw [pass_pages hp]
    exact cfg.pagesPerHalf_lt
  have hreg' := hreg.step hs.valid hlt hstep
  refine ⟨fun hr' => absurd (hr.symm.trans hr') (by decide),
    fun _ => ⟨p, s', hp, hs', fun _ => ⟨hreg', ?_⟩, ?_⟩⟩
  · -- the newest entry
    intro j t hl
    cases hstep with
    | load t' hs0 => exact ⟨_, _, observe_load hs hprog hs0, rfl, rfl⟩
    | compare t' hs1 =>
        obtain ⟨c, rest, hc, hstmt, hf⟩ := hnew 0 t' hs1
        refine ⟨c, rest, ?_, hstmt, hf⟩
        exact (observe_other hs hprog (by simp [hs1]) (by simp [hs1])).trans hc
    | skip t' hs2 =>
        obtain ⟨c, rest, hc, hstmt, hf⟩ := hnew 1 t' hs2
        refine ⟨c, rest, ?_, hstmt, hf⟩
        exact (observe_other hs hprog (by simp [hs2]) (by simp [hs2])).trans hc
    | count t' hs3 => cases hl
    | move l hb hl' hprg => cases hl' _ _ hl
  · -- the counted loads
    cases hstep with
    | load t' hs0 =>
        rw [Worker.countedLoads, observe_load hs hprog hs0]
        simpa [List.countP_cons, Worker.countedLoads] using hcount
    | compare t' hs1 =>
        rw [Worker.countedLoads, observe_other hs hprog (by simp [hs1]) (by simp [hs1])]
        exact hcount
    | skip t' hs2 =>
        rw [Worker.countedLoads, observe_other hs hprog (by simp [hs2]) (by simp [hs2])]
        exact hcount
    | move l hb hl' hprg =>
        rw [Worker.countedLoads, observe_other hs hprog (hb 0) (hb 3)]
        exact hcount
    | count t' hs3 =>
        obtain ⟨c, rest, hc, hstmt, hf⟩ := hnew 2 t' hs3
        have hv := hs.valid
        have hx4 := hreg.x4
        rw [hs3] at hv hx4
        have ht : t' < p.pages := hv.2
        have hadd : (s.x4 + 1).toNat = s.x4.toNat + 1 := by
          simp only [Loc.progress] at hx4
          rw [BitVec.toNat_add_of_lt] <;> simp
          omega
        rw [Worker.countedLoads, hc] at hcount
        rw [Worker.countedLoads, observe_count hs hprog hs3, hc, countP_mark c rest hf, hcount,
          hstmt, hadd, Nat.add_assoc]
        congr 1
        split_ifs <;> rfl

/-- When a pass returns, its count is what the worker is about to report. -/
theorem logged_ring (hs : Sim p s w.cpu) (hp : w.pass cfg k = some p)
    (hcount : w.countedLoads = w.reported + if w.stmt.reports = true then s.x4.toNat else 0) :
    Logged cfg k w.ring := by
  obtain ⟨side, hcall, -, -⟩ := pass_range hp
  have hpend : w.ring.pendingBad = if w.stmt.reports = true then s.x4.toNat else 0 := by
    rw [← hs.x4]
    cases hst : w.stmt <;> simp [hst, Stmt.call] at hcall <;>
      simp [Worker.ring, Worker.pendingBad, hst, Stmt.afterPass, Stmt.reports]
  refine ⟨fun _ => ?_, fun hr => by cases hr⟩
  rw [hpend]
  exact hcount

/-- **A worker's own step keeps the log**: the counted loads of its reporting passes are the
mismatches it has reported and those it is about to report. A load is entered by the instruction
that makes it and marked by the one that counts it; the count goes into the statistics after the
pass has returned. -/
theorem logged_own (hk : k < cfg.vcpuCount) (hC : Control cfg k w sh) (hL : Logged cfg k w)
    (h : w.step cfg k a sh = some (w', sh')) : Logged cfg k w' := by
  obtain ⟨-, h⟩ := Worker.step_inv h
  cases h with
  | cancel => exact hL
  | fail | take => exact ⟨hL.idle, hL.busy⟩
  | host hr hp h =>
      have hf := host_frame h
      refine ⟨fun _ => ?_, fun hr' => ?_⟩
      · rw [Worker.countedLoads, hf.checks, host_reported h]
        exact hL.idle hr
      · rw [hf.running, hr] at hr'
        cases hr'
  | call hs hle =>
      have hr : w.running = false := by
        by_contra hr
        obtain ⟨p, s, hp, -⟩ := hC.inside (by simpa using hr)
        simp [Worker.pass, hs, Stmt.call] at hp
      refine ⟨fun _ => ?_, fun hr' => absurd (hr.symm.trans hr') (by decide)⟩
      have := hL.idle hr
      simpa [Worker.countedLoads, Worker.pendingBad, hs] using this
  | @enter p hr hp =>
      have hidle := hL.idle hr
      obtain ⟨side, hcall, -, -⟩ := pass_range hp
      rw [pendingBad_of_call (by simp [hcall])] at hidle
      have hpos := p.pages_pos (hC.fits hk hp).lt
      refine ⟨fun hr' => (by cases hr'),
        fun _ => ⟨p, p.start w.cpu, hp, sim_arm p w.cpu hpos, ?_, ?_⟩⟩
      · intro hprog
        refine ⟨Verifying.start hprog w.cpu, fun j t hl => ?_⟩
        simp [Pass.start, hprog] at hl
      · rw [show (w.enter p).countedLoads = w.countedLoads from rfl, hidle]
        by_cases hrep : w.stmt.reports = true
        · have hprog := verify_of_reports hp hrep
          simp [Worker.enter, hrep, Pass.start, Pass.arm, armPass, hprog, Cpu.set_x]
        · simp [Worker.enter, hrep]
  | guest hr =>
      obtain ⟨p, s, hp, hs, hver, hcount⟩ := hL.busy hr
      rcases hC.guest hk hp hs with ⟨-, hg⟩ | ⟨s', m', c', hstep, hs', hg⟩
      · rw [hg]
        exact logged_ring hs hp hcount
      · rw [hg]
        by_cases hprog : p.prog = .verify
        · obtain ⟨-, hvs⟩ := verifyStep_of_passStep hprog hs.valid hstep
          exact logged_verify hs hp hprog (hver hprog).1 (hver hprog).2 hcount hs' hvs hr
        · have hrep : ¬ w.stmt.reports = true := fun h => hprog (verify_of_reports hp h)
          refine ⟨fun hr' => absurd (hr.symm.trans hr') (by decide),
            fun _ => ⟨p, s', hp, hs', fun hc => absurd hc hprog, ?_⟩⟩
          rw [Worker.countedLoads, observe_of_ne hs hprog, if_neg hrep]
          rw [if_neg hrep] at hcount
          exact hcount

end logged

/-! ## Watching some of the loads -/

/-- The load the verifier is working on will be counted. -/
def Doomed (p : Pass) (s : PState) : Prop :=
  p.prog = .verify ∧ ((∃ t, s.loc = .body 1 t ∧ s.x6 ≠ p.value) ∨
    (∃ t, s.loc = .body 2 t ∧ s.eq = false) ∨ ∃ t, s.loc = .body 3 t)

/-- The watched entries of a log are counted, the newest perhaps not yet. -/
structure Settled (R : Check → Prop) (doomed : Prop) (new : List Check) : Prop where
  tail : ∀ c ∈ new.tail, R c → c.counted = true
  head : ∀ c, new.head? = some c → R c → c.counted = true ∨ doomed

/-- Of the loads made since the log had length `n`, those that satisfy `R` are counted. -/
def Watched (R : Check → Prop) (n : ℕ) (cfg : Config) (k : ℕ) (w : Worker) : Prop :=
  ∃ new old, w.checks = new ++ old ∧ old.length = n ∧
    (w.running = false → Settled R False new) ∧
    (w.running = true → ∃ p s, w.pass cfg k = some p ∧ Sim p s w.cpu ∧
      (p.prog = .verify → Verifying p s) ∧ Settled R (Doomed p s) new)

/-- A load the worker's pass may make now and that satisfies `R` meets a word other than the
expected one. -/
def Exposed (R : Check → Prop) (cfg : Config) (k : ℕ) (w : Worker) (m : Mem) : Prop :=
  ∀ p t, w.pass cfg k = some p → p.prog = .verify → t < p.pages →
    R ⟨w.stmt, w.cycles, BitVec.ofNat 64 (p.word t), false⟩ → load64 m (p.word t) ≠ p.value

section watched

variable {R : Check → Prop} {n : ℕ} {cfg : Config} {k : ℕ} {a : Act} {w w' : Worker}
  {sh sh' : Shared} {p : Pass} {s s' : PState} {m : Mem} {new old : List Check} {A B : Prop}

/-- What is settled stays settled while the newest entry's fate does not change. -/
theorem Settled.mono (h : Settled R A new) (hAB : A → B) : Settled R B new :=
  ⟨h.tail, fun c hc hR => (h.head c hc hR).imp_right hAB⟩

/-- If no load is being worked on, every watched entry is counted. -/
theorem Settled.all (h : Settled R A new) (hA : ¬ A) : ∀ c ∈ new, R c → c.counted = true := by
  intro c hc hR
  cases new with
  | nil => cases hc
  | cons c' rest =>
      rcases List.mem_cons.mp hc with rfl | hc
      · exact (h.head c rfl hR).resolve_right hA
      · exact h.tail c hc hR

/-- Where nothing new is in the log, nothing is to settle. -/
theorem Settled.nil : Settled R A [] := ⟨by simp, by simp⟩

/-- A new entry is settled if its load is doomed to be counted, provided that all older entries are
counted. -/
theorem Settled.cons (h : Settled R A new) (hA : ¬ A) {c : Check} (hc : R c → B) :
    Settled R B (c :: new) :=
  ⟨h.all hA, fun c' hc' hR => .inr (hc (by cases hc'; exact hR))⟩

/-- Once the newest entry is marked as counted, all entries are settled, whatever comes next. -/
theorem Settled.mark (h : Settled R A new) :
    Settled R B (new.modifyHead fun c => { c with counted := true }) := by
  cases new with
  | nil => exact Settled.nil
  | cons c rest =>
      refine ⟨h.tail, fun c' hc' _ => .inl ?_⟩
      cases hc'
      rfl

/-- Outside the body of the verifier, and at its load, no load is being worked on. -/
theorem not_doomed (h : ∀ j t, s.loc = .body j t → j = 0) : ¬ Doomed p s := by
  rintro ⟨-, ⟨t, ht, -⟩ | ⟨t, ht, -⟩ | ⟨t, ht⟩⟩ <;> cases h _ _ ht

/-- One instruction of a verification keeps the watch: every new entry that is watched is counted,
but for the newest one, which is about to be. A watched load finds an unexpected word, so the
comparison does not skip the count. -/
theorem settled_verify (hs : Sim p s w.cpu) (hp : w.pass cfg k = some p)
    (hprog : p.prog = .verify) (hreg : Verifying p s) (hchecks : w.checks = new ++ old)
    (hset : Settled R (Doomed p s) new) (hex : Exposed R cfg k w m)
    (hstep : VerifyStep p s m s') :
    ∃ new' old', w.observe = new' ++ old' ∧ old'.length = old.length ∧
      Settled R (Doomed p s') new' := by
  cases hstep with
  | load t hs0 =>
      have hv := hs.valid
      rw [hs0] at hv
      refine ⟨_ :: new, old, by rw [observe_load hs hprog hs0, hchecks]; rfl, rfl, ?_⟩
      refine hset.cons (not_doomed (by simp [hs0])) fun hR => ⟨hprog, .inl ⟨t, rfl, ?_⟩⟩
      exact hex p t hp hprog hv.2 hR
  | compare t hs1 =>
      refine ⟨new, old, ?_, rfl, hset.mono ?_⟩
      · rw [observe_other hs hprog (by simp [hs1]) (by simp [hs1]), hchecks]
      · rintro ⟨-, ⟨t', ht', hne⟩ | ⟨t', ht', -⟩ | ⟨t', ht'⟩⟩
        · exact ⟨hprog, .inr (.inl ⟨t, rfl, by simpa [hreg.x5] using hne⟩)⟩
        · simp [hs1] at ht'
        · simp [hs1] at ht'
  | skip t hs2 =>
      refine ⟨new, old, ?_, rfl, hset.mono ?_⟩
      · rw [observe_other hs hprog (by simp [hs2]) (by simp [hs2]), hchecks]
      · rintro ⟨-, ⟨t', ht', -⟩ | ⟨t', ht', heq⟩ | ⟨t', ht'⟩⟩
        · simp [hs2] at ht'
        · exact ⟨hprog, .inr (.inr ⟨t, by simp [heq]⟩)⟩
        · simp [hs2] at ht'
  | count t hs3 =>
      rw [observe_count hs hprog hs3, hchecks]
      cases new with
      | nil =>
          exact ⟨[], old.modifyHead fun c => { c with counted := true }, by simp, by simp,
            Settled.nil⟩
      | cons c rest => exact ⟨_, old, rfl, rfl, hset.mark⟩
  | move l hb hl hprg =>
      refine ⟨new, old, ?_, rfl, hset.mono fun hd => ?_⟩
      · rw [observe_other hs hprog (hb 0) (hb 3), hchecks]
      · exact absurd hd (not_doomed fun j t ht => absurd ht (hb j t))

/-- **A worker's own step keeps the watch**, if the loads it may make are exposed: outside a pass
nothing is logged, and at the doorbell the newest entry has been counted with the others. -/
theorem watched_own (hk : k < cfg.vcpuCount) (hC : Control cfg k w sh)
    (hex : w.running = true → Exposed R cfg k w sh.mem) (hW : Watched R n cfg k w)
    (h : w.step cfg k a sh = some (w', sh')) : Watched R n cfg k w' := by
  obtain ⟨new, old, hchecks, hlen, hidle, hbusy⟩ := hW
  obtain ⟨-, h⟩ := Worker.step_inv h
  cases h with
  | cancel | fail | take => exact ⟨new, old, hchecks, hlen, hidle, hbusy⟩
  | host hr hp h =>
      have hf := host_frame h
      refine ⟨new, old, hf.checks.trans hchecks, hlen, fun _ => hidle hr, fun hr' => ?_⟩
      rw [hf.running, hr] at hr'
      cases hr'
  | call hs hle =>
      refine ⟨new, old, hchecks, hlen, hidle, fun hr => ?_⟩
      obtain ⟨p, s, hp, -⟩ := hC.inside hr
      simp [Worker.pass, hs, Stmt.call] at hp
  | @enter p hr hp =>
      have hpos := p.pages_pos (hC.fits hk hp).lt
      refine ⟨new, old, hchecks, hlen, fun hr' => (by cases hr'), fun _ =>
        ⟨p, p.start w.cpu, hp, sim_arm p w.cpu hpos, fun hprog => Verifying.start hprog w.cpu,
          (hidle hr).mono False.elim⟩⟩
  | guest hr =>
      obtain ⟨p, s, hp, hs, hreg, hset⟩ := hbusy hr
      rcases hC.guest hk hp hs with ⟨hloc, hg⟩ | ⟨s', m', c', hstep, hs', hg⟩
      · rw [hg]
        have hnd : ¬ Doomed p s := not_doomed (by simp [hloc])
        exact ⟨new, old, hchecks, hlen, fun _ => hset.mono hnd, fun hr' => (by cases hr')⟩
      · rw [hg]
        by_cases hprog : p.prog = .verify
        · obtain ⟨-, hvs⟩ := verifyStep_of_passStep hprog hs.valid hstep
          obtain ⟨new', old', hobs, hlen', hset'⟩ :=
            settled_verify hs hp hprog (hreg hprog) hchecks hset (hex hr) hvs
          have hlt : p.pages < 2 ^ 64 := by
            rw [pass_pages hp]
            exact cfg.pagesPerHalf_lt
          exact ⟨new', old', hobs, hlen'.trans hlen,
            fun hr' => absurd (hr.symm.trans hr') (by decide),
            fun _ => ⟨p, s', hp, hs', fun _ => (hreg hprog).step hs.valid hlt hvs, hset'⟩⟩
        · refine ⟨new, old, (observe_of_ne hs hprog).trans hchecks, hlen,
            fun hr' => absurd (hr.symm.trans hr') (by decide),
            fun _ => ⟨p, s', hp, hs', fun hc => absurd hc hprog, hset.mono fun hd => ?_⟩⟩
          exact absurd hd.1 hprog

end watched

end VmRatchet.Soak
