import VmRatchet.Soak.Contents
import VmRatchet.Soak.Watch

/-!
# A lost page stays lost

Once the operating system has zeroed the first word of a page of a worker's slot, every later
verification of that page meets a word other than the expected one:

* `LostHot` — a hot page does not hold what `hot_sweeps` says. A sweep raises both sides by one,
  so that the page never catches up; a further zeroing loses it again, or is covered up by the
  store of the running sweep and leaves it as lost as before.
* `LostCold` — a cold page zeroed after its fill holds zero until the end of the cycle, and the
  stamp is not zero.

Both are invariants of the page alone; with `Watched` they say that the loads are counted, and
with `Logged` that the counts are reported. The counters have 64 bits: a page that is zeroed at the
very moment at which `hot_sweeps` is zero again loses nothing.
-/

namespace VmRatchet.Soak

open Arm64 ByteMemory Guest Transition

/-! ## Zeroing -/

/-- The worker has entered the loop over `while Instant::now() < deadline`. -/
def Stmt.inLoop : Stmt → Bool
  | .vcpuCreate | .setCpsr | .firstSweep | .firstCount | .plantRead | .plantWrite | .plantVerify
  | .restore | .assertFound | .cleanVerify | .assertClean => false
  | _ => true

/-- The statement is a hot sweep of the loop. -/
def Stmt.sweepsHot : Stmt → Bool
  | .hotSweep _ => true
  | _ => false

/-- The number of hot sweeps started, as an unbounded number. -/
def Worker.hotStarted (w : Worker) : ℕ :=
  w.hotMade + match w.stmt with
    | .hotSweep _ | .hotCount _ => 1
    | _ => 0

/-- Zeroing `n` bytes from `a` on covers the word at `b`. -/
def Hits (a n b : ℕ) : Prop := a ≤ b ∧ b + 8 ≤ a + n

/-- Zeroing `n` bytes from `a` on leaves the word at `b` alone. -/
def Misses (a n b : ℕ) : Prop := b + 8 ≤ a ∨ a + n ≤ b

/-- The vCPU is between the `ldr` and the `str` of the word at `b`, in a hot sweep. -/
def Worker.inWindow (w : Worker) (b : ℕ) : Prop :=
  w.running = true ∧ w.stmt.sweepsHot = true ∧
    (w.cpu.pc = Program.hammer.entry + 8 ∨ w.cpu.pc = Program.hammer.entry + 12) ∧
    w.cpu.x 1 = BitVec.ofNat 64 b

/-- **What is assumed of the zeroing events**: they hit pages of the slot of worker `k` as a whole
or not at all, and strike while the worker has started fewer than `2 ^ 64` hot sweeps. -/
def ZeroesPages (cfg : Config) (k : ℕ) (st : Proc) (l : Move) : Prop :=
  ∀ a n, l = .env (.zero a n) → (st.thread k).hotStarted < 2 ^ 64 ∧
    ∀ side, ∀ i < cfg.pagesPerHalf, Hits a n (cfg.word k side i) ∨ Misses a n (cfg.word k side i)

/-- Inside a pass the vCPU never stands at `b outer`, which no host loop of the soak resumes. -/
def Ongoing (cfg : Config) (k : ℕ) (w : Worker) : Prop :=
  w.running = true → ∃ p s, w.pass cfg k = some p ∧ Sim p s w.cpu ∧ s.loc ≠ .again

/-- Every step of a worker keeps its vCPU off the branch `b outer` while it is inside a pass. -/
theorem ongoing_own {cfg : Config} {k : ℕ} {a : Act} {w w' : Worker} {sh sh' : Shared}
    (hk : k < cfg.vcpuCount) (hC : Control cfg k w sh) (h : Ongoing cfg k w)
    (hstep : w.step cfg k a sh = some (w', sh')) : Ongoing cfg k w' := by
  obtain ⟨-, hstep⟩ := Worker.step_inv hstep
  intro hr'
  cases hstep with
  | cancel | fail | take => exact h hr'
  | host hr hp hh =>
      rw [(host_frame hh).running, hr] at hr'
      cases hr'
  | call hs hle =>
      obtain ⟨p, s, hp, -⟩ := hC.inside hr'
      simp [Worker.pass, hs, Stmt.call] at hp
  | @enter p hr hp =>
      refine ⟨p, p.start w.cpu, hp, sim_arm p w.cpu (p.pages_pos (hC.fits hk hp).lt), ?_⟩
      unfold Pass.start
      split_ifs <;> simp
  | guest hr =>
      obtain ⟨p, s, hp, hs, -⟩ := h hr
      rcases hC.guest hk hp hs with ⟨-, hg⟩ | ⟨s', m', c', hps, hs', hg⟩
      · rw [hg] at hr'
        cases hr'
      · rw [hg]
        exact ⟨p, s', hp, hs', passStep_ne_again hps⟩

/-! ## Hot pages -/

/-- **Hot page `i` is lost**: it does not hold what the worker expects. -/
structure LostHot (cfg : Config) (k i : ℕ) (w : Worker) (m : Mem) : Prop where
  loop : w.stmt.inLoop = true
  still : w.running = false ∨ w.stmt.sweepsHot = false →
    load64 m (cfg.word k .hot i) ≠ w.hotWord i
  swept : w.running = true → w.stmt.sweepsHot = true → ∃ p s v, w.pass cfg k = some p ∧
    Sim p s w.cpu ∧ s.loc ≠ .again ∧ v ≠ w.hotSweeps ∧ Swept p i v s m

section hot

variable {cfg : Config} {k i : ℕ} {a : Act} {w w' : Worker} {sh sh' : Shared} {m m' : Mem}
  {p : Pass} {s : PState}

/-- The pass of a hot sweep is the hammer, and it goes over the words of the hot half. -/
theorem pass_of_sweepsHot (hp : w.pass cfg k = some p) (h : w.stmt.sweepsHot = true) :
    p.prog = .hammer ∧ ∀ t, p.word t = cfg.word k .hot t := by
  obtain ⟨side, hcall, hside, -⟩ := pass_range hp
  cases hst : w.stmt <;> simp [hst, Stmt.sweepsHot] at h
  simp only [hst, Stmt.call, Option.some.injEq, Prod.mk.injEq] at hcall
  obtain ⟨rfl, hprog⟩ := hcall
  exact ⟨hprog.symm, pass_word hside⟩

/-- In the loop a hot page should hold the number of sweeps, or one more while the last sweep has
not been counted yet. -/
theorem hotWord_eq (h : w.stmt.inLoop = true) :
    w.hotWord i = w.hotSweeps ∨ (∃ r, w.stmt = .hotCount r) ∧ w.hotWord i = w.hotSweeps + 1 := by
  cases hst : w.stmt <;> simp [hst, Stmt.inLoop] at h <;> simp [Worker.hotWord, hst]

/-- Whether a hot page is lost depends on memory only through its own word. -/
theorem LostHot.congr (h : LostHot cfg k i w m)
    (hm : load64 m' (cfg.word k .hot i) = load64 m (cfg.word k .hot i)) :
    LostHot cfg k i w m' := by
  refine ⟨h.loop, fun hst => by rw [hm]; exact h.still hst, fun hr hsw => ?_⟩
  obtain ⟨p, s, v, hp, hs, hloc, hv, hswept⟩ := h.swept hr hsw
  refine ⟨p, s, v, hp, hs, hloc, hv, hswept.congr ?_⟩
  rw [(pass_of_sweepsHot hp hsw).2]
  exact hm

/-- The expected word of a hot page is not zero while the counter has not wrapped. -/
theorem hotSweeps_ne_zero (hV : Vars k w) (hloop : w.stmt.inLoop = true)
    (hfew : w.hotStarted < 2 ^ 64) :
    w.hotWord i ≠ 0 ∧ w.hotSweeps ≠ 0 ∧ (w.stmt.sweepsHot = true → w.hotSweeps + 1 ≠ 0) := by
  have hne : ∀ n, 0 < n → n < 2 ^ 64 → BitVec.ofNat 64 n ≠ 0 := by
    intro n hpos hlt heq
    have := congrArg BitVec.toNat heq
    rw [BitVec.toNat_ofNat, Nat.mod_eq_of_lt hlt] at this
    simp at this
    omega
  have hpos : 0 < w.hotMade := by
    unfold Worker.hotMade
    cases hst : w.stmt <;> simp [hst, Stmt.inLoop] at hloop <;> simp
  have hle : w.hotMade ≤ w.hotStarted := Nat.le_add_right ..
  have hsucc : w.hotSweeps + 1 = BitVec.ofNat 64 (w.hotMade + 1) := by
    rw [hV.hotSweeps, BitVec.ofNat_add]
    rfl
  have hbase : w.hotSweeps ≠ 0 := by
    rw [hV.hotSweeps]
    exact hne _ hpos (by omega)
  refine ⟨?_, hbase, fun hsw => ?_⟩
  · rcases hotWord_eq hloop (i := i) with h | ⟨⟨r, hst⟩, h⟩
    · rwa [h]
    · rw [h, hsucc]
      refine hne _ (by omega) ?_
      simpa [Worker.hotStarted, hst] using hfew
  · rw [hsucc]
    refine hne _ (by omega) ?_
    cases hst : w.stmt <;> simp [hst, Stmt.sweepsHot] at hsw
    simpa [Worker.hotStarted, hst] using hfew

/-- A zero word outside the window of a running sweep is a lost page: already swept, it counts as
`-1` at the start of the sweep, and as zero otherwise. -/
theorem swept_of_zero {e : BitVec 64} (hbase : e ≠ 0) (hnext : e + 1 ≠ 0)
    (h1 : s.loc ≠ .body 1 i) (h2 : s.loc ≠ .body 2 i) (hzero : load64 m (p.word i) = 0) :
    ∃ v, v ≠ e ∧ Swept p i v s m := by
  by_cases hprog : i < s.loc.progress p.pages
  · refine ⟨-1, fun hc => hnext (by rw [← hc]; rfl), Swept.of_word h1 h2 ?_⟩
    rw [hzero, if_pos hprog]
    rfl
  · refine ⟨0, hbase.symm, Swept.of_word h1 h2 ?_⟩
    rw [hzero, if_neg hprog]

/-- **Zeroing loses a hot page**, unless the store of the running sweep is about to cover it up:
zero is not what is expected, as the worker has counted a sweep by then and the counter has not
wrapped. -/
theorem lostHot_of_zero (hO : Ongoing cfg k w) (hV : Vars k w) (hloop : w.stmt.inLoop = true)
    (hfew : w.hotStarted < 2 ^ 64) (hout : ¬ w.inWindow (cfg.word k .hot i))
    (hzero : load64 m (cfg.word k .hot i) = 0) :
    LostHot cfg k i w m := by
  obtain ⟨hword, hbase, hnext⟩ := hotSweeps_ne_zero (i := i) hV hloop hfew
  refine ⟨hloop, fun _ => by rw [hzero]; exact hword.symm, fun hr hsw => ?_⟩
  obtain ⟨p, s, hp, hs, hloc⟩ := hO hr
  obtain ⟨hprog, hpw⟩ := pass_of_sweepsHot hp hsw
  have hx1 : ∀ j, s.loc = .body j i → w.cpu.x 1#5 = BitVec.ofNat 64 (cfg.word k .hot i) := by
    intro j hl
    rw [← hpw]
    exact hs.x1 i (by rw [hl]; rfl)
  have hpc : ∀ j, s.loc = .body j i →
      w.cpu.pc = Program.hammer.entry + BitVec.ofNat 64 (4 * (1 + j)) := by
    intro j hl
    rw [hs.pc, hl, hprog]
    rfl
  obtain ⟨v, hv, hswept⟩ := swept_of_zero hbase (hnext hsw)
    (fun hl => hout ⟨hr, hsw, .inl (hpc 1 hl), hx1 1 hl⟩)
    (fun hl => hout ⟨hr, hsw, .inr (hpc 2 hl), hx1 2 hl⟩) (by rw [hpw]; exact hzero)
  exact ⟨p, s, v, hp, hs, hloc, hv, hswept⟩

/-- A further zeroing event, whether it hits the page as a whole or misses it, keeps a lost page
lost. -/
theorem lostHot_zero (hV : Vars k w) (hfew : w.hotStarted < 2 ^ 64) {b n : ℕ}
    (hhit : Hits b n (cfg.word k .hot i) ∨ Misses b n (cfg.word k .hot i))
    (h : LostHot cfg k i w m) : LostHot cfg k i w (setRange m b n 0) := by
  rcases hhit with hhit | hmiss
  · obtain ⟨hword, hbase, hnext⟩ := hotSweeps_ne_zero (i := i) hV h.loop hfew
    have hzero : load64 (setRange m b n 0) (cfg.word k .hot i) = 0 := load64_setRange_zero hhit
    refine ⟨h.loop, fun _ => by rw [hzero]; exact hword.symm, fun hr hsw => ?_⟩
    obtain ⟨p, s, v, hp, hs, hloc, hv, hswept⟩ := h.swept hr hsw
    by_cases hwin : s.loc = .body 1 i ∨ s.loc = .body 2 i
    · -- covered up: the register still holds the page
      exact ⟨p, s, v, hp, hs, hloc, hv, hswept.masked hwin⟩
    · rw [not_or] at hwin
      rw [← (pass_of_sweepsHot hp hsw).2] at hzero
      obtain ⟨v', hv', hswept'⟩ := swept_of_zero hbase (hnext hsw) hwin.1 hwin.2 hzero
      exact ⟨p, s, v', hp, hs, hloc, hv', hswept'⟩
  · exact h.congr (load64_setRange_of_disjoint hmiss)

/-- In the loop a host statement stays in the loop, leaves memory alone, and changes the counter
only where it counts a sweep. -/
theorem host_hotWord (hloop : w.stmt.inLoop = true) (h : w.host cfg k sh = some (w', sh')) :
    w'.stmt.inLoop = true ∧ sh'.mem = sh.mem ∧ w'.hotWord i = w.hotWord i := by
  cases hst : w.stmt
  case reclaim rest =>
    cases rest <;>
      simp only [Worker.host, hst, Option.some.injEq, Prod.mk.injEq, reduceCtorEq] at h
    obtain ⟨rfl, rfl⟩ := h
    simp [Stmt.inLoop, Worker.hotWord, hst]
  all_goals
    simp only [hst, Stmt.inLoop, reduceCtorEq] at hloop
    all_goals
      simp only [Worker.host, hst, reduceCtorEq, Option.some.injEq, Prod.mk.injEq] at h
      try obtain ⟨rfl, rfl⟩ := h
      try simp only [Worker.hotWord, hst]
      try split_ifs
      all_goals simp [Stmt.inLoop]

/-- In the loop a pass other than a hot sweep does not write to the hot half. -/
theorem loop_keeps_hot (hloop : w.stmt.inLoop = true) (hsw : w.stmt.sweepsHot = false)
    (hp : w.pass cfg k = some p) (hs : Sim p s w.cpu) {s' : PState}
    (hps : passStep p s m = some (s', m')) : ∀ x, cfg.InRange k .hot x → m' x = m x := by
  intro x hx
  obtain ⟨side, hcall, hside, -⟩ := pass_range hp
  cases side with
  | cold =>
      refine passStep_mem_outside hp hs hps hside fun hx' => ?_
      cases hx.side_eq hx'
  | hot =>
      have hprog : p.prog = .verify := by
        cases hst : w.stmt <;> simp [hst, Stmt.call] at hcall <;>
          simp [hst, Stmt.sweepsHot] at hsw <;> simp [hst, Stmt.inLoop] at hloop
        exact hcall.symm
      rw [(verifyStep_of_passStep hprog hs.valid hps).1]

/-- **A worker's own step keeps its lost pages lost**: no statement and no instruction of the loop
brings the expected word back. A sweep adds one to the word and to what is expected alike; during
the sweep the two are compared as if it had already passed the page, or not yet. -/
theorem lostHot_own (hk : k < cfg.vcpuCount) (hi : i < cfg.pagesPerHalf)
    (hC : Control cfg k w sh) (h : LostHot cfg k i w sh.mem)
    (hstep : w.step cfg k a sh = some (w', sh')) : LostHot cfg k i w' sh'.mem := by
  obtain ⟨-, hstep⟩ := Worker.step_inv hstep
  cases hstep with
  | cancel => exact h
  | fail => exact ⟨h.loop, h.still, h.swept⟩
  | host hr hp hh =>
      have hf := host_frame hh
      obtain ⟨hloop, hmem, hword⟩ := host_hotWord (i := i) h.loop hh
      refine ⟨hloop, fun _ => ?_, fun hr' => ?_⟩
      · rw [hmem, hword]
        exact h.still (.inl hr)
      · rw [hf.running, hr] at hr'
        cases hr'
  | @call released c rest hs hle =>
      -- the calls leave the hot half alone
      have hm : load64 (sh.call cfg.ram c).mem (cfg.word k .hot i) =
          load64 sh.mem (cfg.word k .hot i) :=
        load64_word_congr hi fun x hx => call_mem_outside (hC.calls _ hs) fun hx' => by
          cases hx.side_eq hx'
      have hword : load64 sh.mem (cfg.word k .hot i) ≠ w.hotSweeps := by
        simpa [Worker.hotWord, hs] using h.still (.inr (by rw [hs]; rfl))
      refine ⟨rfl, fun _ => ?_, fun _ hsw => by cases hsw⟩
      simpa [Worker.hotWord, hm] using hword
  | @take j bytes hs hr hj =>
      refine LostHot.congr ⟨h.loop, h.still, h.swept⟩ (load64_word_congr hi fun x hx => ?_)
      refine if_neg fun hx' => ?_
      cases hx.side_eq (cfg.toOptions.inRange_of_mem_page k hj hx'.1 hx'.2)
  | @enter p hr hp =>
      refine ⟨h.loop, fun hst => ?_, fun _ hsw => ?_⟩
      · exact h.still (.inl hr)
      · have hpos := p.pages_pos (hC.fits hk hp).lt
        have hstill := h.still (.inl hr)
        refine ⟨p, p.start w.cpu, _, hp, sim_arm p w.cpu hpos, ?_, ?_, Swept.start w.cpu sh.mem⟩
        · unfold Pass.start
          split_ifs <;> simp
        rw [(pass_of_sweepsHot hp hsw).2]
        rcases hotWord_eq h.loop (i := i) with hw | ⟨⟨r, hst⟩, -⟩
        · rwa [hw] at hstill
        · simp [Worker.enter, hst, Stmt.sweepsHot] at hsw
  | guest hr =>
      by_cases hsw : w.stmt.sweepsHot = true
      · obtain ⟨p, s, v, hp, hs, hagain, hv, hswept⟩ := h.swept hr hsw
        obtain ⟨hprog, hpw⟩ := pass_of_sweepsHot hp hsw
        rcases hC.guest hk hp hs with ⟨hloc, hg⟩ | ⟨s', m', c', hps, hs', hg⟩
        · -- the sweep is over and not yet counted
          rw [hg]
          have hdone := hswept.done (by rw [pass_pages hp]; exact hi) hloc
          rw [hpw] at hdone
          cases hst : w.stmt <;> simp [hst, Stmt.sweepsHot] at hsw
          refine ⟨by simp [Worker.ring, hst, Stmt.afterPass, Stmt.inLoop], fun _ => ?_,
            fun hr' => (by cases hr')⟩
          simp only [Worker.hotWord, Worker.ring, hst, Stmt.afterPass, hdone]
          exact fun hc => hv (by simpa using hc)
        · rw [hg]
          refine ⟨h.loop, fun hst => ?_, fun _ _ => ⟨p, s', v, hp, hs', passStep_ne_again hps, hv,
            hswept.step hprog hs.valid hagain hps⟩⟩
          rcases hst with hst | hst
          · exact absurd (hr.symm.trans hst) (by decide)
          · exact absurd (hsw.symm.trans hst) (by decide)
      · -- the other passes of the loop do not write the hot half
        have hsw' : w.stmt.sweepsHot = false := by simpa using hsw
        obtain ⟨p, s, hp, hs⟩ := hC.inside hr
        rcases hC.guest hk hp hs with ⟨hloc, hg⟩ | ⟨s', m', c', hps, hs', hg⟩
        · rw [hg]
          obtain ⟨side, hcall, -, -⟩ := pass_range hp
          have hstill := h.still (.inr hsw')
          have hloop := h.loop
          cases hst : w.stmt <;> simp [hst, Stmt.call] at hcall <;>
            simp [hst, Stmt.sweepsHot] at hsw' <;> simp [hst, Stmt.inLoop] at hloop <;>
            refine ⟨by simp [Worker.ring, hst, Stmt.afterPass, Stmt.inLoop], fun _ => ?_,
              fun hr' => by cases hr'⟩ <;>
            simpa [Worker.hotWord, Worker.ring, hst, Stmt.afterPass] using hstill
        · rw [hg]
          refine LostHot.congr ⟨h.loop, h.still, fun _ hc => absurd hc hsw⟩ ?_
          exact load64_word_congr hi (loop_keeps_hot h.loop hsw' hp hs hps)

end hot

/-! ## Cold pages -/

/-- From the fill to the end of the cycle. -/
def Stmt.refilled : Stmt → Bool
  | .coldFill | .coldVerify _ | .coldChecked _ | .coldBad _ | .sleep => true
  | _ => false

/-- The fill of this cycle has stored the word at `b`: the pass is over, or its cursor is past the
word, or at the word and past the store. -/
def Worker.filled (w : Worker) (b : ℕ) : Prop :=
  w.stmt.refilled = true ∧ (w.stmt = .coldFill → w.running = true ∧
    (b < (w.cpu.x 1).toNat ∨ (w.cpu.x 1).toNat = b ∧ w.cpu.pc = Program.fill.entry + 4))

/-- **Cold page `i` is lost in cycle `n`**: from its fill to the end of that cycle it holds zero,
and the stamp is not zero. -/
structure LostCold (cfg : Config) (k i n : ℕ) (w : Worker) (m : Mem) : Prop where
  ahead : n ≤ w.cycles
  phase : w.cycles = n → w.stmt.refilled = true ∧ w.stamp ≠ 0 ∧
    load64 m (cfg.word k .cold i) = 0
  store : w.cycles = n → w.stmt = .coldFill → w.running = true ∧ ∃ p s, w.pass cfg k = some p ∧
    Sim p s w.cpu ∧ i < s.loc.progress p.pages

section cold

variable {cfg : Config} {k i n : ℕ} {a : Act} {w w' : Worker} {sh sh' : Shared} {m m' : Mem}
  {p : Pass} {s : PState}

/-- Whether a cold page is lost depends on memory only through its word being zero. -/
theorem LostCold.congr (h : LostCold cfg k i n w m)
    (hm : load64 m (cfg.word k .cold i) = 0 → load64 m' (cfg.word k .cold i) = 0) :
    LostCold cfg k i n w m' :=
  ⟨h.ahead, fun hc => ⟨(h.phase hc).1, (h.phase hc).2.1, hm (h.phase hc).2.2⟩, h.store⟩

/-- Once a later cycle has begun, nothing is said about a page lost in cycle `n`. -/
theorem LostCold.of_lt (h : n < w.cycles) : LostCold cfg k i n w m :=
  ⟨h.le, fun hc => absurd hc (by omega), fun hc => absurd hc (by omega)⟩

/-- A pass over the cold half goes over its words. -/
theorem pass_of_refilled (hp : w.pass cfg k = some p) (h : w.stmt.refilled = true) :
    (∀ t, p.word t = cfg.word k .cold t) ∧
      ((w.stmt = .coldFill ∧ p.prog = .fill) ∨ ∃ b, w.stmt = .coldVerify b ∧ p.prog = .verify) := by
  obtain ⟨side, hcall, hside, -⟩ := pass_range hp
  cases hst : w.stmt <;> simp [hst, Stmt.refilled] at h <;> simp [hst, Stmt.call] at hcall
  all_goals
    obtain ⟨rfl, hprog⟩ := hcall
    exact ⟨pass_word hside, by simp [hprog.symm]⟩

/-- The stamp is not zero while the counters have not wrapped. -/
theorem stamp_ne_zero (hV : Vars k w) (hst : w.stmt.refilled = true)
    (hfew : w.hotStarted < 2 ^ 64) : w.stamp ≠ 0 := by
  have hcold : w.stmt.inCold = true := by
    cases h : w.stmt <;> simp [h, Stmt.refilled] at hst <;> simp
  have hmade : w.hotMade = hotSweepsPerCycle * w.cycles + 5 := by
    unfold Worker.hotMade
    cases h : w.stmt <;> simp [h, Stmt.refilled] at hst <;> simp
  have hle : w.hotMade ≤ w.hotStarted := Nat.le_add_right ..
  unfold hotSweepsPerCycle at hmade
  rw [hV.stamp hcold, hV.cycle, if_pos hcold]
  intro heq
  have hzero := (BitVec.or_eq_zero_iff.mp heq).2
  have := congrArg BitVec.toNat hzero
  rw [BitVec.toNat_ofNat, Nat.mod_eq_of_lt (by omega)] at this
  simp at this

/-- If the fill of this cycle has stored the word of page `i` and the pass still runs, its cursor is
past the page: it stands at the page behind the store, or further on. -/
theorem progress_of_filled (hk : k < cfg.vcpuCount) (hC : Control cfg k w sh)
    (hi : i < cfg.pagesPerHalf) (hst : w.stmt = .coldFill)
    (hf : w.filled (cfg.word k .cold i)) (hp : w.pass cfg k = some p) (hs : Sim p s w.cpu) :
    i < s.loc.progress p.pages := by
  obtain ⟨hpw, hprog⟩ := pass_of_refilled hp hf.1
  have hfill : p.prog = .fill := by
    rcases hprog with ⟨-, hprog⟩ | ⟨b, hb, -⟩
    · exact hprog
    · rw [hst] at hb
      cases hb
  have hfits := hC.fits hk hp
  have hx1 : ∀ t, s.loc.cursor = some t → t ≤ p.pages → (w.cpu.x 1).toNat = p.word t := by
    intro t ht hle
    exact (congrArg BitVec.toNat (hs.x1 t ht)).trans (word_toNat hfits hle)
  have hpc : w.cpu.pc = Program.fill.entry + 4 → s.loc.index .fill = 1 := by
    have hall : ∀ j : Fin 10, Program.fill.entry + BitVec.ofNat 64 (4 * j.1) =
        Program.fill.entry + 4 → j.1 = 1 := by decide
    intro hpc
    rw [hs.pc, hfill] at hpc
    exact hall ⟨_, Loc.index_lt (hfill ▸ hs.valid)⟩ hpc
  obtain ⟨-, hcur⟩ := hf.2 hst
  rw [← hpw] at hcur
  have hv := hs.valid
  rw [hfill] at hv
  have hlt : ∀ t, p.word i < p.word t → i < t := by
    intro t h
    by_contra hc
    exact absurd (p.word_mono (Nat.le_of_not_lt hc)) (by omega)
  cases hl : s.loc with
  | enter | finish | again =>
      rw [hl] at hv
      cases hv
  | doorbell =>
      simp only [Loc.progress]
      rw [pass_pages hp]
      exact hi
  | body j t =>
      rw [hl] at hv
      obtain rfl : j = 0 := by
        have := hv.1
        simp [Program.bodyLen] at this
        exact this
      rcases hcur with hcur | ⟨-, hcur⟩
      · rw [hx1 t (by rw [hl]; rfl) hv.2.le] at hcur
        exact hlt t hcur
      · have := hpc hcur
        simp [hl, Loc.index, Program.lead] at this
  | advance t =>
      rw [hl] at hv
      have ht : t < p.pages := hv
      rw [hx1 t (by rw [hl]; rfl) ht.le] at hcur
      simp only [Loc.progress]
      rcases hcur with hcur | ⟨hcur, -⟩
      · exact Nat.lt_succ_of_lt (hlt t hcur)
      · by_contra hc
        have hmono := p.word_mono (show t + 1 ≤ i by omega)
        rw [p.word_succ] at hmono
        omega
  | compare t | branch t =>
      rw [hl] at hv
      have ht : t < p.pages := hv
      rcases hcur with hcur | ⟨-, hcur⟩
      · rw [hx1 (t + 1) (by rw [hl]; rfl) ht] at hcur
        exact hlt (t + 1) hcur
      · have := hpc hcur
        simp [hl, Loc.index, Program.lead, Program.bodyLen] at this

/-- **Zeroing loses a cold page** once the fill of the cycle has stored it, for the rest of that
cycle. -/
theorem lostCold_of_zero (hk : k < cfg.vcpuCount) (hC : Control cfg k w sh) (hV : Vars k w)
    (hi : i < cfg.pagesPerHalf) (hfew : w.hotStarted < 2 ^ 64)
    (hf : w.filled (cfg.word k .cold i)) (hzero : load64 m (cfg.word k .cold i) = 0) :
    LostCold cfg k i w.cycles w m := by
  refine ⟨le_rfl, fun _ => ⟨hf.1, stamp_ne_zero hV hf.1 hfew, hzero⟩, fun _ hst => ?_⟩
  obtain ⟨hr, -⟩ := hf.2 hst
  obtain ⟨p, s, hp, hs⟩ := hC.inside hr
  exact ⟨hr, p, s, hp, hs, progress_of_filled hk hC hi hst hf hp hs⟩

/-- A host statement after the fill keeps the page, or ends the cycle. -/
theorem host_refilled (hst : w.stmt.refilled = true) (hcall : w.stmt.call = none)
    (h : w.host cfg k sh = some (w', sh')) :
    sh'.mem = sh.mem ∧ w'.stamp = w.stamp ∧ w'.stmt ≠ .coldFill ∧
      (w'.cycles = w.cycles + 1 ∨ w'.cycles = w.cycles ∧ w'.stmt.refilled = true) := by
  cases hs : w.stmt <;> simp [hs, Stmt.refilled] at hst <;> simp [hs, Stmt.call] at hcall
  case coldBad again =>
    simp only [Worker.host, hs, Option.some.injEq, Prod.mk.injEq] at h
    obtain ⟨rfl, rfl⟩ := h
    cases again <;> simp [Stmt.refilled]
  all_goals
    simp only [Worker.host, hs, Option.some.injEq, Prod.mk.injEq] at h
    obtain ⟨rfl, rfl⟩ := h
    simp [Stmt.refilled]

/-- A step of a worker never takes a completed cycle back. -/
theorem step_cycles_le (h : w.step cfg k a sh = some (w', sh')) : w.cycles ≤ w'.cycles := by
  obtain ⟨-, h⟩ := Worker.step_inv h
  cases h with
  | enter | cancel | call | take | fail => exact le_rfl
  | guest hr =>
      unfold Worker.guest Worker.onExit
      split
      · exact le_rfl
      · split <;> exact le_rfl
  | host hr hp h =>
      unfold Worker.host at h
      split at h
      case h_25 => cases h
      all_goals
        try split_ifs at h
        all_goals
          rw [Option.some.injEq, Prod.mk.injEq] at h
          obtain ⟨rfl, rfl⟩ := h
          try simp only
          try split_ifs
          all_goals simp

/-- **A worker's own step keeps a lost cold page lost**, up to the end of the cycle in which it was
lost. The fill does not come back to a page it has stored, verifications do not write, and the stamp
stays as it is until the next cycle, where nothing is claimed any more. -/
theorem lostCold_own (hk : k < cfg.vcpuCount) (hC : Control cfg k w sh)
    (h : LostCold cfg k i n w sh.mem) (hstep : w.step cfg k a sh = some (w', sh')) :
    LostCold cfg k i n w' sh'.mem := by
  have hcycles := step_cycles_le hstep
  by_cases hn : w.cycles = n
  swap
  · have := h.ahead
    exact LostCold.of_lt (by omega)
  obtain ⟨hst, hstamp, hzero⟩ := h.phase hn
  obtain ⟨-, hstep⟩ := Worker.step_inv hstep
  cases hstep with
  | cancel => exact h
  | fail => exact ⟨h.ahead, h.phase, h.store⟩
  | call hs hle =>
      rw [hs] at hst
      cases hst
  | take hs hr hj =>
      have hfill : w.stmt = .coldFill := by
        cases hs' : w.stmt <;> simp [hs', Stmt.released] at hs <;> simp [hs', Stmt.refilled] at hst
        rfl
      exact absurd ((h.store hn hfill).1.symm.trans hr) (by decide)
  | enter hr hp =>
      refine ⟨h.ahead, h.phase, fun _ hfill => ?_⟩
      exact absurd ((h.store hn hfill).1.symm.trans hr) (by decide)
  | host hr hp hh =>
      obtain ⟨hmem, hstamp', hne, hc | ⟨hc, hst'⟩⟩ := host_refilled hst hp hh
      · exact LostCold.of_lt (by omega)
      · refine ⟨by omega, fun _ => ⟨hst', by rw [hstamp']; exact hstamp, by rw [hmem]; exact hzero⟩,
          fun _ hfill => absurd hfill hne⟩
  | guest hr =>
      by_cases hfill : w.stmt = .coldFill
      · obtain ⟨-, p, s, hp, hs, hprog⟩ := h.store hn hfill
        obtain ⟨hpw, -⟩ := pass_of_refilled hp hst
        rcases hC.guest hk hp hs with ⟨hloc, hg⟩ | ⟨s', m', c', hps, hs', hg⟩
        · rw [hg]
          refine ⟨h.ahead, fun _ => ⟨by simp [Worker.ring, hfill, Stmt.afterPass, Stmt.refilled],
            hstamp, hzero⟩, fun _ hc => ?_⟩
          simp [Worker.ring, hfill, Stmt.afterPass] at hc
        · rw [hg]
          have hagain : s.loc ≠ .again := by
            intro hc
            have hv := hs.valid
            rw [hc] at hv
            rcases (pass_of_refilled hp hst).2 with ⟨-, hf⟩ | ⟨b, -, hf⟩ <;>
              exact absurd (hf.symm.trans hv) (by decide)
          have hle := progress_le hs.valid hagain hps
          have hkept := passStep_word_kept hprog hps
          rw [hpw] at hkept
          exact ⟨h.ahead, fun _ => ⟨hst, hstamp, hkept.trans hzero⟩,
            fun _ _ => ⟨hr, p, s', hp, hs', by omega⟩⟩
      · obtain ⟨p, s, hp, hs⟩ := hC.inside hr
        obtain ⟨-, ⟨hc, -⟩ | ⟨b, hb, hprog⟩⟩ := pass_of_refilled hp hst
        · exact absurd hc hfill
        rcases hC.guest hk hp hs with ⟨hloc, hg⟩ | ⟨s', m', c', hps, hs', hg⟩
        · rw [hg]
          refine ⟨h.ahead, fun _ => ⟨by simp [Worker.ring, hb, Stmt.afterPass, Stmt.refilled],
            hstamp, hzero⟩, fun _ hc => ?_⟩
          simp [Worker.ring, hb, Stmt.afterPass] at hc
        · rw [hg, (verifyStep_of_passStep hprog hs.valid hps).1]
          exact ⟨h.ahead, h.phase, fun _ hc => absurd hc hfill⟩

end cold

end VmRatchet.Soak
