import Mathlib.Algebra.Order.BigOperators.Group.Finset
import VmRatchet.Soak.Stamp
import VmRatchet.Soak.Sticky

/-!
# Detection of lost pages is sticky

`Loss` collects what a notion of "this page is lost" must satisfy for the watch on its loads to go
through every run; hot and cold pages are its two instances.

* `lost_page_counted` — after a zeroing event that loses a page, every later verification load of
  it (for a cold page: every one of that cycle) is counted, and the statistics show it.
* `lost_page_unseen_at_wrap` — with 64-bit counters this needs its bound: when `hot_sweeps` has
  come round to zero, a zeroed page holds what is expected.
-/

namespace VmRatchet.Soak

open Arm64 ByteMemory Guest Transition

/-! ## What every run keeps -/

/-- Counters, log and location of every worker: what the verifications have loaded so far, and where
the guest stands in the one that runs. -/
structure Kept (cfg : Config) (st : Proc) : Prop where
  counts : Counts cfg st
  logged : (soak cfg).Everywhere (fun k w _ => Logged cfg k w) st
  ongoing : (soak cfg).Everywhere (fun k w _ => Ongoing cfg k w) st

section kept

variable {cfg : Config}

/-- **Every step of the process keeps them**: the counters, the log of every worker, and that no
vCPU stands at the branch that no host loop of the soak resumes. -/
theorem kept_step (st : Proc) (l : Move) (st' : Proc) (_ : True) (h : Kept cfg st)
    (hstep : (soak cfg).step st l = some st') : Kept cfg st' := by
  refine ⟨counts_step st l st' trivial h.counts hstep, ?_, ?_⟩
  · refine Threads.System.local_invariant (S := soak cfg) (P := fun s _ => s = st) ?_ ?_ ?_ st l st'
      rfl h.logged hstep
    · rintro s k a w' sh' rfl hk hI hact
      exact logged_own hk (h.counts.control k hk) (hI k hk) hact
    · rintro s k j a w' sh' rfl hk hj hjk hI hact
      exact hI j hj
    · rintro s e sh' rfl hI henv j hj
      exact hI j hj
  · refine Threads.System.local_invariant (S := soak cfg) (P := fun s _ => s = st) ?_ ?_ ?_ st l st'
      rfl h.ongoing hstep
    · rintro s k a w' sh' rfl hk hI hact
      exact ongoing_own hk (h.counts.control k hk) (hI k hk) hact
    · rintro s k j a w' sh' rfl hk hj hjk hI hact
      exact hI j hj
    · rintro s e sh' rfl hI henv j hj
      exact hI j hj

/-- Counters, logs and locations hold of every worker in every reachable state. -/
theorem kept_run {st st' : Proc} {ls : List Move} (h : Initial cfg st)
    (hrun : run (soak cfg).step st ls = some st') : Kept cfg st' := by
  refine run_invariant kept_step (Along.of_labels (fun _ _ _ => trivial) st) ?_ hrun
  refine ⟨counts_initial h, fun k _ => ?_, fun k _ => ?_⟩ <;> obtain ⟨cpu, hw⟩ := h.fresh k <;>
    rw [hw]
  · exact ⟨fun _ => rfl, fun hr => by cases hr⟩
  · intro hr
    cases hr

end kept

/-! ## From a page to a run -/

/-- What makes `L` a loss of a page whose loads are those that satisfy `R`. -/
structure Loss (cfg : Config) (k : ℕ) (R : Check → Prop) (L : Worker → Mem → Prop) : Prop where
  own : ∀ {a w w' sh sh'}, Control cfg k w sh → L w sh.mem →
    w.step cfg k a sh = some (w', sh') → L w' sh'.mem
  congr : ∀ {w m m'}, (∀ x, cfg.InSlot k x → m' x = m x) → L w m → L w m'
  zero : ∀ {w m b n}, Vars k w → w.hotStarted < 2 ^ 64 →
    (∀ side, ∀ i < cfg.pagesPerHalf,
      Hits b n (cfg.word k side i) ∨ Misses b n (cfg.word k side i)) →
    L w m → L w (setRange m b n 0)
  exposed : ∀ {w sh}, Control cfg k w sh → L w sh.mem → Exposed R cfg k w sh.mem

section loss

variable {cfg : Config} {k i : ℕ} {R : Check → Prop} {L : Worker → Mem → Prop}

/-- The page is lost, and its loads since the log had length `n` are counted. -/
structure Sticky (cfg : Config) (k : ℕ) (R : Check → Prop) (L : Worker → Mem → Prop) (n : ℕ)
    (st : Proc) : Prop where
  counts : Counts cfg st
  lost : L (st.thread k) st.shared.mem
  watched : Watched R n cfg k (st.thread k)

/-- **Every step of the process keeps this**, if zeroing events hit whole pages. Another zeroing
event does not bring the expected word back, other workers have slots of their own, and for the
worker itself there is a lemma for each half; while the page is lost all its loads are exposed, so
that the watch is kept, too. -/
theorem sticky_step (hL : Loss cfg k R L) (hk : k < cfg.vcpuCount) (n : ℕ) (st : Proc) (l : Move)
    (st' : Proc) (hl : ZeroesPages cfg k st l) (h : Sticky cfg k R L n st)
    (hstep : (soak cfg).step st l = some st') : Sticky cfg k R L n st' := by
  have hcounts := counts_step st l st' trivial h.counts hstep
  have hC := h.counts.control k hk
  cases l with
  | env e =>
      obtain ⟨sh', henv, rfl⟩ := Threads.System.step_env.mp hstep
      refine ⟨hcounts, ?_, h.watched⟩
      by_cases hz : ∃ b n, e = .zero b n
      · obtain ⟨b, n, rfl⟩ := hz
        obtain ⟨hfew, hhit⟩ := hl b n rfl
        simp only [Env.step, soak, Option.some.injEq] at henv
        subst henv
        exact hL.zero (h.counts.vars k hk) hfew hhit h.lost
      · have hmem := (env_frame henv).mem fun b n he => hz ⟨b, n, he⟩
        exact hL.congr (fun x _ => by rw [hmem]) h.lost
  | act j a =>
      obtain ⟨hj, w', sh', hact, rfl⟩ := Threads.System.step_act.mp hstep
      by_cases hjk : j = k
      · subst hjk
        have hex := hL.exposed hC h.lost
        refine ⟨hcounts, ?_, ?_⟩ <;> simp only [Function.update_self]
        · exact hL.own hC h.lost hact
        · exact watched_own hk hC (fun _ => hex) h.watched hact
      · have hout : ∀ x, cfg.InSlot k x → sh'.mem x = st.shared.mem x := fun x hx =>
          step_mem_outside hj (h.counts.control j hj) hact fun hx' => hjk (hx.ne hx')
        refine ⟨hcounts, ?_, ?_⟩ <;> simp only [Function.update_of_ne (Ne.symm hjk)]
        · exact hL.congr hout h.lost
        · exact h.watched

/-- The loads made since `w` was the state of the worker. -/
def newChecks (w w' : Worker) : List Check :=
  w'.checks.take (w'.checks.length - w.checks.length)

/-- **A lost page stays lost in every run.** From a state in which the page is lost, along any run
whose zeroing events hit whole pages, every load of it that a verification makes is counted as a
mismatch by the time the worker stands outside a pass again. -/
theorem loss_run (hL : Loss cfg k R L) (hk : k < cfg.vcpuCount) {st st' : Proc} {ls : List Move}
    (hkept : Kept cfg st) (hlost : L (st.thread k) st.shared.mem)
    (hzeroes : Along (soak cfg).step (ZeroesPages cfg k) st ls)
    (hrun : run (soak cfg).step st ls = some st') (hidle : (st'.thread k).running = false) :
    ∀ c ∈ newChecks (st.thread k) (st'.thread k), R c → c.counted = true := by
  have hwatch : Watched R (st.thread k).checks.length cfg k (st.thread k) := by
    refine ⟨[], (st.thread k).checks, rfl, rfl, fun _ => Settled.nil, fun hr => ?_⟩
    obtain ⟨p, s, hp, hs, hver, -⟩ := (hkept.logged k hk).busy hr
    exact ⟨p, s, hp, hs, fun hprog => (hver hprog).1, Settled.nil⟩
  have hsticky := run_invariant (sticky_step hL hk _) hzeroes ⟨hkept.counts, hlost, hwatch⟩ hrun
  obtain ⟨new, old, hchecks, hlen, hset, -⟩ := hsticky.watched
  have hnew : newChecks (st.thread k) (st'.thread k) = new := by
    rw [newChecks, hchecks, ← hlen, List.length_append, Nat.add_sub_cancel, List.take_left]
  rw [hnew]
  exact (hset hidle).all not_false

end loss

/-! ## Hot and cold pages -/

/-- A load of hot page `i` by a verification pass of the loop. -/
def HotLoad (cfg : Config) (k i : ℕ) (c : Check) : Prop :=
  (∃ r, c.stmt = .hotVerify r) ∧ c.addr = BitVec.ofNat 64 (cfg.word k .hot i)

/-- A load of cold page `i` by a verification pass of the cycle after `n` completed ones. -/
def ColdLoad (cfg : Config) (k i n : ℕ) (c : Check) : Prop :=
  (∃ b, c.stmt = .coldVerify b) ∧ c.cycles = n ∧ c.addr = BitVec.ofNat 64 (cfg.word k .cold i)

/-- What the verifications of a half expect: the count of hot sweeps, or the stamp of the cycle. -/
def Worker.expected (w : Worker) : Side → BitVec 64
  | .hot => w.hotSweeps
  | .cold => w.stamp

section instances

variable {cfg : Config} {k i n : ℕ} {w : Worker} {sh : Shared} {p : Pass} {t : ℕ}

/-- What a verification of a half loads at the address of page `i`, and what it expects there. -/
theorem verify_load {side : Side} (hk : k < cfg.vcpuCount) (hC : Control cfg k w sh)
    (hi : i < cfg.pagesPerHalf) (hcall : w.stmt.call = some (side, .verify))
    (hp : w.pass cfg k = some p) (ht : t < p.pages)
    (haddr : BitVec.ofNat 64 (p.word t) = BitVec.ofNat 64 (cfg.word k side i)) :
    p.word t = cfg.word k side i ∧ p.value = w.expected side := by
  have hf := hC.fits hk hp
  have hi' : i < p.pages := by rw [pass_pages hp]; exact hi
  obtain ⟨side', hcall', hside, -⟩ := pass_range hp
  obtain ⟨rfl, -⟩ : side = side' ∧ _ := by simpa [hcall] using hcall'
  refine ⟨?_, ?_⟩
  · rw [← pass_word hside i] at haddr ⊢
    rw [← word_toNat hf ht.le, haddr, word_toNat hf hi'.le]
  · simp only [Worker.pass, hcall, Option.map_some, Option.some.injEq] at hp
    rw [← hp]
    cases side <;> rfl

/-- A hot page that is lost is a loss in the sense of `Loss`: it stays lost under the worker's own
steps and under zeroing, and a verification that loads it then meets a word other than the expected
one. -/
theorem lostHot_loss (hk : k < cfg.vcpuCount) (hi : i < cfg.pagesPerHalf) :
    Loss cfg k (HotLoad cfg k i) (LostHot cfg k i) where
  own hC h hstep := lostHot_own hk hi hC h hstep
  congr hm h := h.congr (load64_word_congr hi fun x hx => hm x hx.inSlot)
  zero hV hfew hhit h := lostHot_zero hV hfew (hhit .hot i hi) h
  exposed := by
    rintro w sh hC h p t hp - ht ⟨⟨r, hst⟩, haddr⟩
    replace hst : w.stmt = .hotVerify r := hst
    obtain ⟨hword, hvalue⟩ := verify_load hk hC hi (by rw [hst]; rfl) hp ht haddr
    have hstill := h.still (.inr (by rw [hst]; rfl))
    rw [hword, hvalue]
    simpa [Worker.hotWord, Worker.expected, hst] using hstill

/-- A cold page that is lost in cycle `n` is a loss in the sense of `Loss`, for the loads that the
verifications of this cycle make. -/
theorem lostCold_loss (hk : k < cfg.vcpuCount) (hi : i < cfg.pagesPerHalf) :
    Loss cfg k (ColdLoad cfg k i n) (LostCold cfg k i n) where
  own hC h hstep := lostCold_own hk hC h hstep
  congr hm h := h.congr fun hz => (load64_word_congr hi fun x hx => hm x hx.inSlot).trans hz
  zero hV hfew hhit h := by
    refine h.congr fun hz => ?_
    rcases hhit .cold i hi with hit | miss
    · exact load64_setRange_zero hit
    · exact (load64_setRange_of_disjoint miss).trans hz
  exposed := by
    rintro w sh hC h p t hp - ht ⟨⟨b, hst⟩, hcycles, haddr⟩
    replace hst : w.stmt = .coldVerify b := hst
    obtain ⟨hword, hvalue⟩ := verify_load hk hC hi (by rw [hst]; rfl) hp ht haddr
    obtain ⟨-, hstamp, hzero⟩ := h.phase hcycles
    rw [hword, hvalue, hzero]
    exact hstamp.symm

end instances

/-! ## The result -/

/-- The event loses hot page `i`: it hits the page after the worker has entered its loop, and not
between the `ldr` and the `str` of the page. -/
def LosesHot (cfg : Config) (k i a n : ℕ) (w : Worker) : Prop :=
  w.stmt.inLoop = true ∧ Hits a n (cfg.word k .hot i) ∧ ¬ w.inWindow (cfg.word k .hot i)

/-- The event loses cold page `i`: it hits the page after the store of this cycle's fill. -/
def LosesCold (cfg : Config) (k i a n : ℕ) (w : Worker) : Prop :=
  Hits a n (cfg.word k .cold i) ∧ w.filled (cfg.word k .cold i)

/-- The worker is about to add a count to the statistics. -/
def Stmt.adding : Stmt → Bool
  | .hotChecked _ | .hotBad _ | .coldChecked _ | .coldBad _ => true
  | _ => false

/-- A counted load is in the statistics, as soon as its worker has added its counts. -/
theorem mismatches_ne_zero {cfg : Config} {st : Proc} {k : ℕ} (hkept : Kept cfg st)
    (hk : k < cfg.vcpuCount) (hidle : (st.thread k).running = false)
    (hadded : (st.thread k).stmt.adding = false)
    (hlt : (soak cfg).total (fun _ w => w.reported) st < 2 ^ 64) {c : Check}
    (hc : c ∈ (st.thread k).checks) (hcounted : c.counted = true)
    (hreports : c.stmt.reports = true) : st.shared.stats.mismatches ≠ 0 := by
  have hpos : 0 < (st.thread k).countedLoads :=
    List.countP_pos_iff.mpr ⟨c, hc, by simp [hcounted, hreports]⟩
  have hpend : (st.thread k).pendingBad = 0 := by
    cases hst : (st.thread k).stmt <;> simp [hst, Stmt.adding] at hadded <;>
      simp [Worker.pendingBad, hst]
  have hrep := (hkept.logged k hk).idle hidle
  have hle : (st.thread k).reported ≤ (soak cfg).total (fun _ w => w.reported) st :=
    Finset.single_le_sum (f := fun j => (st.thread j).reported) (fun _ _ => Nat.zero_le _)
      (Finset.mem_range.mpr hk)
  rw [hkept.counts.counted.mismatches]
  intro heq
  have := congrArg BitVec.toNat heq
  rw [BitVec.toNat_ofNat, Nat.mod_eq_of_lt hlt] at this
  simp at this
  omega

/-- **Detection of lost pages is sticky.** In every run, for every worker and every page of its
slot: after an event that loses the page, and whatever further pages are zeroed, once the worker
is outside a pass every load of the page that its hot verifications have made since — for a cold
page: the verifications of that cycle — has been counted as a mismatch; and if there is such a
load, then once the worker has added its counts the statistics show a mismatch. -/
theorem lost_page_counted (cfg : Config) {st₀ st₁ st₂ st₃ : Proc} {ls ls' : List Move}
    {k i a n : ℕ} (hinit : Initial cfg st₀) (hrun : run (soak cfg).step st₀ ls = some st₁)
    (hzero : (soak cfg).step st₁ (.env (.zero a n)) = some st₂)
    (hrun' : run (soak cfg).step st₂ ls' = some st₃)
    (hzeroes : Along (soak cfg).step (ZeroesPages cfg k) st₁ (.env (.zero a n) :: ls'))
    (hk : k < cfg.vcpuCount) (hi : i < cfg.pagesPerHalf)
    (hidle : (st₃.thread k).running = false) :
    (LosesHot cfg k i a n (st₁.thread k) →
      ∀ c ∈ newChecks (st₁.thread k) (st₃.thread k), HotLoad cfg k i c → c.counted = true) ∧
    (LosesCold cfg k i a n (st₁.thread k) →
      ∀ c ∈ newChecks (st₁.thread k) (st₃.thread k),
        ColdLoad cfg k i (st₁.thread k).cycles c → c.counted = true) ∧
    ((st₃.thread k).stmt.adding = false →
      (soak cfg).total (fun _ w => w.reported) st₃ < 2 ^ 64 →
      (∃ c ∈ newChecks (st₁.thread k) (st₃.thread k),
        LosesHot cfg k i a n (st₁.thread k) ∧ HotLoad cfg k i c ∨
          LosesCold cfg k i a n (st₁.thread k) ∧ ColdLoad cfg k i (st₁.thread k).cycles c) →
      st₃.shared.stats.mismatches ≠ 0) := by
  have hkept₁ := kept_run hinit hrun
  have hkept₂ := kept_step _ _ _ trivial hkept₁ hzero
  have hkept₃ : Kept cfg st₃ :=
    run_invariant kept_step (Along.of_labels (fun _ _ _ => trivial) st₂) hkept₂ hrun'
  obtain ⟨hfew, -⟩ := hzeroes.1 a n rfl
  have hrest := hzeroes.2 st₂ hzero
  have hC := hkept₁.counts.control k hk
  have hV := hkept₁.counts.vars k hk
  obtain ⟨hthread, hmem₂⟩ : st₂.thread = st₁.thread ∧
      st₂.shared.mem = setRange st₁.shared.mem a n 0 := by
    obtain ⟨sh₂, hsh, rfl⟩ := Threads.System.step_env.mp hzero
    simp only [soak, Env.step, Option.some.injEq] at hsh
    exact ⟨rfl, by rw [← hsh]⟩
  have hhot : LosesHot cfg k i a n (st₁.thread k) →
      ∀ c ∈ newChecks (st₁.thread k) (st₃.thread k), HotLoad cfg k i c → c.counted = true := by
    rintro ⟨hloop, hhit, hout⟩
    rw [← hthread]
    refine loss_run (lostHot_loss hk hi) hk hkept₂ ?_ hrest hrun' hidle
    rw [hthread, hmem₂]
    exact lostHot_of_zero (hkept₁.ongoing k hk) hV hloop hfew hout (load64_setRange_zero hhit)
  have hcold : LosesCold cfg k i a n (st₁.thread k) →
      ∀ c ∈ newChecks (st₁.thread k) (st₃.thread k),
        ColdLoad cfg k i (st₁.thread k).cycles c → c.counted = true := by
    rintro ⟨hhit, hfilled⟩
    rw [← hthread]
    refine loss_run (lostCold_loss hk hi) hk hkept₂ ?_ hrest hrun' hidle
    rw [hthread, hmem₂]
    exact lostCold_of_zero hk hC hV hi hfew hfilled (load64_setRange_zero hhit)
  refine ⟨hhot, hcold, ?_⟩
  rintro hadded hlt ⟨c, hc, hload⟩
  have hmem : c ∈ (st₃.thread k).checks := List.mem_of_mem_take hc
  rcases hload with ⟨hl, hload⟩ | ⟨hl, hload⟩
  · refine mismatches_ne_zero hkept₃ hk hidle hadded hlt hmem (hhot hl c hc hload) ?_
    obtain ⟨⟨r, hst⟩, -⟩ := hload
    rw [hst]
    rfl
  · refine mismatches_ne_zero hkept₃ hk hidle hadded hlt hmem (hcold hl c hc hload) ?_
    obtain ⟨⟨b, hst⟩, -⟩ := hload
    rw [hst]
    rfl

/-! ## Runs with a verification after the event -/

/-- The statements and addresses of all verification loads of the worker, newest first. -/
def Worker.log (w : Worker) : List (Stmt × BitVec 64) := w.checks.map fun c => (c.stmt, c.addr)

section log

variable {cfg : Config} {k : ℕ} {st st' : Proc}

/-- The log of a worker only grows: what a step leaves is the old log with entries in front of
it. -/
theorem step_log {a : Act} {w w' : Worker} {sh sh' : Shared}
    (h : w.step cfg k a sh = some (w', sh')) : w.log <:+ w'.log := by
  have hobs : w.log <:+ w.observe.map fun c => (c.stmt, c.addr) := by
    unfold Worker.observe Worker.log
    split_ifs
    · exact List.suffix_cons _ _
    · cases w.checks <;> exact List.suffix_refl _
    · exact List.suffix_refl _
  obtain ⟨-, h⟩ := Worker.step_inv h
  cases h with
  | enter | cancel | call | take | fail => exact List.suffix_refl _
  | host hr hp h =>
      unfold Worker.log
      rw [(host_frame h).checks]
  | guest hr =>
      unfold Worker.guest Worker.onExit
      split
      · exact hobs
      · split <;> exact List.suffix_refl _

/-- Along every run the log of a worker only grows. -/
theorem log_reaches {P : Proc → Move → Prop} (h : Reaches (soak cfg).step P st st') :
    (st.thread k).log <:+ (st'.thread k).log := by
  refine h.invariant (I := fun t => (st.thread k).log <:+ (t.thread k).log) ?_ (List.suffix_refl _)
  rintro t l t' - hlog hstep
  cases l with
  | env e =>
      obtain ⟨sh', -, rfl⟩ := Threads.System.step_env.mp hstep
      exact hlog
  | act j a =>
      obtain ⟨-, w', sh', hact, rfl⟩ := Threads.System.step_act.mp hstep
      by_cases hjk : j = k
      · subst hjk
        simp only [Function.update_self]
        exact hlog.trans (step_log hact)
      · simp only [Function.update_of_ne (Ne.symm hjk)]
        exact hlog

/-- If the later log has an entry on top of the earlier one, that entry is among the new checks. -/
theorem mem_newChecks {w w' : Worker} {s : Stmt} {a : BitVec 64}
    (h : (s, a) :: w.log <:+ w'.log) : ∃ c ∈ newChecks w w', c.stmt = s ∧ c.addr = a := by
  obtain ⟨pre, hpre⟩ := h
  have hlen := congrArg List.length hpre
  simp only [Worker.log, List.length_append, List.length_cons, List.length_map] at hlen
  have hnum : w'.checks.length - w.checks.length = (pre ++ [(s, a)]).length := by
    rw [List.length_append, List.length_singleton]
    omega
  have htake : (newChecks w w').map (fun c => (c.stmt, c.addr)) = pre ++ [(s, a)] := by
    rw [newChecks, List.map_take, hnum]
    change w'.log.take _ = _
    rw [← hpre, List.append_cons pre (s, a) w.log, List.take_append_length]
  have hmem : (s, a) ∈ (newChecks w w').map fun c => (c.stmt, c.addr) := by simp [htake]
  obtain ⟨c, hc, heq⟩ := List.mem_map.mp hmem
  exact ⟨c, hc, congrArg Prod.fst heq, congrArg Prod.snd heq⟩

/-- A worker before a verification can make it by itself, and has then logged a load of the first
page of its half: that load is the first instruction of the pass, and what is logged stays. -/
theorem verify_logs {x : Stmt × ℕ} {side : Side} (hk : k < cfg.vcpuCount)
    (h : Before cfg k st x) (hcall : x.1.call = some (side, .verify)) :
    ∃ st', Reaches (soak cfg).step (Alone k) st st' ∧ Before cfg k st' (x.1.afterPass, x.2) ∧
      (x.1, BitVec.ofNat 64 (cfg.word k side 0)) :: (st.thread k).log <:+ (st'.thread k).log := by
  obtain ⟨p, hp⟩ : ∃ p, (st.thread k).pass cfg k = some p := by
    rw [← Option.ne_none_iff_exists']
    intro hnone
    rw [pass_eq_none, h.stmt, hcall] at hnone
    cases hnone
  obtain ⟨side', hcall', hside, -⟩ := pass_range hp
  rw [h.stmt, hcall, Option.some.injEq, Prod.mk.injEq] at hcall'
  obtain ⟨rfl, hprog⟩ := hcall'
  have hC := h.counts.control k hk
  have hpos : 0 < p.pages := p.pages_pos (hC.fits hk hp).lt
  -- the pass is armed
  have hstep₁ : (st.thread k).step cfg k .host st.shared =
      some ((st.thread k).enter p, st.shared) := by
    simp [Worker.step, h.alive, h.idle, hp]
  have hreach₁ := alone_step st hk (.inl rfl) hstep₁
  have hcounts₁ := h.counts.reaches hreach₁
  have hC₁ : Control cfg k ((st.thread k).enter p) st.shared := by
    simpa using hcounts₁.control k hk
  have hs₁ := sim_arm p (st.thread k).cpu hpos
  have hloc : (p.start (st.thread k).cpu).loc = .body 0 0 := by
    simp [Pass.start, ← hprog]
  -- its first instruction is the load of the first page
  rcases hC₁.guest (s := p.start (st.thread k).cpu) hk hp hs₁ with
    ⟨hbell, -⟩ | ⟨s', m', c', -, hs', hg⟩
  · rw [hloc] at hbell
    cases hbell
  have hobs := observe_load (w := (st.thread k).enter p) hs₁ hprog.symm hloc
  have hstep₂ : ((st.thread k).enter p).step cfg k .guest st.shared =
      some (((st.thread k).enter p).guest st.shared) := by
    simp [Worker.step, Worker.enter, h.alive]
  rw [hg] at hstep₂
  have hreach₂ := alone_step ⟨Function.update st.thread k ((st.thread k).enter p), st.shared⟩ hk
    (.inr (.inl rfl)) (by simpa using hstep₂)
  obtain ⟨st₃, hreach₃, hbefore⟩ := pass_returns (s := s') (p := p) hk
    (hcounts₁.reaches hreach₂) (by simpa [Worker.enter] using h.alive) (by simp [Worker.enter])
    (by simpa [Worker.enter, Worker.pass] using hp) (by simpa using hs')
    (by simpa [Worker.enter] using h.untaken) h.early
  refine ⟨st₃, (hreach₁.trans hreach₂).trans hreach₃, ?_, ?_⟩
  · simpa [Worker.enter, h.stmt, h.cycles] using hbefore
  · refine List.IsSuffix.trans ?_ (log_reaches hreach₃)
    simp only [Worker.log, Function.update_self, hobs, List.map_cons, pass_word hside]
    rw [show ((st.thread k).enter p).stmt = x.1 from h.stmt]
    exact List.suffix_refl _

end log

/-- Zeroing one page of a slot hits that page and no other. -/
theorem hits_page_iff {cfg : Config} {j k : ℕ} {side side' : Side} {i i' : ℕ}
    (hi : i < cfg.pagesPerHalf) (hi' : i' < cfg.pagesPerHalf) :
    (j = k ∧ side' = side ∧ i' = i → Hits (cfg.word k side i) page (cfg.word j side' i')) ∧
      (¬ (j = k ∧ side' = side ∧ i' = i) →
        Misses (cfg.word k side i) page (cfg.word j side' i')) := by
  constructor
  · rintro ⟨rfl, rfl, rfl⟩
    exact ⟨le_rfl, by rw [page_eq]; omega⟩
  · intro hne
    by_contra hc
    unfold Misses at hc
    refine hne (cfg.toOptions.page_eq_of_mem j (x := max (cfg.word k side i) (cfg.word j side' i'))
      hi' hi ⟨le_max_right .., ?_⟩ ⟨le_max_left .., ?_⟩) <;> rw [page_eq] at * <;> omega

/-- Zeroing one page of the slot while few sweeps have been started is an event as assumed. -/
theorem zeroesPages_page {cfg : Config} {k i : ℕ} {side : Side} {st : Proc}
    (hi : i < cfg.pagesPerHalf) (hfew : (st.thread k).hotStarted < 2 ^ 64) :
    ZeroesPages cfg k st (.env (.zero (cfg.word k side i) page)) := by
  intro a n he
  cases he
  refine ⟨hfew, fun side' i' hi' => ?_⟩
  by_cases h : k = k ∧ side' = side ∧ i' = i
  · exact .inl ((hits_page_iff hi hi').1 h)
  · exact .inr ((hits_page_iff hi hi').2 h)

/-- A zeroing event is possible in every state; it moves no worker and zeroes exactly its range. -/
theorem zero_step (cfg : Config) (st : Proc) (a n : ℕ) :
    ∃ st', (soak cfg).step st (.env (.zero a n)) = some st' ∧ st'.thread = st.thread ∧
      st'.shared.mem = setRange st.shared.mem a n 0 ∧
      st'.shared.stats = st.shared.stats ∧ st'.shared.expired = st.shared.expired :=
  ⟨_, Threads.System.step_env.mpr ⟨_, rfl, rfl⟩, rfl, rfl, rfl, rfl⟩

/-- A hot page of worker 1 zeroed before its first verification of the loop: the verification
loads it and counts it. -/
theorem lost_page_counted_first_round : ∃ ls ls' st₁ st₂ st₃ c,
    run (soak twoWorkers).step (boot twoWorkers) ls = some st₁ ∧
      (soak twoWorkers).step st₁ (.env (.zero (twoWorkers.word 1 .hot 0) page)) = some st₂ ∧
      run (soak twoWorkers).step st₂ ls' = some st₃ ∧
      c ∈ newChecks (st₁.thread 1) (st₃.thread 1) ∧ HotLoad twoWorkers 1 0 c ∧
      c.counted = true := by
  have hk : 1 < twoWorkers.vcpuCount := by decide
  have hi : 0 < twoWorkers.pagesPerHalf := by
    have := twoWorkers.le_pagesPerHalf
    omega
  obtain ⟨st₁, ⟨ls, -, hrun⟩, h₁⟩ := flow_reaches 8 hk (by decide)
    (before_initial (boot_initial twoWorkers) 1) rfl rfl
  have hst : (st₁.thread 1).stmt = .hotVerify 0 := h₁.stmt
  obtain ⟨st₂, hzero, hthread, -, -, hexp⟩ :=
    zero_step twoWorkers st₁ (twoWorkers.word 1 .hot 0) page
  obtain ⟨st₃, ⟨ls', halone, hrun'⟩, h₃, hlog⟩ :=
    verify_logs hk (h₁.env hzero (hexp.trans h₁.early)) rfl
  rw [hthread] at hlog
  obtain ⟨c, hc, hcs, hca⟩ := mem_newChecks hlog
  have hload : HotLoad twoWorkers 1 0 c := ⟨⟨0, hcs⟩, hca⟩
  have hfew : (st₁.thread 1).hotStarted < 2 ^ 64 := by
    have hcycles : (st₁.thread 1).cycles = 0 := h₁.cycles
    simp [Worker.hotStarted, Worker.hotMade, hst, hcycles, hotSweepsPerCycle]
  have hzeroes : Along (soak twoWorkers).step (ZeroesPages twoWorkers 1) st₁
      (.env (.zero (twoWorkers.word 1 .hot 0) page) :: ls') := by
    refine ⟨zeroesPages_page hi hfew, fun t ht => ?_⟩
    rw [hzero, Option.some.injEq] at ht
    subst ht
    refine halone.mono fun _ l hl a n he => ?_
    rcases hl with rfl | rfl | rfl <;> cases he
  refine ⟨ls, ls', st₁, st₂, st₃, c, hrun, hzero, hrun', hc, hload, ?_⟩
  refine (lost_page_counted twoWorkers (boot_initial twoWorkers) hrun hzero hrun' hzeroes hk hi
    h₃.idle).1 ⟨by rw [hst]; rfl, (hits_page_iff hi hi).1 ⟨rfl, rfl, rfl⟩, fun hwin => ?_⟩ c hc
      hload
  have := h₁.idle.symm.trans hwin.1
  cases this

/-- Zeroing a page whose first word is zero changes nothing the workers see. -/
theorem silent_zero {cfg : Config} {st st' : Proc} {k i : ℕ} {side : Side}
    (hi : i < cfg.pagesPerHalf) (h : Silent cfg st)
    (hzero : load64 st.shared.mem (cfg.word k side i) = 0)
    (hstep : (soak cfg).step st (.env (.zero (cfg.word k side i) page)) = some st') :
    Silent cfg st' := by
  obtain ⟨sh', henv, rfl⟩ := Threads.System.step_env.mp hstep
  replace henv : Env.step cfg (.zero (cfg.word k side i) page) st.thread st.shared = some sh' :=
    henv
  have hmem : sh'.mem = setRange st.shared.mem (cfg.word k side i) page 0 := by
    simp only [Env.step, Option.some.injEq] at henv
    rw [← henv]
  refine ⟨fun j hj => ?_, by rw [← h.2, (env_frame henv).stats]⟩
  obtain ⟨hctl, hV, hC⟩ := h.1 j hj
  refine ⟨control_env henv hctl, hV, hC.congr fun side' i' hi' => ?_⟩
  rw [hmem]
  by_cases heq : j = k ∧ side' = side ∧ i' = i
  · rw [load64_setRange_zero ((hits_page_iff hi hi').1 heq)]
    obtain ⟨rfl, rfl, rfl⟩ := heq
    exact hzero.symm
  · exact load64_setRange_of_disjoint ((hits_page_iff hi hi').2 heq)

/-- **When the counter wraps.** After `2 ^ 64` hot sweeps `hot_sweeps` is zero: a hot page zeroed
just before that verification is loaded by it and not counted, and the statistics show nothing. -/
theorem lost_page_unseen_at_wrap : ∃ ls ls' st₁ st₂ st₃ c,
    run (soak reusableWorkers).step (boot reusableWorkers) ls = some st₁ ∧
      (soak reusableWorkers).step st₁ (.env (.zero (reusableWorkers.word 1 .hot 0) page)) =
        some st₂ ∧
      run (soak reusableWorkers).step st₂ ls' = some st₃ ∧
      LosesHot reusableWorkers 1 0 (reusableWorkers.word 1 .hot 0) page (st₁.thread 1) ∧
      c ∈ newChecks (st₁.thread 1) (st₃.thread 1) ∧ HotLoad reusableWorkers 1 0 c ∧
      (st₃.thread 1).running = false ∧ (st₃.thread 1).stmt.adding = false ∧
      st₃.shared.stats.mismatches = 0 := by
  have hk : 1 < reusableWorkers.vcpuCount := by decide
  have hi : 0 < reusableWorkers.pagesPerHalf := by
    have := reusableWorkers.le_pagesPerHalf
    omega
  obtain ⟨c, hc⟩ : ∃ c, 4 * c + 4 = 2 ^ 64 := ⟨2 ^ 62 - 1, by norm_num⟩
  -- worker 1 goes round its loop until the counter has wrapped
  obtain ⟨t₁, hreach₁, hb₁⟩ :=
    loop_reached hk (by decide) (before_initial (boot_initial reusableWorkers) 1) c
  obtain ⟨st₁, hreach₂, h₁⟩ := flow_reaches 16 hk (by decide) hb₁ rfl rfl
  have hreach := hreach₁.trans hreach₂
  have hst : (st₁.thread 1).stmt = .hotVerify 2 := h₁.stmt
  have hcycles : (st₁.thread 1).cycles = c := h₁.cycles
  have hsilent₁ : Silent reusableWorkers st₁ :=
    silent_reaches ⟨intact_initial (boot_initial reusableWorkers), rfl⟩ hreach
  have hword : load64 st₁.shared.mem (reusableWorkers.word 1 .hot 0) = 0 := by
    obtain ⟨-, hV, hC⟩ := hsilent₁.1 1 hk
    obtain ⟨f, hf, hhot, -⟩ := hC.halves
    have hmade : (st₁.thread 1).hotMade = 2 ^ 64 := by
      simp only [Worker.hotMade, hst, hcycles, Stmt.hotDone, hotSweepsPerCycle]
      omega
    rw [hf.idle h₁.idle .hot 0 hi, hhot 0 hi, Worker.hotWord, hst]
    change (st₁.thread 1).hotSweeps = 0
    rw [hV.hotSweeps, hmade]
    rfl
  -- the page is zeroed, verified, and the count is added
  obtain ⟨st₂, hzero, hthread, -, -, hexp⟩ :=
    zero_step reusableWorkers st₁ (reusableWorkers.word 1 .hot 0) page
  have hsilent₂ := silent_zero hi hsilent₁ hword hzero
  have h₂ : Before reusableWorkers 1 st₂ (.hotVerify 2, c) := h₁.env hzero (hexp.trans h₁.early)
  obtain ⟨t₃, hreach₃, h₃, hlog⟩ := verify_logs hk h₂ rfl
  obtain ⟨st₃, hreach₄, h₄⟩ := flow_reaches 2 hk (by decide) h₃ rfl rfl
  have hsilent₃ := silent_reaches hsilent₂ (hreach₃.trans hreach₄)
  rw [hthread] at hlog
  obtain ⟨c', hc', hcs, hca⟩ := mem_newChecks (hlog.trans (log_reaches hreach₄))
  obtain ⟨ls, -, hrun⟩ := hreach
  obtain ⟨ls', -, hrun'⟩ := hreach₃.trans hreach₄
  refine ⟨ls, ls', st₁, st₂, st₃, c', hrun, hzero, hrun', ⟨by rw [hst]; rfl,
    (hits_page_iff hi hi).1 ⟨rfl, rfl, rfl⟩, fun hwin => ?_⟩, hc', ⟨⟨2, hcs⟩, hca⟩, h₄.idle, ?_,
    hsilent₃.2⟩
  · have := h₁.idle.symm.trans hwin.1
    cases this
  · rw [h₄.stmt]
    rfl

end VmRatchet.Soak
