import Mathlib.Tactic.Linarith
import Mathlib.Tactic.Ring
import VmRatchet.Soak.Progress

/-!
# The release total and the task-wide footprint

Each worker brackets its reclaim with two reads of `phys_footprint` and pushes the difference; the
sum of the pushed deltas is printed as the bytes released in total. The footprint is one counter of
the whole task: what a worker releases while another one stands between its two reads is in the
deltas of both.

* `potential` — the bytes recorded, plus what the workers inside their brackets would record now.
* `potential_step`, `recorded_eq` — a step raises it by the bytes the step releases and once more
  by these bytes for every *other* open bracket; so the sum is the total released plus the overlap.
* `release_total_iff` — the sum is the total exactly if no bytes are released inside the bracket of
  another worker.
-/

namespace VmRatchet.Soak

open Guest Transition

/-! ## Brackets -/

/-- The worker stands between its two reads of the ledger. -/
def Stmt.measuring : Stmt → Bool
  | .reclaim _ | .ledgerAfter => true
  | _ => false

/-- The worker has made the first read and not yet pushed its delta. -/
def Stmt.recording : Stmt → Bool
  | .reclaim _ | .ledgerAfter | .reclaimCount | .push => true
  | _ => false

/-- The bytes a step releases; only a call of `reclaim` releases any. -/
def bytesReleased : Move → ℕ
  | .act _ (.call released) => released
  | _ => 0

/-- The bytes all reclaims of a run release. -/
def totalReleased (ls : List Move) : ℕ := (ls.map bytesReleased).sum

/-- The workers that stand between their reads, other than `k`. -/
def othersMeasuring (cfg : Config) (st : Proc) (k : ℕ) : Finset ℕ :=
  (Finset.range cfg.vcpuCount).filter fun j => j ≠ k ∧ (st.thread j).stmt.measuring = true

/-- The bytes a step releases inside brackets of other workers, once for each bracket. -/
def overlapped (cfg : Config) (st : Proc) : Move → ℕ
  | .act k (.call released) => released * (othersMeasuring cfg st k).card
  | _ => 0

/-- **What is assumed**: nothing but reclaims changes the footprint between two reads. -/
def Undisturbed (cfg : Config) (st : Proc) (l : Move) : Prop :=
  ∀ n, l = .env (.footprint n) → ∀ k < cfg.vcpuCount, (st.thread k).stmt.measuring = false

/-- **The condition**: a worker that releases bytes does so while no other worker stands between
its two reads. -/
def Separate (cfg : Config) (st : Proc) (l : Move) : Prop :=
  ∀ k released, l = .act k (.call released) → 0 < released →
    ∀ j < cfg.vcpuCount, j ≠ k → (st.thread j).stmt.measuring = false

/-- The bytes that a step releases twice over are none exactly if it meets the condition: it
releases nothing, or no other worker stands between its two reads of the ledger. -/
theorem overlapped_eq_zero_iff {cfg : Config} {st : Proc} {l : Move} :
    overlapped cfg st l = 0 ↔ Separate cfg st l := by
  have hcall : ∀ k released, overlapped cfg st (.act k (.call released)) = 0 ↔
      Separate cfg st (.act k (.call released)) := by
    intro k released
    simp only [overlapped, Nat.mul_eq_zero, Finset.card_eq_zero, othersMeasuring,
      Finset.filter_eq_empty_iff, Finset.mem_range]
    constructor
    · rintro h k' released' heq hpos j hj hjk
      cases heq
      rcases h with h | h
      · omega
      · simpa using fun hm => h hj ⟨hjk, hm⟩
    · intro h
      rcases Nat.eq_zero_or_pos released with hzero | hpos
      · exact .inl hzero
      · refine .inr fun {j} hj hc => ?_
        have := h k released rfl hpos j hj hc.1
        simp [hc.2] at this
  cases l with
  | env e => exact ⟨fun _ k r heq => (by cases heq), fun _ => rfl⟩
  | act k a =>
      cases a with
      | call released => exact hcall k released
      | _ => exact ⟨fun _ k r heq => (by cases heq), fun _ => rfl⟩

/-! ## What is recorded and what is about to be -/

/-- What a worker would still record, if its second read happened at footprint `n`. -/
def Worker.unrecorded (n : ℕ) (w : Worker) : ℚ :=
  match w.stmt with
  | .reclaim _ | .ledgerAfter => (w.before : ℚ) - n
  | .reclaimCount | .push => (w.before : ℚ) - w.after
  | _ => 0

/-- The sum of the pushed deltas, in bytes. -/
def recorded (sh : Shared) : ℚ := sh.stats.reclaimedMib.sum * (1024 * 1024)

/-- The bytes recorded and the bytes still to be recorded. -/
def potential (cfg : Config) (st : Proc) : ℚ :=
  recorded st.shared + (soak cfg).total (fun _ w => w.unrecorded st.shared.footprint) st

section step

variable {cfg : Config} {k : ℕ} {w w' : Worker} {sh sh' : Shared}

/-- Outside the bracket of its two reads, what a worker would still record does not depend on the
footprint. -/
theorem unrecorded_of_not_measuring (h : w.stmt.measuring = false) (n m : ℕ) :
    w.unrecorded n = w.unrecorded m := by
  cases hst : w.stmt <;> simp [hst, Stmt.measuring] at h <;> simp [Worker.unrecorded, hst]

/-- Inside the bracket a lower footprint is a larger delta. -/
theorem unrecorded_sub (w : Worker) {released n : ℕ} (h : released ≤ n) :
    w.unrecorded (n - released) =
      w.unrecorded n + if w.stmt.measuring = true then (released : ℚ) else 0 := by
  cases hm : w.stmt.measuring with
  | false => simp [unrecorded_of_not_measuring hm (n - released) n]
  | true =>
      cases hst : w.stmt <;> simp [hst, Stmt.measuring] at hm <;>
        simp only [Worker.unrecorded, hst, if_true, Nat.cast_sub h] <;> ring

/-- Outside the bracket and its push nothing is left to record. -/
theorem unrecorded_of_not_recording (h : w.stmt.recording = false) (n : ℕ) :
    w.unrecorded n = 0 := by
  cases hst : w.stmt <;> simp [hst, Stmt.recording] at h <;> simp [Worker.unrecorded, hst]

/-- A host statement moves bytes from the worker to the statistics, and loses none. -/
theorem host_unrecorded (h : w.host cfg k sh = some (w', sh')) :
    recorded sh' + w'.unrecorded sh'.footprint = recorded sh + w.unrecorded sh.footprint := by
  unfold recorded
  cases hst : w.stmt
  case push =>
    simp only [Worker.host, hst, Option.some.injEq, Prod.mk.injEq] at h
    obtain ⟨rfl, rfl⟩ := h
    simp only [Worker.unrecorded, hst, List.sum_append, List.sum_singleton, deltaMib]
    ring
  case reclaim rest =>
    cases rest <;>
      simp only [Worker.host, hst, Option.some.injEq, Prod.mk.injEq, reduceCtorEq] at h
    obtain ⟨rfl, rfl⟩ := h
    simp [Worker.unrecorded, hst]
  all_goals
    simp only [Worker.host, hst, reduceCtorEq] at h
    try split_ifs at h
    all_goals
      rw [Option.some.injEq, Prod.mk.injEq] at h
      obtain ⟨rfl, rfl⟩ := h
      try split_ifs
      all_goals simp [Worker.unrecorded, hst]

/-- A guest instruction changes nothing that is recorded, neither what the worker would still record
nor the sum of the pushed deltas, and leaves the footprint as it is. -/
theorem guest_unrecorded (w : Worker) (sh : Shared) (n : ℕ) :
    (w.guest sh).1.unrecorded n = w.unrecorded n ∧ (w.guest sh).2.footprint = sh.footprint ∧
      recorded (w.guest sh).2 = recorded sh := by
  have hring : w.ring.unrecorded n = w.unrecorded n := by
    cases hst : w.stmt <;> simp [Worker.ring, Worker.unrecorded, hst, Stmt.afterPass]
  unfold Worker.guest Worker.onExit
  split
  · exact ⟨rfl, rfl, rfl⟩
  · split
    · exact ⟨rfl, rfl, rfl⟩
    · exact ⟨hring, rfl, rfl⟩
    · exact ⟨rfl, rfl, rfl⟩

/-- A step of a worker that keeps the footprint keeps the potential. -/
theorem potential_update {st : Proc} (hk : k < cfg.vcpuCount)
    (hfoot : sh'.footprint = st.shared.footprint)
    (h : recorded sh' + w'.unrecorded sh'.footprint =
      recorded st.shared + (st.thread k).unrecorded st.shared.footprint) :
    potential cfg ⟨Function.update st.thread k w', sh'⟩ = potential cfg st := by
  have htotal := Threads.System.total_update (S := soak cfg) st
    (fun _ w => w.unrecorded st.shared.footprint) hk w' sh'
  rw [hfoot] at h
  unfold potential
  simp only [hfoot]
  linarith

/-- A call of `reclaim` raises what every open bracket will record: its own, by the bytes it
releases, and once more for each other worker that stands between its two readings of the ledger. -/
theorem potential_call {st : Proc} {released : ℕ} {c : Call} {rest : List Call}
    (hk : k < cfg.vcpuCount) (hs : (st.thread k).stmt = .reclaim (c :: rest))
    (hle : released ≤ st.shared.footprint) :
    potential cfg ⟨Function.update st.thread k { st.thread k with stmt := .reclaim rest },
        { st.shared.call cfg.ram c with footprint := st.shared.footprint - released }⟩ =
      potential cfg st + released + released * (othersMeasuring cfg st k).card := by
  have hrec : recorded
      { st.shared.call cfg.ram c with footprint := st.shared.footprint - released } =
      recorded st.shared := by cases c <;> rfl
  have hmk : (st.thread k).stmt.measuring = true := by rw [hs]; rfl
  -- the brackets that are open, with the worker's own
  have hopen : (Finset.range cfg.vcpuCount).filter
      (fun j => (st.thread j).stmt.measuring = true) = insert k (othersMeasuring cfg st k) := by
    ext j
    by_cases hjk : j = k
    · simp [hjk, hk, hmk]
    · simp [othersMeasuring, hjk]
  have hnot : k ∉ othersMeasuring cfg st k := by simp [othersMeasuring]
  have hsum : (soak cfg).total (fun _ w => w.unrecorded (st.shared.footprint - released))
      ⟨Function.update st.thread k { st.thread k with stmt := .reclaim rest },
        { st.shared.call cfg.ram c with footprint := st.shared.footprint - released }⟩ =
      ∑ j ∈ Finset.range cfg.vcpuCount, ((st.thread j).unrecorded st.shared.footprint +
        if (st.thread j).stmt.measuring = true then (released : ℚ) else 0) := by
    refine Finset.sum_congr rfl fun j _ => ?_
    by_cases hjk : j = k
    · subst hjk
      rw [← unrecorded_sub _ hle]
      simp [Worker.unrecorded, hs]
    · simp only [Function.update_of_ne hjk]
      exact unrecorded_sub _ hle
  unfold potential
  simp only [hsum, hrec, Finset.sum_add_distrib, ← Finset.sum_filter, hopen,
    Finset.sum_const, Finset.card_insert_of_notMem hnot, nsmul_eq_mul, Nat.cast_add, Nat.cast_one]
  unfold Threads.System.total
  simp only [soak]
  ring

/-- **What one step adds to the potential**: the bytes it releases, and these once more for every
other open bracket. The potential is what has been recorded and what the open brackets would record
if they were closed now; when one is closed, its part moves from the one to the other. -/
theorem potential_step {st st' : Proc} {l : Move} (hl : Undisturbed cfg st l)
    (hstep : (soak cfg).step st l = some st') :
    potential cfg st' = potential cfg st + bytesReleased l + overlapped cfg st l := by
  cases l with
  | env e =>
      obtain ⟨sh', henv, rfl⟩ := Threads.System.step_env.mp hstep
      have hf := env_frame henv
      have hrec : recorded sh' = recorded st.shared := by
        unfold recorded
        rw [hf.stats]
      have hsum : (soak cfg).total (fun _ w => w.unrecorded sh'.footprint) ⟨st.thread, sh'⟩ =
          (soak cfg).total (fun _ w => w.unrecorded st.shared.footprint) st := by
        refine Finset.sum_congr rfl fun j hj => ?_
        by_cases hfoot : ∃ n, e = .footprint n
        · obtain ⟨n, rfl⟩ := hfoot
          exact unrecorded_of_not_measuring (hl n rfl j (Finset.mem_range.mp hj)) _ _
        · rw [hf.footprint fun n he => hfoot ⟨n, he⟩]
      simp [potential, hrec, hsum, bytesReleased, overlapped]
  | act k a =>
      obtain ⟨hk, w', sh', hact, rfl⟩ := Threads.System.step_act.mp hstep
      obtain ⟨-, h⟩ := Worker.step_inv hact
      cases h with
      | call hs hle =>
          rw [potential_call hk hs hle]
          simp [bytesReleased, overlapped]
      | enter | cancel | take | fail =>
          simp only [bytesReleased, overlapped, Nat.cast_zero, add_zero]
          exact potential_update hk rfl rfl
      | host hr hp h =>
          rw [potential_update hk (host_frame h).footprint (host_unrecorded h)]
          simp [bytesReleased, overlapped]
      | guest hr =>
          obtain ⟨h1, h2, h3⟩ := guest_unrecorded (st.thread k) st.shared st.shared.footprint
          rw [potential_update hk h2 (by rw [h2, h1, h3])]
          simp [bytesReleased, overlapped]

end step

/-! ## Whole runs -/

variable {cfg : Config} {st st' : Proc} {ls : List Move}

/-- A whole run adds the bytes it releases and the overlap. -/
theorem potential_run (hund : Along (soak cfg).step (Undisturbed cfg) st ls)
    (hrun : run (soak cfg).step st ls = some st') :
    potential cfg st' =
      potential cfg st + totalReleased ls + weight (soak cfg).step (overlapped cfg) st ls := by
  induction ls generalizing st with
  | nil =>
      rw [run_nil, Option.some.injEq] at hrun
      simp [hrun, totalReleased, weight]
  | cons l ls ih =>
      obtain ⟨st₁, hstep, hrun₁⟩ := run_cons_eq_some.mp hrun
      rw [ih (hund.2 st₁ hstep) hrun₁, potential_step hund.1 hstep, weight_cons hstep]
      simp only [totalReleased, List.map_cons, List.sum_cons, Nat.cast_add]
      ring

/-- The process starts with nothing recorded and no bracket open. -/
theorem potential_initial (h : Initial cfg st) : potential cfg st = 0 := by
  have hsum : (soak cfg).total (fun _ w => w.unrecorded st.shared.footprint) st = 0 := by
    refine Finset.sum_eq_zero fun k _ => ?_
    obtain ⟨cpu, hw⟩ := h.fresh k
    rw [hw]
    exact unrecorded_of_not_recording rfl _
  simp [potential, recorded, h.stats, hsum]

/-- **What the sum of the deltas is**, once no worker is between its first read and its push: the
bytes released, and once more those released inside brackets of other workers. -/
theorem recorded_eq (hinit : Initial cfg st)
    (hund : Along (soak cfg).step (Undisturbed cfg) st ls)
    (hrun : run (soak cfg).step st ls = some st')
    (hdone : ∀ k < cfg.vcpuCount, (st'.thread k).stmt.recording = false) :
    recorded st'.shared =
      totalReleased ls + weight (soak cfg).step (overlapped cfg) st ls := by
  have hrest : (soak cfg).total (fun _ w => w.unrecorded st'.shared.footprint) st' = 0 :=
    Finset.sum_eq_zero fun k hk => unrecorded_of_not_recording (hdone k (Finset.mem_range.mp hk)) _
  have hpot := potential_run hund hrun
  rw [potential_initial hinit, potential, hrest] at hpot
  linarith

/-- The overlap vanishes exactly if the condition holds along the run. -/
theorem weight_overlapped_eq_zero_iff :
    weight (soak cfg).step (overlapped cfg) st ls = 0 ↔
      Along (soak cfg).step (Separate cfg) st ls := by
  rw [weight_eq_zero_iff]
  constructor
  · exact fun h => h.mono fun st l => overlapped_eq_zero_iff.mp
  · exact fun h => h.mono fun st l => overlapped_eq_zero_iff.mpr

/-- **When the release total is right.** For every number of workers and every run in which only
reclaims change the footprint between a worker's two reads, and after which every delta has been
pushed: the sum of the recorded deltas is the number of bytes all reclaims released, exactly if no
worker released bytes while another one stood between its two reads. -/
theorem release_total_iff (cfg : Config) {st st' : Proc} {ls : List Move} (hinit : Initial cfg st)
    (hund : Along (soak cfg).step (Undisturbed cfg) st ls)
    (hrun : run (soak cfg).step st ls = some st')
    (hdone : ∀ k < cfg.vcpuCount, (st'.thread k).stmt.recording = false) :
    st'.shared.stats.reclaimedMib.sum * (1024 * 1024) = (totalReleased ls : ℚ) ↔
      Along (soak cfg).step (Separate cfg) st ls := by
  have heq := recorded_eq hinit hund hrun hdone
  rw [← weight_overlapped_eq_zero_iff]
  unfold recorded at heq
  rw [heq, add_eq_left, Nat.cast_eq_zero]

/-! ## Runs with and without overlap -/

/-- Four workers on 1 GiB. -/
def fourWorkers : Config where
  sizeGb := 1
  vcpus := 4
  mode := .munmap
  advice := 7
  ram := 0x100000000
  accepted := by unfold Options.Accepted; decide
  addressable := by decide

/-- A step that meets the assumption and the condition. -/
def Calm (cfg : Config) (st : Proc) (l : Move) : Prop := Undisturbed cfg st l ∧ Separate cfg st l

/-- A worker that moves by itself releases nothing and does not disturb the footprint. -/
theorem calm_of_alone {k : ℕ} {l : Move} (h : Alone k st l) : Calm cfg st l := by
  constructor
  · intro n he
    rcases h with rfl | rfl | rfl <;> cases he
  · intro j released he hpos
    rcases h with rfl | rfl | rfl <;> cases he
    omega

/-- With a page in the footprint, worker 1 is about to call `munmap`; nobody else has moved. -/
theorem fourWorkers_bracket : ∃ st c rest,
    Reaches (soak fourWorkers).step (Calm fourWorkers) (boot fourWorkers) st ∧
      Before fourWorkers 1 st (.reclaim (c :: rest), 0) ∧
      (flow fourWorkers 1)^[6] (.reclaim rest, 0) = (.coldFill, 0) ∧
      st.shared.footprint = page ∧ ∀ j ≠ 1, st.thread j = (boot fourWorkers).thread j := by
  have hk : 1 < fourWorkers.vcpuCount := by decide
  have hb := before_initial (boot_initial fourWorkers) 1
  obtain ⟨st₁, hstep, hthread, hfoot, hexp⟩ : ∃ st₁,
      (soak fourWorkers).step (boot fourWorkers) (.env (.footprint page)) = some st₁ ∧
        st₁.thread = (boot fourWorkers).thread ∧ st₁.shared.footprint = page ∧
        st₁.shared.expired = false :=
    ⟨_, rfl, rfl, rfl, rfl⟩
  have hcalm : Calm fourWorkers (boot fourWorkers) (.env (.footprint page)) :=
    ⟨fun n _ k _ => rfl, fun k r he => (by cases he)⟩
  obtain ⟨st₂, hreach, h₂⟩ := flow_reaches 34 hk (by decide) (hb.env hstep hexp) rfl rfl
  have hframe := alone_frame hreach
  refine ⟨st₂, _, _, (Reaches.single hcalm hstep).trans (hreach.mono fun _ _ => calm_of_alone),
    h₂, rfl, hframe.footprint.trans hfoot, fun j hj => ?_⟩
  rw [hframe.thread j hj, hthread]

/-- Worker 1 releases a page while no other worker reads the ledger: the total is right. -/
theorem release_total_one_bracket : ∃ ls₁ ls₂ st',
    run (soak fourWorkers).step (boot fourWorkers) (ls₁ ++ .act 1 (.call page) :: ls₂) =
        some st' ∧
      st'.shared.stats.reclaimedMib.sum * (1024 * 1024) =
        (totalReleased (ls₁ ++ .act 1 (.call page) :: ls₂) : ℚ) := by
  have hk : 1 < fourWorkers.vcpuCount := by decide
  obtain ⟨st₁, c, rest, ⟨ls₁, hcalm₁, hrun₁⟩, h₁, hflow, hfoot, hother₁⟩ := fourWorkers_bracket
  obtain ⟨st₂, hstep, h₂, hother₂⟩ := call_reaches hk h₁ (Nat.le_of_eq hfoot.symm)
  obtain ⟨st₃, hreach, h₃⟩ := flow_reaches 6 hk (by decide) h₂ rfl rfl
  rw [hflow] at h₃
  have hother₃ := (alone_frame hreach).thread
  obtain ⟨ls₂, halone, hrun₂⟩ := hreach
  have hrun := run_append.mpr ⟨st₁, hrun₁, run_cons_eq_some.mpr ⟨st₂, hstep, hrun₂⟩⟩
  have hidle : ∀ j ≠ 1, (st₃.thread j).stmt = .vcpuCreate := by
    intro j hj
    rw [hother₃ j hj, hother₂ j hj, hother₁ j hj]
    rfl
  have hcalm : Along (soak fourWorkers).step (Calm fourWorkers) (boot fourWorkers)
      (ls₁ ++ .act 1 (.call page) :: ls₂) := by
    refine hcalm₁.append_cons hrun₁ ⟨fun n he => (by cases he), fun k r he _ j _ hj => ?_⟩ hstep
      (halone.mono fun _ _ => calm_of_alone)
    cases he
    rw [hother₁ j hj]
    rfl
  refine ⟨ls₁, ls₂, st₃, hrun, ?_⟩
  refine (release_total_iff fourWorkers (boot_initial fourWorkers)
    (hcalm.mono fun _ _ h => h.1) hrun fun k _ => ?_).mpr (hcalm.mono fun _ _ h => h.2)
  by_cases hk1 : k = 1
  · rw [hk1, h₃.stmt]
    rfl
  · rw [hidle k hk1]
    rfl

/-- Worker 1 releases a page while worker 2 stands between its two reads: every delta is pushed,
and the sum is not what was released. -/
theorem release_total_overlap : ∃ ls₁ ls₂ st',
    Along (soak fourWorkers).step (Undisturbed fourWorkers) (boot fourWorkers)
        (ls₁ ++ .act 1 (.call page) :: ls₂) ∧
      run (soak fourWorkers).step (boot fourWorkers) (ls₁ ++ .act 1 (.call page) :: ls₂) =
        some st' ∧
      (∀ k < fourWorkers.vcpuCount, (st'.thread k).stmt.recording = false) ∧
      st'.shared.stats.reclaimedMib.sum * (1024 * 1024) ≠
        (totalReleased (ls₁ ++ .act 1 (.call page) :: ls₂) : ℚ) := by
  have hk₁ : 1 < fourWorkers.vcpuCount := by decide
  have hk₂ : 2 < fourWorkers.vcpuCount := by decide
  obtain ⟨st₁, c, rest, hreach₁, h₁, hflow, hfoot₁, hother₁⟩ := fourWorkers_bracket
  -- worker 2 opens its bracket too
  have hb₂ : Before fourWorkers 2 st₁ (.vcpuCreate, 0) := by
    refine ⟨h₁.counts, ?_, ?_, ?_, ?_, ?_, h₁.early⟩ <;> rw [hother₁ 2 (by decide)] <;>
      first | rfl | exact fun _ => rfl
  obtain ⟨st₂, hreach₂, h₂⟩ := flow_reaches 34 hk₂ (by decide) hb₂ rfl rfl
  obtain ⟨hother₂, hfoot₂, -⟩ := alone_frame hreach₂
  have h₁₂ := h₁.other (by decide) hreach₂ h₂
  have hfoot : page ≤ st₂.shared.footprint := by omega
  -- worker 1 releases a page
  obtain ⟨st₃, hstep, h₃, hother₃⟩ := call_reaches hk₁ h₁₂ hfoot
  have h₂₃ : Before fourWorkers 2 st₃ ((flow fourWorkers 2)^[34] (.vcpuCreate, 0)) := by
    refine ⟨h₃.counts, ?_, ?_, ?_, ?_, ?_, h₃.early⟩ <;> rw [hother₃ 2 (by decide)]
    exacts [h₂.alive, h₂.idle, h₂.stmt, h₂.cycles, h₂.untaken]
  -- both push
  obtain ⟨st₄, hreach₄, h₄⟩ := flow_reaches 6 hk₁ (by decide) h₃ rfl rfl
  rw [hflow] at h₄
  have h₂₄ := h₂₃.other (by decide) hreach₄ h₄
  obtain ⟨st₅, hreach₅, h₅⟩ := flow_reaches 7 hk₂ (by decide) h₂₄ rfl rfl
  have h₁₅ := h₄.other (by decide) hreach₅ h₅
  have hother : ∀ j, j ≠ 1 → j ≠ 2 → (st₅.thread j).stmt = .vcpuCreate := by
    intro j hj₁ hj₂
    rw [(alone_frame hreach₅).1 j hj₂, (alone_frame hreach₄).1 j hj₁, hother₃ j hj₁,
      hother₂ j hj₂, hother₁ j hj₁]
    rfl
  have hdone : ∀ k < fourWorkers.vcpuCount, (st₅.thread k).stmt.recording = false := by
    intro k _
    by_cases hk1 : k = 1
    · rw [hk1, h₁₅.stmt]
      rfl
    by_cases hk2 : k = 2
    · rw [hk2, h₅.stmt]
      rfl
    · rw [hother k hk1 hk2]
      rfl
  obtain ⟨ls₁, hund₁, hrun₁⟩ := hreach₁.trans (hreach₂.mono fun _ _ => calm_of_alone)
  obtain ⟨ls₂, hund₂, hrun₂⟩ : Reaches (soak fourWorkers).step (Calm fourWorkers) st₃ st₅ :=
    (hreach₄.mono fun _ _ => calm_of_alone).trans (hreach₅.mono fun _ _ => calm_of_alone)
  have hund : Along (soak fourWorkers).step (Undisturbed fourWorkers) (boot fourWorkers)
      (ls₁ ++ .act 1 (.call page) :: ls₂) :=
    (hund₁.mono fun _ _ h => h.1).append_cons hrun₁ (fun n he => (by cases he)) hstep
      (hund₂.mono fun _ _ h => h.1)
  have hrun := run_append.mpr ⟨st₂, hrun₁, run_cons_eq_some.mpr ⟨st₃, hstep, hrun₂⟩⟩
  refine ⟨ls₁, ls₂, st₅, hund, hrun, hdone, fun heq => ?_⟩
  -- the sum would be right only without overlap
  have hsum := recorded_eq (boot_initial fourWorkers) hund hrun hdone
  unfold recorded at hsum
  rw [heq, left_eq_add, Nat.cast_eq_zero, weight_overlapped_eq_zero_iff] at hsum
  have hsep := ((Along.append.mp hsum).2 st₂ hrun₁).1 1 page rfl (by decide) 2 hk₂ (by decide)
  rw [h₂.stmt] at hsep
  cases hsep

end VmRatchet.Soak
