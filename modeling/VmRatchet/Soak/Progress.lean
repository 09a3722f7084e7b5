import VmRatchet.Soak.Counters

/-!
# Progress: a worker left alone goes round its loop

The other modules say what holds in every run; this one says that the runs of interest exist.
While the deadline has not passed and no call fails, a worker moves from statement to statement in
the order of the source (`Stmt.next`), and every guest pass on the way returns, whatever memory
holds. Only the assertions of the detector self-test depend on memory, and only worker 0 makes
them.

* `pass_returns` — a running pass reaches its doorbell; the measure is `Loc.remaining`.
* `next_reaches` — one statement, if its assertion holds.
* `flow_reaches`, `flow_reaches_of` — any number of statements, for the other workers, and for a
  worker whose assertions an invariant guarantees.
* `fill_reaches`, `cycles_reach` — the worker can come to the fill of its cycle, and complete any
  number of cycles.
-/

namespace VmRatchet.Soak

open Arm64 ByteMemory Guest Transition

/-- The statement after this one, for a worker that does not see the deadline pass. -/
def Stmt.next (cfg : Config) (k : ℕ) : Stmt → Stmt
  | .vcpuCreate => .setCpsr
  | .setCpsr => .firstSweep
  | .firstCount => if k = 0 then .plantRead else .deadline
  | .plantRead => .plantWrite
  | .plantWrite => .plantVerify
  | .restore => .assertFound
  | .assertFound => .cleanVerify
  | .assertClean => .deadline
  | .deadline => .hotSweep 0
  | .hotCount i => .hotSwept i
  | .hotSwept i => .hotVerify i
  | .hotChecked i => .hotBad i
  | .hotBad i => if i + 1 < hotSweepsPerCycle then .hotSweep (i + 1) else .nextCycle
  | .nextCycle => .coldSweep
  | .coldSwept => .ledgerBefore
  | .ledgerBefore => .reclaim (reclaimCalls cfg.ram (cfg.cold k) cfg.mode cfg.advice)
  | .reclaim [] => .ledgerAfter
  | .reclaim (_ :: rest) => .reclaim rest
  | .ledgerAfter => .reclaimCount
  | .reclaimCount => .push
  | .push => .coldFill
  | .coldChecked again => .coldBad again
  | .coldBad again => if again then .deadline else .sleep
  | .sleep => .coldVerify true
  | s => s.afterPass

/-- The statements before a worker destroys its vCPU. -/
def Stmt.live : Stmt → Bool
  | .vcpuDestroy | .done => false
  | _ => true

/-- The statements of the detector self-test. -/
def Stmt.tests : Stmt → Bool
  | .plantRead | .plantWrite | .plantVerify | .restore | .assertFound | .cleanVerify
  | .assertClean => true
  | _ => false

/-- If the worker is at an assertion of the self-test, the assertion holds. -/
structure Worker.Passes (w : Worker) : Prop where
  found : w.stmt = .assertFound → w.found = 1
  clean : w.stmt = .assertClean → w.clean = 0

/-- The next statement and the cycles then completed, for a worker that is not interrupted and not
past its deadline. -/
def flow (cfg : Config) (k : ℕ) : Stmt × ℕ → Stmt × ℕ
  | (.coldBad true, c) => (.deadline, c + 1)
  | (s, c) => (s.next cfg k, c)

/-- The statement to which the flow leads is the next statement of the source; the flow only counts
the cycles beside it. -/
theorem flow_fst (cfg : Config) (k : ℕ) (x : Stmt × ℕ) :
    (flow cfg k x).1 = x.1.next cfg k := by
  unfold flow
  split <;> rfl

/-- A live statement is followed by a live one. -/
theorem Stmt.live_next {cfg : Config} {k : ℕ} {s : Stmt} (h : s.live = true) :
    (s.next cfg k).live = true := by
  cases s with
  | hotBad i | firstCount =>
      simp only [Stmt.next]
      split_ifs <;> rfl
  | coldBad again => cases again <;> rfl
  | reclaim rest => cases rest <;> rfl
  | _ => first | rfl | cases h

/-- A worker other than worker 0 never comes to the statements of the detector self-test from
outside. -/
theorem Stmt.tests_next {cfg : Config} {k : ℕ} {s : Stmt} (hk0 : k ≠ 0) (h : s.tests = false) :
    (s.next cfg k).tests = false := by
  cases s with
  | hotBad i =>
      simp only [Stmt.next]
      split_ifs <;> rfl
  | firstCount =>
      rw [Stmt.next, if_neg hk0]
      rfl
  | coldBad again => cases again <;> rfl
  | reclaim rest => cases rest <;> rfl
  | _ => first | rfl | cases h

/-- A worker outside the self-test is at none of its assertions, so all those it is at hold. -/
theorem Worker.Passes.of_tests {w : Worker} (h : w.stmt.tests = false) : w.Passes := by
  constructor <;> intro hst <;> rw [hst] at h <;> cases h

/-- The worker moves by itself: statements, instructions, and calls that release nothing. -/
def Alone (k : ℕ) (_ : Proc) (l : Move) : Prop :=
  l = .act k .host ∨ l = .act k .guest ∨ l = .act k (.call 0)

/-- Worker `k` stands before statement `s` with `c` cycles completed, and the deadline has not
passed. -/
structure Before (cfg : Config) (k : ℕ) (st : Proc) (x : Stmt × ℕ) : Prop where
  counts : Counts cfg st
  alive : (st.thread k).dead = false
  idle : (st.thread k).running = false
  stmt : (st.thread k).stmt = x.1
  cycles : (st.thread k).cycles = x.2
  untaken : ∀ i, (st.thread k).taken i = false
  early : st.shared.expired = false

section progress

variable {cfg : Config} {k : ℕ} {st : Proc}

/-- An action of worker `k` that it takes by itself is a step of the process, which changes the
worker and the shared state only. -/
theorem alone_step (st : Proc) {a : Act} {w' : Worker} {sh' : Shared} (hk : k < cfg.vcpuCount)
    (ha : a = .host ∨ a = .guest ∨ a = .call 0)
    (h : (st.thread k).step cfg k a st.shared = some (w', sh')) :
    Reaches (soak cfg).step (Alone k) st ⟨Function.update st.thread k w', sh'⟩ := by
  refine Reaches.single (l := .act k a) ?_ (Threads.System.step_act.mpr ⟨hk, w', sh', h, rfl⟩)
  rcases ha with rfl | rfl | rfl
  · exact .inl rfl
  · exact .inr (.inl rfl)
  · exact .inr (.inr rfl)

/-- The next call of a reclaim can be made, and release any part of the footprint. -/
theorem call_step {released : ℕ} {c : Call} {rest : List Call} (hk : k < cfg.vcpuCount)
    (halive : (st.thread k).dead = false) (hstmt : (st.thread k).stmt = .reclaim (c :: rest))
    (hle : released ≤ st.shared.footprint) :
    (soak cfg).step st (.act k (.call released)) =
      some ⟨Function.update st.thread k { st.thread k with stmt := .reclaim rest },
        { st.shared.call cfg.ram c with footprint := st.shared.footprint - released }⟩ := by
  refine Threads.System.step_act.mpr ⟨hk, _, _, ?_, rfl⟩
  simp [soak, Worker.step, halive, hstmt, hle]

/-- The counters hold after every run from a state in which they do, whatever steps it is made
of. -/
theorem Counts.reaches {P : Proc → Move → Prop} {st' : Proc} (h : Counts cfg st)
    (hr : Reaches (soak cfg).step P st st') : Counts cfg st' :=
  hr.invariant (fun st l st' _ hI hstep => counts_step st l st' trivial hI hstep) h

/-- **A running pass returns.** By induction on the instructions left: at the doorbell the pass
returns to the statement behind it, and before that every instruction leaves fewer to go. -/
theorem pass_returns {p : Pass} {s : PState} (hk : k < cfg.vcpuCount) (hc : Counts cfg st)
    (halive : (st.thread k).dead = false) (hr : (st.thread k).running = true)
    (hp : (st.thread k).pass cfg k = some p) (hs : Sim p s (st.thread k).cpu)
    (htaken : ∀ i, (st.thread k).taken i = false) (hearly : st.shared.expired = false) :
    ∃ st', Reaches (soak cfg).step (Alone k) st st' ∧
      Before cfg k st' ((st.thread k).stmt.afterPass, (st.thread k).cycles) := by
  suffices hmain : ∀ r (st : Proc) (s : PState), s.loc.remaining p.pages ≤ r → Counts cfg st →
      (st.thread k).dead = false → (st.thread k).running = true →
      (st.thread k).pass cfg k = some p → Sim p s (st.thread k).cpu →
      (∀ i, (st.thread k).taken i = false) → st.shared.expired = false →
      ∃ st', Reaches (soak cfg).step (Alone k) st st' ∧
        Before cfg k st' ((st.thread k).stmt.afterPass, (st.thread k).cycles) from
    hmain _ st s le_rfl hc halive hr hp hs htaken hearly
  intro r
  induction r using Nat.strong_induction_on with
  | h r ih =>
      intro st s hle hc halive hr hp hs htaken hearly
      have hC := hc.control k hk
      have hstep : (st.thread k).step cfg k .guest st.shared =
          some ((st.thread k).guest st.shared) := by
        simp [Worker.step, halive, hr]
      rcases hC.guest hk hp hs with ⟨hloc, hg⟩ | ⟨s', m', c', hps, hs', hg⟩
      · -- the doorbell
        rw [hg] at hstep
        have hreach := alone_step st hk (.inr (.inl rfl)) hstep
        refine ⟨_, hreach, hc.reaches hreach, ?_, ?_, ?_, ?_, ?_, hearly⟩ <;>
          simp [Worker.ring, halive]
        split_ifs
        · simp
        · exact htaken
      · -- one instruction nearer to it
        rw [hg] at hstep
        have hreach := alone_step st hk (.inr (.inl rfl)) hstep
        have hlt := remaining_lt hs.valid hps
        obtain ⟨st', hreach', hbefore⟩ := ih (s'.loc.remaining p.pages) (by omega) _ s' le_rfl
          (hc.reaches hreach) (by simpa using halive) (by simpa using hr)
          (by simpa [Worker.pass] using hp) (by simpa using hs') (by simpa using htaken)
          hearly
        refine ⟨st', hreach.trans hreach', ?_⟩
        simpa using hbefore

/-- A worker that stands before a statement with a guest pass can arm the pass and let it return by
itself, and then stands before the statement after it. -/
theorem pass_reaches {x : Stmt × ℕ} (hk : k < cfg.vcpuCount) (h : Before cfg k st x)
    (hcall : x.1.call ≠ none) : ∃ st', Reaches (soak cfg).step (Alone k) st st' ∧
      Before cfg k st' (x.1.afterPass, x.2) := by
  obtain ⟨p, hp⟩ : ∃ p, (st.thread k).pass cfg k = some p := by
    rw [← Option.ne_none_iff_exists']
    intro hnone
    rw [pass_eq_none, h.stmt] at hnone
    exact hcall hnone
  have hC := h.counts.control k hk
  have hpos : 0 < p.pages := p.pages_pos (hC.fits hk hp).lt
  have hstep : (st.thread k).step cfg k .host st.shared =
      some ((st.thread k).enter p, st.shared) := by
    simp [Worker.step, h.alive, h.idle, hp]
  have hreach := alone_step st hk (.inl rfl) hstep
  obtain ⟨st', hreach', hbefore⟩ := pass_returns (s := p.start (st.thread k).cpu) (p := p) hk
    (h.counts.reaches hreach) (by simpa [Worker.enter] using h.alive) (by simp [Worker.enter])
    (by simpa [Worker.enter, Worker.pass] using hp)
    (by simpa [Worker.enter] using sim_arm p (st.thread k).cpu hpos)
    (by simpa [Worker.enter] using h.untaken) h.early
  refine ⟨st', hreach.trans hreach', ?_⟩
  simpa [Worker.enter, h.stmt, h.cycles] using hbefore

/-- A worker inside a reclaim can make its next call, which releases any number of bytes the
footprint has, and no other worker is moved. -/
theorem call_reaches {released n : ℕ} {c : Call} {rest : List Call} (hk : k < cfg.vcpuCount)
    (h : Before cfg k st (.reclaim (c :: rest), n)) (hle : released ≤ st.shared.footprint) :
    ∃ st', (soak cfg).step st (.act k (.call released)) = some st' ∧
      Before cfg k st' (.reclaim rest, n) ∧ ∀ j ≠ k, st'.thread j = st.thread j := by
  have hstep := call_step hk h.alive h.stmt hle
  have hexp : (st.shared.call cfg.ram c).expired = st.shared.expired := by cases c <;> rfl
  refine ⟨_, hstep, ⟨counts_step _ _ _ trivial h.counts hstep, ?_, ?_, ?_, ?_, ?_,
    hexp.trans h.early⟩, fun j hj => Function.update_of_ne hj _ _⟩
  · simpa using h.alive
  · simpa using h.idle
  · simp
  · simpa using h.cycles
  · simpa using h.untaken

/-- A host statement of a live worker leads to the next statement. -/
theorem host_next (cfg : Config) {w : Worker} (sh : Shared) {s : Stmt} (hpasses : w.Passes)
    (hst : w.stmt = s) (hlive : s.live = true) (hcall : s.call = none)
    (hrest : ∀ c rest, s ≠ .reclaim (c :: rest)) (hearly : sh.expired = false) :
    ∃ w' sh', w.host cfg k sh = some (w', sh') ∧ w'.dead = w.dead ∧
      w'.running = w.running ∧ (w'.stmt, w'.cycles) = flow cfg k (s, w.cycles) ∧
      w'.taken = w.taken ∧ sh'.expired = false := by
  cases s
  case reclaim rest =>
    cases rest with
    | nil =>
        simp only [Worker.host, hst]
        exact ⟨_, _, rfl, rfl, rfl, rfl, rfl, hearly⟩
    | cons c rest => exact absurd rfl (hrest c rest)
  case assertFound =>
    simp only [Worker.host, hst, if_pos (hpasses.found hst)]
    exact ⟨_, _, rfl, rfl, rfl, rfl, rfl, hearly⟩
  case assertClean =>
    simp only [Worker.host, hst, if_pos (hpasses.clean hst)]
    exact ⟨_, _, rfl, rfl, rfl, rfl, rfl, hearly⟩
  case deadline =>
    simp only [Worker.host, hst, hearly]
    exact ⟨_, _, rfl, rfl, rfl, rfl, rfl, hearly⟩
  case coldBad again =>
    cases again <;> simp only [Worker.host, hst] <;> exact ⟨_, _, rfl, rfl, rfl, rfl, rfl, hearly⟩
  all_goals
    first
    | cases hlive; done
    | cases hcall; done
    | simp only [Worker.host, hst]
      exact ⟨_, _, rfl, rfl, rfl, rfl, rfl, hearly⟩

/-- **One statement**: a live worker whose assertion holds comes to the next one, by one host
statement, by the next call of its reclaim, which may release nothing, or by a whole guest pass. -/
theorem next_reaches {x : Stmt × ℕ} (hk : k < cfg.vcpuCount) (h : Before cfg k st x)
    (hlive : x.1.live = true) (hpasses : (st.thread k).Passes) :
    ∃ st', Reaches (soak cfg).step (Alone k) st st' ∧ Before cfg k st' (flow cfg k x) := by
  obtain ⟨s, c⟩ := x
  have hst : (st.thread k).stmt = s := h.stmt
  by_cases hcall : s.call = none
  · have hpass : (st.thread k).pass cfg k = none := by
      rw [pass_eq_none, hst]
      exact hcall
    have hhost : (st.thread k).step cfg k .host st.shared =
        (st.thread k).host cfg k st.shared := by
      simp [Worker.step, h.alive, h.idle, hpass]
    by_cases hrest : ∃ r rest, s = .reclaim (r :: rest)
    · -- the next call of `reclaim`
      obtain ⟨r, rest, rfl⟩ := hrest
      obtain ⟨st', hstep, hbefore, -⟩ := call_reaches hk h (Nat.zero_le st.shared.footprint)
      exact ⟨st', Reaches.single (.inr (.inr rfl)) hstep, hbefore⟩
    · obtain ⟨w', sh', hw, hd, hr, hflow, ht, hearly⟩ := host_next cfg st.shared hpasses hst
        hlive hcall (fun r rest hs => hrest ⟨r, rest, hs⟩) h.early
      rw [hw] at hhost
      have hreach := alone_step st hk (.inl rfl) hhost
      rw [h.cycles] at hflow
      refine ⟨_, hreach, h.counts.reaches hreach, ?_, ?_, ?_, ?_, ?_, hearly⟩
      · simpa using hd.trans h.alive
      · simpa using hr.trans h.idle
      · simp [← hflow]
      · simp [← hflow]
      · simpa [ht] using h.untaken
  · obtain ⟨st', hreach, hbefore⟩ := pass_reaches hk h hcall
    refine ⟨st', hreach, ?_⟩
    have hflow : flow cfg k (s, c) = (s.afterPass, c) := by
      cases s <;> first | rfl | exact absurd rfl hcall
    rw [hflow]
    exact hbefore

/-- **Any number of statements** of a worker other than worker 0 can be carried out by that worker
alone, outside the self-test. -/
theorem flow_reaches (n : ℕ) {x : Stmt × ℕ} (hk : k < cfg.vcpuCount) (hk0 : k ≠ 0)
    (h : Before cfg k st x) (hlive : x.1.live = true) (htests : x.1.tests = false) :
    ∃ st', Reaches (soak cfg).step (Alone k) st st' ∧
      Before cfg k st' ((flow cfg k)^[n] x) := by
  induction n generalizing st x with
  | zero => exact ⟨st, Reaches.refl st, h⟩
  | succ n ih =>
      obtain ⟨st₁, hreach₁, h₁⟩ :=
        next_reaches hk h hlive (.of_tests (by rw [h.stmt]; exact htests))
      obtain ⟨st₂, hreach₂, h₂⟩ := ih h₁ (by rw [flow_fst]; exact Stmt.live_next hlive)
        (by rw [flow_fst]; exact Stmt.tests_next hk0 htests)
      exact ⟨st₂, hreach₁.trans hreach₂, h₂⟩

/-- **Any number of statements** of any worker, if an invariant of its own moves makes the
assertions of the self-test hold. -/
theorem flow_reaches_of {I : Proc → Prop} (n : ℕ) {x : Stmt × ℕ}
    (hstep : ∀ st l st', Alone k st l → I st → (soak cfg).step st l = some st' → I st')
    (hpasses : ∀ st, I st → (st.thread k).Passes) (hk : k < cfg.vcpuCount)
    (h : Before cfg k st x) (hI : I st) (hlive : x.1.live = true) :
    ∃ st', Reaches (soak cfg).step (Alone k) st st' ∧
      Before cfg k st' ((flow cfg k)^[n] x) ∧ I st' := by
  induction n generalizing st x with
  | zero => exact ⟨st, Reaches.refl st, h, hI⟩
  | succ n ih =>
      obtain ⟨st₁, hreach₁, h₁⟩ := next_reaches hk h hlive (hpasses st hI)
      obtain ⟨st₂, hreach₂, h₂, hI₂⟩ := ih h₁ (hreach₁.invariant hstep hI)
        (by rw [flow_fst]; exact Stmt.live_next hlive)
      exact ⟨st₂, hreach₁.trans hreach₂, h₂, hI₂⟩

/-- From the head of the loop to the first call of the reclaim. -/
theorem flow_to_reclaim (cfg : Config) (k c : ℕ) : (flow cfg k)^[29] (.deadline, c) =
    (.reclaim (reclaimCalls cfg.ram (cfg.cold k) cfg.mode cfg.advice), c) := (rfl)

/-- As many statements as there are calls left lead to the end of a reclaim. -/
theorem flow_calls (cfg : Config) (k c : ℕ) (rest : List Call) :
    (flow cfg k)^[rest.length] (.reclaim rest, c) = (.reclaim [], c) := by
  induction rest with
  | nil => rfl
  | cons call rest ih =>
      rw [List.length_cons, Function.iterate_succ_apply]
      exact ih

/-- Four statements lead from the end of a reclaim to the fill. -/
theorem flow_to_fill (cfg : Config) (k c : ℕ) :
    (flow cfg k)^[4] (.reclaim [], c) = (.coldFill, c) := (rfl)

/-- From the fill through both verifications to the head of the loop. -/
theorem flow_from_fill (cfg : Config) (k c : ℕ) :
    (flow cfg k)^[8] (.coldFill, c) = (.deadline, c + 1) := (rfl)

/-- **The first half of a cycle**: from the head of the loop the worker comes to the fill, however
many calls its reclaim makes. -/
theorem fill_reaches {c : ℕ} (hk : k < cfg.vcpuCount) (hk0 : k ≠ 0)
    (h : Before cfg k st (.deadline, c)) :
    ∃ st', Reaches (soak cfg).step (Alone k) st st' ∧ Before cfg k st' (.coldFill, c) := by
  obtain ⟨st₁, hreach₁, h₁⟩ := flow_reaches 29 hk hk0 h rfl rfl
  rw [flow_to_reclaim] at h₁
  obtain ⟨st₂, hreach₂, h₂⟩ := flow_reaches
    (reclaimCalls cfg.ram (cfg.cold k) cfg.mode cfg.advice).length hk hk0 h₁ rfl rfl
  rw [flow_calls] at h₂
  obtain ⟨st₃, hreach₃, h₃⟩ := flow_reaches 4 hk hk0 h₂ rfl rfl
  rw [flow_to_fill] at h₃
  exact ⟨st₃, (hreach₁.trans hreach₂).trans hreach₃, h₃⟩

/-- **Any number of cycles**: from the head of the loop the worker comes back to it with `c` more
cycles completed. By induction on the cycles, each through its fill. -/
theorem cycles_reach {n : ℕ} (hk : k < cfg.vcpuCount) (hk0 : k ≠ 0)
    (h : Before cfg k st (.deadline, n)) (c : ℕ) :
    ∃ st', Reaches (soak cfg).step (Alone k) st st' ∧ Before cfg k st' (.deadline, n + c) := by
  induction c with
  | zero => exact ⟨st, Reaches.refl st, h⟩
  | succ c ih =>
      obtain ⟨st₁, hreach₁, h₁⟩ := ih
      obtain ⟨st₂, hreach₂, h₂⟩ := fill_reaches hk hk0 h₁
      obtain ⟨st₃, hreach₃, h₃⟩ := flow_reaches 8 hk hk0 h₂ rfl rfl
      rw [flow_from_fill] at h₃
      exact ⟨st₃, (hreach₁.trans hreach₂).trans hreach₃, h₃⟩

/-- An event of the environment leaves a worker where it stands. -/
theorem Before.env {e : Env} {st' : Proc} {x : Stmt × ℕ} (h : Before cfg k st x)
    (hstep : (soak cfg).step st (.env e) = some st') (hearly : st'.shared.expired = false) :
    Before cfg k st' x := by
  have hcounts := counts_step _ _ _ trivial h.counts hstep
  obtain ⟨sh', -, rfl⟩ := Threads.System.step_env.mp hstep
  exact ⟨hcounts, h.alive, h.idle, h.stmt, h.cycles, h.untaken, hearly⟩

/-- **What a worker that moves by itself leaves alone**: the other workers, the footprint, the
deadline, and the main and the pressure thread. -/
structure AloneFrame (k : ℕ) (st st' : Proc) : Prop where
  thread : ∀ j ≠ k, st'.thread j = st.thread j
  footprint : st'.shared.footprint = st.shared.footprint
  expired : st'.shared.expired = st.shared.expired
  stop : st'.shared.stop = st.shared.stop
  pressure : st'.shared.pressure = st.shared.pressure
  applied : st'.shared.applied = st.shared.applied
  main : st'.shared.main = st.shared.main

/-- One action of the worker, of the three kinds that `Alone` allows. -/
theorem alone_frame_step {l : Move} {st' : Proc} (hl : Alone k st l)
    (hstep : (soak cfg).step st l = some st') : AloneFrame k st st' := by
  obtain ⟨a, rfl, ha⟩ : ∃ a, l = .act k a ∧ (a = .host ∨ a = .guest ∨ a = .call 0) := by
    rcases hl with rfl | rfl | rfl <;> exact ⟨_, rfl, by simp⟩
  obtain ⟨-, w', sh', hact, rfl⟩ := Threads.System.step_act.mp hstep
  have hthread : ∀ j ≠ k, Function.update st.thread k w' j = st.thread j :=
    fun j hj => Function.update_of_ne hj _ _
  obtain ⟨-, h⟩ := Worker.step_inv hact
  cases h with
  | enter => exact ⟨hthread, rfl, rfl, rfl, rfl, rfl, rfl⟩
  | host hr hp h =>
      have hf := host_frame h
      exact ⟨hthread, hf.footprint, hf.expired, hf.stop, hf.pressure, hf.applied, hf.main⟩
  | guest hr =>
      refine ⟨hthread, ?_, ?_, ?_, ?_, ?_, ?_⟩ <;> unfold Worker.guest <;> split <;> rfl
  | @call released c rest hs hle =>
      obtain rfl : released = 0 := by simpa using ha
      refine ⟨hthread, rfl, ?_, ?_, ?_, ?_, ?_⟩ <;> cases c <;> rfl
  | cancel | take | fail => simp at ha

/-- A run of worker `k` by itself leaves every other worker, and the rest of the process as far as
`AloneFrame` names it, as it was. -/
theorem alone_frame {st' : Proc} (h : Reaches (soak cfg).step (Alone k) st st') :
    AloneFrame k st st' := by
  refine h.invariant (I := AloneFrame k st) ?_
    ⟨fun _ _ => rfl, rfl, rfl, rfl, rfl, rfl, rfl⟩
  intro t l t' hl hF hstep
  have hF' := alone_frame_step hl hstep
  exact ⟨fun j hj => (hF'.thread j hj).trans (hF.thread j hj), hF'.footprint.trans hF.footprint,
    hF'.expired.trans hF.expired, hF'.stop.trans hF.stop, hF'.pressure.trans hF.pressure,
    hF'.applied.trans hF.applied, hF'.main.trans hF.main⟩

/-- What one worker does by itself leaves another one where it stands. -/
theorem Before.other {j : ℕ} {st' : Proc} {x y : Stmt × ℕ} (h : Before cfg j st x) (hjk : j ≠ k)
    (hreach : Reaches (soak cfg).step (Alone k) st st') (hk : Before cfg k st' y) :
    Before cfg j st' x := by
  have hthread := (alone_frame hreach).thread j hjk
  refine ⟨hk.counts, ?_, ?_, ?_, ?_, ?_, hk.early⟩ <;> rw [hthread]
  exacts [h.alive, h.idle, h.stmt, h.cycles, h.untaken]

/-- In an initial state every worker stands before its first statement, with no cycle completed. -/
theorem before_initial (h : Initial cfg st) (k : ℕ) :
    Before cfg k st (.vcpuCreate, 0) := by
  obtain ⟨cpu, hw⟩ := h.fresh k
  refine ⟨counts_initial h, ?_, ?_, ?_, ?_, ?_, h.expired⟩ <;> rw [hw]
  exact fun _ => rfl

/-- From the start to the head of the loop, for a worker that does not test the detector. -/
theorem flow_to_loop (cfg : Config) (hk0 : k ≠ 0) :
    (flow cfg k)^[4] (.vcpuCreate, 0) = (.deadline, 0) := by
  have hlast : (flow cfg k)^[4] (.vcpuCreate, 0) = (Stmt.next cfg k .firstCount, 0) := rfl
  rw [hlast, Stmt.next, if_neg hk0]

/-- From the start through the self-test to the head of the loop. -/
theorem flow_through_test (cfg : Config) :
    (flow cfg 0)^[11] (.vcpuCreate, 0) = (.deadline, 0) := (rfl)

/-- **A worker other than the first can complete any number of cycles from the start** and stand
at the head of its loop, before the deadline. -/
theorem loop_reached (hk : k < cfg.vcpuCount) (hk0 : k ≠ 0)
    (h : Before cfg k st (.vcpuCreate, 0)) (c : ℕ) :
    ∃ st', Reaches (soak cfg).step (Alone k) st st' ∧ Before cfg k st' (.deadline, c) := by
  obtain ⟨st₁, hreach₁, h₁⟩ := flow_reaches 4 hk hk0 h rfl rfl
  rw [flow_to_loop cfg hk0] at h₁
  obtain ⟨st₂, hreach₂, h₂⟩ := cycles_reach hk hk0 h₁ c
  exact ⟨st₂, hreach₁.trans hreach₂, by simpa using h₂⟩

/-- **After the deadline** a worker at the head of its loop leaves it, destroys its vCPU and is
done, without a panic and with the cycles it had completed. -/
theorem done_reached (hk : k < cfg.vcpuCount) (halive : (st.thread k).dead = false)
    (hidle : (st.thread k).running = false) (hstmt : (st.thread k).stmt = .deadline)
    (hexp : st.shared.expired = true) :
    ∃ st', Reaches (soak cfg).step (Alone k) st st' ∧ (st'.thread k).stmt = .done ∧
      (st'.thread k).dead = false ∧ (st'.thread k).cycles = (st.thread k).cycles := by
  have hpass : (st.thread k).pass cfg k = none := by
    rw [pass_eq_none, hstmt]
    rfl
  have hstep₁ : (st.thread k).step cfg k .host st.shared =
      some ({ st.thread k with stmt := .vcpuDestroy }, st.shared) := by
    simp [Worker.step, Worker.host, halive, hidle, hpass, hstmt, hexp]
  have hreach₁ := alone_step st hk (.inl rfl) hstep₁
  have hstep₂ : ({ st.thread k with stmt := .vcpuDestroy } : Worker).step cfg k .host st.shared =
      some ({ st.thread k with stmt := .done }, st.shared) := by
    simp [Worker.step, Worker.host, halive, hidle, Worker.pass, Stmt.call]
  have hreach₂ := alone_step
    ⟨Function.update st.thread k { st.thread k with stmt := .vcpuDestroy }, st.shared⟩ hk
    (.inl rfl) (by simpa using hstep₂)
  exact ⟨_, hreach₁.trans hreach₂, by simp, by simpa using halive, by simp⟩

end progress

end VmRatchet.Soak
