import VmRatchet.Ledger.Survey
import VmRatchet.Soak.Worker
import VmRatchet.Vz.Driver

/-!
# What `vz-ratchet` concludes, and from what

The plain run of the driver prints two conclusions on the way: that the balloon really did inflate
and nothing reached the host's ledger, and, after a spell of memory pressure, that the pages a
working balloon would have made discardable were not discarded. The evidence for the first is a
poll of the guest's `MemAvailable` below half of what it was, for the second a canary that died.

* `Meets` — what a run meets: the footprints it samples, the guest's answers, the clock, the
  pressure generator and the canary.
* `pollLoop`, `main` — the run, with every paragraph it prints; `asks_main` ties its exchanges to
  the scripts of the driver.
* `polls` — the loop ends, and has seen an answer below half exactly if the clock left time for one.
* `Gated` — both conclusions have their evidence; `conclusions_gated_iff` says when.

A wait that times out is a panic before the paragraph that depends on it; the runs here are those
in which every exchange is answered. The rows of the table are left out.
-/

namespace VmRatchet.Vz

open Ledger (Verdict)
open Soak (deltaMib)

/-! ## What a run meets -/

/-- One second, in nanoseconds. -/
def second : ℕ := 10 ^ 9

/-- Source: `crates/vz-ratchet/src/main.rs`, `BALLOON_TIMEOUT` -/
def balloonTimeout : ℕ := 30 * second

/-- What a plain run meets. Footprints are in bytes, `MemAvailable` in KiB, times in
nanoseconds. -/
structure Meets where
  guestGb : UInt64
  touchGb : UInt64
  pressureGb : ℕ
  /-- The footprints of the helper, in the order in which they are sampled. -/
  baseline : ℕ
  touched : ℕ
  freed : ℕ
  ballooned : ℕ
  after : ℕ
  /-- `MemAvailable` before the balloon request. -/
  memBeforeKib : ℕ
  /-- The answer to poll `k` after it. -/
  reply : ℕ → ℕ
  /-- `Instant::now()` where the deadline is set, and where it is tested before poll `k`. -/
  requested : ℕ
  clock : ℕ → ℕ
  requested_le : requested ≤ clock 0
  /-- Each turn of the loop sleeps for a second. -/
  sleeps : ∀ k, clock k + second ≤ clock (k + 1)
  /-- `pressure::apply` succeeds. -/
  applied : Bool
  /-- What the canary's survey finds. -/
  verdict : Verdict

/-- Source: `crates/vz-ratchet/src/main.rs`, `main` (`deadline`) -/
def Meets.deadline (e : Meets) : ℕ := e.requested + balloonTimeout

/-- The paragraphs of a plain run, with the numbers they show. -/
inductive Paragraph
  /-- "Δfootprint touch: …, free: … — the ratchet: the host keeps charging for pages the guest no
  longer uses" -/
  | ratchet (touch free : ℚ)
  /-- "guest MemAvailable … -> … (the balloon really did inflate; the guest handed the pages over)
  and Δfootprint is … — the placebo: nothing reached the host ledger" -/
  | placebo (before after delta : ℚ)
  /-- "canary (1 GiB MADV_FREE control): …/… pages discarded — …", conclusive or not -/
  | canary (v : Verdict) (conclusive : Bool)
  /-- "helper Δfootprint under pressure: … — pages a working balloon would have made discardable
  were not discarded" -/
  | notDiscarded (delta : ℚ)
  /-- "Guest RAM on VZ lives in Apple's XPC helper. …" -/
  | closing

/-- What a run did: the paragraphs it printed, its exchanges with the harness, the answers to its
polls, and whether it panicked. -/
structure Outcome where
  printed : List Paragraph
  /-- The exchanges with the harness. -/
  asks : List Ask
  /-- The answers to the polls after the balloon request. -/
  polled : List ℕ
  /-- "pressure generator" -/
  panicked : Bool

/-! ## The run -/

section run

variable (e : Meets)

/-- Poll until the answer falls below half or the deadline has passed: the answers, and the last
value of `mem_after_kib`. `none` is a loop that has not ended after `fuel` tests.
Source: `crates/vz-ratchet/src/main.rs`, `main` (the loop over `deadline`) -/
def pollLoop : ℕ → ℕ → ℕ → Option (List ℕ × ℕ)
  | 0, _, _ => none
  | fuel + 1, k, memAfterKib =>
    if e.clock k < e.deadline then
      if e.reply k < e.memBeforeKib / 2 then some ([e.reply k], e.reply k)
      else (pollLoop fuel (k + 1) (e.reply k)).map fun r => (e.reply k :: r.1, r.2)
    else some ([], memAfterKib)

/-- Pressure with a positive control: what is printed, and whether the generator failed.
Source: `crates/vz-ratchet/src/main.rs`, `main` (step 4) -/
def pressure : List Paragraph × Bool :=
  if 0 < e.pressureGb then
    if e.applied then
      ([.canary e.verdict e.verdict.conclusive, .notDiscarded (deltaMib e.after e.ballooned)],
        false)
    else ([], true)
  else ([], false)

/-- Source: `crates/vz-ratchet/src/main.rs`, `main` (from the first sample on) -/
def main (fuel : ℕ) : Option Outcome :=
  (pollLoop e fuel 0 e.memBeforeKib).map fun (polled, memAfterKib) =>
    let (underPressure, panicked) := pressure e
    { printed :=
        [.ratchet (deltaMib e.touched e.baseline) (deltaMib e.freed e.touched),
          .placebo (e.memBeforeKib / 1024) (memAfterKib / 1024) (deltaMib e.ballooned e.freed)] ++
          underPressure ++ if panicked then [] else [.closing]
      asks := [.touch e.touchGb.toNat, .free, .mem,
        .balloon ((e.guestGb - e.touchGb) * 1024).toNat] ++ polled.map fun _ => .mem
      polled := polled
      panicked := panicked }

/-- The exchanges of a run are the script of the driver with as many polls as the run has made. -/
theorem asks_main {fuel : ℕ} {out : Outcome} (h : main e fuel = some out) :
    out.asks = mainScript e.touchGb e.guestGb out.polled.length := by
  obtain ⟨r, -, rfl⟩ := Option.map_eq_some_iff.mp h
  simp only [mainScript, List.map_const']

/-! ## The evidence -/

/-- The clock leaves time for a poll that is answered below half of what was available before. -/
def Inflated : Prop := ∃ k, e.clock k < e.deadline ∧ 2 * e.reply k < e.memBeforeKib

/-- Both conclusions have their evidence: the placebo a poll below half of the memory before, the
other a verdict of the canary that is not inconclusive. -/
structure Gated (out : Outcome) : Prop where
  placebo : ∀ before after delta, .placebo before after delta ∈ out.printed →
    ∃ kib ∈ out.polled, 2 * kib < e.memBeforeKib
  notDiscarded : ∀ delta, .notDiscarded delta ∈ out.printed → e.verdict.conclusive = true

/-- The clock does not go back: a later poll is at the same time or a later one. -/
theorem clock_mono : Monotone e.clock := by
  apply monotone_nat_of_le_succ
  intro k
  have := e.sleeps k
  omega

/-- The deadline passes: every poll takes a second at least. -/
theorem deadline_le_clock : e.deadline ≤ e.clock 30 := by
  have hclock : ∀ k, e.requested + k * second ≤ e.clock k := by
    intro k
    induction k with
    | zero =>
        have := e.requested_le
        omega
    | succ k ih =>
        have := e.sleeps k
        rw [Nat.succ_mul]
        omega
  exact hclock 30

/-- From poll `k` on, the loop ends after at most `n + 1` tests, and sees an answer below half
exactly if the clock leaves time for one. -/
def Polls (n k memAfterKib : ℕ) : Prop :=
  ∃ r, (∀ fuel, n < fuel → pollLoop e fuel k memAfterKib = some r) ∧
    ((∃ kib ∈ r.1, 2 * kib < e.memBeforeKib) ↔
      ∃ i ≥ k, e.clock i < e.deadline ∧ 2 * e.reply i < e.memBeforeKib)

variable {e} {n k memAfterKib : ℕ}

/-- At the deadline there are no more polls, and the last answer is kept. -/
theorem Polls.of_late (h : e.deadline ≤ e.clock k) : Polls e n k memAfterKib := by
  refine ⟨([], memAfterKib), fun fuel hfuel => ?_, ?_⟩
  · obtain ⟨fuel, rfl⟩ := Nat.exists_eq_succ_of_ne_zero (Nat.ne_of_gt (Nat.zero_lt_of_lt hfuel))
    rw [pollLoop, if_neg (not_lt.mpr h)]
  · constructor
    · rintro ⟨kib, hkib, -⟩
      cases hkib
    · rintro ⟨i, hi, hlt, -⟩
      exact absurd (le_trans h (clock_mono e hi)) (not_le.mpr hlt)

/-- An answer that is low enough ends the loop. The test halves with rounding down. -/
theorem Polls.of_low (htime : e.clock k < e.deadline) (hlow : e.reply k < e.memBeforeKib / 2) :
    Polls e n k memAfterKib := by
  have hlt : 2 * e.reply k < e.memBeforeKib := by omega
  refine ⟨([e.reply k], e.reply k), fun fuel hfuel => ?_, ?_⟩
  · obtain ⟨fuel, rfl⟩ := Nat.exists_eq_succ_of_ne_zero (Nat.ne_of_gt (Nat.zero_lt_of_lt hfuel))
    rw [pollLoop, if_pos htime, if_pos hlow]
  · exact ⟨fun _ => ⟨k, le_rfl, htime, hlt⟩, fun _ => ⟨e.reply k, by simp, hlt⟩⟩

/-- An answer that is not below half the first one leads to the next poll, as long as there is
time. -/
theorem Polls.of_next (htime : e.clock k < e.deadline) (hlow : ¬ e.reply k < e.memBeforeKib / 2)
    (h : Polls e n (k + 1) (e.reply k)) : Polls e (n + 1) k memAfterKib := by
  obtain ⟨r, hr, hiff⟩ := h
  refine ⟨(e.reply k :: r.1, r.2), fun fuel hfuel => ?_, ?_⟩
  · obtain ⟨fuel, rfl⟩ := Nat.exists_eq_succ_of_ne_zero (Nat.ne_of_gt (Nat.zero_lt_of_lt hfuel))
    rw [pollLoop, if_pos htime, if_neg hlow, hr fuel (by omega), Option.map_some]
  · rw [List.exists_mem_cons_iff, hiff]
    constructor
    · rintro (hlt | ⟨i, hi, hi'⟩)
      · exact ⟨k, le_rfl, htime, hlt⟩
      · exact ⟨i, by omega, hi'⟩
    · rintro ⟨i, hi, hi'⟩
      rcases Nat.eq_or_lt_of_le hi with rfl | hlt
      · exact .inl hi'.2
      · exact .inr ⟨i, hlt, hi'⟩

/-- **The loop** ends, because the deadline comes nearer with every poll. -/
theorem polls (hn : e.deadline ≤ e.clock (k + n)) (memAfterKib : ℕ) :
    Polls e n k memAfterKib := by
  induction n generalizing k memAfterKib with
  | zero => exact .of_late hn
  | succ n ih =>
      by_cases htime : e.clock k < e.deadline
      · by_cases hlow : e.reply k < e.memBeforeKib / 2
        · exact .of_low htime hlow
        · refine .of_next htime hlow (ih ?_ _)
          rw [Nat.add_right_comm]
          exact hn
      · exact .of_late (not_lt.mp htime)

/-! ## The conclusions -/

/-- What a run prints, and what it has seen: it always ends, the placebo conclusion is always drawn,
the other one exactly if pressure was applied, and a poll has seen the memory fall below half
exactly if the balloon inflated. -/
theorem main_spec (e : Meets) : ∃ out, (∀ fuel > 30, main e fuel = some out) ∧
    (∃ before after delta, .placebo before after delta ∈ out.printed) ∧
    ((∃ delta, .notDiscarded delta ∈ out.printed) ↔ 0 < e.pressureGb ∧ e.applied = true) ∧
    ((∃ kib ∈ out.polled, 2 * kib < e.memBeforeKib) ↔ Inflated e) := by
  obtain ⟨r, hr, hiff⟩ := polls (k := 0) (n := 30) (deadline_le_clock e) e.memBeforeKib
  refine ⟨_, fun fuel hfuel => by rw [main, hr fuel hfuel, Option.map_some], ?_, ?_, ?_⟩
  · exact ⟨e.memBeforeKib / 1024, r.2 / 1024, deltaMib e.ballooned e.freed, by simp⟩
  · unfold pressure
    split_ifs with hgb happlied
    · simp [hgb, happlied]
    · simp [happlied]
    · simp [hgb]
  · rw [hiff]
    simp [Inflated]

/-- **When the conclusions are gated by evidence.** For every run: if the clock leaves time for a
poll that is answered below half of what was available before, and if the canary of a pressure
spell is conclusive — and in no other case. -/
theorem conclusions_gated_iff (e : Meets) : ∃ out, (∀ fuel > 30, main e fuel = some out) ∧
    (Gated e out ↔
      Inflated e ∧ (0 < e.pressureGb → e.applied = true → e.verdict.conclusive = true)) := by
  obtain ⟨out, hout, ⟨before, after, delta, hplacebo⟩, hpressure, hpolled⟩ := main_spec e
  refine ⟨out, hout, ?_⟩
  rw [← hpolled]
  constructor
  · intro h
    refine ⟨h.placebo before after delta hplacebo, fun hgb happlied => ?_⟩
    obtain ⟨delta', hdelta'⟩ := hpressure.mpr ⟨hgb, happlied⟩
    exact h.notDiscarded delta' hdelta'
  · rintro ⟨hlow, hconclusive⟩
    refine ⟨fun _ _ _ _ => hlow, fun delta' hdelta' => ?_⟩
    obtain ⟨hgb, happlied⟩ := hpressure.mp ⟨delta', hdelta'⟩
    exact hconclusive hgb happlied

/-- A guest that hands its pages over at the fourth poll, and pressure that discards the whole
canary. -/
def inflated : Meets where
  guestGb := 6
  touchGb := 4
  pressureGb := 48
  baseline := 0
  touched := 4294967296
  freed := 4294967296
  ballooned := 4294967296
  after := 4294967296
  memBeforeKib := 5120
  reply k := if k < 3 then 5120 else 1024
  requested := 0
  clock k := k * second
  requested_le := le_rfl
  sleeps k := by rw [Nat.succ_mul]
  applied := true
  verdict := ⟨65536, 65536⟩

/-- In a run whose balloon inflates both conclusions have their evidence: the guest's memory has
fallen below half and the survey is conclusive. -/
theorem conclusions_gated_inflated :
    ∃ out, (∀ fuel > 30, main inflated fuel = some out) ∧ Gated inflated out := by
  obtain ⟨out, hout, hiff⟩ := conclusions_gated_iff inflated
  exact ⟨out, hout, hiff.mpr ⟨⟨3, by decide, by decide⟩, fun _ _ => by decide⟩⟩

/-- A guest that ignores the balloon, and pressure that reaches no anonymous memory. -/
def unmoved : Meets where
  guestGb := 6
  touchGb := 4
  pressureGb := 48
  baseline := 0
  touched := 4294967296
  freed := 4294967296
  ballooned := 4294967296
  after := 4294967296
  memBeforeKib := 5120
  reply _ := 5120
  requested := 0
  clock k := k * second
  requested_le := le_rfl
  sleeps k := by rw [Nat.succ_mul]
  applied := true
  verdict := ⟨0, 65536⟩

/-- In a run whose balloon does not move both conclusions are printed without evidence: no poll has
seen the memory fall, and the survey is inconclusive. -/
theorem conclusions_not_gated : ∃ out, (∀ fuel > 30, main unmoved fuel = some out) ∧
    (∃ before after delta, .placebo before after delta ∈ out.printed) ∧
    (¬ ∃ kib ∈ out.polled, 2 * kib < unmoved.memBeforeKib) ∧
    (∃ delta, .notDiscarded delta ∈ out.printed) ∧ unmoved.verdict.conclusive = false := by
  obtain ⟨out, hout, hplacebo, hpressure, hpolled⟩ := main_spec unmoved
  refine ⟨out, hout, hplacebo, ?_, hpressure.mpr ⟨by decide, rfl⟩, by decide⟩
  rw [hpolled]
  rintro ⟨k, -, hlow⟩
  have hlow : 2 * 5120 < 5120 := hlow
  omega

end run

end VmRatchet.Vz
