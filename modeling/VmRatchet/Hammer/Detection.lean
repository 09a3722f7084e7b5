import VmRatchet.Hammer.Check

/-!
# What the hammer check detects

* `lost_iff_exposed` — the survey of a completed check counts exactly the exposed pages as lost.
* `loss_seen_iff` — so a page that was discarded is seen to be lost if and only if some discard of
  it fell outside the guest's own load and store of that page. A discard inside is covered up by
  the store: `loss_covered_by_store` is such a run.
* `check_completes` — from inside `run_hammer` the check can always be brought to its end.
-/

namespace VmRatchet.Hammer

open Arm64 ByteMemory Guest Transition

/-- Page `i` is discarded before the survey has read it. -/
def Discards (i : ℕ) (st : State) (e : Event) : Prop := e = .discard i ∧ st.unread i = true

/-- … and the guest does not stand between the load and the store of that page. -/
def Exposes (i : ℕ) (st : State) (e : Event) : Prop := Discards i st e ∧ st.inWindow i = false

section detection

variable {r : RamSize} {st st₀ : State} {es : List Event} {i : ℕ}

/-- Dealing with an exit exposes no page. -/
theorem turn_exposed (st : State) (info : HvVcpuExitInfo) (keepGoing : Bool) :
    (st.turn info keepGoing).exposed = st.exposed := by
  unfold State.turn
  cases hammerTurn info keepGoing st.cpu <;> rfl

/-- Reading a page exposes none. -/
theorem survey_exposed (st : State) (next : ℕ) : (st.survey next).exposed = st.exposed := by
  unfold State.survey
  by_cases hv : load64 st.mem (ramGpa + next * page) = ramAddr (next * page) + st.sweeps
  · simp only [if_pos hv]
  · simp only [if_neg hv]

/-- The history variable remembers the exposing discards: after a step a page is marked exactly if
it was before or this step exposes it. Only a discard can do that, and no step takes a mark away. -/
theorem exposed_step (st : State) (e : Event) (st' : State) (h : step r st e = some st') :
    st'.exposed i = true ↔ st.exposed i = true ∨ Exposes i st e := by
  have hkeep : st'.exposed = st.exposed → (∀ j, e ≠ .discard j) →
      (st'.exposed i = true ↔ st.exposed i = true ∨ Exposes i st e) := by
    intro hx he
    rw [hx]
    exact (or_iff_left fun hc => he i hc.1.1).symm
  cases e with
  | start =>
      simp only [step, Option.ite_none_right_eq_some, Option.some.injEq] at h
      obtain ⟨-, rfl⟩ := h
      exact hkeep rfl (by simp)
  | guest keepGoing =>
      simp only [step, Option.ite_none_right_eq_some, Option.some.injEq] at h
      obtain ⟨-, rfl⟩ := h
      refine hkeep ?_ (by simp)
      unfold State.guest
      split
      · rfl
      · exact turn_exposed st _ _
  | cancel =>
      simp only [step, Option.ite_none_right_eq_some, Option.some.injEq] at h
      obtain ⟨-, rfl⟩ := h
      exact hkeep (turn_exposed st _ _) (by simp)
  | read =>
      cases hph : st.phase with
      | surveying next =>
          simp only [step, hph, Option.ite_none_right_eq_some, Option.some.injEq] at h
          obtain ⟨-, rfl⟩ := h
          exact hkeep (survey_exposed st next) (by simp)
      | preparing | hammering | panicked => simp [step, hph] at h
  | discard j =>
      simp only [step, Option.some.injEq] at h
      subst h
      rw [discard_exposed]
      by_cases hx : i = j ∧ st.unread j = true ∧ st.inWindow j = false
      · obtain ⟨rfl, hu, hw⟩ := hx
        rw [if_pos ⟨rfl, hu, hw⟩]
        exact iff_of_true rfl (.inr ⟨⟨rfl, hu⟩, hw⟩)
      · rw [if_neg hx]
        refine (or_iff_left ?_).symm
        rintro ⟨⟨he, hu⟩, hw⟩
        cases he
        exact hx ⟨rfl, hu, hw⟩

/-- A page that has counted from zero is not where it should be, as long as nothing wraps: its
address is missing from the sum. -/
theorem expected_ne {n d : ℕ} (hd : d ≤ n) (hi : i < r.pages)
    (hbound : n + ramGpa + r.bytes < 2 ^ 64) :
    BitVec.ofNat 64 d ≠ BitVec.ofNat 64 (ramGpa + i * page + n) := by
  have hoff := (r.mul_page_lt_iff i).mpr hi
  have hpos : 0 < ramGpa := by decide
  intro hc
  have := congrArg BitVec.toNat hc
  rw [BitVec.toNat_ofNat, BitVec.toNat_ofNat, Nat.mod_eq_of_lt (by omega),
    Nat.mod_eq_of_lt (by omega)] at this
  omega

/-- At the end of the survey the pages counted as lost are exactly the exposed ones, as long as
nothing wraps. -/
theorem Surveying.lost_iff (h : Surveying r st r.pages) (hi : i < r.pages)
    (hbound : st.made + ramGpa + r.bytes < 2 ^ 64) :
    i ∈ st.lostPages ↔ st.exposed i = true := by
  obtain ⟨w, hw, hiff⟩ := h.behind i hi
  rw [hiff]
  unfold Holds at hw
  by_cases hx : st.exposed i = true
  · rw [if_pos hx] at hw
    obtain ⟨d, hd, rfl⟩ := hw
    exact iff_of_true (expected_ne hd hi hbound) hx
  · rw [if_neg hx] at hw
    exact iff_of_false (fun hc => hc hw) hx

/-- At the end of a completed check the invariant of the survey holds for all pages. -/
theorem surveyed (h₀ : Initial r st₀) (hrun : run (step r) st₀ es = some st)
    (hdone : st.phase = .surveying r.pages) : Surveying r st r.pages := by
  rw [← invariant_surveying hdone]
  exact run_invariant invariant_step (Along.of_labels (P := fun _ _ => True) (by simp) st₀)
    (invariant_initial h₀) hrun

/-- **What a completed check counts as lost.** As long as the counts have not wrapped, the survey
reports a page as lost exactly if some step of the run discarded it while it was exposed, that is
still to be read and not between its load and its store. -/
theorem lost_iff_exposed (h₀ : Initial r st₀) (hrun : run (step r) st₀ es = some st)
    (hdone : st.phase = .surveying r.pages) (hbound : st.made + ramGpa + r.bytes < 2 ^ 64)
    (hi : i < r.pages) : i ∈ st.lostPages ↔ Sometime (step r) (Exposes i) st₀ es := by
  rw [(surveyed h₀ hrun hdone).lost_iff hi hbound, run_history (exposed_step (r := r)) hrun]
  obtain ⟨⟨cpu, mem, rfl⟩, -⟩ := h₀
  simp

/-- **When a discard is seen.** In every completed check — any number of sweeps that does not
carry the counters past `2 ^ 64`, any callback answers, canceled entries anywhere, any pages
discarded any number of times between any two instructions or reads — a page discarded before the
survey read it is counted as lost if and only if at least one of its discards did not fall between
the guest's own load and store of that page. -/
theorem loss_seen_iff (r : RamSize) {st st₀ : State} {es : List Event} {i : ℕ}
    (h₀ : Initial r st₀) (hrun : run (step r) st₀ es = some st)
    (hdone : st.phase = .surveying r.pages) (hbound : st.made + ramGpa + r.bytes < 2 ^ 64)
    (hi : i < r.pages) :
    (Sometime (step r) (Discards i) st₀ es → i ∈ st.lostPages) ↔
      (Sometime (step r) (Discards i) st₀ es → Sometime (step r) (Exposes i) st₀ es) := by
  rw [lost_iff_exposed h₀ hrun hdone hbound hi]

end detection

/-! ## Completing a check -/

/-- The guest runs, the callback stops it at the next doorbell, and the survey reads on; nothing
is discarded. -/
def Undisturbed (_ : State) (e : Event) : Prop := e = .guest false ∨ e = .read

section progress

variable {r : RamSize} {st : State} {s : PState} {next : ℕ}

/-- An instruction that does not ring the doorbell is a step of the check that stays inside the
sweep and counts nothing. -/
theorem Hammering.advance (h : Hammering r st s) (hph : st.phase = .hammering) {s' : PState}
    {m' : Mem} (hps : passStep (hammerPass r) s st.mem = some (s', m')) :
    ∃ st', step r st (.guest false) = some st' ∧ Hammering r st' s' ∧ st'.phase = .hammering ∧
      st'.made = st.made := by
  have hstep : step r st (.guest false) = some (st.guest r false) := by
    simp only [step, if_pos hph]
  rcases h.guest false with ⟨hloc, -⟩ | ⟨s₁, m₁, c₁, hps₁, hsim, heq⟩
  · rw [passStep_doorbell hloc] at hps
    cases hps
  · rw [hps, Option.some.injEq, Prod.mk.injEq] at hps₁
    obtain ⟨rfl, rfl⟩ := hps₁
    rw [heq] at hstep
    exact ⟨_, hstep, h.ran hps hsim, hph, rfl⟩

/-- The running sweep comes to its end. By induction on the instructions left. -/
theorem sweep_completes (h : Hammering r st s) (hph : st.phase = .hammering) :
    ∃ st', Reaches (step r) Undisturbed st st' ∧ st'.phase = .surveying 0 ∧
      st'.made = st.made + 1 := by
  suffices hmain : ∀ n (st : State) (s : PState), s.loc.remaining (hammerPass r).pages ≤ n →
      Hammering r st s → st.phase = .hammering → ∃ st', Reaches (step r) Undisturbed st st' ∧
        st'.phase = .surveying 0 ∧ st'.made = st.made + 1 from hmain _ st s le_rfl h hph
  intro n
  induction n using Nat.strong_induction_on with
  | h n ih =>
      intro st s hle h hph
      rcases h.guest false with ⟨-, heq⟩ | ⟨s', m', c', hps, -, -⟩
      · have hstep : step r st (.guest false) = some (st.guest r false) := by
          simp only [step, if_pos hph]
        rw [heq] at hstep
        exact ⟨_, Reaches.single (.inl rfl) hstep, rfl, rfl⟩
      · obtain ⟨st₁, hstep, h₁, hph₁, hmade₁⟩ := h.advance hph hps
        have hlt := remaining_lt h.sim.valid hps
        obtain ⟨st', hreach, hend, hmade⟩ :=
          ih (s'.loc.remaining (hammerPass r).pages) (by omega) _ s' le_rfl h₁ hph₁
        exact ⟨st', (Reaches.single (.inl rfl) hstep).trans hreach, hend, by rw [hmade, hmade₁]⟩

/-- Reading a page counts no sweep. -/
theorem survey_made (st : State) (next : ℕ) : (st.survey next).made = st.made := by
  unfold State.survey
  by_cases hv : load64 st.mem (ramGpa + next * page) = ramAddr (next * page) + st.sweeps
  · simp only [if_pos hv]
  · simp only [if_neg hv]

/-- The survey comes to its end. By induction on the pages left. -/
theorem survey_completes (hph : st.phase = .surveying next) (hle : next ≤ r.pages) :
    ∃ st', Reaches (step r) Undisturbed st st' ∧ st'.phase = .surveying r.pages ∧
      st'.made = st.made := by
  obtain ⟨d, hd⟩ := Nat.exists_eq_add_of_le hle
  induction d generalizing st next with
  | zero => exact ⟨st, Reaches.refl st, by rw [hph, hd, Nat.add_zero], rfl⟩
  | succ d ih =>
      have hlt : next * page < r.bytes := (r.mul_page_lt_iff next).mpr (by omega)
      have hstep : step r st .read = some (st.survey next) := by
        simp only [step, hph, if_pos hlt]
      obtain ⟨st', hreach, hend, hmade⟩ :=
        ih (survey_phase st next) (by omega) (by omega)
      exact ⟨st', (Reaches.single (.inr rfl) hstep).trans hreach, hend,
        hmade.trans (survey_made st next)⟩

/-- **A check can always be completed**, with one sweep more and without another discard. -/
theorem check_completes (h : Hammering r st s) (hph : st.phase = .hammering) :
    ∃ st', Reaches (step r) Undisturbed st st' ∧ st'.phase = .surveying r.pages ∧
      st'.made = st.made + 1 := by
  obtain ⟨st₁, hreach₁, hph₁, hmade₁⟩ := sweep_completes h hph
  obtain ⟨st₂, hreach₂, hph₂, hmade₂⟩ := survey_completes hph₁ (Nat.zero_le r.pages)
  exact ⟨st₂, hreach₁.trans hreach₂, hph₂, hmade₂.trans hmade₁⟩

/-- A step that is undisturbed discards no page. -/
theorem Undisturbed.not_discards {i : ℕ} {st : State} {e : Event} (h : Undisturbed st e) :
    ¬ Discards i st e := by
  rintro ⟨rfl, -⟩
  rcases h with h | h <;> cases h

end progress

/-! ## Two runs on one GiB -/

/-- One GiB of guest RAM, the smallest size `--size-gb` admits. -/
def oneGib : RamSize := ⟨2 ^ 30, oneGib_pos, page_dvd_oneGib, ramGpa_add_oneGib_lt⟩

/-- Guest RAM as pass 2 leaves it, on fresh memory. -/
def touched : Mem := fun a =>
  byteOf (ramAddr ((a - ramGpa) / page * page)) ((a - ramGpa) % page)

/-- In the memory `touched` every page holds its own address, as pass 2 leaves it. -/
theorem touched_word (i : ℕ) : load64 touched (ramGpa + i * page) = ramAddr (i * page) := by
  rw [← load64_store64 (fun _ => 0) (ramGpa + i * page) (ramAddr (i * page))]
  refine load64_congr fun b hb => ?_
  have hsub : ramGpa + i * page + b - ramGpa = i * page + b := by omega
  have hdiv : (i * page + b) / page = i := by rw [page_eq]; omega
  have hmod : (i * page + b) % page = b := by rw [page_eq]; omega
  rw [store64_apply_add hb, touched, hsub, hdiv, hmod]

/-- The check at its start: all registers are zero, and every page holds its own address. -/
def boot : State := { cpu := ⟨fun _ => 0, 0, ⟨false, false, false, false⟩⟩, mem := touched }

/-- The check started on that memory is in an initial state: pass 2 has ended and nothing has
happened since. -/
theorem boot_initial (r : RamSize) : Initial r boot := ⟨⟨_, _, rfl⟩, fun i _ => touched_word i⟩

/-- Page 0 discarded before the first sweep: the survey counts it as lost. -/
theorem loss_seen_before_first_sweep : ∃ es st,
    run (step oneGib) boot es = some st ∧ st.phase = .surveying oneGib.pages ∧
      Sometime (step oneGib) (Discards 0) boot es ∧ 0 ∈ st.lostPages := by
  have hpages : 0 < oneGib.pages := by decide
  have h₀ : step oneGib boot (.discard 0) = some (boot.discard 0) := rfl
  have h₁ : step oneGib (boot.discard 0) .start = some { boot.discard 0 with
      phase := .hammering, cpu := armHammer oneGib boot.cpu } := rfl
  have hinv := invariant_discard (invariant_initial (boot_initial oneGib)) 0
  obtain ⟨st, ⟨es, -, hrun⟩, hph, hmade⟩ :=
    check_completes (hammering_start (r := oneGib) hinv.2.1 hinv.2.2) rfl
  have hrun' : run (step oneGib) boot (.discard 0 :: .start :: es) = some st :=
    run_cons_eq_some.mpr ⟨_, h₀, run_cons_eq_some.mpr ⟨_, h₁, hrun⟩⟩
  have hmade' : st.made = 1 := hmade
  refine ⟨_, st, hrun', hph, .inl ⟨rfl, rfl⟩, ?_⟩
  exact (loss_seen_iff oneGib (boot_initial oneGib) hrun' hph (by rw [hmade']; decide) hpages).mpr
    (fun _ => .inl ⟨⟨rfl, rfl⟩, rfl⟩) (.inl ⟨rfl, rfl⟩)

/-- **A discard the store covers up.** The guest has loaded the word of page 0; the page is
discarded; the guest stores the incremented word and finishes its sweep. The survey finds every
page at its expected counter. -/
theorem loss_covered_by_store : ∃ es st,
    run (step oneGib) boot es = some st ∧ st.phase = .surveying oneGib.pages ∧ st.made = 1 ∧
      Sometime (step oneGib) (Discards 0) boot es ∧ 0 ∉ st.lostPages ∧ st.lost = 0 := by
  have hpages : 0 < oneGib.pages := by decide
  -- `mov x1, x6` and `ldr x5, [x1]`
  have hinv := invariant_initial (boot_initial oneGib)
  have hstep₁ : step oneGib boot .start = some { boot with
      phase := .hammering, cpu := armHammer oneGib boot.cpu } := rfl
  have h₁ := hammering_start (r := oneGib) hinv.2.1 hinv.2.2
  obtain ⟨st₂, hstep₂, h₂, hph₂, hmade₂⟩ := h₁.advance rfl (passStep_enter rfl)
  obtain ⟨st₃, hstep₃, h₃, hph₃, hmade₃⟩ := h₂.advance hph₂ (passStep_body_zero rfl)
  -- the discard falls between the load and the store
  have hwin : st₃.inWindow 0 = true := (h₃.inWindow_iff hph₃ hpages).mpr (.inl rfl)
  have hun : st₃.unread 0 = true := by simp [State.unread, hph₃]
  have hstep₄ : step oneGib st₃ (.discard 0) = some (st₃.discard 0) := rfl
  obtain ⟨st, ⟨es, halong, hrun⟩, hph, hmade⟩ := check_completes (h₃.discard hph₃ 0) hph₃
  have hrun' : run (step oneGib) boot
      (.start :: .guest false :: .guest false :: .discard 0 :: es) = some st :=
    run_cons_eq_some.mpr ⟨_, hstep₁, run_cons_eq_some.mpr ⟨_, hstep₂,
      run_cons_eq_some.mpr ⟨_, hstep₃, run_cons_eq_some.mpr ⟨_, hstep₄, hrun⟩⟩⟩⟩
  have hmade' : st.made = 1 := by
    rw [hmade]
    exact congrArg (· + 1) (hmade₃.trans hmade₂)
  have hnone : ∀ i < oneGib.pages, i ∉ st.lostPages := by
    intro i hi
    rw [lost_iff_exposed (boot_initial oneGib) hrun' hph (by rw [hmade']; decide) hi]
    rw [sometime_cons hstep₁, sometime_cons hstep₂, sometime_cons hstep₃, sometime_cons hstep₄]
    rintro (hc | hc | hc | hc | hc)
    · cases hc.1.1
    · cases hc.1.1
    · cases hc.1.1
    · obtain ⟨⟨he, -⟩, hout⟩ := hc
      cases he
      rw [hwin] at hout
      cases hout
    · exact halong.not_sometime (fun _ _ hu hx => hu.not_discards hx.1) hc
  have hlost := surveyed (boot_initial oneGib) hrun' hph
  refine ⟨_, st, hrun', hph, hmade', ?_, hnone 0 hpages, ?_⟩
  · exact .inr ⟨_, hstep₁, .inr ⟨_, hstep₂, .inr ⟨_, hstep₃, .inl ⟨rfl, hun⟩⟩⟩⟩
  · rw [hlost.lost_eq, List.length_eq_zero_iff, List.eq_nil_iff_forall_not_mem]
    intro i hi
    exact hnone i (hlost.lost_lt i hi) hi

end VmRatchet.Hammer
