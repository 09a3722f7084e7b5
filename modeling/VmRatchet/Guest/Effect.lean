import Mathlib.Data.List.Range
import VmRatchet.Guest.Pass

/-!
# What a pass does to memory

`Effect p f s m` is the loop invariant of all five programs at once: with `f i` the word of page
`i` when the pass began, the pages already dealt with hold `newWord p i (f i)` and the others
still hold `f i`; the working registers carry what the location says they carry. For the verifier
the count in `x4` is the number of mismatches among the pages dealt with.

* `Effect.step` — one instruction keeps it; `Effect.start` — arming a pass establishes it;
  `Effect.done` — at the doorbell it is the reference effect of the whole pass.
* `passStep_frame` — the only bytes a pass ever writes are those of its own words.
* `remaining` — a measure every instruction decreases, so that every pass rings.
-/

namespace VmRatchet.Guest

open Arm64 ByteMemory

/-! ## The invariant -/

/-- The word a pass leaves in page `i`, where it found `old`. -/
def Pass.newWord (p : Pass) (i : ℕ) (old : BitVec 64) : BitVec 64 :=
  match p.prog with
  | .touch => BitVec.ofNat 64 (p.word i)
  | .read => old
  | .verify => old
  | .hammer => old + 1
  | .fill => p.value

/-- How many of the first `n` words differ from `expected`. -/
def mismatchCount (f : ℕ → BitVec 64) (expected : BitVec 64) (n : ℕ) : ℕ :=
  (List.range n).countP fun i => f i != expected

/-- The mismatches among the first `n + 1` words are those among the first `n`, and one more if the
next word differs. -/
theorem mismatchCount_succ (f : ℕ → BitVec 64) (e : BitVec 64) (n : ℕ) :
    mismatchCount f e (n + 1) = mismatchCount f e n + if f n = e then 0 else 1 := by
  unfold mismatchCount
  rw [List.range_succ, List.countP_append, List.countP_singleton]
  by_cases h : f n = e <;> simp [h]

/-- Where all words are the expected one there is no mismatch. -/
theorem mismatchCount_eq_zero {f : ℕ → BitVec 64} {e : BitVec 64} {n : ℕ}
    (h : ∀ i < n, f i = e) : mismatchCount f e n = 0 := by
  unfold mismatchCount
  rw [List.countP_eq_zero]
  intro i hi
  simp [h i (List.mem_range.mp hi)]

/-- There are at most as many mismatches as words. -/
theorem mismatchCount_le (f : ℕ → BitVec 64) (e : BitVec 64) (n : ℕ) : mismatchCount f e n ≤ n :=
  le_of_le_of_eq List.countP_le_length List.length_range

/-- If one of the words differs from the expected one, there is at least one mismatch. -/
theorem mismatchCount_pos {f : ℕ → BitVec 64} {e : BitVec 64} {i n : ℕ} (hi : i < n)
    (h : f i ≠ e) : 0 < mismatchCount f e n := by
  unfold mismatchCount
  rw [List.countP_pos_iff]
  exact ⟨i, List.mem_range.mpr hi, by simpa using h⟩

/-- If exactly one of the words differs from the expected one, there is exactly one mismatch. -/
theorem mismatchCount_eq_one {f : ℕ → BitVec 64} {e : BitVec 64} {j n : ℕ} (hj : j < n)
    (h : ∀ i < n, f i = e ↔ i ≠ j) : mismatchCount f e n = 1 := by
  induction n with
  | zero => omega
  | succ n ih =>
      rw [mismatchCount_succ]
      by_cases hjn : j = n
      · subst hjn
        rw [if_neg fun hc => (h j hj).mp hc rfl]
        rw [mismatchCount_eq_zero fun i hi => (h i (by omega)).mpr (by omega)]
      · rw [if_pos ((h n (by omega)).mpr (Ne.symm hjn)), Nat.add_zero]
        exact ih (by omega) fun i hi => h i (by omega)

/-- What the verifier's registers hold at a location: the value to compare with, the number of
mismatches among the pages it has dealt with, and the word of the page it is at. -/
structure VerifyRegs (p : Pass) (f : ℕ → BitVec 64) (s : PState) : Prop where
  x5 : s.x5 = p.value
  x4 : s.x4 = BitVec.ofNat 64 (mismatchCount f p.value (s.loc.progress p.pages))
  loaded : ∀ i, s.loc = .body 1 i → s.x6 = f i
  compared : ∀ i, s.loc = .body 2 i → s.eq = (f i == p.value)
  differs : ∀ i, s.loc = .body 3 i → f i ≠ p.value

/-- **The loop invariant.** `f i` is the word of page `i` at the start of the pass. -/
structure Effect (p : Pass) (f : ℕ → BitVec 64) (s : PState) (m : Mem) : Prop where
  valid : s.loc.Valid p.prog p.pages
  running : s.loc ≠ .again
  words : ∀ i < p.pages, load64 m (p.word i) =
    if i < s.loc.progress p.pages then p.newWord i (f i) else f i
  fill : p.prog = .fill → s.x5 = p.value
  loaded : p.prog = .hammer → ∀ i, s.loc = .body 1 i → s.x5 = f i
  bumped : p.prog = .hammer → ∀ i, s.loc = .body 2 i → s.x5 = f i + 1
  verify : p.prog = .verify → VerifyRegs p f s

variable {p : Pass} {f : ℕ → BitVec 64} {s s' : PState} {m m' : Mem}

/-! ## Arming -/

/-- The state a pass starts in, right after its registers were written: the hammer enters its outer
loop, the others are at the first page. -/
def Pass.start (p : Pass) (c : Cpu) : PState where
  loc := if p.prog = .hammer then .enter else .body 0 0
  x4 := (p.arm c).x 4
  x5 := (p.arm c).x 5
  x6 := (p.arm c).x 6
  eq := false

/-- Arming a pass puts the vCPU at its start, whatever the registers held before. -/
theorem sim_arm (p : Pass) (c : Cpu) (h : 0 < p.pages) : Sim p (p.start c) (p.arm c) := by
  constructor
  · unfold Pass.start
    cases hp : p.prog <;> simp [Loc.Valid, Program.bodyLen, h]
  · unfold Pass.start Pass.arm armPass
    cases hp : p.prog <;> simp [Loc.index, Program.lead]
  · intro i hi
    obtain rfl : 0 = i := by
      unfold Pass.start at hi
      cases hp : p.prog <;> simp_all [Loc.cursor]
    unfold Pass.arm armPass Pass.word Pass.base
    cases hp : p.prog <;> simp [Cpu.set_x, ramAddr]
  · unfold Pass.arm armPass
    cases hp : p.prog <;> simp [Cpu.set_x]
  · unfold Pass.arm armPass
    cases hp : p.prog <;> simp [Cpu.set_x]
  · rfl
  · rfl
  · rfl
  · intro hp
    simp [Pass.start, Pass.arm, armPass, hp, Cpu.set_x, ramAddr, Pass.base]
  · intro hp i hi
    simp [Pass.start, hp] at hi
  · intro i hi
    by_cases hp : p.prog = .hammer <;> simp [Pass.start, hp] at hi

/-- Arming a pass establishes its invariant: no page has been dealt with, and every word is as it is
in memory. -/
theorem Effect.start (p : Pass) (c : Cpu) (m : Mem) (h : 0 < p.pages) :
    Effect p (fun i => load64 m (p.word i)) (p.start c) m where
  valid := (sim_arm p c h).valid
  running := by unfold Pass.start; split_ifs <;> simp
  words i _ := by
    have h0 : (p.start c).loc.progress p.pages = 0 := by
      unfold Pass.start
      split_ifs <;> rfl
    rw [h0, if_neg (Nat.not_lt_zero i)]
  fill hp := by simp [Pass.start, Pass.arm, armPass, hp, Cpu.set_x]
  loaded hp i hi := by simp [Pass.start, hp] at hi
  bumped hp i hi := by simp [Pass.start, hp] at hi
  verify hp := by
    constructor
    · simp [Pass.start, Pass.arm, armPass, hp, Cpu.set_x]
    · simp [Pass.start, Pass.arm, armPass, hp, Cpu.set_x, Loc.progress, mismatchCount]
    · simp [Pass.start, hp]
    · simp [Pass.start, hp]
    · simp [Pass.start, hp]

/-! ## One instruction -/

/-- The only stores of a pass go to the word of the page it is at; every other byte is as before the
instruction. -/
theorem passStep_mem (h : passStep p s m = some (s', m')) :
    m' = m ∨ ∃ j i v, s.loc = .body j i ∧ m' = store64 m (p.word i) v := by
  unfold passStep at h
  split at h
  case h_2 i hs =>
    rw [Option.some.injEq] at h
    cases hp : p.prog with
    | touch | fill =>
        simp only [bodyFirst, hp, Prod.mk.injEq] at h
        exact .inr ⟨0, i, _, hs, h.2.symm⟩
    | read | hammer | verify =>
        simp only [bodyFirst, hp, Prod.mk.injEq] at h
        exact .inl h.2.symm
  case h_4 i hs =>
    by_cases hp : p.prog = .hammer
    · rw [if_pos hp, Option.some.injEq, Prod.mk.injEq] at h
      exact .inr ⟨2, i, _, hs, h.2.symm⟩
    · rw [if_neg hp, Option.some.injEq, Prod.mk.injEq] at h
      exact .inl h.2.symm
  case h_10 => cases h
  all_goals
    try split_ifs at h
    all_goals
      rw [Option.some.injEq, Prod.mk.injEq] at h
      exact .inl h.2.symm

/-- **Frame.** A byte outside the words of the pass is never changed. -/
theorem passStep_frame (hv : s.loc.Valid p.prog p.pages) (h : passStep p s m = some (s', m'))
    {a : ℕ} (ha : ∀ i < p.pages, a < p.word i ∨ p.word i + 8 ≤ a) : m' a = m a := by
  rcases passStep_mem h with rfl | ⟨j, i, v, hs, rfl⟩
  · rfl
  · rw [hs] at hv
    exact store64_apply_of_not_mem (ha i hv.2)

/-- Storing the new word of page `i` moves it from the untouched to the finished pages. -/
theorem words_store {i : ℕ} {v : BitVec 64} (hi : i < p.pages) (hv : v = p.newWord i (f i))
    (hw : ∀ k < p.pages, load64 m (p.word k) = if k < i then p.newWord k (f k) else f k) :
    ∀ k < p.pages, load64 (store64 m (p.word i) v) (p.word k) =
      if k < i + 1 then p.newWord k (f k) else f k := by
  intro k hk
  by_cases hki : k = i
  · subst hki
    rw [load64_store64, if_pos (Nat.lt_succ_self k), hv]
  · rw [load64_store64_of_disjoint (p.word_disjoint hki), hw k hk]
    by_cases hlt : k < i
    · rw [if_pos hlt, if_pos (by omega)]
    · rw [if_neg hlt, if_neg (by omega)]

/-- A page the program leaves as it is moves to the finished pages by itself. -/
theorem words_keep {i : ℕ} (hkeep : p.newWord i (f i) = f i)
    (hw : ∀ k < p.pages, load64 m (p.word k) = if k < i then p.newWord k (f k) else f k) :
    ∀ k < p.pages, load64 m (p.word k) = if k < i + 1 then p.newWord k (f k) else f k := by
  intro k hk
  rw [hw k hk]
  by_cases hki : k = i
  · subst hki
    rw [if_neg (Nat.lt_irrefl k), if_pos (Nat.lt_succ_self k), hkeep]
  · by_cases hlt : k < i
    · rw [if_pos hlt, if_pos (by omega)]
    · rw [if_neg hlt, if_neg (by omega)]

/-- If the location advances without touching memory or registers and without finishing a page, the
invariant of the pass is kept. -/
theorem Effect.goto (h : Effect p f s m) {l : Loc} (hv : l.Valid p.prog p.pages)
    (hl : l ≠ .again) (hprog : l.progress p.pages = s.loc.progress p.pages)
    (hbody : ∀ j i, l = .body j i → j = 0) : Effect p f { s with loc := l } m where
  valid := hv
  running := hl
  words i hi := by rw [hprog]; exact h.words i hi
  fill := h.fill
  loaded _ i hi := by cases hbody _ _ hi
  bumped _ i hi := by cases hbody _ _ hi
  verify hp :=
    { x5 := (h.verify hp).x5
      x4 := by rw [hprog]; exact (h.verify hp).x4
      loaded := fun i hi => by cases hbody _ _ hi
      compared := fun i hi => by cases hbody _ _ hi
      differs := fun i hi => by cases hbody _ _ hi }

/-- The invariant of the hammer, from what is particular to it: words behind the cursor are one
larger, those ahead are as they were, and `x5` holds the word at the cursor between its load and its
store. -/
theorem Effect.of_hammer (hp : p.prog = .hammer) (hv : s.loc.Valid p.prog p.pages)
    (hl : s.loc ≠ .again) (hw : ∀ i < p.pages, load64 m (p.word i) =
      if i < s.loc.progress p.pages then p.newWord i (f i) else f i)
    (hloaded : ∀ i, s.loc = .body 1 i → s.x5 = f i)
    (hbumped : ∀ i, s.loc = .body 2 i → s.x5 = f i + 1) : Effect p f s m where
  valid := hv
  running := hl
  words := hw
  fill h := by rw [hp] at h; cases h
  loaded _ := hloaded
  bumped _ := hbumped
  verify h := by rw [hp] at h; cases h

/-- The invariant of the verifier, from what is particular to it: all words are as they were, and
its registers are as they should be. -/
theorem Effect.of_verify (hp : p.prog = .verify) (hv : s.loc.Valid p.prog p.pages)
    (hl : s.loc ≠ .again) (hw : ∀ i < p.pages, load64 m (p.word i) =
      if i < s.loc.progress p.pages then p.newWord i (f i) else f i)
    (hregs : VerifyRegs p f s) : Effect p f s m where
  valid := hv
  running := hl
  words := hw
  fill h := by rw [hp] at h; cases h
  loaded h := by rw [hp] at h; cases h
  bumped h := by rw [hp] at h; cases h
  verify _ := hregs

/-- One instruction of the body of the touch, read or fill program keeps the invariant of the pass:
touch and fill store the new word of their page, and read leaves every word as it was, which is its
new word. -/
theorem Effect.step_single (h : Effect p f s m) {i : ℕ} (hs : s.loc = .body 0 i)
    (hlen : p.prog.bodyLen = 1) (hstep : bodyFirst p i s m = (s', m')) : Effect p f s' m' := by
  have hv := h.valid
  have hw := h.words
  rw [hs] at hv hw
  simp only [bodyFirst] at hstep
  cases hp : p.prog with
  | hammer | verify => rw [hp] at hlen; cases hlen
  | touch =>
      simp only [hp, Prod.mk.injEq] at hstep
      obtain ⟨rfl, rfl⟩ := hstep
      constructor
      · exact hv.2
      · simp
      · exact words_store hv.2 (by simp [Pass.newWord, hp]) hw
      all_goals simp [hp]
  | fill =>
      simp only [hp, Prod.mk.injEq] at hstep
      obtain ⟨rfl, rfl⟩ := hstep
      constructor
      · exact hv.2
      · simp
      · exact words_store hv.2 (by simp [Pass.newWord, hp, h.fill hp]) hw
      · exact h.fill
      all_goals simp [hp]
  | read =>
      simp only [hp, Prod.mk.injEq] at hstep
      obtain ⟨rfl, rfl⟩ := hstep
      constructor
      · exact hv.2
      · simp
      · exact words_keep (by simp [Pass.newWord, hp]) hw
      all_goals simp [hp]

/-- One instruction of the body of the hammer keeps the invariant of the pass. -/
theorem Effect.step_hammer (h : Effect p f s m) {i j : ℕ} (hs : s.loc = .body j i)
    (hp : p.prog = .hammer) (hstep : passStep p s m = some (s', m')) : Effect p f s' m' := by
  have hv := h.valid
  have hw := h.words
  rw [hs] at hv hw
  have hj : j < 3 := by simpa [Loc.Valid, hp, Program.bodyLen] using hv.1
  have hfi : load64 m (p.word i) = f i := by simpa [Loc.progress] using hw i hv.2
  interval_cases j
  · rw [passStep_body_zero hs] at hstep
    simp only [bodyFirst, hp, Option.some.injEq, Prod.mk.injEq] at hstep
    obtain ⟨rfl, rfl⟩ := hstep
    refine .of_hammer hp ?_ (by simp) hw ?_ (by simp)
    · simp [Loc.Valid, hp, Program.bodyLen, hv.2]
    · intro k hk
      obtain rfl : i = k := by simpa using hk
      exact hfi
  · rw [passStep_increment hs hp, Option.some.injEq, Prod.mk.injEq] at hstep
    obtain ⟨rfl, rfl⟩ := hstep
    refine .of_hammer hp ?_ (by simp) hw (by simp) ?_
    · simp [Loc.Valid, hp, Program.bodyLen, hv.2]
    · intro k hk
      obtain rfl : i = k := by simpa using hk
      simp [h.loaded hp i hs]
  · rw [passStep_store hs hp, Option.some.injEq, Prod.mk.injEq] at hstep
    obtain ⟨rfl, rfl⟩ := hstep
    refine .of_hammer hp hv.2 (by simp) ?_ (by simp) (by simp)
    exact words_store hv.2 (by simp [Pass.newWord, hp, h.bumped hp i hs]) hw

/-- One instruction of the body of the verifier keeps the invariant of the pass. The four of them
load the word, compare it with the value, skip the last one if they are equal, and count; the
mismatches go up by one exactly where the word differs. -/
theorem Effect.step_verify (h : Effect p f s m) {i j : ℕ} (hs : s.loc = .body j i)
    (hp : p.prog = .verify) (hstep : passStep p s m = some (s', m')) : Effect p f s' m' := by
  have hv := h.valid
  have hw := h.words
  have hr := h.verify hp
  have hx4 := hr.x4
  rw [hs] at hv hw hx4
  have hne : p.prog ≠ .hammer := by rw [hp]; decide
  have hkeep : p.newWord i (f i) = f i := by simp [Pass.newWord, hp]
  have hbody : ∀ j' < 4, (Loc.body j' i).Valid p.prog p.pages := by
    intro j' hj'
    simpa [Loc.Valid, hp, Program.bodyLen, hv.2] using hj'
  have hj : j < 4 := by simpa [Loc.Valid, hp, Program.bodyLen] using hv.1
  have hfi : load64 m (p.word i) = f i := by simpa [Loc.progress] using hw i hv.2
  interval_cases j
  · rw [passStep_body_zero hs] at hstep
    simp only [bodyFirst, hp, Option.some.injEq, Prod.mk.injEq] at hstep
    obtain ⟨rfl, rfl⟩ := hstep
    refine .of_verify hp (hbody 1 (by omega)) (by simp) hw ⟨hr.x5, hx4, ?_, by simp, by simp⟩
    intro k hk
    obtain rfl : i = k := by simpa using hk
    exact hfi
  · rw [passStep_compare_word hs hne, Option.some.injEq, Prod.mk.injEq] at hstep
    obtain ⟨rfl, rfl⟩ := hstep
    refine .of_verify hp (hbody 2 (by omega)) (by simp) hw ⟨hr.x5, hx4, by simp, ?_, by simp⟩
    intro k hk
    obtain rfl : i = k := by simpa using hk
    simp [hr.loaded i hs, hr.x5]
  · rw [passStep_skip hs hne, Option.some.injEq, Prod.mk.injEq] at hstep
    obtain ⟨rfl, rfl⟩ := hstep
    have heq := hr.compared i hs
    cases hse : s.eq with
    | true =>
        -- equal: skip the count, the page is finished
        have hfe : f i = p.value := by simpa [hse] using heq.symm
        refine .of_verify hp hv.2 (by simp) (words_keep hkeep hw)
          ⟨hr.x5, ?_, by simp, by simp, by simp⟩
        simp only [if_true, Loc.progress, mismatchCount_succ, if_pos hfe, Nat.add_zero]
        exact hx4
    | false =>
        have hfe : f i ≠ p.value := by
          intro hc
          simp [hse, hc] at heq
        refine .of_verify hp (hbody 3 (by omega)) (by simp) hw
          ⟨hr.x5, hx4, by simp, by simp, ?_⟩
        intro k hk
        obtain rfl : i = k := by simpa using hk
        exact hfe
  · rw [passStep_count hs, Option.some.injEq, Prod.mk.injEq] at hstep
    obtain ⟨rfl, rfl⟩ := hstep
    refine .of_verify hp hv.2 (by simp) (words_keep hkeep hw)
      ⟨hr.x5, ?_, by simp, by simp, by simp⟩
    simp only [Loc.progress, mismatchCount_succ, if_neg (hr.differs i hs), BitVec.ofNat_add]
    rw [hx4]
    rfl

/-- **One instruction keeps the invariant**, for each of the five programs and at every location. In
the body it is the lemma of the program; elsewhere memory and the counted registers stay, and the
pages dealt with are the same ones before and after. -/
theorem Effect.step (hn : 0 < p.pages) (h : Effect p f s m)
    (hstep : passStep p s m = some (s', m')) : Effect p f s' m' := by
  have hv := h.valid
  cases hs : s.loc with
  | again => exact absurd hs h.running
  | doorbell =>
      rw [passStep_doorbell hs] at hstep
      cases hstep
  | body j i =>
      cases hp : p.prog with
      | hammer => exact h.step_hammer hs hp hstep
      | verify => exact h.step_verify hs hp hstep
      | touch | read | fill =>
          have hlen : p.prog.bodyLen = 1 := by rw [hp]; rfl
          rw [hs] at hv
          obtain rfl : j = 0 := by have := hv.1; omega
          rw [passStep_body_zero hs, Option.some.injEq] at hstep
          exact h.step_single hs hlen hstep
  | enter =>
      rw [passStep_enter hs, Option.some.injEq, Prod.mk.injEq] at hstep
      obtain ⟨rfl, rfl⟩ := hstep
      refine h.goto ⟨?_, hn⟩ (by simp) (by rw [hs]; rfl) (by simp)
      cases p.prog <;> decide
  | advance i =>
      rw [passStep_advance hs, Option.some.injEq, Prod.mk.injEq] at hstep
      obtain ⟨rfl, rfl⟩ := hstep
      rw [hs] at hv
      exact h.goto hv (by simp) (by rw [hs]; rfl) (by simp)
  | compare i =>
      rw [passStep_compare hs, Option.some.injEq, Prod.mk.injEq] at hstep
      obtain ⟨rfl, rfl⟩ := hstep
      rw [hs] at hv
      exact h.goto hv (by simp) (by rw [hs]; rfl) (by simp)
  | branch i =>
      rw [passStep_branch hs, Option.some.injEq, Prod.mk.injEq] at hstep
      obtain ⟨rfl, rfl⟩ := hstep
      rw [hs] at hv
      have hi : i < p.pages := hv
      by_cases hlt : i + 1 < p.pages
      · rw [if_pos hlt]
        refine h.goto ⟨?_, hlt⟩ (by simp) (by rw [hs]; rfl) (by simp)
        cases p.prog <;> decide
      · -- the last page: nothing is left to do
        have hlast : p.pages = i + 1 := by omega
        rw [if_neg hlt]
        by_cases hp : p.prog = .hammer
        · rw [if_pos hp]
          exact h.goto hp (by simp) (by rw [hs]; exact hlast) (by simp)
        · rw [if_neg hp]
          exact h.goto trivial (by simp) (by rw [hs]; exact hlast) (by simp)
  | finish =>
      rw [passStep_finish hs, Option.some.injEq, Prod.mk.injEq] at hstep
      obtain ⟨rfl, rfl⟩ := hstep
      rw [hs] at hv
      have hp : p.prog = .hammer := hv
      have hw := h.words
      rw [hs] at hw
      constructor
      · trivial
      · simp
      · exact hw
      all_goals simp [hp]

/-- The invariant of a pass depends on memory only through the words of the pass. -/
theorem Effect.congr_mem (h : Effect p f s m)
    (hm : ∀ i < p.pages, load64 m' (p.word i) = load64 m (p.word i)) : Effect p f s m' where
  valid := h.valid
  running := h.running
  words i hi := (hm i hi).trans (h.words i hi)
  fill := h.fill
  loaded := h.loaded
  bumped := h.bumped
  verify := h.verify

/-- At the doorbell every page of the pass holds its new word. -/
theorem Effect.done (h : Effect p f s m) (hs : s.loc = .doorbell) :
    ∀ i < p.pages, load64 m (p.word i) = p.newWord i (f i) := by
  intro i hi
  rw [h.words i hi, hs]
  exact if_pos hi

/-- When a verification rings the doorbell, `x4` holds the number of words that differed from the
expected one, as 64 bits hold it. -/
theorem verify_result {c : Cpu} (hs : Sim p s c)
    (heff : Effect p f s m) (hloc : s.loc = .doorbell) (hprog : p.prog = .verify) :
    c.x 4#5 = BitVec.ofNat 64 (mismatchCount f p.value p.pages) := by
  have h4 := (heff.verify hprog).x4
  rw [hloc] at h4
  exact hs.x4.trans h4

/-! ## Every pass rings -/

/-- An upper bound on the instructions left before the doorbell. -/
def Loc.remaining (n : ℕ) : Loc → ℕ
  | enter => 8 * n + 10
  | body j i => 8 * (n - i) + (7 - j)
  | advance i => 8 * (n - i) + 3
  | compare i => 8 * (n - i) + 2
  | branch i => 8 * (n - i) + 1
  | finish => 1
  | doorbell => 0
  | again => 8 * n + 11

/-- Every instruction brings the doorbell nearer: the instructions that are left become fewer, by
the pages still to come and the location in the loop. This is the measure by which a pass ends. -/
theorem remaining_lt (hv : s.loc.Valid p.prog p.pages) (h : passStep p s m = some (s', m')) :
    s'.loc.remaining p.pages < s.loc.remaining p.pages := by
  have hbody : p.prog.bodyLen ≤ 4 := by cases p.prog <;> decide
  unfold passStep at h
  split at h
  case h_2 i hs =>
    rw [Option.some.injEq] at h
    rw [hs]
    cases hp : p.prog <;> simp only [bodyFirst, hp, Prod.mk.injEq] at h <;>
      obtain ⟨rfl, rfl⟩ := h <;> simp [Loc.remaining]
  case h_3 i hs =>
    rw [hs]
    split_ifs at h <;> simp only [Option.some.injEq, Prod.mk.injEq] at h <;>
      obtain ⟨rfl, rfl⟩ := h <;> simp [Loc.remaining]
  case h_4 i hs =>
    rw [hs]
    split_ifs at h <;> simp only [Option.some.injEq, Prod.mk.injEq] at h <;>
      obtain ⟨rfl, rfl⟩ := h <;> simp [Loc.remaining]
  case h_5 j i hj0 hj1 hj2 hs =>
    rw [hs] at hv ⊢
    have hj : j < 4 := lt_of_lt_of_le hv.1 hbody
    simp only [Option.some.injEq, Prod.mk.injEq] at h
    obtain ⟨rfl, rfl⟩ := h
    simp only [Loc.remaining]
    omega
  case h_8 i hs =>
    rw [hs] at hv ⊢
    have hi : i < p.pages := hv
    simp only [Option.some.injEq, Prod.mk.injEq] at h
    obtain ⟨rfl, rfl⟩ := h
    split_ifs <;> simp only [Loc.remaining] <;> omega
  case h_10 => cases h
  all_goals
    rename_i hs
    rw [hs]
    simp only [Option.some.injEq, Prod.mk.injEq] at h
    obtain ⟨rfl, rfl⟩ := h
    simp [Loc.remaining]

end VmRatchet.Guest
