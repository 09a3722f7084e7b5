import VmRatchet.Guest.Effect

/-!
# Passes over memory that is being discarded

The loop invariant of `Effect` speaks of all pages at once and of memory that only the pass
itself writes. Where the operating system may zero pages in the middle of a pass, what can be
said is said page by page:

* `Swept p i v s m` — page `i` counts as holding `v` at the start of the running sweep: it still
  does, or it has been swept, or its word is on its way through the register. In between — after
  the load and before the store — memory does not matter: the store covers up whatever happened
  to the page there (`Swept.masked`).
* `VerifyStep` — the inversion of one instruction of the verifier, and `Verifying`, what its
  registers hold whatever it loads.
-/

namespace VmRatchet.Guest

open Arm64 ByteMemory

variable {p : Pass} {i : ℕ} {v : BitVec 64} {s s' : PState} {m m' : Mem}

/-- No instruction leads to `b outer`: behind the doorbell, only the host puts the vCPU there. -/
theorem passStep_ne_again (hstep : passStep p s m = some (s', m')) : s'.loc ≠ .again := by
  unfold passStep at hstep
  split at hstep
  case h_2 =>
    rw [Option.some.injEq] at hstep
    cases hp : p.prog <;> simp only [bodyFirst, hp, Prod.mk.injEq] at hstep <;>
      obtain ⟨rfl, rfl⟩ := hstep <;> simp
  case h_10 => cases hstep
  all_goals
    try split_ifs at hstep
    all_goals
      rw [Option.some.injEq, Prod.mk.injEq] at hstep
      obtain ⟨rfl, rfl⟩ := hstep
      try simp only
      try split_ifs
      all_goals simp

/-- A pass never goes back to a page it has dealt with: at the next location no fewer pages have
been dealt with than at this one. -/
theorem progress_le (hv : s.loc.Valid p.prog p.pages) (hagain : s.loc ≠ .again)
    (hstep : passStep p s m = some (s', m')) :
    s.loc.progress p.pages ≤ s'.loc.progress p.pages := by
  unfold passStep at hstep
  split at hstep
  case h_2 i hs =>
    rw [Option.some.injEq] at hstep
    rw [hs]
    cases hp : p.prog <;> simp only [bodyFirst, hp, Prod.mk.injEq] at hstep <;>
      obtain ⟨rfl, rfl⟩ := hstep <;> simp [Loc.progress]
  case h_8 i hs =>
    rw [hs] at hv ⊢
    have hi : i < p.pages := hv
    simp only [Option.some.injEq, Prod.mk.injEq] at hstep
    obtain ⟨rfl, rfl⟩ := hstep
    split_ifs <;> simp only [Loc.progress] <;> omega
  case h_10 => cases hstep
  case h_11 hs => exact absurd hs hagain
  all_goals
    rename_i hs
    rw [hs]
    try split_ifs at hstep
    all_goals
      simp only [Option.some.injEq, Prod.mk.injEq] at hstep
      obtain ⟨rfl, rfl⟩ := hstep
      try simp only
      try split_ifs
      all_goals simp [Loc.progress]

/-- One instruction of a pass does not write to a page that the pass has dealt with: its word keeps
its value. -/
theorem passStep_word_kept {i : ℕ} (hi : i < s.loc.progress p.pages)
    (hstep : passStep p s m = some (s', m')) : load64 m' (p.word i) = load64 m (p.word i) := by
  rcases passStep_mem hstep with rfl | ⟨j, t, v, hs, rfl⟩
  · rfl
  · rw [hs] at hi
    have hne : i ≠ t := Nat.ne_of_lt hi
    exact load64_store64_of_disjoint (p.word_disjoint hne)

/-! ## One page of a sweep -/

/-- Page `i` counts as holding `v` at the start of the sweep. -/
structure Swept (p : Pass) (i : ℕ) (v : BitVec 64) (s : PState) (m : Mem) : Prop where
  word : s.loc ≠ .body 1 i → s.loc ≠ .body 2 i →
    load64 m (p.word i) = if i < s.loc.progress p.pages then v + 1 else v
  loaded : s.loc = .body 1 i → s.x5 = v
  bumped : s.loc = .body 2 i → s.x5 = v + 1

namespace Swept

/-- Whether page `i` counts as holding `v` depends on memory only through the word of that page. -/
theorem congr (h : Swept p i v s m) (hm : load64 m' (p.word i) = load64 m (p.word i)) :
    Swept p i v s m' :=
  ⟨fun h1 h2 => hm.trans (h.word h1 h2), h.loaded, h.bumped⟩

/-- Between the load and the store of page `i` memory does not matter: the page counts as holding
what it did, whatever memory becomes. This is how a discard is masked. -/
theorem masked (h : Swept p i v s m) (hwin : s.loc = .body 1 i ∨ s.loc = .body 2 i) :
    Swept p i v s m' := by
  refine ⟨fun h1 h2 => ?_, h.loaded, h.bumped⟩
  rcases hwin with hw | hw
  · exact absurd hw h1
  · exact absurd hw h2

/-- Outside that window a page is what its word in memory says. -/
theorem of_word (h1 : s.loc ≠ .body 1 i) (h2 : s.loc ≠ .body 2 i)
    (hm : load64 m (p.word i) = if i < s.loc.progress p.pages then v + 1 else v) :
    Swept p i v s m :=
  ⟨fun _ _ => hm, fun h => absurd h h1, fun h => absurd h h2⟩

/-- At the start of a pass every page counts as holding the word that is in memory. -/
theorem start (c : Cpu) (m : Mem) : Swept p i (load64 m (p.word i)) (p.start c) m := by
  have hloc : (p.start c).loc = .enter ∨ (p.start c).loc = .body 0 0 := by
    unfold Pass.start
    split_ifs <;> simp
  rcases hloc with hl | hl <;> refine of_word ?_ ?_ ?_ <;> simp [hl, Loc.progress]

/-- If the location moves without finishing a page, and does not enter the window of page `i` or
leave it, the page counts as holding what it did. -/
theorem goto (h : Swept p i v s m) (h1 : s.loc ≠ .body 1 i) (h2 : s.loc ≠ .body 2 i) {l : Loc}
    {x4 : BitVec 64} (hl : ∀ j i, l = .body j i → j = 0)
    (hprog : l.progress p.pages = s.loc.progress p.pages) :
    Swept p i v { s with loc := l, x4 := x4 } m := by
  refine of_word (fun hc => ?_) (fun hc => ?_) ?_
  · cases hl _ _ hc
  · cases hl _ _ hc
  · rw [hprog]
    exact h.word h1 h2

/-- One instruction of the body of the hammer, at whichever page it stands, keeps what page `i`
counts as holding at the start of the sweep. At page `i` itself the load takes its word into the
register, the increment adds one to it there, and the store writes it back; at any other page the
word of page `i` is not touched. -/
theorem step_body (hp : p.prog = .hammer) (hv : s.loc.Valid p.prog p.pages)
    (h : Swept p i v s m) {j t : ℕ} (hs : s.loc = .body j t)
    (hstep : passStep p s m = some (s', m')) : Swept p i v s' m' := by
  have hj : j < 3 := by
    rw [hs, hp] at hv
    exact hv.1
  interval_cases j
  · -- the load
    rw [passStep_body_zero hs] at hstep
    simp only [bodyFirst, hp, Option.some.injEq, Prod.mk.injEq] at hstep
    obtain ⟨rfl, rfl⟩ := hstep
    have hw := h.word (by simp [hs]) (by simp [hs])
    rw [hs] at hw
    refine ⟨fun _ _ => hw, fun hl => ?_, by simp⟩
    obtain rfl : t = i := by simpa using hl
    simpa [Loc.progress] using hw
  · -- the increment
    rw [passStep_increment hs hp, Option.some.injEq, Prod.mk.injEq] at hstep
    obtain ⟨rfl, rfl⟩ := hstep
    refine ⟨fun _ h2 => ?_, by simp, fun hl => ?_⟩
    · have hne : t ≠ i := fun ht => h2 (by simp [ht])
      have hw := h.word (by simpa [hs] using hne) (by simp [hs])
      rwa [hs] at hw
    · obtain rfl : t = i := by simpa using hl
      simp [h.loaded hs]
  · -- the store
    rw [passStep_store hs hp, Option.some.injEq, Prod.mk.injEq] at hstep
    obtain ⟨rfl, rfl⟩ := hstep
    refine of_word (by simp) (by simp) ?_
    by_cases ht : t = i
    · subst ht
      simp [Loc.progress, h.bumped hs]
    · have hw := h.word (by simp [hs]) (by simpa [hs] using ht)
      rw [hs] at hw
      rw [load64_store64_of_disjoint (p.word_disjoint (Ne.symm ht)), hw]
      have hiff : i < (Loc.body 2 t).progress p.pages ↔ i < (Loc.advance t).progress p.pages := by
        simp only [Loc.progress]
        omega
      by_cases hlt : i < (Loc.body 2 t).progress p.pages
      · rw [if_pos hlt, if_pos (hiff.mp hlt)]
      · rw [if_neg hlt, if_neg fun hc => hlt (hiff.mpr hc)]

/-- **One instruction of a sweep keeps the page**: wherever the guest stands in the sweep, page `i`
counts after the instruction as holding the same `v` at its start. Only the body touches memory
(`step_body`); at the other locations the guest goes on to one at which as many pages have been
dealt with as before. -/
theorem step (hp : p.prog = .hammer) (hv : s.loc.Valid p.prog p.pages) (h : Swept p i v s m)
    (hagain : s.loc ≠ .again) (hstep : passStep p s m = some (s', m')) :
    Swept p i v s' m' := by
  cases hs : s.loc with
  | again => exact absurd hs hagain
  | doorbell =>
      rw [passStep_doorbell hs] at hstep
      cases hstep
  | body j t => exact h.step_body hp hv hs hstep
  | enter =>
      rw [passStep_enter hs, Option.some.injEq, Prod.mk.injEq] at hstep
      obtain ⟨rfl, rfl⟩ := hstep
      exact h.goto (by simp [hs]) (by simp [hs]) (by simp) (by simp [hs, Loc.progress])
  | advance t =>
      rw [passStep_advance hs, Option.some.injEq, Prod.mk.injEq] at hstep
      obtain ⟨rfl, rfl⟩ := hstep
      exact h.goto (by simp [hs]) (by simp [hs]) (by simp) (by simp [hs, Loc.progress])
  | compare t =>
      rw [passStep_compare hs, Option.some.injEq, Prod.mk.injEq] at hstep
      obtain ⟨rfl, rfl⟩ := hstep
      exact h.goto (by simp [hs]) (by simp [hs]) (by simp) (by simp [hs, Loc.progress])
  | finish =>
      rw [passStep_finish hs, Option.some.injEq, Prod.mk.injEq] at hstep
      obtain ⟨rfl, rfl⟩ := hstep
      exact h.goto (by simp [hs]) (by simp [hs]) (by simp) (by simp [hs, Loc.progress])
  | branch t =>
      rw [passStep_branch hs, Option.some.injEq, Prod.mk.injEq] at hstep
      obtain ⟨rfl, rfl⟩ := hstep
      rw [hs] at hv
      have ht : t < p.pages := hv
      refine h.goto (by simp [hs]) (by simp [hs]) ?_ ?_
      · intro j i hl
        split_ifs at hl
        simp_all
      · by_cases hlt : t + 1 < p.pages
        · simp [hs, hlt, Loc.progress]
        · have hlast : p.pages = t + 1 := by omega
          simp [hs, hp, Loc.progress, hlast]

/-- At the doorbell the page has been swept: its word in memory is one more than what it counted as
holding at the start of the sweep. -/
theorem done (h : Swept p i v s m) (hi : i < p.pages) (hs : s.loc = .doorbell) :
    load64 m (p.word i) = v + 1 := by
  rw [h.word (by simp [hs]) (by simp [hs]), hs]
  exact if_pos hi

end Swept

/-! ## One instruction of the verifier -/

/-- What one instruction of the verifier does: it never writes memory. -/
inductive VerifyStep (p : Pass) (s : PState) (m : Mem) : PState → Prop
  | load (t : ℕ) (hs : s.loc = .body 0 t) :
      VerifyStep p s m { s with loc := .body 1 t, x6 := load64 m (p.word t) }
  | compare (t : ℕ) (hs : s.loc = .body 1 t) :
      VerifyStep p s m { s with loc := .body 2 t, eq := s.x6 == s.x5 }
  | skip (t : ℕ) (hs : s.loc = .body 2 t) :
      VerifyStep p s m { s with loc := if s.eq then .advance t else .body 3 t }
  | count (t : ℕ) (hs : s.loc = .body 3 t) :
      VerifyStep p s m { s with loc := .advance t, x4 := s.x4 + 1 }
  /-- The instructions outside the body. -/
  | move (l : Loc) (hs : ∀ j t, s.loc ≠ .body j t) (hl : ∀ j t, l = .body j t → j = 0)
      (hprog : l.progress p.pages = s.loc.progress p.pages) :
      VerifyStep p s m { s with loc := l }

/-- Every instruction of the verifier is one of those listed in `VerifyStep`, and none of them
writes to memory. Of the locations of the pass machine the verifier does not have those of the outer
loop, which belong to the hammer. -/
theorem verifyStep_of_passStep (hp : p.prog = .verify) (hv : s.loc.Valid p.prog p.pages)
    (hstep : passStep p s m = some (s', m')) : m' = m ∧ VerifyStep p s m s' := by
  have hne : p.prog ≠ .hammer := by rw [hp]; decide
  cases hs : s.loc with
  | enter | finish | again =>
      rw [hs] at hv
      exact absurd hv hne
  | doorbell =>
      rw [passStep_doorbell hs] at hstep
      cases hstep
  | advance t =>
      rw [passStep_advance hs, Option.some.injEq, Prod.mk.injEq] at hstep
      obtain ⟨rfl, rfl⟩ := hstep
      exact ⟨rfl, .move _ (by simp [hs]) (by simp) (by rw [hs]; rfl)⟩
  | compare t =>
      rw [passStep_compare hs, Option.some.injEq, Prod.mk.injEq] at hstep
      obtain ⟨rfl, rfl⟩ := hstep
      exact ⟨rfl, .move _ (by simp [hs]) (by simp) (by rw [hs]; rfl)⟩
  | branch t =>
      rw [passStep_branch hs, Option.some.injEq, Prod.mk.injEq] at hstep
      obtain ⟨rfl, rfl⟩ := hstep
      rw [hs] at hv
      have ht : t < p.pages := hv
      refine ⟨rfl, .move _ (by simp [hs]) ?_ ?_⟩
      · intro j i hl
        split_ifs at hl
        simp_all
      · by_cases hlt : t + 1 < p.pages
        · simp [hs, hlt, Loc.progress]
        · have hlast : p.pages = t + 1 := by omega
          simp [hs, hne, Loc.progress, hlast]
  | body j t =>
      have hj : j < 4 := by
        rw [hs, hp] at hv
        exact hv.1
      interval_cases j
      · rw [passStep_body_zero hs] at hstep
        simp only [bodyFirst, hp, Option.some.injEq, Prod.mk.injEq] at hstep
        obtain ⟨rfl, rfl⟩ := hstep
        exact ⟨rfl, .load t hs⟩
      · rw [passStep_compare_word hs hne, Option.some.injEq, Prod.mk.injEq] at hstep
        obtain ⟨rfl, rfl⟩ := hstep
        exact ⟨rfl, .compare t hs⟩
      · rw [passStep_skip hs hne, Option.some.injEq, Prod.mk.injEq] at hstep
        obtain ⟨rfl, rfl⟩ := hstep
        exact ⟨rfl, .skip t hs⟩
      · rw [passStep_count hs, Option.some.injEq, Prod.mk.injEq] at hstep
        obtain ⟨rfl, rfl⟩ := hstep
        exact ⟨rfl, .count t hs⟩

/-- What the verifier's registers hold, whatever it loads: the expected value, and no more
mismatches than pages dealt with. -/
structure Verifying (p : Pass) (s : PState) : Prop where
  x5 : s.x5 = p.value
  x4 : s.x4.toNat ≤ s.loc.progress p.pages

/-- Arming a verification puts the expected value into `x5` and zero into the count. -/
theorem Verifying.start (hp : p.prog = .verify) (c : Cpu) : Verifying p (p.start c) := by
  constructor
  · simp [Pass.start, Pass.arm, armPass, hp, Cpu.set_x]
  · simp [Pass.start, Pass.arm, armPass, hp, Cpu.set_x]

/-- One instruction of the verifier keeps its registers: `x5` is the expected value, and `x4` counts
no more mismatches than there are pages dealt with. -/
theorem Verifying.step (h : Verifying p s) (hv : s.loc.Valid p.prog p.pages)
    (hlt : p.pages < 2 ^ 64) (hstep : VerifyStep p s m s') : Verifying p s' := by
  have h4 := h.x4
  cases hstep with
  | load t hs | compare t hs => exact ⟨h.x5, by rw [hs] at h4; exact h4⟩
  | skip t hs =>
      refine ⟨h.x5, ?_⟩
      rw [hs] at h4
      simp only [Loc.progress] at h4
      split_ifs <;> simp only [Loc.progress] <;> omega
  | count t hs =>
      refine ⟨h.x5, ?_⟩
      rw [hs] at h4 hv
      have ht : t < p.pages := hv.2
      simp only [Loc.progress] at h4 ⊢
      rw [BitVec.toNat_add_of_lt] <;> simp <;> omega
  | move l hs hl hprog => exact ⟨h.x5, by rw [hprog]; exact h4⟩

/-! ## Where a program counter stands -/

/-- The instruction indices of all locations of a program are less than ten, the length of the
longest listing. -/
theorem Loc.index_lt {P : Program} {n : ℕ} {l : Loc} (hv : l.Valid P n) : l.index P < 10 := by
  have hlen : P.lead + P.bodyLen ≤ 4 ∧ P.lead ≤ 1 := by cases P <;> decide
  cases l with
  | body j t =>
      have := hv.1
      simp only [index]
      omega
  | _ =>
      simp only [index]
      omega

/-- Only the verifier runs at the addresses of its load and of its count. -/
theorem pc_verify_iff {P : Program} {j t : ℕ} (hj : j < 10) (ht : t = 0 ∨ t = 3) :
    P.entry + BitVec.ofNat 64 (4 * j) = Program.verify.entry + BitVec.ofNat 64 (4 * t) ↔
      P = .verify ∧ j = t := by
  have hall : ∀ j : Fin 10, (P.entry + BitVec.ofNat 64 (4 * j.1) =
      Program.verify.entry + BitVec.ofNat 64 (4 * t) ↔ P = .verify ∧ j.1 = t) := by
    rcases ht with rfl | rfl <;> cases P <;> decide
  exact hall ⟨j, hj⟩

end VmRatchet.Guest
