import VmRatchet.Soak.Counters

/-!
# Contents: what the two halves of a slot hold

As long as the operating system changes guest memory only by taking pages of a released cold half,
every page of a worker's slot holds, at every statement, the word its thread expects there:

* `Worker.hotWord` — hot pages hold `hot_sweeps` (one more between the sweep and its count, and
  the planted corruption during the self-test);
* `Worker.coldWord` — cold pages hold the stamp of the last fill, one more after the sweep of the
  next cycle, and zero once munmap mode has remapped them; pages taken since the last fill hold
  anything.

`Contents` states this together with what the results of the passes must then be. While a pass is
running, the half it goes over is in between: `Holds` says so with the loop invariant of the pass.
`contents_step` shows that every step of every thread keeps it.
-/

namespace VmRatchet.Soak

open Arm64 ByteMemory Guest

/-! ## The expected words -/

/-- The words the hot half should hold: the count of hot sweeps, already increased while a sweep is
not yet booked, with the planted corruption in the first page during the self-test. -/
def Worker.hotWord (w : Worker) (i : ℕ) : BitVec 64 :=
  match w.stmt with
  | .firstCount | .hotCount _ => w.hotSweeps + 1
  | .plantVerify | .restore => if i = 1 then w.saved ^^^ 0xDEADBEEF else w.hotSweeps
  | _ => w.hotSweeps

/-- What the first `c` cycles leave in the cold half: zero, or the last stamp. -/
def lastFill (k c : ℕ) : BitVec 64 := if c = 0 then 0 else stampOf k (BitVec.ofNat 64 c)

/-- What the reclaim of cycle `c + 1` leaves in the cold pages it does not lose: the swept fill of
the cycle before, or the fresh zero-fill of `mmap(MAP_FIXED)`. -/
def Config.leftover (cfg : Config) (k c : ℕ) : BitVec 64 :=
  match cfg.mode with
  | .reusable => lastFill k c + 1
  | .munmap => 0

/-- The word the cold pages should hold that have not been taken. Inside `reclaim` the pages are
remapped, in munmap mode, when at most the last call is left. -/
def Worker.coldWord (cfg : Config) (k : ℕ) (w : Worker) : BitVec 64 :=
  match w.stmt with
  | .coldSwept | .ledgerBefore => lastFill k w.cycles + 1
  | .reclaim rest =>
      if rest.length ≤ 1 then cfg.leftover k w.cycles else lastFill k w.cycles + 1
  | .ledgerAfter | .reclaimCount | .push | .coldFill => cfg.leftover k w.cycles
  | .coldVerify _ | .coldChecked _ | .coldBad _ | .sleep => w.stamp
  | _ => lastFill k w.cycles

/-! ## The words of a half -/

/-- The first words of the pages of a half are `f`. -/
def Words (cfg : Config) (k : ℕ) (side : Side) (m : Mem) (f : ℕ → BitVec 64) : Prop :=
  ∀ i < cfg.pagesPerHalf, load64 m (cfg.word k side i) = f i

/-- At the start of the current statement the halves held `f`: they still do, or the statement is
a pass over one of them that has got so far. -/
structure Holds (cfg : Config) (k : ℕ) (w : Worker) (m : Mem) (f : Side → ℕ → BitVec 64) :
    Prop where
  idle : w.running = false → ∀ side, Words cfg k side m (f side)
  busy : w.running = true → ∃ p s side, w.pass cfg k = some p ∧
    w.stmt.call = some (side, p.prog) ∧ p.startOff = (cfg.range k side).1 ∧ Sim p s w.cpu ∧
    Effect p (f side) s m ∧ ∀ side', side' ≠ side → Words cfg k side' m (f side')

/-- **Contents.** What holds of worker `k` while the operating system only takes released pages. -/
structure Contents (cfg : Config) (k : ℕ) (w : Worker) (sh : Shared) : Prop where
  halves : ∃ f, Holds cfg k w sh.mem f ∧ (∀ i < cfg.pagesPerHalf, f .hot i = w.hotWord i) ∧
    ∀ i < cfg.pagesPerHalf, w.taken i = false → f .cold i = w.coldWord cfg k
  untaken : w.stmt.released = false → ∀ i, w.taken i = false
  saved : w.stmt = .plantWrite ∨ w.stmt = .plantVerify ∨ w.stmt = .restore → w.saved = w.hotSweeps
  found : w.stmt = .restore ∨ w.stmt = .assertFound → w.found = 1
  clean : w.stmt = .assertClean → w.clean = 0
  bad : ((∃ i, w.stmt = .hotChecked i ∨ w.stmt = .hotBad i) ∨
    ∃ b, w.stmt = .coldChecked b ∨ w.stmt = .coldBad b) → w.bad = 0

section contents

variable {cfg : Config} {k : ℕ} {a : Act} {w w' : Worker} {sh sh' : Shared} {m m' : Mem}
  {f : Side → ℕ → BitVec 64}

/-- The word of a page of a half depends on memory only inside that half. -/
theorem load64_word_congr {side : Side} {i : ℕ} (hi : i < cfg.pagesPerHalf)
    (h : ∀ x, cfg.InRange k side x → m' x = m x) :
    load64 m' (cfg.word k side i) = load64 m (cfg.word k side i) :=
  load64_congr fun b hb =>
    h _ (cfg.toOptions.inRange_of_mem_page k hi (by omega) (by rw [page_eq]; omega))

/-- Whether a half holds given words depends on memory only inside that half. -/
theorem Words.congr {side : Side} {g : ℕ → BitVec 64} (h : Words cfg k side m g)
    (hm : ∀ x, cfg.InRange k side x → m' x = m x) : Words cfg k side m' g :=
  fun i hi => (load64_word_congr hi hm).trans (h i hi)

/-- Two memories hold the same first words in the slot of worker `k`. -/
def SameWords (cfg : Config) (k : ℕ) (m m' : Mem) : Prop :=
  ∀ side, ∀ i < cfg.pagesPerHalf, load64 m' (cfg.word k side i) = load64 m (cfg.word k side i)

/-- Two memories that agree on the slot agree in the first words of its pages. -/
theorem SameWords.of_slot (h : ∀ x, cfg.InSlot k x → m' x = m x) : SameWords cfg k m m' :=
  fun _ _ hi => load64_word_congr hi fun x hx => h x hx.inSlot

/-- What a slot is expected to hold depends on memory only through the first words of its pages. -/
theorem Holds.congr (h : Holds cfg k w m f) (hm : SameWords cfg k m m') :
    Holds cfg k w m' f where
  idle hr side i hi := (hm side i hi).trans (h.idle hr side i hi)
  busy hr := by
    obtain ⟨p, s, side, hp, hcall, hside, hs, heff, hrest⟩ := h.busy hr
    refine ⟨p, s, side, hp, hcall, hside, hs, heff.congr_mem fun i hi => ?_, ?_⟩
    · rw [pass_pages hp] at hi
      rw [pass_word hside]
      exact hm side i hi
    · intro side' hne i hi
      exact (hm side' i hi).trans (hrest side' hne i hi)

/-- What leaves the first words alone leaves the contents alone. -/
theorem Contents.congr (h : Contents cfg k w sh) (hm : SameWords cfg k sh.mem sh'.mem) :
    Contents cfg k w sh' where
  halves := by
    obtain ⟨f, hf, hhot, hcold⟩ := h.halves
    exact ⟨f, hf.congr hm, hhot, hcold⟩
  untaken := h.untaken
  saved := h.saved
  found := h.found
  clean := h.clean
  bad := h.bad

/-- The corruption that the self-test plants changes the word, whatever it was: the exclusive or
with a number other than zero does. -/
theorem xor_corruption_ne (v : BitVec 64) : v ^^^ 0xDEADBEEF#64 ≠ v := by
  intro h
  have h' : v ^^^ 0xDEADBEEF#64 = v ^^^ 0#64 := by rw [h, BitVec.xor_zero]
  rw [BitVec.xor_right_inj] at h'
  exact absurd h' (by decide)

/-! ## Passes -/

/-- Arming a pass: from now on the half is described by the loop invariant. -/
theorem Holds.enter {p : Pass} (hpos : 0 < p.pages) (hp : w.pass cfg k = some p)
    (hr : w.running = false) (h : Holds cfg k w m f) :
    ∃ g, Holds cfg k (w.enter p) m g ∧ ∀ side, ∀ i < cfg.pagesPerHalf, g side i = f side i := by
  obtain ⟨side, hcall, hside, -⟩ := pass_range hp
  refine ⟨fun side i => load64 m (cfg.word k side i), ⟨fun hr' => ?_, fun _ => ?_⟩, ?_⟩
  · cases hr'
  · refine ⟨p, p.start w.cpu, side, hp, hcall, hside, sim_arm p w.cpu hpos, ?_, ?_⟩
    · have heff := Effect.start p w.cpu m hpos
      simp only [pass_word hside] at heff
      exact heff
    · intro side' _ i _
      rfl
  · intro side i hi
    exact h.idle hr side i hi

/-- A guest instruction inside a pass keeps the words as they should be: the half the pass goes over
is as the effect of the pass says at its new position, and the other half is as it was. -/
theorem Holds.ran {p : Pass} {s s' : PState} {c' : Cpu} {cs : List Check} {side : Side}
    (hp : w.pass cfg k = some p) (hcall : w.stmt.call = some (side, p.prog))
    (hside : p.startOff = (cfg.range k side).1) (hs : Sim p s w.cpu) (hpos : 0 < p.pages)
    (heff : Effect p (f side) s m)
    (hrest : ∀ side', side' ≠ side → Words cfg k side' m (f side'))
    (hstep : passStep p s m = some (s', m')) (hs' : Sim p s' c') (hr : w.running = true) :
    Holds cfg k { w with cpu := c', checks := cs } m' f where
  idle hr' := by
    rw [hr] at hr'
    cases hr'
  busy _ := by
    refine ⟨p, s', side, hp, hcall, hside, hs', heff.step hpos hstep, ?_⟩
    intro side' hne
    refine (hrest side' hne).congr fun x hx => ?_
    exact passStep_mem_outside hp hs hstep hside fun hx' => hne (hx.side_eq hx')

/-- The pass returns: its half holds the new words, the other one what it held. -/
theorem Holds.ring {p : Pass} {s : PState} {side : Side} (hp : w.pass cfg k = some p)
    (hside : p.startOff = (cfg.range k side).1) (heff : Effect p (f side) s m)
    (hrest : ∀ side', side' ≠ side → Words cfg k side' m (f side')) (hloc : s.loc = .doorbell) :
    Holds cfg k w.ring m fun side' i =>
      if side' = side then p.newWord i (f side i) else f side' i where
  idle _ := by
    intro side' i hi
    by_cases hs : side' = side
    · subst hs
      have := heff.done hloc i (by rw [pass_pages hp]; exact hi)
      rw [pass_word hside] at this
      simp only [this, if_true]
    · simp only [hrest side' hs i hi, if_neg hs]
  busy hr := by cases hr

/-- A pass over the hot half returns: the cold half stays, and what has been taken of it. -/
theorem halves_ring_hot {p : Pass} {s : PState} (hp : w.pass cfg k = some p)
    (hside : p.startOff = (cfg.range k .hot).1) (heff : Effect p (f .hot) s m)
    (hrest : ∀ side, side ≠ .hot → Words cfg k side m (f side)) (hloc : s.loc = .doorbell)
    (hhot : ∀ i < cfg.pagesPerHalf, f .hot i = w.hotWord i)
    (hcold : ∀ i < cfg.pagesPerHalf, w.taken i = false → f .cold i = w.coldWord cfg k)
    (hnew : ∀ i, p.newWord i (w.hotWord i) = w.ring.hotWord i)
    (hkeep : w.ring.coldWord cfg k = w.coldWord cfg k) (htaken : w.ring.taken = w.taken) :
    ∃ g, Holds cfg k w.ring m g ∧ (∀ i < cfg.pagesPerHalf, g .hot i = w.ring.hotWord i) ∧
      ∀ i < cfg.pagesPerHalf, w.ring.taken i = false → g .cold i = w.ring.coldWord cfg k := by
  refine ⟨_, Holds.ring hp hside heff hrest hloc, fun i hi => ?_, fun i hi ht => ?_⟩
  · rw [if_pos rfl, hhot i hi, hnew]
  · rw [htaken] at ht
    rw [if_neg (by simp), hkeep]
    exact hcold i hi ht

/-- When a pass over the cold half returns, the hot half holds what it did, and the cold half what
the effect of the pass says. -/
theorem halves_ring_cold {p : Pass} {s : PState} (hp : w.pass cfg k = some p)
    (hside : p.startOff = (cfg.range k .cold).1) (heff : Effect p (f .cold) s m)
    (hrest : ∀ side, side ≠ .cold → Words cfg k side m (f side)) (hloc : s.loc = .doorbell)
    (hhot : ∀ i < cfg.pagesPerHalf, f .hot i = w.hotWord i)
    (hkeep : ∀ i, w.ring.hotWord i = w.hotWord i)
    (hnew : ∀ i < cfg.pagesPerHalf, w.ring.taken i = false →
      p.newWord i (f .cold i) = w.ring.coldWord cfg k) :
    ∃ g, Holds cfg k w.ring m g ∧ (∀ i < cfg.pagesPerHalf, g .hot i = w.ring.hotWord i) ∧
      ∀ i < cfg.pagesPerHalf, w.ring.taken i = false → g .cold i = w.ring.coldWord cfg k := by
  refine ⟨_, Holds.ring hp hside heff hrest hloc, fun i hi => ?_, fun i hi ht => ?_⟩
  · rw [if_neg (by simp), hkeep]
    exact hhot i hi
  · rw [if_pos rfl]
    exact hnew i hi ht

/-- When a pass returns, both halves hold what is expected at the statement it returns to, and a
verification returns the count that is expected there. One case for each statement that calls a
pass: a sweep adds one to its half, a fill replaces it, a verification leaves it; the planted
corruption is counted once, and clean memory not at all. -/
theorem contents_ring {p : Pass} {s : PState} {side : Side} (hC : Contents cfg k w sh)
    (hp : w.pass cfg k = some p) (hcall : w.stmt.call = some (side, p.prog))
    (hside : p.startOff = (cfg.range k side).1) (hs : Sim p s w.cpu)
    (heff : Effect p (f side) s sh.mem)
    (hrest : ∀ side', side' ≠ side → Words cfg k side' sh.mem (f side'))
    (hhot : ∀ i < cfg.pagesPerHalf, f .hot i = w.hotWord i)
    (hcold : ∀ i < cfg.pagesPerHalf, w.taken i = false → f .cold i = w.coldWord cfg k)
    (hloc : s.loc = .doorbell) : Contents cfg k w.ring sh := by
  have hpages := pass_pages hp
  have hn := cfg.le_pagesPerHalf
  have hresult := fun hprog => verify_result hs heff hloc hprog
  rw [hpages] at hresult
  have huntaken := hC.untaken
  have hp' := hp
  cases hst : w.stmt <;> simp only [hst, Stmt.call, Option.some.injEq, Prod.mk.injEq,
    reduceCtorEq] at hcall <;> obtain ⟨rfl, hprog⟩ := hcall <;>
    simp only [Worker.pass, hst, Stmt.call, Option.map_some, Option.some.injEq] at hp'
  all_goals
    rw [hst] at huntaken
    subst hp'
  case firstSweep | hotSweep =>
    refine ⟨halves_ring_hot hp hside heff hrest hloc hhot hcold ?_ ?_ ?_, ?_, ?_, ?_, ?_, ?_⟩
    · simp [Worker.hotWord, Worker.ring, hst, Stmt.afterPass, Pass.newWord]
    · simp [Worker.coldWord, Worker.ring, hst, Stmt.afterPass]
    · simp [Worker.ring, hst]
    · simpa [Worker.ring, hst, Stmt.afterPass, Stmt.released] using huntaken
    all_goals simp [Worker.ring, hst, Stmt.afterPass]
  case plantVerify =>
    have hsaved := hC.saved (.inr (.inl hst))
    have hfound : w.cpu.x 4#5 = 1#64 := by
      rw [hresult rfl, mismatchCount_eq_one (j := 1) (by omega)]
      intro i hi
      rw [hhot i hi]
      by_cases hi1 : i = 1
      · refine iff_of_false ?_ (by simp [hi1])
        simp only [Worker.hotWord, hst, hi1, hsaved, if_true]
        exact xor_corruption_ne _
      · simp [Worker.hotWord, hst, hi1]
    refine ⟨halves_ring_hot hp hside heff hrest hloc hhot hcold ?_ ?_ ?_, ?_, ?_, ?_, ?_, ?_⟩
    · simp [Worker.hotWord, Worker.ring, hst, Stmt.afterPass, Pass.newWord]
    · simp [Worker.coldWord, Worker.ring, hst, Stmt.afterPass]
    · simp [Worker.ring, hst]
    · simpa [Worker.ring, hst, Stmt.afterPass, Stmt.released] using huntaken
    · simp [Worker.ring, hst, Stmt.afterPass, hsaved]
    · simp [Worker.ring, hst, Stmt.afterPass, hfound]
    all_goals simp [Worker.ring, hst, Stmt.afterPass]
  case cleanVerify | hotVerify =>
    have hzero : w.cpu.x 4#5 = 0#64 := by
      rw [hresult rfl, mismatchCount_eq_zero]
      intro i hi
      simp [hhot i hi, Worker.hotWord, hst]
    refine ⟨halves_ring_hot hp hside heff hrest hloc hhot hcold ?_ ?_ ?_, ?_, ?_, ?_, ?_, ?_⟩
    · simp [Worker.hotWord, Worker.ring, hst, Stmt.afterPass, Pass.newWord]
    · simp [Worker.coldWord, Worker.ring, hst, Stmt.afterPass]
    · simp [Worker.ring, hst]
    · simpa [Worker.ring, hst, Stmt.afterPass, Stmt.released] using huntaken
    all_goals simp [Worker.ring, hst, Stmt.afterPass, hzero]
  case coldSweep =>
    refine ⟨halves_ring_cold hp hside heff hrest hloc hhot ?_ fun i hi ht => ?_,
      ?_, ?_, ?_, ?_, ?_⟩
    · simp [Worker.hotWord, Worker.ring, hst, Stmt.afterPass]
    · have := hcold i hi (by simpa [Worker.ring, hst] using ht)
      simp [Worker.coldWord, Worker.ring, hst, Stmt.afterPass, Pass.newWord, this]
    · simpa [Worker.ring, hst, Stmt.afterPass, Stmt.released] using huntaken
    all_goals simp [Worker.ring, hst, Stmt.afterPass]
  case coldFill =>
    refine ⟨halves_ring_cold hp hside heff hrest hloc hhot ?_ ?_, ?_, ?_, ?_, ?_, ?_⟩
    · simp [Worker.hotWord, Worker.ring, hst, Stmt.afterPass]
    · simp [Worker.coldWord, Worker.ring, hst, Stmt.afterPass, Pass.newWord]
    all_goals simp [Worker.ring, hst, Stmt.afterPass]
  case coldVerify =>
    have hzero : w.cpu.x 4#5 = 0#64 := by
      rw [hresult rfl, mismatchCount_eq_zero]
      intro i hi
      simp [hcold i hi (huntaken rfl i), Worker.coldWord, hst]
    refine ⟨halves_ring_cold hp hside heff hrest hloc hhot ?_ fun i hi _ => ?_,
      ?_, ?_, ?_, ?_, ?_⟩
    · simp [Worker.hotWord, Worker.ring, hst, Stmt.afterPass]
    · have := hcold i hi (huntaken rfl i)
      simp [Worker.coldWord, Worker.ring, hst, Stmt.afterPass, Pass.newWord, this]
    · simpa [Worker.ring, hst, Stmt.afterPass, Stmt.released] using huntaken
    all_goals simp [Worker.ring, hst, Stmt.afterPass, hzero]

/-! ## Host statements -/

/-- A store to the first word of a hot page changes the word of that page and of no other. -/
theorem Words.store {g : ℕ → BitVec 64} (h : Words cfg k .hot m g) {j : ℕ} {v : BitVec 64} :
    Words cfg k .hot (store64 m (cfg.word k .hot j) v) (fun i => if i = j then v else g i) := by
  intro i hi
  by_cases hij : i = j
  · subst hij
    simp
  · have hdis : cfg.word k .hot i + 8 ≤ cfg.word k .hot j ∨
        cfg.word k .hot j + 8 ≤ cfg.word k .hot i := by
      unfold Options.word page
      omega
    simp only [load64_store64_of_disjoint hdis, h i hi, if_neg hij]

/-- A store to a hot page leaves the words of the cold half alone. -/
theorem Words.store_cold {g : ℕ → BitVec 64} (h : Words cfg k .cold m g) {j : ℕ} {v : BitVec 64}
    (hj : j < cfg.pagesPerHalf) : Words cfg k .cold (store64 m (cfg.word k .hot j) v) g := by
  refine h.congr fun x hx => store64_apply_of_not_mem ?_
  by_contra hc
  have hin : cfg.InRange k .hot x :=
    cfg.toOptions.inRange_of_mem_page k hj (by omega) (by rw [page_eq]; omega)
  cases hx.side_eq hin

/-- Where no pass is running, a slot holds what is expected if the words of both halves are as
expected. -/
theorem Holds.of_words (hr : w.running = false) (h : ∀ side, Words cfg k side m (f side)) :
    Holds cfg k w m f :=
  ⟨fun _ => h, fun hr' => by rw [hr] at hr'; cases hr'⟩

/-- The self-test's store to the victim page keeps the contents, if the new statement expects at
page 1 of the hot half the value that is stored and at every other page what was there before. -/
theorem contents_plant {st : Stmt} {v : BitVec 64} (hC : Contents cfg k w sh)
    (hr : w.running = false) (hrel : st.released = false) (hrel' : w.stmt.released = false)
    (hhot : ∀ i < cfg.pagesPerHalf,
      (if i = 1 then v else w.hotWord i) = ({ w with stmt := st } : Worker).hotWord i)
    (hcold : w.coldWord cfg k = ({ w with stmt := st } : Worker).coldWord cfg k)
    (hsaved : w.saved = w.hotSweeps) (hfound : st = .restore ∨ st = .assertFound → w.found = 1)
    (hrest : st = .plantVerify ∨ st = .assertFound) :
    Contents cfg k { w with stmt := st }
      { sh with mem := store64 sh.mem (ramGpa + cfg.victim k) v } := by
  obtain ⟨f, hf, hh, hc⟩ := hC.halves
  have hn := cfg.le_pagesPerHalf
  rw [Options.victim_word]
  refine ⟨⟨fun side => side.casesOn (fun i => if i = 1 then v else f .hot i) (f .cold),
    Holds.of_words hr ?_, ?_, ?_⟩, fun _ => hC.untaken hrel', fun _ => hsaved, hfound, ?_, ?_⟩
  · rintro (_ | _)
    · exact (hf.idle hr .hot).store
    · exact (hf.idle hr .cold).store_cold (by omega)
  · intro i hi
    rw [← hhot i hi]
    simp only [hh i hi]
  · intro i hi ht
    rw [← hcold]
    exact hc i hi ht
  · rcases hrest with rfl | rfl <;> simp
  · rcases hrest with rfl | rfl <;> simp

/-- A statement that leaves guest memory alone keeps the contents, if what is expected of memory
stays the same and the facts that the new statement rests on (the saved word, the two counts of the
self-test, that nothing bad was found) are there. -/
theorem contents_keep (hC : Contents cfg k w sh) (hr : w.running = false)
    (hr' : w'.running = false) (hm : sh'.mem = sh.mem) (ht : w'.taken = w.taken)
    (hhot : ∀ i, w'.hotWord i = w.hotWord i) (hcold : w'.coldWord cfg k = w.coldWord cfg k)
    (hrel : w'.stmt.released = false → w.stmt.released = false)
    (hsaved : w'.stmt = .plantWrite ∨ w'.stmt = .plantVerify ∨ w'.stmt = .restore →
      w'.saved = w'.hotSweeps)
    (hfound : w'.stmt = .restore ∨ w'.stmt = .assertFound → w'.found = 1)
    (hclean : w'.stmt = .assertClean → w'.clean = 0)
    (hbad : ((∃ i, w'.stmt = .hotChecked i ∨ w'.stmt = .hotBad i) ∨
      ∃ b, w'.stmt = .coldChecked b ∨ w'.stmt = .coldBad b) → w'.bad = 0) :
    Contents cfg k w' sh' := by
  obtain ⟨f, hf, hh, hc⟩ := hC.halves
  refine ⟨⟨f, Holds.of_words hr' ?_, ?_, ?_⟩, ?_, hsaved, hfound, hclean, hbad⟩
  · rw [hm]
    exact hf.idle hr
  · intro i hi
    rw [hhot]
    exact hh i hi
  · intro i hi hti
    rw [hcold]
    exact hc i hi (by rw [← ht]; exact hti)
  · intro hrel'
    rw [ht]
    exact hC.untaken (hrel hrel')

/-- **A host statement keeps the contents.** Whatever statement of the source a worker executes
between its passes, memory holds afterwards what is expected at the statement it comes to. Only the
self-test writes to memory between passes, when it plants its corruption and restores the word it
has read; all other statements move counters to where the words already are. -/
theorem contents_host (hV : Vars k w) (hC : Contents cfg k w sh) (hr : w.running = false)
    (h : w.host cfg k sh = some (w', sh')) : Contents cfg k w' sh' := by
  cases hst : w.stmt
  case plantWrite =>
    simp only [Worker.host, hst, Option.some.injEq, Prod.mk.injEq] at h
    obtain ⟨rfl, rfl⟩ := h
    refine contents_plant hC hr rfl (by rw [hst]; rfl) ?_ ?_ (hC.saved (.inl hst)) (by simp)
      (.inl rfl)
    · intro i hi
      simp [Worker.hotWord, hst]
    · simp [Worker.coldWord, hst]
  case restore =>
    simp only [Worker.host, hst, Option.some.injEq, Prod.mk.injEq] at h
    obtain ⟨rfl, rfl⟩ := h
    have hsaved := hC.saved (.inr (.inr hst))
    refine contents_plant hC hr rfl (by rw [hst]; rfl) ?_ ?_ hsaved ?_ (.inr rfl)
    · intro i hi
      by_cases hi1 : i = 1 <;> simp [Worker.hotWord, hst, hi1, hsaved]
    · simp [Worker.coldWord, hst]
    · intro _
      exact hC.found (.inl hst)
  case plantRead =>
    simp only [Worker.host, hst, Option.some.injEq, Prod.mk.injEq] at h
    obtain ⟨rfl, rfl⟩ := h
    have hsaved : load64 sh.mem (ramGpa + cfg.victim k) = w.hotSweeps := by
      obtain ⟨f, hf, hh, -⟩ := hC.halves
      have hn := cfg.le_pagesPerHalf
      rw [Options.victim_word, hf.idle hr .hot 1 (by omega), hh 1 (by omega)]
      simp [Worker.hotWord, hst]
    refine contents_keep hC hr hr rfl rfl ?_ ?_ ?_ (fun _ => hsaved) ?_ ?_ ?_ <;>
      simp [Worker.hotWord, Worker.coldWord, hst, Stmt.released]
  case hotChecked i =>
    simp only [Worker.host, hst, Option.some.injEq, Prod.mk.injEq] at h
    obtain ⟨rfl, rfl⟩ := h
    refine contents_keep hC hr hr rfl rfl ?_ ?_ ?_ ?_ ?_ ?_
      (fun _ => hC.bad (.inl ⟨i, .inl hst⟩)) <;>
      simp [Worker.hotWord, Worker.coldWord, hst, Stmt.released]
  case coldChecked again =>
    simp only [Worker.host, hst, Option.some.injEq, Prod.mk.injEq] at h
    obtain ⟨rfl, rfl⟩ := h
    refine contents_keep hC hr hr rfl rfl ?_ ?_ ?_ ?_ ?_ ?_
      (fun _ => hC.bad (.inr ⟨again, .inl hst⟩)) <;>
      simp [Worker.hotWord, Worker.coldWord, hst, Stmt.released]
  case coldBad again =>
    simp only [Worker.host, hst, Option.some.injEq, Prod.mk.injEq] at h
    obtain ⟨rfl, rfl⟩ := h
    have hstamp : w.stamp = lastFill k (w.cycles + 1) := by
      have h1 := hV.stamp (by rw [hst]; rfl)
      have h2 := hV.cycle
      rw [hst] at h2
      rw [h1, h2]
      simp [lastFill]
    cases again <;> refine contents_keep hC hr hr rfl rfl ?_ ?_ ?_ ?_ ?_ ?_ ?_ <;>
      simp [Worker.hotWord, Worker.coldWord, hst, Stmt.released, hstamp]
  case hotBad i =>
    by_cases hlt : i + 1 < hotSweepsPerCycle
    · simp only [Worker.host, hst, if_pos hlt, Option.some.injEq, Prod.mk.injEq] at h
      obtain ⟨rfl, rfl⟩ := h
      refine contents_keep hC hr hr rfl rfl ?_ ?_ ?_ ?_ ?_ ?_ ?_ <;>
        simp [Worker.hotWord, Worker.coldWord, hst, Stmt.released]
    · simp only [Worker.host, hst, if_neg hlt, Option.some.injEq, Prod.mk.injEq] at h
      obtain ⟨rfl, rfl⟩ := h
      refine contents_keep hC hr hr rfl rfl ?_ ?_ ?_ ?_ ?_ ?_ ?_ <;>
        simp [Worker.hotWord, Worker.coldWord, hst, Stmt.released]
  case firstCount =>
    simp only [Worker.host, hst, Option.some.injEq, Prod.mk.injEq] at h
    obtain ⟨rfl, rfl⟩ := h
    by_cases hk : k = 0 <;> refine contents_keep hC hr hr rfl rfl ?_ ?_ ?_ ?_ ?_ ?_ ?_ <;>
      simp [Worker.hotWord, Worker.coldWord, hst, Stmt.released, hk]
  case deadline =>
    simp only [Worker.host, hst, Option.some.injEq, Prod.mk.injEq] at h
    obtain ⟨rfl, rfl⟩ := h
    cases he : sh.expired <;> refine contents_keep hC hr hr rfl rfl ?_ ?_ ?_ ?_ ?_ ?_ ?_ <;>
      simp [Worker.hotWord, Worker.coldWord, hst, Stmt.released]
  case assertFound =>
    have hfound := hC.found (.inr hst)
    simp only [Worker.host, hst, if_pos hfound, Option.some.injEq, Prod.mk.injEq] at h
    obtain ⟨rfl, rfl⟩ := h
    refine contents_keep hC hr hr rfl rfl ?_ ?_ ?_ ?_ ?_ ?_ ?_ <;>
      simp [Worker.hotWord, Worker.coldWord, hst, Stmt.released]
  case assertClean =>
    have hclean := hC.clean hst
    simp only [Worker.host, hst, if_pos hclean, Option.some.injEq, Prod.mk.injEq] at h
    obtain ⟨rfl, rfl⟩ := h
    refine contents_keep hC hr hr rfl rfl ?_ ?_ ?_ ?_ ?_ ?_ ?_ <;>
      simp [Worker.hotWord, Worker.coldWord, hst, Stmt.released]
  case ledgerBefore =>
    -- all calls of the reclaim are still ahead
    have hlong : ¬ (reclaimCalls cfg.ram (cfg.cold k) cfg.mode cfg.advice).length ≤ 1 :=
      fun hle => absurd (length_reclaimCalls.trans hle) (by decide)
    simp only [Worker.host, hst, Option.some.injEq, Prod.mk.injEq] at h
    obtain ⟨rfl, rfl⟩ := h
    refine contents_keep hC hr hr rfl rfl ?_ ?_ ?_ ?_ ?_ ?_ ?_ <;>
      simp [Worker.hotWord, Worker.coldWord, hst, Stmt.released, hlong]
  case reclaim rest =>
    cases rest <;>
      simp only [Worker.host, hst, Option.some.injEq, Prod.mk.injEq, reduceCtorEq] at h
    obtain ⟨rfl, rfl⟩ := h
    refine contents_keep hC hr hr rfl rfl ?_ ?_ ?_ ?_ ?_ ?_ ?_ <;>
      simp [Worker.hotWord, Worker.coldWord, hst, Stmt.released]
  all_goals
    simp only [Worker.host, hst, Option.some.injEq, Prod.mk.injEq, reduceCtorEq] at h
    all_goals
      obtain ⟨rfl, rfl⟩ := h
      refine contents_keep hC hr hr rfl rfl ?_ ?_ ?_ ?_ ?_ ?_ ?_ <;>
        simp [Worker.hotWord, Worker.coldWord, hst, Stmt.released]

/-! ## Every step keeps the contents -/

/-- When the operating system takes a page of the released cold half, the contents stay as expected,
since nothing is expected of a released half. -/
theorem contents_take {j : ℕ} {bytes : ℕ → BitVec 8} (hC : Contents cfg k w sh)
    (hrel : w.stmt.released = true) (hr : w.running = false) (hj : j < cfg.pagesPerHalf) :
    Contents cfg k { w with taken := fun i => i = j || w.taken i }
      { sh with mem := fun a =>
          if cfg.word k .cold j ≤ a ∧ a < cfg.word k .cold j + page then
            bytes (a - cfg.word k .cold j) else sh.mem a } := by
  obtain ⟨f, hf, hh, hc⟩ := hC.halves
  refine ⟨⟨fun side i => load64 _ (cfg.word k side i), Holds.of_words hr fun side i _ => rfl,
    fun i hi => ?_, fun i hi ht => ?_⟩, ?_, hC.saved, hC.found, hC.clean, hC.bad⟩
  · -- the hot half shares no byte with the page
    refine Eq.trans (load64_word_congr hi fun x hx => if_neg fun hx' => ?_)
      ((hf.idle hr .hot i hi).trans (hh i hi))
    cases hx.side_eq (cfg.toOptions.inRange_of_mem_page k hj hx'.1 hx'.2)
  · obtain ⟨hne, ht'⟩ : i ≠ j ∧ w.taken i = false := by simpa using ht
    refine Eq.trans (load64_congr fun b hb => if_neg fun hx' => hne ?_)
      ((hf.idle hr .cold i hi).trans (hc i hi ht'))
    unfold Options.word page at hx'
    omega
  · intro hrel'
    rw [hrel] at hrel'
    cases hrel'

/-- What the next call of a reclaim makes of the expected cold word: zero if it remaps the pages,
and otherwise what it was. -/
theorem coldWord_call {c : Call} {rest : List Call} (hs : w.stmt = .reclaim (c :: rest))
    (hcalls : c :: rest <:+ reclaimCalls cfg.ram (cfg.cold k) cfg.mode cfg.advice) :
    ({ w with stmt := .reclaim rest } : Worker).coldWord cfg k =
      if c.remaps then 0 else w.coldWord cfg k := by
  obtain ⟨hremap, hkeep⟩ := remaps_reclaimCalls hcalls
  cases hr : c.remaps with
  | true =>
      obtain ⟨hmode, -, hlen⟩ := hremap hr
      simp [Worker.coldWord, hlen, Config.leftover, hmode]
  | false =>
      cases hmode : cfg.mode with
      | reusable => simp [Worker.coldWord, hs, Config.leftover, hmode]
      | munmap =>
          have hlen := hkeep hr hmode
          simp only [Worker.coldWord, hs, hlen]
          rfl

/-- **A call of `reclaim` keeps the contents**: the cold half is as it was, or zeroed and expected
to be. -/
theorem contents_call {released : ℕ} {c : Call} {rest : List Call} (hctl : Control cfg k w sh)
    (hC : Contents cfg k w sh) (hs : w.stmt = .reclaim (c :: rest)) :
    Contents cfg k { w with stmt := .reclaim rest }
      { sh.call cfg.ram c with footprint := sh.footprint - released } := by
  have hr : w.running = false := by
    by_contra hr
    obtain ⟨p, s, hp, -⟩ := hctl.inside (by simpa using hr)
    simp [Worker.pass, hs, Stmt.call] at hp
  have hcalls := hctl.calls _ hs
  have hmem : (sh.call cfg.ram c).mem = _ := call_mem hcalls
  have hword := coldWord_call (w := w) hs hcalls
  obtain ⟨f, hf, hh, hc⟩ := hC.halves
  refine ⟨⟨fun side => side.casesOn (f .hot) (fun i => if c.remaps then 0 else f .cold i),
    Holds.of_words hr ?_, fun i hi => ?_, fun i hi ht => ?_⟩, fun hrel => ?_, ?_, ?_, ?_, ?_⟩
  · rintro (_ | _)
    · -- the hot half shares no byte with the range of the calls
      refine (hf.idle hr .hot).congr fun x hx => call_mem_outside hcalls fun hx' => ?_
      cases hx.side_eq hx'
    · intro i hi
      have hend := cfg.toOptions.word_add_page_le k .cold hi
      simp only [hmem]
      split_ifs
      · refine load64_setRange_zero ⟨?_, ?_⟩
        · exact Nat.le_add_right _ _
        · simp only [Options.range, page_eq] at hend
          omega
      · exact hf.idle hr .cold i hi
  · simpa [Worker.hotWord, hs] using hh i hi
  · rw [hword]
    split_ifs
    · rfl
    · exact hc i hi ht
  · cases hrel
  all_goals simp

/-- A worker's own step, of whatever kind, keeps the contents of its slot as expected. -/
theorem contents_own (hk : k < cfg.vcpuCount) (hctl : Control cfg k w sh) (hV : Vars k w)
    (hC : Contents cfg k w sh) (h : w.step cfg k a sh = some (w', sh')) :
    Contents cfg k w' sh' := by
  obtain ⟨-, h⟩ := Worker.step_inv h
  cases h with
  | cancel => exact hC
  | fail =>
      obtain ⟨f, hf, hh, hc⟩ := hC.halves
      exact ⟨⟨f, ⟨hf.idle, hf.busy⟩, hh, hc⟩, hC.untaken, hC.saved, hC.found, hC.clean, hC.bad⟩
  | take hs hr hi => exact contents_take hC hs hr hi
  | host hr hp h => exact contents_host hV hC hr h
  | @enter p hr hp =>
      obtain ⟨f, hf, hh, hc⟩ := hC.halves
      obtain ⟨g, hg, hgf⟩ := hf.enter (p.pages_pos (hctl.fits hk hp).lt) hp hr
      refine ⟨⟨g, hg, fun i hi => (hgf .hot i hi).trans (hh i hi), fun i hi ht =>
        (hgf .cold i hi).trans (hc i hi ht)⟩, hC.untaken, hC.saved, hC.found, hC.clean, hC.bad⟩
  | call hs hle => exact contents_call hctl hC hs
  | guest hr =>
      obtain ⟨f, hf, hh, hc⟩ := hC.halves
      obtain ⟨p, s, side, hp, hcall, hside, hs, heff, hrest⟩ := hf.busy hr
      rcases hctl.guest hk hp hs with ⟨hloc, hg⟩ | ⟨s', m', c', hstep, hs', hg⟩
      · rw [hg]
        exact contents_ring hC hp hcall hside hs heff hrest hh hc hloc
      · rw [hg]
        have hpos := p.pages_pos (hctl.fits hk hp).lt
        exact ⟨⟨f, Holds.ran hp hcall hside hs hpos heff hrest hstep hs' hr, hh, hc⟩, hC.untaken,
          hC.saved, hC.found, hC.clean, hC.bad⟩

/-- The operating system zeroes no guest page: of guest memory it changes released pages only. -/
def QuietOS (_ : Proc) (l : Move) : Prop := ∀ a n, l ≠ .env (.zero a n)

/-- Control, local counters and contents of every worker, the invariant of a soak in which nothing
is lost. -/
def Intact (cfg : Config) (k : ℕ) (w : Worker) (sh : Shared) : Prop :=
  Control cfg k w sh ∧ Vars k w ∧ Contents cfg k w sh

/-- **The contents are kept by every step of the process**, under a quiet operating system. -/
theorem intact_step (st : Proc) (l : Move) (st' : Proc) (hl : QuietOS st l)
    (h : (soak cfg).Everywhere (Intact cfg) st) (hstep : (soak cfg).step st l = some st') :
    (soak cfg).Everywhere (Intact cfg) st' := by
  refine Threads.System.local_invariant (P := QuietOS) ?_ ?_ ?_ st l st' hl h hstep
  · intro st k a w' sh' _ hk hI hact
    obtain ⟨hctl, hV, hC⟩ := hI k hk
    exact ⟨control_own hk hctl hact, vars_own hk hctl hV hact, contents_own hk hctl hV hC hact⟩
  · intro st k j a w' sh' _ hk hj hjk hI hact
    obtain ⟨hctl, hV, hC⟩ := hI j hj
    refine ⟨control_other hk hjk (hI k hk).1 hact hctl, hV, hC.congr (.of_slot fun x hx => ?_)⟩
    exact step_mem_outside hk (hI k hk).1 hact fun hx' => hjk (hx'.ne hx)
  · intro st e sh' hquiet hI henv j hj
    obtain ⟨hctl, hV, hC⟩ := hI j hj
    refine ⟨control_env henv hctl, hV, hC.congr (.of_slot fun x _ => ?_)⟩
    rw [(env_frame henv).mem fun a n he => hquiet a n (by rw [he])]

/-- The process starts with the expected contents: RAM is zero, and that is what every worker
expects before its first sweep. -/
theorem intact_initial {st : Proc} (h : Initial cfg st) :
    (soak cfg).Everywhere (Intact cfg) st := by
  intro k hk
  refine ⟨control_initial h k hk, (counts_initial h).vars k hk, ?_⟩
  have hzero : ∀ side, Words cfg k side st.shared.mem fun _ => 0 := by
    intro side i hi
    have hcongr : load64 st.shared.mem (cfg.word k side i) =
        load64 (fun _ => 0) (cfg.word k side i) := by
      refine load64_word_congr hi fun x hx => ?_
      obtain ⟨hlo, hhi⟩ := hx.inSlot.in_ram hk
      exact h.zeroed x hlo hhi
    rw [hcongr]
    simp [load64, wordNat]
  obtain ⟨cpu, hw⟩ := h.fresh k
  rw [hw]
  refine ⟨⟨fun _ _ => 0, Holds.of_words rfl hzero, fun i _ => rfl, fun i _ _ => rfl⟩,
    fun _ _ => rfl, ?_, ?_, ?_, ?_⟩ <;> simp

/-- The contents are as expected in every state a quiet operating system leads to. -/
theorem intact_run {st st' : Proc} {ls : List Move} (h : Initial cfg st)
    (hquiet : Transition.Along (soak cfg).step QuietOS st ls)
    (hrun : Transition.run (soak cfg).step st ls = some st') :
    (soak cfg).Everywhere (Intact cfg) st' :=
  Transition.run_invariant intact_step hquiet (intact_initial h) hrun

end contents

end VmRatchet.Soak
