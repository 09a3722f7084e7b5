import Mathlib.Data.List.DropRight
import VmRatchet.Lib.Run

/-!
# A program and its sampler

A program works and announces on a common output what it has done; a thread beside it takes a
reading, prints it, and begins again until it is told to stop. A reading is taken at one moment and
printed at another, and the program goes on in between. What can be said of a reading from its
place in the output alone is the subject of this file.

* `State`, `step` — the two threads.
* `Sound`, `sound_run` — the output, and how old the reading is that the sampler holds: a printed
  reading was taken after the work announced before the reading printed last, and at most one piece
  of work later than announced before it.
* `run_of_stop`, `Sound.quiet`, `completes` — the end of a run.
-/

namespace Sampling

open Transition

variable {μ : Type}

/-! ## The two threads -/

/-- A mark of the program, and whether there is work to do before it. -/
structure Item (μ : Type) where
  mark : μ
  work : Bool

/-- A line of the output. A reading is given by the pieces of work that were done when it was
taken. -/
inductive Line (μ : Type)
  | mark (i : Item μ)
  | sample (n : ℕ)

/-- Where the sampler stands: it tests whether it shall stop, takes a reading, and prints it, over
and over. -/
inductive Sampler
  /-- About to test whether it shall stop. -/
  | test
  /-- About to take a reading. -/
  | read
  /-- Holding a reading. -/
  | print (n : ℕ)
  /-- At its end. -/
  | ended

/-- Both threads and their output: what the program still has to do and announce, and where the
sampler stands. -/
structure State (μ : Type) where
  /-- What the program has not announced. -/
  todo : List (Item μ)
  /-- The work before the next mark is done. -/
  begun : Bool
  /-- How much work is done. -/
  work : ℕ
  /-- The sampler has been told to stop. -/
  stop : Bool
  /-- The program has seen the end of the sampler. -/
  returned : Bool
  /-- The sampler. -/
  sampler : Sampler
  /-- The output. -/
  out : List (Line μ)

/-- Both at their beginning: all items are still to be announced, no work is done and nothing is
printed. -/
def State.init (items : List (Item μ)) : State μ := ⟨items, false, 0, false, false, .test, []⟩

/-- Who moves. -/
inductive Who
  | program
  | sampler
  /-- The sampler fails to take its reading, and ends. -/
  | samplerDies

/-- One move. The program ends by telling the sampler to stop and waiting for its end. -/
def step (s : State μ) : Who → Option (State μ)
  | .program =>
    match s.todo with
    | i :: rest =>
      if i.work = true ∧ s.begun = false then some { s with begun := true, work := s.work + 1 }
      else some { s with todo := rest, begun := false, out := s.out ++ [.mark i] }
    | [] =>
      if s.stop = false then some { s with stop := true }
      else
        match s.returned, s.sampler with
        | false, .ended => some { s with returned := true }
        | _, _ => none
  | .sampler =>
    match s.sampler with
    | .test => some { s with sampler := if s.stop then .ended else .read }
    | .read => some { s with sampler := .print s.work }
    | .print n => some { s with sampler := .test, out := s.out ++ [.sample n] }
    | .ended => none
  | .samplerDies =>
    match s.sampler with
    | .read => some { s with sampler := .ended }
    | .test | .print _ | .ended => none

/-! ## The output -/

/-- The line is a mark of the program, and no reading of the sampler. -/
def Line.isMark : Line μ → Bool
  | .mark _ => true
  | .sample _ => false

/-- The marks of an output, in the order in which they were printed. -/
def marks (out : List (Line μ)) : List (Item μ) :=
  out.filterMap fun | .mark i => some i | .sample _ => none

/-- How many of the printed marks tell of a piece of work. -/
def works (out : List (Line μ)) : ℕ := (marks out).countP (·.work)

/-- The output up to the last reading; the marks after it are followed by none. -/
def shown (out : List (Line μ)) : List (Line μ) := out.rdropWhile Line.isMark

section Output

variable {out : List (Line μ)}

/-- The marks of an output that goes on are its marks and those that come after. -/
theorem marks_append (out out' : List (Line μ)) : marks (out ++ out') = marks out ++ marks out' :=
  List.filterMap_append

/-- One more mark tells of one more operation, if it is the mark of an operation. -/
theorem works_mark (out : List (Line μ)) (i : Item μ) :
    works (out ++ [.mark i]) = works out + if i.work then 1 else 0 := by
  rw [works, marks_append, List.countP_append, ← works]
  exact congrArg (works out + ·) List.countP_singleton

/-- One more reading tells of no further operation. -/
theorem works_sample (out : List (Line μ)) (n : ℕ) : works (out ++ [.sample n]) = works out := by
  rw [works, marks_append, List.countP_append, ← works]
  rfl

/-- A mark changes nothing in what is shown up to the last reading. -/
theorem shown_mark (out : List (Line μ)) (i : Item μ) : shown (out ++ [.mark i]) = shown out :=
  List.rdropWhile_concat_pos _ _ _ rfl

/-- What stood before the last reading is no more than what stands there now. -/
theorem works_shown_le (out : List (Line μ)) : works (shown out) ≤ works out := by
  obtain ⟨rest, hrest⟩ : shown out <+: out := List.rdropWhile_prefix _ _
  rw [works, works, ← hrest, marks_append, List.countP_append, hrest]
  exact Nat.le_add_right _ _

end Output

/-! ## The invariant -/

/-- Every reading on the output is between the marks that stood before the reading printed last and
those that stand before it. -/
def Truthful (out : List (Line μ)) : Prop :=
  ∀ before n after, out = before ++ .sample n :: after →
    works (shown before) ≤ n ∧ n ≤ works before + 1

/-- Printing a mark keeps the output truthful, since it is no reading. -/
theorem Truthful.mark {out : List (Line μ)} (h : Truthful out) (i : Item μ) :
    Truthful (out ++ [.mark i]) := by
  intro before n after heq
  rcases List.eq_nil_or_concat after with rfl | ⟨after', x, rfl⟩
  · have hlast := (List.append_inj' heq rfl).2
    cases List.cons.inj hlast |>.1
  · rw [List.concat_eq_append, ← List.cons_append, ← List.append_assoc] at heq
    exact h before n after' (List.append_inj' heq rfl).1

/-- Printing a reading keeps the output truthful, if the reading is between the operations shown up
to the reading before and one more than those marked by now. -/
theorem Truthful.sample {out : List (Line μ)} (h : Truthful out) {n : ℕ}
    (hlo : works (shown out) ≤ n) (hhi : n ≤ works out + 1) : Truthful (out ++ [.sample n]) := by
  intro before m after heq
  rcases List.eq_nil_or_concat after with rfl | ⟨after', x, rfl⟩
  · obtain ⟨rfl, hlast⟩ := List.append_inj' heq rfl
    obtain rfl : n = m := Line.sample.inj (List.cons.inj hlast).1
    exact ⟨hlo, hhi⟩
  · rw [List.concat_eq_append, ← List.cons_append, ← List.append_assoc] at heq
    exact h before m after' (List.append_inj' heq rfl).1

/-- The state of both threads fits the output: the marks are the items announced so far, in order,
and the readings count the work that was done when they were taken. -/
structure Sound (items : List (Item μ)) (s : State μ) : Prop where
  /-- The marks come in order. -/
  marks : marks s.out ++ s.todo = items
  /-- The work that is done is what the marks tell, and what is about to be told. -/
  work : s.work = works s.out + if s.begun then 1 else 0
  /-- Work that is done belongs to the next mark. -/
  begun : s.begun = true → ∃ i rest, s.todo = i :: rest ∧ i.work = true
  /-- The reading that the sampler holds is younger than the one printed last. -/
  held : ∀ n, s.sampler = .print n → works (shown s.out) ≤ n ∧ n ≤ s.work
  /-- The readings on the output. -/
  truthful : Truthful s.out
  /-- They count work of the program. -/
  within : ∀ n, .sample n ∈ s.out → n ≤ items.countP (·.work)
  /-- The sampler is stopped at the end. -/
  stop : s.stop = true → s.todo = []
  /-- And only a sampler that has ended is left behind. -/
  returned : s.returned = true → s.stop = true ∧ s.sampler = .ended

section Invariant

variable {items : List (Item μ)} {s s' : State μ} {who : Who}

/-- At the beginning nothing is done, begun or printed, and all is in order. -/
theorem sound_init (items : List (Item μ)) : Sound items (.init items) where
  marks := rfl
  work := rfl
  begun := nofun
  held := nofun
  truthful before n after h := by simp [State.init] at h
  within n h := absurd h List.not_mem_nil
  stop := nofun
  returned := nofun

/-- What a step of the program can do: the operation of the next item, the mark of the next item,
telling the sampler to stop, or, once the sampler has ended, returning. -/
theorem program_cases (hstep : step s .program = some s') :
    (∃ i rest, s.todo = i :: rest ∧ i.work = true ∧ s.begun = false
        ∧ s' = { s with begun := true, work := s.work + 1 })
      ∨ (∃ i rest, s.todo = i :: rest ∧ ¬ (i.work = true ∧ s.begun = false)
        ∧ s' = { s with todo := rest, begun := false, out := s.out ++ [.mark i] })
      ∨ (s.todo = [] ∧ s.stop = false ∧ s' = { s with stop := true })
      ∨ (s.todo = [] ∧ s.stop = true ∧ s.returned = false ∧ s.sampler = .ended
        ∧ s' = { s with returned := true }) := by
  rw [step] at hstep
  split at hstep
  · rename_i i rest htodo
    split at hstep
    · rename_i hwork
      exact .inl ⟨i, rest, htodo, hwork.1, hwork.2, (Option.some.inj hstep).symm⟩
    · rename_i hwork
      exact .inr (.inl ⟨i, rest, htodo, hwork, (Option.some.inj hstep).symm⟩)
  · rename_i htodo
    split at hstep
    · rename_i hrun
      exact .inr (.inr (.inl ⟨htodo, hrun, (Option.some.inj hstep).symm⟩))
    · rename_i hstop
      split at hstep
      · rename_i hret hended
        exact .inr (.inr (.inr ⟨htodo, by simpa using hstop, hret, hended,
          (Option.some.inj hstep).symm⟩))
      · cases hstep

/-- A program with something to announce has not told the sampler to stop. -/
theorem Sound.running {i : Item μ} {rest : List (Item μ)} (h : Sound items s)
    (htodo : s.todo = i :: rest) : s.stop = false := by
  rw [Bool.eq_false_iff]
  intro hstop
  rw [h.stop hstop] at htodo
  cases htodo

/-- The operations done are at most those that the marks tell of. -/
theorem Sound.work_le (h : Sound items s) : s.work ≤ items.countP (·.work) := by
  have hmarks := congrArg (List.countP (·.work)) h.marks
  rw [List.countP_append, ← works] at hmarks
  rw [h.work, ← hmarks]
  cases hb : s.begun with
  | false =>
      rw [if_neg Bool.false_ne_true]
      exact Nat.le_add_right _ _
  | true =>
      obtain ⟨i, rest, htodo, hi⟩ := h.begun hb
      rw [if_pos rfl, htodo, List.countP_cons, hi, if_pos rfl]
      omega

/-- A move of the program keeps marks, work and readings in order. It does the work before the next
mark, or prints that mark, or tells the sampler to stop, or sees it end; work that has begun is told
of by the next mark. -/
theorem Sound.program (h : Sound items s) (hstep : step s .program = some s') :
    Sound items s' := by
  rcases program_cases hstep with ⟨i, rest, htodo, hwork, hbegun, rfl⟩ |
    ⟨i, rest, htodo, hready, rfl⟩ | ⟨htodo, hrun, rfl⟩ | ⟨htodo, hstop, hret, hended, rfl⟩
  · -- The work before the next mark is done.
    have hdone := h.work
    rw [hbegun, if_neg Bool.false_ne_true, Nat.add_zero] at hdone
    refine ⟨h.marks, ?_, fun _ => ⟨i, rest, htodo, hwork⟩, fun n hn => ?_, h.truthful, h.within,
      h.stop, h.returned⟩
    · rw [if_pos rfl, hdone]
    · exact ⟨(h.held n hn).1, Nat.le_succ_of_le (h.held n hn).2⟩
  · -- The next mark is printed: it tells of the work that is done.
    have htold : s.begun = i.work := by
      cases hb : s.begun with
      | true =>
          obtain ⟨i', rest', htodo', hi'⟩ := h.begun hb
          rw [htodo] at htodo'
          rw [(List.cons.inj htodo').1, hi']
      | false =>
          rw [hb] at hready
          exact (Bool.eq_false_iff.mpr fun hi => hready ⟨hi, rfl⟩).symm
    refine ⟨?_, ?_, nofun, fun n hn => ?_, h.truthful.mark i, fun n hn => ?_, fun hs => ?_,
      h.returned⟩
    · rw [marks_append, List.append_assoc, ← h.marks, htodo]
      rfl
    · rw [works_mark, h.work, htold, if_neg Bool.false_ne_true, Nat.add_zero]
    · rw [shown_mark]
      exact h.held n hn
    · exact h.within n (by simpa using hn)
    · rw [h.running htodo] at hs
      cases hs
  · refine ⟨h.marks, h.work, h.begun, h.held, h.truthful, h.within, fun _ => htodo,
      fun hret => ?_⟩
    have hstop := (h.returned hret).1
    rw [hrun] at hstop
    cases hstop
  · exact ⟨h.marks, h.work, h.begun, h.held, h.truthful, h.within, h.stop,
      fun _ => ⟨hstop, hended⟩⟩

/-- What a step of the sampler can do: look at the flag, take a reading, print it, or stop. -/
theorem sampler_cases (hstep : step s .sampler = some s') :
    (s.sampler = .test ∧ s' = { s with sampler := if s.stop then .ended else .read })
      ∨ (s.sampler = .read ∧ s' = { s with sampler := .print s.work })
      ∨ ∃ n, s.sampler = .print n
        ∧ s' = { s with sampler := .test, out := s.out ++ [.sample n] } := by
  rw [step] at hstep
  split at hstep
  · rename_i hs
    exact .inl ⟨hs, (Option.some.inj hstep).symm⟩
  · rename_i hs
    exact .inr (.inl ⟨hs, (Option.some.inj hstep).symm⟩)
  · rename_i n hs
    exact .inr (.inr ⟨n, hs, (Option.some.inj hstep).symm⟩)
  · cases hstep

/-- As long as the sampler has not ended, the program has not returned. -/
theorem Sound.awaited (h : Sound items s) (hs : s.sampler ≠ .ended) : s.returned = false := by
  rw [Bool.eq_false_iff]
  exact fun hret => hs (h.returned hret).2

/-- A move of the sampler keeps marks, work and readings in order. It tests whether it shall stop,
takes a reading of the work done, or prints the reading it holds, which may be one mark old by
then. -/
theorem Sound.sampler (h : Sound items s) (hstep : step s .sampler = some s') :
    Sound items s' := by
  rcases sampler_cases hstep with ⟨hs, rfl⟩ | ⟨hs, rfl⟩ | ⟨n, hs, rfl⟩
  · have hret := h.awaited (by simp [hs])
    refine ⟨h.marks, h.work, h.begun, fun n hn => ?_, h.truthful, h.within, h.stop,
      fun hret' => ?_⟩
    · split at hn <;> cases hn
    · rw [hret] at hret'
      cases hret'
  · -- A reading is taken: it is as young as can be.
    have hret := h.awaited (by simp [hs])
    refine ⟨h.marks, h.work, h.begun, fun n hn => ?_, h.truthful, h.within, h.stop,
      fun hret' => ?_⟩
    · obtain rfl : s.work = n := Sampler.print.inj hn
      refine ⟨(works_shown_le s.out).trans ?_, le_rfl⟩
      rw [h.work]
      exact Nat.le_add_right _ _
    · rw [hret] at hret'
      cases hret'
  · obtain ⟨hlo, hhi⟩ := h.held n hs
    have hret := h.awaited (by simp [hs])
    have hdone : s.work ≤ works s.out + 1 := by
      rw [h.work]
      split <;> omega
    refine ⟨?_, ?_, h.begun, nofun, h.truthful.sample hlo (hhi.trans hdone), fun m hm => ?_, h.stop,
      fun hret' => ?_⟩
    · rw [marks_append, ← h.marks]
      exact congrArg (· ++ s.todo) (List.append_nil _)
    · rw [works_sample]
      exact h.work
    · rcases List.mem_append.mp hm with hold | hnew
      · exact h.within m hold
      · rw [Line.sample.inj (List.mem_singleton.mp hnew)]
        exact hhi.trans h.work_le
    · rw [hret] at hret'
      cases hret'

/-- **One move**, of the program or of the sampler, or the failure of the sampler, keeps all in
order. -/
theorem Sound.step (h : Sound items s) (hstep : Sampling.step s who = some s') :
    Sound items s' := by
  cases who with
  | program => exact h.program hstep
  | sampler => exact h.sampler hstep
  | samplerDies =>
      rw [Sampling.step] at hstep
      split at hstep
      · rename_i hs
        have hret := h.awaited (by simp [hs])
        rw [Option.some.injEq] at hstep
        subst hstep
        refine ⟨h.marks, h.work, h.begun, nofun, h.truthful, h.within, h.stop, fun hret' => ?_⟩
        rw [hret] at hret'
        cases hret'
      · cases hstep
      · cases hstep
      · cases hstep

/-- **Every run** from the beginning leads to a state in which marks, work and readings are in
order. -/
theorem sound_run {ls : List Who} (hrun : run Sampling.step (.init items) ls = some s) :
    Sound items s :=
  run_invariant (fun _ _ _ _ h hstep => h.step hstep)
    (Along.of_labels (fun _ _ _ => trivial) (P := fun _ _ => True) _) (sound_init items) hrun

/-! ## The end of a run -/

/-- How many readings a sampler that has been told to stop still prints. -/
def Sampler.left : Sampler → ℕ
  | .test | .ended => 0
  | .read | .print _ => 1

/-- How many moves are left once the sampler has been told to stop. -/
def State.left (s : State μ) : ℕ :=
  (match s.sampler with
    | .ended => 0
    | .test => 1
    | .print _ => 2
    | .read => 3) + if s.returned then 0 else 1

/-- A move after the sampler was told to stop: no mark, at most the one reading, and one move less
to go. The program has only to see the sampler's end, and the sampler prints what it holds, tests
and ends. -/
theorem stopped_step (h : Sound items s) (hstop : s.stop = true)
    (hstep : Sampling.step s who = some s') :
    s'.stop = true ∧ s'.left < s.left
      ∧ ∃ ns : List ℕ, s'.out = s.out ++ ns.map .sample
        ∧ ns.length + s'.sampler.left ≤ s.sampler.left := by
  cases who with
  | program =>
      have htodo := h.stop hstop
      rcases program_cases hstep with ⟨i, rest, htodo', -⟩ | ⟨i, rest, htodo', -⟩ |
        ⟨-, hrun, -⟩ | ⟨-, -, hret, hended, rfl⟩
      · rw [htodo] at htodo'
        cases htodo'
      · rw [htodo] at htodo'
        cases htodo'
      · rw [hstop] at hrun
        cases hrun
      · exact ⟨hstop, by simp [State.left, hret], [], (List.append_nil _).symm, by simp⟩
  | sampler =>
      rcases sampler_cases hstep with ⟨hs, rfl⟩ | ⟨hs, rfl⟩ | ⟨n, hs, rfl⟩
      · refine ⟨hstop, ?_, [], (List.append_nil _).symm, ?_⟩
        · simp [State.left, hs, hstop]
        · simp [Sampler.left, hs, hstop]
      · refine ⟨hstop, by simp [State.left, hs], [], (List.append_nil _).symm, ?_⟩
        simp [Sampler.left, hs]
      · refine ⟨hstop, by simp [State.left, hs], [n], rfl, ?_⟩
        simp [Sampler.left, hs]
  | samplerDies =>
      rw [Sampling.step] at hstep
      split at hstep
      · rename_i hs
        rw [Option.some.injEq] at hstep
        subst hstep
        refine ⟨hstop, by simp [State.left, hs], [], (List.append_nil _).symm, ?_⟩
        simp [Sampler.left, hs]
      · cases hstep
      · cases hstep
      · cases hstep

/-- After the sampler was told to stop, no run has more than four moves, and what it prints is one
reading at most. -/
theorem run_of_stop {ls : List Who} (h : Sound items s) (hstop : s.stop = true)
    (hrun : run Sampling.step s ls = some s') :
    ls.length + s'.left ≤ s.left
      ∧ ∃ ns : List ℕ, s'.out = s.out ++ ns.map .sample ∧ ns.length ≤ s.sampler.left := by
  suffices hmore : ls.length + s'.left ≤ s.left
      ∧ ∃ ns : List ℕ, s'.out = s.out ++ ns.map .sample
        ∧ ns.length + s'.sampler.left ≤ s.sampler.left by
    obtain ⟨hlen, ns, hout, hns⟩ := hmore
    exact ⟨hlen, ns, hout, by omega⟩
  induction ls generalizing s with
  | nil =>
      rw [run_nil, Option.some.injEq] at hrun
      subst hrun
      exact ⟨by simp, [], (List.append_nil _).symm, by simp⟩
  | cons l ls ih =>
      obtain ⟨u, hu, hrest⟩ := run_cons_eq_some.mp hrun
      obtain ⟨hstop', hless, ns, hout, hns⟩ := stopped_step h hstop hu
      obtain ⟨hlen, ns', hout', hns'⟩ := ih (h.step hu) hstop' hrest
      refine ⟨by rw [List.length_cons]; omega, ns ++ ns', ?_, ?_⟩
      · rw [hout', hout, List.append_assoc, List.map_append]
      · rw [List.length_append]
        omega

/-- A program that has returned leaves nothing behind that could move. -/
theorem Sound.quiet (h : Sound items s) (hret : s.returned = true) (who : Who) :
    Sampling.step s who = none := by
  obtain ⟨hstop, hended⟩ := h.returned hret
  have htodo := h.stop hstop
  cases who with
  | program => simp [Sampling.step, htodo, hstop, hret]
  | sampler => simp [Sampling.step, hended]
  | samplerDies => simp [Sampling.step, hended]

/-- As long as it has not returned, the program or the sampler can move. -/
theorem exists_step (hret : s.returned = false) :
    ∃ who s', who ≠ .samplerDies ∧ Sampling.step s who = some s' := by
  by_cases hprogram : ∃ s', Sampling.step s .program = some s'
  · obtain ⟨s', hs'⟩ := hprogram
    exact ⟨.program, s', nofun, hs'⟩
  · refine ⟨.sampler, ?_⟩
    cases hs : s.sampler with
    | test => exact ⟨_, nofun, by simp only [Sampling.step, hs]; rfl⟩
    | read => exact ⟨_, nofun, by simp only [Sampling.step, hs]; rfl⟩
    | print n => exact ⟨_, nofun, by simp only [Sampling.step, hs]; rfl⟩
    | ended =>
        refine absurd ?_ hprogram
        rw [Sampling.step]
        split
        · split <;> exact ⟨_, rfl⟩
        · split
          · exact ⟨_, rfl⟩
          · simp only [hret, hs]
            exact ⟨_, rfl⟩

/-- The moves of the program that are left before it tells the sampler to stop. -/
def State.ahead (s : State μ) : ℕ :=
  2 * s.todo.length + (if s.begun then 0 else 1) + if s.stop then 0 else 1

/-- A program that has not told the sampler to stop can move, and comes closer to it. -/
theorem ahead_step (hstop : s.stop = false) :
    ∃ s', Sampling.step s .program = some s' ∧ s'.ahead < s.ahead := by
  obtain ⟨s', hs'⟩ : ∃ s', Sampling.step s .program = some s' := by
    rw [Sampling.step]
    split
    · split <;> exact ⟨_, rfl⟩
    · rw [if_pos hstop]
      exact ⟨_, rfl⟩
  refine ⟨s', hs', ?_⟩
  rcases program_cases hs' with ⟨i, rest, htodo, -, hbegun, rfl⟩ | ⟨i, rest, htodo, -, rfl⟩ |
    ⟨htodo, -, rfl⟩ | ⟨-, hstop', -⟩
  · simp [State.ahead, hbegun]
  · simp only [State.ahead, htodo, List.length_cons, Bool.false_eq_true, if_false]
    omega
  · simp [State.ahead, hstop]
  · rw [hstop] at hstop'
    cases hstop'

/-- The end of a run after the sampler was told to stop. -/
theorem completes_of_stop (h : Sound items s) (hstop : s.stop = true) :
    ∃ ls s', (∀ who ∈ ls, who ≠ .samplerDies) ∧ run Sampling.step s ls = some s'
      ∧ s'.returned = true := by
  induction hn : s.left using Nat.strong_induction_on generalizing s with
  | _ n ih =>
      cases hret : s.returned with
      | true => exact ⟨[], s, by simp, rfl, hret⟩
      | false =>
          obtain ⟨who, s₁, hwho, hstep⟩ := exists_step hret
          obtain ⟨hstop₁, hless, -⟩ := stopped_step h hstop hstep
          obtain ⟨ls, s', hls, hrun, hend⟩ := ih _ (hn ▸ hless) (h.step hstep) hstop₁ rfl
          refine ⟨who :: ls, s', ?_, run_cons_eq_some.mpr ⟨s₁, hstep, hrun⟩, hend⟩
          intro x hx
          rcases List.mem_cons.mp hx with rfl | hx
          · exact hwho
          · exact hls x hx

/-- **The program returns**: from every state a run leads there, in which the sampler does not
fail. -/
theorem completes (h : Sound items s) :
    ∃ ls s', (∀ who ∈ ls, who ≠ .samplerDies) ∧ run Sampling.step s ls = some s'
      ∧ s'.returned = true := by
  induction hn : s.ahead using Nat.strong_induction_on generalizing s with
  | _ n ih =>
      cases hstop : s.stop with
      | true => exact completes_of_stop h hstop
      | false =>
          obtain ⟨s₁, hstep, hless⟩ := ahead_step hstop
          obtain ⟨ls, s', hls, hrun, hend⟩ := ih _ (hn ▸ hless) (h.step hstep) rfl
          refine ⟨.program :: ls, s', ?_, run_cons_eq_some.mpr ⟨s₁, hstep, hrun⟩, hend⟩
          intro x hx
          rcases List.mem_cons.mp hx with rfl | hx
          · exact nofun
          · exact hls x hx

end Invariant

end Sampling
