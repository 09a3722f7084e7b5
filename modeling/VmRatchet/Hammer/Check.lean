import VmRatchet.Guest.Hammer
import VmRatchet.Lib.Run

/-!
# The hammer check: guest stores racing the pageout scan

`hammer_check` starts where pass 2 has left guest RAM — every page holds its own address — and
lets the hammer increment every page while memory pressure builds, holds and is released. Then a
survey reads every page once and compares it with `base + offset + sweeps`. The operating system
may discard (zero) any page between any two instructions of the guest and between any two reads
of the survey.

* `State`, `Event`, `step` — the check as a transition system. Two history variables remember
  which pages were discarded at some other instant than between their own load and store
  (`exposed`) and which pages the survey counted as lost (`lostPages`).
* `Invariant` — page by page, the word is `base + offset` plus one for every sweep, or else the
  page was exposed and has counted from zero. `invariant_step` — every step keeps it.

The callback of `run_hammer` is represented by its answers.
-/

namespace VmRatchet.Hammer

open Arm64 ByteMemory Guest Transition

/-! ## The check -/

/-- How far `hammer_check` has come. -/
inductive Phase
  /-- Before `run_hammer` has written its registers. -/
  | preparing
  /-- Inside `run_hammer`. -/
  | hammering
  /-- In the survey loop, about to read page `next`. -/
  | surveying (next : ℕ)
  | panicked
  deriving DecidableEq

/-- The state of `hammer_check`: the vCPU, guest RAM, the variables of the survey, and what the
history variables remember. -/
structure State where
  cpu : Cpu
  mem : Mem
  phase : Phase := .preparing
  /-- What `run_hammer` returned. -/
  sweeps : BitVec 64 := 0
  intact : ℕ := 0
  lost : ℕ := 0
  examples : List (ℕ × BitVec 64) := []
  /-- Completed sweeps. -/
  made : ℕ := 0
  /-- The pages counted as lost. -/
  lostPages : List ℕ := []
  /-- The pages discarded before the survey read them, at some instant when the guest was not in
  the middle of incrementing them. -/
  exposed : ℕ → Bool := fun _ => false

/-- What can happen between two instants of the check; an event that does not fit the phase does not
happen. -/
inductive Event
  /-- `run_hammer` writes its registers. -/
  | start
  /-- One guest instruction; the answer of the callback, should it ring the doorbell. -/
  | guest (keepGoing : Bool)
  /-- `hv_vcpu_run` is canceled. -/
  | cancel
  /-- The operating system discards a page of guest RAM. -/
  | discard (i : ℕ)
  /-- The survey reads its next page. -/
  | read

namespace State

/-- The guest was left; `run_hammer` deals with the exit.
Source: `guest.rs`, `run_hammer` -/
def turn (st : State) (info : HvVcpuExitInfo) (keepGoing : Bool) : State :=
  let made := if runToDoorbell info = some .doorbell then st.made + 1 else st.made
  match hammerTurn info keepGoing st.cpu with
  | .reenter c => { st with cpu := c, made := made }
  | .returned sweeps => { st with phase := .surveying 0, sweeps := sweeps, made := made }
  | .panicked => { st with phase := .panicked }

/-- One guest instruction. On a doorbell or a fault the guest is left, and `run_hammer` has its
turn. -/
def guest (r : RamSize) (st : State) (keepGoing : Bool) : State :=
  match vcpuStep (ramMapped r.bytes) st.cpu st.mem with
  | .ran c m => { st with cpu := c, mem := m }
  | .exited info => st.turn info keepGoing

/-- One iteration of the survey: the page at offset `next * PAGE`.
Source: `main.rs`, `hammer_check` (the loop over `off`) -/
def survey (st : State) (next : ℕ) : State :=
  let off := next * page
  let v := load64 st.mem (ramGpa + off)
  if v = ramAddr off + st.sweeps then
    { st with phase := .surveying (next + 1), intact := st.intact + 1 }
  else
    { st with
      phase := .surveying (next + 1)
      lost := st.lost + 1
      examples := if st.examples.length < 3 then st.examples ++ [(off, v)] else st.examples
      lostPages := next :: st.lostPages }

/-- The survey has not read page `i` yet, so that a discard can still be seen by it. -/
def unread (st : State) (i : ℕ) : Bool :=
  match st.phase with
  | .surveying next => decide (next ≤ i)
  | _ => true

/-- The guest has loaded the word of page `i` and not stored it yet: it stands at
`add x5, x5, #1` or at `str x5, [x1]`. -/
def inWindow (st : State) (i : ℕ) : Bool :=
  decide (st.phase = .hammering ∧
    (st.cpu.pc = Program.hammer.entry + BitVec.ofNat 64 (4 * 2) ∨
      st.cpu.pc = Program.hammer.entry + BitVec.ofNat 64 (4 * 3)) ∧
    st.cpu.x 1 = ramAddr (i * page))

/-- The operating system takes page `i`, which reads as zeros from then on. -/
def discard (st : State) (i : ℕ) : State :=
  { st with
    mem := setRange st.mem (ramGpa + i * page) page 0
    exposed := if st.unread i && !st.inWindow i then Function.update st.exposed i true
      else st.exposed }

end State

/-- One step of the check, or `none` where the event does not fit the phase. A page may be discarded
in every phase. -/
def step (r : RamSize) (st : State) : Event → Option State
  | .start =>
      if st.phase = .preparing then
        some { st with phase := .hammering, cpu := armHammer r st.cpu }
      else none
  | .guest keepGoing => if st.phase = .hammering then some (st.guest r keepGoing) else none
  | .cancel => if st.phase = .hammering then some (st.turn canceledExit true) else none
  | .discard i => some (st.discard i)
  | .read =>
      match st.phase with
      | .surveying next => if next * page < r.bytes then some (st.survey next) else none
      | _ => none

/-- Pass 2 has ended: every page holds its own address. -/
structure Initial (r : RamSize) (st : State) : Prop where
  fresh : ∃ cpu mem, st = { cpu := cpu, mem := mem }
  touched : ∀ i < r.pages, load64 st.mem (ramGpa + i * page) = ramAddr (i * page)

/-! ## The invariant -/

/-- Page `i` holds `w` after `n` sweeps: the value it should hold, or, if it was exposed, as many
increments as there have been since. -/
def Holds (st : State) (i n : ℕ) (w : BitVec 64) : Prop :=
  if st.exposed i then ∃ d ≤ n, w = BitVec.ofNat 64 d
  else w = BitVec.ofNat 64 (ramGpa + i * page + n)

/-- The sweeps begun: at `b outer` the next one has not begun yet. -/
def begun (st : State) (s : PState) : ℕ := if s.loc = .again then st.made else st.made + 1

/-- The sweeps the guest has counted in `x4`: it counts one before it rings the doorbell, the host
after. -/
def counted (st : State) (s : PState) : ℕ :=
  if s.loc = .doorbell then st.made + 1 else st.made

/-- Inside `run_hammer`: the guest is at location `s` of a sweep, its counter agrees with the sweeps
made, and every page holds what it should hold after the sweeps that have passed it. -/
structure Hammering (r : RamSize) (st : State) (s : PState) : Prop where
  sim : Sim (hammerPass r) s st.cpu
  x4 : s.x4 = BitVec.ofNat 64 (counted st s)
  pages : ∀ i < r.pages, ∃ v, Swept (hammerPass r) i v s st.mem ∧ Holds st i (begun st s) (v + 1)

/-- In the survey, about to read page `next`: the pages ahead hold what the sweeps left in them, and
of the pages behind exactly those are listed as lost whose word was not the expected one when it was
read. -/
structure Surveying (r : RamSize) (st : State) (next : ℕ) : Prop where
  sweeps : st.sweeps = BitVec.ofNat 64 st.made
  ahead : ∀ i < r.pages, next ≤ i → Holds st i st.made (load64 st.mem (ramGpa + i * page))
  behind : ∀ i < next, ∃ w, Holds st i st.made w ∧
    (i ∈ st.lostPages ↔ w ≠ BitVec.ofNat 64 (ramGpa + i * page + st.made))
  lost_lt : ∀ i ∈ st.lostPages, i < next
  lost_eq : st.lost = st.lostPages.length

/-- Before the survey nothing has been counted as lost. -/
structure Clear (st : State) : Prop where
  lost : st.lost = 0
  lostPages : st.lostPages = []

/-- What every reachable state of the check satisfies, phase by phase: `Hammering` while the guest
runs, `Surveying` afterwards. -/
def Invariant (r : RamSize) (st : State) : Prop :=
  match st.phase with
  | .preparing => Clear st ∧ st.made = 0 ∧
      ∀ i < r.pages, Holds st i 0 (load64 st.mem (ramGpa + i * page))
  | .hammering => Clear st ∧ ∃ s, Hammering r st s
  | .surveying next => Surveying r st next
  | .panicked => True

section invariant

variable {r : RamSize} {st st' : State} {s : PState} {i j n next : ℕ} {w : BitVec 64}

/-- In the phase of `run_hammer` the invariant says that nothing is counted yet and that the guest
is somewhere in a sweep. -/
theorem invariant_hammering (hph : st.phase = .hammering) :
    Invariant r st ↔ Clear st ∧ ∃ s, Hammering r st s := by
  unfold Invariant
  rw [hph]

/-- In the phase of the survey the invariant says which pages have been read and what the others
hold. -/
theorem invariant_surveying (hph : st.phase = .surveying next) :
    Invariant r st ↔ Surveying r st next := by
  unfold Invariant
  rw [hph]

/-- What a page may hold depends on whether it was exposed only. -/
theorem Holds.congr (h : Holds st i n w) (hx : st'.exposed i = st.exposed i) :
    Holds st' i n w := by
  unfold Holds at *
  rwa [hx]

/-- One sweep more adds one to what a page holds, whether it was exposed or not. -/
theorem Holds.succ (h : Holds st i n w) : Holds st i (n + 1) (w + 1) := by
  unfold Holds at *
  split_ifs at h ⊢
  · obtain ⟨d, hd, rfl⟩ := h
    exact ⟨d + 1, Nat.succ_le_succ hd, (BitVec.ofNat_add ..).symm⟩
  · rw [h, ← Nat.add_assoc]
    exact (BitVec.ofNat_add ..).symm

/-- An exposed page counts from zero: it may hold any number of increments up to that of the
sweeps. -/
theorem Holds.of_exposed (hx : st.exposed i = true) {d : ℕ} (hd : d ≤ n)
    (hw : w = BitVec.ofNat 64 d) : Holds st i n w := by
  unfold Holds
  rw [if_pos hx]
  exact ⟨d, hd, hw⟩

/-! ### A discard -/

/-- The word of a discarded page reads zero. -/
theorem discard_word (st : State) (i : ℕ) :
    load64 (st.discard i).mem (ramGpa + i * page) = 0 :=
  load64_setRange_zero ⟨le_rfl, by rw [page_eq]; omega⟩

/-- A discard leaves the words of all other pages alone. -/
theorem discard_word_of_ne (st : State) (h : j ≠ i) :
    load64 (st.discard i).mem (ramGpa + j * page) = load64 st.mem (ramGpa + j * page) := by
  refine load64_setRange_of_disjoint ?_
  rw [page_eq]
  omega

/-- A discard exposes its page, unless it is too late or falls into the window. -/
theorem discard_exposed (st : State) (i j : ℕ) :
    (st.discard i).exposed j =
      if j = i ∧ st.unread i = true ∧ st.inWindow i = false then true else st.exposed j := by
  unfold State.discard
  by_cases hx : st.unread i = true ∧ st.inWindow i = false
  · by_cases hj : j = i
    · subst hj
      simp [hx.1, hx.2]
    · simp [hx.1, hx.2, hj]
  · have hb : (st.unread i && !st.inWindow i) = false := by
      cases hu : st.unread i <;> cases hw : st.inWindow i <;> simp_all
    have hn : ¬ (j = i ∧ st.unread i = true ∧ st.inWindow i = false) := fun hc => hx hc.2
    simp [hb, hn]

/-- A page a discard does not expose may hold what it might hold before. -/
theorem Holds.discard (h : Holds st j n w)
    (hx : ¬ (j = i ∧ st.unread i = true ∧ st.inWindow i = false)) :
    Holds (st.discard i) j n w :=
  h.congr (by rw [discard_exposed, if_neg hx])

/-- Outside `run_hammer` a word in memory stays one the page may hold. -/
theorem holds_discard (hun : st.unread j = true) (hwin : st.inWindow j = false)
    (h : Holds st j n (load64 st.mem (ramGpa + j * page))) (i : ℕ) :
    Holds (st.discard i) j n (load64 (st.discard i).mem (ramGpa + j * page)) := by
  by_cases hj : j = i
  · subst hj
    refine Holds.of_exposed ?_ (Nat.zero_le n) (discard_word st j)
    rw [discard_exposed, if_pos ⟨rfl, hun, hwin⟩]
  · rw [discard_word_of_ne st hj]
    exact h.discard fun hc => hj hc.1

/-- Inside `run_hammer` the registers show page `i` in the window exactly if the pass machine stands
between its load and its store. -/
theorem Hammering.inWindow_iff (h : Hammering r st s) (hph : st.phase = .hammering)
    (hi : i < r.pages) : st.inWindow i = true ↔ s.loc = .body 1 i ∨ s.loc = .body 2 i := by
  rw [← hammer_window_iff h.sim hi, State.inWindow, decide_eq_true_iff]
  exact and_iff_right hph

/-- **A discard inside `run_hammer`.** Outside the window the page starts over from zero: it is
exposed, and counts as one that held zero at the start of the sweep, or minus one if the sweep has
passed it. Inside the window the store of the old word, plus one, will cover the discard up. -/
theorem Hammering.discard (h : Hammering r st s) (hph : st.phase = .hammering) (i : ℕ) :
    Hammering r (st.discard i) s := by
  refine ⟨h.sim, h.x4, fun j hj => ?_⟩
  obtain ⟨v, hv, hw⟩ := h.pages j hj
  by_cases hji : j = i
  · subst hji
    have hun : st.unread j = true := by simp [State.unread, hph]
    by_cases hwin : s.loc = .body 1 j ∨ s.loc = .body 2 j
    · refine ⟨v, hv.masked hwin, hw.discard ?_⟩
      rintro ⟨-, -, hout⟩
      rw [(h.inWindow_iff hph hj).mpr hwin] at hout
      cases hout
    · have hout : st.inWindow j = false :=
        Bool.eq_false_iff.mpr fun hc => hwin ((h.inWindow_iff hph hj).mp hc)
      have hx : (st.discard j).exposed j = true := by
        rw [discard_exposed, if_pos ⟨rfl, hun, hout⟩]
      have hzero : load64 (st.discard j).mem ((hammerPass r).word j) = 0 := by
        rw [hammerPass_word]
        exact discard_word st j
      push Not at hwin
      by_cases hlt : j < s.loc.progress (hammerPass r).pages
      · refine ⟨-1, Swept.of_word hwin.1 hwin.2 ?_, Holds.of_exposed hx (Nat.zero_le _) rfl⟩
        rw [hzero, if_pos hlt]
        rfl
      · refine ⟨0, Swept.of_word hwin.1 hwin.2 ?_, Holds.of_exposed hx ?_ rfl⟩
        · rw [hzero, if_neg hlt]
        · -- at `b outer` every page has been dealt with
          have hagain : s.loc ≠ .again := by
            intro hs
            rw [hs] at hlt
            exact hlt (by simpa [Loc.progress] using hj)
          rw [begun, if_neg hagain]
          exact Nat.le_add_left 1 _
  · refine ⟨v, hv.congr ?_, hw.discard fun hc => hji hc.1⟩
    rw [hammerPass_word]
    exact discard_word_of_ne st hji

/-! ### One guest instruction -/

/-- One instruction of a sweep keeps every page: what it counts as holding at the start of the sweep
stays the same. -/
theorem Hammering.ran (h : Hammering r st s) {s' : PState} {m' : Mem} {c' : Cpu}
    (hstep : passStep (hammerPass r) s st.mem = some (s', m')) (hsim : Sim (hammerPass r) s' c') :
    Hammering r { st with cpu := c', mem := m' } s' := by
  refine ⟨hsim, ?_, fun i hi => ?_⟩
  · have hx4 := h.x4
    unfold counted at *
    rcases passStep_hammer_count rfl h.sim.valid hstep with ⟨hs, hs', h4⟩ | ⟨hs, hs', h4⟩
    · rw [h4, hx4, if_pos hs', if_neg (by simp [hs])]
      exact (BitVec.ofNat_add ..).symm
    · rw [h4, hx4, if_neg hs, if_neg hs']
  · obtain ⟨v, hv, hw⟩ := h.pages i hi
    have hagain' : s'.loc ≠ .again := passStep_ne_again hstep
    by_cases hagain : s.loc = .again
    · -- the next sweep begins
      rw [passStep_again hagain, Option.some.injEq, Prod.mk.injEq] at hstep
      obtain ⟨rfl, rfl⟩ := hstep
      refine ⟨v + 1, hv.again (by simpa using hi) hagain, ?_⟩
      rw [begun, if_pos hagain] at hw
      exact hw.succ.congr rfl
    · refine ⟨v, hv.step rfl h.sim.valid hagain hstep, ?_⟩
      rw [begun, if_neg hagain] at hw
      rw [begun, if_neg hagain']
      exact hw.congr rfl

/-- At the doorbell every page has been swept once more, so its word in memory holds what `made + 1`
sweeps make of it. -/
theorem Hammering.swept (h : Hammering r st s) (hs : s.loc = .doorbell) (hi : i < r.pages) :
    Holds st i (st.made + 1) (load64 st.mem (ramGpa + i * page)) := by
  obtain ⟨v, hv, hw⟩ := h.pages i hi
  rw [← hammerPass_word r, hv.done (by simpa using hi) hs]
  rwa [begun, if_neg (by simp [hs])] at hw

/-- The callback lets the guest go on: the vCPU stands at `b outer`. -/
theorem Hammering.resume (h : Hammering r st s) (hs : s.loc = .doorbell) :
    Hammering r { st with cpu := { st.cpu with pc := st.cpu.pc + 4 }, made := st.made + 1 }
      { s with loc := .again } := by
  refine ⟨h.sim.resume hs, ?_, fun i hi => ?_⟩
  · rw [h.x4, counted, if_pos hs]
    rfl
  · obtain ⟨v, hv, hw⟩ := h.pages i hi
    refine ⟨v, hv.resume hs, ?_⟩
    rw [begun, if_neg (by simp [hs])] at hw
    exact hw.congr rfl

/-- If the callback answers no at the doorbell, `run_hammer` returns and the survey begins, with
every page as the sweeps have left it. -/
theorem Hammering.stop (h : Hammering r st s) (hclear : Clear st) (hs : s.loc = .doorbell) :
    Surveying r { st with phase := .surveying 0, sweeps := st.cpu.x 4, made := st.made + 1 } 0 := by
  refine ⟨?_, fun i hi _ => (h.swept hs hi).congr rfl, ?_, ?_, ?_⟩
  · change st.cpu.x 4#5 = BitVec.ofNat 64 (st.made + 1)
    rw [h.sim.x4, h.x4, counted, if_pos hs]
  · intro i hi
    exact absurd hi (Nat.not_lt_zero i)
  · intro i hi
    rw [show st.lostPages = [] from hclear.lostPages] at hi
    cases hi
  · change st.lost = st.lostPages.length
    rw [hclear.lost, hclear.lostPages, List.length_nil]

/-- What one guest instruction does to the check: at the doorbell it rings, counts the sweep and
goes by the answer of the callback; anywhere else it stays inside the sweep. -/
theorem Hammering.guest (h : Hammering r st s) (keepGoing : Bool) :
    (s.loc = .doorbell ∧ st.guest r keepGoing =
        if keepGoing then
          { st with cpu := { st.cpu with pc := st.cpu.pc + 4 }, made := st.made + 1 }
        else { st with phase := .surveying 0, sweeps := st.cpu.x 4, made := st.made + 1 }) ∨
      ∃ s' m' c', passStep (hammerPass r) s st.mem = some (s', m') ∧ Sim (hammerPass r) s' c' ∧
        st.guest r keepGoing = { st with cpu := c', mem := m' } := by
  rcases h.sim.step (hammerPass_fits r) st.mem with
    ⟨hs, hexit⟩ | ⟨s', m', c', hstep, hran, hsim⟩
  · refine .inl ⟨hs, ?_⟩
    cases keepGoing <;> simp [State.guest, hexit, State.turn, hammerTurn]
  · refine .inr ⟨s', m', c', hstep, hsim, ?_⟩
    simp only [State.guest, hran]

/-! ### One read of the survey -/

/-- What the survey compares a page with is its address plus the sweeps made, as 64 bits hold the
sum. -/
theorem expected_eq (h : Surveying r st next) :
    ramAddr (i * page) + st.sweeps = BitVec.ofNat 64 (ramGpa + i * page + st.made) := by
  rw [h.sweeps, ramAddr, BitVec.ofNat_add (ramGpa + i * page)]

/-- Reading one page keeps the survey in order: the page is counted as lost exactly if it does not
hold the expected word, and all pages after it are as before. -/
theorem Surveying.survey (h : Surveying r st next) (hlt : next < r.pages) :
    Surveying r (st.survey next) (next + 1) := by
  have hnext := h.ahead next hlt le_rfl
  have hnot : next ∉ st.lostPages := fun hc => Nat.lt_irrefl next (h.lost_lt next hc)
  unfold State.survey
  simp only [expected_eq h]
  by_cases hv : load64 st.mem (ramGpa + next * page) =
      BitVec.ofNat 64 (ramGpa + next * page + st.made)
  · rw [if_pos hv]
    refine ⟨h.sweeps, fun i hi hle => (h.ahead i hi (by omega)).congr rfl, fun i hi => ?_,
      fun i hi => Nat.lt_succ_of_lt (h.lost_lt i hi), h.lost_eq⟩
    rcases Nat.lt_succ_iff_lt_or_eq.mp hi with hi | rfl
    · obtain ⟨w, hw, hiff⟩ := h.behind i hi
      exact ⟨w, hw.congr rfl, hiff⟩
    · exact ⟨_, hnext.congr rfl, by simp [hnot, hv]⟩
  · rw [if_neg hv]
    refine ⟨h.sweeps, fun i hi hle => (h.ahead i hi (by omega)).congr rfl, fun i hi => ?_, ?_, ?_⟩
    · rcases Nat.lt_succ_iff_lt_or_eq.mp hi with hi | rfl
      · obtain ⟨w, hw, hiff⟩ := h.behind i hi
        refine ⟨w, hw.congr rfl, ?_⟩
        rw [← hiff, List.mem_cons]
        exact or_iff_right (Nat.ne_of_lt hi)
      · exact ⟨_, hnext.congr rfl, by simp [hv]⟩
    · intro i hi
      rcases List.mem_cons.mp hi with rfl | hi
      · exact Nat.lt_succ_self _
      · exact Nat.lt_succ_of_lt (h.lost_lt i hi)
    · simp [h.lost_eq]

/-- A discard during the survey: pages already read do not change their verdict. -/
theorem Surveying.discard (h : Surveying r st next) (hph : st.phase = .surveying next) (i : ℕ) :
    Surveying r (st.discard i) next := by
  have hun : ∀ j, st.unread j = decide (next ≤ j) := by simp [State.unread, hph]
  have hwin : ∀ j, st.inWindow j = false := by simp [State.inWindow, hph]
  refine ⟨h.sweeps, fun j hj hle => ?_, fun j hj => ?_, h.lost_lt, h.lost_eq⟩
  · exact holds_discard (by simpa [hun] using hle) (hwin j) (h.ahead j hj hle) i
  · obtain ⟨w, hw, hiff⟩ := h.behind j hj
    refine ⟨w, hw.discard ?_, hiff⟩
    rintro ⟨rfl, hle, -⟩
    rw [hun, decide_eq_true_iff] at hle
    omega

/-! ### Every step -/

/-- After pass 2 the invariant holds: every page holds its own address, nothing is counted and no
sweep made. -/
theorem invariant_initial (h : Initial r st) : Invariant r st := by
  obtain ⟨⟨cpu, mem, rfl⟩, htouched⟩ := h
  exact ⟨⟨rfl, rfl⟩, rfl, fun i hi => htouched i hi⟩

/-- Arming the hammer enters its first sweep with every page as the touch pass has left it. -/
theorem hammering_start (hmade : st.made = 0)
    (h : ∀ i < r.pages, Holds st i 0 (load64 st.mem (ramGpa + i * page))) :
    Hammering r { st with phase := .hammering, cpu := armHammer r st.cpu }
      (hammerStart st.cpu) := by
  refine ⟨sim_armHammer r st.cpu, ?_, fun i hi => ?_⟩
  · simp [hammerStart, counted, hmade]
  · refine ⟨load64 st.mem (ramGpa + i * page), Swept.of_word (by simp [hammerStart])
      (by simp [hammerStart]) (by simp [hammerStart, Loc.progress, hammerPass_word]), ?_⟩
    have hbegun : begun { st with phase := .hammering, cpu := armHammer r st.cpu }
        (hammerStart st.cpu) = 0 + 1 := by
      simp [begun, hammerStart, hmade]
    rw [hbegun]
    exact (h i hi).succ.congr rfl

/-- One guest instruction keeps the invariant, whatever the callback would answer. -/
theorem invariant_guest (hph : st.phase = .hammering) (h : Invariant r st) (keepGoing : Bool) :
    Invariant r (st.guest r keepGoing) := by
  obtain ⟨hclear, s, hs⟩ := (invariant_hammering hph).mp h
  rcases hs.guest keepGoing with ⟨hloc, heq⟩ | ⟨s', m', c', hps, hsim, heq⟩
  · rw [heq]
    cases keepGoing with
    | true =>
        refine (invariant_hammering ?_).mpr ⟨⟨hclear.lost, hclear.lostPages⟩, _, hs.resume hloc⟩
        exact hph
    | false => exact hs.stop hclear hloc
  · rw [heq]
    refine (invariant_hammering ?_).mpr ⟨⟨hclear.lost, hclear.lostPages⟩, s', hs.ran hps hsim⟩
    exact hph

/-- A discard of any page, at any moment, keeps the invariant: a page that the survey has still to
read and that is not between its load and its store becomes an exposed one, and any other reads as
it would have. -/
theorem invariant_discard (h : Invariant r st) (i : ℕ) : Invariant r (st.discard i) := by
  cases hph : st.phase with
  | preparing =>
      have hph' : (st.discard i).phase = .preparing := hph
      unfold Invariant at h ⊢
      rw [hph] at h
      rw [hph']
      refine ⟨⟨h.1.lost, h.1.lostPages⟩, h.2.1, fun j hj => ?_⟩
      exact holds_discard (by simp [State.unread, hph]) (by simp [State.inWindow, hph])
        (h.2.2 j hj) i
  | hammering =>
      obtain ⟨hclear, s, hs⟩ := (invariant_hammering hph).mp h
      refine (invariant_hammering ?_).mpr ⟨⟨hclear.lost, hclear.lostPages⟩, s, hs.discard hph i⟩
      exact hph
  | surveying next =>
      refine (invariant_surveying ?_).mpr (((invariant_surveying hph).mp h).discard hph i)
      exact hph
  | panicked =>
      have hph' : (st.discard i).phase = .panicked := hph
      unfold Invariant
      rw [hph']
      trivial

/-- One read of the survey moves on to the next page, whatever it finds. -/
theorem survey_phase (st : State) (next : ℕ) : (st.survey next).phase = .surveying (next + 1) := by
  unfold State.survey
  by_cases hv : load64 st.mem (ramGpa + next * page) = ramAddr (next * page) + st.sweeps
  · simp only [if_pos hv]
  · simp only [if_neg hv]

/-- **Every step keeps the invariant**: arming, guest instructions, cancellations, discards and
reads. One lemma each; a cancellation leaves the state as it was. -/
theorem invariant_step (st : State) (e : Event) (st' : State) (_ : True) (h : Invariant r st)
    (hstep : step r st e = some st') : Invariant r st' := by
  cases e with
  | start =>
      simp only [step, Option.ite_none_right_eq_some, Option.some.injEq] at hstep
      obtain ⟨hph, rfl⟩ := hstep
      unfold Invariant at h
      rw [hph] at h
      exact ⟨⟨h.1.lost, h.1.lostPages⟩, _, hammering_start h.2.1 h.2.2⟩
  | guest keepGoing =>
      simp only [step, Option.ite_none_right_eq_some, Option.some.injEq] at hstep
      obtain ⟨hph, rfl⟩ := hstep
      exact invariant_guest hph h keepGoing
  | cancel =>
      simp only [step, Option.ite_none_right_eq_some, Option.some.injEq] at hstep
      obtain ⟨hph, rfl⟩ := hstep
      have hsame : st.turn canceledExit true = st := by simp [State.turn, hammerTurn]
      rw [hsame]
      exact h
  | discard i =>
      simp only [step, Option.some.injEq] at hstep
      subst hstep
      exact invariant_discard h i
  | read =>
      cases hph : st.phase with
      | surveying next =>
          simp only [step, hph, Option.ite_none_right_eq_some, Option.some.injEq] at hstep
          obtain ⟨hlt, rfl⟩ := hstep
          rw [invariant_surveying (survey_phase st next)]
          rw [invariant_surveying hph] at h
          exact h.survey ((r.mul_page_lt_iff next).mp hlt)
      | preparing | hammering | panicked => simp [step, hph] at hstep

end invariant

end VmRatchet.Hammer
