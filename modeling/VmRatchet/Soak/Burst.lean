import VmRatchet.Ledger.Pressure
import VmRatchet.Soak.Worker

/-!
# The bursts of the pressure thread

The pressure thread of the soak applies pressure in bursts: it calls `pressure::apply`, keeps the
guard for a while, drops it, pauses and starts over, until `stop` is stored. Every burst is a child
process of its own, that runs beside the thread and may end, write or close its output at any
point, also while its guard is held.

* `Point`, `Burst`, `step` — the thread, its present child, and what has happened to it.
* `Guarded` — a child that has a guard; `guarded_child` says what it may still do.
* `bursts_balanced` — outside `apply` and without a guard no child is left, and while the guard is
  held the child holds everything exactly if it has lost nothing.
* `bursts_refine` — seen from the soak, a burst is what `Shared.pressureStep` says.
-/

namespace VmRatchet.Soak.Burst

open Transition
open Ledger.Pressure (ChildEvent HoldsAll Spoiled Calm Chunks Reaped Invariant)

/-- What is known of the child: which process it is, and what it holds. -/
abbrev Child := Ledger.Pressure.State

/-- Where the pressure thread stands in its loop, with the child it has to do with.
Source: `soak.rs`, `run`; `pressure.rs`, `PressureGuard` -/
inductive Point
  /-- `while !stop.load(..)` -/
  | test
  /-- Inside `pressure::apply`. -/
  | applying (s : Child)
  /-- The wait of `PRESSURE_ON`, with the guard, if `apply` has returned one. -/
  | on (guard : Option Child)
  /-- `drop(guard)`: `kill`, then `wait`. -/
  | kill (s : Child)
  | wait (s : Child)
  /-- The wait of `PRESSURE_OFF`. -/
  | off
  | ended

/-- The child there is at this point: while `apply` runs, while a guard is held, and while the guard
is dropped. -/
def Point.child : Point → Option Child
  | .applying s | .on (some s) | .kill s | .wait s => some s
  | _ => none

/-- The same point with another state of the child. -/
def Point.setChild (t : Child) : Point → Point
  | .applying _ => .applying t
  | .on (some _) => .on (some t)
  | .kill _ => .kill t
  | .wait _ => .wait t
  | p => p

end VmRatchet.Soak.Burst

namespace VmRatchet.Soak

/-- The pressure thread. The last five fields are history: nothing reads them. -/
structure Burst where
  point : Burst.Point := .test
  stop : Bool := false
  /-- The results of `pressure::apply` so far, newest first. -/
  applied : List Bool := []
  /-- The children started, and those waited for. -/
  spawned : ℕ := 0
  reaped : ℕ := 0
  /-- The present child has been refused a chunk, or has ended on its own. -/
  lost : Bool := false
  /-- Something else has been written to its standard output. -/
  foreign : Bool := false

end VmRatchet.Soak

namespace VmRatchet.Soak.Burst

open Transition
open Ledger.Pressure (ChildEvent HoldsAll Spoiled Calm Chunks Reaped Invariant)

/-- What can happen to the pressure thread and its child, in any order. -/
inductive Event
  /-- The pressure thread moves; `ok` is how the call it stands at turns out. Its two waits may end
  at any time. -/
  | thread (ok : Bool)
  /-- The child moves, or something happens to it. -/
  | child (e : ChildEvent)
  /-- The main thread stores `stop`. -/
  | stop

/-- A step of the child, or of what surrounds it. -/
def childStep (e : ChildEvent) (s : Child) : Option Child :=
  if s.proc = .running then Ledger.Pressure.child e s else none

/-- One if this step has started the process, and else zero. -/
def born (s t : Child) : ℕ := if s.proc = .absent ∧ t.proc = .running then 1 else 0

/-- The process has been waited for by this step. -/
def gone (s t : Child) : ℕ := if s.proc ≠ .reaped ∧ t.proc = .reaped then 1 else 0

/-- `apply` goes on, or returns a guard or an error. -/
def afterApply (t : Child) : Point × List Bool :=
  match t.parent with
  | .returned (.ok ()) => (.on (some t), [true])
  | .returned (.error _) => (.on none, [false])
  | _ => (.applying t, [])

/-- `kill` of the guard's child; a signal to a process that has ended changes nothing. -/
def kill (ok : Bool) (s : Child) : Child :=
  { s with proc := if ok = true ∧ s.proc = .running then .zombie else s.proc }

/-- One step of the pressure thread.
Source: `soak.rs`, `run`; `pressure.rs`, `PressureGuard::drop` -/
def thread (gb : ℕ) (ok : Bool) (b : Burst) : Option Burst :=
  match b.point with
  | .test => some { b with
      point := if b.stop then .ended else .applying (Ledger.Pressure.init fun _ => 0)
      lost := false
      foreign := false }
  | .applying s => (Ledger.Pressure.apply gb ok s).map fun t => { b with
      point := (afterApply t).1
      applied := (afterApply t).2 ++ b.applied
      spawned := b.spawned + born s t
      reaped := b.reaped + gone s t }
  | .on (some s) => some { b with point := .kill s }
  | .on none => some { b with point := .off }
  | .kill s => some { b with point := .wait (kill ok s) }
  | .wait s =>
      if s.proc = .zombie then some { b with point := .off, reaped := b.reaped + 1 } else none
  | .off => some { b with point := .test }
  | .ended => none

/-- One step of the thread, of its child or of the main thread. -/
def step (gb : ℕ) (b : Burst) : Event → Option Burst
  | .thread ok => thread gb ok b
  | .child e => b.point.child.bind fun s => (childStep e s).map fun t => { b with
      point := b.point.setChild t
      lost := b.lost || (Ledger.Pressure.Event.child e).isLoss
      foreign := b.foreign || (Ledger.Pressure.Event.child e).isForeign }
  | .stop => some { b with stop := true }

/-! ## The child, seen from its guard -/

/-- A process that has been started and not waited for. -/
def live : Ledger.Pressure.Proc → ℕ
  | .running | .zombie => 1
  | .absent | .reaped => 0

/-- **Guarded.** A child whose guard has not been dropped, or whose drop is not through: it has not
been waited for; it bears the mark of a loss; and without one, and without foreign output, it sleeps
on everything it was to hold. -/
structure Guarded (gb : ℕ) (lost foreign : Bool) (s : Child) : Prop where
  unreaped : s.proc = .running ∨ s.proc = .zombie
  chunks : Chunks gb s
  spoiled : lost = true → Spoiled gb s
  resting : lost = false → foreign = false → s.gen = .sleep ∧ s.held.length = gb

section child

variable {gb : ℕ} {lost foreign : Bool} {s t : Child} {e : ChildEvent}

/-- What the child does is the same wherever the parent is in its loop: its statements and the
answers to its `mmap` look at its own state alone. -/
theorem child_parent {p : Ledger.Pressure.Parent} (h : Ledger.Pressure.child e s = some t) :
    Ledger.Pressure.child e { s with parent := p } = some { t with parent := p } := by
  cases e with
  | next =>
      change Ledger.Pressure.generate s = some t at h
      change Ledger.Pressure.generate { s with parent := p } = _
      unfold Ledger.Pressure.generate at h ⊢
      dsimp only
      split at h
      case h_1 var hg =>
        split at h <;>
        · rw [Option.some.injEq] at h
          subst h
          rfl
      case h_2 => cases h
      case h_3 n i ptr off hg =>
        split_ifs at h ⊢ <;>
        · rw [Option.some.injEq] at h
          subst h
          rfl
      all_goals
        rw [Option.some.injEq] at h
        subst h
        rfl
  | mmap r =>
      change Ledger.Pressure.mapChunk r s = some t at h
      change Ledger.Pressure.mapChunk r { s with parent := p } = _
      unfold Ledger.Pressure.mapChunk at h ⊢
      dsimp only
      split at h
      case h_1 n i ptr hg =>
        split_ifs at h with hfit
        rw [Option.some.injEq] at h
        subst h
        exact if_pos hfit
      case h_2 n i hg =>
        rw [Option.some.injEq] at h
        subst h
        rfl
      case h_3 => cases h
  | die | write | close =>
      simp only [Ledger.Pressure.child, Option.some.injEq] at h ⊢
      subst h
      rfl

/-- While `apply` has not returned, a step of the child is a step of the two processes. -/
theorem step_of_childStep (hdone : s.parent.isDone = false) (h : childStep e s = some t) :
    Ledger.Pressure.step gb s (.child e) = some t := by
  simp only [childStep, Option.ite_none_right_eq_some] at h
  rw [Ledger.Pressure.step, if_pos ⟨h.1, hdone⟩]
  exact h.2

/-- After it has returned, the child moves as if it had not. -/
theorem step_of_guarded (h : childStep e s = some t) :
    Ledger.Pressure.step gb { s with parent := .read } (.child e) =
      some { t with parent := .read } := by
  simp only [childStep, Option.ite_none_right_eq_some] at h
  rw [Ledger.Pressure.step, if_pos ⟨h.1, rfl⟩]
  exact child_parent h.2

/-- A sleeping child that loses nothing goes on sleeping. -/
theorem sleeping_child (h : childStep e s = some t) (hg : s.gen = .sleep)
    (hloss : (Ledger.Pressure.Event.child e).isLoss = false) :
    t.gen = .sleep ∧ t.held = s.held ∧ t.proc = .running := by
  have hproc : s.proc = .running := (Option.ite_none_right_eq_some.mp h).1
  have hstep : Ledger.Pressure.step 0 { s with parent := .read } (.child e) =
      some { t with parent := .read } := step_of_guarded h
  obtain ⟨t', ht'⟩ : ∃ t', t' = { t with parent := .read } := ⟨_, rfl⟩
  have hkeep : t'.gen = .sleep ∧ t'.held = s.held ∧ t'.proc = .running := by
    rw [← ht'] at hstep
    cases Ledger.Pressure.move_of_step hstep with
    | slept | closed => exact ⟨hg, rfl, hproc⟩
    | wrote => exact ⟨hg, rfl, hproc⟩
    | refused | died => cases hloss
    | parsed _ hg' | panicked _ hg' | page _ hg' | pushed _ hg' | announced _ hg' | mapped _ hg' =>
        rw [show s.gen = _ from hg'] at hg
        cases hg
  rw [ht'] at hkeep
  exact hkeep

/-- **What a child may do under its guard.** Whatever step it takes keeps what is known of it, with
a loss or a foreign event remembered. -/
theorem guarded_child (hgb : gb < 2 ^ 64) (hs : Guarded gb lost foreign s)
    (h : childStep e s = some t) : Guarded gb (lost || (Ledger.Pressure.Event.child e).isLoss)
      (foreign || (Ledger.Pressure.Event.child e).isForeign) t := by
  have hstep : Ledger.Pressure.step gb { s with parent := .read } (.child e) =
      some { t with parent := .read } := step_of_guarded h
  have hreaped : Reaped { s with parent := .read } := hs.unreaped
  have hchunks : Chunks gb { s with parent := .read } := hs.chunks.congr rfl rfl rfl id id
  refine ⟨Ledger.Pressure.reaped_step hstep hreaped,
    (Ledger.Pressure.chunks_step hgb hstep hreaped hchunks).congr rfl rfl rfl id id, ?_, ?_⟩
  · intro hlost
    have hspoiled : Spoiled gb { t with parent := .read } := by
      rcases Bool.or_eq_true_iff.mp hlost with hlost | hloss
      · exact Ledger.Pressure.spoiled_step hstep hreaped (hs.spoiled hlost)
      · exact Ledger.Pressure.spoiled_of_isLoss hloss hstep hchunks
    exact hspoiled
  · intro hlost hforeign
    obtain ⟨hlost, hloss⟩ := Bool.or_eq_false_iff.mp hlost
    obtain ⟨hgen, hlen⟩ := hs.resting hlost (Bool.or_eq_false_iff.mp hforeign).1
    obtain ⟨hgen', hheld, -⟩ := sleeping_child h hgen hloss
    exact ⟨hgen', by rw [hheld, hlen]⟩

/-- As long as the child has lost nothing and nobody else has killed it, it goes on running: an
event that is neither a loss nor foreign leaves the process alive. -/
theorem running_child (hs : Guarded gb lost foreign s) (h : childStep e s = some t)
    (hlost : (lost || (Ledger.Pressure.Event.child e).isLoss) = false)
    (hforeign : (foreign || (Ledger.Pressure.Event.child e).isForeign) = false) :
    t.proc = .running := by
  obtain ⟨hlost, hloss⟩ := Bool.or_eq_false_iff.mp hlost
  obtain ⟨hgen, -⟩ := hs.resting hlost (Bool.or_eq_false_iff.mp hforeign).1
  exact (sleeping_child h hgen hloss).2.2

end child

/-! ## The invariant -/

/-- **Applying.** A call of `apply` that has not returned. -/
structure Applying (gb : ℕ) (lost foreign : Bool) (s : Child) : Prop where
  invariant : Invariant gb s
  going : s.parent.isDone = false
  spoiled : lost = true → Spoiled gb s
  calm : lost = false → foreign = false → Calm gb s

/-- At the start of a call of `apply`, before the child is started, the invariant of `apply` holds,
nothing is spoiled and all is calm. -/
theorem applying_init (gb : ℕ) (m : ByteMemory.Mem) :
    Applying gb false false (Ledger.Pressure.init m) where
  invariant := Ledger.Pressure.invariant_init gb m
  going := rfl
  spoiled h := absurd h Bool.false_ne_true
  calm _ _ :=
    { idle := fun _ => rfl
      alive := fun h => by rcases h with h | h <;> cases h
      full := fun h => by rcases h with h | h <;> cases h
      silent := .inl rfl
      told := fun h => by cases h }

/-- What holds of the child at each point of the loop. -/
def AtPoint (gb : ℕ) (b : Burst) : Prop :=
  match b.point with
  | .applying s => Applying gb b.lost b.foreign s
  | .on (some s) | .kill s =>
      Guarded gb b.lost b.foreign s ∧ (b.lost = false → b.foreign = false → s.proc = .running)
  | .wait s => Guarded gb b.lost b.foreign s
  | .ended => b.stop = true
  | _ => True

/-- The children that have been started and not waited for. -/
def Point.live (p : Point) : ℕ :=
  match p.child with
  | some s => Burst.live s.proc
  | none => 0

/-- **Balanced.** Every child that has been started has been waited for, except the present one. -/
structure Balanced (gb : ℕ) (b : Burst) : Prop where
  count : b.spawned = b.reaped + b.point.live
  point : AtPoint gb b

section steps

variable {gb : ℕ} {b b' : Burst} {s t : Child} {e : ChildEvent} {ok : Bool}

/-- A step of `apply` starts a process or waits for one, or leaves the process as it is. -/
theorem live_apply (h : Ledger.Pressure.apply gb ok s = some t) (hr : Reaped s) :
    Burst.live s.proc + born s t = Burst.live t.proc + gone s t := by
  have hmove : Ledger.Pressure.Move gb s (.parent ok) t := Ledger.Pressure.move_of_apply h
  cases hmove with
  | currentExe | notSpawned | holding | other =>
      cases hp : s.proc <;> simp [born, gone, hp]
  | spawned hp =>
      rw [Reaped, hp] at hr
      simp [born, gone, hr, Burst.live]
  | kill hp =>
      rw [Reaped, hp] at hr
      rcases hr with hr | hr <;> cases ok <;> simp [born, gone, hr, Burst.live]
  | wait hp hproc => simp [born, gone, hproc, Burst.live]

/-- A step of the child starts no process and waits for none. -/
theorem live_child (h : childStep e s = some t) (hs : s.proc = .running ∨ s.proc = .zombie) :
    Burst.live t.proc = Burst.live s.proc := by
  have hstep : Ledger.Pressure.step 0 { s with parent := .read } (.child e) =
      some { t with parent := .read } := step_of_guarded h
  have hreaped : Reaped { t with parent := .read } := Ledger.Pressure.reaped_step hstep hs
  rcases hs with hs | hs <;> rcases hreaped with ht | ht <;>
    simp only [show t.proc = _ from ht, hs, Burst.live]

/-- While there is a child to do with, what is live at the point is exactly whether the process of
that child is, before and after the child takes a step. -/
theorem Point.live_setChild {p : Point} (h : p.child = some s) :
    (p.setChild t).live = Burst.live t.proc ∧ p.live = Burst.live s.proc := by
  cases p with
  | test | off | ended => cases h
  | applying | kill | wait =>
      cases h
      exact ⟨rfl, rfl⟩
  | on guard =>
      cases guard with
      | none => cases h
      | some s =>
          cases h
          exact ⟨rfl, rfl⟩

/-- A step of `apply` leads to a later point of the call, or to its end with a guard or with an
error; and what is known of the child is what holds there. -/
theorem atPoint_apply (hgb : gb < 2 ^ 64) (hs : Applying gb b.lost b.foreign s)
    (h : Ledger.Pressure.apply gb ok s = some t) {n m : ℕ} {l : List Bool} :
    AtPoint gb { b with point := (afterApply t).1, applied := l, spawned := n, reaped := m } ∧
      (afterApply t).1.live = Burst.live t.proc := by
  have hstep : Ledger.Pressure.step gb s (.parent ok) = some t := h
  have hinv := Ledger.Pressure.invariant_step hgb hstep hs.invariant
  have hspoiled : b.lost = true → Spoiled gb t := fun hlost =>
    Ledger.Pressure.spoiled_step hstep hs.invariant.reaped (hs.spoiled hlost)
  have hcalm : b.lost = false → b.foreign = false → Calm gb t := fun hlost hforeign =>
    Ledger.Pressure.calm_step hgb rfl rfl hstep hs.invariant.reaped hs.invariant.chunks
      (hs.calm hlost hforeign)
  have hreaped := hinv.reaped
  cases hp : t.parent with
  | returned r =>
      rw [Reaped, hp] at hreaped
      cases r with
      | ok u =>
          -- the guard
          simp only [afterApply, hp, AtPoint]
          refine ⟨⟨⟨hreaped, hinv.chunks, hspoiled, fun hlost hforeign => ?_⟩,
            fun hlost hforeign => ?_⟩, rfl⟩
          · have hc := hcalm hlost hforeign
            have hsleep := hc.silent.resolve_left (hc.told hp)
            exact ⟨hsleep, hc.full (.inr hsleep)⟩
          · exact (hcalm hlost hforeign).alive (.inr hp)
      | error err =>
          -- no child is left
          simp only [afterApply, hp, AtPoint, true_and]
          rcases hreaped with hproc | hproc <;> simp [Point.live, Point.child, Burst.live, hproc]
  | currentExe | spawn | read | kill | wait =>
      simp only [afterApply, hp, AtPoint]
      exact ⟨⟨hinv, by rw [hp]; rfl, hspoiled, hcalm⟩, rfl⟩

/-- A signal ends the child, or finds it ended, or does not reach it. -/
theorem guarded_kill {lost foreign : Bool} (hs : Guarded gb lost foreign s) :
    Guarded gb lost foreign (kill ok s) := by
  have hproc : (kill ok s).proc = .zombie ∨ (kill ok s).proc = s.proc := by
    simp only [kill]
    split_ifs
    · exact .inl rfl
    · exact .inr rfl
  refine ⟨?_, hs.chunks.congr rfl rfl rfl ?_ ?_, fun hlost => ?_, hs.resting⟩
  · rcases hproc with h | h
    · exact .inr h
    · exact h ▸ hs.unreaped
  · rcases hproc with h | h <;> rw [h]
    · exact fun h => by cases h
    · exact id
  · rcases hproc with h | h <;> rw [h]
    · exact fun h => by cases h
    · exact id
  · obtain ⟨habsent, hrest⟩ := hs.spoiled hlost
    unfold Spoiled
    rcases hproc with h | h <;> rw [h]
    · exact ⟨by simp, .inl (by simp)⟩
    · exact ⟨habsent, hrest⟩

/-- Whether `kill` succeeds or fails, the child is there to be waited for, if it was. -/
theorem live_kill (ok : Bool) (s : Child) : Burst.live (kill ok s).proc = Burst.live s.proc := by
  simp only [kill]
  split_ifs with h
  · rw [h.2]
    rfl
  · rfl

/-- **One step of the pressure thread.** Whatever the call it makes returns, a step of the thread
keeps the account of children started and reaped and what holds of the child at the point it leads
to. -/
theorem balanced_thread (hgb : gb < 2 ^ 64) (h : thread gb ok b = some b')
    (hs : Balanced gb b) : Balanced gb b' := by
  obtain ⟨hcount, hpoint⟩ := hs
  unfold thread at h
  unfold AtPoint at hpoint
  cases hp : b.point with
  | test =>
      simp only [hp, Option.some.injEq] at h hcount
      subst h
      cases hstop : b.stop with
      | true => exact ⟨hcount, rfl⟩
      | false => exact ⟨hcount, applying_init gb _⟩
  | applying s =>
      simp only [hp, Option.map_eq_some_iff] at h hpoint
      obtain ⟨t, happly, rfl⟩ := h
      obtain ⟨hat, hlive⟩ := atPoint_apply hgb hpoint happly
      refine ⟨?_, hat⟩
      have hbal := live_apply happly hpoint.invariant.reaped
      rw [hp] at hcount
      have hcount' : b.spawned = b.reaped + Burst.live s.proc := hcount
      simp only [hlive]
      omega
  | on guard =>
      cases guard with
      | none =>
          simp only [hp, Option.some.injEq] at h
          subst h
          exact ⟨by rw [hcount, hp]; rfl, trivial⟩
      | some s =>
          simp only [hp, Option.some.injEq] at h hpoint
          subst h
          exact ⟨by rw [hcount, hp]; rfl, hpoint⟩
  | kill s =>
      simp only [hp, Option.some.injEq] at h hpoint
      subst h
      rw [hp] at hcount
      refine ⟨?_, guarded_kill hpoint.1⟩
      have hcount' : b.spawned = b.reaped + Burst.live s.proc := hcount
      rw [hcount', ← live_kill ok s]
      rfl
  | wait s =>
      simp only [hp, Option.ite_none_right_eq_some, Option.some.injEq] at h
      obtain ⟨hproc, rfl⟩ := h
      rw [hp] at hcount
      have hcount' : b.spawned = b.reaped + Burst.live s.proc := hcount
      refine ⟨?_, trivial⟩
      simp only [hproc, Burst.live] at hcount'
      simp [hcount', Point.live, Point.child]
  | off =>
      simp only [hp, Option.some.injEq] at h
      subst h
      exact ⟨by rw [hcount, hp]; rfl, trivial⟩
  | ended => simp [hp] at h

/-- **One step of the child**, wherever the thread stands, keeps the account of children and what
holds of it at that point. Inside `apply` it is a step of the two processes there; while the guard
is held or dropped the parent does not take part, and the child is seen through the state `apply`
has left it in. -/
theorem balanced_child (hgb : gb < 2 ^ 64) (hchild : b.point.child = some s)
    (h : childStep e s = some t) (hs : Balanced gb b) : Balanced gb { b with
      point := b.point.setChild t
      lost := b.lost || (Ledger.Pressure.Event.child e).isLoss
      foreign := b.foreign || (Ledger.Pressure.Event.child e).isForeign } := by
  obtain ⟨hcount, hpoint⟩ := hs
  obtain ⟨hset, hlive⟩ := Point.live_setChild (t := t) hchild
  have hproc : s.proc = .running := (Option.ite_none_right_eq_some.mp h).1
  refine ⟨?_, ?_⟩
  · simp only [hset]
    rw [hcount, hlive, live_child h (.inl hproc)]
  unfold AtPoint at hpoint
  cases hp : b.point with
  | test | off | ended =>
      rw [hp] at hchild
      cases hchild
  | applying s' =>
      rw [hp] at hchild
      cases hchild
      simp only [hp] at hpoint
      have hstep : Ledger.Pressure.step gb s (.child e) = some t :=
        step_of_childStep hpoint.going h
      have hparent : t.parent = s.parent := by
        cases Ledger.Pressure.move_of_step hstep <;> rfl
      refine ⟨Ledger.Pressure.invariant_step hgb hstep hpoint.invariant,
        by rw [hparent]; exact hpoint.going, fun hlost => ?_, fun hlost hforeign => ?_⟩
      · rcases Bool.or_eq_true_iff.mp hlost with hlost | hloss
        · exact Ledger.Pressure.spoiled_step hstep hpoint.invariant.reaped (hpoint.spoiled hlost)
        · exact Ledger.Pressure.spoiled_of_isLoss hloss hstep hpoint.invariant.chunks
      · obtain ⟨hlost, hloss⟩ := Bool.or_eq_false_iff.mp hlost
        obtain ⟨hforeign, hown⟩ := Bool.or_eq_false_iff.mp hforeign
        exact Ledger.Pressure.calm_step hgb hloss hown hstep hpoint.invariant.reaped
          hpoint.invariant.chunks (hpoint.calm hlost hforeign)
  | on guard =>
      cases guard with
      | none =>
          rw [hp] at hchild
          cases hchild
      | some s' =>
          rw [hp] at hchild
          cases hchild
          simp only [hp] at hpoint
          exact ⟨guarded_child hgb hpoint.1 h, running_child hpoint.1 h⟩
  | kill s' =>
      rw [hp] at hchild
      cases hchild
      simp only [hp] at hpoint
      exact ⟨guarded_child hgb hpoint.1 h, running_child hpoint.1 h⟩
  | wait s' =>
      rw [hp] at hchild
      cases hchild
      simp only [hp] at hpoint
      exact guarded_child hgb hpoint h

/-- **One step** of the thread, of its child or of the main thread. -/
theorem balanced_step (hgb : gb < 2 ^ 64) {ev : Event} (h : step gb b ev = some b')
    (hs : Balanced gb b) : Balanced gb b' := by
  cases ev with
  | thread ok => exact balanced_thread hgb h hs
  | child e =>
      obtain ⟨s, hchild, h⟩ := Option.bind_eq_some_iff.mp h
      obtain ⟨t, ht, rfl⟩ := Option.map_eq_some_iff.mp h
      exact balanced_child hgb hchild ht hs
  | stop =>
      simp only [step, Option.some.injEq] at h
      subst h
      refine ⟨hs.count, ?_⟩
      have hpoint := hs.point
      unfold AtPoint at hpoint ⊢
      cases hp : b.point with
      | ended => rfl
      | test | off => trivial
      | on guard =>
          cases guard with
          | none => trivial
          | some s => simpa only [hp] using hpoint
      | applying | kill | wait => simpa only [hp] using hpoint

end steps

/-! ## Whole runs -/

section runs

variable {gb : ℕ} {b b' : Burst} {es : List Event}

/-- Before the first burst there is no child. -/
theorem balanced_init (gb : ℕ) : Balanced gb {} where
  count := rfl
  point := trivial

/-- Every run of the pressure thread from its start, with its children and whatever fails, leads to
a state in which the children are balanced. -/
theorem balanced_run (hgb : gb < 2 ^ 64) (h : run (step gb) {} es = some b) : Balanced gb b :=
  run_invariant (P := fun _ _ => True) (fun _ _ _ _ hs hstep => balanced_step hgb hstep hs)
    (.of_labels (fun _ _ _ => trivial) _) (balanced_init gb) h

/-- At every point of the loop at most one child is live, the one the thread has to do with
there. -/
theorem Point.live_le (p : Point) : p.live ≤ 1 := by
  unfold Point.live
  cases p.child with
  | none => exact Nat.zero_le 1
  | some s =>
      simp only
      cases s.proc <;> simp only [Burst.live] <;> omega

/-- A guarded child that lives and has lost nothing holds everything. -/
theorem Guarded.holdsAll {s : Child} {lost foreign : Bool} (hs : Guarded gb lost foreign s)
    (hrunning : lost = false → foreign = false → s.proc = .running) (hforeign : foreign = false) :
    HoldsAll gb s ↔ lost = false := by
  constructor
  · intro hholds
    cases hlost : lost with
    | false => rfl
    | true => exact absurd hholds (hs.spoiled hlost).not_holdsAll
  · intro hlost
    exact ⟨hrunning hlost hforeign, (hs.resting hlost hforeign).2, hs.chunks.apart,
      hs.chunks.dirtied⟩

end runs

/-- **No child is left behind, and a held guard stands for all of it.** In every run of the pressure
thread, whatever its children do and whichever calls fail: at any moment, also inside `apply`, every
child that was started has been waited for exactly once, but for at most one; none is left at any
point of the loop that has no child to do with, which are those outside `apply` at which no guard is
held or dropped and the end of the thread, reached only once it was told to stop; and all the time
the guard is held, not only when `apply` returns it, the child holds all `gb` GiB with every page
dirtied exactly if it was refused no chunk and has not ended. -/
theorem bursts_balanced (gb : UInt64) {es : List Event} {b : Burst}
    (hrun : run (step gb.toNat) {} es = some b) :
    b.spawned = b.reaped + b.point.live ∧ b.point.live ≤ 1 ∧
      (b.point.child = none → b.spawned = b.reaped) ∧ (b.point = .ended → b.stop = true) ∧
      ∀ s, b.point = .on (some s) → b.foreign = false →
        (HoldsAll gb.toNat s ↔ b.lost = false) := by
  have hB := balanced_run gb.toNat_lt hrun
  have hpoint := hB.point
  refine ⟨hB.count, b.point.live_le, fun hnone => ?_, fun hended => ?_, fun s hs hforeign => ?_⟩
  · rw [hB.count, Point.live, hnone]
    rfl
  · rw [AtPoint, hended] at hpoint
    exact hpoint
  · rw [AtPoint, hs] at hpoint
    exact hpoint.1.holdsAll hpoint.2 hforeign

/-- A burst whose child dies at once: it is waited for, and there is no guard. -/
theorem bursts_balanced_child_dies :
    ∃ b, run (step 1) {} [.thread true, .thread true, .thread true, .child .die, .thread true,
        .thread true, .thread true] = some b ∧ b.spawned = 1 ∧ b.reaped = 1 ∧
      b.spawned = b.reaped + b.point.live := by
  have hrun : run (step 1) {} [.thread true, .thread true, .thread true, .child .die, .thread true,
      .thread true, .thread true] = some _ := rfl
  exact ⟨_, hrun, rfl, rfl, (bursts_balanced 1 hrun).1⟩

/-! ## The bursts as the soak sees them -/

/-- Where the thread stands, without its child: the points of the model in which a burst is one
step. -/
def Point.erase : Point → PressureAt
  | .test => .test
  | .applying _ => .apply
  | .on _ | .kill _ | .wait _ => .on
  | .off => .off
  | .ended => .ended

/-- **Abstracts.** The shared state of the soak knows the place of the thread, its flag and the
results of `apply`. -/
structure Abstracts (b : Burst) (sh : Shared) : Prop where
  pressure : sh.pressure = b.point.erase
  applied : sh.applied = b.applied
  stop : sh.stop = b.stop

/-- What the soak sees: a step of the pressure thread, or the main thread storing `stop`. -/
def seen (sh : Shared) : Option Bool → Option Shared
  | some ok => sh.pressureStep ok
  | none => some { sh with stop := true }

section refine

variable {gb : ℕ} {b b' : Burst} {sh : Shared} {es : List Event}

/-- A step that changes nothing of what the soak sees is no step of the abstract thread. -/
theorem Abstracts.stutter (h : Abstracts b sh) (hpoint : b'.point.erase = b.point.erase)
    (happlied : b'.applied = b.applied) (hstop : b'.stop = b.stop) :
    ∃ ls sh', run seen sh ls = some sh' ∧ Abstracts b' sh' :=
  ⟨[], sh, rfl, by rw [hpoint]; exact h.pressure, by rw [happlied]; exact h.applied,
    by rw [hstop]; exact h.stop⟩

/-- A step that the soak sees is simulated by that one step of the abstract thread. -/
theorem Abstracts.visible {l : Option Bool} {sh' : Shared} (hstep : seen sh l = some sh')
    (h : Abstracts b' sh') : ∃ ls sh', run seen sh ls = some sh' ∧ Abstracts b' sh' :=
  ⟨[l], sh', run_cons_eq_some.mpr ⟨sh', hstep, rfl⟩, h⟩

/-- From the test of `stop` the abstract thread ends if it is stored, and else goes on to
`apply`. -/
theorem seen_test (h : sh.pressure = .test) (ok : Bool) :
    seen sh (some ok) = some { sh with pressure := if sh.stop then .ended else .apply } := by
  rw [seen, Shared.pressureStep, h]

/-- From `apply` the abstract thread goes to the wait with the guard, and notes what `apply`
returned. -/
theorem seen_apply (h : sh.pressure = .apply) (ok : Bool) :
    seen sh (some ok) = some { sh with pressure := .on, applied := ok :: sh.applied } := by
  rw [seen, Shared.pressureStep, h]

/-- From the wait with the guard it goes to the pause. -/
theorem seen_on (h : sh.pressure = .on) (ok : Bool) :
    seen sh (some ok) = some { sh with pressure := .off } := by
  rw [seen, Shared.pressureStep, h]

/-- From the pause it goes back to the test of `stop`. -/
theorem seen_off (h : sh.pressure = .off) (ok : Bool) :
    seen sh (some ok) = some { sh with pressure := .test } := by
  rw [seen, Shared.pressureStep, h]

/-- A step of the child changes nothing the soak sees. -/
theorem Point.erase_setChild (p : Point) (t : Child) : (p.setChild t).erase = p.erase := by
  cases p with
  | on guard => cases guard <;> rfl
  | _ => rfl

/-- **One step**, as the soak sees it: every step of the loop with its child is matched by at most
one step of the abstract thread, and both stand for the same place afterwards. -/
theorem refine_step {ev : Event} (h : step gb b ev = some b') (hsh : Abstracts b sh) :
    ∃ ls sh', run seen sh ls = some sh' ∧ Abstracts b' sh' := by
  cases ev with
  | stop =>
      simp only [step, Option.some.injEq] at h
      subst h
      exact Abstracts.visible (l := none) rfl ⟨hsh.pressure, hsh.applied, rfl⟩
  | child e =>
      obtain ⟨s, -, h⟩ := Option.bind_eq_some_iff.mp h
      obtain ⟨t, -, rfl⟩ := Option.map_eq_some_iff.mp h
      exact hsh.stutter (Point.erase_setChild _ _) rfl rfl
  | thread ok =>
      change thread gb ok b = some b' at h
      have hat := hsh.pressure
      unfold thread at h
      cases hp : b.point with
      | test =>
          rw [hp] at hat
          simp only [hp, Option.some.injEq] at h
          subst h
          refine Abstracts.visible (seen_test hat ok) ⟨?_, hsh.applied, hsh.stop⟩
          simp only [hsh.stop]
          cases b.stop <;> rfl
      | applying s =>
          rw [hp] at hat
          simp only [hp, Option.map_eq_some_iff] at h
          obtain ⟨t, -, rfl⟩ := h
          unfold afterApply
          cases ht : t.parent with
          | returned r =>
              cases r with
              | ok u =>
                  exact Abstracts.visible (seen_apply hat true)
                    ⟨rfl, congrArg (true :: ·) hsh.applied, hsh.stop⟩
              | error err =>
                  exact Abstracts.visible (seen_apply hat false)
                    ⟨rfl, congrArg (false :: ·) hsh.applied, hsh.stop⟩
          | currentExe | spawn | read | kill | wait =>
              exact hsh.stutter (by rw [hp]; rfl) rfl rfl
      | on guard =>
          rw [hp] at hat
          cases guard with
          | none =>
              simp only [hp, Option.some.injEq] at h
              subst h
              exact Abstracts.visible (seen_on hat ok) ⟨rfl, hsh.applied, hsh.stop⟩
          | some s =>
              simp only [hp, Option.some.injEq] at h
              subst h
              exact hsh.stutter (by rw [hp]; rfl) rfl rfl
      | kill s =>
          simp only [hp, Option.some.injEq] at h
          subst h
          exact hsh.stutter (by rw [hp]; rfl) rfl rfl
      | wait s =>
          rw [hp] at hat
          simp only [hp, Option.ite_none_right_eq_some, Option.some.injEq] at h
          obtain ⟨-, rfl⟩ := h
          exact Abstracts.visible (seen_on hat ok) ⟨rfl, hsh.applied, hsh.stop⟩
      | off =>
          rw [hp] at hat
          simp only [hp, Option.some.injEq] at h
          subst h
          exact Abstracts.visible (seen_off hat ok) ⟨rfl, hsh.applied, hsh.stop⟩
      | ended => simp [hp] at h

end refine

/-- **The soak's pressure thread is an abstraction of the bursts.** Every run of the thread with its
children is, without the children, a run of `Shared.pressureStep` (and of the main thread storing
`stop`) that comes to the same place with the same results of `apply`. -/
theorem bursts_refine (gb : ℕ) {es : List Event} {b : Burst} {sh : Shared}
    (hrun : run (step gb) {} es = some b) (hsh : Abstracts {} sh) :
    ∃ ls sh', run seen sh ls = some sh' ∧ Abstracts b sh' := by
  suffices hmain : ∀ (es : List Event) (b₀ : Burst) (sh : Shared), Abstracts b₀ sh →
      run (step gb) b₀ es = some b → ∃ ls sh', run seen sh ls = some sh' ∧ Abstracts b sh' from
    hmain es {} sh hsh hrun
  intro es
  induction es with
  | nil =>
      intro b₀ sh hsh hrun
      rw [run_nil, Option.some.injEq] at hrun
      exact ⟨[], sh, rfl, hrun ▸ hsh⟩
  | cons ev es ih =>
      intro b₀ sh hsh hrun
      obtain ⟨b₁, hstep, hrest⟩ := run_cons_eq_some.mp hrun
      obtain ⟨ls₁, sh₁, hrun₁, hsh₁⟩ := refine_step hstep hsh
      obtain ⟨ls₂, sh₂, hrun₂, hsh₂⟩ := ih b₁ sh₁ hsh₁ hrest
      exact ⟨ls₁ ++ ls₂, sh₂, run_append.mpr ⟨sh₁, hrun₁, hrun₂⟩, hsh₂⟩

/-- What the threads share before anything has happened. -/
def untouchedShared : Shared :=
  { mem := fun _ => 0, mapped := fun _ => false, hostMapped := fun _ => false, footprint := 0 }

/-- The burst whose child dies at once: the soak sees `apply` fail. -/
theorem bursts_refine_child_dies :
    ∃ ls sh', run seen untouchedShared ls = some sh' ∧ sh'.applied = [false] := by
  have hburst : run (step 1) {} [.thread true, .thread true, .thread true, .child .die,
      .thread true, .thread true, .thread true] = some _ := rfl
  have habs : Abstracts {} untouchedShared := ⟨rfl, rfl, rfl⟩
  obtain ⟨ls, sh', hrun, hsh⟩ := bursts_refine 1 hburst habs
  exact ⟨ls, sh', hrun, hsh.applied⟩

end VmRatchet.Soak.Burst
