import Mathlib.Logic.Relation
import VmRatchet.Guest.Hammer
import VmRatchet.Lib.Run

/-!
# The phases of memory pressure

While the guest hammers, a second thread starts the pressure generator and sends its guard over a
channel; the callback of `run_hammer`, called once a sweep, waits for the guard, holds it, drops
it and lets the hammer go on for a short tail. Three optional variables say how far it has come.

* `receive`, `release`, `keepGoing` — the three parts of the callback, over the channel and the
  clock. Assigning to `guard` drops what it held; history variables remember every guard acquired
  and dropped, and when.
* `State`, `Event`, `step` — the callback, the thread and the loop of `run_hammer` together.
* `Phase`, `Vars.ofPhase` — the phase machine the variables stand for; `receive_ofPhase`,
  `release_ofPhase` — each part of the callback is a move of it, or none.
* `Invariant`, `invariant_step` — every step keeps the variables in a phase.
* `pressure_phases_in_order` — what holds along every run.
-/

namespace VmRatchet.Hammer.Pressure

open Arm64 Guest Transition

/-! ## Channels and clocks -/

/-- Source: `std::sync::mpsc`, the results of `try_recv` -/
inductive TryRecv (α : Type)
  | ok (a : α)
  | empty
  | disconnected

/-- The receiving end of a channel: the messages in flight, and whether a sender is left. -/
structure Channel (α : Type) where
  queue : List α := []
  connected : Bool := true

/-- Messages in flight come first; only then does it matter that the sender is gone.
Source: `std::sync::mpsc`, `Receiver::try_recv` -/
def Channel.tryRecv {α : Type} (rx : Channel α) : TryRecv α × Channel α :=
  match rx.queue with
  | a :: rest => (.ok a, { rx with queue := rest })
  | [] => (if rx.connected then .empty else .disconnected, rx)

/-- The times of one call of the callback, in nanoseconds, at the points where it looks at the
clock and where it receives and drops a guard. The clock does not go back. -/
structure Now where
  /-- `try_recv` returns. -/
  recv : ℕ
  /-- `hold_since = Some(Instant::now())` -/
  received : ℕ
  /-- `t.elapsed() >= HOLD` -/
  held : ℕ
  /-- `guard = None` -/
  drop : ℕ
  /-- `released_at = Some(Instant::now())` -/
  released : ℕ
  /-- `t.elapsed() < TAIL` -/
  asked : ℕ
  recv_le : recv ≤ received
  received_le : received ≤ held
  held_le : held ≤ drop
  drop_le : drop ≤ released
  released_le : released ≤ asked

/-- Source: `main.rs`, `HOLD` -/
def hold : ℕ := 8 * 10 ^ 9

/-- Source: `main.rs`, `TAIL` -/
def tail : ℕ := 2 * 10 ^ 9

/-- Source: `std::time`, `Instant::elapsed` -/
def elapsed (since now : ℕ) : ℕ := now - since

/-! ## The callback -/

section callback

variable {G E : Type}

/-- The variables of the callback, and what it did with guards. -/
structure Vars (G : Type) where
  guard : Option G := none
  holdSince : Option ℕ := none
  releasedAt : Option ℕ := none
  /-- The guards it came to hold, and when. -/
  acquired : List (G × ℕ) := []
  /-- The guards that were dropped, and when. -/
  dropped : List (G × ℕ) := []

/-- `guard = g`: the value it held is dropped. -/
def Vars.assign (v : Vars G) (g : Option G) (now : ℕ) : Vars G :=
  { v with
    guard := g
    acquired := v.acquired ++ (g.map (·, now)).toList
    dropped := v.dropped ++ (v.guard.map (·, now)).toList }

/-- The panics of the callback. -/
inductive Panic (E : Type)
  /-- "pressure generator: …" -/
  | generator (e : E)
  /-- "pressure thread died" -/
  | threadDied

/-- Wait for the guard.
Source: `main.rs`, `hammer_check` (the first test of the callback) -/
def receive (now : Now) (v : Vars G) (rx : Channel (Except E G)) :
    Except (Panic E) (Vars G × Channel (Except E G)) :=
  if v.guard.isNone ∧ v.releasedAt.isNone then
    match rx.tryRecv with
    | (.ok (.ok g), rx) =>
        .ok ({ v.assign (some g) now.recv with holdSince := some now.received }, rx)
    | (.ok (.error e), _) => .error (.generator e)
    | (.empty, rx) => .ok (v, rx)
    | (.disconnected, _) => .error .threadDied
  else .ok (v, rx)

/-- Drop the guard once it was held long enough.
Source: `main.rs`, `hammer_check` (the second test of the callback) -/
def release (now : Now) (v : Vars G) : Vars G :=
  if v.releasedAt.isNone ∧ v.holdSince.any fun t => hold ≤ elapsed t now.held then
    { v.assign none now.drop with releasedAt := some now.released }
  else v

/-- What the callback answers.
Source: `main.rs`, `hammer_check` (the last line of the callback) -/
def keepGoing (now : Now) (v : Vars G) : Bool :=
  v.releasedAt.all fun t => elapsed t now.asked < tail

/-! ## The callback, the thread and the hammer -/

/-- The pressure thread: it applies the pressure, sends the result, and is gone. -/
inductive Thread
  | applying
  | sent
  | gone
  deriving DecidableEq

/-- Everything the phases depend on: the pressure thread, the channel it sends on, the variables of
the callback, what `run_hammer` returned or who panicked, and the clock. -/
structure State (G E : Type) where
  thread : Thread := .applying
  rx : Channel (Except E G) := {}
  vars : Vars G := {}
  /-- What `run_hammer` returned, once it has. -/
  returned : Option (BitVec 64) := none
  panic : Option (Panic E) := none
  /-- The last time anybody looked at. -/
  clock : ℕ := 0

/-- What can happen: the thread sends its result or ends, or the guest completes a sweep and the
callback is asked. -/
inductive Event (G E : Type)
  /-- `ledger::pressure::apply` is done, and the thread sends its result. -/
  | send (result : Except E G)
  /-- The thread ends, and its sender with it. -/
  | hangUp
  /-- The guest rings the doorbell with these registers, and `run_hammer` asks its callback. -/
  | sweep (c : Cpu) (now : Now)

/-- One step.
Source: `main.rs`, `hammer_check`; `guest.rs`, `run_hammer` (the arm of the doorbell) -/
def step (s : State G E) : Event G E → Option (State G E)
  | .send result =>
      if s.thread = .applying then
        some { s with thread := .sent, rx := { s.rx with queue := s.rx.queue ++ [result] } }
      else none
  | .hangUp =>
      if s.thread = .gone then none
      else some { s with thread := .gone, rx := { s.rx with connected := false } }
  | .sweep c now =>
      if s.returned.isSome ∨ s.panic.isSome then none
      else
        match receive now s.vars s.rx with
        | .error p => some { s with panic := some p, clock := now.recv }
        | .ok (v, rx) =>
            let v := release now v
            let s' := { s with vars := v, rx := rx, clock := now.asked }
            match hammerTurn (exceptionExit ecDataAbortLowerEl doorbellGpa) (keepGoing now v) c with
            | .returned sweeps => some { s' with returned := some sweeps }
            | _ => some s'

/-- The clock does not go back, and the thread sends one guard before it ends. -/
def Orderly (s : State G E) : Event G E → Prop
  | .send result => ∃ g, result = .ok g
  | .hangUp => s.thread = .sent
  | .sweep _ now => s.clock ≤ now.recv

/-! ## The phase machine -/

/-- The phases, with the guard and the times they remember. -/
inductive Phase (G : Type)
  | waiting
  /-- `g` was received at `recv`, and the clock read `since` afterwards. -/
  | holding (g : G) (recv since : ℕ)
  /-- `g` was dropped at `drop`, and the clock read `done` afterwards. -/
  | released (g : G) (recv since drop done : ℕ)

/-- The variables of the callback in a phase: none are set while it waits; while it holds there are
the guard and its time; afterwards the guard has been dropped and the time of the release is
there. -/
def Vars.ofPhase : Phase G → Vars G
  | .waiting => {}
  | .holding g recv since =>
      { guard := some g, holdSince := some since, acquired := [(g, recv)] }
  | .released g recv since drop done =>
      { holdSince := some since, releasedAt := some done, acquired := [(g, recv)],
        dropped := [(g, drop)] }

/-- The moves of the phase machine. The guard is held for `HOLD` at least. -/
inductive Move : Phase G → Phase G → Prop
  | receive {g : G} {recv since : ℕ} : Move .waiting (.holding g recv since)
  | release {g : G} {recv since drop done : ℕ} (h : recv + hold ≤ drop) :
      Move (.holding g recv since) (.released g recv since drop done)

/-- The times of a phase are in order, up to `clock`. -/
def Phase.Timed (clock : ℕ) : Phase G → Prop
  | .waiting => True
  | .holding _ recv since => recv ≤ since ∧ since ≤ clock
  | .released _ recv _ drop done => recv + hold ≤ drop ∧ drop ≤ done ∧ done ≤ clock

/-- The times of a phase stay in order when the clock goes on. -/
theorem Phase.Timed.mono {p : Phase G} {clock clock' : ℕ} (h : p.Timed clock)
    (hle : clock ≤ clock') : p.Timed clock' := by
  cases p with
  | waiting => trivial
  | holding g recv since => exact ⟨h.1, by have := h.2; omega⟩
  | released g recv since drop done => exact ⟨h.1, h.2.1, by have := h.2.2; omega⟩

/-- What the channel holds in a phase: the guard, from when it is sent to when it is received. -/
inductive Link : Thread → Phase G → Channel (Except E G) → Prop
  | applying : Link .applying .waiting ⟨[], true⟩
  | sent (g : G) : Link .sent .waiting ⟨[.ok g], true⟩
  | hungUp (g : G) : Link .gone .waiting ⟨[.ok g], false⟩
  | holding {t : Thread} (ht : t ≠ .applying) (g : G) (recv since : ℕ) (connected : Bool) :
      Link t (.holding g recv since) ⟨[], connected⟩
  | released {t : Thread} (ht : t ≠ .applying) (g : G) (recv since drop done : ℕ)
      (connected : Bool) : Link t (.released g recv since drop done) ⟨[], connected⟩

/-- **The first test of the callback** waits, or receives the guard; it does not panic. -/
theorem receive_ofPhase {t : Thread} {p : Phase G} {rx : Channel (Except E G)} (h : Link t p rx)
    {now : Now} {clock : ℕ} (ht : p.Timed clock) (hnow : clock ≤ now.recv) :
    ∃ p' rx', receive now (.ofPhase p) rx = .ok (.ofPhase p', rx') ∧ Link t p' rx' ∧
      p'.Timed now.received ∧ Relation.ReflTransGen Move p p' := by
  have hle : clock ≤ now.received := hnow.trans now.recv_le
  cases h with
  | applying => exact ⟨.waiting, _, rfl, .applying, trivial, .refl⟩
  | sent g =>
      refine ⟨.holding g now.recv now.received, _, rfl, ?_, ⟨now.recv_le, le_rfl⟩, ?_⟩
      · exact .holding (by simp) g _ _ _
      · exact .single .receive
  | hungUp g =>
      refine ⟨.holding g now.recv now.received, _, rfl, ?_, ⟨now.recv_le, le_rfl⟩, ?_⟩
      · exact .holding (by simp) g _ _ _
      · exact .single .receive
  | holding hne g recv since connected =>
      exact ⟨_, _, rfl, .holding hne g recv since connected, ht.mono hle, .refl⟩
  | released hne g recv since drop done connected =>
      exact ⟨_, _, rfl, .released hne g recv since drop done connected, ht.mono hle, .refl⟩

/-- **The second test of the callback** holds on, or drops the guard. -/
theorem release_ofPhase {t : Thread} {p : Phase G} {rx : Channel (Except E G)} (h : Link t p rx)
    {now : Now} (ht : p.Timed now.received) :
    ∃ p', release now (.ofPhase p) = .ofPhase p' ∧ Link t p' rx ∧ p'.Timed now.asked ∧
      Relation.ReflTransGen Move p p' := by
  have hle : now.received ≤ now.asked :=
    now.received_le.trans (now.held_le.trans (now.drop_le.trans now.released_le))
  cases h with
  | applying => exact ⟨.waiting, rfl, .applying, trivial, .refl⟩
  | sent g => exact ⟨.waiting, rfl, .sent g, trivial, .refl⟩
  | hungUp g => exact ⟨.waiting, rfl, .hungUp g, trivial, .refl⟩
  | holding hne g recv since connected =>
      by_cases hheld : hold ≤ elapsed since now.held
      · have hdrop : recv + hold ≤ now.drop := by
          have hrecv := ht.1
          have hlate := now.held_le
          have hlong : 0 < hold := by decide
          unfold elapsed at hheld
          omega
        refine ⟨.released g recv since now.drop now.released, ?_, ?_, ?_, ?_⟩
        · simp [release, Vars.ofPhase, hheld, Vars.assign]
        · exact .released hne g _ _ _ _ _
        · exact ⟨hdrop, now.drop_le, now.released_le⟩
        · exact .single (.release hdrop)
      · refine ⟨.holding g recv since, ?_, .holding hne g _ _ _, ht.mono hle, .refl⟩
        simp [release, Vars.ofPhase, hheld]
  | released hne g recv since drop done connected =>
      exact ⟨_, rfl, .released hne g recv since drop done connected, ht.mono hle, .refl⟩

/-- **The answer** is `false` exactly if `TAIL` has passed since the release. -/
theorem keepGoing_eq_false_iff {now : Now} {v : Vars G} :
    keepGoing now v = false ↔ ∃ t, v.releasedAt = some t ∧ t + tail ≤ now.asked := by
  have htail : 0 < tail := by decide
  unfold keepGoing elapsed
  cases hr : v.releasedAt with
  | none => simp
  | some t =>
      simp only [Option.all_some, decide_eq_false_iff_not, Option.some.injEq, exists_eq_left']
      omega

/-! ## Every step -/

/-- At the doorbell `run_hammer` goes by the answer of the callback: with yes it re-enters the guest
behind the doorbell, with no it returns the count in `x4`. -/
theorem hammerTurn_doorbell (go : Bool) (c : Cpu) :
    hammerTurn (exceptionExit ecDataAbortLowerEl doorbellGpa) go c =
      if go then .reenter { c with pc := c.pc + 4 } else .returned (c.x 4) := by
  simp only [hammerTurn, runToDoorbell_doorbell]

/-- What a call of the callback can lead to: its first test panics; or it answers yes and the hammer
goes on; or it answers no and `run_hammer` returns the count in `x4`. -/
theorem step_sweep {s s' : State G E} {c : Cpu} {now : Now}
    (h : step s (.sweep c now) = some s') : s.returned = none ∧ s.panic = none ∧
      ((∃ p, receive now s.vars s.rx = .error p ∧
          s' = { s with panic := some p, clock := now.recv }) ∨
        ∃ v rx, receive now s.vars s.rx = .ok (v, rx) ∧ s' =
          { s with
            vars := release now v
            rx := rx
            clock := now.asked
            returned := if keepGoing now (release now v) then none else some (c.x 4) }) := by
  simp only [step, hammerTurn_doorbell] at h
  split_ifs at h with hended
  obtain ⟨hret, hpanic⟩ : s.returned = none ∧ s.panic = none := by simpa using hended
  refine ⟨hret, hpanic, ?_⟩
  cases hrecv : receive now s.vars s.rx with
  | error p =>
      simp only [hrecv, Option.some.injEq] at h
      exact .inl ⟨p, rfl, h.symm⟩
  | ok r =>
      refine .inr ⟨r.1, r.2, rfl, ?_⟩
      simp only [hrecv] at h
      cases hgo : keepGoing now (release now r.1) with
      | true =>
          simp only [hgo, if_true, Option.some.injEq] at h
          simp [← h, hret]
      | false =>
          simp only [hgo, Bool.false_eq_true, if_false, Option.some.injEq] at h
          simp [← h]

/-- The variables are those of phase `p`: nobody has panicked, the thread and its channel fit the
phase, no time of the phase is ahead of the clock, and `run_hammer` has returned only when `TAIL`
had passed after the release. -/
structure Invariant (s : State G E) (p : Phase G) : Prop where
  panic : s.panic = none
  vars : s.vars = .ofPhase p
  link : Link s.thread p s.rx
  timed : p.Timed s.clock
  returned : s.returned.isSome → ∃ t, s.vars.releasedAt = some t ∧ t + tail ≤ s.clock

/-- At the start the callback waits: no guard was received, the channel is empty and nothing has
panicked. -/
theorem invariant_init : Invariant ({} : State G E) .waiting :=
  ⟨rfl, rfl, .applying, trivial, by simp⟩

/-- **Every step keeps the variables in a phase**, the same or a later one. The thread's moves leave
the variables alone; a call of the callback is first the receiving of the guard, then its release,
each of which is a move of the phase machine or none. -/
theorem invariant_step {s s' : State G E} {e : Event G E} {p : Phase G} (h : Invariant s p)
    (ho : Orderly s e) (hstep : step s e = some s') :
    ∃ p', Invariant s' p' ∧ Relation.ReflTransGen Move p p' := by
  have hlink := h.link
  cases e with
  | send result =>
      obtain ⟨g, rfl⟩ := ho
      simp only [step, Option.ite_none_right_eq_some, Option.some.injEq] at hstep
      obtain ⟨ht, rfl⟩ := hstep
      refine ⟨p, ⟨h.panic, h.vars, ?_, h.timed, h.returned⟩, .refl⟩
      rw [ht] at hlink
      generalize hrx : s.rx = rx at hlink
      cases hlink with
      | applying => exact .sent g
      | holding hne => exact absurd rfl hne
      | released hne => exact absurd rfl hne
  | hangUp =>
      change s.thread = .sent at ho
      simp only [step, Option.ite_none_left_eq_some, Option.some.injEq] at hstep
      obtain ⟨-, rfl⟩ := hstep
      refine ⟨p, ⟨h.panic, h.vars, ?_, h.timed, h.returned⟩, .refl⟩
      rw [ho] at hlink
      generalize hrx : s.rx = rx at hlink
      cases hlink with
      | sent g => exact .hungUp g
      | holding _ g recv since _ => exact .holding (by simp) g recv since false
      | released _ g recv since drop done _ =>
          exact .released (by simp) g recv since drop done false
  | sweep c now =>
      obtain ⟨p₁, rx₁, hrecv, hlink₁, ht₁, hmove₁⟩ := receive_ofPhase hlink h.timed ho
      obtain ⟨p₂, hrel, hlink₂, ht₂, hmove₂⟩ := release_ofPhase hlink₁ ht₁
      rw [← h.vars] at hrecv
      obtain ⟨hret, hpanic, ⟨q, hq, -⟩ | ⟨v, rx, hok, rfl⟩⟩ := step_sweep hstep
      · rw [hrecv] at hq
        cases hq
      · rw [hrecv, Except.ok.injEq, Prod.mk.injEq] at hok
        obtain ⟨rfl, rfl⟩ := hok
        refine ⟨p₂, ⟨hpanic, hrel, hlink₂, ht₂, ?_⟩, hmove₁.trans hmove₂⟩
        intro hsome
        apply keepGoing_eq_false_iff.mp
        by_contra hgo
        simp [hgo] at hsome

/-! ## Every run -/

/-- What the callback has done with guards: it has acquired one at most; while it holds it, it has
dropped none; and one it has dropped was its only one, acquired `HOLD` before at least. -/
structure GuardOnce (v : Vars G) : Prop where
  acquired : v.acquired.length ≤ 1
  dropped : v.dropped.length ≤ 1
  alive : ∀ g, v.guard = some g → ∃ recv, v.acquired = [(g, recv)] ∧ v.dropped = []
  ended : ∀ g drop, (g, drop) ∈ v.dropped →
    v.guard = none ∧ ∃ recv, v.acquired = [(g, recv)] ∧ recv + hold ≤ drop

/-- What the callback has done with guards is in order in every phase: at most one was acquired, and
it was dropped `HOLD` later at the earliest. -/
theorem guardOnce_ofPhase {p : Phase G} {clock : ℕ} (h : p.Timed clock) :
    GuardOnce (.ofPhase p) := by
  cases p with
  | waiting => constructor <;> simp [Vars.ofPhase]
  | holding g recv since => constructor <;> simp [Vars.ofPhase]
  | released g recv since drop done =>
      constructor
      · simp [Vars.ofPhase]
      · simp [Vars.ofPhase]
      · simp [Vars.ofPhase]
      · intro g' drop' hmem
        simp only [Vars.ofPhase, List.mem_singleton, Prod.mk.injEq] at hmem
        obtain ⟨rfl, rfl⟩ := hmem
        exact ⟨rfl, recv, rfl, h.1⟩

/-- One step: the phase stays or moves on, and a call is answered `false`, which ends `run_hammer`
with the count of the guest, exactly if `TAIL` has passed since the release. -/
structure MovesOn (s : State G E) (e : Event G E) (s' : State G E) : Prop where
  phases : ∃ p p', s.vars = .ofPhase p ∧ s'.vars = .ofPhase p' ∧ Relation.ReflTransGen Move p p'
  answer : ∀ c now, e = .sweep c now → s'.returned =
    if ∃ t, s'.vars.releasedAt = some t ∧ t + tail ≤ now.asked then some (c.x 4) else none

/-- A call of the callback is answered by the clock: `run_hammer` returns its count exactly if the
guard was released `TAIL` ago or longer. -/
theorem sweep_answer {s s' : State G E} {c : Cpu} {now : Now}
    (h : step s (.sweep c now) = some s') (hpanic : s'.panic = none) : s'.returned =
      if ∃ t, s'.vars.releasedAt = some t ∧ t + tail ≤ now.asked then some (c.x 4) else none := by
  obtain ⟨-, -, ⟨p, -, rfl⟩ | ⟨v, rx, -, rfl⟩⟩ := step_sweep h
  · cases hpanic
  · simp only [← keepGoing_eq_false_iff]
    cases keepGoing now (release now v) <;> rfl

/-- **The phases of pressure come in order.** Take any run of the callback, the pressure thread and
`run_hammer`, with a clock that does not go back and a thread that sends one guard before it drops
its sender, whenever that is. Then:

* no call panics;
* every step leaves the phase as it is or moves it on, from waiting to holding to released, and a
  call is answered `false` exactly if `TAIL` has passed since the release;
* the callback acquires one guard at most, keeps it for `HOLD` at least, and drops it once;
* when `run_hammer` has returned, the guard was acquired, and it was dropped at least `TAIL`
  before. -/
theorem pressure_phases_in_order {ls : List (Event G E)} {s : State G E}
    (horder : Along step Orderly {} ls) (hrun : run step {} ls = some s) :
    s.panic = none ∧
      Along step (fun t e => ∀ t', step t e = some t' → MovesOn t e t') {} ls ∧
      GuardOnce s.vars ∧
      (s.returned.isSome → ∃ g recv drop, s.vars.guard = none ∧ s.vars.acquired = [(g, recv)] ∧
        s.vars.dropped = [(g, drop)] ∧ recv + hold ≤ drop ∧ drop + tail ≤ s.clock) := by
  have hkeep : ∀ (t : State G E) e t', Orderly t e → (∃ p, Invariant t p) → step t e = some t' →
      ∃ p, Invariant t' p := by
    rintro t e t' ho ⟨p, hp⟩ hstep
    obtain ⟨p', hp', -⟩ := invariant_step hp ho hstep
    exact ⟨p', hp'⟩
  obtain ⟨p, hp⟩ := run_invariant hkeep horder ⟨_, invariant_init⟩ hrun
  have honce : GuardOnce s.vars := hp.vars ▸ guardOnce_ofPhase hp.timed
  refine ⟨hp.panic, ?_, honce, ?_⟩
  · refine Along.of_invariant hkeep ?_ horder ⟨_, invariant_init⟩
    rintro t e ho ⟨q, hq⟩ t' hstep
    obtain ⟨q', hq', hmove⟩ := invariant_step hq ho hstep
    refine ⟨⟨q, q', hq.vars, hq'.vars, hmove⟩, ?_⟩
    rintro c now rfl
    exact sweep_answer hstep hq'.panic
  · intro hret
    obtain ⟨t, ht, hlate⟩ := hp.returned hret
    have htimed := hp.timed
    have hvars := hp.vars
    rw [hvars] at ht ⊢
    cases p with
    | waiting => cases ht
    | holding g recv since => cases ht
    | released g recv since drop done =>
        cases ht
        refine ⟨g, recv, drop, rfl, rfl, rfl, htimed.1, ?_⟩
        have := htimed.2.1
        omega

/-- A call in which the clock stands still. -/
def Now.still (t : ℕ) : Now := ⟨t, t, t, t, t, t, le_rfl, le_rfl, le_rfl, le_rfl, le_rfl⟩

/-- Registers of a guest at its doorbell, three sweeps done. -/
def threeSweeps : Cpu := ⟨fun _ => 3, 0, ⟨false, false, false, false⟩⟩

/-- A call that finds nothing, the guard sent and the sender dropped, and three more calls: the
last one stops the hammer. -/
def shortRun : List (Event Unit Unit) :=
  [.sweep threeSweeps (.still 0), .send (.ok ()), .hangUp, .sweep threeSweeps (.still 1),
    .sweep threeSweeps (.still (1 + hold)), .sweep threeSweeps (.still (1 + hold + tail))]

/-- A run with one guard that returns after three sweeps: the guard is gone at the end, and was held
once. -/
theorem pressure_phases_in_order_short : ∃ s, run step {} shortRun = some s ∧
    s.returned = some 3 ∧ s.panic = none ∧ GuardOnce s.vars ∧ s.vars.guard = none := by
  have horder : Along step Orderly {} shortRun := by
    refine .cons (Nat.le_refl 0) rfl ?_
    refine .cons ⟨(), rfl⟩ rfl ?_
    refine .cons rfl rfl ?_
    refine .cons (Nat.zero_le 1) rfl ?_
    refine .cons (Nat.le_add_right 1 hold) rfl ?_
    exact .cons (Nat.le_add_right (1 + hold) tail) rfl trivial
  obtain ⟨s, hrun, hret⟩ : ∃ s, run step {} shortRun = some s ∧ s.returned = some 3 := ⟨_, rfl, rfl⟩
  obtain ⟨hpanic, -, honce, hended⟩ := pressure_phases_in_order horder hrun
  obtain ⟨g, recv, drop, hguard, -⟩ := hended (by rw [hret]; rfl)
  exact ⟨s, hrun, hret, hpanic, honce, hguard⟩

end callback

end VmRatchet.Hammer.Pressure
