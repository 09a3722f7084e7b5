import Mathlib.Algebra.BigOperators.Group.Finset.Basic
import VmRatchet.Lib.Run

/-!
# Threads over shared state

A `System` is a fixed number of threads with local states of type `τ` and a shared state of type
`σ`. A step is one action of one thread on its own local state and the shared state, or one event
of the environment on the shared state; the environment may look at the threads but not change
them. Runs are those of `Transition`.

* `System.local_invariant` — the non-interference rule. To show that a predicate holds of every
  thread it is enough that a thread's own actions keep it, that the actions of the *other* threads
  keep it, and that the environment does.
* `System.total` — a quantity summed over the threads, and how one action changes it.
-/

namespace Threads

open Transition

variable {τ σ α ε : Type}

/-- Threads with actions `α` and an environment with events `ε`. -/
structure System (τ σ α ε : Type) where
  /-- The number of threads. -/
  count : ℕ
  /-- One action of a thread. -/
  act : ℕ → α → τ → σ → Option (τ × σ)
  /-- One event of the environment. -/
  env : ε → (ℕ → τ) → σ → Option σ

/-- The local states of all threads, and the state they share. -/
structure State (τ σ : Type) where
  thread : ℕ → τ
  shared : σ

/-- Who moves: thread `k` with an action of its own, or the environment. -/
inductive Label (α ε : Type)
  | act (k : ℕ) (a : α)
  | env (e : ε)

namespace System

variable (S : System τ σ α ε)

/-- One step of the whole system: a thread changes its own state and the shared one, the environment
the shared one alone. -/
def step (st : State τ σ) : Label α ε → Option (State τ σ)
  | .act k a =>
      if k < S.count then
        (S.act k a (st.thread k) st.shared).map fun r => ⟨Function.update st.thread k r.1, r.2⟩
      else none
  | .env e => (S.env e st.thread st.shared).map fun s => ⟨st.thread, s⟩

variable {S} {st st' : State τ σ}

/-- An action of thread `k` is a step exactly if there is such a thread and it can act; then it
changes its own state and the shared one, and no other thread's. -/
theorem step_act {k : ℕ} {a : α} :
    S.step st (.act k a) = some st' ↔ k < S.count ∧ ∃ t' s',
      S.act k a (st.thread k) st.shared = some (t', s') ∧
        st' = ⟨Function.update st.thread k t', s'⟩ := by
  by_cases hk : k < S.count
  · rw [step, if_pos hk, Option.map_eq_some_iff]
    constructor
    · rintro ⟨⟨t', s'⟩, h, rfl⟩
      exact ⟨hk, t', s', h, rfl⟩
    · rintro ⟨-, t', s', h, rfl⟩
      exact ⟨(t', s'), h, rfl⟩
  · simp [step, hk]

/-- An event of the environment is a step exactly if it can happen; then it changes the shared
state, and no thread's. -/
theorem step_env {e : ε} :
    S.step st (.env e) = some st' ↔ ∃ s', S.env e st.thread st.shared = some s' ∧
      st' = ⟨st.thread, s'⟩ := by
  rw [step, Option.map_eq_some_iff]
  constructor
  · rintro ⟨s', h, rfl⟩
    exact ⟨s', h, rfl⟩
  · rintro ⟨s', h, rfl⟩
    exact ⟨s', h, rfl⟩

/-- A predicate on a thread's local state and the shared state holds of every thread. -/
def Everywhere (S : System τ σ α ε) (I : ℕ → τ → σ → Prop) (st : State τ σ) : Prop :=
  ∀ k < S.count, I k (st.thread k) st.shared

/-- **Non-interference.** A predicate kept by a thread's own actions, by the actions of the other
threads and by the environment is kept everywhere. -/
theorem local_invariant {I : ℕ → τ → σ → Prop} {P : State τ σ → Label α ε → Prop}
    (own : ∀ st k a t' s', P st (.act k a) → k < S.count → S.Everywhere I st →
      S.act k a (st.thread k) st.shared = some (t', s') → I k t' s')
    (other : ∀ st k j a t' s', P st (.act k a) → k < S.count → j < S.count → j ≠ k →
      S.Everywhere I st → S.act k a (st.thread k) st.shared = some (t', s') →
        I j (st.thread j) s')
    (env : ∀ st e s', P st (.env e) → S.Everywhere I st →
      S.env e st.thread st.shared = some s' → ∀ j < S.count, I j (st.thread j) s') :
    ∀ st l st', P st l → S.Everywhere I st → S.step st l = some st' → S.Everywhere I st' := by
  rintro st l st' hP hI h
  cases l with
  | act k a =>
      obtain ⟨hk, t', s', hact, rfl⟩ := step_act.mp h
      intro j hj
      by_cases hjk : j = k
      · subst hjk
        simp only [Function.update_self]
        exact own st j a t' s' hP hk hI hact
      · simp only [Function.update_of_ne hjk]
        exact other st k j a t' s' hP hk hj hjk hI hact
  | env e =>
      obtain ⟨s', henv, rfl⟩ := step_env.mp h
      exact env st e s' hP hI henv

section total

variable {M : Type} [AddCommMonoid M]

/-- A quantity summed over the threads. -/
def total (S : System τ σ α ε) (f : ℕ → τ → M) (st : State τ σ) : M :=
  ∑ k ∈ Finset.range S.count, f k (st.thread k)

/-- One thread's action changes the total by that thread's own share. -/
theorem total_update (st : State τ σ) (f : ℕ → τ → M) {k : ℕ} (hk : k < S.count) (t' : τ)
    (s' : σ) : S.total f ⟨Function.update st.thread k t', s'⟩ + f k (st.thread k) =
      S.total f st + f k t' := by
  have hmem : k ∈ Finset.range S.count := Finset.mem_range.mpr hk
  have hrest : ∑ j ∈ (Finset.range S.count).erase k, f j (Function.update st.thread k t' j) =
      ∑ j ∈ (Finset.range S.count).erase k, f j (st.thread j) := by
    refine Finset.sum_congr rfl fun j hj => ?_
    rw [Function.update_of_ne (Finset.ne_of_mem_erase hj)]
  unfold total
  rw [← Finset.add_sum_erase _ _ hmem, ← Finset.add_sum_erase _ (fun j => f j (st.thread j)) hmem]
  simp only [Function.update_self, hrest]
  rw [add_right_comm, add_comm (f k t'), add_right_comm]

end total

end System

end Threads
