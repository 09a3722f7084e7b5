import Mathlib.Data.List.Basic
import Mathlib.Tactic.Common

/-!
# Runs of a labelled transition function

A system is a partial step function `step : σ → ℓ → Option σ`; a run is the list of labels it
takes, replayed by `run`. Concurrency needs nothing more: the label says which thread moves, so
an interleaving *is* a list of labels and a statement about every interleaving is a statement
about every list.

* `run_append`, `run_snoc` — composition of runs.
* `Along step P s ls` — every step of a run satisfies `P`, a condition on the state before the
  step and on its label. Assumptions about the environment and step-wise safety are both of this
  form.
* `run_invariant`, `Along.of_invariant` — the invariant rules: a predicate kept by every
  `P`-step holds after every `P`-run, and whatever it implies of a step holds along the run.
* `Sometime step P s ls` — some step of a run satisfies `P`; `run_history` says that a history
  variable remembers exactly that.
* `weight step f s ls` — a quantity added up along a run, zero exactly where every step adds zero.
  `weight_le` is the rule of amortised bounds: what every step pays for out of a budget stays
  within the budget over a whole run.
* `observed step obs s ls` — what is observed along a run, in order. `run_refines` is the rule of
  refinement mappings: if the image of every step is the run of another system over what is observed
  of the step, the image of a run is the run over all that is observed.
* `Reaches step P s t` — some `P`-run leads from `s` to `t`; used for progress arguments.
-/

namespace Transition

variable {σ ℓ : Type} (step : σ → ℓ → Option σ)

/-- Replay a list of labels from a state; `none` if one of the steps cannot be taken. -/
def run : σ → List ℓ → Option σ
  | s, [] => some s
  | s, l :: ls => (step s l).bind fun t => run t ls

/-- Every step of the run satisfies `P`, a relation of the state it is taken in and its label. -/
def Along (P : σ → ℓ → Prop) : σ → List ℓ → Prop
  | _, [] => True
  | s, l :: ls => P s l ∧ ∀ t, step s l = some t → Along P t ls

variable {step} {P Q : σ → ℓ → Prop}

/-- The empty run ends where it begins. -/
@[simp] theorem run_nil (s : σ) : run step s [] = some s := rfl

/-- A run splits at its first step: the step can be taken, and the rest is a run from where it
leads. -/
theorem run_cons_eq_some {s u : σ} {l : ℓ} {ls : List ℓ} :
    run step s (l :: ls) = some u ↔ ∃ t, step s l = some t ∧ run step t ls = some u := by
  simp only [run, Option.bind_eq_some_iff]

/-- A run splits at every point into two runs with a state between them. -/
theorem run_append {s u : σ} {ls ls' : List ℓ} :
    run step s (ls ++ ls') = some u ↔
      ∃ t, run step s ls = some t ∧ run step t ls' = some u := by
  induction ls generalizing s with
  | nil => simp
  | cons l ls ih =>
      rw [List.cons_append, run_cons_eq_some]
      constructor
      · rintro ⟨t, ht, hu⟩
        obtain ⟨v, hv, hvu⟩ := ih.mp hu
        exact ⟨v, run_cons_eq_some.mpr ⟨t, ht, hv⟩, hvu⟩
      · rintro ⟨v, hv, hvu⟩
        obtain ⟨t, ht, htv⟩ := run_cons_eq_some.mp hv
        exact ⟨t, ht, ih.mpr ⟨v, htv, hvu⟩⟩

/-! ## Conditions along a run -/

/-- A condition on labels alone holds along a run of such labels. -/
theorem Along.of_labels {ls : List ℓ} (h : ∀ l ∈ ls, ∀ s, P s l) (s : σ) : Along step P s ls := by
  induction ls generalizing s with
  | nil => trivial
  | cons l ls ih =>
      refine ⟨h l (List.mem_cons_self ..) s, fun t _ => ih ?_ t⟩
      intro l' hl'
      exact h l' (List.mem_cons_of_mem _ hl')

/-- A condition on labels that holds along a run holds of its labels. -/
theorem Along.forall_labels {p : ℓ → Prop} {ls : List ℓ} {s t : σ}
    (h : Along step (fun _ l => p l) s ls) (hrun : run step s ls = some t) : ∀ l ∈ ls, p l := by
  induction ls generalizing s with
  | nil => exact fun l hl => nomatch hl
  | cons l ls ih =>
      obtain ⟨u, hu, hut⟩ := run_cons_eq_some.mp hrun
      intro l' hl'
      rcases List.mem_cons.mp hl' with rfl | hl'
      · exact h.1
      · exact ih (h.2 u hu) hut l' hl'

/-- A condition holds along a composed run exactly if it holds along the first part, and along the
second from wherever the first leads. -/
theorem Along.append {s : σ} {ls ls' : List ℓ} :
    Along step P s (ls ++ ls') ↔
      Along step P s ls ∧ ∀ t, run step s ls = some t → Along step P t ls' := by
  induction ls generalizing s with
  | nil => simp [Along]
  | cons l ls ih =>
      simp only [List.cons_append, Along, ih, run_cons_eq_some]
      constructor
      · rintro ⟨hl, h⟩
        refine ⟨⟨hl, fun t ht => (h t ht).1⟩, ?_⟩
        rintro u ⟨t, ht, hu⟩
        exact (h t ht).2 u hu
      · rintro ⟨⟨hl, h⟩, h'⟩
        exact ⟨hl, fun t ht => ⟨h t ht, fun u hu => h' u ⟨t, ht, hu⟩⟩⟩

/-- A condition holds along a run if it holds of the first step and along the rest. -/
theorem Along.cons {s t : σ} {l : ℓ} {ls : List ℓ} (hl : P s l) (hstep : step s l = some t)
    (h : Along step P t ls) : Along step P s (l :: ls) := by
  refine ⟨hl, fun t' ht' => ?_⟩
  rw [hstep, Option.some.injEq] at ht'
  exact ht' ▸ h

/-- A condition holds along two runs with one step in between if it holds along each of them and of
the step. -/
theorem Along.append_cons {s t u : σ} {l : ℓ} {ls ls' : List ℓ} (h : Along step P s ls)
    (hrun : run step s ls = some t) (hl : P t l) (hstep : step t l = some u)
    (h' : Along step P u ls') : Along step P s (ls ++ l :: ls') := by
  refine Along.append.mpr ⟨h, fun t' ht' => ?_⟩
  rw [hrun, Option.some.injEq] at ht'
  subst ht'
  exact .cons hl hstep h'

/-- A condition that holds along a run may be weakened step by step. -/
theorem Along.mono {s : σ} {ls : List ℓ} (h : Along step P s ls) (hPQ : ∀ s l, P s l → Q s l) :
    Along step Q s ls := by
  induction ls generalizing s with
  | nil => trivial
  | cons l ls ih => exact ⟨hPQ s l h.1, fun t ht => ih (h.2 t ht)⟩

/-- **The invariant rule.** A predicate that every `P`-step keeps holds after every `P`-run. -/
theorem run_invariant {I : σ → Prop} (hstep : ∀ s l t, P s l → I s → step s l = some t → I t)
    {ls : List ℓ} {s t : σ} (hP : Along step P s ls) (hs : I s) (h : run step s ls = some t) :
    I t := by
  induction ls generalizing s with
  | nil =>
      rw [run_nil, Option.some.injEq] at h
      exact h ▸ hs
  | cons l ls ih =>
      obtain ⟨u, hu, hut⟩ := run_cons_eq_some.mp h
      exact ih (hP.2 u hu) (hstep s l u hP.1 hs hu) hut

/-- An invariant that counts the steps, from a step lemma: after a run of `n` steps it holds with
the count `n` larger. -/
theorem run_counted {I : ℕ → σ → Prop}
    (hstep : ∀ n s l t, I n s → step s l = some t → I (n + 1) t) {ls : List ℓ} {n : ℕ} {s t : σ}
    (hs : I n s) (h : run step s ls = some t) : I (n + ls.length) t := by
  induction ls generalizing n s with
  | nil =>
      rw [run_nil, Option.some.injEq] at h
      exact h ▸ hs
  | cons l ls ih =>
      obtain ⟨u, hu, hut⟩ := run_cons_eq_some.mp h
      rw [List.length_cons, Nat.add_comm ls.length, ← Nat.add_assoc]
      exact ih (hstep n s l u hs hu) hut

/-- **The safety rule.** What an invariant of `P`-steps implies of a step holds along every
`P`-run. -/
theorem Along.of_invariant {I : σ → Prop}
    (hstep : ∀ s l t, P s l → I s → step s l = some t → I t)
    (hsafe : ∀ s l, P s l → I s → Q s l) {ls : List ℓ} {s : σ} (hP : Along step P s ls)
    (hs : I s) : Along step Q s ls := by
  induction ls generalizing s with
  | nil => trivial
  | cons l ls ih =>
      exact ⟨hsafe s l hP.1 hs, fun t ht => ih (hP.2 t ht) (hstep s l t hP.1 hs ht)⟩

/-! ## Events of a run -/

/-- Some step of the run satisfies `P`, in the state it is taken in. -/
def Sometime (step : σ → ℓ → Option σ) (P : σ → ℓ → Prop) : σ → List ℓ → Prop
  | _, [] => False
  | s, l :: ls => P s l ∨ ∃ t, step s l = some t ∧ Sometime step P t ls

/-- Something happens in a run with a first step exactly if it happens in this step or in the
rest. -/
theorem sometime_cons {s t : σ} {l : ℓ} {ls : List ℓ} (h : step s l = some t) :
    Sometime step P s (l :: ls) ↔ P s l ∨ Sometime step P t ls := by
  simp [Sometime, h]

/-- What a step does to which a run comes happens in every run that goes on with this step. -/
theorem sometime_append_cons {s t : σ} {ls : List ℓ} {l : ℓ} (h : run step s ls = some t)
    (hl : P t l) (ls' : List ℓ) : Sometime step P s (ls ++ l :: ls') := by
  induction ls generalizing s with
  | nil =>
      rw [run_nil, Option.some.injEq] at h
      exact .inl (h ▸ hl)
  | cons l' ls ih =>
      obtain ⟨u, hu, hut⟩ := run_cons_eq_some.mp h
      exact .inr ⟨u, hu, ih hut⟩

/-- What no step of a run does never happens in it. -/
theorem Along.not_sometime {s : σ} {ls : List ℓ} (h : Along step Q s ls)
    (hPQ : ∀ s l, Q s l → ¬ P s l) : ¬ Sometime step P s ls := by
  induction ls generalizing s with
  | nil => exact id
  | cons l ls ih =>
      rintro (hl | ⟨t, ht, hrest⟩)
      · exact hPQ s l h.1 hl
      · exact ih (h.2 t ht) hrest

/-- A history variable that every `P`-step raises, and nothing else, records that a `P`-step has
been taken. -/
theorem run_history {f : σ → Prop} (hf : ∀ s l t, step s l = some t → (f t ↔ f s ∨ P s l))
    {ls : List ℓ} {s t : σ} (h : run step s ls = some t) :
    f t ↔ f s ∨ Sometime step P s ls := by
  induction ls generalizing s with
  | nil =>
      rw [run_nil, Option.some.injEq] at h
      simp [Sometime, h]
  | cons l ls ih =>
      obtain ⟨u, hu, hut⟩ := run_cons_eq_some.mp h
      rw [ih hut, hf s l u hu, sometime_cons hu, or_assoc]

/-! ## Quantities along a run -/

/-- The sum of `f` over the steps of a run. -/
def weight (step : σ → ℓ → Option σ) (f : σ → ℓ → ℕ) : σ → List ℓ → ℕ
  | _, [] => 0
  | s, l :: ls => f s l + match step s l with
    | some t => weight step f t ls
    | none => 0

/-- The weight of a run with a first step is that of the step and that of the rest. -/
theorem weight_cons {f : σ → ℓ → ℕ} {s t : σ} {l : ℓ} {ls : List ℓ} (h : step s l = some t) :
    weight step f s (l :: ls) = f s l + weight step f t ls := by
  simp only [weight, h]

/-- Nothing is added up exactly if no step adds anything. -/
theorem weight_eq_zero_iff {f : σ → ℓ → ℕ} {s : σ} {ls : List ℓ} :
    weight step f s ls = 0 ↔ Along step (fun s l => f s l = 0) s ls := by
  induction ls generalizing s with
  | nil => simp [weight, Along]
  | cons l ls ih =>
      cases hl : step s l with
      | none => simp [weight, Along, hl]
      | some t => simp [weight, Along, hl, ih]

/-- **The rule of budgets.** If every step from a state with budget `n` pays for what it adds and
leaves a state with the rest, a whole run adds no more than the budget of its first state. -/
theorem weight_le {f : σ → ℓ → ℕ} {R : σ → ℕ → Prop}
    (hstep : ∀ s l t n, R s n → step s l = some t → ∃ m, R t m ∧ f s l + m ≤ n)
    {ls : List ℓ} {s t : σ} {n : ℕ} (hs : R s n) (h : run step s ls = some t) :
    ∃ m, R t m ∧ weight step f s ls + m ≤ n := by
  induction ls generalizing s n with
  | nil =>
      rw [run_nil, Option.some.injEq] at h
      exact ⟨n, h ▸ hs, by simp [weight]⟩
  | cons l ls ih =>
      obtain ⟨u, hu, hut⟩ := run_cons_eq_some.mp h
      obtain ⟨m, hm, hle⟩ := hstep s l u n hs hu
      obtain ⟨m', hm', hle'⟩ := ih hm hut
      refine ⟨m', hm', ?_⟩
      rw [weight_cons hu]
      omega

/-! ## Observations along a run -/

/-- What `obs` tells of the steps of a run, in order. -/
def observed {κ : Type} (step : σ → ℓ → Option σ) (obs : σ → ℓ → List κ) : σ → List ℓ → List κ
  | _, [] => []
  | s, l :: ls => obs s l ++ match step s l with
    | some t => observed step obs t ls
    | none => []

/-- What is observed along a run with a first step is what is observed of this step, and then of the
rest. -/
theorem observed_cons {κ : Type} {obs : σ → ℓ → List κ} {s t : σ} {l : ℓ} {ls : List ℓ}
    (h : step s l = some t) :
    observed step obs s (l :: ls) = obs s l ++ observed step obs t ls := by
  simp only [observed, h]

/-- What is observed along a composed run is what is observed along its first part and then along
its second. -/
theorem observed_append {κ : Type} {obs : σ → ℓ → List κ} {s t : σ} {ls : List ℓ}
    (h : run step s ls = some t) (ls' : List ℓ) :
    observed step obs s (ls ++ ls') = observed step obs s ls ++ observed step obs t ls' := by
  induction ls generalizing s with
  | nil =>
      rw [run_nil, Option.some.injEq] at h
      rw [h]
      rfl
  | cons l ls ih =>
      obtain ⟨u, hu, hut⟩ := run_cons_eq_some.mp h
      rw [List.cons_append, observed_cons hu, observed_cons hu, ih hut, List.append_assoc]

/-- **The rule of refinement mappings.** If every step from a state of the invariant is, seen
through `abs`, a run of `step'` over what is observed of it, then so is every run. A step of which
nothing is observed leaves the image as it is. -/
theorem run_refines {τ κ : Type} {step' : τ → κ → Option τ} {obs : σ → ℓ → List κ} {abs : σ → τ}
    {I : σ → Prop} (hinv : ∀ s l t, P s l → I s → step s l = some t → I t)
    (habs : ∀ s l t, P s l → I s → step s l = some t →
      run step' (abs s) (obs s l) = some (abs t))
    {ls : List ℓ} {s t : σ} (hP : Along step P s ls) (hs : I s) (h : run step s ls = some t) :
    run step' (abs s) (observed step obs s ls) = some (abs t) := by
  induction ls generalizing s with
  | nil =>
      rw [run_nil, Option.some.injEq] at h
      exact h ▸ rfl
  | cons l ls ih =>
      obtain ⟨u, hu, hut⟩ := run_cons_eq_some.mp h
      rw [observed_cons hu, run_append]
      exact ⟨abs u, habs s l u hP.1 hs hu, ih (hP.2 u hu) (hinv s l u hP.1 hs hu) hut⟩

/-- What holds of everything that is observed of a step from the invariant holds of everything that
is observed along a run. -/
theorem forall_observed {κ : Type} {obs : σ → ℓ → List κ} {I : σ → Prop} {p : κ → Prop}
    (hinv : ∀ s l t, P s l → I s → step s l = some t → I t)
    (hobs : ∀ s l t, P s l → I s → step s l = some t → ∀ x ∈ obs s l, p x)
    {ls : List ℓ} {s t : σ} (hP : Along step P s ls) (hs : I s) (h : run step s ls = some t) :
    ∀ x ∈ observed step obs s ls, p x := by
  induction ls generalizing s with
  | nil => exact fun x hx => absurd hx List.not_mem_nil
  | cons l ls ih =>
      obtain ⟨u, hu, hut⟩ := run_cons_eq_some.mp h
      intro x hx
      rw [observed_cons hu, List.mem_append] at hx
      rcases hx with hnow | hlater
      · exact hobs s l u hP.1 hs hu x hnow
      · exact ih (hP.2 u hu) (hinv s l u hP.1 hs hu) hut x hlater

/-! ## Reachability -/

/-- `t` is reached from `s` by some run all of whose steps satisfy `P`. -/
def Reaches (step : σ → ℓ → Option σ) (P : σ → ℓ → Prop) (s t : σ) : Prop :=
  ∃ ls : List ℓ, Along step P s ls ∧ run step s ls = some t

/-- The empty run reaches its own start, under any condition. -/
theorem Reaches.refl (s : σ) : Reaches step P s s := ⟨[], trivial, rfl⟩

/-- A single step that meets the condition reaches its target. -/
theorem Reaches.single {s t : σ} {l : ℓ} (hl : P s l) (h : step s l = some t) :
    Reaches step P s t :=
  ⟨[l], ⟨hl, fun _ _ => trivial⟩, run_cons_eq_some.mpr ⟨t, h, rfl⟩⟩

/-- The condition on the steps of a run may be weakened. -/
theorem Reaches.mono {s t : σ} (h : Reaches step P s t) (hPQ : ∀ s l, P s l → Q s l) :
    Reaches step Q s t := by
  obtain ⟨ls, hP, hrun⟩ := h
  exact ⟨ls, hP.mono hPQ, hrun⟩

/-- Runs compose: what is reached from a state that is reached is reached. -/
theorem Reaches.trans {s t u : σ} (h : Reaches step P s t) (h' : Reaches step P t u) :
    Reaches step P s u := by
  obtain ⟨ls, hP, hrun⟩ := h
  obtain ⟨ls', hP', hrun'⟩ := h'
  refine ⟨ls ++ ls', Along.append.mpr ⟨hP, ?_⟩, run_append.mpr ⟨t, hrun, hrun'⟩⟩
  intro v hv
  rw [hrun, Option.some.injEq] at hv
  exact hv ▸ hP'

/-- An invariant that `P`-steps keep holds of everything that `P`-steps reach. -/
theorem Reaches.invariant {I : σ → Prop} (hstep : ∀ s l t, P s l → I s → step s l = some t → I t)
    {s t : σ} (h : Reaches step P s t) (hs : I s) : I t := by
  obtain ⟨ls, hP, hrun⟩ := h
  exact run_invariant hstep hP hs hrun

end Transition
