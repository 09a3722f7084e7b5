import VmRatchet.Lib.Run

/-!
# Pre- and postconditions of runs

A fixed list of labels is a straight-line program over a labelled transition function. A triple
`Triple step P pre ls post` says of every run of `ls` from a state with `pre` that each of its
steps satisfies `P`, and that the state it ends in satisfies `post`. A step that does not go
through ends the run; nothing is claimed of what would come after it.

* `Triple.nil`, `Triple.single`, `Triple.append`, `Triple.cons` — one rule for each way to build a
  list.
* `Triple.flatMap` — a loop whose body keeps an invariant.
* `Triple.mono`, `Triple.assume` — consequence, and pure facts in the precondition.
-/

namespace Transition

variable {σ ℓ : Type} {step : σ → ℓ → Option σ} {P : σ → ℓ → Prop}
  {pre mid post pre' post' : σ → Prop}

/-- Every run of `ls` from a state with `pre` takes `P`-steps only and ends with `post`. -/
def Triple (step : σ → ℓ → Option σ) (P : σ → ℓ → Prop) (pre : σ → Prop) (ls : List ℓ)
    (post : σ → Prop) : Prop :=
  ∀ s, pre s → Along step P s ls ∧ ∀ t, run step s ls = some t → post t

namespace Triple

/-- Doing nothing keeps every condition. -/
theorem nil : Triple step P pre [] pre := by
  intro s hs
  refine ⟨trivial, fun t ht => ?_⟩
  rw [run_nil, Option.some.injEq] at ht
  exact ht ▸ hs

/-- One step is safe and leads to the postcondition, if it does so from each state of the
precondition. -/
theorem single {l : ℓ} (hP : ∀ s, pre s → P s l)
    (hpost : ∀ s t, pre s → step s l = some t → post t) : Triple step P pre [l] post := by
  intro s hs
  refine ⟨⟨hP s hs, fun _ _ => trivial⟩, fun t ht => ?_⟩
  obtain ⟨u, hu, hut⟩ := run_cons_eq_some.mp ht
  rw [run_nil, Option.some.injEq] at hut
  exact hut ▸ hpost s u hs hu

/-- One list of operations after another: the postcondition of the first is the precondition of the
second. -/
theorem append {ls ls' : List ℓ} (h : Triple step P pre ls mid)
    (h' : Triple step P mid ls' post) : Triple step P pre (ls ++ ls') post := by
  intro s hs
  obtain ⟨halong, hmid⟩ := h s hs
  refine ⟨Along.append.mpr ⟨halong, fun t ht => (h' t (hmid t ht)).1⟩, fun u hu => ?_⟩
  obtain ⟨t, ht, htu⟩ := run_append.mp hu
  exact (h' t (hmid t ht)).2 u htu

/-- A first step, and the rest. -/
theorem cons {l : ℓ} {ls : List ℓ} (h : Triple step P pre [l] mid)
    (h' : Triple step P mid ls post) : Triple step P pre (l :: ls) post :=
  h.append h'

/-- The rule of consequence: the precondition may be strengthened and the postcondition weakened. -/
theorem mono {ls : List ℓ} (h : Triple step P pre ls post) (hpre : ∀ s, pre' s → pre s)
    (hpost : ∀ s, post s → post' s) : Triple step P pre' ls post' := by
  intro s hs
  obtain ⟨halong, hend⟩ := h s (hpre s hs)
  exact ⟨halong, fun t ht => hpost t (hend t ht)⟩

/-- A pure fact in the precondition may be assumed for the triple. -/
theorem assume {φ : Prop} {ls : List ℓ} (h : φ → Triple step P pre ls post) :
    Triple step P (fun s => φ ∧ pre s) ls post :=
  fun s hs => h hs.1 s hs.2

/-- The rule of the loop: if every turn keeps a condition, so does the whole loop. -/
theorem flatMap {α : Type} {f : α → List ℓ} {xs : List α}
    (h : ∀ x ∈ xs, Triple step P pre (f x) pre) : Triple step P pre (xs.flatMap f) pre := by
  induction xs with
  | nil => exact nil
  | cons x xs ih =>
      rw [List.flatMap_cons]
      refine (h x (List.mem_cons_self ..)).append (ih ?_)
      intro y hy
      exact h y (List.mem_cons_of_mem _ hy)

end Triple

end Transition
