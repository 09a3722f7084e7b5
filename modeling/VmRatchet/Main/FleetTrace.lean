import VmRatchet.Lib.Sampling
import VmRatchet.Lib.Text
import VmRatchet.Main.Regimes

/-!
# The trace of a fleet run

Both arms of the fleet run print the same kind of trace: a thread beside the run samples a ledger
once a second and prints `SAMPLE` lines, and the run prints a `MARK` line after every start and
every stop. Nothing orders a reading and the marks but their places on the output, and it is by
these that the trace is read: the footprint that a `SAMPLE` line tells is taken to be that of the
services whose marks stand before it. Here this is made precise, for `fleet_sim::run` of the one
crate and `fleet::run` of the other.

A reading taken while an operation is going on counts the operations before it. Timestamps and the
digits of a reading are left out.

* `fleetMarks`, `vzFleetMarks` — the marks, and the operations they tell of.
* `samples_follow_marks` — what the marks around a `SAMPLE` line say about its reading.
* `trace_complete` — the marks are all there at the end, whatever becomes of the sampler.
-/

namespace VmRatchet.Main

open Guest Sampling Text Transition

/-! ## The marks -/

/-- A mark without an operation before it. -/
def plainMark (event : String) : Item (List Char) := ⟨chars event, false⟩

/-- The marks of a loop over the services, one after each turn. -/
def serviceMarks (event : String) (services : ℕ) : List (Item (List Char)) :=
  (List.range services).map fun i => ⟨chars event ++ decimal (i + 1), true⟩

/-- From the boot to the last stop.
Source: `fleet_sim.rs`, `run`; `crates/vz-ratchet/src/fleet.rs`, `run` -/
def upToTail (services : ℕ) : List (Item (List Char)) :=
  plainMark "boot" :: serviceMarks "service-start-" services ++
    plainMark "hold" :: serviceMarks "service-stop-" services ++ [plainMark "tail"]

/-- Source: `fleet_sim.rs`, `run` -/
def fleetMarks (services : ℕ) : List (Item (List Char)) := upToTail services ++ [plainMark "end"]

/-- The request for the balloon is an operation, too.
Source: `crates/vz-ratchet/src/fleet.rs`, `run` -/
def vzFleetMarks (services : ℕ) : List (Item (List Char)) :=
  upToTail services ++ [⟨chars "balloon", true⟩, plainMark "end"]

/-- Every mark of the loop over the services tells of an operation, so there are as many as
services. -/
theorem countP_serviceMarks (event : String) (services : ℕ) :
    (serviceMarks event services).countP (·.work) = services := by
  rw [serviceMarks, List.countP_map, List.countP_eq_length.mpr, List.length_range]
  exact fun _ _ => rfl

/-- The marks of the whole run tell of two operations for each service, its start and its stop. -/
theorem countP_fleetMarks (services : ℕ) :
    (fleetMarks services).countP (·.work) = 2 * services := by
  rw [fleetMarks, upToTail]
  simp only [List.countP_append, List.countP_cons, List.countP_nil, countP_serviceMarks, plainMark,
    Bool.false_eq_true, if_false]
  omega

/-! ## The operations the marks tell of -/

section operations

variable (o : Options) (ram : ℕ)

/-- The `k`-th operation of `fleet_sim::run`: every service is started, then every one is
stopped. -/
def serviceOp (k : ℕ) : List Op :=
  if k < o.services then serviceStart o ram k else serviceStop o ram (k - o.services)

/-- How much of guest RAM is in use after `k` operations. -/
def Options.staircase (k : ℕ) : ℕ :=
  if k ≤ o.services then k * o.region else (2 * o.services - k) * o.region

variable {o ram}

/-- The first operations, up to the number of services, are the first starts. -/
theorem serviceOps_of_le {k : ℕ} (hk : k ≤ o.services) :
    (List.range k).flatMap (serviceOp o ram) = (List.range k).flatMap (serviceStart o ram) := by
  refine List.flatMap_congr fun i hi => ?_
  rw [serviceOp, if_pos (lt_of_lt_of_le (List.mem_range.mp hi) hk)]

/-- The operations after all the starts are the first stops. -/
theorem serviceOps_add (j : ℕ) : (List.range (o.services + j)).flatMap (serviceOp o ram) =
    (List.range o.services).flatMap (serviceStart o ram) ++
      (List.range j).flatMap (serviceStop o ram) := by
  rw [List.range_add, List.flatMap_append, serviceOps_of_le le_rfl, List.flatMap_map]
  congr 1
  refine List.flatMap_congr fun i _ => ?_
  rw [serviceOp, if_neg (Nat.not_lt.mpr (Nat.le_add_right _ _)), Nat.add_sub_cancel_left]

/-- Starts and stops together are the operations of the run. -/
theorem serviceOps_all : (List.range (2 * o.services)).flatMap (serviceOp o ram) =
    fleetRun o ram := by
  rw [Nat.two_mul, serviceOps_add, fleetRun]

/-- After all the starts the staircase goes down again, by one region with each stop. -/
theorem staircase_stops {j : ℕ} (hj : j ≤ o.services) :
    o.staircase (o.services + j) = (o.services - j) * o.region := by
  rw [Options.staircase]
  split
  · obtain rfl : j = 0 := by omega
    rfl
  · have hleft : 2 * o.services - (o.services + j) = o.services - j := by omega
    rw [hleft]

/-- The bytes of guest RAM in use after the first `k` operations of a fleet are those of the
staircase. Up to the number of services these are starts, and beyond it all starts and then
stops. -/
theorem staircase_reached {pl : Placement} {r : RamSize} (ho : o.ramSize = r.bytes)
    (htime : o.timeReclaim = false) (hsim : o.fleetSim = true) (hpos : 0 < o.region)
    (hfit : o.services * o.region ≤ o.ramSize) {t₀ t : Tracked} (h₀ : Fresh t₀.world)
    (hrun : run Tracked.step t₀ (mainRun o pl) = some t) {k : ℕ} (hk : k ≤ 2 * o.services) :
    ∃ t₁, setup o pl (pl.ram 1) ++ (List.range k).flatMap (serviceOp o (pl.ram 1)) <+:
        mainRun o pl ∧
      run Tracked.step t₀
        (setup o pl (pl.ram 1) ++ (List.range k).flatMap (serviceOp o (pl.ram 1))) = some t₁ ∧
      t₁.charged (pl.ram 1) r.bytes = o.staircase k := by
  have hops : (List.range k).flatMap (serviceOp o (pl.ram 1)) <+: fleetRun o (pl.ram 1) := by
    rw [← serviceOps_all]
    exact isPrefix_flatMap_range _ hk
  rcases Nat.le_total k o.services with hle | hge
  · have htracks : Tracks
        (Stage r {a | t₀.world.host a = some .foreign} pl.code (pl.ram 1) fun _ => .fresh)
        ((List.range k).flatMap (serviceOp o (pl.ram 1)))
        (Stage r {a | t₀.world.host a = some .foreign} pl.code (pl.ram 1) (o.fleetUse k 0)) := by
      rw [serviceOps_of_le hle]
      exact stage_starts ho hpos hfit hle
    obtain ⟨t₁, hpre, h₁, hcharged, -⟩ := fleet_reached ho htime hsim h₀ hrun hops htracks
      (le_trans (Nat.mul_le_mul_right _ hle) hfit)
    refine ⟨t₁, hpre, h₁, ?_⟩
    rw [hcharged, Options.staircase, if_pos hle, Nat.zero_mul, Nat.sub_zero]
  · obtain ⟨j, rfl⟩ := Nat.exists_eq_add_of_le hge
    have hj : j ≤ o.services := by omega
    have htracks : Tracks
        (Stage r {a | t₀.world.host a = some .foreign} pl.code (pl.ram 1) fun _ => .fresh)
        ((List.range (o.services + j)).flatMap (serviceOp o (pl.ram 1)))
        (Stage r {a | t₀.world.host a = some .foreign} pl.code (pl.ram 1)
          (o.fleetUse o.services j)) := by
      rw [serviceOps_add]
      exact (stage_starts ho hpos hfit le_rfl).append (stage_stops ho hpos hfit hj)
    obtain ⟨t₁, hpre, h₁, hcharged, -⟩ := fleet_reached ho htime hsim h₀ hrun hops htracks hfit
    refine ⟨t₁, hpre, h₁, ?_⟩
    rw [hcharged, staircase_stops hj, Nat.sub_mul]

end operations

/-! ## The trace -/

/-- **The samples follow the marks.** In every interleaving of a fleet run with its sampler, over
regions that are nonempty and whose total does not overflow: the reading of a `SAMPLE` line was
taken when at least the services had been started and stopped whose marks stand before the `SAMPLE`
line before it, and at most one more operation than those whose marks stand before the line itself;
and at that moment the bytes of guest RAM in use are those of the staircase at this number of
operations. -/
theorem samples_follow_marks (o : Options) (pl : Placement) (r : RamSize)
    (ho : o.ramSize = r.bytes) (htime : o.timeReclaim = false) (hsim : o.fleetSim = true)
    (hadm : o.fleetAdmissible) (hpos : 0 < o.region) (hlt : o.region * o.services < 2 ^ 64)
    {t₀ t : Tracked} (h₀ : Fresh t₀.world) (hrun : run Tracked.step t₀ (mainRun o pl) = some t)
    {moves : List Who} {s : State (List Char)}
    (htrace : run Sampling.step (.init (fleetMarks o.services)) moves = some s)
    {before after : List (Line (List Char))} {k : ℕ}
    (hline : s.out = before ++ .sample k :: after) :
    works (shown before) ≤ k ∧ k ≤ works before + 1 ∧ ∃ t₁,
      setup o pl (pl.ram 1) ++ (List.range k).flatMap (serviceOp o (pl.ram 1)) <+: mainRun o pl ∧
      run Tracked.step t₀
        (setup o pl (pl.ram 1) ++ (List.range k).flatMap (serviceOp o (pl.ram 1))) = some t₁ ∧
      t₁.charged (pl.ram 1) r.bytes = o.staircase k := by
  have h := sound_run htrace
  obtain ⟨hlo, hhi⟩ := h.truthful before k after hline
  have hk : k ≤ 2 * o.services := by
    rw [← countP_fleetMarks]
    exact h.within k (hline ▸ List.mem_append_right _ List.mem_cons_self)
  exact ⟨hlo, hhi, staircase_reached ho htime hsim hpos (fleet_fits hadm hlt) h₀ hrun hk⟩

/-- The first of four services starts while a reading is taken, and is announced before it is
printed. -/
theorem samples_follow_marks_four : ∃ s t₁ before,
    run Sampling.step (.init (fleetMarks 4))
        [.program, .sampler, .program, .sampler, .program, .sampler] = some s ∧
      s.out = before ++ [.sample 1] ∧ works (shown before) ≤ 1 ∧
      run Tracked.step ⟨emptyWorld, fun _ => .fresh⟩ (setup fleetOptions spacedPlacement (2 ^ 31) ++
        (List.range 1).flatMap (serviceOp fleetOptions (2 ^ 31))) = some t₁ ∧
      t₁.charged (2 ^ 31) (2 ^ 30) = fleetOptions.staircase 1 := by
  have hroom : (mainRun fleetOptions spacedPlacement).filterMap Op.room =
      [(1 * 2 ^ 31, fleetOptions.ramSize), (0, page)] := by decide
  have hsize : fleetOptions.ramSize = 2 ^ 30 := by decide
  have hadm : fleetOptions.fleetAdmissible := by
    unfold Options.fleetAdmissible
    decide
  obtain ⟨t, hrun⟩ := exists_tracked_run (mainRun fleetOptions spacedPlacement)
    (fun _ => .fresh) (by decide) (by rw [hroom, hsize]; simp [page])
    (by rw [hroom, hsize]; simp [page])
  obtain ⟨s, before, htrace, hline⟩ : ∃ s before,
      run Sampling.step (.init (fleetMarks 4))
        [.program, .sampler, .program, .sampler, .program, .sampler] = some s ∧
      s.out = before ++ .sample 1 :: [] := ⟨_, [.mark _, .mark _], rfl, rfl⟩
  obtain ⟨hlo, -, t₁, -, h₁, hcharged⟩ := samples_follow_marks fleetOptions spacedPlacement plainRam
    (by decide) rfl rfl hadm (by decide) (by decide) fresh_emptyWorld hrun htrace hline
  exact ⟨s, t₁, before, htrace, hline, hlo, h₁, hcharged⟩

/-- The arms of the fleet run. -/
inductive Arm
  | hvf
  | vz

/-- The marks of an arm, given the number of services. -/
def Arm.marks : Arm → ℕ → List (Item (List Char))
  | .hvf => fleetMarks
  | .vz => vzFleetMarks

/-- **The trace is complete.** Of the `MARK` and `SAMPLE` lines of either fleet run, in every
interleaving with its sampler, and even if the sampler fails: the marks on the output are the first
ones of the run, in order, and all of them once the run has returned; after the sampler was told to
stop, which is after the last mark, there are four moves at most, one of which may print one more
reading; a run that has returned leaves nobody behind to print such a line; and from every state it
can return. -/
theorem trace_complete (arm : Arm) (services : ℕ) {moves : List Who} {s : State (List Char)}
    (htrace : run Sampling.step (.init (arm.marks services)) moves = some s) :
    Sampling.marks s.out <+: arm.marks services
      ∧ (s.stop = true → Sampling.marks s.out = arm.marks services
        ∧ ∀ later s', run Sampling.step s later = some s' → later.length ≤ 4
          ∧ ∃ ks : List ℕ, s'.out = s.out ++ ks.map .sample ∧ ks.length ≤ 1)
      ∧ (s.returned = true → Sampling.marks s.out = arm.marks services
        ∧ ∀ who, Sampling.step s who = none)
      ∧ ∃ later s', (∀ who ∈ later, who ≠ .samplerDies)
        ∧ run Sampling.step s later = some s' ∧ s'.returned = true := by
  have h := sound_run htrace
  have hall : s.stop = true → Sampling.marks s.out = arm.marks services := by
    intro hstop
    rw [← h.marks, h.stop hstop, List.append_nil]
  refine ⟨⟨s.todo, h.marks⟩, fun hstop => ⟨hall hstop, fun later s' hlater => ?_⟩,
    fun hret => ⟨hall (h.returned hret).1, h.quiet hret⟩, completes h⟩
  obtain ⟨hlen, ks, hout, hks⟩ := run_of_stop h hstop hlater
  refine ⟨?_, ks, hout, ?_⟩
  · have hleft : s.left ≤ 4 := by
      rw [State.left]
      split <;> split <;> omega
    omega
  · have hone : s.sampler.left ≤ 1 := by
      rw [Sampler.left.eq_def]
      split <;> omega
    omega

/-- A fleet of one service whose sampler fails at once: all its marks come out, and no reading. -/
theorem trace_complete_dies : ∃ s,
    run Sampling.step (.init (vzFleetMarks 1)) [.sampler, .samplerDies, .program] = some s ∧
      Sampling.marks s.out <+: vzFleetMarks 1 := by
  obtain ⟨s, hs⟩ : ∃ s, run Sampling.step (.init (vzFleetMarks 1))
      [.sampler, .samplerDies, .program] = some s := ⟨_, rfl⟩
  exact ⟨s, hs, (trace_complete .vz 1 hs).1⟩

end VmRatchet.Main
