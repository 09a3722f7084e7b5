import VmRatchet.Lib.Run
import VmRatchet.Lib.Text

/-!
# The process that is sampled

On Virtualization.framework guest RAM is charged to a helper process, one for each virtual machine,
and the driver's machine need not be the only one on the host. The driver lists the helpers before
it starts its own machine, and afterwards takes for its own helper whatever it first finds that was
not in the list; of several such pids a `HashSet` hands out any one.

* `runningHelpers`, `runningHelpers_pgrep` — the list, from the text that `pgrep` prints; of `pgrep`
  itself only `OnePidALine` is assumed.
* `Search`, `Search.step` — the driver and the helpers, which come and go.
* `Search.Traced` — where a pid that was not listed comes from, and what the polls have seen.
* `sampled_helper` — what the driver samples.

Two lists are never compared at the same instant, so a helper that was listed may be gone and its
pid in use again.
-/

namespace VmRatchet.Vz.Helper

open Text Transition

/-! ## The list -/

/-- `str::parse::<i32>`. -/
def parseI32 : List Char → Option ℤ
  | '-' :: digits =>
      if digits = [] then none
      else (parseDigits 0 digits).bind fun n => if n ≤ 2 ^ 31 then some (-(n : ℤ)) else none
  | s => (parse 31 s).map Int.ofNat

/-- The pids in the output of `pgrep`; other lines are dropped.
Source: `crates/vz-ratchet/src/helper.rs`, `running_helpers` -/
def runningHelpers (stdout : List Char) : List ℤ :=
  (lines stdout).filterMap fun line => parseI32 (trim line)

/-- What the driver relies on: given the pids of the helpers that run, `pgrep` prints each of them
on a line of its own, in any order. -/
def OnePidALine (pgrep : List ℕ → List Char) : Prop :=
  ∀ pids, (lines (pgrep pids)).Perm (pids.map decimal)

/-- A pid below `2 ^ 31` is read back from its decimal digits. -/
theorem parseI32_decimal {pid : ℕ} (h : pid < 2 ^ 31) :
    parseI32 (decimal pid) = some (pid : ℤ) := by
  have hparse := parse_decimal h
  unfold parseI32
  split
  · next digits heq =>
      -- no pid starts with a sign
      have hsign : '-' ∈ decimal pid := heq ▸ List.mem_cons_self
      obtain ⟨d, hd, hc⟩ := mem_decimal hsign
      interval_cases d <;> exact absurd hc (by decide)
  · rw [hparse]
    rfl

/-- The driver reads from what `pgrep` prints exactly the pids that run, in some order. -/
theorem runningHelpers_pgrep {pgrep : List ℕ → List Char} (hpgrep : OnePidALine pgrep)
    {pids : List ℕ} (h : ∀ pid ∈ pids, pid < 2 ^ 31) :
    (runningHelpers (pgrep pids)).Perm (pids.map Int.ofNat) := by
  unfold runningHelpers
  refine ((hpgrep pids).filterMap _).trans (.of_eq ?_)
  rw [List.filterMap_map, ← List.filterMap_eq_map]
  refine List.filterMap_congr fun pid hpid => ?_
  rw [Function.comp_apply, trim_of_trimmed (trimmed_decimal pid), parseI32_decimal (h pid hpid)]
  rfl

/-! ## The search -/

/-- Whose virtual machine a helper belongs to. -/
inductive Owner
  | ours
  | other
  deriving DecidableEq

/-- Where the driver is in its search for the helper of its own virtual machine. -/
inductive Phase
  /-- Before its first list. -/
  | listing
  /-- In `find_new_helper`, or on the way there. -/
  | searching
  | found (pid : ℤ)
  /-- The panic of `find_new_helper`. -/
  | gaveUp
  deriving DecidableEq

/-- The driver, the helpers that run on the host, and whose they are. -/
structure Search where
  /-- The helpers that run; the driver makes a set of them, so their order is of no consequence. -/
  running : List (ℕ × Owner)
  phase : Phase
  /-- `pre_existing` -/
  pre : List ℤ
  /-- Every helper that has been started since the first list. -/
  born : List (ℕ × Owner)
  /-- The helpers that ran at each poll. -/
  polled : List (List (ℕ × Owner))

/-- At the start some helpers of other virtual machines run, and the driver has listed nothing. -/
def Search.init (pids : List ℕ) : Search := ⟨pids.map (·, .other), .listing, [], [], []⟩

/-- What can happen: a helper starts or ends, the driver makes a list of them, or its deadline
passes. -/
inductive Action
  /-- A helper is started. -/
  | start (pid : ℕ) (owner : Owner)
  /-- A helper ends, because its virtual machine does or by itself. -/
  | exit (pid : ℕ)
  /-- The driver lists the helpers for the first time. -/
  | list
  /-- The driver lists them again, and if there are new ones the set hands out this one. -/
  | poll (pid : ℤ)
  | deadline

namespace Search

variable (pgrep : List ℕ → List Char) (s : Search)

/-- What the driver reads in the output of `pgrep`. -/
def listed : List ℤ := runningHelpers (pgrep (s.running.map Prod.fst))

/-- `running_helpers().difference(pre_existing)` -/
def new : List ℤ := (s.listed pgrep).filter (· ∉ s.pre)

/-- One step. A pid is in use once at a time, and the driver starts one virtual machine, after its
first list.
Source: `crates/vz-ratchet/src/main.rs`, `main` (`pre_existing`, `pid`); `helper.rs`,
`find_new_helper` -/
def step : Action → Option Search
  | .start pid owner =>
      if pid < 2 ^ 31 ∧ pid ∉ s.running.map Prod.fst ∧
          (owner = .ours → s.phase ≠ .listing ∧ ∀ x ∈ s.born, x.2 ≠ .ours) then
        some { s with
          running := s.running ++ [(pid, owner)]
          born := if s.phase = .listing then s.born else s.born ++ [(pid, owner)] }
      else none
  | .exit pid => some { s with running := s.running.filter (·.1 ≠ pid) }
  | .list =>
      if s.phase = .listing then some { s with phase := .searching, pre := s.listed pgrep }
      else none
  | .poll pid =>
      if s.phase ≠ .searching then none
      else if s.new pgrep = [] then some { s with polled := s.polled ++ [s.running] }
      else if pid ∈ s.new pgrep then
        some { s with phase := .found pid, polled := s.polled ++ [s.running] }
      else none
  | .deadline => if s.phase = .searching then some { s with phase := .gaveUp } else none

end Search

section search

variable {pgrep : List ℕ → List Char} {s s' : Search}

/-- What holds all the time: every helper has a pid, and once the driver has its first list, those
whose pid is not in it have been started since; every poll before the last one that found something
has seen pids of the first list only. -/
structure Search.Traced (s : Search) : Prop where
  pid : ∀ x ∈ s.running, x.1 < 2 ^ 31
  source : s.phase ≠ .listing → ∀ x ∈ s.running, (x.1 : ℤ) ∈ s.pre ∨ x ∈ s.born
  idle : s.phase = .listing → s.born = [] ∧ s.polled = []
  single : (s.born.filter (·.2 = .ours)).length ≤ 1
  known : (∀ pid, s.phase ≠ .found pid) → ∀ xs ∈ s.polled, ∀ x ∈ xs, (x.1 : ℤ) ∈ s.pre
  found : ∀ pid, s.phase = .found pid → ∃ earlier last, s.polled = earlier ++ [last] ∧
    (∀ xs ∈ earlier, ∀ x ∈ xs, (x.1 : ℤ) ∈ s.pre) ∧ pid ∉ s.pre ∧
    ∃ x ∈ last, (x.1 : ℤ) = pid ∧ x ∈ s.born

/-- A driver that searches is past its first list. -/
theorem Search.not_listing (h : s.phase = .searching) : s.phase ≠ .listing := by
  rw [h]
  exact Phase.noConfusion

/-- A driver that searches has found no helper yet. -/
theorem Search.not_found (h : s.phase = .searching) (pid : ℤ) : s.phase ≠ .found pid := by
  rw [h]
  exact Phase.noConfusion

/-- The driver reads a pid from `pgrep` exactly if a helper runs under it. -/
theorem Search.Traced.mem_listed (hpgrep : OnePidALine pgrep) (h : s.Traced) {pid : ℤ} :
    pid ∈ s.listed pgrep ↔ ∃ x ∈ s.running, (x.1 : ℤ) = pid := by
  have hpids : ∀ p ∈ s.running.map Prod.fst, p < 2 ^ 31 := by
    intro p hp
    obtain ⟨x, hx, rfl⟩ := List.mem_map.mp hp
    exact h.pid x hx
  unfold Search.listed
  rw [(runningHelpers_pgrep hpgrep hpids).mem_iff]
  simp

/-- A pid is new if a helper has it that was not listed. -/
theorem Search.Traced.mem_new (hpgrep : OnePidALine pgrep) (h : s.Traced) {pid : ℤ} :
    pid ∈ s.new pgrep ↔ (∃ x ∈ s.running, (x.1 : ℤ) = pid) ∧ pid ∉ s.pre := by
  rw [Search.new, List.mem_filter, h.mem_listed hpgrep, decide_eq_true_eq]

/-- A helper that starts, under any pid that is free, is one that has been started since the first
list, if there is a list; what was polled and found stays as it was. -/
theorem Search.Traced.start (h : s.Traced) {pid : ℕ} {owner : Owner}
    (hstep : s.step pgrep (.start pid owner) = some s') : s'.Traced := by
  rw [Search.step, Option.ite_none_right_eq_some, Option.some.injEq] at hstep
  obtain ⟨⟨hpid, -, hours⟩, rfl⟩ := hstep
  by_cases hphase : s.phase = .listing
  · rw [if_pos hphase]
    refine ⟨?_, fun hne => absurd hphase hne, h.idle, h.single, h.known, h.found⟩
    intro x hx
    rcases List.mem_append.mp hx with hx | hx
    · exact h.pid x hx
    · rw [List.mem_singleton.mp hx]
      exact hpid
  · rw [if_neg hphase]
    refine ⟨?_, ?_, fun hlisting => absurd hlisting hphase, ?_, h.known, ?_⟩
    · intro x hx
      rcases List.mem_append.mp hx with hx | hx
      · exact h.pid x hx
      · rw [List.mem_singleton.mp hx]
        exact hpid
    · intro _ x hx
      rcases List.mem_append.mp hx with hx | hx
      · exact (h.source hphase x hx).imp_right (List.mem_append_left _)
      · exact .inr (List.mem_append_right _ hx)
    · -- only one of them is the driver's own
      rw [List.filter_append, List.length_append]
      cases owner with
      | other => simpa using h.single
      | ours =>
          have hnone : s.born.filter (·.2 = .ours) = [] :=
            List.filter_eq_nil_iff.mpr fun x hx => by simpa using (hours rfl).2 x hx
          rw [hnone]
          simp
    · intro q hq
      obtain ⟨earlier, last, hpolled, hearlier, hnew, x, hx, hxq, hborn⟩ := h.found q hq
      exact ⟨earlier, last, hpolled, hearlier, hnew, x, hx, hxq, List.mem_append_left _ hborn⟩

/-- A helper that ends takes nothing from what is known: those that still run have the same
sources. -/
theorem Search.Traced.exit (h : s.Traced) {pid : ℕ}
    (hstep : s.step pgrep (.exit pid) = some s') : s'.Traced := by
  obtain rfl := Option.some.inj hstep
  exact ⟨fun x hx => h.pid x (List.mem_of_mem_filter hx),
    fun hne x hx => h.source hne x (List.mem_of_mem_filter hx), h.idle, h.single, h.known, h.found⟩

/-- The first list has the pids of all helpers that run at that moment, so nobody is unlisted
yet. -/
theorem Search.Traced.list (hpgrep : OnePidALine pgrep) (h : s.Traced)
    (hstep : s.step pgrep .list = some s') : s'.Traced := by
  rw [Search.step, Option.ite_none_right_eq_some, Option.some.injEq] at hstep
  obtain ⟨hphase, rfl⟩ := hstep
  obtain ⟨hborn, hpolled⟩ := h.idle hphase
  refine ⟨h.pid, fun _ x hx => .inl ((h.mem_listed hpgrep).mpr ⟨x, hx, rfl⟩), ?_, h.single, ?_, ?_⟩
  · intro hlisting
    cases hlisting
  · intro _ xs hxs
    rw [hpolled] at hxs
    cases hxs
  · intro q hq
    cases hq

/-- A poll either finds a helper, and then one that runs now with a pid that is not in the first
list, and so was started since; or it has seen pids of the first list only. -/
theorem Search.Traced.poll (hpgrep : OnePidALine pgrep) (h : s.Traced) {pid : ℤ}
    (hstep : s.step pgrep (.poll pid) = some s') : s'.Traced := by
  rw [Search.step] at hstep
  split_ifs at hstep with hphase hnew hpid
  · -- nothing is new, so every pid was listed
    obtain rfl := Option.some.inj hstep
    have hsearching : s.phase = .searching := not_not.mp hphase
    have hlisted : ∀ x ∈ s.running, (x.1 : ℤ) ∈ s.pre := by
      intro x hx
      by_contra hpre
      have hmem : (x.1 : ℤ) ∈ s.new pgrep := (h.mem_new hpgrep).mpr ⟨⟨x, hx, rfl⟩, hpre⟩
      rw [hnew] at hmem
      cases hmem
    refine ⟨h.pid, h.source, fun hcontra => absurd hcontra (not_listing hsearching), h.single, ?_,
      fun q hq => absurd hq (not_found hsearching q)⟩
    intro hne xs hxs
    rcases List.mem_append.mp hxs with hxs | hxs
    · exact h.known hne xs hxs
    · rw [List.mem_singleton.mp hxs]
      exact hlisted
  · -- the set has handed out a pid that was not listed
    obtain rfl := Option.some.inj hstep
    have hsearching : s.phase = .searching := not_not.mp hphase
    obtain ⟨⟨x, hx, hxpid⟩, hpre⟩ := (h.mem_new hpgrep).mp hpid
    have hsource := h.source (not_listing hsearching)
    have hborn : x ∈ s.born := (hsource x hx).resolve_left (hxpid ▸ hpre)
    have hknown := h.known (not_found hsearching)
    refine ⟨h.pid, fun _ => hsource, ?_, h.single, ?_, ?_⟩
    · intro hcontra
      cases hcontra
    · intro hne
      exact absurd rfl (hne pid)
    · intro q hq
      cases hq
      exact ⟨s.polled, s.running, rfl, hknown, hpre, x, hx, hxpid, hborn⟩

/-- At the deadline the driver gives up, and every poll has seen pids of the first list only. -/
theorem Search.Traced.deadline (h : s.Traced) (hstep : s.step pgrep .deadline = some s') :
    s'.Traced := by
  rw [Search.step, Option.ite_none_right_eq_some, Option.some.injEq] at hstep
  obtain ⟨hphase, rfl⟩ := hstep
  refine ⟨h.pid, fun _ => h.source (not_listing hphase), ?_, h.single,
    fun _ => h.known (not_found hphase), ?_⟩
  · intro hcontra
    cases hcontra
  · intro q hq
    cases hq

/-- Every step, of the driver or of a helper of anybody, keeps what is known about the search. -/
theorem Search.Traced.step (hpgrep : OnePidALine pgrep) {a : Action} (h : s.Traced)
    (hstep : s.step pgrep a = some s') : s'.Traced := by
  cases a with
  | start pid owner => exact h.start hstep
  | exit pid => exact h.exit hstep
  | list => exact h.list hpgrep hstep
  | poll pid => exact h.poll hpgrep hstep
  | deadline => exact h.deadline hstep

/-- In every run, from any helpers at the beginning, what is known about the search holds all the
time. -/
theorem traced_run (hpgrep : OnePidALine pgrep) {pids : List ℕ}
    (hpids : ∀ pid ∈ pids, pid < 2 ^ 31) {actions : List Action}
    (hrun : run (Search.step pgrep) (.init pids) actions = some s) : s.Traced := by
  refine run_invariant (fun _ _ _ _ h hstep => Search.Traced.step hpgrep h hstep)
    (Along.of_labels (P := fun _ _ => True) (fun _ _ _ => trivial) _) ?_ hrun
  refine ⟨?_, fun hne => absurd rfl hne, fun _ => ⟨rfl, rfl⟩, Nat.zero_le _, ?_, ?_⟩
  · intro x hx
    obtain ⟨pid, hpid, rfl⟩ := List.mem_map.mp hx
    exact hpids pid hpid
  · intro _ xs hxs
    cases hxs
  · intro q hq
    cases hq

/-- If nobody else starts a virtual machine, the driver's own helper is the only one to start. -/
theorem Search.Traced.born_eq (h : s.Traced) (hours : ∀ x ∈ s.born, x.2 = .ours) {x : ℕ × Owner}
    (hx : x ∈ s.born) : s.born = [(x.1, .ours)] := by
  have hall : s.born.filter (·.2 = .ours) = s.born :=
    List.filter_eq_self.mpr fun y hy => decide_eq_true (hours y hy)
  have hsingle := h.single
  rw [hall] at hsingle
  obtain ⟨y, hy⟩ := List.length_eq_one_iff.mp
    (Nat.le_antisymm hsingle (List.length_pos_of_mem hx))
  rw [hy, List.mem_singleton] at hx
  rw [hy, ← hx, ← hours x (hy ▸ hx ▸ List.mem_singleton_self x)]

/-- A poll that has something to find ends the search. -/
theorem Search.Traced.poll_found (hpgrep : OnePidALine pgrep) (h : s.Traced)
    (hphase : s.phase = .searching)
    {x : ℕ × Owner} (hx : x ∈ s.running) (hpre : (x.1 : ℤ) ∉ s.pre) :
    (∃ s', s.step pgrep (.poll x.1) = some s' ∧ s'.phase = .found x.1) ∧
      ∀ pid s', s.step pgrep (.poll pid) = some s' → s'.phase = .found pid := by
  have hmem : (x.1 : ℤ) ∈ s.new pgrep := (h.mem_new hpgrep).mpr ⟨⟨x, hx, rfl⟩, hpre⟩
  have hne : s.new pgrep ≠ [] := List.ne_nil_of_mem hmem
  have hstep : ∀ pid, s.step pgrep (.poll pid) = if pid ∈ s.new pgrep then
      some { s with phase := .found pid, polled := s.polled ++ [s.running] } else none := by
    intro pid
    rw [Search.step, if_neg (not_not.mpr hphase), if_neg hne]
  constructor
  · exact ⟨_, (hstep _).trans (if_pos hmem), rfl⟩
  · intro pid s' hs'
    rw [hstep, Option.ite_none_right_eq_some, Option.some.injEq] at hs'
    exact hs'.2 ▸ rfl

end search

/-- **What the driver samples.** In every run of the driver beside the helpers of the host, which
start and end at any time:

* if it has found a helper, that one was started after the first list, under a pid that was not in
  it, and ran when the driver polled, while at no earlier poll any such helper ran;
* if it has given up, none ran at any poll;
* as long as it searches, a helper with a pid that was not listed can be found by the next poll,
  whoever started it, and no poll fails to find one;
* and if nobody else has started a virtual machine since the first list, what it has found is its
  own. -/
theorem sampled_helper {pgrep : List ℕ → List Char} (hpgrep : OnePidALine pgrep) {pids : List ℕ}
    (hpids : ∀ pid ∈ pids, pid < 2 ^ 31) {actions : List Action} {s : Search}
    (hrun : run (Search.step pgrep) (.init pids) actions = some s) :
    (∀ pid, s.phase = .found pid → ∃ earlier last, s.polled = earlier ++ [last] ∧
        (∀ xs ∈ earlier, ∀ x ∈ xs, (x.1 : ℤ) ∈ s.pre) ∧ pid ∉ s.pre ∧
        ∃ x ∈ last, (x.1 : ℤ) = pid ∧ x ∈ s.born) ∧
      (s.phase = .gaveUp → ∀ xs ∈ s.polled, ∀ x ∈ xs, (x.1 : ℤ) ∈ s.pre) ∧
      (s.phase = .searching → ∀ x ∈ s.running, (x.1 : ℤ) ∉ s.pre →
        (∃ s', s.step pgrep (.poll x.1) = some s' ∧ s'.phase = .found x.1) ∧
          ∀ pid s', s.step pgrep (.poll pid) = some s' → s'.phase = .found pid) ∧
      ((∀ x ∈ s.born, x.2 = .ours) → ∀ pid, s.phase = .found pid →
        ∃ own : ℕ, s.born = [(own, .ours)] ∧ (own : ℤ) = pid) := by
  have h := traced_run hpgrep hpids hrun
  refine ⟨h.found, ?_, ?_, ?_⟩
  · intro hphase
    refine h.known fun pid hpid => ?_
    rw [hphase] at hpid
    cases hpid
  · exact fun hphase x hx hpre => h.poll_found hpgrep hphase hx hpre
  · intro hours pid hpid
    obtain ⟨-, -, -, -, -, x, -, hxpid, hborn⟩ := h.found pid hpid
    exact ⟨x.1, h.born_eq hours hborn, hxpid⟩

/-- A `pgrep` that prints the pids in the order in which the helpers were started. -/
def printPids (pids : List ℕ) : List Char := pids.flatMap fun pid => decimal pid ++ ['\n']

/-- `printPids` prints the pids one a line, as it is assumed of `pgrep`. -/
theorem printPids_onePidALine : OnePidALine printPids := by
  intro pids
  refine .of_eq ?_
  induction pids with
  | nil => rfl
  | cons pid pids ih =>
      have hnewline : '\n' ∉ decimal pid := fun hmem => by
        have := isWhitespace_of_mem_decimal hmem
        cases this
      have hlast : ∀ c ∈ (decimal pid).getLast?, isWhitespace c = false := fun c hc =>
        isWhitespace_of_mem_decimal (List.mem_of_getLast? hc)
      unfold printPids at ih ⊢
      rw [List.flatMap_cons, List.append_assoc, List.singleton_append, lines_cons hnewline,
        stripCr_of_visible hlast, ih, List.map_cons]

/-- The theorem at work: another virtual machine is started at the same time, and its helper is
sampled. -/
theorem sampled_helper_other : ∃ s, run (Search.step printPids) (.init [100])
      [.list, .poll 0, .start 200 .ours, .exit 100, .start 300 .other, .poll 300] = some s ∧
    s.phase = .found 300 ∧ s.born = [(200, .ours), (300, .other)] ∧
    ∃ x ∈ s.born, (x.1 : ℤ) = 300 := by
  obtain ⟨s, hrun, hphase, hborn⟩ : ∃ s, run (Search.step printPids) (.init [100])
      [.list, .poll 0, .start 200 .ours, .exit 100, .start 300 .other, .poll 300] = some s ∧
      s.phase = .found 300 ∧ s.born = [(200, .ours), (300, .other)] :=
    ⟨_, rfl, by decide +kernel, by decide +kernel⟩
  obtain ⟨hfound, -⟩ := sampled_helper printPids_onePidALine (by simp) hrun
  obtain ⟨-, -, -, -, -, x, -, hpid, hx⟩ := hfound 300 hphase
  exact ⟨s, hrun, hphase, hborn, x, hx, hpid⟩

end VmRatchet.Vz.Helper
