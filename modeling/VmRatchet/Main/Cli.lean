import Mathlib.Data.List.Nodup
import VmRatchet.Lib.Text
import VmRatchet.Main.Trace

/-!
# The command line

`parse_args` walks over the arguments once. A switch is one argument, an option with a value takes
the argument after it, whatever that is, and a later option overwrites an earlier one. What the
walk has collected is then held against four groups of exclusions.

* `Cli`, `defaults` — all options, and what they are without arguments.
* `Flag`, `Flag.action` — the arguments that are understood, and what each does.
* `parseLoop`, `checkExclusions`, `parseArgs` — `parse_args`; a panic is an error.
* `Reads`, `reads_of_parseLoop`, `parseLoop_of_reads` — how the walk went, if it came to the end: no
  value is the text of a flag.
* `Reads.on_iff`, `Reads.advice_eq` — a switch is on if its text is among the arguments; the advice
  is the one after the last `--advice`.
* `Accepted`, `accepted_of_parseArgs` — what holds of options that passed the exclusions.
-/

namespace VmRatchet.Main

open Soak (ReclaimMode)
open Text (chars)

/-! ## The options -/

/-- Source: `main.rs`, `Options` -/
structure Cli extends Options where
  adviceName : List Char
  pressureGb : ℕ
  allocShape : Bool
  soak : Bool
  soakMinutes : ℕ
  vcpus : ℕ

/-- Source: `libc`, `MADV_DONTNEED` -/
def madvDontneed : ℤ := 4

/-- Source: `main.rs`, `parse_args` (`let mut opts`) -/
def defaults : Cli where
  advice := madvFreeReusable
  adviceName := chars "MADV_FREE_REUSABLE"
  sizeGb := 3
  naive := false
  hostTouch := false
  guestRead := false
  pressureCheck := false
  hammer := false
  allocShape := false
  pressureGb := 48
  repeats := 1
  timeReclaim := false
  extentKb := 0
  reclaimMode := .reusable
  steadyState := false
  fleetSim := false
  services := 8
  serviceMib := 256
  soak := false
  soakMinutes := 60
  vcpus := 4

/-- The panics of `parse_args`: an argument that is not understood, a value that is missing or not a
number, and an assertion that fails. -/
inductive ParsePanic
  /-- "unknown advice {other:?} (reusable|free|dontneed)" -/
  | unknownAdvice (other : Option (List Char))
  /-- "unknown reclaim mode {other:?} (reusable|munmap)" -/
  | unknownReclaimMode (other : Option (List Char))
  /-- "unknown argument {other:?}" -/
  | unknownArgument (other : List Char)
  /-- `args.next().expect(what)` -/
  | missing (what : String)
  /-- `parse().expect(kind)` -/
  | notANumber (kind : String)
  /-- `assert!(.., message)` -/
  | assertion (message : String)

/-- `assert!`, as a check that either passes or ends in the panic with this message. -/
def assertThat (b : Bool) (message : String) : Except ParsePanic Unit :=
  if b then .ok () else .error (.assertion message)

/-! ## The flags -/

/-- The arguments that are understood, one for each arm of the `match`. -/
inductive Flag
  | advice
  | sizeGb
  | naive
  | hostTouch
  | guestRead
  | pressureCheck
  | hammer
  | pressureGb
  | repeats
  | timeReclaim
  | extentKb
  | reclaimMode
  | steadyState
  | fleetSim
  | allocShape
  | soak
  | soakMinutes
  | vcpus
  | services
  | serviceMib
  deriving DecidableEq

namespace Flag

/-- All of them, in the order of the source. -/
def all : List Flag :=
  [advice, sizeGb, naive, hostTouch, guestRead, pressureCheck, hammer, pressureGb, repeats,
    timeReclaim, extentKb, reclaimMode, steadyState, fleetSim, allocShape, soak, soakMinutes, vcpus,
    services, serviceMib]

/-- Source: `main.rs`, `parse_args` (the arms of the `match`) -/
def text : Flag → List Char
  | advice => chars "--advice"
  | sizeGb => chars "--size-gb"
  | naive => chars "--naive"
  | hostTouch => chars "--host-touch"
  | guestRead => chars "--guest-read"
  | pressureCheck => chars "--pressure-check"
  | hammer => chars "--hammer"
  | pressureGb => chars "--pressure-gb"
  | repeats => chars "--repeat"
  | timeReclaim => chars "--time-reclaim"
  | extentKb => chars "--extent-kb"
  | reclaimMode => chars "--reclaim-mode"
  | steadyState => chars "--steady-state"
  | fleetSim => chars "--fleet-sim"
  | allocShape => chars "--alloc-shape"
  | soak => chars "--soak"
  | soakMinutes => chars "--soak-minutes"
  | vcpus => chars "--vcpus"
  | services => chars "--services"
  | serviceMib => chars "--service-mib"

/-- The flag an argument stands for, if its text is that of one of them. -/
def ofArg (arg : List Char) : Option Flag := all.find? fun f => f.text = arg

/-- The list `all` has every flag. -/
theorem mem_all (f : Flag) : f ∈ all := by cases f <;> decide

/-- Different flags have different texts. -/
theorem text_inj {f g : Flag} : f.text = g.text ↔ f = g := by
  have hnodup : (all.map text).Nodup := by decide +kernel
  constructor
  · intro h
    exact List.inj_on_of_nodup_map hnodup (mem_all f) (mem_all g) h
  · exact congrArg text

/-- Only its own text stands for a flag: whatever argument is taken for `f` is the text of `f`. -/
theorem text_of_ofArg {arg : List Char} {f : Flag} (h : ofArg arg = some f) : f.text = arg := by
  simpa using List.find?_some h

/-- Every flag is found by its text. -/
@[simp] theorem ofArg_text (f : Flag) : ofArg f.text = some f := by
  cases h : ofArg f.text with
  | some g => rw [text_inj.mp (text_of_ofArg h)]
  | none =>
      have hne := List.find?_eq_none.mp h f (mem_all f)
      exact absurd (decide_eq_true rfl) hne

end Flag

/-- The advice a value stands for, and its name.
Source: `main.rs`, `parse_args` (the arm of `--advice`) -/
def adviceOf (value : List Char) : Option (ℤ × List Char) :=
  if value = chars "reusable" then some (madvFreeReusable, chars "MADV_FREE_REUSABLE")
  else if value = chars "free" then some (madvFree, chars "MADV_FREE")
  else if value = chars "dontneed" then some (madvDontneed, chars "MADV_DONTNEED")
  else none

/-- The reclaim mode a value stands for.
Source: `main.rs`, `parse_args` (the arm of `--reclaim-mode`) -/
def reclaimModeOf (value : List Char) : Option ReclaimMode :=
  if value = chars "reusable" then some .reusable
  else if value = chars "munmap" then some .munmap
  else none

/-- `args.next().expect(what).parse().expect(kind)`, and what is set to the number. -/
def number (what kind : String) (set : ℕ → Cli → Cli) (next : Option (List Char)) :
    Except ParsePanic (Cli → Cli) :=
  match next with
  | none => .error (.missing what)
  | some value =>
    match Text.parse 64 value with
    | none => .error (.notANumber kind)
    | some n => .ok (set n)

/-- A number that must not be zero: as `number`, with an assertion behind it. -/
def positive (what kind message : String) (set : ℕ → Cli → Cli) (next : Option (List Char)) :
    Except ParsePanic (Cli → Cli) :=
  match next with
  | none => .error (.missing what)
  | some value =>
    match Text.parse 64 value with
    | none => .error (.notANumber kind)
    | some n => if 1 ≤ n then .ok (set n) else .error (.assertion message)

/-- The arm of `--advice`: the next argument must be there, and name one of the three advices. -/
def readAdvice (next : Option (List Char)) : Except ParsePanic (Cli → Cli) :=
  match next.bind adviceOf with
  | some (advice, name) => .ok fun c => { c with advice := advice, adviceName := name }
  | none => .error (.unknownAdvice next)

/-- The arm of `--reclaim-mode`: the next argument must be there, and name one of the two modes. -/
def readReclaimMode (next : Option (List Char)) : Except ParsePanic (Cli → Cli) :=
  match next.bind reclaimModeOf with
  | some mode => .ok fun c => { c with reclaimMode := mode }
  | none => .error (.unknownReclaimMode next)

/-- What an arm of the `match` does: it sets an option by itself, or reads the next argument and
sets one to that. -/
inductive Action
  | switch (set : Cli → Cli)
  /-- The arm takes the next argument, if there is one. -/
  | value (read : Option (List Char) → Except ParsePanic (Cli → Cli))

/-- Source: `main.rs`, `parse_args` (the arms of the `match`) -/
def Flag.action : Flag → Action
  | .advice => .value readAdvice
  | .sizeGb => .value (number "--size-gb N" "integer GiB" fun n c => { c with sizeGb := n })
  | .naive => .switch fun c => { c with naive := true }
  | .hostTouch => .switch fun c => { c with hostTouch := true }
  | .guestRead => .switch fun c => { c with guestRead := true }
  | .pressureCheck => .switch fun c => { c with pressureCheck := true }
  | .hammer => .switch fun c => { c with hammer := true }
  | .pressureGb =>
    .value (number "--pressure-gb N" "integer GiB" fun n c => { c with pressureGb := n })
  | .repeats =>
    .value (positive "--repeat N" "integer" "--repeat must be >= 1" fun n c =>
      { c with repeats := n })
  | .timeReclaim => .switch fun c => { c with timeReclaim := true }
  | .extentKb => .value (number "--extent-kb N" "integer KiB" fun n c => { c with extentKb := n })
  | .reclaimMode => .value readReclaimMode
  | .steadyState => .switch fun c => { c with steadyState := true }
  | .fleetSim => .switch fun c => { c with fleetSim := true }
  | .allocShape => .switch fun c => { c with allocShape := true }
  | .soak => .switch fun c => { c with soak := true }
  | .soakMinutes =>
    .value (number "--soak-minutes N" "integer minutes" fun n c => { c with soakMinutes := n })
  | .vcpus =>
    .value (positive "--vcpus N" "integer" "--vcpus must be >= 1" fun n c => { c with vcpus := n })
  | .services => .value (number "--services N" "integer count" fun n c => { c with services := n })
  | .serviceMib =>
    .value (number "--service-mib N" "integer MiB" fun n c => { c with serviceMib := n })

/-! ## The walk -/

/-- `while let Some(arg) = args.next()`
Source: `main.rs`, `parse_args` -/
def parseLoop (c : Cli) : List (List Char) → Except ParsePanic Cli
  | [] => .ok c
  | arg :: rest =>
    match Flag.ofArg arg with
    | none => .error (.unknownArgument arg)
    | some f =>
      match f.action with
      | .switch set => parseLoop (set c) rest
      | .value read =>
        match rest with
        | [] => (read none).map fun set => set c
        | value :: rest =>
          match read (some value) with
          | .error e => .error e
          | .ok set => parseLoop (set c) rest

/-- How many of the four modes are on.
Source: `main.rs`, `parse_args` (`exclusive`) -/
def Cli.exclusive (c : Cli) : ℕ :=
  c.timeReclaim.toNat + c.fleetSim.toNat + c.soak.toNat + c.allocShape.toNat

/-- `if cond { assert!(..) }`, the checks behind the loop that hold for one mode only. -/
def assertIf (cond b : Bool) (message : String) : Except ParsePanic Unit :=
  if cond then assertThat b message else .ok ()

/-- Source: `main.rs`, `parse_args` (after the loop) -/
def checkExclusions (c : Cli) : Except ParsePanic Unit := do
  assertIf c.hammer (!c.hostTouch && !c.naive && !c.pressureCheck)
    ("--hammer probes the post-reclaim guest state; it excludes " ++
      "--host-touch, --naive and --pressure-check")
  assertIf (1 < c.repeats) (!c.pressureCheck && !c.hammer)
    ("--repeat measures the plain reclaim cycle; run the safety " ++
      "probes separately")
  if 0 < c.exclusive then
    assertThat (c.exclusive = 1)
      "--time-reclaim, --fleet-sim, --soak and --alloc-shape are separate modes"
    assertThat (!c.naive && !c.hostTouch && !c.pressureCheck && !c.hammer)
      ("--time-reclaim/--fleet-sim/--soak/--alloc-shape drive their own " ++
        "sequences; they exclude --naive, --host-touch and the short " ++
        "safety probes")
  else
    assertThat (c.extentKb = 0 && !c.steadyState && c.reclaimMode = .reusable)
      ("--extent-kb, --steady-state and --reclaim-mode only apply to " ++
        "--time-reclaim and --soak")

/-- The arguments behind the program's name; an error is a panic.
Source: `main.rs`, `parse_args` -/
def parseArgs (args : List (List Char)) : Except ParsePanic Cli := do
  let c ← parseLoop defaults args
  checkExclusions c
  return c

/-! ## How the walk went -/

/-- The walk over the arguments came to the end. -/
inductive Reads : Cli → List (List Char) → Cli → Prop
  | done (c : Cli) : Reads c [] c
  | switch {c c' : Cli} {f : Flag} {set : Cli → Cli} {rest : List (List Char)}
      (hf : f.action = .switch set) (h : Reads (set c) rest c') : Reads c (f.text :: rest) c'
  | value {c c' : Cli} {f : Flag} {read : Option (List Char) → Except ParsePanic (Cli → Cli)}
      {v : List Char} {set : Cli → Cli} {rest : List (List Char)} (hf : f.action = .value read)
      (hv : read (some v) = .ok set) (h : Reads (set c) rest c') :
      Reads c (f.text :: v :: rest) c'

section reads

variable {c c' : Cli} {args rest : List (List Char)} {f : Flag} {set : Cli → Cli}
  {read : Option (List Char) → Except ParsePanic (Cli → Cli)}

/-- An option that takes a value panics if it is the last argument. -/
theorem read_none (hf : f.action = .value read) : ∃ e, read none = .error e := by
  cases f <;> cases hf <;> exact ⟨_, rfl⟩

/-- No flag can be read as a number, so a flag is never taken for the value of a numeric option. -/
theorem parse_text (f : Flag) : Text.parse 64 f.text = none := by
  cases f <;> rfl

/-- No option takes the text of a flag for its value. -/
theorem read_text (hf : f.action = .value read) (g : Flag) :
    ∃ e, read (some g.text) = .error e := by
  have hnumber : ∀ what kind set, number what kind set (some g.text) = .error (.notANumber kind) :=
    fun what kind set => by rw [number, parse_text]
  have hpositive : ∀ what kind message set,
      positive what kind message set (some g.text) = .error (.notANumber kind) :=
    fun what kind message set => by rw [positive, parse_text]
  have hadvice : adviceOf g.text = none := by cases g <;> rfl
  have hmode : reclaimModeOf g.text = none := by cases g <;> rfl
  cases f <;> cases hf
  case advice => exact ⟨_, by rw [readAdvice, Option.bind_some, hadvice]⟩
  case reclaimMode => exact ⟨_, by rw [readReclaimMode, Option.bind_some, hmode]⟩
  case repeats | vcpus => exact ⟨_, hpositive ..⟩
  all_goals exact ⟨_, hnumber ..⟩

/-- **The walk.** A loop over the arguments that comes to its end has read them one option after the
other. -/
theorem reads_of_parseLoop (h : parseLoop c args = .ok c') : Reads c args c' := by
  fun_induction parseLoop c args with
  | case1 =>
      cases h
      exact .done _
  | case2 => cases h
  | case3 c arg rest f hf set haction ih =>
      rw [← Flag.text_of_ofArg hf]
      exact .switch haction (ih h)
  | case4 c arg f hf read haction =>
      obtain ⟨e, he⟩ := read_none haction
      rw [he] at h
      cases h
  | case5 => cases h
  | case6 c arg f hf read haction v rest set hset ih =>
      rw [← Flag.text_of_ofArg hf]
      exact .value haction hset (ih h)

/-- Every way to read the arguments option by option is what the loop does: the loop is
deterministic. -/
theorem parseLoop_of_reads (h : Reads c args c') : parseLoop c args = .ok c' := by
  induction h with
  | done => rfl
  | switch hf _ ih => simpa only [parseLoop, Flag.ofArg_text, hf] using ih
  | value hf hv _ ih => simpa only [parseLoop, Flag.ofArg_text, hf, hv] using ih

/-! ### What an option leaves alone -/

/-- What setting an option to a value leaves alone. -/
structure Assigns (f : Flag) (v : List Char) (set : Cli → Cli) : Prop where
  pressureCheck : ∀ c, (set c).pressureCheck = c.pressureCheck
  hammer : ∀ c, (set c).hammer = c.hammer
  hostTouch : ∀ c, (set c).hostTouch = c.hostTouch
  repeats : ∀ c, 1 ≤ c.repeats → 1 ≤ (set c).repeats
  sizeGb : ∀ c, c.sizeGb < 2 ^ 64 → (set c).sizeGb < 2 ^ 64
  advice : f ≠ .advice → ∀ c, (set c).advice = c.advice

/-- A numeric option that reads its value gets a number that fits 64 bits, and puts it where it
belongs. -/
theorem number_eq_ok {what kind : String} {put : ℕ → Cli → Cli} {v : List Char}
    (h : number what kind put (some v) = .ok set) : ∃ n < 2 ^ 64, set = put n := by
  simp only [number] at h
  split at h
  case h_1 => cases h
  case h_2 n hn =>
    cases h
    exact ⟨n, Text.parse_lt hn, rfl⟩

/-- An option that takes a positive number gets one that fits 64 bits and is not zero. -/
theorem positive_eq_ok {what kind message : String} {put : ℕ → Cli → Cli} {v : List Char}
    (h : positive what kind message put (some v) = .ok set) : ∃ n, 1 ≤ n ∧ set = put n := by
  simp only [positive] at h
  split at h
  case h_1 => cases h
  case h_2 n _ =>
    split_ifs at h with hn
    cases h
    exact ⟨n, hn, rfl⟩

/-- What an option with a value does is one of the assignments listed in `Assigns`. -/
theorem assigns_of_read {v : List Char} (hf : f.action = .value read)
    (hv : read (some v) = .ok set) : Assigns f v set := by
  cases f <;> cases hf
  case advice =>
    simp only [readAdvice, Option.bind_some] at hv
    split at hv
    case h_1 a name ha =>
      cases hv
      exact ⟨fun _ => rfl, fun _ => rfl, fun _ => rfl, fun _ h => h, fun _ h => h,
        fun hne => absurd rfl hne⟩
    case h_2 => cases hv
  case reclaimMode =>
    simp only [readReclaimMode, Option.bind_some] at hv
    split at hv
    case h_1 =>
      cases hv
      exact ⟨fun _ => rfl, fun _ => rfl, fun _ => rfl, fun _ h => h, fun _ h => h, fun _ _ => rfl⟩
    case h_2 => cases hv
  case repeats =>
    obtain ⟨n, hn, rfl⟩ := positive_eq_ok hv
    exact ⟨fun _ => rfl, fun _ => rfl, fun _ => rfl, fun _ _ => hn, fun _ h => h, fun _ _ => rfl⟩
  case vcpus =>
    obtain ⟨n, -, rfl⟩ := positive_eq_ok hv
    exact ⟨fun _ => rfl, fun _ => rfl, fun _ => rfl, fun _ h => h, fun _ h => h, fun _ _ => rfl⟩
  case sizeGb =>
    obtain ⟨n, hn, rfl⟩ := number_eq_ok hv
    exact ⟨fun _ => rfl, fun _ => rfl, fun _ => rfl, fun _ h => h, fun _ _ => hn, fun _ _ => rfl⟩
  all_goals
    obtain ⟨n, -, rfl⟩ := number_eq_ok hv
    exact ⟨fun _ => rfl, fun _ => rfl, fun _ => rfl, fun _ h => h, fun _ h => h, fun _ _ => rfl⟩

/-- What a switch does to the options a run is judged by. -/
structure Switches (f : Flag) (set : Cli → Cli) : Prop where
  pressureCheck : ∀ c, (set c).pressureCheck = (decide (f = .pressureCheck) || c.pressureCheck)
  hammer : ∀ c, (set c).hammer = (decide (f = .hammer) || c.hammer)
  hostTouch : ∀ c, (set c).hostTouch = (decide (f = .hostTouch) || c.hostTouch)
  repeats : ∀ c, (set c).repeats = c.repeats
  sizeGb : ∀ c, (set c).sizeGb = c.sizeGb
  advice : ∀ c, (set c).advice = c.advice

/-- What a switch does is one of those listed in `Switches`. -/
theorem switches_of_action (hf : f.action = .switch set) : Switches f set := by
  cases f <;> cases hf <;>
    exact ⟨fun _ => rfl, fun _ => rfl, fun _ => rfl, fun _ => rfl, fun _ => rfl, fun _ => rfl⟩

/-! ### The switches -/

/-- A switch `f` that sets `on` and nothing else does is on if it was or is among the arguments. -/
theorem Reads.on_iff (on : Cli → Bool) (hf : f.action = .switch set)
    (hswitch : ∀ {g : Flag} {set}, g.action = .switch set →
      ∀ c, on (set c) = (decide (g = f) || on c))
    (hvalue : ∀ {g : Flag} {v : List Char} {set}, Assigns g v set → ∀ c, on (set c) = on c)
    (h : Reads c args c') : on c' = true ↔ on c = true ∨ f.text ∈ args := by
  induction h with
  | done c => simp
  | @switch c c' g set rest hg _ ih =>
      rw [ih, hswitch hg, List.mem_cons, Flag.text_inj, Bool.or_eq_true, decide_eq_true_iff,
        eq_comm (a := g)]
      tauto
  | @value c c' g read v set rest hg hv _ ih =>
      have hne : f.text ≠ g.text := by
        intro heq
        rw [Flag.text_inj.mp heq, hg] at hf
        cases hf
      have hnev : f.text ≠ v := by
        rintro rfl
        obtain ⟨e, he⟩ := read_text hg f
        rw [he] at hv
        cases hv
      rw [ih, hvalue (assigns_of_read hg hv), List.mem_cons, List.mem_cons, or_iff_right hne,
        or_iff_right hnev]

/-- After the walk `--pressure-check` is on exactly if it was before or its text is among the
arguments. -/
theorem Reads.pressureCheck_iff (h : Reads c args c') :
    c'.pressureCheck = true ↔ c.pressureCheck = true ∨ Flag.pressureCheck.text ∈ args :=
  h.on_iff (fun c => c.pressureCheck) rfl (fun hg => (switches_of_action hg).pressureCheck)
    fun hv => hv.pressureCheck

/-- After the walk `--hammer` is on exactly if it was before or its text is among the arguments. -/
theorem Reads.hammer_iff (h : Reads c args c') :
    c'.hammer = true ↔ c.hammer = true ∨ Flag.hammer.text ∈ args :=
  h.on_iff (fun c => c.hammer) rfl (fun hg => (switches_of_action hg).hammer)
    fun hv => hv.hammer

/-- After the walk `--host-touch` is on exactly if it was before or its text is among the
arguments. -/
theorem Reads.hostTouch_iff (h : Reads c args c') :
    c'.hostTouch = true ↔ c.hostTouch = true ∨ Flag.hostTouch.text ∈ args :=
  h.on_iff (fun c => c.hostTouch) rfl (fun hg => (switches_of_action hg).hostTouch)
    fun hv => hv.hostTouch

/-- A property of the options that every switch and every assignment keeps is kept by the walk. -/
theorem Reads.keeps (P : Cli → Prop)
    (hswitch : ∀ {f : Flag} {set}, f.action = .switch set → ∀ c, P c → P (set c))
    (hvalue : ∀ {f : Flag} {v : List Char} {set}, Assigns f v set → ∀ c, P c → P (set c))
    (h : Reads c args c') (hc : P c) : P c' := by
  induction h with
  | done => exact hc
  | switch hg _ ih => exact ih (hswitch hg _ hc)
  | value hg hv _ ih => exact ih (hvalue (assigns_of_read hg hv) _ hc)

/-- The walk never brings the repetitions down to zero: `--repeat` takes the maximum with one. -/
theorem Reads.one_le_repeats (h : Reads c args c') (hc : 1 ≤ c.repeats) : 1 ≤ c'.repeats := by
  apply h.keeps (fun c => 1 ≤ c.repeats) _ (fun hv => hv.repeats) hc
  intro f set hf c hc
  rwa [(switches_of_action hf).repeats]

/-- The walk keeps the size of guest RAM in GiB one that fits a `usize`. -/
theorem Reads.sizeGb_lt (h : Reads c args c') (hc : c.sizeGb < 2 ^ 64) : c'.sizeGb < 2 ^ 64 := by
  apply h.keeps (fun c => c.sizeGb < 2 ^ 64) _ (fun hv => hv.sizeGb) hc
  intro f set hf c hc
  rwa [(switches_of_action hf).sizeGb]

/-! ### The advice -/

/-- The argument after the last `--advice`, if there is one. -/
def lastAdvice : List (List Char) → Option (List Char)
  | [] => none
  | arg :: rest => (lastAdvice rest).or (if arg = Flag.advice.text then rest.head? else none)

/-- The advice that is selected by the last `--advice`, `MADV_FREE_REUSABLE` if there is none. -/
def selectedAdvice (args : List (List Char)) : ℤ :=
  ((lastAdvice args).bind adviceOf).elim madvFreeReusable Prod.fst

/-- A flag other than `--advice` in front of the arguments does not change what the last `--advice`
selects. -/
theorem lastAdvice_cons (hne : f ≠ .advice) : lastAdvice (f.text :: rest) = lastAdvice rest := by
  rw [lastAdvice, if_neg fun h => hne (Flag.text_inj.mp h), Option.or_none]

/-- The walk ends with the advice of the last `--advice`, which is one of the three, or with the
advice it began with. By induction on the walk; the value of an option is never taken for a flag,
since no text of a flag is a value that is read. -/
theorem Reads.advice_spec (h : Reads c args c') :
    (lastAdvice args = none ∧ c'.advice = c.advice) ∨
      ∃ v name, lastAdvice args = some v ∧ adviceOf v = some (c'.advice, name) := by
  induction h with
  | done => exact .inl ⟨rfl, rfl⟩
  | @switch c c' g set rest hg _ ih =>
      have hne : g ≠ .advice := by
        rintro rfl
        cases hg
      rw [(switches_of_action hg).advice] at ih
      rwa [lastAdvice_cons hne]
  | @value c c' g read v set rest hg hv _ ih =>
      have hnev : v ≠ Flag.advice.text := by
        rintro rfl
        obtain ⟨e, he⟩ := read_text hg .advice
        rw [he] at hv
        cases hv
      have hv' : lastAdvice (v :: rest) = lastAdvice rest := by
        rw [lastAdvice, if_neg hnev, Option.or_none]
      by_cases hne : g = .advice
      · subst hne
        cases hg
        rw [lastAdvice, hv', if_pos rfl, List.head?_cons]
        rcases ih with ⟨hnone, hc⟩ | ⟨v', name, hlast, hadvice⟩
        · simp only [readAdvice, Option.bind_some] at hv
          split at hv
          case h_1 a name ha =>
            cases hv
            exact .inr ⟨v, name, by rw [hnone, Option.none_or], by rw [hc, ha]⟩
          case h_2 => cases hv
        · exact .inr ⟨v', name, by rw [hlast, Option.some_or], hadvice⟩
      · rw [(assigns_of_read hg hv).advice hne] at ih
        rwa [lastAdvice_cons hne, hv']

/-- From the defaults the walk leads to the advice that the last `--advice` selects, and to the
default one if there is none. -/
theorem Reads.advice_eq (h : Reads defaults args c') : c'.advice = selectedAdvice args := by
  rcases h.advice_spec with ⟨hnone, hc⟩ | ⟨v, name, hlast, hadvice⟩
  · rw [selectedAdvice, hnone, hc]
    rfl
  · rw [selectedAdvice, hlast, Option.bind_some, hadvice]
    rfl

end reads

/-! ## What the exclusions leave -/

/-- What accepted options have in common, as far as the modes and the safety probes are
concerned. -/
structure Accepted (c : Cli) : Prop where
  sizeGb : c.sizeGb < 2 ^ 64
  hammer : c.hammer = true →
    c.hostTouch = false ∧ c.naive = false ∧ c.pressureCheck = false
  repeats : c.pressureCheck = true ∨ c.hammer = true → c.repeats = 1
  modes : c.exclusive ≤ 1
  probes : c.pressureCheck = true ∨ c.hammer = true → c.exclusive = 0

/-- `assert!` goes through exactly if its condition holds. -/
theorem assertThat_eq_ok {b : Bool} {message : String} :
    assertThat b message = .ok () ↔ b = true := by
  cases b <;> simp [assertThat]

/-- An assertion inside an `if` goes through exactly if the condition of the `if` implies that of
the assertion. -/
theorem assertIf_eq_ok {cond b : Bool} {message : String} :
    assertIf cond b message = .ok () ↔ (cond = true → b = true) := by
  cases cond <;> simp [assertIf, assertThat_eq_ok]

/-- Two checks in a row go through exactly if both do. -/
theorem bind_eq_ok {x : Except ParsePanic Unit} {y : Unit → Except ParsePanic Unit} :
    (x >>= y) = .ok () ↔ x = .ok () ∧ y () = .ok () := by
  cases x with
  | error e => exact iff_of_false (fun h => by cases h) fun h => by cases h.1
  | ok u => exact (and_iff_right rfl).symm

/-- **The exclusions.** Options that go through the assertions at the end of `parse_args`, with a
repetition and a size that fits, are accepted ones. -/
theorem accepted_of_checkExclusions {c : Cli} (h : checkExclusions c = .ok ())
    (hrepeats : 1 ≤ c.repeats) (hsize : c.sizeGb < 2 ^ 64) : Accepted c := by
  unfold checkExclusions at h
  rw [bind_eq_ok, bind_eq_ok, assertIf_eq_ok, assertIf_eq_ok] at h
  obtain ⟨hhammer, honce, hmodes⟩ := h
  have hnone : c.pressureCheck = true ∨ c.hammer = true →
      ¬ (!c.naive && !c.hostTouch && !c.pressureCheck && !c.hammer) = true := by
    rintro (hprobe | hprobe) <;> simp [hprobe]
  refine ⟨hsize, fun hon => ?_, fun hprobe => ?_, ?_, fun hprobe => ?_⟩
  · simpa [and_assoc] using hhammer hon
  · have hle : ¬ 1 < c.repeats := by
      intro hlt
      have hboth := honce (decide_eq_true hlt)
      rcases hprobe with hprobe | hprobe <;> simp [hprobe] at hboth
    omega
  · split_ifs at hmodes with hpos
    · rw [bind_eq_ok, assertThat_eq_ok, decide_eq_true_iff] at hmodes
      exact hmodes.1.le
    · omega
  · split_ifs at hmodes with hpos
    · rw [bind_eq_ok, assertThat_eq_ok, assertThat_eq_ok] at hmodes
      exact absurd hmodes.2 (hnone hprobe)
    · omega

/-- **Arguments that are accepted** are read option by option from the defaults, and lead to
accepted options. -/
theorem accepted_of_parseArgs {args : List (List Char)} {c : Cli} (h : parseArgs args = .ok c) :
    Reads defaults args c ∧ Accepted c := by
  unfold parseArgs at h
  cases hloop : parseLoop defaults args with
  | error e =>
      rw [hloop] at h
      cases h
  | ok c' =>
      rw [hloop] at h
      change (checkExclusions c' >>= fun _ => Except.ok c') = .ok c at h
      cases hcheck : checkExclusions c' with
      | error e =>
          rw [hcheck] at h
          cases h
      | ok u =>
          rw [hcheck] at h
          cases h
          have hreads := reads_of_parseLoop hloop
          have hsize : defaults.sizeGb < 2 ^ 64 := by decide
          exact ⟨hreads, accepted_of_checkExclusions hcheck (hreads.one_le_repeats le_rfl)
            (hreads.sizeGb_lt hsize)⟩

end VmRatchet.Main
