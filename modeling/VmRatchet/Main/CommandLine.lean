import VmRatchet.Main.Cli

/-!
# The options and the arguments that give them

`parse_args` forgets where an option stood: what it returns is decided by the last value each
option was given. And it forgets nothing else: the options it can return are exactly those that
hold the numbers of their types, one of the three advices with its own name, and pass the
exclusions; each of them is returned for the arguments that spell it out.

* `Value`, `Cli.get` — an option's value, whatever its type; `Cli.ext_get`.
* `lastArg`, `given` — the last value that the arguments give to an option, wherever it stands.
* `last_option_wins` — the walk ends with these values.
* `Presentable`, `spell` — the options that have arguments, and the arguments.
* `command_line_round_trips` — `parse_args` of the one is the other.
-/

namespace VmRatchet.Main

open Text
open Soak (ReclaimMode)

/-! ## Values -/

/-- What an option is set to: a switch, a number, an advice with its name, or a reclaim mode. -/
inductive Value
  | switch (on : Bool)
  | number (n : ℕ)
  | advice (advice : ℤ) (name : List Char)
  | mode (mode : ReclaimMode)
  deriving DecidableEq

/-- The option a flag sets, read off the parsed options. -/
def Cli.get (c : Cli) : Flag → Value
  | .advice => .advice c.advice c.adviceName
  | .sizeGb => .number c.sizeGb
  | .naive => .switch c.naive
  | .hostTouch => .switch c.hostTouch
  | .guestRead => .switch c.guestRead
  | .pressureCheck => .switch c.pressureCheck
  | .hammer => .switch c.hammer
  | .pressureGb => .number c.pressureGb
  | .repeats => .number c.repeats
  | .timeReclaim => .switch c.timeReclaim
  | .extentKb => .number c.extentKb
  | .reclaimMode => .mode c.reclaimMode
  | .steadyState => .switch c.steadyState
  | .fleetSim => .switch c.fleetSim
  | .allocShape => .switch c.allocShape
  | .soak => .switch c.soak
  | .soakMinutes => .number c.soakMinutes
  | .vcpus => .number c.vcpus
  | .services => .number c.services
  | .serviceMib => .number c.serviceMib

/-- Options that agree in every flag are the same. -/
theorem Cli.ext_get {c c' : Cli} (h : ∀ f, c.get f = c'.get f) : c = c' := by
  obtain ⟨⟨⟩⟩ := c
  obtain ⟨⟨⟩⟩ := c'
  have hadvice := h .advice
  have hsizeGb := h .sizeGb
  have hnaive := h .naive
  have hhostTouch := h .hostTouch
  have hguestRead := h .guestRead
  have hpressureCheck := h .pressureCheck
  have hhammer := h .hammer
  have hpressureGb := h .pressureGb
  have hrepeats := h .repeats
  have htimeReclaim := h .timeReclaim
  have hextentKb := h .extentKb
  have hreclaimMode := h .reclaimMode
  have hsteadyState := h .steadyState
  have hfleetSim := h .fleetSim
  have hallocShape := h .allocShape
  have hsoak := h .soak
  have hsoakMinutes := h .soakMinutes
  have hvcpus := h .vcpus
  have hservices := h .services
  have hserviceMib := h .serviceMib
  simp only [Cli.get, Value.advice.injEq, Value.number.injEq, Value.switch.injEq,
    Value.mode.injEq] at *
  obtain ⟨rfl, rfl⟩ := hadvice
  subst_vars
  rfl

/-- What a text is worth as the value of an option. -/
def Flag.valueOf (f : Flag) (text : List Char) : Option Value :=
  match f with
  | .advice => (adviceOf text).map fun a => .advice a.1 a.2
  | .reclaimMode => (reclaimModeOf text).map .mode
  | .repeats | .vcpus => (Text.parse 64 text).bind fun n => if 1 ≤ n then some (.number n) else none
  | _ => (Text.parse 64 text).map .number

section values

variable {c : Cli} {f g : Flag} {set : Cli → Cli}
  {read : Option (List Char) → Except ParsePanic (Cli → Cli)} {v : List Char}

/-- A switch sets its own option and leaves every other as it is. -/
theorem get_switch (hf : f.action = .switch set) (c : Cli) (g : Flag) :
    (set c).get g = if g = f then .switch true else c.get g := by
  cases f <;> cases hf <;> cases g <;> rfl

/-- A numeric option that reads its value is the one with the number that the text stands for. -/
theorem number_spec {what kind : String} {put : ℕ → Cli → Cli}
    (h : number what kind put (some v) = .ok set) :
    ∃ n, Text.parse 64 v = some n ∧ set = put n := by
  simp only [number] at h
  split at h
  case h_1 => cases h
  case h_2 n hn =>
    cases h
    exact ⟨n, hn, rfl⟩

/-- An option that takes a positive number is the one with the number that the text stands for,
which is not zero. -/
theorem positive_spec {what kind message : String} {put : ℕ → Cli → Cli}
    (h : positive what kind message put (some v) = .ok set) :
    ∃ n, Text.parse 64 v = some n ∧ 1 ≤ n ∧ set = put n := by
  simp only [positive] at h
  split at h
  case h_1 => cases h
  case h_2 n hparse =>
    split_ifs at h with hn
    cases h
    exact ⟨n, hparse, hn, rfl⟩

/-- An option with a value sets its own option to that value and leaves every other as it is. -/
theorem get_value (hf : f.action = .value read) (hv : read (some v) = .ok set) :
    ∃ val, f.valueOf v = some val ∧
      ∀ c g, (set c).get g = if g = f then val else c.get g := by
  cases f <;> cases hf
  case advice =>
    simp only [readAdvice, Option.bind_some] at hv
    split at hv
    case h_1 a name ha =>
      cases hv
      exact ⟨.advice a name, by rw [Flag.valueOf, ha]; rfl, fun c g => by cases g <;> rfl⟩
    case h_2 => cases hv
  case reclaimMode =>
    simp only [readReclaimMode, Option.bind_some] at hv
    split at hv
    case h_1 mode hmode =>
      cases hv
      exact ⟨.mode mode, by rw [Flag.valueOf, hmode]; rfl, fun c g => by cases g <;> rfl⟩
    case h_2 => cases hv
  case repeats | vcpus =>
    obtain ⟨n, hparse, hn, rfl⟩ := positive_spec hv
    refine ⟨.number n, ?_, fun c g => by cases g <;> rfl⟩
    simp only [Flag.valueOf, hparse, Option.bind_some, if_pos hn]
  all_goals
    obtain ⟨n, hparse, rfl⟩ := number_spec hv
    refine ⟨.number n, ?_, fun c g => by cases g <;> rfl⟩
    simp only [Flag.valueOf, hparse, Option.map_some]

end values

/-! ## The last value wins -/

/-- The argument after the last occurrence of the flag. -/
def lastArg (f : Flag) : List (List Char) → Option (List Char)
  | [] => none
  | arg :: rest => (lastArg f rest).or (if arg = f.text then rest.head? else none)

/-- The value that the arguments give to an option, if they name it. -/
def given (f : Flag) (args : List (List Char)) : Option Value :=
  match f.action with
  | .switch _ => if f.text ∈ args then some (.switch true) else none
  | .value _ => (lastArg f args).bind f.valueOf

section wins

variable {c c' : Cli} {args args' rest : List (List Char)} {f g : Flag} {set : Cli → Cli}
  {read : Option (List Char) → Except ParsePanic (Cli → Cli)} {v : List Char}

/-- The text of a flag in front of the arguments does not change what follows another flag last. -/
theorem lastArg_cons_of_ne (hne : f ≠ g) : lastArg g (f.text :: rest) = lastArg g rest := by
  rw [lastArg, if_neg fun h => hne (Flag.text_inj.mp h), Option.or_none]

/-- An argument that is no flag does not change what the last value of an option is. -/
theorem lastArg_cons_value (hv : ∀ f : Flag, v ≠ f.text) :
    lastArg g (v :: rest) = lastArg g rest := by
  rw [lastArg, if_neg (hv g), Option.or_none]

/-- A value that is taken is the text of no flag. -/
theorem value_ne_text (hf : f.action = .value read) (hv : read (some v) = .ok set) (g : Flag) :
    v ≠ g.text := by
  rintro rfl
  obtain ⟨e, he⟩ := read_text hf g
  rw [he] at hv
  cases hv

/-- With a switch in front of the other arguments every option is what they give, but the switch
itself is on also if they say nothing about it. -/
theorem given_cons_switch (hg : g.action = .switch set) : given f (g.text :: rest) =
    (given f rest).or (if f = g then some (.switch true) else none) := by
  by_cases hfg : f = g
  · subst hfg
    simp only [given, hg, List.mem_cons_self, if_true]
    split_ifs <;> rfl
  · have hne : f.text ≠ g.text := fun h => hfg (Flag.text_inj.mp h)
    unfold given
    cases hf : f.action with
    | switch set' => simp [hne, hfg]
    | value read' => simp [lastArg_cons_of_ne (Ne.symm hfg), hfg]

/-- With an option and its value in front of the other arguments every option is what they give, but
the option itself has this value also if they say nothing about it. -/
theorem given_cons_value (hg : g.action = .value read) (hv : read (some v) = .ok set)
    (hlast : ∀ w, lastArg g rest = some w → (g.valueOf w).isSome = true) :
    given f (g.text :: v :: rest) =
      (given f rest).or (if f = g then g.valueOf v else none) := by
  have hplain := value_ne_text hg hv
  by_cases hfg : f = g
  · subst hfg
    simp only [given, hg, if_true]
    rw [lastArg, lastArg_cons_value hplain, if_pos rfl, List.head?_cons]
    cases hw : lastArg f rest with
    | none => rfl
    | some w =>
        obtain ⟨val, hval⟩ := Option.isSome_iff_exists.mp (hlast w hw)
        simp [hval]
  · have hne : f.text ≠ g.text := fun h => hfg (Flag.text_inj.mp h)
    unfold given
    cases hf : f.action with
    | switch set' => simp [hne, hfg, (hplain f).symm]
    | value read' =>
        simp [lastArg_cons_of_ne (Ne.symm hfg), lastArg_cons_value hplain, hfg]

/-- **The walk ends with the values that were given last**, each of which could be read. By
induction on the walk: a switch or an option sets its own value and leaves the others as they were,
and what is given later takes precedence. -/
theorem Reads.get (h : Reads c args c') :
    (∀ f, c'.get f = (given f args).getD (c.get f)) ∧
      ∀ f read, f.action = .value read → ∀ w, lastArg f args = some w →
        (f.valueOf w).isSome = true := by
  induction h with
  | done c =>
      refine ⟨fun f => ?_, fun f read _ w hw => by cases hw⟩
      have hnone : given f [] = none := by
        unfold given
        cases f.action <;> simp [lastArg]
      rw [hnone, Option.getD_none]
  | @switch c c' g set rest hg _ ih =>
      refine ⟨fun f => ?_, fun f read hf w hw => ?_⟩
      · rw [ih.1 f, given_cons_switch hg, get_switch hg]
        cases given f rest with
        | some val => rfl
        | none => split_ifs <;> rfl
      · have hne : g ≠ f := by
          rintro rfl
          rw [hg] at hf
          cases hf
        rw [lastArg_cons_of_ne hne] at hw
        exact ih.2 f read hf w hw
  | @value c c' g read v set rest hg hv _ ih =>
      obtain ⟨val, hval, hset⟩ := get_value hg hv
      have hplain := value_ne_text hg hv
      refine ⟨fun f => ?_, fun f read' hf w hw => ?_⟩
      · rw [ih.1 f, given_cons_value hg hv (ih.2 g read hg), hset]
        cases given f rest with
        | some val' => rfl
        | none =>
            by_cases hfg : f = g
            · simp [hfg, hval]
            · simp [hfg]
      · by_cases hfg : g = f
        · subst hfg
          rw [lastArg, lastArg_cons_value hplain, if_pos rfl, List.head?_cons] at hw
          cases hlast : lastArg g rest with
          | some w' =>
              rw [hlast, Option.some_or, Option.some.injEq] at hw
              exact hw ▸ ih.2 g read' hf w' hlast
          | none =>
              rw [hlast, Option.none_or, Option.some.injEq] at hw
              rw [← hw, hval]
              rfl
        · rw [lastArg_cons_of_ne hfg, lastArg_cons_value hplain] at hw
          exact ih.2 f read' hf w hw

/-- **The last value wins, wherever it stands.** For every list of arguments that is accepted, each
option has the value that was given to it last, and its default if it was not named; so two
accepted lists that give every option the same last value, in whatever order and however often
they name them, give the same options. -/
theorem last_option_wins (args : List (List Char)) (c : Cli) (h : parseArgs args = .ok c) :
    (∀ f, c.get f = (given f args).getD (defaults.get f)) ∧
      ∀ args' c', parseArgs args' = .ok c' → (∀ f, given f args' = given f args) → c' = c := by
  have hget := (accepted_of_parseArgs h).1.get.1
  refine ⟨hget, fun args' c' h' hsame => Cli.ext_get fun f => ?_⟩
  rw [(accepted_of_parseArgs h').1.get.1 f, hsame f, hget f]

/-- Of two values of `--repeat` the second counts. -/
theorem last_option_wins_repeat : ∃ c,
    parseArgs [chars "--repeat", chars "3", chars "--naive", chars "--repeat", chars "5"] = .ok c ∧
      c.get .repeats = .number 5 := by
  obtain ⟨c, hc⟩ : ∃ c, parseArgs [chars "--repeat", chars "3", chars "--naive", chars "--repeat",
      chars "5"] = .ok c := ⟨_, rfl⟩
  refine ⟨c, hc, ?_⟩
  rw [(last_option_wins _ c hc).1 .repeats]
  rfl

end wins

/-! ## Spelling options out -/

/-- The value of `--advice` that stands for an advice. -/
def adviceText (advice : ℤ) : List Char :=
  if advice = madvFreeReusable then chars "reusable"
  else if advice = madvFree then chars "free" else chars "dontneed"

/-- The value of `--reclaim-mode` that stands for a mode. -/
def modeText : ReclaimMode → List Char
  | .reusable => chars "reusable"
  | .munmap => chars "munmap"

/-- The arguments that set one option to a value; a switch that is off takes none. -/
def spellOption (f : Flag) : Value → List (List Char)
  | .switch on => if on then [f.text] else []
  | .number n => [f.text, decimal n]
  | .advice advice _ => [f.text, adviceText advice]
  | .mode mode => [f.text, modeText mode]

/-- The arguments that set every option, in the order of the source. -/
def spell (c : Cli) : List (List Char) := Flag.all.flatMap fun f => spellOption f (c.get f)

/-- The options that some arguments give: every number fits in a machine word, the advice is one of
the three under its own name, and the assertions behind the loop hold. -/
structure Presentable (c : Cli) : Prop where
  numbers : ∀ f n, c.get f = .number n → n < 2 ^ 64
  repeats : 1 ≤ c.repeats
  vcpus : 1 ≤ c.vcpus
  advice : ∃ text, adviceOf text = some (c.advice, c.adviceName)
  hammer : c.hammer = true → c.hostTouch = false ∧ c.naive = false ∧ c.pressureCheck = false
  once : 1 < c.repeats → c.pressureCheck = false ∧ c.hammer = false
  modes : c.exclusive ≤ 1
  own : 0 < c.exclusive →
    c.naive = false ∧ c.hostTouch = false ∧ c.pressureCheck = false ∧ c.hammer = false
  plain : c.exclusive = 0 → c.extentKb = 0 ∧ c.steadyState = false ∧ c.reclaimMode = .reusable

section spelling

variable {c c₀ c₁ c₂ : Cli} {f : Flag} {args args' : List (List Char)}

/-- Reading some arguments and then others is reading all of them in a row. -/
theorem Reads.append (h : Reads c₀ args c₁) (h' : Reads c₁ args' c₂) :
    Reads c₀ (args ++ args') c₂ := by
  induction h with
  | done => exact h'
  | switch hf _ ih => exact .switch hf (ih h')
  | value hf hv _ ih => exact .value hf hv (ih h')

/-- An advice with its own name is read from its text. -/
theorem adviceOf_adviceText {a : ℤ} {name text : List Char} (h : adviceOf text = some (a, name)) :
    adviceOf (adviceText a) = some (a, name) := by
  unfold adviceOf at h
  split_ifs at h <;> cases h <;> rfl

/-- The text of a reclaim mode is read back as the mode. -/
theorem reclaimModeOf_modeText (mode : ReclaimMode) :
    reclaimModeOf (modeText mode) = some mode := by
  cases mode <;> rfl

/-- A switch holds a truth value, and is off by default. -/
theorem get_of_switch {set : Cli → Cli} (hf : f.action = .switch set) (c : Cli) :
    (∃ on, c.get f = .switch on) ∧ defaults.get f = .switch false := by
  cases f <;> cases hf <;> exact ⟨⟨_, rfl⟩, rfl⟩

/-- A numeric option whose value can be read puts the number where it belongs. -/
theorem number_of_parse {what kind : String} {put : ℕ → Cli → Cli} {v : List Char} {n : ℕ}
    (h : Text.parse 64 v = some n) : number what kind put (some v) = .ok (put n) := by
  simp only [number, h]

/-- An option with a value is spelled by its text and a value that it reads. -/
theorem spellOption_of_value {read : Option (List Char) → Except ParsePanic (Cli → Cli)}
    (hf : f.action = .value read) (h : Presentable c) :
    ∃ v set, spellOption f (c.get f) = [f.text, v] ∧ read (some v) = .ok set ∧
      f.valueOf v = some (c.get f) := by
  have hparse : ∀ n, c.get f = .number n → Text.parse 64 (decimal n) = some n :=
    fun n hn => parse_decimal (h.numbers f n hn)
  cases f <;> cases hf
  case advice =>
    obtain ⟨text, htext⟩ := h.advice
    have hadvice := adviceOf_adviceText htext
    refine ⟨adviceText c.advice,
      fun c' => { c' with advice := c.advice, adviceName := c.adviceName }, rfl, ?_, ?_⟩
    · rw [readAdvice, Option.bind_some, hadvice]
    · rw [Flag.valueOf, hadvice]
      rfl
  case reclaimMode =>
    have hmode := reclaimModeOf_modeText c.reclaimMode
    refine ⟨modeText c.reclaimMode, fun c' => { c' with reclaimMode := c.reclaimMode }, rfl, ?_, ?_⟩
    · rw [readReclaimMode, Option.bind_some, hmode]
    · rw [Flag.valueOf, hmode]
      rfl
  case repeats =>
    have hn := hparse _ rfl
    refine ⟨decimal c.repeats, fun c' => { c' with repeats := c.repeats }, rfl, ?_, ?_⟩
    · simp only [positive, hn, if_pos h.repeats]
    · simp only [Flag.valueOf, hn, Option.bind_some, if_pos h.repeats, Cli.get]
  case vcpus =>
    have hn := hparse _ rfl
    refine ⟨decimal c.vcpus, fun c' => { c' with vcpus := c.vcpus }, rfl, ?_, ?_⟩
    · simp only [positive, hn, if_pos h.vcpus]
    · simp only [Flag.valueOf, hn, Option.bind_some, if_pos h.vcpus, Cli.get]
  all_goals
    refine ⟨decimal _, _, rfl, number_of_parse (hparse _ rfl), ?_⟩
    simp only [Flag.valueOf, hparse _ rfl, Option.map_some, Cli.get]

/-- Reading the arguments that spell out one option sets that option, if it had its default, and
leaves every other as it is. -/
theorem reads_spellOption (h : Presentable c) (hdefault : c₀.get f = defaults.get f) :
    ∃ c₁, Reads c₀ (spellOption f (c.get f)) c₁ ∧
      ∀ g, c₁.get g = if g = f then c.get f else c₀.get g := by
  cases hf : f.action with
  | switch set =>
      obtain ⟨⟨on, hon⟩, hoff⟩ := get_of_switch hf c
      rw [hon]
      cases on with
      | true => exact ⟨set c₀, .switch hf (.done _), fun g => get_switch hf c₀ g⟩
      | false =>
          refine ⟨c₀, .done c₀, fun g => ?_⟩
          split_ifs with hg
          · rw [hg, hdefault, hoff]
          · rfl
  | value read =>
      obtain ⟨v, set, hspell, hread, hval⟩ := spellOption_of_value hf h
      obtain ⟨val, hval', hset⟩ := get_value hf hread
      rw [hval, Option.some.injEq] at hval'
      rw [hspell]
      refine ⟨set c₀, .value hf hread (.done _), fun g => ?_⟩
      rw [hset, hval']

/-- Reading the arguments that spell out several options sets exactly these. -/
theorem reads_spell (h : Presentable c) {fs : List Flag} (hnodup : fs.Nodup)
    (hdefault : ∀ f ∈ fs, c₀.get f = defaults.get f) :
    ∃ c₁, Reads c₀ (fs.flatMap fun f => spellOption f (c.get f)) c₁ ∧
      ∀ g, c₁.get g = if g ∈ fs then c.get g else c₀.get g := by
  induction fs generalizing c₀ with
  | nil => exact ⟨c₀, .done c₀, fun g => by simp⟩
  | cons f fs ih =>
      rw [List.nodup_cons] at hnodup
      obtain ⟨c₁, hfirst, hget⟩ := reads_spellOption h (hdefault f List.mem_cons_self)
      have hrestDefault : ∀ g ∈ fs, c₁.get g = defaults.get g := by
        intro g hg
        have hne : g ≠ f := by
          rintro rfl
          exact hnodup.1 hg
        rw [hget, if_neg hne]
        exact hdefault g (List.mem_cons_of_mem _ hg)
      obtain ⟨c₂, hrest, hget'⟩ := ih hnodup.2 hrestDefault
      refine ⟨c₂, by rw [List.flatMap_cons]; exact hfirst.append hrest, fun g => ?_⟩
      rw [hget', hget]
      by_cases hg : g = f
      · simp [hg]
      · simp [hg]

/-- The arguments that spell options out are walked over to these options. -/
theorem reads_defaults_spell (h : Presentable c) : Reads defaults (spell c) c := by
  have hnodup : Flag.all.Nodup := by decide
  have hdefault : ∀ f ∈ Flag.all, defaults.get f = defaults.get f := fun _ _ => rfl
  obtain ⟨c₁, hreads, hget⟩ := reads_spell h hnodup hdefault
  have hsame : c₁ = c := Cli.ext_get fun f => by rw [hget, if_pos (Flag.mem_all f)]
  exact hsame ▸ hreads

/-- Options go through the exclusions at the end of `parse_args` exactly if they meet each of these
conditions. -/
theorem checkExclusions_eq_ok : checkExclusions c = .ok () ↔
    (c.hammer = true → c.hostTouch = false ∧ c.naive = false ∧ c.pressureCheck = false) ∧
    (1 < c.repeats → c.pressureCheck = false ∧ c.hammer = false) ∧ c.exclusive ≤ 1 ∧
    (0 < c.exclusive →
      c.naive = false ∧ c.hostTouch = false ∧ c.pressureCheck = false ∧ c.hammer = false) ∧
    (c.exclusive = 0 →
      c.extentKb = 0 ∧ c.steadyState = false ∧ c.reclaimMode = .reusable) := by
  unfold checkExclusions
  rw [bind_eq_ok, bind_eq_ok, assertIf_eq_ok, assertIf_eq_ok]
  have hmodes : (if 0 < c.exclusive then do
      assertThat (c.exclusive = 1)
        "--time-reclaim, --fleet-sim, --soak and --alloc-shape are separate modes"
      assertThat (!c.naive && !c.hostTouch && !c.pressureCheck && !c.hammer)
        ("--time-reclaim/--fleet-sim/--soak/--alloc-shape drive their own " ++
          "sequences; they exclude --naive, --host-touch and the short " ++
          "safety probes")
    else
      assertThat (c.extentKb = 0 && !c.steadyState && c.reclaimMode = .reusable)
        ("--extent-kb, --steady-state and --reclaim-mode only apply to " ++
          "--time-reclaim and --soak")) = Except.ok () ↔ c.exclusive ≤ 1 ∧
      (0 < c.exclusive →
        c.naive = false ∧ c.hostTouch = false ∧ c.pressureCheck = false ∧ c.hammer = false) ∧
      (c.exclusive = 0 →
        c.extentKb = 0 ∧ c.steadyState = false ∧ c.reclaimMode = .reusable) := by
    by_cases hpos : 0 < c.exclusive
    · have hne : c.exclusive ≠ 0 := by omega
      rw [if_pos hpos, bind_eq_ok, assertThat_eq_ok, assertThat_eq_ok, decide_eq_true_iff]
      simp only [hpos, hne, forall_const, false_imp_iff, and_true, Bool.and_eq_true,
        Bool.not_eq_true', and_assoc]
      have hone : c.exclusive = 1 ↔ c.exclusive ≤ 1 := by omega
      rw [hone]
    · have hzero : c.exclusive = 0 := by omega
      rw [if_neg hpos, assertThat_eq_ok]
      simp [hzero, and_assoc]
  rw [hmodes]
  simp only [Bool.and_eq_true, Bool.not_eq_true', decide_eq_true_iff, and_assoc]

/-- `parse_args` returns options exactly if they are read from the defaults and go through the
exclusions. -/
theorem parseArgs_eq_ok : parseArgs args = .ok c ↔
    Reads defaults args c ∧ checkExclusions c = .ok () := by
  constructor
  · intro h
    unfold parseArgs at h
    cases hloop : parseLoop defaults args with
    | error e =>
        rw [hloop] at h
        cases h
    | ok c' =>
        rw [hloop] at h
        change (checkExclusions c' >>= fun _ => Except.ok c') = .ok c at h
        cases hcheck : checkExclusions c' with
        | error e =>
            rw [hcheck] at h
            cases h
        | ok u =>
            rw [hcheck] at h
            cases h
            exact ⟨reads_of_parseLoop hloop, hcheck⟩
  · rintro ⟨hreads, hcheck⟩
    unfold parseArgs
    rw [parseLoop_of_reads hreads]
    change (checkExclusions c >>= fun _ => Except.ok c) = .ok c
    rw [hcheck]
    rfl

/-- A value that an option was given is read from some text. -/
theorem given_eq_some {val : Value} (h : given f args = some val) :
    val = .switch true ∨ ∃ text, f.valueOf text = some val := by
  unfold given at h
  cases hf : f.action with
  | switch set =>
      simp only [hf, Option.ite_none_right_eq_some, Option.some.injEq] at h
      exact .inl h.2.symm
  | value read =>
      simp only [hf, Option.bind_eq_some_iff] at h
      obtain ⟨text, -, htext⟩ := h
      exact .inr ⟨text, htext⟩

/-- A numeric option that is read has a number that fits its type. -/
theorem valueOf_number {text : List Char} {n : ℕ} (h : f.valueOf text = some (.number n)) :
    n < 2 ^ 64 := by
  suffices hparse : Text.parse 64 text = some n from parse_lt hparse
  cases f <;> simp only [Flag.valueOf, Option.map_eq_some_iff, Option.bind_eq_some_iff,
    Option.ite_none_right_eq_some, Option.some.injEq, Value.number.injEq, reduceCtorEq, and_false,
    exists_false, exists_eq_right] at h
  case repeats | vcpus =>
    obtain ⟨m, hm, -, rfl⟩ := h
    exact hm
  all_goals exact h

/-- A number that `parse_args` requires to be positive is at least one. -/
theorem one_le_of_valueOf {text : List Char} {n : ℕ} (hf : f = .repeats ∨ f = .vcpus)
    (h : f.valueOf text = some (.number n)) : 1 ≤ n := by
  rcases hf with rfl | rfl <;>
    simp only [Flag.valueOf, Option.bind_eq_some_iff, Option.ite_none_right_eq_some,
      Option.some.injEq, Value.number.injEq] at h <;>
    · obtain ⟨m, -, hm, rfl⟩ := h
      exact hm

/-- **What is accepted is presentable**: the options that `parse_args` returns are of the kind that
can be spelled out. Every option has its default or a value that was read, so its number fits a
machine word, and the exclusions were checked at the end. -/
theorem presentable_of_parseArgs (h : parseArgs args = .ok c) : Presentable c := by
  obtain ⟨hreads, hcheck⟩ := parseArgs_eq_ok.mp h
  obtain ⟨hhammer, honce, hmodes, hown, hplain⟩ := checkExclusions_eq_ok.mp hcheck
  have hget := hreads.get.1
  -- an option has its default or a value that was read
  have hcases : ∀ f, c.get f = defaults.get f ∨ c.get f = .switch true ∨
      ∃ text, f.valueOf text = some (c.get f) := by
    intro f
    rw [hget f]
    cases hg : given f args with
    | none => exact .inl rfl
    | some val => exact .inr (given_eq_some hg)
  have hpositive : ∀ f n, f = .repeats ∨ f = .vcpus → c.get f = .number n → 1 ≤ n := by
    intro f n hf hn
    rcases hcases f with hdefault | hswitch | ⟨text, htext⟩
    · rw [hn] at hdefault
      rcases hf with rfl | rfl <;> cases hdefault <;> decide
    · rw [hn] at hswitch
      cases hswitch
    · exact one_le_of_valueOf hf (hn ▸ htext)
  refine ⟨fun f n hn => ?_, hpositive .repeats _ (.inl rfl) rfl, hpositive .vcpus _ (.inr rfl) rfl,
    ?_, hhammer, honce, hmodes, hown, hplain⟩
  · rcases hcases f with hdefault | hswitch | ⟨text, htext⟩
    · rw [hn] at hdefault
      cases f <;> cases hdefault <;> decide
    · rw [hn] at hswitch
      cases hswitch
    · exact valueOf_number (hn ▸ htext)
  · rcases hcases .advice with hdefault | hswitch | ⟨text, htext⟩
    · have hadvice : c.advice = madvFreeReusable ∧ c.adviceName = chars "MADV_FREE_REUSABLE" := by
        simpa [Cli.get, defaults] using hdefault
      exact ⟨chars "reusable", by rw [hadvice.1, hadvice.2]; rfl⟩
    · cases hswitch
    · simp only [Flag.valueOf, Cli.get, Option.map_eq_some_iff, Value.advice.injEq] at htext
      obtain ⟨⟨a, name⟩, ha, rfl, rfl⟩ := htext
      exact ⟨text, ha⟩

/-- **The command line round-trips.** The options that `parse_args` returns for some list of
arguments are exactly the presentable ones: numbers that fit their types, at least one repetition
and one vCPU, an advice with its own name, and none of the excluded combinations. Each of them is
returned for the arguments that spell it out. -/
theorem command_line_round_trips (c : Cli) :
    ((∃ args, parseArgs args = .ok c) ↔ Presentable c) ∧
      (parseArgs (spell c) = .ok c ↔ Presentable c) := by
  have hspell : Presentable c → parseArgs (spell c) = .ok c := fun h => parseArgs_eq_ok.mpr
    ⟨reads_defaults_spell h, checkExclusions_eq_ok.mpr ⟨h.hammer, h.once, h.modes, h.own, h.plain⟩⟩
  refine ⟨⟨?_, fun h => ⟨spell c, hspell h⟩⟩, presentable_of_parseArgs, hspell⟩
  rintro ⟨args, h⟩
  exact presentable_of_parseArgs h

/-- Without arguments the options are the defaults, which are among them. -/
example : parseArgs [] = .ok defaults := rfl

end spelling

end VmRatchet.Main
