import VmRatchet.Guest.Code
import VmRatchet.Lib.Lines
import VmRatchet.Lib.Memory
import VmRatchet.Lib.Run
import VmRatchet.Lib.Text

/-!
# The pressure child and its parent

Pressure is made by a child process: it maps and dirties one chunk of a GiB after the other, prints
`HOLDING` and sleeps. The parent starts it, reads one line of its standard output and takes
`HOLDING` for the whole amount. The two run side by side, and the child may die, write something
else or close its output at any point.

* `generate`, `mapChunk` — the child; a chunk that cannot be mapped ends its loop early.
* `firstLine`, `apply` — the parent; it blocks while there is neither a whole line nor the end of
  the output.
* `State`, `Event`, `step`, `Move` — both processes together, and what each step does.
* `Reaped`, `reaped_step` — which processes there are at each point of the parent.
* `Chunks`, `chunks_step` — what the child holds at each point of its loop.
* `Spoiled`, `Calm` — what a refused chunk or a death leaves for good, and what holds without.
* `apply_ok_holds_all_iff` — `Ok` stands for all of it exactly if no chunk was refused and the child
  was left alive; an error leaves no child.
-/

namespace VmRatchet.Ledger.Pressure

open ByteMemory Guest Transition
open Text (chars decimal)

/-! ## The child -/

/-- `1usize << 30` -/
def chunk : ℕ := 1 <<< 30

/-- A chunk as a literal, for arithmetic: one GiB. -/
theorem chunk_eq : chunk = 1073741824 := rfl

/-- `0xDEAD_0000 + off as u64` -/
def fillAt (off : ℕ) : BitVec 64 := 0xDEAD0000 + BitVec.ofNat 64 off

/-- Where the generator stands: a chunk is mapped, its pages are dirtied one after the other, and
then comes the next chunk or, at the end, the announcement. -/
inductive Gen
  /-- `gb.parse()`, of the text of the environment variable -/
  | parse (var : List Char)
  /-- `libc::mmap` of chunk `i` -/
  | map (gb i : ℕ)
  /-- The page at `off` of chunk `i` is next. -/
  | dirty (gb i ptr off : ℕ)
  /-- `println!("HOLDING")` -/
  | announce
  /-- The loop at the end. -/
  | sleep

/-- `for i in 0..gb` -/
def nextChunk (gb i : ℕ) : Gen := if i < gb then .map gb i else .announce

/-- What is known of a child process. A zombie has ended and was not waited for. -/
inductive Proc
  | absent
  | running
  | zombie
  | reaped
  deriving DecidableEq

/-- The errors of reading a line. -/
inductive ReadError
  | read
  | invalidUtf8
  deriving DecidableEq

/-- What `lines.next()` returns: nothing at the end of the file, or a line, or an error of
reading. -/
abbrev Next := Option (Except ReadError (List Char))

/-- The errors of `apply`. -/
inductive ApplyError
  | currentExe
  | spawn
  /-- "pressure child did not reach HOLDING: {other:?}" -/
  | notHolding (other : Next)

/-- Where the parent stands in `apply`: it starts the child, reads a line, and returns, or else
kills the child and waits for it first. -/
inductive Parent
  | currentExe
  | spawn
  | read
  | kill (other : Next)
  | wait (other : Next)
  | returned (r : Except ApplyError Unit)

/-- Both processes and the pipe between them, with the memory of the child and the chunks it
holds. -/
structure State where
  parent : Parent
  proc : Proc
  gen : Gen
  /-- The child's memory. -/
  mem : Mem
  held : List ℕ
  /-- Everything the child has written to its standard output. -/
  pipe : List UInt8
  stdoutOpen : Bool

/-- What the child does, and what happens to it. -/
inductive ChildEvent
  /-- The next statement of the generator. -/
  | next
  /-- The result of `mmap`, `none` for `MAP_FAILED`. -/
  | mmap (r : Option ℕ)
  /-- The process ends. -/
  | die
  /-- Something else is written to its standard output. -/
  | write (bytes : List UInt8)
  | close

/-- The steps of the two processes. -/
inductive Event
  /-- The parent moves; `ok` is how the call it stands at turns out. -/
  | parent (ok : Bool)
  | child (e : ChildEvent)

/-- The bytes reach the pipe while the standard output is open. -/
def State.print (s : State) (bytes : List UInt8) : State :=
  { s with pipe := if s.stdoutOpen then s.pipe ++ bytes else s.pipe }

/-- One statement of the generator other than `mmap`.
Source: `pressure.rs`, `maybe_run_generator` -/
def generate (s : State) : Option State :=
  match s.gen with
  | .parse var =>
    match Text.parse 64 var with
    | some gb => some { s with gen := nextChunk gb 0 }
    -- `expect("pressure GiB")`
    | none => some { s with proc := .zombie }
  | .map _ _ => none
  | .dirty gb i ptr off =>
    if off < chunk then
      some { s with
        mem := store64 s.mem (ptr + off) (fillAt off), gen := .dirty gb i ptr (off + page) }
    else some { s with held := s.held ++ [ptr], gen := nextChunk gb (i + 1) }
  | .announce => some { s.print (Lines.encode (chars "HOLDING\n")) with gen := .sleep }
  | .sleep => some s

/-- Two chunks without a common byte. -/
def Apart (p q : ℕ) : Prop := p + chunk ≤ q ∨ q + chunk ≤ p

instance (p q : ℕ) : Decidable (Apart p q) := inferInstanceAs (Decidable (_ ∨ _))

/-- A new mapping is zero-filled and shares no byte with the chunks held.
Source: `pressure.rs`, `maybe_run_generator` (`mmap` and the test of its result) -/
def mapChunk (r : Option ℕ) (s : State) : Option State :=
  match s.gen, r with
  | .map gb i, some ptr =>
    if ptr + chunk ≤ 2 ^ 64 ∧ ∀ q ∈ s.held, Apart q ptr then
      some { s with mem := setRange s.mem ptr chunk 0, gen := .dirty gb i ptr 0 }
    else none
  -- "pressure-gen: mmap failed at {i} GiB, holding what we have"
  | .map _ _, none => some { s with gen := .announce }
  | _, _ => none

/-- One event of the child. -/
def child : ChildEvent → State → Option State
  | .next, s => generate s
  | .mmap r, s => mapChunk r s
  | .die, s => some { s with proc := .zombie }
  | .write bytes, s => some (s.print bytes)
  | .close, s => some { s with stdoutOpen := false }

/-! ## The parent -/

/-- The parent has read a line up to its newline, or up to the end of the output. -/
def decodeLine (raw : List UInt8) : Except ReadError (List Char) :=
  match Lines.decode raw with
  | some line => .ok (if line.getLast? = some '\n' then Text.stripCr line.dropLast else line)
  | none => .error .invalidUtf8

/-- The first line of an output that is complete or not; `none` if there is more to come.
Source: `std::io`, `BufRead::lines` -/
def firstLine (pipe : List UInt8) (eof : Bool) : Option Next :=
  match Lines.complete Lines.isNewlineByte [] pipe with
  | raw :: _ => some (some (decodeLine raw))
  | [] =>
    if eof then some (if pipe = [] then none else some (decodeLine pipe))
    else none

/-- Nobody is left who could write: the child has ended, or has closed its standard output. -/
def State.eof (s : State) : Bool := decide (s.proc ≠ .running) || !s.stdoutOpen

/-- `Some(Ok(line)) if line == "HOLDING"` -/
def holding : Next := some (.ok (chars "HOLDING"))

/-- One step of the parent. A signal that cannot be sent, and one to a process that has ended,
changes nothing; `wait` blocks until the child has ended.
Source: `pressure.rs`, `apply` -/
def apply (gb : ℕ) (ok : Bool) (s : State) : Option State :=
  match s.parent with
  | .currentExe => some { s with parent := if ok then .spawn else .returned (.error .currentExe) }
  | .spawn =>
    if ok then some { s with parent := .read, proc := .running, gen := .parse (decimal gb) }
    else some { s with parent := .returned (.error .spawn) }
  | .read =>
    if ok then
      (firstLine s.pipe s.eof).map fun other =>
        { s with parent := if other = holding then .returned (.ok ()) else .kill other }
    else some { s with parent := .kill (some (.error .read)) }
  | .kill other =>
    some { s with
      parent := .wait other
      proc := if ok = true ∧ s.proc = .running then .zombie else s.proc }
  | .wait other =>
    if s.proc = .zombie then
      some { s with parent := .returned (.error (.notHolding other)), proc := .reaped }
    else none
  | .returned _ => none

/-! ## Both together -/

/-- `apply` has returned. -/
def Parent.isDone : Parent → Bool
  | .returned _ => true
  | _ => false

/-- One step of either process, until `apply` returns; an event that does not fit leads nowhere. -/
def step (gb : ℕ) (s : State) : Event → Option State
  | .parent ok => apply gb ok s
  | .child e => if s.proc = .running ∧ s.parent.isDone = false then child e s else none

/-- Before `apply(gb)`: there is no child yet, and nothing is held. -/
def init (m : Mem) : State where
  parent := .currentExe
  proc := .absent
  gen := .parse []
  mem := m
  held := []
  pipe := []
  stdoutOpen := true

/-- What a step does to a state, one constructor for each thing that can happen, with its
conditions. -/
inductive Move (gb : ℕ) (s : State) : Event → State → Prop
  | currentExe {ok : Bool} (hp : s.parent = .currentExe) : Move gb s (.parent ok)
      { s with parent := if ok then .spawn else .returned (.error .currentExe) }
  | spawned (hp : s.parent = .spawn) : Move gb s (.parent true)
      { s with parent := .read, proc := .running, gen := .parse (decimal gb) }
  | notSpawned (hp : s.parent = .spawn) : Move gb s (.parent false)
      { s with parent := .returned (.error .spawn) }
  | holding (hp : s.parent = .read) (hline : firstLine s.pipe s.eof = some holding) :
      Move gb s (.parent true) { s with parent := .returned (.ok ()) }
  | other {ok : Bool} {other : Next} (hp : s.parent = .read) :
      Move gb s (.parent ok) { s with parent := .kill other }
  | kill {ok : Bool} {other : Next} (hp : s.parent = .kill other) : Move gb s (.parent ok)
      { s with
        parent := .wait other
        proc := if ok = true ∧ s.proc = .running then .zombie else s.proc }
  | wait {ok : Bool} {other : Next} (hp : s.parent = .wait other) (hproc : s.proc = .zombie) :
      Move gb s (.parent ok)
        { s with parent := .returned (.error (.notHolding other)), proc := .reaped }
  | parsed {var : List Char} {n : ℕ} (hproc : s.proc = .running) (hg : s.gen = .parse var)
      (hn : Text.parse 64 var = some n) :
      Move gb s (.child .next) { s with gen := nextChunk n 0 }
  | panicked {var : List Char} (hproc : s.proc = .running) (hg : s.gen = .parse var)
      (hn : Text.parse 64 var = none) : Move gb s (.child .next) { s with proc := .zombie }
  | page {n i ptr off : ℕ} (hproc : s.proc = .running) (hg : s.gen = .dirty n i ptr off)
      (hoff : off < chunk) : Move gb s (.child .next)
        { s with
          mem := store64 s.mem (ptr + off) (fillAt off)
          gen := .dirty n i ptr (off + page) }
  | pushed {n i ptr off : ℕ} (hproc : s.proc = .running) (hg : s.gen = .dirty n i ptr off)
      (hoff : chunk ≤ off) : Move gb s (.child .next)
        { s with held := s.held ++ [ptr], gen := nextChunk n (i + 1) }
  | announced (hproc : s.proc = .running) (hg : s.gen = .announce) : Move gb s (.child .next)
      { s.print (Lines.encode (chars "HOLDING\n")) with gen := .sleep }
  | slept (hproc : s.proc = .running) (hg : s.gen = .sleep) : Move gb s (.child .next) s
  | mapped {n i ptr : ℕ} (hproc : s.proc = .running) (hg : s.gen = .map n i)
      (hfresh : ∀ q ∈ s.held, Apart q ptr) : Move gb s (.child (.mmap (some ptr)))
        { s with mem := setRange s.mem ptr chunk 0, gen := .dirty n i ptr 0 }
  | refused {n i : ℕ} (hproc : s.proc = .running) (hg : s.gen = .map n i) :
      Move gb s (.child (.mmap none)) { s with gen := .announce }
  | died (hproc : s.proc = .running) : Move gb s (.child .die) { s with proc := .zombie }
  | wrote {bytes : List UInt8} (hproc : s.proc = .running) :
      Move gb s (.child (.write bytes)) (s.print bytes)
  | closed (hproc : s.proc = .running) :
      Move gb s (.child .close) { s with stdoutOpen := false }

section move

variable {gb : ℕ} {s t : State} {e : Event}

/-- What the generator does in its next statement, while the child runs, is one of the moves listed
in `Move`. -/
theorem move_of_generate (hproc : s.proc = .running) (h : generate s = some t) :
    Move gb s (.child .next) t := by
  unfold generate at h
  split at h
  case h_1 var hg =>
    split at h
    case h_1 n hn =>
      cases h
      exact .parsed hproc hg hn
    case h_2 hn =>
      cases h
      exact .panicked hproc hg hn
  case h_2 => cases h
  case h_3 n i ptr off hg =>
    split_ifs at h with hoff
    · cases h
      exact .page hproc hg hoff
    · cases h
      exact .pushed hproc hg (not_lt.mp hoff)
  case h_4 hg =>
    cases h
    exact .announced hproc hg
  case h_5 hg =>
    cases h
    exact .slept hproc hg

/-- What the generator does with the result of `mmap` is one of the moves: it goes on to dirty the
chunk, or, refused it, leaves its loop for the announcement. -/
theorem move_of_mapChunk {r : Option ℕ} (hproc : s.proc = .running)
    (h : mapChunk r s = some t) : Move gb s (.child (.mmap r)) t := by
  unfold mapChunk at h
  split at h
  case h_1 n i ptr hg =>
    split_ifs at h with hmap
    cases h
    exact .mapped hproc hg hmap.2
  case h_2 n i hg =>
    cases h
    exact .refused hproc hg
  case h_3 => cases h

/-- Whatever the parent's call returns, its step is one of the moves listed in `Move`. -/
theorem move_of_apply {ok : Bool} (h : apply gb ok s = some t) : Move gb s (.parent ok) t := by
  unfold apply at h
  split at h
  case h_1 hp =>
    cases h
    exact .currentExe hp
  case h_2 hp =>
    cases ok with
    | true =>
        cases h
        exact .spawned hp
    | false =>
        cases h
        exact .notSpawned hp
  case h_3 hp =>
    cases ok with
    | true =>
        rw [if_pos rfl, Option.map_eq_some_iff] at h
        obtain ⟨other, hline, rfl⟩ := h
        by_cases hother : other = holding
        · subst hother
          rw [if_pos rfl]
          exact .holding hp hline
        · rw [if_neg hother]
          exact .other hp
    | false =>
        cases h
        exact .other hp
  case h_4 hp =>
    cases h
    exact .kill hp
  case h_5 hp =>
    split_ifs at h with hproc
    cases h
    exact .wait hp hproc
  case h_6 => cases h

/-- **What a step can do.** Every step of the parent or the child is one of the moves listed in
`Move`, so an invariant needs one case for each. -/
theorem move_of_step (h : step gb s e = some t) : Move gb s e t := by
  cases e with
  | parent ok => exact move_of_apply h
  | child e =>
      rw [step] at h
      split_ifs at h with hlive
      cases e with
      | next => exact move_of_generate hlive.1 h
      | mmap r => exact move_of_mapChunk hlive.1 h
      | die =>
          cases h
          exact .died hlive.1
      | write bytes =>
          cases h
          exact .wrote hlive.1
      | close =>
          cases h
          exact .closed hlive.1

end move

/-! ## The processes -/

/-- Which child processes there are at each point of the parent; after an error there is none that
was not waited for. -/
def Reaped (s : State) : Prop :=
  match s.parent with
  | .currentExe | .spawn => s.proc = .absent
  | .read | .kill _ | .wait _ | .returned (.ok _) => s.proc = .running ∨ s.proc = .zombie
  | .returned (.error _) => s.proc = .absent ∨ s.proc = .reaped

section processes

variable {gb : ℕ} {s t : State} {e : Event}

/-- A step of the child leaves the parent where it is, with a child that runs or has ended. -/
theorem reaped_of_running (hproc : s.proc = .running) (hparent : t.parent = s.parent)
    (hproc' : t.proc = .running ∨ t.proc = .zombie) (hs : Reaped s) : Reaped t := by
  unfold Reaped at hs ⊢
  rw [hparent]
  rw [hproc] at hs
  split at hs
  · cases hs
  · cases hs
  · exact hproc'
  · exact hproc'
  · exact hproc'
  · exact hproc'
  · rcases hs with hs | hs <;> cases hs

/-- **One step** of either process keeps which child there is at each point of the parent: none
before it is started, one that is not waited for up to an `Ok`, and none or a reaped one with an
error. -/
theorem reaped_step (h : step gb s e = some t) (hs : Reaped s) : Reaped t := by
  cases move_of_step h with
  | @currentExe ok hp =>
      rw [Reaped, hp] at hs
      cases ok with
      | true => exact hs
      | false => exact .inl hs
  | spawned hp => exact .inl rfl
  | notSpawned hp =>
      rw [Reaped, hp] at hs
      exact .inl hs
  | holding hp _ =>
      rw [Reaped, hp] at hs
      exact hs
  | other hp =>
      rw [Reaped, hp] at hs
      exact hs
  | kill hp =>
      rw [Reaped, hp] at hs
      unfold Reaped
      simp only
      split_ifs
      · exact .inr rfl
      · exact hs
  | wait hp hproc => exact .inr rfl
  | parsed hproc => exact reaped_of_running hproc rfl (.inl hproc) hs
  | panicked hproc => exact reaped_of_running hproc rfl (.inr rfl) hs
  | page hproc => exact reaped_of_running hproc rfl (.inl hproc) hs
  | pushed hproc => exact reaped_of_running hproc rfl (.inl hproc) hs
  | announced hproc => exact reaped_of_running hproc rfl (.inl hproc) hs
  | slept hproc => exact hs
  | mapped hproc => exact reaped_of_running hproc rfl (.inl hproc) hs
  | refused hproc => exact reaped_of_running hproc rfl (.inl hproc) hs
  | died hproc => exact reaped_of_running hproc rfl (.inr rfl) hs
  | wrote hproc => exact reaped_of_running hproc rfl (.inl hproc) hs
  | closed hproc => exact reaped_of_running hproc rfl (.inl hproc) hs

end processes

/-! ## What the child holds -/

/-- The first word of every page below `n` of a chunk is what the generator wrote. -/
def Dirtied (m : Mem) (ptr n : ℕ) : Prop :=
  ∀ off < n, page ∣ off → load64 m (ptr + off) = fillAt off

/-- The child holds `gb` GiB, all of it dirtied. -/
structure HoldsAll (gb : ℕ) (s : State) : Prop where
  running : s.proc = .running
  length : s.held.length = gb
  apart : s.held.Pairwise Apart
  dirtied : ∀ ptr ∈ s.held, Dirtied s.mem ptr chunk

/-- How far the loop of the generator has come. -/
def Gen.Reached (gb : ℕ) (s : State) : Gen → Prop
  | .parse var => s.held = [] ∧ (s.proc = .running → var = decimal gb)
  | .map n i => n = gb ∧ i < gb ∧ s.held.length = i
  | .dirty n i ptr off => n = gb ∧ i < gb ∧ s.held.length = i ∧ (∀ q ∈ s.held, Apart q ptr) ∧
      page ∣ off ∧ Dirtied s.mem ptr off
  | .announce | .sleep => s.held.length ≤ gb

/-- The chunks in every reachable state: they do not overlap, every page of them is dirty, and their
number fits the point where the generator stands. -/
structure Chunks (gb : ℕ) (s : State) : Prop where
  /-- Nothing is held before there is a child. -/
  idle : s.proc = .absent → s.held = []
  reached : s.gen.Reached gb s
  apart : s.held.Pairwise Apart
  dirtied : ∀ ptr ∈ s.held, Dirtied s.mem ptr chunk

section chunks

variable {gb : ℕ} {s t : State} {e : Event}

/-- If the pages below `off` are dirty, storing to the page at `off` makes those up to the next page
dirty. -/
theorem dirtied_store {m : Mem} {ptr off : ℕ} (hoff : page ∣ off) (h : Dirtied m ptr off) :
    Dirtied (store64 m (ptr + off) (fillAt off)) ptr (off + page) := by
  intro k hk hdvd
  rw [page_eq] at *
  by_cases hlast : k = off
  · rw [hlast, load64_store64]
  · rw [load64_store64_of_disjoint (by omega)]
    exact h k (by omega) (page_eq ▸ hdvd)

/-- Writing to one chunk leaves the others as they are. -/
theorem dirtied_store_of_apart {m : Mem} {p q off : ℕ} {v : BitVec 64} (hapart : Apart q p)
    (hoff : page ∣ off) (hlt : off < chunk) (h : Dirtied m q chunk) :
    Dirtied (store64 m (p + off) v) q chunk := by
  intro k hk hdvd
  have hapart' := hapart
  rw [Apart, chunk_eq] at hapart'
  rw [load64_store64_of_disjoint, h k hk hdvd]
  rw [chunk_eq] at hk hlt
  rw [page_eq] at hoff hdvd
  omega

/-- Mapping a chunk does not disturb a chunk that lies apart from it: its pages stay dirty. -/
theorem dirtied_setRange_of_apart {m : Mem} {p q : ℕ} (hapart : Apart q p)
    (h : Dirtied m q chunk) : Dirtied (setRange m p chunk 0) q chunk := by
  intro k hk hdvd
  have hapart' := hapart
  rw [Apart, chunk_eq] at hapart'
  rw [load64_setRange_of_disjoint, h k hk hdvd]
  rw [chunk_eq] at hk ⊢
  rw [page_eq] at hdvd
  omega

/-- Behind a chunk the loop is where the number of chunks held says: at the next chunk, or at its
end. -/
theorem reached_nextChunk {n i : ℕ} (hi : i ≤ n) (hs : s.held.length = i) :
    (nextChunk n i).Reached n s := by
  unfold nextChunk
  split_ifs with hlt
  · exact ⟨rfl, hlt, hs⟩
  · exact hs.trans_le hi

/-- A step that leaves the loop and the memory of the child alone. -/
theorem Chunks.congr (hs : Chunks gb s) (hgen : t.gen = s.gen) (hheld : t.held = s.held)
    (hmem : t.mem = s.mem) (hrunning : t.proc = .running → s.proc = .running)
    (habsent : t.proc = .absent → s.proc = .absent) : Chunks gb t := by
  refine ⟨?_, ?_, ?_, ?_⟩
  · rw [hheld]
    exact fun h => hs.idle (habsent h)
  · have hreached := hs.reached
    rw [hgen]
    cases hg : s.gen with
    | parse var =>
        rw [hg] at hreached
        exact ⟨hheld.trans hreached.1, fun h => hreached.2 (hrunning h)⟩
    | _ =>
        rw [hg] at hreached
        simpa only [Gen.Reached, hheld, hmem] using hreached
  · rw [hheld]
    exact hs.apart
  · rw [hheld, hmem]
    exact hs.dirtied

/-- **One step** of either process keeps what is known of the chunks: those held lie apart from each
other and are dirty, and the loop is as far as their number says. -/
theorem chunks_step (hgb : gb < 2 ^ 64) (h : step gb s e = some t) (hr : Reaped s)
    (hs : Chunks gb s) : Chunks gb t := by
  have hreached := hs.reached
  cases move_of_step h with
  | currentExe | notSpawned | holding | other | slept =>
      exact hs.congr rfl rfl rfl id id
  | wrote | closed => exact hs.congr rfl rfl rfl id id
  | kill =>
      refine hs.congr rfl rfl rfl ?_ ?_
      · simp only
        split_ifs
        · exact fun h => nomatch h
        · exact id
      · simp only
        split_ifs
        · exact fun h => nomatch h
        · exact id
  | wait | panicked | died => exact hs.congr rfl rfl rfl (fun h => nomatch h) fun h => nomatch h
  | spawned hp =>
      rw [Reaped, hp] at hr
      have hheld := hs.idle hr
      exact ⟨fun h => (nomatch h), ⟨hheld, fun _ => rfl⟩, hs.apart, hs.dirtied⟩
  | @parsed var n hproc hg hn =>
      rw [hg] at hreached
      obtain ⟨hheld, hvar⟩ := hreached
      rw [hvar hproc, Text.parse_decimal hgb, Option.some.injEq] at hn
      subst hn
      refine ⟨hs.idle, reached_nextChunk (Nat.zero_le _) ?_, hs.apart, hs.dirtied⟩
      rw [hheld, List.length_nil]
  | @page n i ptr off hproc hg hoff =>
      rw [hg] at hreached
      obtain ⟨hn, hi, hlen, hapart, hdvd, hdirty⟩ := hreached
      refine ⟨hs.idle, ⟨hn, hi, hlen, hapart, ?_, dirtied_store hdvd hdirty⟩, hs.apart, ?_⟩
      · exact Nat.dvd_add hdvd (Nat.dvd_refl _)
      · intro q hq
        exact dirtied_store_of_apart (hapart q hq) hdvd hoff (hs.dirtied q hq)
  | @pushed n i ptr off hproc hg hoff =>
      rw [hg] at hreached
      obtain ⟨rfl, hi, hlen, hapart, -, hdirty⟩ := hreached
      refine ⟨fun h => ?_, reached_nextChunk hi ?_, ?_, ?_⟩
      · exact absurd (hproc.symm.trans h) (by simp)
      · rw [List.length_append, hlen, List.length_singleton]
      · rw [List.pairwise_append]
        refine ⟨hs.apart, List.pairwise_singleton _ _, fun q hq p hp => ?_⟩
        rw [List.mem_singleton.mp hp]
        exact hapart q hq
      · intro q hq
        rcases List.mem_append.mp hq with hq | hq
        · exact hs.dirtied q hq
        · rw [List.mem_singleton.mp hq]
          exact fun k hk hdvd => hdirty k (hk.trans_le hoff) hdvd
  | announced hproc hg =>
      rw [hg] at hreached
      exact ⟨hs.idle, hreached, hs.apart, hs.dirtied⟩
  | @mapped n i ptr hproc hg hfresh =>
      rw [hg] at hreached
      obtain ⟨hn, hi, hlen⟩ := hreached
      refine ⟨hs.idle, ⟨hn, hi, hlen, hfresh, Nat.dvd_zero _, ?_⟩, hs.apart, ?_⟩
      · exact fun k hk => absurd hk (Nat.not_lt_zero k)
      · exact fun q hq => dirtied_setRange_of_apart (hfresh q hq) (hs.dirtied q hq)
  | @refused n i hproc hg =>
      rw [hg] at hreached
      obtain ⟨-, hi, hlen⟩ := hreached
      exact ⟨hs.idle, (hlen.trans_lt hi).le, hs.apart, hs.dirtied⟩

end chunks

/-! ## Refused chunks and deaths -/

/-- The child has ended, or it is through with its loop and holds less than it should. -/
def Spoiled (gb : ℕ) (s : State) : Prop :=
  s.proc ≠ .absent ∧
    (s.proc ≠ .running ∨ (s.gen = .announce ∨ s.gen = .sleep) ∧ s.held.length < gb)

/-- The child lives, and it is silent until it is through with its loop and holds everything. -/
structure Calm (gb : ℕ) (s : State) : Prop where
  idle : s.proc = .absent → s.pipe = []
  alive : s.parent = .read ∨ s.parent = .returned (.ok ()) → s.proc = .running
  full : s.gen = .announce ∨ s.gen = .sleep → s.held.length = gb
  silent : s.pipe = [] ∨ s.gen = .sleep
  told : s.parent = .returned (.ok ()) → s.pipe ≠ []

/-- A chunk is refused, or the child ends on its own. -/
def Event.isLoss : Event → Bool
  | .child (.mmap none) => true
  | .child .die => true
  | _ => false

/-- Something other than the generator writes to the child's standard output. -/
def Event.isForeign : Event → Bool
  | .child (.write _) => true
  | _ => false

section loss

variable {gb : ℕ} {s t : State} {e : Event}

/-- A refused chunk and a death leave their mark: afterwards the child has ended, or is through with
its loop and holds less than it should. -/
theorem spoiled_of_isLoss (he : e.isLoss = true) (h : step gb s e = some t) (hs : Chunks gb s) :
    Spoiled gb t := by
  have hreached := hs.reached
  cases move_of_step h with
  | refused hproc hg =>
      rw [hg] at hreached
      obtain ⟨-, hi, hlen⟩ := hreached
      refine ⟨?_, .inr ⟨.inl rfl, hlen.trans_lt hi⟩⟩
      simp [hproc]
  | died => exact ⟨by simp, .inl (by simp)⟩
  | _ => exact absurd he (by simp [Event.isLoss])

/-- No step of either process takes this mark away: a child that was refused a chunk goes on to its
announcement without it, and one that has ended does not come back. -/
theorem spoiled_step (h : step gb s e = some t) (hr : Reaped s) (hs : Spoiled gb s) :
    Spoiled gb t := by
  obtain ⟨habsent, hspoiled⟩ := hs
  cases move_of_step h with
  | currentExe | notSpawned | holding | other => exact ⟨habsent, hspoiled⟩
  | slept | wrote | closed => exact ⟨habsent, hspoiled⟩
  | spawned hp =>
      rw [Reaped, hp] at hr
      exact absurd hr habsent
  | kill =>
      unfold Spoiled
      simp only
      split_ifs
      · exact ⟨by simp, .inl (by simp)⟩
      · exact ⟨habsent, hspoiled⟩
  | wait | panicked | died => exact ⟨by simp, .inl (by simp)⟩
  | parsed hproc hg | page hproc hg | pushed hproc hg | mapped hproc hg | refused hproc hg =>
      rcases hspoiled with hend | ⟨hgen | hgen, -⟩
      · exact absurd hproc hend
      · rw [hg] at hgen
        cases hgen
      · rw [hg] at hgen
        cases hgen
  | announced hproc hg =>
      rcases hspoiled with hend | ⟨-, hlt⟩
      · exact absurd hproc hend
      · exact ⟨habsent, .inr ⟨.inr rfl, hlt⟩⟩

/-- A child that has ended, or is through with its loop and holds less than it should, does not hold
everything. -/
theorem Spoiled.not_holdsAll (hs : Spoiled gb s) : ¬ HoldsAll gb s := by
  intro h
  rcases hs.2 with hend | ⟨-, hlt⟩
  · exact hend h.running
  · exact hlt.ne h.length

/-- The loop of the generator ends only at the last chunk: where the next statement is the
announcement or the sleep, all `n` chunks have been taken. -/
theorem length_of_nextChunk {n i : ℕ} (hi : i ≤ n)
    (h : nextChunk n i = .announce ∨ nextChunk n i = .sleep) : i = n := by
  unfold nextChunk at h
  split_ifs at h with hlt
  · rcases h with h | h <;> cases h
  · exact le_antisymm hi (not_lt.mp hlt)

/-- No line can be read from an empty pipe. -/
theorem ne_nil_of_firstLine {eof : Bool} {pipe : List UInt8}
    (h : firstLine pipe eof = some holding) : pipe ≠ [] := by
  rintro rfl
  cases eof <;> cases h

/-- Until the child sleeps it has written nothing, as long as it has lost nothing. -/
theorem Calm.pipe_eq_nil (hs : Calm gb s) (hg : s.gen ≠ .sleep) : s.pipe = [] :=
  hs.silent.resolve_right hg

/-- A step of the parent that does not end in `read` or `Ok`. -/
theorem Calm.of_parent {p : Parent} {proc : Proc} (hs : Calm gb s) (hread : p ≠ .read)
    (hok : p ≠ .returned (.ok ())) (hproc : proc = .absent → s.proc = .absent) :
    Calm gb { s with parent := p, proc := proc } where
  idle h := hs.idle (hproc h)
  alive h := h.elim (fun h => absurd h hread) fun h => absurd h hok
  full := hs.full
  silent := hs.silent
  told h := absurd h hok

/-- A step of the loop before the announcement keeps the calm, if the loop ends with everything
held. -/
theorem Calm.of_loop {g : Gen} {m : Mem} {held : List ℕ} (hs : Calm gb s)
    (hproc : s.proc = .running) (hg : s.gen ≠ .sleep)
    (hfull : g = .announce ∨ g = .sleep → held.length = gb) :
    Calm gb { s with gen := g, mem := m, held := held } where
  idle := hs.idle
  alive _ := hproc
  full := hfull
  silent := .inl (hs.pipe_eq_nil hg)
  told := hs.told

/-- **One step** without a loss and without foreign output keeps the calm: the child lives, and says
nothing until it holds everything. The announcement comes when the loop over the chunks has ended,
which without a refusal it only does with all of them. -/
theorem calm_step (hgb : gb < 2 ^ 64) (hloss : e.isLoss = false) (hforeign : e.isForeign = false)
    (h : step gb s e = some t) (hr : Reaped s) (hc : Chunks gb s) (hs : Calm gb s) :
    Calm gb t := by
  have hreached := hc.reached
  cases move_of_step h with
  | @currentExe ok hp =>
      cases ok with
      | true => exact hs.of_parent (fun h => nomatch h) (fun h => nomatch h) id
      | false => exact hs.of_parent (fun h => nomatch h) (fun h => nomatch h) id
  | notSpawned | other => exact hs.of_parent (fun h => nomatch h) (fun h => nomatch h) id
  | wait => exact hs.of_parent (fun h => nomatch h) (fun h => nomatch h) fun h => nomatch h
  | kill =>
      refine hs.of_parent (fun h => nomatch h) (fun h => nomatch h) ?_
      split_ifs
      · exact fun h => nomatch h
      · exact id
  | spawned hp =>
      rw [Reaped, hp] at hr
      have hpipe := hs.idle hr
      refine ⟨fun _ => hpipe, fun _ => rfl, ?_, .inl hpipe, fun h => nomatch h⟩
      rintro (h | h) <;> cases h
  | holding hp hline =>
      refine ⟨hs.idle, fun _ => hs.alive (.inl hp), hs.full, hs.silent, fun _ => ?_⟩
      exact ne_nil_of_firstLine hline
  | @parsed var n hproc hg hn =>
      rw [hg] at hreached
      obtain ⟨hheld, hvar⟩ := hreached
      rw [hvar hproc, Text.parse_decimal hgb, Option.some.injEq] at hn
      subst hn
      refine hs.of_loop hproc (by simp [hg]) fun hend => ?_
      rw [hheld, List.length_nil]
      exact length_of_nextChunk (Nat.zero_le _) hend
  | @panicked var hproc hg hn =>
      rw [hg] at hreached
      rw [hreached.2 hproc, Text.parse_decimal hgb] at hn
      cases hn
  | page hproc hg =>
      refine hs.of_loop hproc (by simp [hg]) ?_
      rintro (h | h) <;> cases h
  | @pushed n i ptr off hproc hg hoff =>
      rw [hg] at hreached
      obtain ⟨rfl, hi, hlen, -⟩ := hreached
      refine hs.of_loop hproc (by simp [hg]) fun hend => ?_
      rw [List.length_append, hlen, List.length_singleton]
      exact length_of_nextChunk hi hend
  | mapped hproc hg =>
      refine hs.of_loop hproc (by simp [hg]) ?_
      rintro (h | h) <;> cases h
  | announced hproc hg =>
      refine ⟨fun h => ?_, fun _ => hproc, fun _ => hs.full (.inl hg), .inr rfl, fun h => ?_⟩
      · exact absurd (hproc.symm.trans h) (by simp)
      · have hne := hs.told h
        unfold State.print
        simp only
        split_ifs
        · exact List.append_ne_nil_of_left_ne_nil hne _
        · exact hne
  | slept => exact hs
  | closed hproc => exact ⟨hs.idle, fun _ => hproc, hs.full, hs.silent, hs.told⟩
  | refused | died => cases hloss
  | wrote => cases hforeign

end loss

/-! ## Runs -/

section runs

variable {gb : ℕ} {m : Mem} {es : List Event} {s t : State}

/-- What holds in every state: there is a child exactly where the parent has one to do with, and its
chunks are in order. -/
structure Invariant (gb : ℕ) (s : State) : Prop where
  reaped : Reaped s
  chunks : Chunks gb s

/-- Every step keeps the account of the child and what is known of its chunks. -/
theorem invariant_step (hgb : gb < 2 ^ 64) {e : Event} (h : step gb s e = some t)
    (hs : Invariant gb s) : Invariant gb t :=
  ⟨reaped_step h hs.reaped, chunks_step hgb h hs.reaped hs.chunks⟩

/-- Before the first step there is no child and nothing is held. -/
theorem invariant_init (gb : ℕ) (m : Mem) : Invariant gb (init m) where
  reaped := rfl
  chunks :=
    { idle := fun _ => rfl
      reached := ⟨rfl, fun h => nomatch h⟩
      apart := .nil
      dirtied := fun _ h => nomatch h }

/-- **Every reachable state** has its child accounted for and its chunks in order. -/
theorem invariant_of_run (hgb : gb < 2 ^ 64) (h : run (step gb) (init m) es = some s) :
    Invariant gb s :=
  run_invariant (P := fun _ _ => True) (fun _ _ _ _ hs hstep => invariant_step hgb hstep hs)
    (.of_labels (fun _ _ _ => trivial) _) (invariant_init gb m) h

/-- A run with a loss ends in a child that does not hold everything. -/
theorem not_holdsAll_of_isLoss (hgb : gb < 2 ^ 64) (h : run (step gb) (init m) es = some s)
    {e : Event} (he : e ∈ es) (hloss : e.isLoss = true) : ¬ HoldsAll gb s := by
  obtain ⟨before, after, rfl⟩ := List.append_of_mem he
  obtain ⟨u, hu, hrest⟩ := run_append.mp h
  obtain ⟨v, hv, hvs⟩ := run_cons_eq_some.mp hrest
  have hinv := invariant_of_run hgb hu
  have hstep : ∀ s l t, True → (Invariant gb s ∧ Spoiled gb s) → step gb s l = some t →
      Invariant gb t ∧ Spoiled gb t := fun s l t _ hs hst =>
    ⟨invariant_step hgb hst hs.1, spoiled_step hst hs.1.reaped hs.2⟩
  have hend := run_invariant hstep (.of_labels (fun _ _ _ => trivial) _)
    ⟨invariant_step hgb hv hinv, spoiled_of_isLoss hloss hv hinv.chunks⟩ hvs
  exact hend.2.not_holdsAll

/-- In a run without a loss and without foreign events `Ok` stands for everything: the child runs
and holds all chunks, dirtied. -/
theorem holdsAll_of_ok (hgb : gb < 2 ^ 64) (h : run (step gb) (init m) es = some s)
    (hforeign : ∀ e ∈ es, e.isForeign = false) (hloss : ∀ e ∈ es, e.isLoss = false)
    (hok : s.parent = .returned (.ok ())) : HoldsAll gb s := by
  have hinit : Calm gb (init m) :=
    { idle := fun _ => rfl
      alive := fun h => h.elim (fun h => nomatch h) fun h => nomatch h
      full := fun h => h.elim (fun h => nomatch h) fun h => nomatch h
      silent := .inl rfl
      told := fun h => nomatch h }
  have hstep : ∀ s l t, (l.isForeign = false ∧ l.isLoss = false) →
      (Invariant gb s ∧ Calm gb s) → step gb s l = some t → Invariant gb t ∧ Calm gb t :=
    fun s l t hl hs hst => ⟨invariant_step hgb hst hs.1,
      calm_step hgb hl.2 hl.1 hst hs.1.reaped hs.1.chunks hs.2⟩
  have hlabels : Along (step gb) (fun _ l => l.isForeign = false ∧ l.isLoss = false) (init m) es :=
    .of_labels (fun e he _ => ⟨hforeign e he, hloss e he⟩) _
  obtain ⟨⟨-, hchunks⟩, hcalm⟩ := run_invariant hstep hlabels ⟨invariant_init gb m, hinit⟩ h
  have hsleep : s.gen = .sleep := hcalm.silent.resolve_left (hcalm.told hok)
  exact ⟨hcalm.alive (.inr hok), hcalm.full (.inr hsleep), hchunks.apart, hchunks.dirtied⟩

/-! ### A run without a loss -/

/-- The line the generator prints is the line the parent looks for. -/
theorem firstLine_holding (eof : Bool) :
    firstLine (Lines.encode (chars "HOLDING\n")) eof = some holding := by
  have hcomplete : Lines.complete Lines.isNewlineByte [] (Lines.encode (chars "HOLDING\n")) =
      [Lines.encode (chars "HOLDING\n")] := rfl
  rw [firstLine, hcomplete]
  simp only [decodeLine, Lines.decode_encode]
  rfl

/-- While the parent reads and the child runs, the generator can take its next statement. -/
theorem step_next (gb : ℕ) (hparent : s.parent = .read) (hproc : s.proc = .running) :
    step gb s (.child .next) = generate s := by
  rw [step, if_pos ⟨hproc, by rw [hparent]; rfl⟩, child]

/-- The parent starts the child, and the child reads how much it is to hold. -/
theorem run_start (hgb : gb < 2 ^ 64) (m : Mem) :
    run (step gb) (init m) [.parent true, .parent true, .child .next] =
      some { init m with parent := .read, proc := .running, gen := nextChunk gb 0 } := by
  simp [run, step, apply, child, generate, init, Parent.isDone, Text.parse_decimal hgb]

/-- The child announces that it holds its memory, and the parent reads the announcement and returns
`Ok`. -/
theorem run_announce (gb : ℕ) (hparent : s.parent = .read) (hproc : s.proc = .running)
    (hg : s.gen = .announce) (hpipe : s.pipe = []) (hopen : s.stdoutOpen = true) :
    run (step gb) s [.child .next, .parent true] = some { s with
      gen := .sleep
      pipe := Lines.encode (chars "HOLDING\n")
      parent := .returned (.ok ()) } := by
  have hprint : step gb s (.child .next) = some { s with
      gen := .sleep, pipe := Lines.encode (chars "HOLDING\n") } := by
    rw [step_next gb hparent hproc, generate, hg]
    simp only [State.print, hopen, hpipe, if_true, List.nil_append]
  refine run_cons_eq_some.mpr ⟨_, hprint, run_cons_eq_some.mpr ⟨_, ?_, rfl⟩⟩
  rw [step, apply, hparent]
  simp only [if_true, firstLine_holding, Option.map_some]

/-- The event is neither a loss — a refused chunk or a death — nor foreign output. -/
def Undisturbed (_ : State) (e : Event) : Prop := e.isForeign = false ∧ e.isLoss = false

/-- The child and the parent while chunk `i` is about to be mapped. -/
structure Working (gb i : ℕ) (s : State) : Prop where
  parent : s.parent = .read
  running : s.proc = .running
  gen : s.gen = nextChunk gb i
  pipe : s.pipe = []
  stdoutOpen : s.stdoutOpen = true
  held : ∀ q ∈ s.held, q ≤ i * chunk

/-- The pages of a chunk that are left can be dirtied without disturbance, after which the chunk is
held and the next one is due. -/
theorem reaches_pushed (gb : ℕ) {n i ptr off : ℕ} (pages : ℕ) (hparent : s.parent = .read)
    (hproc : s.proc = .running) (hg : s.gen = .dirty n i ptr off)
    (hpages : off + pages * page = chunk) : ∃ m', Reaches (step gb) Undisturbed s
      { s with mem := m', held := s.held ++ [ptr], gen := nextChunk n (i + 1) } := by
  have hnext := step_next gb hparent hproc
  induction pages generalizing s off with
  | zero =>
      refine ⟨s.mem, .single (l := .child .next) ⟨rfl, rfl⟩ ?_⟩
      rw [hnext, generate, hg]
      exact if_neg (by omega)
  | succ pages ih =>
      have hoff : off < chunk := by
        rw [Nat.add_one_mul] at hpages
        have : 0 < page := by decide
        omega
      obtain ⟨m', hrest⟩ := ih (s := { s with
        mem := store64 s.mem (ptr + off) (fillAt off), gen := .dirty n i ptr (off + page) })
        hparent hproc rfl (by rw [← hpages]; ring) (step_next gb hparent hproc)
      refine ⟨m', (Reaches.single (l := .child .next) ⟨rfl, rfl⟩ ?_).trans hrest⟩
      rw [hnext, generate, hg]
      exact if_pos hoff

/-- A chunk that is mapped at a fresh place is dirtied without disturbance, page by page, and then
held beside the others. -/
theorem reaches_mapped {i ptr : ℕ} (hi : i < gb) (hs : Working gb i s)
    (hfit : ptr + chunk ≤ 2 ^ 64) (hfresh : ∀ q ∈ s.held, Apart q ptr) :
    ∃ m', Reaches (step gb) Undisturbed s
      { s with mem := m', held := s.held ++ [ptr], gen := nextChunk gb (i + 1) } := by
  have hg : s.gen = .map gb i := by rw [hs.gen, nextChunk, if_pos hi]
  have hlive : s.proc = .running ∧ s.parent.isDone = false := ⟨hs.running, by rw [hs.parent]; rfl⟩
  have hstep : step gb s (.child (.mmap (some ptr))) =
      some { s with mem := setRange s.mem ptr chunk 0, gen := .dirty gb i ptr 0 } := by
    rw [step, if_pos hlive, child]
    unfold mapChunk
    rw [hg]
    exact if_pos ⟨hfit, hfresh⟩
  have hpages : 0 + chunk / page * page = chunk := by norm_num [chunk_eq, page_eq]
  obtain ⟨m', hpush⟩ := reaches_pushed gb (s := { s with
    mem := setRange s.mem ptr chunk 0, gen := .dirty gb i ptr 0 }) (chunk / page) hs.parent
    hs.running rfl hpages
  exact ⟨m', (Reaches.single ⟨rfl, rfl⟩ hstep).trans hpush⟩

/-- One chunk more can be taken without disturbance, as long as the address space has room for
it. -/
theorem reaches_chunk {i : ℕ} (hi : i < gb) (hfit : (i + 2) * chunk ≤ 2 ^ 64)
    (hs : Working gb i s) : ∃ t, Reaches (step gb) Undisturbed s t ∧ Working gb (i + 1) t := by
  obtain ⟨ptr, hptr⟩ : ∃ ptr, ptr = (i + 1) * chunk := ⟨_, rfl⟩
  have hfresh : ∀ q ∈ s.held, Apart q ptr := by
    refine fun q hq => .inl ?_
    rw [hptr, Nat.add_one_mul]
    exact Nat.add_le_add_right (hs.held q hq) _
  have hfit' : ptr + chunk ≤ 2 ^ 64 := by rwa [hptr, ← Nat.add_one_mul]
  obtain ⟨m', hmap⟩ := reaches_mapped hi hs hfit' hfresh
  refine ⟨_, hmap, hs.parent, hs.running, rfl, hs.pipe, hs.stdoutOpen, fun q hq => ?_⟩
  rcases List.mem_append.mp hq with hq | hq
  · exact (hs.held q hq).trans (Nat.mul_le_mul_right _ (Nat.le_succ i))
  · exact ((List.mem_singleton.mp hq).trans hptr).le

/-- All chunks that are left can be taken without disturbance, as long as the address space has room
for them. -/
theorem reaches_all (hfit : (gb + 1) * chunk ≤ 2 ^ 64) {i : ℕ} (hi : i ≤ gb)
    (hs : Working gb i s) : ∃ t, Reaches (step gb) Undisturbed s t ∧ Working gb gb t := by
  induction hi using Nat.decreasingInduction generalizing s with
  | self => exact ⟨s, .refl s, hs⟩
  | of_succ i hi ih =>
      have hfit' : (i + 2) * chunk ≤ 2 ^ 64 :=
        (Nat.mul_le_mul_right chunk (by omega)).trans hfit
      obtain ⟨u, hu, hworking⟩ := reaches_chunk hi hfit' hs
      obtain ⟨t, ht, hend⟩ := ih hworking
      exact ⟨t, hu.trans ht, hend⟩

/-- Left alone and given its memory, the child makes `apply` return `Ok`. -/
theorem exists_ok (gb : ℕ) (hgb : gb < 2 ^ 64) (hfit : (gb + 1) * chunk ≤ 2 ^ 64) (m : Mem) :
    ∃ es t, run (step gb) (init m) es = some t ∧ t.parent = .returned (.ok ()) ∧
      (∀ e ∈ es, e.isForeign = false) ∧ ∀ e ∈ es, e.isLoss = false := by
  have hquiet : ∀ e ∈ [Event.parent true, .parent true, .child .next, .parent true],
      ∀ s, Undisturbed s e := by
    simp [Undisturbed, Event.isForeign, Event.isLoss]
  have hstart : Reaches (step gb) Undisturbed (init m) _ :=
    ⟨_, .of_labels (fun e he => hquiet e (List.mem_append_left [.parent true] he)) _,
      run_start hgb m⟩
  have hstarted : Working gb 0
      { init m with parent := .read, proc := .running, gen := nextChunk gb 0 } :=
    ⟨rfl, rfl, rfl, rfl, rfl, fun _ h => nomatch h⟩
  obtain ⟨s, hs, hworking⟩ := reaches_all hfit (Nat.zero_le gb) hstarted
  have hg : s.gen = .announce := by rw [hworking.gen, nextChunk, if_neg (lt_irrefl gb)]
  have hend : Reaches (step gb) Undisturbed s _ :=
    ⟨_, .of_labels (fun e he => hquiet e (List.mem_append_right [.parent true, .parent true] he)) _,
      run_announce gb hworking.parent hworking.running hg hworking.pipe hworking.stdoutOpen⟩
  obtain ⟨es, hes, hrun⟩ := hstart.trans (hs.trans hend)
  have hlabels := hes.forall_labels hrun
  exact ⟨es, _, hrun, rfl, fun e he => (hlabels e he).1, fun e he => (hlabels e he).2⟩

end runs

/-- **`HOLDING` means all of it exactly without a loss.** Whatever `gb` is and however the two
processes interleave: when `apply` returns an error, its child was never started or is reaped. When
it returns `Ok`, to a child whose output is the generator's own, the child holds all `gb` GiB with
every page dirtied if and only if no `mmap` was refused and the child did not end in between. -/
theorem apply_ok_holds_all_iff (gb : UInt64) (m : Mem) (es : List Event) (s : State)
    (hrun : run (step gb.toNat) (init m) es = some s) :
    (∀ e, s.parent = .returned (.error e) → s.proc = .absent ∨ s.proc = .reaped) ∧
      ((∀ e ∈ es, e.isForeign = false) → s.parent = .returned (.ok ()) →
        (HoldsAll gb.toNat s ↔ ∀ e ∈ es, e.isLoss = false)) := by
  have hgb : gb.toNat < 2 ^ 64 := gb.toNat_lt
  constructor
  · intro e he
    have hreaped := (invariant_of_run hgb hrun).reaped
    rw [Reaped, he] at hreaped
    exact hreaped
  · intro hforeign hok
    constructor
    · intro hholds e he
      by_contra hloss
      exact not_holdsAll_of_isLoss hgb hrun he (Bool.eq_true_of_not_eq_false hloss) hholds
    · intro hloss
      exact holdsAll_of_ok hgb hrun hforeign hloss hok

/-- On a machine that has two GiB, `apply(2)` can come to `Ok` with a child that holds both. -/
theorem apply_ok_holds_all_iff_two : ∃ es s, run (step 2) (init fun _ => 0) es = some s ∧
    s.parent = .returned (.ok ()) ∧ HoldsAll 2 s := by
  obtain ⟨es, s, hrun, hok, hforeign, hloss⟩ :=
    exists_ok 2 (by decide) (by decide) fun _ => 0
  exact ⟨es, s, hrun, hok, ((apply_ok_holds_all_iff 2 _ es s hrun).2 hforeign hok).mpr hloss⟩

/-- One GiB, on a machine that has none: `apply` returns `Ok` to a child that holds nothing. -/
theorem apply_ok_holds_nothing : ∃ s, run (step 1) (init fun _ => 0)
      [.parent true, .parent true, .child .next, .child (.mmap none), .child .next, .parent true] =
        some s ∧
    s.parent = .returned (.ok ()) ∧ s.held = [] ∧ ¬ HoldsAll 1 s := by
  have hrefused : run (step 1) { init fun _ => 0 with
        parent := .read, proc := .running, gen := nextChunk 1 0 } [.child (.mmap none)] =
      some { init fun _ => 0 with parent := .read, proc := .running, gen := .announce } := rfl
  have hend := run_announce 1 (s := { init fun _ => 0 with
    parent := .read, proc := .running, gen := .announce }) rfl rfl rfl rfl rfl
  have hrun := run_append.mpr ⟨_, run_start (by decide) _, run_append.mpr ⟨_, hrefused, hend⟩⟩
  exact ⟨_, hrun, rfl, rfl, fun h => absurd h.length (by decide)⟩

end VmRatchet.Ledger.Pressure
