import Mathlib.Data.List.Forall2
import VmRatchet.Lib.Lines
import VmRatchet.Lib.Text

/-!
# The harness and its line protocol

The Swift harness is a bridge around one virtual machine: it forwards the guest's serial output to
its own standard output, puts `HARNESS <event>` lines there, and takes commands from standard
input. The Rust driver reads that output line by line through a thread and waits for the line it
needs, passing over every other.

* `eventLine`, `handle` — the Swift side.
* `readerLine`, `readLines`, `wait` — the Rust side.
* `waitAll_isSome_iff` — a sequence of waits gets through exactly if the lines it waits for come in
  that order.
-/

namespace VmRatchet.Vz

open Text Lines

/-! ## The Swift side -/

/-- An event as it is written to standard output.
Source: `harness/vz-ratchet.swift`, `emit` -/
def eventLine (event : List Char) : List Char := chars "HARNESS " ++ event ++ ['\n']

/-- What the harness does about a command line: it passes a text on to the guest, emits an event,
exits, or does nothing. -/
inductive Reaction
  /-- The text goes to the guest's serial input, with a newline. -/
  | toGuest (text : List Char)
  /-- An event is emitted. -/
  | emit (event : List Char)
  /-- The process exits, and the virtual machine with it. -/
  | exit
  /-- Nothing happens. -/
  | ignore
deriving DecidableEq, Repr

/-- The reaction to a command line; `device` says that the machine has its balloon device.
Source: `harness/vz-ratchet.swift`, `handle` -/
def handle (device : Bool) (line : List Char) : Reaction :=
  match line.dropPrefix? (chars "guest ") with
  | some text => .toGuest text
  | none =>
    match line.dropPrefix? (chars "balloon ") with
    | some number =>
      match parse 64 number with
      | some mib =>
        if device then .emit (chars "balloon-target " ++ decimal mib)
        else .emit (chars "balloon-error")
      | none => .emit (chars "balloon-error")
    | none => if line = chars "quit" then .exit else .ignore

/-! ## The Rust side -/

/-- A line, without its newline, as the reader thread passes it on.
Source: `crates/vz-ratchet/src/harness.rs`, `Harness::spawn` (`trim_end_matches('\r')`) -/
def readerLine (line : List Char) : List Char := line.rdropWhile (· == '\r')

/-- The lines the reader passes on from lines of bytes, newlines included: it stops at the first
line that is not UTF-8.
Source: `crates/vz-ratchet/src/harness.rs`, `Harness::spawn` (reader thread) -/
def readLines : List (List UInt8) → List (List Char)
  | [] => []
  | bytes :: rest =>
    match decode bytes with
    | some text => readerLine text.dropLast :: readLines rest
    | none => []

/-- Pass over lines up to the first that starts with `start`; return the rest of it and the lines
after it. `none` is a wait that goes on.
Source: `crates/vz-ratchet/src/harness.rs`, `Harness::wait` -/
def wait (start : List Char) : List (List Char) → Option (List Char × List (List Char))
  | [] => none
  | line :: later =>
    match line.dropPrefix? start with
    | some rest => some (trim rest, later)
    | none => wait start later

/-- One wait after another, each for the lines the one before has left; what is left after the
last. -/
def waitAll : List (List Char) → List (List Char) → Option (List (List Char))
  | [], lines => some lines
  | start :: starts, lines => (wait start lines).bind fun r => waitAll starts r.2

/-- The lines a sequence of waits needs, in order. -/
def Comes (starts ls : List (List Char)) : Prop :=
  ∃ found, found.Sublist ls ∧ List.Forall₂ (· <+: ·) starts found

/-- For no wait no line is needed. -/
theorem comes_nil (ls : List (List Char)) : Comes [] ls := ⟨[], List.nil_sublist ls, .nil⟩

/-- What comes after a line also comes with it. -/
theorem Comes.cons {starts ls : List (List Char)} (h : Comes starts ls) (line : List Char) :
    Comes starts (line :: ls) := by
  obtain ⟨found, hsub, hall⟩ := h
  exact ⟨found, hsub.cons line, hall⟩

/-- A line that is not needed first may be passed over. -/
theorem Comes.of_cons_of_not {start line : List Char} {starts ls : List (List Char)}
    (h : Comes (start :: starts) (line :: ls)) (hline : ¬ start <+: line) :
    Comes (start :: starts) ls := by
  obtain ⟨found, hsub, hall⟩ := h
  obtain ⟨first, found, hfirst, hfound, rfl⟩ := List.forall₂_cons_left_iff.mp hall
  rcases List.sublist_cons_iff.mp hsub with hsub | ⟨r, heq, -⟩
  · exact ⟨_, hsub, hall⟩
  · obtain ⟨rfl, rfl⟩ := List.cons.inj heq
    exact absurd hfirst hline

/-- Once the first line needed has come, the others come after it. -/
theorem Comes.tail {start line : List Char} {starts ls : List (List Char)}
    (h : Comes (start :: starts) (line :: ls)) : Comes starts ls := by
  obtain ⟨found, hsub, hall⟩ := h
  obtain ⟨first, found, -, hfound, rfl⟩ := List.forall₂_cons_left_iff.mp hall
  exact ⟨found, List.Sublist.of_cons_cons hsub, hfound⟩

/-- **Waiting.** A sequence of waits gets through exactly if the lines it needs come in that
order: to take the first line that fits never loses a later one. -/
theorem waitAll_isSome_iff {starts ls : List (List Char)} :
    (waitAll starts ls).isSome ↔ Comes starts ls := by
  induction starts generalizing ls with
  | nil => simp [waitAll, comes_nil]
  | cons start starts ih =>
      induction ls with
      | nil =>
          simp only [waitAll, wait, Option.bind_none, Option.isSome_none, Bool.false_eq_true,
            false_iff]
          rintro ⟨found, hsub, hall⟩
          rw [List.sublist_nil.mp hsub] at hall
          cases hall
      | cons line ls ihls =>
          cases hline : line.dropPrefix? start with
          | some rest =>
              have hstart : start <+: line := ⟨rest, (dropPrefix?_eq_some.mp hline).symm⟩
              simp only [waitAll, wait, hline, Option.bind_some, ih]
              constructor
              · rintro ⟨found, hsub, hall⟩
                exact ⟨line :: found, hsub.cons_cons line, .cons hstart hall⟩
              · exact Comes.tail
          | none =>
              have hstart := dropPrefix?_eq_none.mp hline
              have hskip : waitAll (start :: starts) (line :: ls) =
                  waitAll (start :: starts) ls := by
                simp only [waitAll, wait, hline]
              rw [hskip, ihls]
              exact ⟨fun h => h.cons line, fun h => h.of_cons_of_not hstart⟩

end VmRatchet.Vz
