import VmRatchet.Vz.Harness

/-!
# The boot handshake on a shared output

Two writers share the harness's standard output: the readability handler writes the guest's serial
bytes in whatever chunks they arrive, and `emit` writes event lines in between. Nothing makes an
event wait for the end of a guest line, although the harness promises `HARNESS <event>` *lines*.
The driver's reader cuts the bytes into lines, and its waits throw away every line that is not the
one they are waiting for.

Bytes carry the name of their writer here. The reader does not see the names; they only serve to
say that a line is somebody's own.

* `Session` — a guest text with the line `RATCHET READY`, and any way to write it and the two
  events to the shared output.
* `Delivered` — every event and every complete guest line is received as a line of its own.
* `Aligned` — no event is written while a guest line is unfinished.
* `delivered_iff_aligned` — the one is the other.
* `handshake_iff` — the handshake works exactly if, moreover, the lines arrive in the order in
  which the driver waits for them.
-/

namespace VmRatchet.Vz

open Text Lines

/-! ## The shared output -/

/-- Who wrote a byte. -/
inductive Writer
  | guest
  | harness
deriving DecidableEq, Repr

/-- One write to standard output. -/
inductive Write
  /-- A chunk of serial bytes, verbatim.
  Source: `harness/vz-ratchet.swift`, `readabilityHandler` -/
  | chunk (bytes : List UInt8)
  /-- An event.
  Source: `harness/vz-ratchet.swift`, `emit` -/
  | event (text : List Char)

/-- Bytes, marked as the guest's. -/
def ofGuest (bytes : List UInt8) : List (Writer × UInt8) := bytes.map (.guest, ·)

/-- The bytes of an event line with its newline, marked as the harness's. -/
def ofEvent (text : List Char) : List (Writer × UInt8) :=
  (encode (eventLine text)).map (.harness, ·)

/-- The bytes of a write, each with its writer. -/
def Write.bytes : Write → List (Writer × UInt8)
  | .chunk bytes => ofGuest bytes
  | .event text => ofEvent text

/-- Everything that was written to standard output, in order, each byte with its writer. -/
def stdout (ws : List Write) : List (Writer × UInt8) := ws.flatMap Write.bytes

/-- The serial bytes among the writes: what the guest has sent, without the events. -/
def serial : List Write → List UInt8
  | [] => []
  | .chunk bytes :: ws => bytes ++ serial ws
  | .event _ :: ws => serial ws

/-- The events among the writes, in order. -/
def events : List Write → List (List Char)
  | [] => []
  | .chunk _ :: ws => events ws
  | .event text :: ws => text :: events ws

/-- A newline, whoever wrote it. -/
def isNewline (x : Writer × UInt8) : Bool := isNewlineByte x.2

/-- The line is UTF-8. -/
def isText (line : List (Writer × UInt8)) : Bool := (decode (line.map Prod.snd)).isSome

/-- The text of a line as the reader passes it on. -/
def textOf (line : List (Writer × UInt8)) : List Char :=
  readerLine ((decode (line.map Prod.snd)).getD []).dropLast

/-- The lines the reader takes in: all complete lines up to the first that is not UTF-8. -/
def received (ws : List Write) : List (List (Writer × UInt8)) :=
  (complete isNewline [] (stdout ws)).takeWhile isText

/-- The lines the driver waits on: what the reader makes of the bytes alone. -/
def driverLines (ws : List Write) : List (List Char) :=
  readLines (complete isNewlineByte [] ((stdout ws).map Prod.snd))

/-- The driver's lines are the texts of the lines the reader takes in. -/
theorem driverLines_eq (ws : List Write) : driverLines ws = (received ws).map textOf := by
  have hlines : complete isNewlineByte [] ((stdout ws).map Prod.snd)
      = (complete isNewline [] (stdout ws)).map (List.map Prod.snd) :=
    complete_map Prod.snd (fun _ => rfl) [] (stdout ws)
  rw [driverLines, hlines, received]
  induction complete isNewline [] (stdout ws) with
  | nil => rfl
  | cons line lines ih =>
      rw [List.map_cons, readLines]
      cases hline : decode (line.map Prod.snd) with
      | none => rw [List.takeWhile_cons_of_neg (by simp [isText, hline]), List.map_nil]
      | some text =>
          rw [List.takeWhile_cons_of_pos (by simp [isText, hline]), List.map_cons, ← ih]
          simp [textOf, hline]

/-! ## What should arrive -/

/-- The line was written by one writer alone. -/
def own (w : Writer) (line : List (Writer × UInt8)) : Bool := line.all (·.1 = w)

/-- Every complete guest line and every event is received as a line of its own, those of each
writer in order and nothing else of theirs. -/
def Delivered (ws : List Write) : Prop :=
  (received ws).filter (own .guest) = (complete isNewlineByte [] (serial ws)).map ofGuest
    ∧ (received ws).filter (own .harness) = (events ws).map ofEvent

/-- No event is written while a guest line is unfinished. -/
def Aligned : List UInt8 → List Write → Prop
  | _, [] => True
  | cur, .chunk bytes :: ws => Aligned (pending isNewlineByte cur bytes) ws
  | cur, .event _ :: ws => cur = [] ∧ Aligned cur ws

/-- The complete guest lines and the events, each at the moment it is complete. -/
def arrivals : List UInt8 → List Write → List (List (Writer × UInt8))
  | _, [] => []
  | cur, .chunk bytes :: ws =>
    (complete isNewlineByte cur bytes).map ofGuest
      ++ arrivals (pending isNewlineByte cur bytes) ws
  | cur, .event text :: ws => ofEvent text :: arrivals cur ws

section Writes

variable {ws : List Write} {cur : List UInt8}

/-- An event whose text has no newline is one complete line, with whatever was held in front of it,
and leaves nothing held. -/
theorem complete_event {text : List Char} (htext : '\n' ∉ text) (held : List (Writer × UInt8)) :
    complete isNewline held (ofEvent text) = [held ++ ofEvent text]
      ∧ pending isNewline held (ofEvent text) = [] := by
  have hbytes : ofEvent text
      = (encode (chars "HARNESS " ++ text)).map (.harness, ·) ++ [(.harness, 10)] := by
    rw [ofEvent, eventLine, encode_append, encode_newline, List.map_append]
    rfl
  have hbody : '\n' ∉ chars "HARNESS " ++ text := by
    intro h
    rcases List.mem_append.mp h with h | h
    · exact absurd h (by decide)
    · exact htext h
  rw [hbytes]
  refine complete_pending_of_line ?_ rfl held
  intro x hx
  obtain ⟨b, hb, rfl⟩ := List.mem_map.mp hx
  exact newline_not_mem_encode hbody b hb

/-- A chunk of the guest completes exactly the guest's own lines, and what is held afterwards is the
guest's. -/
theorem complete_chunk (bytes : List UInt8) :
    complete isNewline (ofGuest cur) (ofGuest bytes)
        = (complete isNewlineByte cur bytes).map ofGuest
      ∧ pending isNewline (ofGuest cur) (ofGuest bytes)
        = ofGuest (pending isNewlineByte cur bytes) :=
  ⟨complete_map _ (fun _ => rfl) cur bytes, pending_map _ (fun _ => rfl) cur bytes⟩

/-- Aligned writes are received as they arrive: every complete line is a guest line or an event, in
their order. -/
theorem complete_of_aligned (hev : ∀ e ∈ events ws, '\n' ∉ e) (h : Aligned cur ws) :
    complete isNewline (ofGuest cur) (stdout ws) = arrivals cur ws := by
  induction ws generalizing cur with
  | nil => rfl
  | cons w ws ih =>
      rw [stdout, List.flatMap_cons, complete_append]
      cases w with
      | chunk bytes =>
          rw [Write.bytes, (complete_chunk bytes).1, (complete_chunk bytes).2]
          exact congrArg _ (ih hev h)
      | event text =>
          obtain ⟨rfl, h⟩ := h
          obtain ⟨hone, hnone⟩ := complete_event (hev text List.mem_cons_self) (ofGuest [])
          rw [Write.bytes, hone, hnone]
          exact congrArg _ (ih (fun e he => hev e (List.mem_cons_of_mem _ he)) h)

/-- A line that arrives is a guest line or an event. -/
theorem mem_arrivals {l : List (Writer × UInt8)} (h : l ∈ arrivals cur ws) :
    (∃ g ∈ complete isNewlineByte cur (serial ws), l = ofGuest g)
      ∨ ∃ e ∈ events ws, l = ofEvent e := by
  induction ws generalizing cur with
  | nil => cases h
  | cons w ws ih =>
      cases w with
      | chunk bytes =>
          rw [serial, complete_append]
          rcases List.mem_append.mp h with h | h
          · obtain ⟨g, hg, rfl⟩ := List.mem_map.mp h
            exact .inl ⟨g, List.mem_append_left _ hg, rfl⟩
          · rcases ih h with ⟨g, hg, rfl⟩ | hev
            · exact .inl ⟨g, List.mem_append_right _ hg, rfl⟩
            · exact .inr hev
      | event text =>
          rcases List.mem_cons.mp h with rfl | h
          · exact .inr ⟨text, List.mem_cons_self, rfl⟩
          · rcases ih h with hg | ⟨e, he, rfl⟩
            · exact .inl hg
            · exact .inr ⟨e, List.mem_cons_of_mem _ he, rfl⟩

end Writes

/-! ## Aligned writes are delivered -/

section Delivery

variable {ws : List Write} {cur : List UInt8}

/-- A guest line is the guest's own and not the harness's. -/
theorem own_ofGuest {g : List UInt8} (hg : g ≠ []) :
    own .guest (ofGuest g) = true ∧ own .harness (ofGuest g) = false := by
  obtain ⟨b, g, rfl⟩ := List.exists_cons_of_ne_nil hg
  simp [own, ofGuest]

/-- The encoded event is not empty, since its newline is there. -/
theorem ofEvent_ne_nil (text : List Char) : ofEvent text ≠ [] := by
  rw [ofEvent, eventLine, encode_append, encode_newline]
  simp

/-- An event is the harness's own and not the guest's. -/
theorem own_ofEvent (text : List Char) :
    own .harness (ofEvent text) = true ∧ own .guest (ofEvent text) = false := by
  constructor
  · simp [own, ofEvent]
  · obtain ⟨x, hx⟩ := List.exists_mem_of_ne_nil _ (ofEvent_ne_nil text)
    rw [own, List.all_eq_false]
    refine ⟨x, hx, ?_⟩
    obtain ⟨b, -, rfl⟩ := List.mem_map.mp hx
    simp

/-- A complete line is not empty, since its newline is there. -/
theorem ne_nil_of_mem_complete {s g : List UInt8} (h : g ∈ complete isNewlineByte cur s) :
    g ≠ [] := by
  obtain ⟨body, x, rfl, -⟩ := exists_of_mem_complete h
  simp

/-- Complete guest lines belong to the guest, all of them, and none of them to the harness. -/
theorem filter_own_guestLines (cur s : List UInt8) :
    ((complete isNewlineByte cur s).map ofGuest).filter (own .guest)
        = (complete isNewlineByte cur s).map ofGuest
      ∧ ((complete isNewlineByte cur s).map ofGuest).filter (own .harness) = [] := by
  constructor
  · rw [List.filter_eq_self]
    intro l hl
    obtain ⟨g, hg, rfl⟩ := List.mem_map.mp hl
    exact (own_ofGuest (ne_nil_of_mem_complete hg)).1
  · rw [List.filter_eq_nil_iff]
    intro l hl
    obtain ⟨g, hg, rfl⟩ := List.mem_map.mp hl
    simp [(own_ofGuest (ne_nil_of_mem_complete hg)).2]

/-- Of what arrives, the guest's own lines are its complete lines, and the harness's are the
events. -/
theorem filter_own_arrivals (cur : List UInt8) (ws : List Write) :
    (arrivals cur ws).filter (own .guest)
        = (complete isNewlineByte cur (serial ws)).map ofGuest
      ∧ (arrivals cur ws).filter (own .harness) = (events ws).map ofEvent := by
  induction ws generalizing cur with
  | nil => exact ⟨rfl, rfl⟩
  | cons w ws ih =>
      cases w with
      | chunk bytes =>
          obtain ⟨hguest, hharness⟩ := filter_own_guestLines cur bytes
          obtain ⟨ihg, ihh⟩ := ih (pending isNewlineByte cur bytes)
          constructor
          · rw [arrivals, List.filter_append, hguest, ihg, serial, complete_append,
              List.map_append]
          · rw [arrivals, List.filter_append, hharness, ihh, List.nil_append, events]
      | event text =>
          obtain ⟨hharness, hguest⟩ := own_ofEvent text
          obtain ⟨ihg, ihh⟩ := ih cur
          constructor
          · rw [arrivals, List.filter_cons_of_neg (by simp [hguest]), ihg, serial]
          · rw [arrivals, List.filter_cons_of_pos hharness, ihh, events, List.map_cons]

/-- Whatever arrives of a guest that writes UTF-8 is UTF-8. -/
theorem isText_of_mem_arrivals {g : List Char} (hg : serial ws = encode g)
    {l : List (Writer × UInt8)} (hl : l ∈ arrivals [] ws) : isText l = true := by
  have hsnd : ∀ (w : Writer) (bytes : List UInt8),
      (bytes.map (Prod.mk w)).map Prod.snd = bytes := by
    intro w bytes
    simp [Function.comp_def]
  rcases mem_arrivals hl with ⟨b, hb, rfl⟩ | ⟨e, -, rfl⟩
  · rw [hg] at hb
    rw [show complete isNewlineByte [] (encode g) = _ from complete_encode [] g] at hb
    obtain ⟨t, -, rfl⟩ := List.mem_map.mp hb
    rw [isText, ofGuest, hsnd, decode_encode]
    rfl
  · rw [isText, ofEvent, hsnd, decode_encode]
    rfl

/-- Of aligned writes by a guest that writes text, everything is received as it arrives, to the
end. -/
theorem received_of_aligned {g : List Char} (hg : serial ws = encode g)
    (hev : ∀ e ∈ events ws, '\n' ∉ e) (h : Aligned [] ws) : received ws = arrivals [] ws := by
  have hlines : complete isNewline [] (stdout ws) = arrivals [] ws := complete_of_aligned hev h
  rw [received, hlines, List.takeWhile_eq_self_iff.mpr]
  exact fun l hl => isText_of_mem_arrivals hg hl

/-! ## Delivered writes are aligned -/

/-- The output has as many newlines as there are complete guest lines and events. -/
theorem countP_stdout (hev : ∀ e ∈ events ws, '\n' ∉ e) :
    (stdout ws).countP isNewline = (serial ws).countP isNewlineByte + (events ws).length := by
  induction ws with
  | nil => rfl
  | cons w ws ih =>
      rw [stdout, List.flatMap_cons, List.countP_append]
      cases w with
      | chunk bytes =>
          have hchunk : (ofGuest bytes).countP isNewline = bytes.countP isNewlineByte := by
            rw [ofGuest, List.countP_map]
            rfl
          rw [Write.bytes, hchunk, serial, List.countP_append, events]
          have := ih hev
          rw [stdout] at this
          omega
      | event text =>
          have hone : (ofEvent text).countP isNewline = 1 := by
            rw [← length_complete [], (complete_event (hev text List.mem_cons_self) []).1]
            rfl
          rw [Write.bytes, hone, serial, events, List.length_cons]
          have := ih (fun e he => hev e (List.mem_cons_of_mem _ he))
          rw [stdout] at this
          omega

/-- Two exclusive properties account for at most the length of a list. -/
theorem length_filter_add_le {α : Type} {p q : α → Bool} {l : List α}
    (hpq : ∀ x ∈ l, ¬ (p x = true ∧ q x = true)) :
    (l.filter p).length + (l.filter q).length ≤ l.length := by
  induction l with
  | nil => simp
  | cons x l ih =>
      have hrest := ih fun y hy => hpq y (List.mem_cons_of_mem _ hy)
      have hhead := hpq x List.mem_cons_self
      cases hp : p x <;> cases hq : q x <;> simp [hp, hq] at hhead ⊢ <;> omega

/-- If they account for all of it, every member has one of them. -/
theorem forall_or_of_length_le {α : Type} {p q : α → Bool} {l : List α}
    (hpq : ∀ x ∈ l, ¬ (p x = true ∧ q x = true))
    (hlen : l.length ≤ (l.filter p).length + (l.filter q).length) :
    ∀ x ∈ l, p x = true ∨ q x = true := by
  induction l with
  | nil => simp
  | cons x l ih =>
      have hrest := length_filter_add_le fun y hy => hpq y (List.mem_cons_of_mem _ hy)
      have htail := ih fun y hy => hpq y (List.mem_cons_of_mem _ hy)
      have hhead := hpq x List.mem_cons_self
      cases hp : p x <;> cases hq : q x <;> simp [hp, hq] at hhead hlen ⊢
      · omega
      · exact htail (by omega)
      · exact htail (by omega)

/-- If every line has one writer, no event met an unfinished guest line. By induction on the writes:
an event that meets bytes of the guest makes one line with them, which has two writers. -/
theorem aligned_of_forall_own (cur : List UInt8) (hev : ∀ e ∈ events ws, '\n' ∉ e)
    (h : ∀ l ∈ complete isNewline (ofGuest cur) (stdout ws),
      own .guest l = true ∨ own .harness l = true) : Aligned cur ws := by
  induction ws generalizing cur with
  | nil => trivial
  | cons w ws ih =>
      rw [stdout, List.flatMap_cons, complete_append] at h
      cases w with
      | chunk bytes =>
          rw [Write.bytes, (complete_chunk bytes).2] at h
          exact ih _ hev fun l hl => h l (List.mem_append_right _ hl)
      | event text =>
          obtain ⟨hone, hnone⟩ := complete_event (hev text List.mem_cons_self) (ofGuest cur)
          rw [Write.bytes, hone, hnone] at h
          have hcur : cur = [] := by
            rcases h _ List.mem_cons_self with hown | hown
            · rw [own, List.all_append, Bool.and_eq_true] at hown
              have := (own_ofEvent text).2
              rw [own] at this
              rw [this] at hown
              exact absurd hown.2 (by simp)
            · rw [own, List.all_append, Bool.and_eq_true] at hown
              by_contra hne
              have := (own_ofGuest hne).2
              rw [own] at this
              rw [this] at hown
              exact absurd hown.1 (by simp)
          subst hcur
          refine ⟨rfl, ih [] (fun e he => hev e (List.mem_cons_of_mem _ he)) ?_⟩
          exact fun l hl => h l (List.mem_cons_of_mem _ hl)

/-- No complete line has two owners, since its newline has one writer. -/
theorem not_own_both {held s l : List (Writer × UInt8)} (hl : l ∈ complete isNewline held s) :
    ¬ (own .guest l = true ∧ own .harness l = true) := by
  rintro ⟨hg, hh⟩
  obtain ⟨body, x, rfl, -⟩ := exists_of_mem_complete hl
  rw [own, List.all_eq_true] at hg hh
  have h₁ : x.1 = .guest := by simpa using hg x (by simp)
  have h₂ : x.1 = .harness := by simpa using hh x (by simp)
  exact absurd (h₁.symm.trans h₂) (by simp)

/-- **Delivery.** Every complete guest line and every event is received as a line of its own
exactly if no event is written while a guest line is unfinished. -/
theorem delivered_iff_aligned {g : List Char} (hg : serial ws = encode g)
    (hev : ∀ e ∈ events ws, '\n' ∉ e) : Delivered ws ↔ Aligned [] ws := by
  constructor
  · rintro ⟨hguest, hharness⟩
    have htotal : (complete isNewline [] (stdout ws)).length
        = ((received ws).filter (own .guest)).length
          + ((received ws).filter (own .harness)).length := by
      rw [hguest, hharness, List.length_map, List.length_map, length_complete, length_complete,
        countP_stdout hev]
    have hpre : received ws <+: complete isNewline [] (stdout ws) := List.takeWhile_prefix _
    have hboth : ∀ l ∈ received ws, ¬ (own .guest l = true ∧ own .harness l = true) :=
      fun l hl => not_own_both (hpre.subset hl)
    have hown := forall_or_of_length_le hboth (htotal ▸ hpre.length_le)
    -- The lines received account for all of them, so the reader stopped nowhere.
    have hall : received ws = complete isNewline [] (stdout ws) := by
      refine hpre.eq_of_length (le_antisymm hpre.length_le ?_)
      rw [htotal]
      exact length_filter_add_le hboth
    refine aligned_of_forall_own [] hev ?_
    intro l hl
    exact hown l (hall ▸ hl)
  · intro h
    rw [Delivered, received_of_aligned hg hev h]
    exact filter_own_arrivals [] ws

end Delivery

/-! ## The handshake -/

/-- What the driver waits for while the machine boots and when it asks for the balloon.
Source: `crates/vz-ratchet/src/main.rs`, `main` -/
def bootWaits : List (List Char) :=
  [chars "HARNESS started", chars "RATCHET READY", chars "HARNESS balloon-target"]

/-- A guest that gets ready, and a harness that writes its bytes in some chunks and the two events
at some points in between. -/
structure Session where
  /-- The guest's serial output. -/
  guest : List Char
  /-- It contains the complete line `RATCHET READY`. -/
  ready : ∃ l ∈ complete isNewlineChar [] guest, readerLine l.dropLast = chars "RATCHET READY"
  /-- The balloon target, in MiB. -/
  target : ℕ
  /-- The writes to standard output. -/
  writes : List Write
  /-- The chunks are the serial output. -/
  serial_eq : serial writes = encode guest
  /-- The events are the two events, in this order. -/
  events_eq : events writes = [chars "started", chars "balloon-target " ++ decimal target]

/-- Every line reaches the reader as a line of its own, and every wait finds its line. -/
def Session.Succeeds (s : Session) : Prop :=
  Delivered s.writes ∧ (waitAll bootWaits (driverLines s.writes)).isSome

/-- The texts of the complete guest lines and the events, in the order of their arrival. -/
def Session.arrivalTexts (s : Session) : List (List Char) := (arrivals [] s.writes).map textOf

/-- The events of a session have no newline. -/
theorem Session.newline_not_mem (s : Session) : ∀ e ∈ events s.writes, '\n' ∉ e := by
  intro e he hmem
  rw [s.events_eq] at he
  rcases List.mem_cons.mp he with rfl | he
  · exact absurd hmem (by decide)
  · rw [List.mem_singleton.mp he] at hmem
    rcases List.mem_append.mp hmem with h | h
    · exact absurd h (by decide)
    · exact absurd (isWhitespace_of_mem_decimal h) (by decide)

/-- **The handshake.** Every line is received as a line of its own and every wait finds its line,
exactly if no event is written while a guest line is unfinished and a line `HARNESS started`
arrives before a line `RATCHET READY` that arrives before a line `HARNESS balloon-target`. -/
theorem handshake_iff (s : Session) :
    s.Succeeds ↔ Aligned [] s.writes ∧ Comes bootWaits s.arrivalTexts := by
  rw [Session.Succeeds, delivered_iff_aligned s.serial_eq s.newline_not_mem, waitAll_isSome_iff]
  refine and_congr_right fun h => ?_
  rw [driverLines_eq, received_of_aligned s.serial_eq s.newline_not_mem h]
  rfl

/-! ## A session that succeeds, and two that fail -/

/-- The machine is reported started before the guest writes; the chunks are not the lines. -/
def orderlySession : Session where
  guest := chars "booting\nRATCHET READY\n"
  ready := ⟨chars "RATCHET READY\n", by decide, by decide⟩
  target := 2048
  writes := [.event (chars "started"), .chunk (encode (chars "booting\nRATCHET")),
    .chunk (encode (chars " READY\n")), .event (chars "balloon-target 2048")]
  serial_eq := by decide
  events_eq := by decide

/-- The text of an encoded line is the line as the driver reads it. -/
theorem textOf_encode (w : Writer) (text : List Char) :
    textOf ((encode text).map (Prod.mk w)) = readerLine text.dropLast := by
  have hsnd : ((encode text).map (Prod.mk w)).map Prod.snd = encode text := by
    simp [Function.comp_def]
  rw [textOf, hsnd, decode_encode, Option.getD_some]

/-- The events of this session fall between the guest's lines and come in the order in which they
are waited for: the handshake succeeds. -/
theorem handshake_orderly : orderlySession.Succeeds := by
  have haligned : pending isNewlineByte (pending isNewlineByte []
      (encode (chars "booting\nRATCHET"))) (encode (chars " READY\n")) = [] := by decide
  have harrivals : arrivals [] orderlySession.writes
      = [(encode (chars "HARNESS started\n")).map (Prod.mk .harness),
        (encode (chars "booting\n")).map (Prod.mk .guest),
        (encode (chars "RATCHET READY\n")).map (Prod.mk .guest),
        (encode (chars "HARNESS balloon-target 2048\n")).map (Prod.mk .harness)] := by
    decide
  refine (handshake_iff orderlySession).mpr ⟨⟨rfl, haligned, trivial⟩, ?_⟩
  rw [Session.arrivalTexts, harrivals]
  simp only [List.map_cons, List.map_nil, textOf_encode]
  exact waitAll_isSome_iff.mp (by decide)

/-- The machine is reported started while the guest is in the middle of a line. -/
def gluedSession : Session where
  guest := chars "booting\nRATCHET READY\n"
  ready := ⟨chars "RATCHET READY\n", by decide, by decide⟩
  target := 2048
  writes := [.chunk (encode (chars "boot")), .event (chars "started"),
    .chunk (encode (chars "ing\nRATCHET READY\n")), .event (chars "balloon-target 2048")]
  serial_eq := by decide
  events_eq := by decide

/-- The guest is ready before the machine is reported started. -/
def earlySession : Session where
  guest := chars "RATCHET READY\n"
  ready := ⟨chars "RATCHET READY\n", by decide, by decide⟩
  target := 2048
  writes := [.chunk (encode (chars "RATCHET READY\n")), .event (chars "started"),
    .event (chars "balloon-target 2048")]
  serial_eq := by decide
  events_eq := by decide

/-- The handshake does not survive every interleaving: an event written into a guest line becomes
part of that line, and a `RATCHET READY` that comes before `HARNESS started` is thrown away. -/
theorem handshake_fails : ¬ gluedSession.Succeeds ∧ ¬ earlySession.Succeeds := by
  constructor
  · intro h
    have haligned : pending isNewlineByte [] (encode (chars "boot")) = [] :=
      ((delivered_iff_aligned gluedSession.serial_eq gluedSession.newline_not_mem).mp h.1).1
    exact absurd haligned (by decide)
  · rintro ⟨hdelivered, hwaits⟩
    have haligned :=
      (delivered_iff_aligned earlySession.serial_eq earlySession.newline_not_mem).mp hdelivered
    have harrivals : arrivals [] earlySession.writes
        = [(encode (chars "RATCHET READY\n")).map (Prod.mk .guest),
          (encode (chars "HARNESS started\n")).map (Prod.mk .harness),
          (encode (chars "HARNESS balloon-target 2048\n")).map (Prod.mk .harness)] := by
      decide
    rw [driverLines_eq, received_of_aligned earlySession.serial_eq earlySession.newline_not_mem
      haligned, harrivals] at hwaits
    simp only [List.map_cons, List.map_nil, textOf_encode] at hwaits
    exact absurd hwaits (by decide)

end VmRatchet.Vz
