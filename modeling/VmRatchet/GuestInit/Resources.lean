import Mathlib.Data.List.Nodup
import VmRatchet.GuestInit.Server

/-!
# The children and mappings of the command server

The server keeps two lists, the kernel keeps books of its own: which children of the server have
not been reaped, and which mappings are live. A violation of the one by the other would signal a
process the server never forked, or leak memory into the footprint that is being measured. Here
the server runs against the kernel's books, for every sequence of lines on which it stays alive
and with children that may exit at any time by themselves.

* `Granted` — what the kernel promises: a fresh pid is not the pid of a child that is still
  unreaped, and a fresh mapping is not empty and does not overlap a live one.
* `Proper` — what the server owes: it signals and waits for its own unreaped children only, and
  unmaps and dirties live mappings only.
* `Books` — the two sides agree, and the children leave in the order in which they came.
* `exec_books` — one branch keeps the books.
* `server_resources_accounted` — the books, the replies and the frame conditions over whole runs.
-/

namespace VmRatchet.GuestInit

open Text Transition

/-! ## The kernel's books -/

/-- Two mappings that share no byte. -/
def Apart (m m' : Mapping) : Prop := m.ptr + m.size ≤ m'.ptr ∨ m'.ptr + m'.size ≤ m.ptr

/-- What the kernel knows about the server: the children that have not been reaped, the dead among
them, and the mappings that are live. -/
structure Kernel where
  /-- The children that have not been reaped, oldest first. -/
  children : List ℕ
  /-- Those of them that have been killed or have exited, and stay as zombies. -/
  zombies : List ℕ
  /-- The live mappings of `touch`. -/
  live : List Mapping

/-- The books before the first line: no child and no mapping. -/
def Kernel.init : Kernel := ⟨[], [], []⟩

/-- How the kernel books an event: a fork adds a child, a kill makes it a zombie, a wait removes it,
and `mmap` and `munmap` add and remove a mapping. -/
def Kernel.step (k : Kernel) : Event → Option Kernel
  | .mmap m => some { k with live := k.live ++ [m] }
  | .dirty _ => some k
  | .munmap m => some { k with live := k.live.erase m }
  | .fork pid _ => some { k with children := k.children ++ [pid] }
  | .kill pid => some { k with zombies := pid :: k.zombies }
  | .waitpid pid => some { k with
      children := k.children.erase pid, zombies := k.zombies.filter (· ≠ pid) }

/-- What the kernel promises of its answers: a fresh mapping is not empty and overlaps no live one,
and a fresh pid is not the pid of an unreaped child. -/
def Granted (k : Kernel) : Event → Prop
  | .mmap m => m.size ≠ 0 ∧ ∀ m' ∈ k.live, Apart m' m
  | .fork pid _ => pid ∉ k.children
  | .dirty _ | .munmap _ | .kill _ | .waitpid _ => True

/-- What the server owes the kernel. A `waitpid` for a zombie returns at once. -/
def Proper (k : Kernel) : Event → Prop
  | .dirty m | .munmap m => m ∈ k.live
  | .kill pid => pid ∈ k.children
  | .waitpid pid => pid ∈ k.children ∧ pid ∈ k.zombies
  | .mmap _ | .fork _ _ => True

/-! ## What happened -/

/-- The pids of the children forked, in order. -/
def forked (log : List Event) : List ℕ :=
  log.filterMap fun | .fork pid _ => some pid | _ => none

/-- The pids killed, in order. -/
def killed (log : List Event) : List ℕ :=
  log.filterMap fun | .kill pid => some pid | _ => none

/-- The pids reaped, in order. -/
def reaped (log : List Event) : List ℕ :=
  log.filterMap fun | .waitpid pid => some pid | _ => none

/-- The server, the kernel's books, and what has happened between them. -/
structure System where
  /-- The lists of the server. -/
  server : Server
  /-- The books of the kernel. -/
  kernel : Kernel
  /-- Everything the server has done. -/
  log : List Event

/-- Before the first line: empty lists, empty books, and nothing done. -/
def System.init : System := ⟨Server.init, Kernel.init, []⟩

/-- What can happen next: a line is served, or a child exits. -/
inductive Move
  /-- The server serves a line. -/
  | serve (r : Request)
  /-- A child exits by itself. -/
  | exit (pid : ℕ)

/-- One move: the server serves a line and the kernel books every event of it in order, or a child
becomes a zombie by itself. A panic ends the run. -/
def System.step (σ : System) : Move → Option System
  | .serve r =>
    match GuestInit.serve r.os σ.server r.line with
    | .error _ => none
    | .ok turn => (run Kernel.step σ.kernel turn.events).map fun k =>
        ⟨turn.server, k, σ.log ++ turn.events⟩
  | .exit pid => some { σ with kernel := { σ.kernel with zombies := pid :: σ.kernel.zombies } }

/-- The kernel keeps its promises during a move: at each event of the turn, by the books as they
stand there. -/
def GrantedMove (σ : System) : Move → Prop
  | .serve r => ∀ turn, GuestInit.serve r.os σ.server r.line = .ok turn →
      Along Kernel.step Granted σ.kernel turn.events
  | .exit _ => True

/-- The two sides agree: the server's lists are exactly the kernel's unreaped children and live
mappings, and a pid stands once in them. -/
structure Agree (s : Server) (k : Kernel) : Prop where
  /-- The fleet is what has not been reaped. -/
  children : k.children = s.fleet
  /-- What is held is what is live. -/
  live : k.live = s.held
  /-- The pids of the fleet are distinct. -/
  fleet_nodup : s.fleet.Nodup
  /-- The mappings held are disjoint. -/
  held_apart : s.held.Pairwise Apart
  /-- And not empty. -/
  held_pos : ∀ m ∈ s.held, m.size ≠ 0

/-- The two sides agree, and the children leave in the order in which they came. -/
structure Books (σ : System) : Prop where
  /-- The two sides agree. -/
  agree : Agree σ.server σ.kernel
  /-- What was forked is what was reaped, and then the fleet. -/
  ledger : forked σ.log = reaped σ.log ++ σ.server.fleet
  /-- Killed and reaped are the same children. -/
  killed_eq : killed σ.log = reaped σ.log

/-! ## The kernel's side of a branch -/

section Kernel

variable {k : Kernel}

/-- Forks that succeed add the new children, and they are distinct from the old ones. -/
theorem run_fork {pids : List ℕ} {mib : ℕ} (hnodup : k.children.Nodup)
    (h : Along Kernel.step Granted k (pids.map (.fork · mib))) :
    run Kernel.step k (pids.map (.fork · mib))
        = some { k with children := k.children ++ pids }
      ∧ (k.children ++ pids).Nodup
      ∧ Along Kernel.step Proper k (pids.map (.fork · mib)) := by
  induction pids generalizing k with
  | nil => exact ⟨by simp, by simpa using hnodup, trivial⟩
  | cons pid pids ih =>
      have hnodup' : (k.children ++ [pid]).Nodup :=
        List.nodup_append.mpr ⟨hnodup, by simp, by
          rintro a ha b hb rfl
          exact h.1 (List.mem_singleton.mp hb ▸ ha)⟩
      obtain ⟨hrun, hall, hproper⟩ :=
        ih (k := { k with children := k.children ++ [pid] }) hnodup' (h.2 _ rfl)
      rw [List.append_assoc] at hall
      refine ⟨run_cons_eq_some.mpr ⟨_, rfl, ?_⟩, hall, trivial, ?_⟩
      · simpa using hrun
      · intro t ht
        cases ht
        exact hproper

/-- Stopping the oldest children, each with `kill` and then `waitpid`, leaves exactly the others,
whether or not they had exited by themselves, and each call goes to a child that the server has at
that moment. -/
theorem run_stop {pids rest : List ℕ} (hk : k.children = pids ++ rest) :
    (∃ zs, run Kernel.step k (pids.flatMap fun pid => [.kill pid, .waitpid pid])
        = some { k with children := rest, zombies := zs })
      ∧ Along Kernel.step Proper k (pids.flatMap fun pid => [.kill pid, .waitpid pid]) := by
  induction pids generalizing k with
  | nil =>
      rw [List.nil_append] at hk
      subst hk
      exact ⟨⟨k.zombies, rfl⟩, trivial⟩
  | cons pid pids ih =>
      have hmem : pid ∈ k.children := hk ▸ List.mem_cons_self
      let k' : Kernel := { k with
        children := pids ++ rest, zombies := (pid :: k.zombies).filter (· ≠ pid) }
      have hwait : Kernel.step { k with zombies := pid :: k.zombies } (.waitpid pid)
          = some k' := by
        simp [Kernel.step, k', hk]
      obtain ⟨⟨zs, hrun⟩, hproper⟩ := ih (k := k') rfl
      rw [List.flatMap_cons]
      refine ⟨⟨zs, ?_⟩, hmem, ?_⟩
      · exact run_cons_eq_some.mpr ⟨_, rfl, run_cons_eq_some.mpr ⟨_, hwait, hrun⟩⟩
      · intro t ht
        cases ht
        refine ⟨⟨hmem, List.mem_cons_self⟩, fun u hu => ?_⟩
        rw [hwait, Option.some.injEq] at hu
        exact hu ▸ hproper

/-- Unmapping every live mapping, in the order in which they were mapped, leaves none live. -/
theorem run_munmap {ms : List Mapping} (hk : k.live = ms) :
    run Kernel.step k (ms.map .munmap) = some { k with live := [] }
      ∧ Along Kernel.step Proper k (ms.map .munmap) := by
  induction ms generalizing k with
  | nil =>
      have heq : k = { k with live := [] } := by rw [← hk]
      exact ⟨congrArg some heq, trivial⟩
  | cons m ms ih =>
      have herase : Kernel.step k (.munmap m) = some { k with live := ms } := by
        simp [Kernel.step, hk]
      obtain ⟨hrun, hproper⟩ := ih (k := { k with live := ms }) rfl
      have hmem : m ∈ k.live := hk ▸ List.mem_cons_self
      refine ⟨run_cons_eq_some.mpr ⟨_, herase, hrun⟩, hmem, ?_⟩
      intro t ht
      rw [herase, Option.some.injEq] at ht
      exact ht ▸ hproper

end Kernel

/-! ## One branch -/

section Branch

variable {os : Os} {s : Server} {k : Kernel} {c : Command} {o : Outcome}

/-- What a branch does to the books of both sides. -/
structure KeepsBooks (s : Server) (k : Kernel) (t : Server) (events : List Event) : Prop where
  /-- The branch signals, waits for, unmaps and dirties what is its own. -/
  proper : Along Kernel.step Proper k events
  /-- The two sides agree again. -/
  agree : ∀ k', run Kernel.step k events = some k' → Agree t k'
  /-- The fleet and the new children are the reaped children and the new fleet. -/
  ledger : s.fleet ++ forked events = reaped events ++ t.fleet
  /-- The branch reaps what it kills. -/
  killed_eq : killed events = reaped events

/-- A branch without events that does not change what the server holds keeps the books. -/
theorem KeepsBooks.nothing (h : Agree s k) : KeepsBooks s k s [] where
  proper := trivial
  agree k' hk' := by
    rw [run_nil, Option.some.injEq] at hk'
    exact hk' ▸ h
  ledger := by simp [forked, reaped]
  killed_eq := rfl

/-- `touch` adds one mapping to what the server holds and to what is live, if the kernel grants
it. -/
theorem KeepsBooks.touch (h : Agree s k) {m : Mapping}
    (hgrant : Along Kernel.step Granted k [.mmap m, .dirty m]) :
    KeepsBooks s k { s with held := s.held ++ [m] } [.mmap m, .dirty m] where
  proper := by
    refine ⟨trivial, fun t ht => ⟨?_, fun _ _ => trivial⟩⟩
    cases ht
    exact List.mem_append_right _ (List.mem_singleton_self m)
  agree k' hk' := by
    obtain ⟨hpos, hapart⟩ := hgrant.1
    cases hk'
    refine ⟨h.children, by simp [h.live], h.fleet_nodup, ?_, ?_⟩
    · refine List.pairwise_append.mpr ⟨h.held_apart, List.pairwise_singleton _ _, ?_⟩
      intro m' hm' m'' hm''
      rw [List.mem_singleton.mp hm'']
      exact hapart m' (h.live ▸ hm')
    · intro m' hm'
      rcases List.mem_append.mp hm' with hold | hnew
      · exact h.held_pos m' hold
      · exact List.mem_singleton.mp hnew ▸ hpos
  ledger := by simp [forked, reaped]
  killed_eq := rfl

/-- `free` removes every mapping from both: each of them is unmapped once. -/
theorem KeepsBooks.free (h : Agree s k) :
    KeepsBooks s k { s with held := [] } (s.held.map .munmap) where
  proper := (run_munmap h.live).2
  agree k' hk' := by
    rw [(run_munmap h.live).1, Option.some.injEq] at hk'
    subst hk'
    exact ⟨h.children, rfl, h.fleet_nodup, List.Pairwise.nil, fun _ hm => nomatch hm⟩
  ledger := by simp [forked, reaped, List.filterMap_map]
  killed_eq := by simp [killed, reaped, List.filterMap_map]

/-- `fleet start` adds the new children to the server's fleet and to the kernel's children, in the
order in which they are forked. -/
theorem KeepsBooks.start (h : Agree s k) {pids : List ℕ} {mib : ℕ}
    (hgrant : Along Kernel.step Granted k (pids.map (.fork · mib))) :
    KeepsBooks s k { s with fleet := s.fleet ++ pids } (pids.map (.fork · mib)) := by
  obtain ⟨hrun, hnodup, hproper⟩ := run_fork (h.children ▸ h.fleet_nodup) hgrant
  refine ⟨hproper, ?_, ?_, ?_⟩
  · intro k' hk'
    rw [hrun, Option.some.injEq] at hk'
    subst hk'
    refine ⟨by simp [h.children], h.live, ?_, h.held_apart, h.held_pos⟩
    rw [h.children] at hnodup
    exact hnodup
  · simp [forked, reaped, List.filterMap_map]
  · simp [killed, reaped, List.filterMap_map]

/-- The events of a stop reap what they kill, and fork nothing. -/
theorem reaped_stop (pids : List ℕ) :
    reaped (pids.flatMap fun pid => [.kill pid, .waitpid pid]) = pids
      ∧ killed (pids.flatMap fun pid => [.kill pid, .waitpid pid]) = pids
      ∧ forked (pids.flatMap fun pid => [.kill pid, .waitpid pid]) = [] := by
  induction pids with
  | nil => exact ⟨rfl, rfl, rfl⟩
  | cons pid pids ih =>
      obtain ⟨hreaped, hkilled, hforked⟩ := ih
      refine ⟨?_, ?_, ?_⟩
      · exact congrArg (pid :: ·) hreaped
      · exact congrArg (pid :: ·) hkilled
      · exact hforked

/-- A stop kills and reaps the oldest `n` children, and removes them on both sides. -/
theorem KeepsBooks.stop (h : Agree s k) (n : ℕ) :
    KeepsBooks s k { s with fleet := s.fleet.drop n }
      ((s.fleet.take n).flatMap fun pid => [.kill pid, .waitpid pid]) := by
  have hk : k.children = s.fleet.take n ++ s.fleet.drop n := by
    rw [List.take_append_drop, h.children]
  obtain ⟨⟨zs, hrun⟩, hproper⟩ := run_stop hk
  obtain ⟨hreaped, hkilled, hforked⟩ := reaped_stop (s.fleet.take n)
  refine ⟨hproper, ?_, ?_, ?_⟩
  · intro k' hk'
    rw [hrun, Option.some.injEq] at hk'
    subst hk'
    exact ⟨rfl, h.live, h.fleet_nodup.sublist (List.drop_sublist _ _), h.held_apart, h.held_pos⟩
  · rw [hreaped, hforked, List.append_nil, List.take_append_drop]
  · rw [hreaped, hkilled]

/-- **One branch keeps the books.** Whatever the command, what the server holds and which children
it knows stay equal to what the kernel has live and has not reaped. -/
theorem exec_books (h : Agree s k) (hexec : exec os s c = .ok o)
    (hgrant : Along Kernel.step Granted k o.events) :
    KeepsBooks s k o.server o.events := by
  cases c with
  | touch n =>
      obtain ⟨ptr, -, rfl⟩ := touch_eq_ok.mp hexec
      exact KeepsBooks.touch h hgrant
  | free =>
      cases hexec
      exact KeepsBooks.free h
  | mem =>
      obtain ⟨kib, -, rfl⟩ := mem_eq_ok.mp hexec
      exact KeepsBooks.nothing h
  | fleetStart rest =>
      obtain ⟨pids, -, rfl⟩ := fleetStart_eq_ok.mp hexec
      exact KeepsBooks.start h hgrant
  | fleetStopOne =>
      obtain ⟨-, rfl⟩ := fleetDrain_eq_ok.mp hexec
      exact KeepsBooks.stop h 1
  | fleetStop =>
      obtain ⟨-, rfl⟩ := fleetDrain_eq_ok.mp hexec
      exact KeepsBooks.stop h _
  | unknown text =>
      cases hexec
      exact KeepsBooks.nothing h

end Branch

/-! ## One turn -/

/-- The commands of the fleet, which do not touch the memory that is held. -/
def Command.forFleet : Command → Bool
  | .fleetStart _ | .fleetStopOne | .fleetStop => true
  | .touch _ | .free | .mem | .unknown _ => false

/-- The children forked so far, less those reaped so far. -/
def unreaped (log : List Event) : ℕ := (forked log).length - (reaped log).length

/-- What a turn owes to the books: it is proper, its reply tells the size of the fleet, and it
keeps to its own list. -/
structure Accounted (σ : System) (r : Request) (turn : Turn) : Prop where
  /-- Kills, waits, unmaps and writes go to what is the server's own at that moment. -/
  proper : Along Kernel.step Proper σ.kernel turn.events
  /-- The number in `FLEET-STARTED`. -/
  started : ∀ rest, r.line.command = .fleetStart rest → turn.output
    = replyLine (chars "FLEET-STARTED " ++ decimal (unreaped (σ.log ++ turn.events)))
  /-- The number in `FLEET-STOPPED`. -/
  stopped : r.line.command = .fleetStopOne ∨ r.line.command = .fleetStop → turn.output
    = replyLine (chars "FLEET-STOPPED " ++ decimal (unreaped (σ.log ++ turn.events)))
  /-- A fleet command leaves the mappings alone. -/
  held_eq : r.line.command.forFleet = true → turn.server.held = σ.server.held
  /-- Every other command leaves the fleet alone. -/
  fleet_eq : r.line.command.forFleet = false → turn.server.fleet = σ.server.fleet

/-- A blank line is read as the unknown command without text. -/
theorem command_of_blank {line : Line} (h : line.Blank) : line.command = .unknown [] := by
  rw [Line.command, show trim line.text = [] from h]
  decide

section Turn

variable {σ : System} {r : Request} {turn : Turn}

/-- A turn of the server keeps the books, whether its line was blank or a command. -/
theorem serve_books (h : Agree σ.server σ.kernel)
    (hturn : serve r.os σ.server r.line = .ok turn)
    (hgrant : Along Kernel.step Granted σ.kernel turn.events) :
    KeepsBooks σ.server σ.kernel turn.server turn.events := by
  by_cases hblank : r.line.Blank
  · rw [serve_blank hblank, Except.ok.injEq] at hturn
    subst hturn
    exact KeepsBooks.nothing h
  · obtain ⟨o, hexec, rfl⟩ := (serve_eq_ok hblank).mp hturn
    exact exec_books h hexec hgrant

/-- After a turn the books are those of the new server and of the kernel that has taken the events,
with the events at the end of the log. -/
theorem Books.serve (h : Books σ) (hkeeps : KeepsBooks σ.server σ.kernel turn.server turn.events)
    {k : Kernel} (hk : run Kernel.step σ.kernel turn.events = some k) :
    Books ⟨turn.server, k, σ.log ++ turn.events⟩ where
  agree := hkeeps.agree k hk
  ledger := by
    have hledger : forked σ.log = reaped σ.log ++ σ.server.fleet := h.ledger
    simp only [forked, reaped, List.filterMap_append] at hledger ⊢
    rw [hledger, List.append_assoc, List.append_assoc]
    exact congrArg _ hkeeps.ledger
  killed_eq := by
    simp only [killed, reaped, List.filterMap_append]
    exact congrArg₂ _ h.killed_eq hkeeps.killed_eq

/-- The fleet has as many children as were forked and not reaped according to the log. -/
theorem Books.length_fleet (h : Books σ) : σ.server.fleet.length = unreaped σ.log := by
  rw [unreaped, h.ledger, List.length_append]
  omega

/-- A branch that is not for the fleet leaves it alone; one that is leaves the mappings alone. -/
theorem exec_frame {os : Os} {s : Server} {c : Command} {o : Outcome} (h : exec os s c = .ok o) :
    (c.forFleet = true → o.server.held = s.held)
      ∧ (c.forFleet = false → o.server.fleet = s.fleet) := by
  cases c with
  | touch n =>
      obtain ⟨ptr, -, rfl⟩ := touch_eq_ok.mp h
      exact ⟨nofun, fun _ => rfl⟩
  | free =>
      cases h
      exact ⟨nofun, fun _ => rfl⟩
  | mem =>
      obtain ⟨kib, -, rfl⟩ := mem_eq_ok.mp h
      exact ⟨nofun, fun _ => rfl⟩
  | fleetStart rest =>
      obtain ⟨pids, -, rfl⟩ := fleetStart_eq_ok.mp h
      exact ⟨fun _ => rfl, nofun⟩
  | fleetStopOne =>
      obtain ⟨-, rfl⟩ := fleetDrain_eq_ok.mp h
      exact ⟨fun _ => rfl, nofun⟩
  | fleetStop =>
      obtain ⟨-, rfl⟩ := fleetDrain_eq_ok.mp h
      exact ⟨fun _ => rfl, nofun⟩
  | unknown text =>
      cases h
      exact ⟨nofun, fun _ => rfl⟩

/-- The replies to the fleet commands tell the length of the fleet as it is afterwards. -/
theorem exec_fleet_reply {os : Os} {s : Server} {c : Command} {o : Outcome}
    (h : exec os s c = .ok o) :
    (∀ rest, c = .fleetStart rest →
        o.reply = chars "FLEET-STARTED " ++ decimal o.server.fleet.length)
      ∧ (c = .fleetStopOne ∨ c = .fleetStop →
        o.reply = chars "FLEET-STOPPED " ++ decimal o.server.fleet.length) := by
  constructor
  · rintro rest rfl
    obtain ⟨pids, -, rfl⟩ := fleetStart_eq_ok.mp h
    rfl
  · rintro (rfl | rfl)
    · obtain ⟨-, rfl⟩ := fleetDrain_eq_ok.mp h
      rfl
    · obtain ⟨-, rfl⟩ := fleetDrain_eq_ok.mp h
      rfl

/-- **One turn is accounted for**: its kills, waits, unmaps and writes go to what is the server's
own, its reply tells the size of the fleet, and it keeps to its own list. -/
theorem serve_accounted (h : Books σ) (hturn : serve r.os σ.server r.line = .ok turn)
    (hgrant : Along Kernel.step Granted σ.kernel turn.events) {k : Kernel}
    (hk : run Kernel.step σ.kernel turn.events = some k) : Accounted σ r turn := by
  have hkeeps := serve_books h.agree hturn hgrant
  have hlen : turn.server.fleet.length = unreaped (σ.log ++ turn.events) :=
    (h.serve hkeeps hk).length_fleet
  by_cases hblank : r.line.Blank
  · rw [serve_blank hblank, Except.ok.injEq] at hturn
    subst hturn
    have hcmd := command_of_blank hblank
    exact ⟨trivial, by simp [hcmd], by simp [hcmd], fun _ => rfl, fun _ => rfl⟩
  · obtain ⟨o, hexec, rfl⟩ := (serve_eq_ok hblank).mp hturn
    obtain ⟨hstart, hstop⟩ := exec_fleet_reply hexec
    obtain ⟨hheld, hfleet⟩ := exec_frame hexec
    refine ⟨hkeeps.proper, fun rest hrest => ?_, fun hor => ?_, hheld, hfleet⟩
    · rw [← hlen]
      exact congrArg replyLine (hstart rest hrest)
    · rw [← hlen]
      exact congrArg replyLine (hstop hor)

/-- A line is served exactly if the turn gets through, and then the kernel takes all its events and
they are logged. -/
theorem step_serve_eq_some {σ' : System} : System.step σ (.serve r) = some σ' ↔
    ∃ turn k, serve r.os σ.server r.line = .ok turn
      ∧ run Kernel.step σ.kernel turn.events = some k
      ∧ σ' = ⟨turn.server, k, σ.log ++ turn.events⟩ := by
  rw [System.step]
  cases serve r.os σ.server r.line with
  | error e => simp
  | ok turn => simp [eq_comm]

end Turn

/-! ## Whole runs -/

/-- The kernel takes every event, whatever it is, so a turn that gets through is always a step. -/
theorem run_kernel_total (k : Kernel) (events : List Event) :
    ∃ k', run Kernel.step k events = some k' := by
  induction events generalizing k with
  | nil => exact ⟨k, rfl⟩
  | cons e events ih =>
      obtain ⟨u, hu⟩ : ∃ u, Kernel.step k e = some u := by
        cases e <;> exact ⟨_, rfl⟩
      obtain ⟨k', hk'⟩ := ih u
      exact ⟨k', run_cons_eq_some.mpr ⟨u, hu, hk'⟩⟩

/-- A line that is served while the kernel keeps its promises is accounted for. -/
def AccountedMove (σ : System) : Move → Prop
  | .serve r => ∀ turn, serve r.os σ.server r.line = .ok turn → Accounted σ r turn
  | .exit _ => True

/-- Before the first line the books balance: nothing is held, live or forked. -/
theorem books_init : Books System.init where
  agree := ⟨rfl, rfl, List.nodup_nil, List.Pairwise.nil, fun _ hm => nomatch hm⟩
  ledger := rfl
  killed_eq := rfl

/-- **One move keeps the books**: a turn of the server, or a child that exits by itself. -/
theorem Books.step (σ : System) (mv : Move) (σ' : System) (hgrant : GrantedMove σ mv)
    (h : Books σ) (hstep : System.step σ mv = some σ') : Books σ' := by
  cases mv with
  | serve r =>
      obtain ⟨turn, k, hturn, hk, rfl⟩ := step_serve_eq_some.mp hstep
      exact h.serve (serve_books h.agree hturn (hgrant turn hturn)) hk
  | exit pid =>
      cases hstep
      exact ⟨⟨h.agree.children, h.agree.live, h.agree.fleet_nodup, h.agree.held_apart,
        h.agree.held_pos⟩, h.ledger, h.killed_eq⟩

/-- Where the books balance, the next move is accounted for. -/
theorem Books.accounted (σ : System) (mv : Move) (hgrant : GrantedMove σ mv) (h : Books σ) :
    AccountedMove σ mv := by
  cases mv with
  | serve r =>
      intro turn hturn
      obtain ⟨k, hk⟩ := run_kernel_total σ.kernel turn.events
      exact serve_accounted h hturn (hgrant turn hturn) hk
  | exit pid => trivial

/-! ## The next `free` -/

/-- The move serves a `free`. -/
def Move.IsFree : Move → Prop
  | .serve r => r.line.command = .free
  | .exit _ => False

/-- No branch but `free` unmaps anything or forgets a mapping. -/
theorem exec_keeps_held {os : Os} {s : Server} {c : Command} {o : Outcome}
    (h : exec os s c = .ok o) (hc : c ≠ .free) (m : Mapping) :
    o.events.count (.munmap m) = 0 ∧ (m ∈ s.held → m ∈ o.server.held) := by
  cases c with
  | touch n =>
      obtain ⟨ptr, -, rfl⟩ := touch_eq_ok.mp h
      exact ⟨by simp, List.mem_append_left _⟩
  | free => exact absurd rfl hc
  | mem =>
      obtain ⟨kib, -, rfl⟩ := mem_eq_ok.mp h
      exact ⟨rfl, id⟩
  | fleetStart rest =>
      obtain ⟨pids, -, rfl⟩ := fleetStart_eq_ok.mp h
      exact ⟨List.count_eq_zero.mpr (by simp), id⟩
  | fleetStopOne =>
      obtain ⟨-, rfl⟩ := fleetDrain_eq_ok.mp h
      exact ⟨List.count_eq_zero.mpr (by simp), id⟩
  | fleetStop =>
      obtain ⟨-, rfl⟩ := fleetDrain_eq_ok.mp h
      exact ⟨List.count_eq_zero.mpr (by simp), id⟩
  | unknown text =>
      cases h
      exact ⟨rfl, id⟩

/-- A move that is no `free` keeps a mapping held and does not unmap it. -/
theorem step_keeps_held {σ σ' : System} {mv : Move} {m : Mapping} (hfree : ¬ mv.IsFree)
    (hm : m ∈ σ.server.held) (hstep : System.step σ mv = some σ') :
    m ∈ σ'.server.held ∧ σ'.log.count (.munmap m) = σ.log.count (.munmap m) := by
  cases mv with
  | serve r =>
      obtain ⟨turn, k, hturn, -, rfl⟩ := step_serve_eq_some.mp hstep
      by_cases hblank : r.line.Blank
      · rw [serve_blank hblank, Except.ok.injEq] at hturn
        subst hturn
        exact ⟨hm, by simp⟩
      · obtain ⟨o, hexec, rfl⟩ := (serve_eq_ok hblank).mp hturn
        obtain ⟨hcount, hkeep⟩ := exec_keeps_held hexec hfree m
        exact ⟨hkeep hm, by simp [List.count_append, hcount]⟩
  | exit pid =>
      cases hstep
      exact ⟨hm, rfl⟩

/-- In a run without `free` a mapping that is held stays held, and is not unmapped. -/
theorem run_keeps_held {moves : List Move} {σ σ' : System} {m : Mapping}
    (hfree : ∀ mv ∈ moves, ¬ mv.IsFree) (hm : m ∈ σ.server.held)
    (hrun : run System.step σ moves = some σ') :
    m ∈ σ'.server.held ∧ σ'.log.count (.munmap m) = σ.log.count (.munmap m) := by
  induction moves generalizing σ with
  | nil =>
      rw [run_nil, Option.some.injEq] at hrun
      exact hrun ▸ ⟨hm, rfl⟩
  | cons mv moves ih =>
      obtain ⟨u, hu, hrest⟩ := run_cons_eq_some.mp hrun
      obtain ⟨hmu, hcount⟩ := step_keeps_held (hfree mv List.mem_cons_self) hm hu
      obtain ⟨hm', hcount'⟩ :=
        ih (fun mv' hmv' => hfree mv' (List.mem_cons_of_mem _ hmv')) hmu hrest
      exact ⟨hm', hcount'.trans hcount⟩

/-- Nonempty mappings that are pairwise apart are pairwise distinct. -/
theorem nodup_of_apart {ms : List Mapping} (h : ms.Pairwise Apart)
    (hpos : ∀ m ∈ ms, m.size ≠ 0) : ms.Nodup := by
  refine (List.Pairwise.and_mem.mp h).imp ?_
  rintro m m' ⟨hm, -, hapart⟩ rfl
  have := hpos m hm
  rcases hapart with h | h <;> omega

/-- `free` unmaps every mapping that is held exactly once, and holds none afterwards. -/
theorem step_free {σ σ' : System} {r : Request} (h : Books σ) (hr : r.line.command = .free)
    (hstep : System.step σ (.serve r) = some σ') :
    σ'.server.held = [] ∧ ∀ m ∈ σ.server.held,
      σ'.log.count (.munmap m) = σ.log.count (.munmap m) + 1 := by
  obtain ⟨turn, k, hturn, -, rfl⟩ := step_serve_eq_some.mp hstep
  have hblank : ¬ r.line.Blank := by
    intro hblank
    rw [command_of_blank hblank] at hr
    cases hr
  obtain ⟨o, hexec, rfl⟩ := (serve_eq_ok hblank).mp hturn
  rw [hr] at hexec
  cases hexec
  refine ⟨rfl, fun m hm => ?_⟩
  have hnodup : (σ.server.held.map Event.munmap).Nodup :=
    List.Nodup.map (fun _ _ he => Event.munmap.inj he)
      (nodup_of_apart h.agree.held_apart h.agree.held_pos)
  rw [List.count_append, free]
  congr 1
  exact List.count_eq_one_of_mem hnodup (List.mem_map_of_mem hm)

/-- **The resources of the server.** On every run in which the server stays alive and the kernel
keeps its promises: the fleet is the children forked and not yet reaped, which leave oldest first,
each killed and reaped once; every signal, wait, unmap and write goes to what is the server's own;
the fleet replies tell how many children are left; each command keeps to its own list; and a
mapping that is held is live, disjoint from the others, and unmapped exactly once by the next
`free`. -/
theorem server_resources_accounted (moves : List Move) {σ : System}
    (hgrant : Along System.step GrantedMove System.init moves)
    (hrun : run System.step System.init moves = some σ) :
    Books σ ∧ Along System.step AccountedMove System.init moves
      ∧ ∀ (later : List Move) (σ₁ σ₂ : System) (r : Request),
        Along System.step GrantedMove σ later → (∀ mv ∈ later, ¬ mv.IsFree) →
        run System.step σ later = some σ₁ → r.line.command = .free →
        System.step σ₁ (.serve r) = some σ₂ →
        σ₂.server.held = [] ∧ ∀ m ∈ σ.server.held,
          σ₂.log.count (.munmap m) = σ.log.count (.munmap m) + 1 := by
  have hbooks : Books σ := run_invariant Books.step hgrant books_init hrun
  refine ⟨hbooks, Along.of_invariant Books.step Books.accounted hgrant books_init, ?_⟩
  intro later σ₁ σ₂ r hlater hfree hrun₁ hr hstep
  have hbooks₁ : Books σ₁ := run_invariant Books.step hlater hbooks hrun₁
  obtain ⟨hnil, honce⟩ := step_free hbooks₁ hr hstep
  refine ⟨hnil, fun m hm => ?_⟩
  obtain ⟨hm₁, hcount⟩ := run_keeps_held hfree hm hrun₁
  rw [honce m hm₁, hcount]

/-- The kernel keeps its promises while a line is served, if it does so for the line's events. -/
theorem GrantedMove.of_turn {σ : System} {r : Request} {turn : Turn}
    (hturn : serve r.os σ.server r.line = .ok turn)
    (h : Along Kernel.step Granted σ.kernel turn.events) : GrantedMove σ (.serve r) := by
  intro turn' hturn'
  rw [hturn, Except.ok.injEq] at hturn'
  rwa [← hturn']

/-- One GiB is touched, two services are started and the older one is stopped; then `free` is
served: the mapping is unmapped once, and the younger service is still there. -/
theorem server_resources_accounted_plain : ∃ σ σ' : System,
    run System.step System.init [.serve (plainRequest "touch 1" (by decide)),
        .serve (plainRequest "fleet start 2 256" (by decide)),
        .serve (plainRequest "fleet stop-one" (by decide))] = some σ
      ∧ System.step σ (.serve (plainRequest "free" (by decide))) = some σ'
      ∧ Books σ ∧ σ.server = ⟨[⟨0x1000, 2 ^ 30⟩], [101]⟩ ∧ reaped σ.log = [100]
      ∧ σ'.server.held = [] ∧ σ'.log.count (.munmap ⟨0x1000, 2 ^ 30⟩) = 1 := by
  have htouch : serve plainOs Server.init (plainRequest "touch 1" (by decide)).line
      = .ok ⟨⟨[⟨0x1000, 2 ^ 30⟩], []⟩, [.mmap ⟨0x1000, 2 ^ 30⟩, .dirty ⟨0x1000, 2 ^ 30⟩],
          chars "RATCHET TOUCHED 1\n"⟩ := by decide
  have hstart : serve plainOs ⟨[⟨0x1000, 2 ^ 30⟩], []⟩
      (plainRequest "fleet start 2 256" (by decide)).line
      = .ok ⟨⟨[⟨0x1000, 2 ^ 30⟩], [100, 101]⟩, [.fork 100 256, .fork 101 256],
          chars "RATCHET FLEET-STARTED 2\n"⟩ := by decide
  have hstop : serve plainOs ⟨[⟨0x1000, 2 ^ 30⟩], [100, 101]⟩
      (plainRequest "fleet stop-one" (by decide)).line
      = .ok ⟨⟨[⟨0x1000, 2 ^ 30⟩], [101]⟩, [.kill 100, .waitpid 100],
          chars "RATCHET FLEET-STOPPED 1\n"⟩ := by decide
  have hfree : serve plainOs ⟨[⟨0x1000, 2 ^ 30⟩], [101]⟩ (plainRequest "free" (by decide)).line
      = .ok ⟨⟨[], [101]⟩, [.munmap ⟨0x1000, 2 ^ 30⟩], chars "RATCHET FREED\n"⟩ := by decide
  let σ₁ : System := ⟨⟨[⟨0x1000, 2 ^ 30⟩], []⟩, ⟨[], [], [⟨0x1000, 2 ^ 30⟩]⟩,
    [.mmap ⟨0x1000, 2 ^ 30⟩, .dirty ⟨0x1000, 2 ^ 30⟩]⟩
  let σ₂ : System := ⟨⟨[⟨0x1000, 2 ^ 30⟩], [100, 101]⟩,
    ⟨[100, 101], [], [⟨0x1000, 2 ^ 30⟩]⟩, σ₁.log ++ [.fork 100 256, .fork 101 256]⟩
  let σ₃ : System := ⟨⟨[⟨0x1000, 2 ^ 30⟩], [101]⟩, ⟨[101], [], [⟨0x1000, 2 ^ 30⟩]⟩,
    σ₂.log ++ [.kill 100, .waitpid 100]⟩
  have h₁ : System.step System.init (.serve (plainRequest "touch 1" (by decide))) = some σ₁ :=
    step_serve_eq_some.mpr ⟨_, _, htouch, rfl, rfl⟩
  have h₂ : System.step σ₁ (.serve (plainRequest "fleet start 2 256" (by decide))) = some σ₂ :=
    step_serve_eq_some.mpr ⟨_, _, hstart, rfl, rfl⟩
  have h₃ : System.step σ₂ (.serve (plainRequest "fleet stop-one" (by decide))) = some σ₃ :=
    step_serve_eq_some.mpr ⟨_, _, hstop, rfl, rfl⟩
  have h₄ : System.step σ₃ (.serve (plainRequest "free" (by decide))) = some _ :=
    step_serve_eq_some.mpr ⟨_, _, hfree, rfl, rfl⟩
  have hrun := run_cons_eq_some.mpr ⟨_, h₁, run_cons_eq_some.mpr ⟨_, h₂,
    run_cons_eq_some.mpr ⟨_, h₃, run_nil σ₃⟩⟩⟩
  have hgrant : Along System.step GrantedMove System.init
      [.serve (plainRequest "touch 1" (by decide)),
        .serve (plainRequest "fleet start 2 256" (by decide)),
        .serve (plainRequest "fleet stop-one" (by decide))] := by
    refine ⟨.of_turn htouch ?_, fun t ht => ?_⟩
    · exact ⟨⟨(by norm_num), fun _ hm => nomatch hm⟩, fun _ _ => ⟨trivial, fun _ _ => trivial⟩⟩
    cases h₁.symm.trans ht
    refine ⟨.of_turn hstart ⟨(fun hm => nomatch hm), fun k hk => ?_⟩, fun t ht => ?_⟩
    · -- the pid of the second child is not that of the first
      cases hk
      have hne : (101 : ℕ) ∉ [100] := by decide
      exact ⟨hne, fun _ _ => trivial⟩
    cases h₂.symm.trans ht
    exact ⟨.of_turn hstop ⟨trivial, fun _ _ => ⟨trivial, fun _ _ => trivial⟩⟩, fun _ _ => trivial⟩
  obtain ⟨hbooks, -, hunmapped⟩ := server_resources_accounted _ hgrant hrun
  obtain ⟨hnil, hcount⟩ := hunmapped [] σ₃ _ (plainRequest "free" (by decide)) trivial
    (fun _ hm => nomatch hm) rfl (by decide) h₄
  exact ⟨σ₃, _, hrun, h₄, hbooks, rfl, rfl, hnil, hcount _ (List.mem_singleton.mpr rfl)⟩

end VmRatchet.GuestInit
