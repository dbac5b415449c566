import DebianConf.Boot.FileSystems

/-!
# What the calls of a thread leave open

The ledger of an actor records what its calls have opened, mapped, forked and changed. The rules
say which calls fit the ledger: a descriptor is used and closed only while it is open, a process
is waited for only while it runs, a thread replaces nothing, and a new process does nothing but
execute a program or exit.
-/

namespace DebianConf.Boot

open DebianConf.Lib

/-- Who makes the calls: `main`, a thread of `start`, or a process that `fork` has made. -/
inductive Role where
  | main
  | thread
  | child
  deriving DecidableEq, Repr

/-- What the calls of an actor have left open. -/
structure Ledger where
  role : Role
  fds : List Int
  maps : List (Nat × Int)
  streams : List Nat
  /-- the processes not waited for -/
  children : List Int
  priority : Int
  /-- the priority that the thread had at first -/
  base : Int
  /-- a call that asked for the first priority has failed -/
  refused : Bool
  deriving DecidableEq, Repr

/-- What a call uses is open. -/
def Ledger.holds (g : Ledger) : SysCall → Prop
  | .read fd _ => fd ∈ g.fds
  | .close fd => fd ∈ g.fds
  | .fstat fd => fd ∈ g.fds
  | .fibmap fd => fd ∈ g.fds
  | .mmap fd _ => fd ∈ g.fds
  | .posixFadviseWillneed fd _ _ => fd ∈ g.fds
  | .readahead fd _ _ => fd ∈ g.fds
  | .munmap addr length => (addr, length) ∈ g.maps
  | .fread stream _ => stream ∈ g.streams
  | .fwrite stream _ => stream ∈ g.streams
  | .fclose stream => stream ∈ g.streams
  | .waitpid pid => pid ∈ g.children
  | _ => True

/-- Everything is closed and unmapped. Only descriptor 0 may have been left open. -/
structure Ledger.Closed (g : Ledger) : Prop where
  fds : ∀ fd ∈ g.fds, fd = 0
  maps : g.maps = []
  streams : g.streams = []

/-- What may be left when `main` becomes `init`: the bootchart collector is not waited for. -/
structure Ledger.Leaves (g : Ledger) : Prop where
  closed : g.Closed
  children : g.children.length ≤ 1
  priority : g.priority = g.base

/-- A thread never ends the process or replaces its program, a new process does nothing else,
and `main` does it when it has closed everything. -/
def Ledger.mayCall (g : Ledger) (c : SysCall) : Prop :=
  match g.role with
  | .main => c.replaces = true → g.Leaves
  | .thread => c.replaces = false
  | .child => c.replaces = true

/-- What the answer opens is not open in the ledger. -/
def Ledger.unused (g : Ledger) : (c : SysCall) → c.Answer → Prop
  | .open_ _ _, (fd : Int) => fd = -1 ∨ fd ∉ g.fds
  | .mmap _ length, (m : Option (Nat × List UInt8)) =>
    ∀ p, m = some p → (p.1, length) ∉ g.maps
  | .fopen _ _, (stream : Option Nat) => ∀ s, stream = some s → s ∉ g.streams
  | .fork, (pid : Int) => 0 < pid → pid ∉ g.children
  | _, _ => True

/-- What the system answers: -1 for an error, and the priority that was last set. -/
def Ledger.expects (g : Ledger) : (c : SysCall) → c.Answer → Prop
  | .open_ _ _, (fd : Int) => -1 ≤ fd
  | .fork, (pid : Int) => -1 ≤ pid
  | .getschedparam, (param : Option (Int × Int)) => ∀ p, param = some p → p.2 = g.priority
  | _, _ => True

/-- The ledger after a call. -/
def Ledger.after (g : Ledger) : (c : SysCall) → c.Answer → Ledger
  | .open_ _ _, (fd : Int) => if fd = -1 then g else { g with fds := fd :: g.fds }
  | .close fd, _ => { g with fds := g.fds.erase fd }
  | .mmap _ length, (m : Option (Nat × List UInt8)) =>
    match m with
    | some (addr, _) => { g with maps := (addr, length) :: g.maps }
    | none => g
  | .munmap addr length, _ => { g with maps := g.maps.erase (addr, length) }
  | .fopen _ _, (stream : Option Nat) =>
    match stream with
    | some s => { g with streams := s :: g.streams }
    | none => g
  | .fclose stream, _ => { g with streams := g.streams.erase stream }
  | .fork, (pid : Int) =>
    if pid = 0 then { g with role := .child, children := [] }
    else if pid > 0 then { g with children := pid :: g.children } else g
  | .waitpid pid, _ => { g with children := g.children.erase pid }
  | .setschedprio prio, (r : Int) =>
    if r = 0 then { g with priority := prio }
    else if prio = g.base then { g with refused := true } else g
  | _, _ => g

/-- The rules that every actor keeps. -/
abbrev rules : Contract SysCall SysCall.Answer where
  Ghost := Ledger
  allows g c := g.mayCall c ∧ g.holds c
  answers g c r := g.unused c r ∧ g.expects c r
  after := Ledger.after

/-- The priority is the first one, unless the system has refused to set it again. -/
def Ledger.Level (g : Ledger) : Prop := g.refused = true ∨ g.priority = g.base

/-- A thread has closed everything and waited for everything, and its priority is the first one
unless the system has refused to set it again. -/
structure Ledger.Tidy (g : Ledger) : Prop where
  role : g.role = .thread
  closed : g.Closed
  children : g.children = []
  level : g.Level

/-- `g'` differs from `g` in that descriptor 0 may have been opened. -/
def Ledger.Same (g g' : Ledger) : Prop :=
  ∃ k, g' = { g with fds := List.replicate k 0 ++ g.fds }

theorem Ledger.Same.refl (g : Ledger) : g.Same g := ⟨0, rfl⟩

theorem Ledger.Same.trans {g g' g'' : Ledger} (first : g.Same g') (second : g'.Same g'') :
    g.Same g'' := by
  rcases first with ⟨k, rfl⟩
  rcases second with ⟨k', rfl⟩
  refine ⟨k' + k, ?_⟩
  rw [List.replicate_add, List.append_assoc]

theorem Ledger.Same.closed {g g' : Ledger} (same : g.Same g') (closed : g.Closed) :
    g'.Closed := by
  rcases same with ⟨k, rfl⟩
  refine ⟨?_, closed.maps, closed.streams⟩
  intro fd member
  rcases List.mem_append.mp member with zero | before
  · exact List.eq_of_mem_replicate zero
  · exact closed.fds fd before

theorem Ledger.Same.parent {g g' : Ledger} (same : g.Same g') (parent : g.role ≠ .child) :
    g'.role ≠ .child := by
  rcases same with ⟨k, rfl⟩
  exact parent

/-- Closing a descriptor undoes that it was opened. -/
theorem Ledger.Same.close {g g' : Ledger} {fd : Int}
    (same : Ledger.Same { g with fds := fd :: g.fds } g') :
    fd ∈ g'.fds ∧ g.Same { g' with fds := g'.fds.erase fd } := by
  rcases same with ⟨k, rfl⟩
  refine ⟨by simp, k, ?_⟩
  have erased : (List.replicate k 0 ++ fd :: g.fds).erase fd = List.replicate k 0 ++ g.fds := by
    induction k with
    | zero => simp
    | succ k ih =>
      rw [List.replicate_succ, List.cons_append, List.erase_cons]
      by_cases zero : (0 : Int) = fd
      · subst zero
        rw [if_pos (by simp), List.append_cons, ← List.replicate_succ', List.replicate_succ,
          List.cons_append]
      · rw [if_neg (by simpa using zero), ih, List.cons_append]
  simp only [erased]

/-- The ledger with another priority. -/
def Ledger.at (g : Ledger) (priority : Int) (refused : Bool) : Ledger :=
  { g with priority := priority, refused := refused }

/-- `g'` differs from `g` in that descriptor 0 may have been opened and in its priority, which is
the first one if it was before, unless that has been refused. -/
def Ledger.Alike (g g' : Ledger) : Prop :=
  ∃ priority refused, (g.at priority refused).Same g' ∧ (g.refused = true → refused = true) ∧
    (g.Level → (g.at priority refused).Level)

theorem Ledger.Same.alike {g g' : Ledger} (same : g.Same g') : g.Alike g' :=
  ⟨g.priority, g.refused, same, id, id⟩

theorem Ledger.Alike.tidy {g g' : Ledger} (alike : g.Alike g') (tidy : g.Tidy) : g'.Tidy := by
  rcases alike with ⟨priority, refused, same, _, level⟩
  have closed : (g.at priority refused).Closed :=
    ⟨tidy.closed.fds, tidy.closed.maps, tidy.closed.streams⟩
  rcases same with ⟨k, rfl⟩
  exact ⟨tidy.role, Ledger.Same.closed ⟨k, rfl⟩ closed, tidy.children, level tidy.level⟩

/-- A call that replaces nothing is free to whoever is not a new process. -/
theorem may {g : Ledger} {c : SysCall} (parent : g.role ≠ .child) (stays : c.replaces = false) :
    g.mayCall c := by
  unfold Ledger.mayCall
  cases role : g.role with
  | main => exact fun replaces => absurd (stays.symm.trans replaces) Bool.false_ne_true
  | thread => exact stays
  | child => exact absurd role parent

/-! ## Programs that keep the ledger -/

/-- From any thread the program keeps the rules and leaves the ledger as it is. -/
def Keeps {α : Type} (p : Prog α) : Prop :=
  ∀ g : Ledger, g.role ≠ .child → p.wp rules (fun _ g' => g.Same g') g

section
variable {α β : Type}

theorem Keeps.pure (a : α) : Keeps (pure a) := fun g _ => Ledger.Same.refl g

theorem Keeps.bind {p : Prog α} {f : α → Prog β} (first : Keeps p) (rest : ∀ a, Keeps (f a)) :
    Keeps (p >>= f) := by
  intro g parent
  apply Program.wp_then (first g parent)
  intro a g' same
  exact Program.wp_mono (fun _ _ later => same.trans later) (rest a g' (same.parent parent))

theorem keeps_compositional : Program.Compositional Keeps := ⟨Keeps.pure, Keeps.bind⟩

theorem wp_plain {c : SysCall} (plain : c.isPlain = true) {g : Ledger} (parent : g.role ≠ .child) :
    (sys c).wp rules (fun _ g' => g' = g) g := by
  have allowed : g.mayCall c ∧ g.holds c := by
    cases c <;> first | exact ⟨may parent rfl, trivial⟩ | cases plain
  have unchanged : ∀ r, g.after c r = g := by
    intro r
    cases c <;> first | rfl | cases plain
  exact Program.wp_call allowed fun r _ => unchanged r

theorem Keeps.sys {c : SysCall} (plain : c.isPlain = true) : Keeps (sys c) := by
  intro g parent
  apply Program.wp_mono _ (wp_plain plain parent)
  intro _ g' same
  rw [same]
  exact Ledger.Same.refl g

end

end DebianConf.Boot
