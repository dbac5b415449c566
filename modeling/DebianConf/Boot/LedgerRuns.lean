import DebianConf.Boot.Books
import DebianConf.Boot.Restores

/-!
# What the boot program has open

The ledgers of `main` and of the threads in every run of the boot program, for every order in
which their calls are made and every answer that a system gives. A call uses only what its own
thread has opened, and when `main` becomes `init` nothing is left open but descriptor 0.
-/

namespace DebianConf.Boot

open DebianConf.Lib DebianConf.SysLinux DebianConf.Tasks

/-- The boot program of `root/preload_main.cpp` (`preload_main.cpp:69-151`). `tstr` is what a
buffer of `main` holds at first. -/
abbrev bootSetup (tstr : List UInt8) : Setup BootId where
  table := bootTable
  fnc it := taskFnc (entry bootTable.tasks it).id
  main := mainInit tstr
  threadMax := 5

def Actor.role : Actor → Role
  | .main => .main
  | .thread _ => .thread
  | .child _ => .child

/-- Nothing is open. -/
def emptyLedger (base : Int) (a : Actor) : Ledger :=
  { role := a.role, fds := [], maps := [], streams := [], children := [], priority := base,
    base := base, refused := false }

section
variable {ID : Type} [DecidableEq ID] [TaskId ID]

/-- The rules of the ledger, for threads whose priority is `base` at first. -/
abbrev ledgerTerms (S : Setup ID) (base : Int) : Terms S where
  contract := rules
  first := emptyLedger base
  elsewhere := Ledger.unused
  enter _ g := g
  AtRest := Ledger.Tidy
  Final _ := False

variable {S : Setup ID} {base : Int} {log : List (Label S.table.tasks.length)} {s s' : State S}
  {b : Books (ledgerTerms S base)}

/-! ## The books of the ledger -/

omit [DecidableEq ID] in
theorem page_sched (e : Event S.table.tasks.length) :
    (b.enter (ledgerTerms S base) (.sched e)).page = b.page := by
  cases e with
  | call t it => exact Function.update_eq_self (.thread t) b.page
  | _ => rfl

omit [DecidableEq ID] in
theorem admitted_role {c : SysCall} {r : c.Answer} (admitted : s.admits c r = true) (g : Ledger) :
    (g.after c r).role = g.role := by
  cases c with
  | fork =>
    have parent : r ≠ inChild := by
      rintro rfl
      cases admitted
    simp only [Ledger.after]
    split
    · next zero => exact absurd zero parent
    · split <;> rfl
  | open_ path flags =>
    simp only [Ledger.after]
    split <;> rfl
  | mmap fd length => cases r <;> rfl
  | fopen path mode => cases r <;> rfl
  | setschedprio prio =>
    simp only [Ledger.after]
    split
    · rfl
    · split <;> rfl
  | _ => rfl

/-- The page of an actor says who it is. -/
def Roles (b : Books (ledgerTerms S base)) : Prop := ∀ a, (b.page a).role = a.role

theorem Roles.step (roles : Roles b) {l : Label S.table.tasks.length} (step : Step s l s') :
    Roles (b.enter (ledgerTerms S base) l) := by
  intro a'
  cases step with
  | sched starting fired dispatched =>
    rw [page_sched]
    exact roles a'
  | @sys a c r p p' admitted here answered =>
    by_cases same : a' = a
    · subst same
      rw [page_sys_self, admitted_role admitted]
      exact roles a'
    · by_cases new : a' = .child b.forked
      · subst new
        rw [page_sys_child same]
        split
        · rfl
        · exact roles _
      · rw [page_sys_of_ne same new]
        exact roles a'
  | gone replaces apart stands => exact roles a'

theorem Run.roles (run : S.Run log s) : Roles (books (ledgerTerms S base) log) := by
  induction run with
  | nil => exact fun _ => rfl
  | snoc before fired ih =>
    rw [books_snoc]
    exact ih.step (step_of_next fired)

/-! ## Threads use different things -/

/-- Nothing is open in both ledgers. -/
structure Ledger.Apart (g g' : Ledger) : Prop where
  fds : List.Disjoint g.fds g'.fds
  maps : List.Disjoint g.maps g'.maps
  streams : List.Disjoint g.streams g'.streams
  children : List.Disjoint g.children g'.children

theorem Ledger.Apart.symm {g g' : Ledger} (apart : g.Apart g') : g'.Apart g :=
  ⟨apart.fds.symm, apart.maps.symm, apart.streams.symm, apart.children.symm⟩

theorem disjoint_erase {α : Type} [BEq α] {l l' : List α} (apart : List.Disjoint l l')
    (a : α) : List.Disjoint (l.erase a) l' :=
  fun _ member => apart (List.mem_of_mem_erase member)

/-- What a call opens is not open elsewhere. -/
theorem Ledger.Apart.after {g g' : Ledger} (apart : g.Apart g') {c : SysCall} {r : c.Answer}
    (unused : g'.unused c r) : (g.after c r).Apart g' := by
  cases c with
  | open_ path flags =>
    simp only [Ledger.after]
    split
    · exact apart
    · next opened =>
      have new : r ∉ g'.fds := unused.resolve_left opened
      exact ⟨List.disjoint_cons_left.mpr ⟨new, apart.fds⟩, apart.maps, apart.streams,
        apart.children⟩
  | close fd => exact ⟨disjoint_erase apart.fds _, apart.maps, apart.streams, apart.children⟩
  | mmap fd length =>
    cases r with
    | none => exact apart
    | some m =>
      exact ⟨apart.fds, List.disjoint_cons_left.mpr ⟨unused m rfl, apart.maps⟩, apart.streams,
        apart.children⟩
  | munmap addr length =>
    exact ⟨apart.fds, disjoint_erase apart.maps _, apart.streams, apart.children⟩
  | fopen path mode =>
    cases r with
    | none => exact apart
    | some stream =>
      exact ⟨apart.fds, apart.maps,
        List.disjoint_cons_left.mpr ⟨unused stream rfl, apart.streams⟩, apart.children⟩
  | fclose stream =>
    exact ⟨apart.fds, apart.maps, disjoint_erase apart.streams _, apart.children⟩
  | fork =>
    simp only [Ledger.after]
    split
    · exact ⟨apart.fds, apart.maps, apart.streams, List.disjoint_nil_left _⟩
    · split
      · next positive =>
        exact ⟨apart.fds, apart.maps, apart.streams,
          List.disjoint_cons_left.mpr ⟨unused positive, apart.children⟩⟩
      · exact apart
  | waitpid pid => exact ⟨apart.fds, apart.maps, apart.streams, disjoint_erase apart.children _⟩
  | setschedprio prio =>
    have same : (g.at prio g.refused).Apart g' :=
      ⟨apart.fds, apart.maps, apart.streams, apart.children⟩
    have refused : (g.at g.priority true).Apart g' :=
      ⟨apart.fds, apart.maps, apart.streams, apart.children⟩
    simp only [Ledger.after]
    split
    · exact same
    · split
      · exact refused
      · exact apart
  | _ => exact apart

/-- No two actors of the process have the same thing open. -/
def Separate (b : Books (ledgerTerms S base)) : Prop :=
  ∀ a a', a ≠ a' → a.isChild = false → a'.isChild = false → (b.page a).Apart (b.page a')

omit [DecidableEq ID] in
theorem Separate.enter (separate : Separate b) {l : Label S.table.tasks.length}
    (expected : Expected (ledgerTerms S base) b l) :
    Separate (b.enter (ledgerTerms S base) l) := by
  cases l with
  | sched e =>
    intro a a'
    rw [page_sched]
    exact separate a a'
  | sys a c r =>
    have old : ∀ a' : Actor, a'.isChild = false → a' ≠ .child b.forked := by
      rintro _ process rfl
      cases process
    have with_caller : ∀ a' : Actor, a' ≠ a → a.isChild = false → a'.isChild = false →
        ((b.page a).after c r).Apart (b.page a') :=
      fun a' other process process' =>
        (separate a a' other.symm process process').after (expected.2 a' other process')
    intro a₁ a₂ other process₁ process₂
    by_cases first : a₁ = a
    · subst first
      rw [page_sys_self, page_sys_of_ne other.symm (old a₂ process₂)]
      exact with_caller a₂ other.symm process₁ process₂
    · rw [page_sys_of_ne first (old a₁ process₁)]
      by_cases second : a₂ = a
      · subst second
        rw [page_sys_self]
        exact (with_caller a₁ first process₂ process₁).symm
      · rw [page_sys_of_ne second (old a₂ process₂)]
        exact separate a₁ a₂ other process₁ process₂
  | gone a c => exact separate

omit [DecidableEq ID] in
theorem Honest.separate (honest : Honest (ledgerTerms S base) log) :
    Separate (books (ledgerTerms S base) log) := by
  induction log using List.reverseRecOn with
  | nil =>
    intro a a' _ _ _
    exact ⟨List.disjoint_nil_left _, List.disjoint_nil_left _, List.disjoint_nil_left _,
      List.disjoint_nil_left _⟩
  | append_singleton log l ih =>
    rw [books_snoc]
    exact (ih honest.init).enter honest.last

/-! ## Answers that are new -/

/-- Something that a call opens. -/
inductive Resource where
  | fd (fd : Int)
  | map (addr : Nat) (length : Int)
  | stream (stream : Nat)
  | child (pid : Int)
  deriving DecidableEq, Repr

def Ledger.has (g : Ledger) : Resource → Prop
  | .fd fd => fd ∈ g.fds
  | .map addr length => (addr, length) ∈ g.maps
  | .stream stream => stream ∈ g.streams
  | .child pid => pid ∈ g.children

/-- What the answer opens. -/
def SysCall.opens : (c : SysCall) → c.Answer → List Resource
  | .open_ _ _, (fd : Int) => [.fd fd]
  | .mmap _ length, (m : Option (Nat × List UInt8)) => m.toList.map fun p => .map p.1 length
  | .fopen _ _, (stream : Option Nat) => stream.toList.map .stream
  | .fork, (pid : Int) => [.child pid]
  | _, _ => []

def Label.opens {n : Nat} : Label n → List Resource
  | .sys _ c r => c.opens r
  | _ => []

/-- What the calls of a log have ever opened. -/
def opened {n : Nat} (log : List (Label n)) : List Resource := log.flatMap Label.opens

theorem has_after {g : Ledger} {c : SysCall} {r : c.Answer} {x : Resource}
    (has : (g.after c r).has x) : g.has x ∨ x ∈ c.opens r := by
  cases c <;> cases x <;> simp only [Ledger.after, Ledger.has, SysCall.opens] at * <;> grind

theorem unused_of_new {g : Ledger} {c : SysCall} {r : c.Answer}
    (new : ∀ x ∈ c.opens r, ¬ g.has x) : g.unused c r := by
  cases c with
  | open_ path flags => exact Or.inr (new (.fd r) List.mem_cons_self)
  | mmap fd length =>
    rintro p rfl
    exact new (.map p.1 length) List.mem_cons_self
  | fopen path mode =>
    rintro stream rfl
    exact new (.stream stream) List.mem_cons_self
  | fork => exact fun _ => new (.child r) List.mem_cons_self
  | _ => trivial

omit [DecidableEq ID] in
/-- What an actor has open has been opened. -/
theorem page_opened (log : List (Label S.table.tasks.length)) {a : Actor} {x : Resource}
    (has : ((books (ledgerTerms S base) log).page a).has x) : x ∈ opened log := by
  induction log using List.reverseRecOn generalizing a with
  | nil => cases x <;> cases has
  | append_singleton log l ih =>
    rw [books_snoc] at has
    rw [opened, List.flatMap_append, List.flatMap_singleton, List.mem_append]
    cases l with
    | sched e =>
      rw [page_sched] at has
      exact Or.inl (ih has)
    | gone a' c => exact Or.inl (ih has)
    | sys a' c r =>
      by_cases same : a = a'
      · subst same
        rw [page_sys_self] at has
        exact (has_after has).imp_left ih
      · by_cases new : a = .child (books (ledgerTerms S base) log).forked
        · subst new
          rw [page_sys_child same] at has
          split at has
          · have inherited : ((books (ledgerTerms S base) log).page a').has x := by
              cases x <;> first | exact has | cases has
            exact Or.inl (ih inherited)
          · exact Or.inl (ih has)
        · rw [page_sys_of_ne same new] at has
          exact Or.inl (ih has)

/-- `Ledger.expects`, decided. -/
def Ledger.finds (g : Ledger) : (c : SysCall) → c.Answer → Bool
  | .open_ _ _, (fd : Int) => -1 ≤ fd
  | .fork, (pid : Int) => -1 ≤ pid
  | .getschedparam, (param : Option (Int × Int)) => param.all fun p => p.2 = g.priority
  | _, _ => true

theorem expects_of_finds {g : Ledger} {c : SysCall} {r : c.Answer} (finds : g.finds c r = true) :
    g.expects c r := by
  cases c with
  | open_ path flags => exact of_decide_eq_true (p := -1 ≤ (show Int from r)) finds
  | fork => exact of_decide_eq_true (p := -1 ≤ (show Int from r)) finds
  | getschedparam =>
    rintro p rfl
    exact of_decide_eq_true finds
  | _ => trivial

/-- Every caller finds what it expects, from the books `b` on. -/
def expectedFrom (b : Books (ledgerTerms S base)) : List (Label S.table.tasks.length) → Bool
  | [] => true
  | .sys a c r :: log =>
    (b.page a).finds c r && expectedFrom (b.enter (ledgerTerms S base) (.sys a c r)) log
  | l :: log => expectedFrom (b.enter (ledgerTerms S base) l) log

omit [DecidableEq ID] in
theorem expects_of_expectedFrom {before after : List (Label S.table.tasks.length)} {a : Actor}
    {c : SysCall} {r : c.Answer}
    (expected : expectedFrom b (before ++ .sys a c r :: after) = true) :
    ((before.foldl (Books.enter (ledgerTerms S base)) b).page a).expects c r := by
  induction before generalizing b with
  | nil => exact expects_of_finds (Bool.and_eq_true_iff.mp expected).1
  | cons l before ih =>
    cases l with
    | sys a' c' r' => exact ih (Bool.and_eq_true_iff.mp expected).2
    | sched e => exact ih expected
    | gone a' c' => exact ih expected

omit [DecidableEq ID] in
/-- The answers are honest when nothing is opened twice, and each is what its caller expects. -/
theorem honest_of_new (new : (opened log).Nodup)
    (expected : expectedFrom (books (ledgerTerms S base) []) log = true) :
    Honest (ledgerTerms S base) log := by
  intro before l after same
  cases l with
  | sys a c r =>
    have unused : ∀ a', ((books (ledgerTerms S base) before).page a').unused c r := by
      intro a'
      apply unused_of_new
      intro x opens has
      have earlier := page_opened before has
      rw [same, opened, List.flatMap_append, List.flatMap_cons] at new
      exact (List.nodup_append.mp new).2.2 x earlier x (List.mem_append_left _ opens) rfl
    exact ⟨⟨unused a, expects_of_expectedFrom (same ▸ expected)⟩, fun a' _ _ => unused a'⟩
  | sched e => trivial
  | gone a c => trivial

end

/-! ## The boot program -/

theorem ledger_kept (tstr : List UInt8) (base : Int) :
    (ledgerTerms (bootSetup tstr) base).Kept where
  first t := ⟨rfl, ⟨by simp [emptyLedger], rfl, rfl⟩, rfl, Or.inr rfl⟩
  child g := ⟨fun positive => absurd positive (lt_irrefl 0), show (-1 : Int) ≤ 0 by decide⟩
  fnc it g tidy := by
    have parent : g.role ≠ .child := by
      rw [tidy.role]
      decide
    apply Program.wp_mono _ (restores_taskFnc _ g parent)
    exact fun _ g' alike => alike.tidy tidy
  main := wp_mainInit tstr ⟨rfl, ⟨by simp [emptyLedger], rfl, rfl⟩, le_rfl, rfl⟩

section
variable {tstr : List UInt8} {base : Int} {log : List (Label bootTable.tasks.length)}
  {s : State (bootSetup tstr)}

/-- The ledger of an actor after a run. -/
abbrev ledger (tstr : List UInt8) (base : Int) (log : List (Label bootTable.tasks.length))
    (a : Actor) : Ledger := (books (ledgerTerms (bootSetup tstr) base) log).page a

/-- In every run of the boot program, for every interleaving of its calls and every answer to
them, an actor uses only what it has open, and no other actor of the process has that open. No
thread replaces the program of the process, and a process of `fork` does nothing else and never
goes back into the function it was made in. A thread that is outside of the functions has
everything closed, unmapped and waited for, with its first priority unless the system has refused
to set it again, and so have all threads when `main` becomes `init`. `main` has its first priority
then and everything closed and unmapped; at most one process, the bootchart collector, has not been
waited for. -/
theorem ledger_discipline (run : (bootSetup tstr).Run log s)
    (honest : Honest (ledgerTerms (bootSetup tstr) base) log) :
    (∀ a c, s.pending a = some c → (ledger tstr base log a).holds c) ∧
    (∀ a a', a ≠ a' → a.isChild = false → a'.isChild = false →
      (ledger tstr base log a).Apart (ledger tstr base log a')) ∧
    (∀ t c, s.pending (.thread t) = some c → c.replaces = false) ∧
    (∀ j p, s.code (.child j) = some p → ∃ c, p.pending = some c ∧ c.replaces = true) ∧
    (∀ t, inside s.sched.threads t = none → (ledger tstr base log (.thread t)).Tidy) ∧
    (∀ c, s.pending .main = some c → c.replaces = true →
      (ledger tstr base log .main).Leaves ∧ ∀ t, (ledger tstr base log (.thread t)).Tidy) := by
  have bound := Run.bound (ledger_kept tstr base) run honest
  have roles : Roles (books (ledgerTerms (bootSetup tstr) base) log) := Run.roles run
  have rests : ∀ t, inside s.sched.threads t = none → (ledger tstr base log (.thread t)).Tidy :=
    fun t outside => bound.rests (((Run.wired run).threads t).mpr outside)
  refine ⟨fun a c stands => (bound.allowed stands).2, honest.separate, fun t c stands => ?_,
    fun j p here => ?_, rests, fun c stands replaces => ⟨?_, fun t => rests t ?_⟩⟩
  · have allowed := (bound.allowed stands).1
    rw [Ledger.mayCall, roles (.thread t)] at allowed
    exact allowed
  · cases stands : p.pending with
    | none =>
      rcases Program.pending_eq_none.mp stands with ⟨_, returned⟩
      have ends := Program.wp_returned (bound.keeps here) returned
      rcases ends with never | tidy
      · exact absurd never id
      · have role := tidy.role
        rw [roles (.child j)] at role
        cases role
    | some c =>
      have allowed := (bound.allowed (show s.pending (.child j) = some c by
        rw [State.pending, here]
        exact stands)).1
      rw [Ledger.mayCall, roles (.child j)] at allowed
      exact ⟨c, rfl, allowed⟩
  · have allowed := (bound.allowed stands).1
    rw [Ledger.mayCall, roles .main] at allowed
    exact allowed replaces
  · apply Run.outside run
    rw [stands]
    intro same
    rw [Option.some.inj same] at replaces
    cases replaces

end

/-- Numbers that are new with each call, for a kernel command line that asks for `bootchart`, a
preload list of one file, and a system that fails in nothing. -/
def bootReply (n : Nat) : (c : SysCall) → Option c.Answer
  | .open_ _ _ => some ((n + 3 : Nat) : Int)
  | .fork => some ((n + 100 : Nat) : Int)
  | .mmap _ _ => some (some (n, ascii "1 2 /x\n"))
  | .fopen _ _ => some (some n)
  | .freopen _ _ => some true
  | .read _ count => some (some (if count = 254 then ascii "quiet bootchart\n" else []))
  | .fread _ _ => some (ascii "box\n")
  | .fstat _ => some (7 : Int)
  | .getschedparam => some (some ((0 : Int), (0 : Int)))
  | .schedGetPriorityMax _ => some (9 : Int)
  | .schedGetPriorityMin _ => some (1 : Int)
  | .mount _ _ _ _ _ => some (0 : Int)
  | .mkdir _ _ => some (0 : Int)
  | .chmod _ _ => some (0 : Int)
  | .symlink _ _ => some (0 : Int)
  | .stat _ => some (0 : Int)
  | .setschedprio _ => some (0 : Int)
  | .waitpid _ => some (0 : Int)
  | .munmap _ _ => some ()
  | .close _ => some ()
  | .posixFadviseWillneed _ _ _ => some ()
  | .readahead _ _ _ => some ()
  | .fwrite _ _ => some ()
  | .fclose _ => some ()
  | .sethostname _ => some ()
  | .setenv _ _ => some ()
  | _ => none

/-- A boot with five threads, up to where `main` becomes `init`. -/
def bootLog : List (Label bootTable.tasks.length) :=
  ((bootSetup (List.replicate 255 0)).script bootReply bootPoolLog).log ++
    [.sys .main (.start 5) ()]

theorem bootLog_run : ∃ s, (bootSetup (List.replicate 255 0)).Run bootLog s ∧
    s.sched.Returned ∧ s.pending .main = some (.execv [ascii initApp]) :=
  run_of_replay next (State.init (bootSetup (List.replicate 255 0))) bootLog
    (fun s => s.sched.Returned ∧ s.pending .main = some (.execv [ascii initApp]))
    (by decide +kernel)

/-- The boot is honest, and when `main` becomes `init` only the collector has not been waited
for. -/
theorem ledger_discipline_bootchart : ∃ s, (bootSetup (List.replicate 255 0)).Run bootLog s ∧
    s.pending .main = some (.execv [ascii initApp]) ∧
    (ledger (List.replicate 255 0) 0 bootLog .main).children = [105] ∧
    (ledger (List.replicate 255 0) 0 bootLog .main).Leaves ∧
    ∀ t, (ledger (List.replicate 255 0) 0 bootLog (.thread t)).Tidy := by
  have honest : Honest (ledgerTerms (bootSetup (List.replicate 255 0)) 0) bootLog :=
    honest_of_new (by decide +kernel) (by decide +kernel)
  obtain ⟨s, run, -, stands⟩ := bootLog_run
  have left := (ledger_discipline run honest).2.2.2.2.2 _ stands rfl
  exact ⟨s, run, stands, by decide +kernel, left⟩

end DebianConf.Boot
