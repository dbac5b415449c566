import DebianConf.Boot.Duties
import DebianConf.Boot.ReachesInit
import Mathlib.Algebra.BigOperators.Fin
import Mathlib.Algebra.Order.Group.Multiset

/-!
# Nothing is done twice and nothing is left out

The books of what the actors have done and have left to do. What they have done is what the log
shows, every call of a function adds what this function has to do, and each function is called
once. So in every run each file system is mounted once and each command is started once.
-/

namespace DebianConf.Boot

open DebianConf.Lib DebianConf.SysLinux DebianConf.Tasks

/-! ## What the log shows -/

def Deed.isMount : Deed → Bool
  | .mounts _ _ _ _ _ => true
  | .starts _ => false

def Deed.argv : Deed → Option (List CStr)
  | .mounts _ _ _ _ _ => none
  | .starts argv => some argv

/-- The mount that a call makes. -/
def SysCall.mount? : SysCall → Option Deed
  | .mount source target fstype flags data => some (.mounts source target fstype flags data)
  | _ => none

def Label.mount? {n : Nat} : Label n → Option Deed
  | .sys _ c _ => c.mount?
  | _ => none

def Label.isFork {n : Nat} : Label n → Bool
  | .sys _ .fork _ => true
  | _ => false

/-- The process `j` has executed a program, or has failed to. -/
def Executes {n : Nat} (log : List (Label n)) (j : Nat) (argv : List CStr) : Prop :=
  (∃ r, .sys (.child j) (.execv argv) r ∈ log) ∨ .gone (.child j) (.execv argv) ∈ log

/-- Which functions the threads are inside of, and which function has made each process: that of
an entry, or `main`. -/
structure Births (n : Nat) where
  inside : Nat → Option (Fin n)
  makers : List (Option (Fin n))

/-- The function that an actor is in. -/
def Births.maker {n : Nat} (b : Births n) : Actor → Option (Fin n)
  | .thread t => b.inside t
  | _ => none

def Births.enter {n : Nat} (b : Births n) : Label n → Births n
  | .sched e => { b with inside := enters b.inside e }
  | .sys a c r => if c.spawns r then { b with makers := b.makers ++ [b.maker a] } else b
  | .gone _ _ => b

def births {n : Nat} (log : List (Label n)) : Births n := log.foldl Births.enter ⟨fun _ => none, []⟩

/-- The functions that have made the processes, in the order of the processes. -/
def makers {n : Nat} (log : List (Label n)) : List (Option (Fin n)) := (births log).makers

/-- What the function of an entry does, or `main`. -/
def makerDuties : Option bootTable.Ptr → List Deed
  | some it => duties (bootId it)
  | none => mainDuties

/-- What a boot does. -/
def bootDeeds : List Deed :=
  mainDuties ++ (List.finRange bootTable.tasks.length).flatMap fun it => duties (bootId it)

/-- Nothing is there twice. -/
theorem bootDeeds_nodup : bootDeeds.Nodup := by decide +kernel

theorem argv_injective {deed deed' : Deed} {argv : List CStr} (same : argv ∈ deed.argv)
    (same' : argv ∈ deed'.argv) : deed = deed' := by
  cases deed with
  | mounts source target fstype flags data => cases same
  | starts argv =>
    cases same
    cases deed' with
    | mounts source target fstype flags data => cases same'
    | starts argv' =>
      cases same'
      rfl

/-! ## One call -/

/-- What has been done and what is left. -/
def Duty.all (g : Duty) : Multiset Deed := ↑g.left + ↑g.made

/-- What a call does. -/
def Duty.deed (g : Duty) : SysCall → Multiset Deed
  | .mount source target fstype flags data => {.mounts source target fstype flags data}
  | .fork => ↑(g.left.take 1)
  | _ => 0

section
variable {tstr : List UInt8} {s : State (bootSetup tstr)} {g : Duty} {c : SysCall} {r : c.Answer}

theorem all_advance (g : Duty) : g.advance.all = g.all := by
  rcases g with ⟨left, made, program⟩
  cases left with
  | nil => rfl
  | cons deed rest =>
    show (↑rest : Multiset Deed) + ↑(deed :: made) = ↑(deed :: rest) + ↑made
    rw [← Multiset.cons_coe, ← Multiset.cons_coe, Multiset.add_cons, Multiset.cons_add]

theorem after_fork {pid : SysCall.Answer .fork} (admitted : s.admits .fork pid = true) :
    g.after .fork pid = g.advance := by
  have parent : pid ≠ inChild := by
    rintro rfl
    cases admitted
  exact if_neg parent

/-- A call of the process moves what it does from what is left to what has been done. -/
theorem all_after (admitted : s.admits c r = true) : (g.after c r).all = g.all := by
  cases c with
  | mount source target fstype flags data => exact all_advance g
  | fork =>
    rw [after_fork admitted]
    exact all_advance g
  | _ => rfl

theorem made_after (allowed : g.allows tstr c) (admitted : s.admits c r = true) :
    (↑(g.after c r).made : Multiset Deed) = g.deed c + ↑g.made := by
  cases c with
  | mount source target fstype flags data =>
    rcases allowed with ⟨rest, left⟩
    show (↑(g.left.take 1 ++ g.made) : Multiset Deed) = _
    rw [left]
    rfl
  | fork =>
    rw [after_fork admitted]
    rfl
  | _ => exact (zero_add _).symm

/-- What a call does is a mount, or the start of the next command. -/
theorem deed_filter (allowed : g.allows tstr c) :
    (g.deed c).filter (·.isMount) = ↑c.mount?.toList := by
  cases c with
  | fork =>
    rcases allowed with ⟨argv, rest, left⟩
    rw [Duty.deed, left]
    rfl
  | _ => rfl

end

/-! ## The books -/

/-- Every actor does what it has to do. -/
abbrev dutyTerms (tstr : List UInt8) : Terms (bootSetup tstr) where
  contract := dutyRules tstr
  first a := if a = .main then mainPage else idlePage
  elsewhere _ _ _ := True
  enter it g := { g with left := duties (bootId it) }
  AtRest g := g.left = []
  Final _ := True

theorem duty_kept (tstr : List UInt8) : (dutyTerms tstr).Kept where
  first t := rfl
  child g := trivial
  fnc it g _ := by
    apply Program.wp_mono _ (does_taskFnc tstr (bootId it) _ [] (List.append_nil _).symm)
    exact fun _ _ did => did.left
  main := wp_mainInit_duty tstr

/-- `main` and the threads. -/
def actors : Finset Actor := insert .main ((Finset.range 5).image Actor.thread)

theorem thread_mem_actors {t : Nat} : .thread t ∈ actors ↔ t < 5 := by
  simp [actors]

theorem child_of_mem_actors {a : Actor} (member : a ∈ actors) (j : Nat) : a ≠ .child j := by
  rintro rfl
  simp [actors] at member

section
variable {tstr : List UInt8} {log : List (Label bootTable.tasks.length)}
  {s s' : State (bootSetup tstr)} {b b' : Books (dutyTerms tstr)}

theorem duty_honest : Honest (dutyTerms tstr) log := by
  intro before l after _
  cases l with
  | sys a c r => exact ⟨trivial, fun _ _ _ => trivial⟩
  | sched e => trivial
  | gone a c => trivial

/-- What the actors have on their pages. -/
def total (f : Duty → Multiset Deed) (b : Books (dutyTerms tstr)) : Multiset Deed :=
  ∑ a ∈ actors, f (b.page a)

def made (b : Books (dutyTerms tstr)) : Multiset Deed := total (fun g => ↑g.made) b

theorem total_congr {f : Duty → Multiset Deed}
    (same : ∀ a ∈ actors, f (b'.page a) = f (b.page a)) : total f b' = total f b :=
  Finset.sum_congr rfl same

theorem total_change {f : Duty → Multiset Deed} {a : Actor} (member : a ∈ actors)
    (same : ∀ a' ∈ actors, a' ≠ a → b'.page a' = b.page a') {m : Multiset Deed}
    (grows : f (b'.page a) = m + f (b.page a)) : total f b' = m + total f b := by
  have others : ∑ a' ∈ actors.erase a, f (b'.page a') = ∑ a' ∈ actors.erase a, f (b.page a') :=
    Finset.sum_congr rfl fun a' there =>
      congrArg f (same a' (Finset.mem_of_mem_erase there) (Finset.ne_of_mem_erase there))
  rw [total, total, ← Finset.add_sum_erase _ _ member, ← Finset.add_sum_erase _ _ member, others,
    grows, add_assoc]

/-- What the calls of functions have given the threads to do, and `main`. -/
def given (events : List (Event bootTable.tasks.length)) : Multiset Deed :=
  ↑mainDuties + ∑ it, events.countP (Event.isCall it) • (↑(duties (bootId it)) : Multiset Deed)

/-- The program that a process is to execute. -/
def commandOf (b : Books (dutyTerms tstr)) (j : Nat) : List CStr :=
  ((b.page (.child j)).program).getD []

/-- The command that each process was forked for: what was next to do, then, in the function that
made it. -/
def commands (tstr : List UInt8) (log : List (Label bootTable.tasks.length)) : List (List CStr) :=
  (List.range (books (dutyTerms tstr) log).forked).map (commandOf (books (dutyTerms tstr) log))

/-- What the pages say has happened. -/
structure Accounts (log : List (Label bootTable.tasks.length)) (s : State (bootSetup tstr))
    (b : Books (dutyTerms tstr)) : Prop where
  balance : total Duty.all b = given (events log)
  mounts : (made b).filter (·.isMount) = ↑(log.filterMap Label.mount?)
  starts : ((made b).filterMap Deed.argv).card = log.countP Label.isFork
  idle : ∀ j, (b.page (.child j)).left = []
  /- the programs of the processes are the commands that have been started -/
  commands : ↑((List.range s.forked).map (commandOf b)) ≤ (made b).filterMap Deed.argv
  born : ∀ j < s.forked, (b.page (.child j)).program ≠ none
  executes : ∀ j argv, Executes log j argv →
    j < s.forked ∧ (b.page (.child j)).program = some argv

theorem total_init {f : Duty → Multiset Deed} (empty : f idlePage = 0) :
    total f (books (dutyTerms tstr) []) = f mainPage := by
  have page : ∀ a, (books (dutyTerms tstr) []).page a = if a = .main then mainPage else idlePage :=
    fun _ => rfl
  refine (Finset.sum_eq_single .main (fun a _ other => ?_) fun absent => ?_).trans ?_
  · rw [page, if_neg other, empty]
  · exact absurd (Finset.mem_insert_self ..) absent
  · rw [page, if_pos rfl]

theorem accounts_init :
    Accounts [] (State.init (bootSetup tstr)) (books (dutyTerms tstr) []) where
  balance := by
    rw [total_init rfl]
    simp [given, events, Duty.all, mainPage]
  mounts := by
    rw [made, total_init rfl]
    rfl
  starts := by
    rw [made, total_init rfl]
    rfl
  idle j := rfl
  commands := Multiset.zero_le _
  born j earlier := absurd earlier (Nat.not_lt_zero j)
  executes j argv executed := by
    rcases executed with ⟨_, member⟩ | member <;> cases member

/-- A step that does nothing of what is counted. -/
theorem Accounts.silent (accounts : Accounts log s b) {l : Label bootTable.tasks.length}
    (no_mount : l.mount? = none) (no_fork : l.isFork = false)
    (same : ∀ a, (b'.page a).made = (b.page a).made ∧ (b'.page a).program = (b.page a).program)
    (idle : ∀ j, (b'.page (.child j)).left = []) (forked : s'.forked = s.forked)
    (balance : total Duty.all b' = given (events (log ++ [l])))
    (executes : ∀ j argv, Executes (log ++ [l]) j argv →
      j < s.forked ∧ (b.page (.child j)).program = some argv) :
    Accounts (log ++ [l]) s' b' := by
  have made_same : made b' = made b := total_congr fun a _ => by rw [(same a).1]
  refine ⟨balance, ?_, ?_, idle, ?_, ?_, ?_⟩
  · rw [made_same, accounts.mounts, List.filterMap_append]
    simp [no_mount]
  · rw [made_same, accounts.starts, List.countP_append]
    simp [no_fork]
  · have commands : commandOf b' = commandOf b := funext fun j => by
      rw [commandOf, (same _).2, commandOf]
    rw [made_same, forked, commands]
    exact accounts.commands
  · intro j earlier
    rw [(same _).2]
    exact accounts.born j (forked ▸ earlier)
  · intro j argv executed
    rw [(same _).2, forked]
    exact executes j argv executed

theorem Executes.snoc {l : Label bootTable.tasks.length} {j : Nat} {argv : List CStr}
    (executed : Executes (log ++ [l]) j argv) : Executes log j argv ∨
      (∃ r, l = .sys (.child j) (.execv argv) r) ∨ l = .gone (.child j) (.execv argv) := by
  rcases executed with ⟨r, member⟩ | member
  · rcases List.mem_append.mp member with member | last
    · exact Or.inl (Or.inl ⟨r, member⟩)
    · exact Or.inr (Or.inl ⟨r, (List.mem_singleton.mp last).symm⟩)
  · rcases List.mem_append.mp member with member | last
    · exact Or.inl (Or.inr member)
    · exact Or.inr (Or.inr (List.mem_singleton.mp last).symm)

theorem given_call (log : List (Event bootTable.tasks.length)) (t : Nat) (it : bootTable.Ptr) :
    given (log ++ [.call t it]) = ↑(duties (bootId it)) + given log := by
  have counts : ∀ j, (log ++ [Event.call t it]).countP (Event.isCall j) =
      log.countP (Event.isCall j) + if it = j then 1 else 0 := by
    intro j
    simp [List.countP_append, List.countP_singleton, Event.isCall]
  simp only [given, counts, add_smul, Finset.sum_add_distrib, ite_smul, one_smul, zero_smul,
    Finset.sum_ite_eq, Finset.mem_univ, if_true]
  rw [← add_assoc, add_comm]

theorem given_other {log : List (Event bootTable.tasks.length)}
    {e : Event bootTable.tasks.length} (other : ∀ t it, e ≠ .call t it) :
    given (log ++ [e]) = given log := by
  have none : ∀ it, Event.isCall it e = false := by
    intro it
    cases e with
    | call t j => exact absurd rfl (other t j)
    | _ => rfl
  simp [given, List.countP_append, none]

/-- A step of the scheduler. Only a call gives a thread something to do. -/
theorem Accounts.sched (accounts : Accounts log s b) (threads : s.sched.threads.length ≤ 5)
    (wired : Wired s) (inv : Inv s.sched) (bound : Bound (dutyTerms tstr) s b)
    {e : Event bootTable.tasks.length} {sched : Tasks.State bootTable.tasks}
    {code : Actor → Option (Prog Unit)} (fired : Tasks.next s.sched e = some sched) :
    Accounts (log ++ [.sched e]) { s with sched := sched, code := code }
      (b.enter (dutyTerms tstr) (.sched e)) := by
  have executes : ∀ j argv, Executes (log ++ [.sched e]) j argv →
      j < s.forked ∧ (b.page (.child j)).program = some argv := by
    intro j argv executed
    rcases executed.snoc with before | ⟨_, same⟩ | same
    · exact accounts.executes j argv before
    · cases same
    · cases same
  have appended : events (log ++ [.sched e]) = events log ++ [e] :=
    events_snoc (S := bootSetup tstr) (.sched e)
  by_cases call : ∃ t it, e = .call t it
  · rcases call with ⟨t, it, rfl⟩
    obtain ⟨early, outside⟩ : t < 5 ∧ inside s.sched.threads t = none := by
      cases inv.step fired with
      | call at_t =>
        have bound_t := (List.getElem?_eq_some_iff.mp at_t).1
        exact ⟨bound_t.trans_le threads, by rw [inside, at_t]; rfl⟩
    have rests : (b.page (.thread t)).left = [] := bound.rests ((wired.threads t).mpr outside)
    have page : (b.enter (dutyTerms tstr) (.sched (.call t it))).page = Function.update b.page
        (.thread t) { b.page (.thread t) with left := duties (bootId it) } := rfl
    refine accounts.silent rfl rfl (fun a => ?_) (fun j => accounts.idle j) rfl ?_ executes
    · rw [page, Function.update_apply]
      split
      · next same => exact same ▸ ⟨rfl, rfl⟩
      · exact ⟨rfl, rfl⟩
    · rw [appended, given_call, ← accounts.balance]
      refine total_change (thread_mem_actors.mpr early) (fun a _ other => ?_) ?_
      · rw [page, Function.update_of_ne other]
      · rw [page, Function.update_self, Duty.all, Duty.all, rests]
        exact congrArg _ (zero_add _).symm
  · have quiet : ∀ t it, e ≠ .call t it := fun t it same => call ⟨t, it, same⟩
    have page : b.enter (dutyTerms tstr) (.sched e) = b := by
      cases e with
      | call t it => exact absurd rfl (quiet t it)
      | _ => rfl
    rw [page]
    refine accounts.silent rfl rfl (fun _ => ⟨rfl, rfl⟩) accounts.idle rfl ?_ executes
    rw [accounts.balance, appended, given_other quiet]

/-- What a call of the process adds to the log and to the pages. -/
theorem made_call {a : Actor} (member : a ∈ actors) {c : SysCall} {r : c.Answer}
    (allowed : (b.page a).allows tstr c) (admitted : s.admits c r = true) :
    made (b.enter (dutyTerms tstr) (.sys a c r)) = (b.page a).deed c + made b ∧
      total Duty.all (b.enter (dutyTerms tstr) (.sys a c r)) = total Duty.all b := by
  have others : ∀ a' ∈ actors, a' ≠ a →
      (b.enter (dutyTerms tstr) (.sys a c r)).page a' = b.page a' :=
    fun a' there other => page_sys_of_ne other (child_of_mem_actors there _) c r
  constructor
  · apply total_change member others
    rw [page_sys_self]
    exact made_after allowed admitted
  · rw [← zero_add (total Duty.all b)]
    apply total_change member others
    rw [page_sys_self, zero_add]
    exact all_after admitted

theorem deed_fork {g : Duty} {argv : List CStr} {rest : List Deed}
    (left : g.left = .starts argv :: rest) : (g.deed .fork).filterMap Deed.argv = {argv} := by
  rw [Duty.deed, left]
  rfl

/-- The starts that a call makes are its forks. -/
theorem card_deed {g : Duty} {c : SysCall} (allowed : g.allows tstr c) (a : Actor) (r : c.Answer) :
    ((g.deed c).filterMap Deed.argv).card =
      [(.sys a c r : Label bootTable.tasks.length)].countP Label.isFork := by
  cases c with
  | fork =>
    obtain ⟨argv, rest, left⟩ := allowed
    rw [deed_fork left]
    rfl
  | _ => rfl

theorem page_older {a : Actor} (process : ∀ j, a ≠ .child j) {j : Nat} (old : j ≠ b.forked)
    (c : SysCall) (r : c.Answer) :
    (b.enter (dutyTerms tstr) (.sys a c r)).page (.child j) = b.page (.child j) :=
  page_sys_of_ne (Ne.symm (process j)) (fun same => old (Actor.child.inj same)) c r

/-- A new process is to execute what was next on the page of its parent. -/
theorem commands_spawn {a : Actor} (process : ∀ j, a ≠ .child j)
    (allowed : (b.page a).allows tstr .fork) {r : SysCall.Answer .fork}
    (spawns : SysCall.spawns .fork r = true) :
    ∃ argv rest, (b.page a).left = .starts argv :: rest ∧
      ((b.enter (dutyTerms tstr) (.sys a .fork r)).page (.child b.forked)).program = some argv ∧
      (List.range (b.forked + 1)).map (commandOf (b.enter (dutyTerms tstr) (.sys a .fork r))) =
        (List.range b.forked).map (commandOf b) ++ [argv] := by
  rcases allowed with ⟨argv, rest, left⟩
  have program : ((b.enter (dutyTerms tstr) (.sys a .fork r)).page (.child b.forked)).program =
      some argv := by
    rw [page_sys_child (Ne.symm (process _)), if_pos spawns]
    show (b.page a).next = some argv
    rw [Duty.next, left]
  refine ⟨argv, rest, left, program, ?_⟩
  have before : ∀ j ∈ List.range b.forked,
      commandOf (b.enter (dutyTerms tstr) (.sys a .fork r)) j = commandOf b j := by
    intro j there
    rw [commandOf, page_older process (List.mem_range.mp there).ne, commandOf]
  rw [List.range_succ, List.map_append, List.map_congr_left before, List.map_singleton, commandOf,
    program, Option.getD_some]

theorem Accounts.call (accounts : Accounts log s b) (forked : b.forked = s.forked) {a : Actor}
    (member : a ∈ actors) {c : SysCall} {r : c.Answer} (allowed : (b.page a).allows tstr c)
    (admitted : s.admits c r = true) {code : Actor → Option (Prog Unit)} :
    Accounts (log ++ [.sys a c r])
      { s with code := code, forked := if c.spawns r then s.forked + 1 else s.forked }
      (b.enter (dutyTerms tstr) (.sys a c r)) := by
  have process := child_of_mem_actors member
  obtain ⟨made_eq, all_eq⟩ := made_call (b := b) (r := r) member allowed admitted
  have older : ∀ j, j ≠ s.forked → (b.enter (dutyTerms tstr) (.sys a c r)).page (.child j) =
      b.page (.child j) := fun j other => page_older process (forked ▸ other) c r
  have newest : (b.enter (dutyTerms tstr) (.sys a c r)).page (.child s.forked) =
      if c.spawns r then (b.page a).child else b.page (.child s.forked) := by
    rw [← forked]
    exact page_sys_child (Ne.symm (process _)) c r
  have earlier : ∀ j argv, Executes (log ++ [.sys a c r]) j argv →
      j < s.forked ∧ (b.page (.child j)).program = some argv := by
    intro j argv executed
    rcases executed.snoc with before | ⟨_, same⟩ | same
    · exact accounts.executes j argv before
    · cases same
      exact absurd rfl (process j)
    · cases same
  have balance : total Duty.all (b.enter (dutyTerms tstr) (.sys a c r)) =
      given (events (log ++ [.sys a c r])) := by
    rw [all_eq, accounts.balance, events_snoc (S := bootSetup tstr) (.sys a c r)]
    exact congrArg given (List.append_nil _).symm
  have mounts : (made (b.enter (dutyTerms tstr) (.sys a c r))).filter (·.isMount) =
      ↑((log ++ [Label.sys a c r]).filterMap Label.mount?) := by
    rw [made_eq, Multiset.filter_add, deed_filter allowed, accounts.mounts,
      List.filterMap_append, ← Multiset.coe_add, add_comm]
    rfl
  have starts : ((made (b.enter (dutyTerms tstr) (.sys a c r))).filterMap Deed.argv).card =
      (log ++ [Label.sys a c r]).countP Label.isFork := by
    rw [made_eq, Multiset.filterMap_add, Multiset.card_add, accounts.starts, List.countP_append,
      card_deed allowed a r, add_comm]
  by_cases spawns : c.spawns r = true
  · obtain rfl := fork_of_spawns spawns
    obtain ⟨argv, rest, left, program, listed⟩ := commands_spawn process allowed spawns
    rw [forked] at program listed
    rw [if_pos spawns] at newest
    rw [if_pos spawns]
    refine ⟨balance, mounts, starts, fun j => ?_, ?_, fun j early => ?_, fun j argv executed => ?_⟩
    · by_cases new : j = s.forked
      · rw [new, newest]
        rfl
      · rw [older j new]
        exact accounts.idle j
    · rw [made_eq, Multiset.filterMap_add, deed_fork left, listed, ← Multiset.coe_add, add_comm]
      exact add_le_add_right accounts.commands _
    · by_cases new : j = s.forked
      · rw [new, program]
        exact Option.some_ne_none argv
      · rw [older j new]
        have early : j < s.forked + 1 := early
        exact accounts.born j (by omega)
    · obtain ⟨early, program⟩ := earlier j argv executed
      exact ⟨Nat.lt_succ_of_lt early, by rw [older j early.ne, program]⟩
  · rw [if_neg spawns] at newest
    rw [if_neg spawns]
    have same : ∀ j, (b.enter (dutyTerms tstr) (.sys a c r)).page (.child j) =
        b.page (.child j) := by
      intro j
      by_cases new : j = s.forked
      · rw [new, newest]
      · exact older j new
    refine ⟨balance, mounts, starts, fun j => ?_, ?_, fun j early => ?_, fun j argv executed => ?_⟩
    · rw [same]
      exact accounts.idle j
    · have commands : commandOf (b.enter (dutyTerms tstr) (.sys a c r)) = commandOf b :=
        funext fun j => by rw [commandOf, same, commandOf]
      rw [commands, made_eq, Multiset.filterMap_add]
      exact accounts.commands.trans (Multiset.le_add_left _ _)
    · rw [same]
      exact accounts.born j early
    · rw [same]
      exact earlier j argv executed

/-- A process that is not done yet has been started. -/
theorem Wired.started (wired : Wired s) {j : Nat} {c : SysCall}
    (stands : s.pending (.child j) = some c) : j < s.forked := by
  by_contra unborn
  rw [State.pending, wired.children j (Nat.le_of_not_lt unborn)] at stands
  cases stands

/-- A new process mounts and starts nothing. -/
theorem Accounts.child (accounts : Accounts log s b) (wired : Wired s)
    (bound : Bound (dutyTerms tstr) s b) {j : Nat} {c : SysCall} {r : c.Answer}
    (stands : s.pending (.child j) = some c) {code : Actor → Option (Prog Unit)} :
    Accounts (log ++ [.sys (.child j) c r])
      { s with code := code, forked := if c.spawns r then s.forked + 1 else s.forked }
      (b.enter (dutyTerms tstr) (.sys (.child j) c r)) := by
  have allowed : (b.page (.child j)).allows tstr c := bound.allowed stands
  have idle := accounts.idle j
  have quiet : c.mount? = none ∧ c ≠ .fork := by
    cases c with
    | mount source target fstype flags data =>
      rcases allowed with ⟨rest, left⟩
      rw [idle] at left
      cases left
    | fork =>
      rcases allowed with ⟨argv, rest, left⟩
      rw [idle] at left
      cases left
    | _ => exact ⟨rfl, nofun⟩
  have lone : c.spawns r = false := by
    by_contra spawns
    exact quiet.2 (fork_of_spawns (Bool.not_eq_false _ ▸ spawns))
  have after : ((b.page (.child j)).after c r).left = (b.page (.child j)).left ∧
      ((b.page (.child j)).after c r).made = (b.page (.child j)).made ∧
      ((b.page (.child j)).after c r).program = (b.page (.child j)).program := by
    cases c with
    | mount source target fstype flags data => cases quiet.1
    | fork => exact absurd rfl quiet.2
    | _ => exact ⟨rfl, rfl, rfl⟩
  have page : ∀ a,
      ((b.enter (dutyTerms tstr) (.sys (.child j) c r)).page a).left = (b.page a).left ∧
      ((b.enter (dutyTerms tstr) (.sys (.child j) c r)).page a).made = (b.page a).made ∧
      ((b.enter (dutyTerms tstr) (.sys (.child j) c r)).page a).program = (b.page a).program := by
    intro a
    by_cases same : a = .child j
    · rw [same, page_sys_self]
      exact after
    · have unchanged : (b.enter (dutyTerms tstr) (.sys (.child j) c r)).page a = b.page a := by
        by_cases new : a = .child b.forked
        · subst new
          rw [page_sys_child same, if_neg (Bool.eq_false_iff.mp lone)]
        · exact page_sys_of_ne same new c r
      rw [unchanged]
      exact ⟨rfl, rfl, rfl⟩
  refine accounts.silent quiet.1 ?_ (fun a => (page a).2)
    (fun k => (page _).1.trans (accounts.idle k)) (by rw [lone]; rfl) ?_ fun k argv executed => ?_
  · cases c with
    | fork => exact absurd rfl quiet.2
    | _ => rfl
  · have total_same : total Duty.all (b.enter (dutyTerms tstr) (.sys (.child j) c r)) =
        total Duty.all b := total_congr fun a _ => by
      rw [Duty.all, Duty.all, (page a).1, (page a).2.1]
    rw [total_same, accounts.balance, events_snoc (S := bootSetup tstr) (.sys (.child j) c r)]
    exact congrArg given (List.append_nil _).symm
  · rcases executed.snoc with before | ⟨_, same⟩ | same
    · exact accounts.executes k argv before
    · cases same
      exact ⟨wired.started stands, allowed.1⟩
    · cases same

/-- A process that is gone, or `main`, was to execute what it executes. -/
theorem Accounts.gone (accounts : Accounts log s b) (wired : Wired s)
    (bound : Bound (dutyTerms tstr) s b) {a : Actor} {c : SysCall} (stands : s.pending a = some c)
    {code : Actor → Option (Prog Unit)} :
    Accounts (log ++ [.gone a c]) { s with code := code } b := by
  refine accounts.silent rfl rfl (fun _ => ⟨rfl, rfl⟩) accounts.idle rfl ?_
    fun j argv executed => ?_
  · rw [accounts.balance, events_snoc (S := bootSetup tstr) (.gone a c)]
    exact congrArg given (List.append_nil _).symm
  · rcases executed.snoc with before | ⟨_, same⟩ | same
    · exact accounts.executes j argv before
    · cases same
    · cases same
      exact ⟨wired.started stands, (bound.allowed stands).1⟩

theorem Accounts.step (accounts : Accounts log s b) (threads : s.sched.threads.length ≤ 5)
    (wired : Wired s) (inv : Inv s.sched) (bound : Bound (dutyTerms tstr) s b)
    {l : Label (bootSetup tstr).table.tasks.length} (step : Step s l s') :
    Accounts (log ++ [l]) s' (b.enter (dutyTerms tstr) l) := by
  cases step with
  | sched starting fired dispatched => exact accounts.sched threads wired inv bound fired
  | @sys a c r p p' admitted here answered =>
    have stands := pending_of_answer here answered
    cases a with
    | main =>
      exact accounts.call bound.forked (Finset.mem_insert_self ..) (bound.allowed stands) admitted
    | thread t =>
      have early : t < 5 := by
        have entered : inside s.sched.threads t ≠ none := by
          rw [ne_eq, ← wired.threads, here]
          exact Option.some_ne_none p
        by_contra late
        apply entered
        rw [inside, List.getElem?_eq_none (threads.trans (Nat.le_of_not_lt late))]
        rfl
      exact accounts.call bound.forked (thread_mem_actors.mpr early) (bound.allowed stands) admitted
    | child j => exact accounts.child wired bound stands
  | gone replaces apart stands => exact accounts.gone wired bound stands

theorem Run.accounts (run : (bootSetup tstr).Run log s) :
    Accounts log s (books (dutyTerms tstr) log) := by
  induction run with
  | nil => exact accounts_init
  | snoc before fired ih =>
    have history := Tasks.Run.history (Run.sched before)
    rw [books_snoc]
    refine ih.step ?_ (Run.wired before) history.inv
      (Run.bound (duty_kept tstr) before duty_honest) (step_of_next fired)
    have created := history.created
    exact Nat.le_of_add_left_le created.le

/-! ## Which function makes which process -/

/-- Every process has been made for a command of the function that made it. -/
structure Origins (log : List (Label bootTable.tasks.length)) (s : State (bootSetup tstr))
    (b : Books (dutyTerms tstr)) : Prop where
  entered : (births log).inside = inside s.sched.threads
  left : ∀ a, (b.page a).left ⊆ makerDuties ((births log).maker a)
  made : List.Forall₂ (fun maker argv => .starts argv ∈ makerDuties maker) (births log).makers
    ((List.range b.forked).map (commandOf b))

theorem births_snoc (l : Label bootTable.tasks.length) :
    births (log ++ [l]) = (births log).enter l := by
  rw [births, List.foldl_append]
  rfl

theorem left_after (g : Duty) (c : SysCall) (r : c.Answer) : (g.after c r).left ⊆ g.left := by
  cases c with
  | mount source target fstype flags data => exact List.tail_subset _
  | fork =>
    simp only [Duty.after]
    split
    · exact List.nil_subset _
    · exact List.tail_subset _
  | _ => exact List.Subset.refl _

theorem program_after {g : Duty} {c : SysCall} {r : c.Answer} (admitted : s.admits c r = true) :
    (g.after c r).program = g.program := by
  cases c with
  | fork =>
    rw [after_fork admitted]
    rfl
  | _ => rfl

/-- Only a call gives a thread something to do, and that is what the function does. -/
theorem Origins.left_call (origins : Origins log s b) {e : Event bootTable.tasks.length} {t : Nat}
    {it : bootTable.Ptr} (entered : enters (inside s.sched.threads) e t = some it) :
    ((b.enter (dutyTerms tstr) (.sched e)).page (.thread t)).left ⊆ duties (bootId it) := by
  have stays : ∀ {it}, inside s.sched.threads t = some it →
      (b.page (.thread t)).left ⊆ duties (bootId it) := by
    intro it here
    have left := origins.left (.thread t)
    rw [Births.maker, origins.entered, here] at left
    exact left
  cases e with
  | call t' it' =>
    show (Function.update b.page (.thread t') _ (.thread t)).left ⊆ _
    rw [enters, Function.update_apply] at entered
    split at entered
    · next same =>
      cases entered
      rw [same, Function.update_self]
      exact List.Subset.refl _
    · next other =>
      rw [Function.update_of_ne fun same => other (Actor.thread.inj same)]
      exact stays entered
  | ret t' it' =>
    rw [enters, Function.update_apply] at entered
    split at entered
    · cases entered
    · exact stays entered
  | _ => exact stays entered

theorem Origins.sched (origins : Origins log s b) (inv : Inv s.sched)
    {e : Event bootTable.tasks.length} (fired : Tasks.next s.sched e = some s'.sched)
    (wired' : Wired s') (bound' : Bound (dutyTerms tstr) s' (b.enter (dutyTerms tstr) (.sched e))) :
    Origins (log ++ [.sched e]) s' (b.enter (dutyTerms tstr) (.sched e)) := by
  have moves := inside_step (inv.step fired)
  have entered : (births (log ++ [.sched e])).inside = inside s'.sched.threads := by
    rw [births_snoc, moves, ← origins.entered]
    rfl
  refine ⟨entered, fun a => ?_, ?_⟩
  · cases a with
    | thread t =>
      rw [Births.maker, entered]
      cases here : inside s'.sched.threads t with
      | none =>
        rw [bound'.rests ((wired'.threads t).mpr here)]
        exact List.nil_subset _
      | some it => exact origins.left_call (by rw [← moves, here])
    | main => cases e <;> exact origins.left .main
    | child j => cases e <;> exact origins.left (.child j)
  · rw [births_snoc]
    cases e <;> exact origins.made

theorem Origins.call (origins : Origins log s b) (idle : ∀ j, (b.page (.child j)).left = [])
    {a : Actor} {c : SysCall} {r : c.Answer} (allowed : (b.page a).allows tstr c)
    (admitted : s.admits c r = true) (same : s'.sched = s.sched) :
    Origins (log ++ [.sys a c r]) s' (b.enter (dutyTerms tstr) (.sys a c r)) := by
  have makers : (births (log ++ [.sys a c r])).inside = (births log).inside ∧
      ∀ a', (births (log ++ [.sys a c r])).maker a' = (births log).maker a' := by
    rw [births_snoc, Births.enter]
    split <;> exact ⟨rfl, fun a' => by cases a' <;> rfl⟩
  refine ⟨by rw [makers.1, same, origins.entered], fun a' => ?_, ?_⟩
  · rw [makers.2]
    by_cases caller : a' = a
    · subst caller
      rw [page_sys_self]
      exact List.Subset.trans (left_after _ c r) (origins.left a')
    · by_cases new : a' = .child b.forked
      · subst new
        rw [page_sys_child caller]
        split
        · exact List.nil_subset _
        · exact origins.left _
      · rw [page_sys_of_ne caller new]
        exact origins.left a'
  · rw [births_snoc, Births.enter]
    by_cases spawns : c.spawns r = true
    · obtain rfl := fork_of_spawns spawns
      have process : ∀ j, a ≠ .child j := by
        rintro j rfl
        obtain ⟨argv, rest, left⟩ := allowed
        rw [idle] at left
        cases left
      obtain ⟨argv, rest, left, _, listed⟩ := commands_spawn process allowed spawns
      have forked : (b.enter (dutyTerms tstr) (.sys a .fork r)).forked = b.forked + 1 :=
        if_pos spawns
      rw [if_pos spawns, forked, listed]
      refine List.rel_append origins.made (.cons ?_ .nil)
      exact origins.left a (left ▸ List.mem_cons_self)
    · have forked : (b.enter (dutyTerms tstr) (.sys a c r)).forked = b.forked := if_neg spawns
      have commands : commandOf (b.enter (dutyTerms tstr) (.sys a c r)) = commandOf b := by
        funext j
        rw [commandOf, commandOf]
        by_cases caller : .child j = a
        · rw [caller, page_sys_self, program_after admitted]
        · by_cases new : j = b.forked
          · rw [new] at caller ⊢
            rw [page_sys_child caller, if_neg spawns]
          · rw [page_sys_of_ne caller fun same => new (Actor.child.inj same)]
      rw [if_neg spawns, forked, commands]
      exact origins.made

theorem Origins.step (origins : Origins log s b) (accounts : Accounts log s b)
    (inv : Inv s.sched) (bound : Bound (dutyTerms tstr) s b) (wired' : Wired s')
    {l : Label (bootSetup tstr).table.tasks.length}
    (bound' : Bound (dutyTerms tstr) s' (b.enter (dutyTerms tstr) l)) (step : Step s l s') :
    Origins (log ++ [l]) s' (b.enter (dutyTerms tstr) l) := by
  cases step with
  | sched starting fired dispatched => exact origins.sched inv fired wired' bound'
  | sys admitted here answered =>
    exact origins.call accounts.idle (bound.allowed (pending_of_answer here answered)) admitted rfl
  | gone replaces apart stands =>
    refine ⟨?_, ?_, ?_⟩ <;> rw [births_snoc]
    exacts [origins.entered, origins.left, origins.made]

theorem Run.origins (run : (bootSetup tstr).Run log s) :
    Origins log s (books (dutyTerms tstr) log) := by
  induction run with
  | nil =>
    refine ⟨rfl, fun a => ?_, .nil⟩
    cases a with
    | main => exact List.Subset.refl _
    | _ => exact List.nil_subset _
  | snoc before fired ih =>
    have after := before.snoc fired
    have bound' := Run.bound (duty_kept tstr) after duty_honest
    rw [books_snoc] at bound' ⊢
    exact ih.step (Run.accounts before) (Reachable.inv ⟨_, Run.sched before⟩)
      (Run.bound (duty_kept tstr) before duty_honest) (Run.wired after) bound' (step_of_next fired)

/-! ## What `main` has heard -/

/-- A label that `main` hears of. -/
def hears {n : Nat} (heard : Int × List UInt8) : Label n → Int × List UInt8
  | .sys .main c r => hear heard c r
  | _ => heard

/-- What the calls of `main` to `open` and `read` have answered last: it makes one of each, for the
kernel command line. -/
def heardOf {n : Nat} (log : List (Label n)) : Int × List UInt8 := log.foldl hears (-1, [])

theorem heard_after {g : Duty} {c : SysCall} {r : c.Answer} (admitted : s.admits c r = true) :
    (g.after c r).heard = hear g.heard c r ∧ (g.after c r).main = g.main := by
  cases c with
  | fork =>
    rw [after_fork admitted]
    exact ⟨rfl, rfl⟩
  | _ => exact ⟨rfl, rfl⟩

theorem Step.heard {l : Label (bootSetup tstr).table.tasks.length} (step : Step s l s') :
    ((b.enter (dutyTerms tstr) l).page .main).heard = hears (b.page .main).heard l ∧
      ((b.enter (dutyTerms tstr) l).page .main).main = (b.page .main).main := by
  cases step with
  | @sched e sched code starting fired dispatched => cases e <;> exact ⟨rfl, rfl⟩
  | @sys a c r p p' admitted here answered =>
    by_cases main : a = .main
    · subst main
      rw [page_sys_self]
      exact heard_after admitted
    · rw [page_sys_of_ne (Ne.symm main) (by simp)]
      cases a with
      | main => exact absurd rfl main
      | _ => exact ⟨rfl, rfl⟩
  | gone replaces apart stands => exact ⟨rfl, rfl⟩

theorem Run.heard (run : (bootSetup tstr).Run log s) :
    ((books (dutyTerms tstr) log).page .main).heard = heardOf log ∧
      ((books (dutyTerms tstr) log).page .main).main = true := by
  induction run with
  | nil => exact ⟨rfl, rfl⟩
  | snoc before fired ih =>
    obtain ⟨heard, main⟩ := Step.heard (b := books (dutyTerms tstr) _) (step_of_next fired)
    rw [books_snoc, heard, main, ih.1, heardOf, heardOf, List.foldl_append]
    exact ⟨rfl, ih.2⟩

/-- What is left out of a boot. -/
def leftOut {n : Nat} (tstr : List UInt8) (log : List (Label n)) : List Deed :=
  if asked tstr (heardOf log) then [] else [bootchart]

/-! ## The boot -/

/-- No function is called twice. -/
theorem Run.called_once (run : (bootSetup tstr).Run log s) (it : bootTable.Ptr) :
    (events log).countP (Event.isCall it) ≤ 1 :=
  (Tasks.Run.history (Run.sched run)).calls_le_one it

theorem coe_flatMap {α β : Type} (f : α → List β) (l : List α) :
    (l.map fun a => (↑(f a) : Multiset β)).sum = ↑(l.flatMap f) := by
  induction l with
  | nil => rfl
  | cons a l ih => rw [List.map_cons, List.sum_cons, ih, List.flatMap_cons, Multiset.coe_add]

theorem bootDeeds_eq : (↑bootDeeds : Multiset Deed) =
    ↑mainDuties + ∑ it, (↑(duties (bootId it)) : Multiset Deed) := by
  rw [bootDeeds, ← Multiset.coe_add, ← coe_flatMap, Fin.sum_univ_def]

/-- What has been given to the actors is never more than what a boot does. -/
theorem Run.given_le (run : (bootSetup tstr).Run log s) : given (events log) ≤ ↑bootDeeds := by
  rw [bootDeeds_eq, given]
  refine add_le_add_right (Finset.sum_le_sum fun it _ => ?_) _
  rcases Nat.le_one_iff_eq_zero_or_eq_one.mp (Run.called_once run it) with never | once
  · rw [never, zero_smul]
    exact Multiset.zero_le _
  · rw [once, one_smul]

theorem Run.made_le (run : (bootSetup tstr).Run log s) :
    made (books (dutyTerms tstr) log) ≤ ↑bootDeeds := by
  have part : made (books (dutyTerms tstr) log) ≤ total Duty.all (books (dutyTerms tstr) log) :=
    Finset.sum_le_sum fun a _ => Multiset.le_add_left _ _
  rw [(Run.accounts run).balance] at part
  exact part.trans (Run.given_le run)

/-- When `main` becomes `init` every function has been called. -/
theorem Run.given_all (run : (bootSetup tstr).Run log s) (becomes : BecomesInit s) :
    given (events log) = ↑bootDeeds := by
  have once : ∀ it, (events log).countP (Event.isCall it) = 1 := by
    intro it
    apply Nat.le_antisymm (Run.called_once run it)
    rw [(Tasks.Run.history (Run.sched run)).calls it, if_pos (becomes.1.2 it)]
    exact Nat.le_add_right ..
  rw [bootDeeds_eq, given]
  simp only [once, one_smul]

/-- When `main` becomes `init` nothing is left out but the command of `bootchart`. -/
theorem Run.made_all (run : (bootSetup tstr).Run log s) (becomes : BecomesInit s) :
    made (books (dutyTerms tstr) log) + ↑(leftOut tstr log) = ↑bootDeeds := by
  have bound := Run.bound (duty_kept tstr) run duty_honest
  have away : s.pending .main ≠ some (.start 5) := by
    rw [becomes.2]
    exact nofun
  have rests : ∀ a ∈ actors, a ≠ .main → ((books (dutyTerms tstr) log).page a).left = [] := by
    intro a member other
    cases a with
    | main => exact absurd rfl other
    | thread t => exact bound.rests (((Run.wired run).threads t).mpr (Run.outside run away t))
    | child j => exact absurd rfl (child_of_mem_actors member j)
  have skipped : ((books (dutyTerms tstr) log).page .main).left = leftOut tstr log := by
    obtain ⟨heard, main⟩ := Run.heard run
    refine (bound.allowed becomes.2).2.trans ?_
    rw [Duty.skipped, leftOut, heard, main]
    cases asked tstr (heardOf log) <;> rfl
  rw [← Run.given_all run becomes, ← (Run.accounts run).balance, add_comm]
  have left : total (fun g => (↑g.left : Multiset Deed)) (books (dutyTerms tstr) log) =
      ↑(leftOut tstr log) := by
    rw [← skipped]
    refine Finset.sum_eq_single Actor.main (fun a member other => ?_) fun absent => ?_
    · exact congrArg _ (rests a member other)
    · exact absurd (Finset.mem_insert_self ..) absent
  rw [← left]
  exact Finset.sum_add_distrib.symm

/-- In every run of the boot program, for every interleaving of its calls and every answer to
them, no file system is mounted twice and no command is started twice. Every process was made for
one of the commands of the function that made it, and executes that command. When `main` becomes
`init`, every mount has been made and every command has been started, but that of `bootchart` if
what `main` has read of the kernel command line does not ask for it, unless a `fork` has failed. -/
theorem boot_once (run : (bootSetup tstr).Run log s) :
    (log.filterMap Label.mount?).Nodup ∧
    (log.filterMap Label.mount?).Subperm (bootDeeds.filter (·.isMount)) ∧
    (commands tstr log).length = s.forked ∧ (commands tstr log).Nodup ∧
    (commands tstr log).Subperm (bootDeeds.filterMap Deed.argv) ∧
    List.Forall₂ (fun maker argv => .starts argv ∈ makerDuties maker) (makers log)
      (commands tstr log) ∧
    (∀ j argv, Executes log j argv ∨ s.pending (.child j) = some (.execv argv) →
      (commands tstr log)[j]? = some argv) ∧
    (BecomesInit s →
      (log.filterMap Label.mount?).Perm (bootDeeds.filter (·.isMount)) ∧
      (s.forked = log.countP Label.isFork →
        (commands tstr log ++ (leftOut tstr log).filterMap Deed.argv).Perm
          (bootDeeds.filterMap Deed.argv))) := by
  have accounts := Run.accounts run
  have bound := Run.bound (duty_kept tstr) run duty_honest
  have part := Run.made_le run
  have mounts : (↑(log.filterMap Label.mount?) : Multiset Deed) ≤
      ↑(bootDeeds.filter (·.isMount)) := by
    rw [← accounts.mounts]
    exact Multiset.filter_le_filter _ part
  have listed : commands tstr log =
      (List.range s.forked).map (commandOf (books (dutyTerms tstr) log)) := by
    rw [commands, bound.forked]
  have started : ↑(commands tstr log) ≤ (made (books (dutyTerms tstr) log)).filterMap Deed.argv :=
    listed ▸ accounts.commands
  have known : ↑(commands tstr log) ≤ (↑(bootDeeds.filterMap Deed.argv) : Multiset (List CStr)) :=
    started.trans (Multiset.filterMap_le_filterMap _ part)
  have length : (commands tstr log).length = s.forked := by
    rw [listed, List.length_map, List.length_range]
  have distinct : (bootDeeds.filterMap Deed.argv).Nodup :=
    bootDeeds_nodup.filterMap fun _ _ _ same same' => argv_injective same same'
  refine ⟨Multiset.nodup_of_le mounts (bootDeeds_nodup.filter _), Multiset.coe_le.mp mounts,
    length, Multiset.nodup_of_le known distinct, Multiset.coe_le.mp known,
    (Run.origins run).made, ?_, fun becomes => ?_⟩
  · intro j argv executes
    obtain ⟨early, program⟩ : j < s.forked ∧
        ((books (dutyTerms tstr) log).page (.child j)).program = some argv := by
      rcases executes with executed | stands
      · exact accounts.executes j argv executed
      · exact ⟨(Run.wired run).started stands, (bound.allowed stands).1⟩
    rw [listed, List.getElem?_map, List.getElem?_range early, Option.map_some, commandOf, program,
      Option.getD_some]
  · have whole := Run.made_all run becomes
    constructor
    · have mounts := congrArg (Multiset.filter (·.isMount)) whole
      have none : Multiset.filter (·.isMount) (↑(leftOut tstr log) : Multiset Deed) = 0 := by
        unfold leftOut
        split <;> rfl
      rw [Multiset.filter_add, none, add_zero, accounts.mounts] at mounts
      exact Multiset.coe_eq_coe.mp mounts
    · intro succeeded
      have starts := congrArg (Multiset.filterMap Deed.argv) whole
      have all : ↑(commands tstr log) =
          (made (books (dutyTerms tstr) log)).filterMap Deed.argv := by
        apply Multiset.eq_of_le_of_card_le started
        rw [accounts.starts, ← succeeded, Multiset.coe_card, length]
      rw [Multiset.filterMap_add, ← all, Multiset.filterMap_coe, Multiset.coe_add] at starts
      exact Multiset.coe_eq_coe.mp starts

end

/-- The boot with five threads has made every mount and started every command, that of `bootchart`
included. -/
theorem boot_once_bootchart : ∃ s, (bootSetup (List.replicate 255 0)).Run bootLog s ∧
    BecomesInit s ∧ (bootLog.filterMap Label.mount?).Perm (bootDeeds.filter (·.isMount)) ∧
    (commands (List.replicate 255 0) bootLog).Perm (bootDeeds.filterMap Deed.argv) := by
  obtain ⟨s, run, back, stands⟩ := bootLog_run
  have history := Tasks.Run.history (Run.sched run)
  have becomes : BecomesInit s :=
    ⟨⟨back, history.all_done (show 1 ≤ 5 by decide) back.1 (history.returned_exited back)⟩, stands⟩
  have once := boot_once run
  have forks : (commands (List.replicate 255 0) bootLog).length = bootLog.countP Label.isFork := by
    decide +kernel
  have asked : leftOut (List.replicate 255 0) bootLog = [] := by decide +kernel
  have whole := once.2.2.2.2.2.2.2 becomes
  have commands := whole.2 (once.2.2.1.symm.trans forks)
  rw [asked, List.filterMap_nil, List.append_nil] at commands
  exact ⟨s, run, becomes, whole.1, commands⟩

end DebianConf.Boot
