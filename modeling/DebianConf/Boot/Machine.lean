import DebianConf.Boot.SysCalls
import DebianConf.Tasks.Interleavings

/-!
# The boot program as a whole

`main` calls `start`, the threads of `start` call the functions of the table, and the functions
make system calls: the calls of `main`, of the threads and of the processes that they start are
interleaved in every order that the scheduler allows. A label is a step of the scheduler, a
system call with its answer, or the end of a process.
-/

namespace DebianConf.Boot

open DebianConf.Lib DebianConf.Tasks

/-- Who makes calls: `main`, a thread of `start`, or the process of a successful `fork`. -/
inductive Actor where
  | main
  | thread (t : Nat)
  | child (j : Nat)
  deriving DecidableEq, Repr

/-- A program that schedules the functions `fnc` of a table with `threadMax` threads. -/
structure Setup (ID : Type) [TaskId ID] where
  table : Table ID
  fnc : table.Ptr → Prog Unit
  main : Prog Unit
  threadMax : Nat

/-- The labels of `next`. -/
inductive Label (n : Nat) where
  | sched (e : Event n)
  | sys (a : Actor) (c : SysCall) (r : c.Answer)
  /-- The process executes another program or ends. -/
  | gone (a : Actor) (c : SysCall)

def Actor.isThread : Actor → Bool
  | .thread _ => true
  | _ => false

def Actor.isChild : Actor → Bool
  | .child _ => true
  | _ => false

section
variable {ID : Type} [DecidableEq ID] [TaskId ID]

/-- The scheduler, what is left of the program of every actor, and how many processes have been
started. A thread has a program while it is inside of a function. -/
structure State (S : Setup ID) where
  sched : Tasks.State S.table.tasks
  code : Actor → Option (Prog Unit)
  forked : Nat

variable {S : Setup ID}

def State.init (S : Setup ID) : State S where
  sched := Tasks.State.init S.table.tasks S.threadMax
  code a := if a = .main then some S.main else none
  forked := 0

/-- The call that an actor is about to make. -/
def State.pending (s : State S) (a : Actor) : Option SysCall := (s.code a).bind Program.pending

/-- What a step of the scheduler does to the programs of the threads. -/
def State.dispatch (s : State S) : Event S.table.tasks.length → Option (Actor → Option (Prog Unit))
  | .call t it => some (Function.update s.code (.thread t) (some (S.fnc it)))
  | .ret t _ =>
    if s.pending (.thread t) = none then some (Function.update s.code (.thread t) none) else none
  | _ => some s.code

instance (s : Tasks.State S.table.tasks) : Decidable s.Returned :=
  inferInstanceAs (Decidable (_ ∧ _))

/-- `start` does not return before its threads are joined, and `fork` returns 0 only in the new
process. -/
def State.admits (s : State S) : (c : SysCall) → c.Answer → Bool
  | .start _, _ => decide s.sched.Returned
  | .fork, (pid : Int) => decide (pid ≠ 0)
  | _, _ => true

/-- The programs after a call of `a`, with that of the new process if there is one. -/
def State.spawn (s : State S) (a : Actor) (c : SysCall) (r : c.Answer) :
    Actor → Option (Prog Unit) :=
  if c.spawns r then
    Function.update s.code (.child s.forked)
      ((s.code a).bind fun p => p.answer .fork inChild)
  else s.code

/-- One step of the boot program. The scheduler runs while `main` is in `start`. -/
def next (s : State S) : Label S.table.tasks.length → Option (State S)
  | .sched e =>
    if s.pending .main = some (.start S.threadMax) then
      match Tasks.next s.sched e with
      | some sched => (s.dispatch e).map fun code => { s with sched := sched, code := code }
      | none => none
    else none
  | .sys a c r =>
    if s.admits c r then do
      let p ← s.code a
      let p' ← p.answer c r
      return { s with
        code := Function.update (s.spawn a c r) a (some p')
        forked := if c.spawns r then s.forked + 1 else s.forked }
    else none
  | .gone a c =>
    if c.replaces ∧ a.isThread = false ∧ s.pending a = some c then
      some { s with code := Function.update s.code a none }
    else none

/-- The runs of the boot program. -/
abbrev Setup.Run (S : Setup ID) (log : List (Label S.table.tasks.length)) (s : State S) : Prop :=
  Lib.Run next (State.init S) log s

/-! ## Steps -/

/-- The steps of the boot program. -/
inductive Step (s : State S) : Label S.table.tasks.length → State S → Prop
  | sched {e : Event S.table.tasks.length} {sched : Tasks.State S.table.tasks}
      {code : Actor → Option (Prog Unit)} (starting : s.pending .main = some (.start S.threadMax))
      (fired : Tasks.next s.sched e = some sched) (dispatched : s.dispatch e = some code) :
      Step s (.sched e) { s with sched := sched, code := code }
  | sys {a : Actor} {c : SysCall} {r : c.Answer} {p p' : Prog Unit} (admitted : s.admits c r = true)
      (here : s.code a = some p) (answered : p.answer c r = some p') :
      Step s (.sys a c r)
        { s with
          code := Function.update (s.spawn a c r) a (some p')
          forked := if c.spawns r then s.forked + 1 else s.forked }
  | gone {a : Actor} {c : SysCall} (replaces : c.replaces = true) (apart : a.isThread = false)
      (stands : s.pending a = some c) :
      Step s (.gone a c) { s with code := Function.update s.code a none }

theorem step_of_next {s s' : State S} {l : Label S.table.tasks.length}
    (fired : next s l = some s') : Step s l s' := by
  cases l with
  | sched e =>
    simp only [next] at fired
    split at fired
    · next starting =>
      split at fired
      · next sched stepped =>
        rcases Option.map_eq_some_iff.mp fired with ⟨code, dispatched, rfl⟩
        exact .sched starting stepped dispatched
      · cases fired
    · cases fired
  | sys a c r =>
    simp only [next] at fired
    split at fired
    · next admitted =>
      rcases Option.bind_eq_some_iff.mp fired with ⟨p, here, fired⟩
      rcases Option.bind_eq_some_iff.mp fired with ⟨p', answered, fired⟩
      cases fired
      exact .sys admitted here answered
    · cases fired
  | gone a c =>
    simp only [next] at fired
    split at fired
    · next given =>
      cases fired
      exact .gone given.1 given.2.1 given.2.2
    · cases fired

/-! ## The scheduler inside of the boot program -/

def Label.event {n : Nat} : Label n → Option (Event n)
  | .sched e => some e
  | _ => none

/-- The steps of the scheduler in a log. -/
def events {n : Nat} (log : List (Label n)) : List (Event n) := log.filterMap Label.event

variable {log : List (Label S.table.tasks.length)} {s s' : State S}

omit [DecidableEq ID] in
theorem events_snoc (l : Label S.table.tasks.length) :
    events (log ++ [l]) = events log ++ l.event.toList := by
  rw [events, List.filterMap_append]
  cases l <;> rfl

/-- The scheduler is not aware of the functions: what it does in a run of the boot program it does
in a run of its own. -/
theorem Run.sched (run : S.Run log s) : S.table.Run S.threadMax (events log) s.sched := by
  apply run.invariant (fun log (s : State S) => S.table.Run S.threadMax (events log) s.sched) .nil
  intro log s l s' before fired
  rw [events_snoc]
  cases step_of_next fired with
  | sched starting stepped dispatched => exact before.snoc stepped
  | sys admitted here answered => simpa [Label.event] using before
  | gone replaces apart stands => simpa [Label.event] using before

end

/-! ## Which function a thread is inside of -/

section
variable {n : Nat}

/-- The entry whose function a thread is inside of. -/
def inside (threads : List (Thread n)) (t : Nat) : Option (Fin n) :=
  (threads[t]?).bind Thread.inside?

/-- How a step of the scheduler changes which function a thread is inside of. -/
def enters (inside : Nat → Option (Fin n)) : Event n → Nat → Option (Fin n)
  | .call t it => Function.update inside t (some it)
  | .ret t _ => Function.update inside t none
  | _ => inside

theorem inside_set {threads : List (Thread n)} {t : Nat} {th : Thread n}
    (at_t : threads[t]? = some th) (th' : Thread n) :
    inside (threads.set t th') = Function.update (inside threads) t th'.inside? := by
  funext k
  rw [Function.update_apply, inside, List.getElem?_set]
  by_cases same : k = t
  · subst same
    have bound : k < threads.length := (List.getElem?_eq_some_iff.mp at_t).1
    simp [bound]
  · rw [if_neg (Ne.symm same), if_neg same]
    rfl

theorem inside_set_outside {threads : List (Thread n)} {t : Nat} {th th' : Thread n}
    (at_t : threads[t]? = some th) (outside : th.inside? = none) (outside' : th'.inside? = none) :
    inside (threads.set t th') = inside threads := by
  rw [inside_set at_t, outside', Function.update_eq_self_iff, inside, at_t]
  exact outside.symm

theorem inside_map_wake (threads : List (Thread n)) :
    inside (threads.map Thread.wake) = inside threads := by
  funext k
  rw [inside, inside, List.getElem?_map]
  cases threads[k]? with
  | none => rfl
  | some th => cases th <;> rfl

theorem inside_wakeUp {threads threads' : List (Thread n)} {woken : Option Nat}
    {notification : Notify} (woke : wakeUp threads woken notification = some threads') :
    inside threads' = inside threads := by
  rcases wakeUp_cases woke with rfl | rfl | ⟨t, childCount, asleep, rfl⟩
  · rfl
  · exact inside_map_wake threads
  · exact inside_set_outside asleep rfl rfl

theorem inside_append_enter (threads : List (Thread n)) :
    inside (threads ++ [.enter none]) = inside threads := by
  funext k
  rw [inside, inside]
  by_cases below : k < threads.length
  · rw [List.getElem?_append_left below]
  · rw [List.getElem?_append_right (by omega), List.getElem?_eq_none (Nat.le_of_not_lt below)]
    cases k - threads.length <;> rfl

end

section
variable {ID : Type} [DecidableEq ID] [TaskId ID] {T : Table ID}

theorem lock_outside {th : Thread T.tasks.length} {sh sh' : Shared ID} {childCount : Nat}
    (lock : th.lock T.tasks sh = some (sh', childCount)) : th.inside? = none := by
  cases th with
  | inside it => cases lock
  | _ => rfl

theorem inside_step {s s' : Tasks.State T.tasks} {e : Event T.tasks.length}
    (step : Tasks.Step s e s') : inside s'.threads = enters (inside s.threads) e := by
  cases step with
  | create left => exact inside_append_enter s.threads
  | pick at_t lock ready wakes =>
    exact (inside_wakeUp wakes).trans (inside_set_outside at_t (lock_outside lock) rfl)
  | sleep at_t lock unready waits => exact inside_set_outside at_t (lock_outside lock) rfl
  | finish at_t lock ended =>
    exact (inside_map_wake _).trans (inside_set_outside at_t (lock_outside lock) rfl)
  | call at_t => exact inside_set at_t _
  | ret at_t => exact inside_set at_t _
  | spurious at_t => exact inside_set_outside at_t rfl rfl
  | join created ended => rfl

variable {S : Setup ID} {log : List (Label S.table.tasks.length)} {s s' : State S}

omit [DecidableEq ID] in
theorem dispatch_cases {e : Event S.table.tasks.length} {code : Actor → Option (Prog Unit)}
    (dispatched : s.dispatch e = some code) :
    (∃ t it, e = .call t it ∧ code = Function.update s.code (.thread t) (some (S.fnc it))) ∨
    (∃ t it, e = .ret t it ∧ s.pending (.thread t) = none ∧
      code = Function.update s.code (.thread t) none) ∨
    (e.act = none ∧ code = s.code) := by
  cases e with
  | call t it => exact Or.inl ⟨t, it, rfl, (Option.some.inj dispatched).symm⟩
  | ret t it =>
    simp only [State.dispatch] at dispatched
    split at dispatched
    · next returned =>
      exact Or.inr (Or.inl ⟨t, it, rfl, returned, (Option.some.inj dispatched).symm⟩)
    · cases dispatched
  | _ => exact Or.inr (Or.inr ⟨rfl, (Option.some.inj dispatched).symm⟩)

theorem enters_of_silent {n : Nat} {f : Nat → Option (Fin n)} {e : Event n}
    (silent : e.act = none) : enters f e = f := by
  cases e with
  | call t it => cases silent
  | ret t it => cases silent
  | _ => rfl

omit [DecidableEq ID] in
theorem spawn_of_ne {a b : Actor} {c : SysCall} {r : c.Answer} (other : b ≠ .child s.forked) :
    s.spawn a c r b = s.code b := by
  unfold State.spawn
  split
  · exact Function.update_of_ne other _ _
  · rfl

/-- A thread has a program exactly while it is inside of a function, and a process only once it
is started. -/
structure Wired (s : State S) : Prop where
  threads : ∀ t, s.code (.thread t) = none ↔ inside s.sched.threads t = none
  children : ∀ j, s.forked ≤ j → s.code (.child j) = none

theorem wired_init : Wired (State.init S) where
  threads t := by
    have nobody : inside ([] : List (Thread S.table.tasks.length)) t = none := rfl
    simp [State.init, Tasks.State.init, nobody]
  children j _ := by simp [State.init]

omit [DecidableEq ID] in
/-- A thread that enters or leaves a function gets or loses its program. -/
theorem Wired.reload (wired : Wired s) {sched : Tasks.State S.table.tasks} {t : Nat}
    {p : Option (Prog Unit)} {it : Option S.table.Ptr}
    (moves : inside sched.threads = Function.update (inside s.sched.threads) t it)
    (both : p = none ↔ it = none) :
    Wired { s with sched := sched, code := Function.update s.code (.thread t) p } where
  threads k := by
    show Function.update s.code (.thread t) p (.thread k) = none ↔ _
    rw [moves, Function.update_apply, Function.update_apply]
    by_cases same : k = t
    · rw [if_pos (congrArg Actor.thread same), if_pos same, both]
    · rw [if_neg (fun equal => same (Actor.thread.inj equal)), if_neg same, wired.threads k]
  children j unborn := by simpa using wired.children j unborn

theorem Wired.step (wired : Wired s) (inv : Inv s.sched) {l : Label S.table.tasks.length}
    (step : Step s l s') : Wired s' := by
  cases step with
  | @sched e sched code starting fired dispatched =>
    have moves := inside_step (inv.step fired)
    rcases dispatch_cases dispatched with ⟨t, it, rfl, rfl⟩ | ⟨t, it, rfl, _, rfl⟩ | ⟨silent, rfl⟩
    · exact wired.reload moves (by simp)
    · exact wired.reload moves (by simp)
    · refine ⟨fun k => ?_, wired.children⟩
      rw [moves, enters_of_silent silent]
      exact wired.threads k
  | @sys a c r p p' admitted here answered =>
    refine ⟨fun k => ?_, fun j unborn => ?_⟩
    · show Function.update (s.spawn a c r) a (some p') (.thread k) = none ↔ _
      rw [← wired.threads k, Function.update_apply, spawn_of_ne (by simp)]
      split
      · next same => simp [same, here]
      · rfl
    · replace unborn : (if c.spawns r then s.forked + 1 else s.forked) ≤ j := unborn
      have later : s.forked ≤ j := by split at unborn <;> omega
      have known : a ≠ .child j := by
        rintro rfl
        rw [wired.children j later] at here
        cases here
      show Function.update (s.spawn a c r) a (some p') (.child j) = none
      rw [Function.update_of_ne known.symm, ← wired.children j later]
      by_cases spawns : c.spawns r = true
      · rw [if_pos spawns] at unborn
        apply spawn_of_ne
        intro same
        have := Actor.child.inj same
        omega
      · rw [State.spawn, if_neg spawns]
  | @gone a c replaces apart stands =>
    refine ⟨fun k => ?_, fun j unborn => ?_⟩
    · show Function.update s.code a none (.thread k) = none ↔ _
      rw [← wired.threads k, Function.update_of_ne]
      rintro rfl
      cases apart
    · show Function.update s.code a none (.child j) = none
      rw [Function.update_apply]
      split
      · rfl
      · exact wired.children j unborn

theorem Run.wired (run : S.Run log s) : Wired s := by
  induction run with
  | nil => exact wired_init
  | snoc before fired ih =>
    exact ih.step (Reachable.inv ⟨_, Run.sched before⟩) (step_of_next fired)

/-! ## `main` waits for the threads -/

omit [DecidableEq ID] in
theorem inside_of_exited {threads : List (Thread S.table.tasks.length)}
    (gone : ∀ th ∈ threads, th = .exited) (t : Nat) : inside threads t = none := by
  unfold inside
  cases at_t : threads[t]? with
  | none => rfl
  | some th =>
    rw [gone th (List.mem_of_getElem? at_t)]
    rfl

omit [DecidableEq ID] in
theorem pending_congr {a : Actor} (same : s'.code a = s.code a) : s'.pending a = s.pending a :=
  congrArg (fun p => Option.bind p Program.pending) same

omit [DecidableEq ID] in
theorem pending_of_answer {a : Actor} {c : SysCall} {r : c.Answer} {p p' : Prog Unit}
    (here : s.code a = some p) (answered : p.answer c r = some p') : s.pending a = some c := by
  rcases Program.answer_eq_some answered with ⟨k, stands, _⟩
  rw [State.pending, here]
  exact Program.pending_eq_some.mpr ⟨k, stands⟩

/-- While `main` is not in `start` no thread is inside of a function. -/
theorem Run.outside (run : S.Run log s) (away : s.pending .main ≠ some (.start S.threadMax))
    (t : Nat) : inside s.sched.threads t = none := by
  induction run with
  | nil => rfl
  | @snoc log s l s' before fired ih =>
    cases step_of_next fired with
    | @sched e sched code starting fired dispatched =>
      refine absurd ((pending_congr ?_).trans starting) away
      rcases dispatch_cases dispatched with ⟨k, it, _, rfl⟩ | ⟨k, it, _, _, rfl⟩ | ⟨_, rfl⟩
      · rfl
      · rfl
      · rfl
    | @sys a c r p p' admitted here answered =>
      by_cases main : a = .main
      · subst main
        by_cases ends : c = .start S.threadMax
        · subst ends
          have back : s.sched.Returned := by simpa [State.admits] using admitted
          exact inside_of_exited ((Run.history (Run.sched before)).returned_exited back) t
        · apply ih
          rw [pending_of_answer here answered]
          exact fun same => ends (Option.some.inj same)
      · refine ih fun starting => away ((pending_congr ?_).trans starting)
        show Function.update (s.spawn a c r) a (some p') .main = s.code .main
        rw [Function.update_of_ne (Ne.symm main), spawn_of_ne (by simp)]
    | @gone a c replaces apart stands =>
      by_cases main : a = .main
      · subst main
        apply ih
        rw [stands]
        intro same
        rw [Option.some.inj same] at replaces
        cases replaces
      · refine ih fun starting => away ((pending_congr ?_).trans starting)
        exact Function.update_of_ne (Ne.symm main) _ _

/-! ## Functions wait for the functions they depend on -/

omit [DecidableEq ID] in
theorem mem_events {e : Event S.table.tasks.length} (member : e ∈ events log) :
    .sched e ∈ log := by
  rcases List.mem_filterMap.mp member with ⟨l, there, same⟩
  cases l with
  | sched e' =>
    cases same
    exact there
  | sys a c r => cases same
  | gone a c => cases same

/-- While a thread is inside of the function of `i`, every function that `i` depends on has
returned. -/
theorem Run.dependencies (run : S.Run log s) {t : Nat} {i j : S.table.Ptr}
    (here : inside s.sched.threads t = some i) (depends : S.table.DependsOn i j) :
    ∃ t', .sched (.ret t' j) ∈ log := by
  have history := Run.history (Run.sched run)
  rcases Option.bind_eq_some_iff.mp here with ⟨th, at_t, entered⟩
  have holder : th.holds i = true := by
    cases th with
    | inside k =>
      cases entered
      simp [Thread.holds]
    | _ => cases entered
  have running := history.inv.running_of_holds at_t i holder
  have satisfied := history.parents i (Or.inl running)
  rcases (S.table.parentsSatisfied_iff.mp satisfied).2 j depends with ⟨t', member⟩
  exact ⟨t', mem_events member⟩

end

/-! ## Functions carried out in one go -/

section
variable {n : Nat}

/-- A log that is being written, with the numbers of calls and of processes in it. -/
structure Script (n : Nat) where
  log : List (Label n)
  calls : Nat
  forked : Nat

/-- What a new process does first. -/
def firstCall {α : Type} : (c : SysCall) → (c.Answer → Prog α) → Option SysCall
  | .fork, k => (k inChild).pending
  | _, _ => none

/-- A call with its answer, after which a new process does what it does first and is gone. -/
def Script.call {α : Type} (sc : Script n) (a : Actor) (c : SysCall) (r : c.Answer)
    (k : c.Answer → Prog α) : Script n :=
  let process := if c.spawns r then (firstCall c k).toList.map (.gone (.child sc.forked)) else []
  { log := sc.log ++ .sys a c r :: process
    calls := sc.calls + 1
    forked := if c.spawns r then sc.forked + 1 else sc.forked }

/-- The calls of a program up to its end, or to one without an answer. The answer to a loop is one
that ends it. -/
def Script.perform (reply : Nat → (c : SysCall) → Option c.Answer) (a : Actor) :
    {α : Type} → Prog α → Script n → Script n
  | _, .done _, sc => sc
  | _, .ask c k, sc =>
    match reply sc.calls c with
    | some r => Script.perform reply a (k r) (sc.call a c r k)
    | none => sc
  | _, .poll c body k, sc =>
    match reply sc.calls c with
    | some r =>
      Script.perform reply a k (Script.perform reply a (body r) (sc.call a c r fun _ => k))
    | none => sc

end

/-- The log in which `main` goes on up to `start`, and each function makes its calls when it is
called. -/
def Setup.script {ID : Type} [TaskId ID] (S : Setup ID)
    (reply : Nat → (c : SysCall) → Option c.Answer) (events : List (Event S.table.tasks.length)) :
    Script S.table.tasks.length :=
  events.foldl (fun sc e =>
    let sc : Script _ := { sc with log := sc.log ++ [.sched e] }
    match e with
    | .call t it => Script.perform reply (.thread t) (S.fnc it) sc
    | _ => sc) (Script.perform reply .main S.main ⟨[], 0, 0⟩)

end DebianConf.Boot
