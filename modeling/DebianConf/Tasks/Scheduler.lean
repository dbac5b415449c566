import DebianConf.Lib.Run
import DebianConf.Tasks.Table
import Mathlib.Logic.Function.Basic

/-!
# The boot scheduler

`Tasks<ID>` of `root/tasks.h`: the constructor, `peekTask`, the thread function `sthread` and
`start`. A state holds what the mutex protects and where each thread stands. One label of
`next` is one section of `peekTask` between taking and releasing the mutex, one call or
return of a task function, one spurious wake-up, or one iteration of a loop of `start`; the
interleaving is the log of labels. Wake-ups are sent before the mutex is released, so they
belong to the section that sends them.

Left out are the log output, the time stamps `started` and `ended`, which only `print_statics`
and the log read, and the signal mask the constructor sets.
-/

namespace DebianConf.Tasks

open TaskId

/-- `enum task_status` (`tasks.h:89-95`). -/
inductive TaskStatus where
  | disable
  | waiting
  | running
  | done
  deriving DecidableEq, Repr

/-- `task_status_t` (`tasks.h:99-106`). A counter is `unsigned`, of 32 bits. It never exceeds
twice the length of the table, so counting up does not wrap for tables of less than 2^31
entries. -/
structure TaskStatusT where
  grpRef : Nat
  childCount : Nat
  status : TaskStatus
  deriving DecidableEq, Repr

/-- The members of `Tasks` that `mtx` protects: `begin`, as the position of the entry it
points to, and the status array. `end` is the length of the table. -/
structure Shared (ID : Type) where
  begin : Nat
  status : ID → TaskStatusT

section
variable {ID : Type} [DecidableEq ID]

/-- Assignment to one element of the status array. An element is computed when it is looked up, and
each assignment below it once. -/
def modify (status : ID → TaskStatusT) (id : ID) (f : TaskStatusT → TaskStatusT) :
    ID → TaskStatusT :=
  fun id' => if id' = id then f (status id') else status id'

/-- `status[id].status = value`. -/
def setStatus (status : ID → TaskStatusT) (id : ID) (value : TaskStatus) : ID → TaskStatusT :=
  modify status id fun st => { st with status := value }

/-- `++status[id].child_count`. -/
def incChildCount (status : ID → TaskStatusT) (id : ID) : ID → TaskStatusT :=
  modify status id fun st => { st with childCount := st.childCount + 1 }

/-- `status[id].grp_ref++`. -/
def incGrpRef (status : ID → TaskStatusT) (id : ID) : ID → TaskStatusT :=
  modify status id fun st => { st with grpRef := st.grpRef + 1 }

/-- `--status[id].grp_ref`, which wraps at zero. -/
def decGrpRef (status : ID → TaskStatusT) (id : ID) : ID → TaskStatusT :=
  modify status id fun st =>
    { st with grpRef := if st.grpRef = 0 then 4294967295 else st.grpRef - 1 }

variable [TaskId ID]

/-- The loop body of the constructor (`tasks.h:47-58`). -/
def addEntry (status : ID → TaskStatusT) (it : TaskInfo ID) : ID → TaskStatusT :=
  let status := setStatus status it.id .waiting
  let status :=
    if it.parentId ≠ noneId then
      let status := incChildCount status it.parentId
      if it.parentId2 ≠ noneId then incChildCount status it.parentId2 else status
    else status
  if it.grpId ≠ grpNoneId then setStatus (incGrpRef status it.grpId) it.grpId .waiting
  else status

/-- `memset(status, 0, sizeof(status))`. -/
def clearStatus : ID → TaskStatusT := fun _ => ⟨0, 0, .disable⟩

/-- The constructor `Tasks::Tasks` (`tasks.h:40-61`). -/
def construct (tasks : List (TaskInfo ID)) : Shared ID :=
  let status := tasks.foldl addEntry clearStatus
  let status := setStatus status noneId .done
  let status := setStatus status grpNoneId .done
  { begin := 0, status := status }

/-- `while (begin != end && status[begin->id].status == done) ++begin`, over the entries from
`begin` on. -/
def skipDone (status : ID → TaskStatusT) : List (TaskInfo ID) → Nat → Nat
  | [], begin => begin
  | it :: rest, begin =>
    if (status it.id).status = .done then skipDone status rest (begin + 1) else begin

/-- The completion part of `peekTask` for `it != nullptr` (`tasks.h:122-138`), with the
`child_count` it accumulates. -/
def complete (tasks : List (TaskInfo ID)) (sh : Shared ID) (it : Fin tasks.length) :
    Shared ID × Nat :=
  let status := setStatus sh.status (entry tasks it).id .done
  let childCount := (status (entry tasks it).id).childCount
  let (status, childCount) :=
    if (entry tasks it).grpId ≠ grpNoneId then
      let status := decGrpRef status (entry tasks it).grpId
      if (status (entry tasks it).grpId).grpRef = 0 then
        (setStatus status (entry tasks it).grpId .done,
          childCount + (status (entry tasks it).grpId).childCount)
      else (status, childCount)
    else (status, childCount)
  let begin := if it.val = sh.begin then skipDone status (tasks.drop sh.begin) sh.begin
    else sh.begin
  ({ begin := begin, status := status }, childCount)

omit [DecidableEq ID] [TaskId ID] in
/-- The test of `tasks.h:146-148`: waiting with both parents done. -/
def Ready (status : ID → TaskStatusT) (it : TaskInfo ID) : Prop :=
  (status it.id).status = .waiting ∧
    (status it.parentId).status = .done ∧ (status it.parentId2).status = .done

instance (status : ID → TaskStatusT) (it : TaskInfo ID) : Decidable (Ready status it) :=
  inferInstanceAs (Decidable (_ ∧ _ ∧ _))

/-- The scan for a ready task (`tasks.h:142-155`) over the pointers that remain, with
`towait`. The result is the pointer at which the loop breaks, if any. -/
def scan (tasks : List (TaskInfo ID)) (status : ID → TaskStatusT) :
    List (Fin tasks.length) → Bool → Option (Fin tasks.length) × Bool
  | [], towait => (none, towait)
  | it :: rest, towait =>
    if (status (entry tasks it).id).status = .waiting then
      if (status (entry tasks it).parentId).status = .done ∧
          (status (entry tasks it).parentId2).status = .done then
        (some it, towait)
      else scan tasks status rest true
    else scan tasks status rest towait

/-- The pointers of `[begin, end)`. -/
def pointers (tasks : List (TaskInfo ID)) (begin : Nat) : List (Fin tasks.length) :=
  (List.finRange tasks.length).drop begin

/-- What one round of the `for (;;)` loop ends with: `peekTask` returns a task, it waits on
`cond_var`, or it returns `nullptr`. -/
inductive Outcome (n : Nat) where
  | task (it : Fin n)
  | wait
  | null
  deriving DecidableEq, Repr

/-- The wake-up `peekTask` sends before it returns. -/
inductive Notify where
  | nobody
  | one
  | all
  deriving DecidableEq, Repr

/-- The notify rule (`tasks.h:178-184`). -/
def notify (childCount : Nat) : Notify :=
  if childCount ≠ 0 then
    if childCount > 2 then .all
    else if childCount = 2 then .one
    else .nobody
  else .nobody

/-- One round of the `for (;;)` loop (`tasks.h:140-185`): mutex-protected members after it,
its outcome, and the wake-up sent with a return. -/
def round (tasks : List (TaskInfo ID)) (sh : Shared ID) (childCount : Nat) :
    Shared ID × Outcome tasks.length × Notify :=
  match scan tasks sh.status (pointers tasks sh.begin) false with
  | (some it, _) =>
    ({ sh with status := setStatus sh.status (entry tasks it).id .running }, .task it,
      notify childCount)
  | (none, true) => (sh, .wait, .nobody)
  | (none, false) => (sh, .null, notify 3)

/-- Where a thread stands in `sthread` and `peekTask`. -/
inductive Thread (n : Nat) where
  /-- Calls `peekTask(it)` and has not taken the mutex yet. -/
  | enter (it : Option (Fin n))
  /-- In `cond_var.wait` with no wake-up pending. -/
  | asleep (childCount : Nat)
  /-- Woken from `cond_var.wait`, has to take the mutex and scan again. -/
  | woken (childCount : Nat)
  /-- `peekTask` returned `it`, whose function is not called yet. -/
  | picked (it : Fin n)
  /-- Inside `t->fnc(lnx->user_param)`. -/
  | inside (it : Fin n)
  /-- `peekTask` returned `nullptr` and the thread is over. -/
  | exited
  deriving DecidableEq, Repr

/-- The labels of `next`. `woken` is the thread `notify_one` chose, if it was called and
found one. -/
inductive Event (n : Nat) where
  | create
  | peek (t : Nat) (out : Outcome n) (woken : Option Nat)
  | call (t : Nat) (it : Fin n)
  | ret (t : Nat) (it : Fin n)
  | spurious (t : Nat)
  | join
  deriving DecidableEq, Repr

/-- The whole scheduler: the protected members, the threads `start` has still to create, the
threads created so far, and how many of them `start` has joined. -/
structure State (tasks : List (TaskInfo ID)) where
  shared : Shared ID
  threadMax : Nat
  threads : List (Thread tasks.length)
  joined : Nat

/-- The scheduler when `start(thread_max, …)` is called (`tasks.h:73`). -/
def State.init (tasks : List (TaskInfo ID)) (threadMax : Nat) : State tasks :=
  { shared := construct tasks, threadMax := threadMax, threads := [], joined := 0 }

/-- A thread in `cond_var.wait` gets a wake-up; nothing happens to any other thread. -/
def Thread.wake {n : Nat} : Thread n → Thread n
  | .asleep childCount => .woken childCount
  | th => th

/-- A thread in `cond_var.wait` with no wake-up pending. -/
def Thread.isAsleep {n : Nat} : Thread n → Bool
  | .asleep _ => true
  | _ => false

/-- The effect of a wake-up on the threads. `notify_one` wakes the sleeping thread `woken`,
and nobody when no thread sleeps. -/
def wakeUp {n : Nat} (threads : List (Thread n)) (woken : Option Nat) :
    Notify → Option (List (Thread n))
  | .nobody => if woken = none then some threads else none
  | .all => if woken = none then some (threads.map Thread.wake) else none
  | .one =>
    match woken with
    | none => if threads.any Thread.isAsleep then none else some threads
    | some k =>
      match threads[k]? with
      | some (.asleep childCount) => some (threads.set k (.woken childCount))
      | _ => none

/-- A thread about to take the mutex, with the members and the `child_count` its next round
starts from. -/
def Thread.lock (tasks : List (TaskInfo ID)) (sh : Shared ID) :
    Thread tasks.length → Option (Shared ID × Nat)
  | .enter none => some (sh, 0)
  | .enter (some it) => some (complete tasks sh it)
  | .woken childCount => some (sh, childCount)
  | _ => none

/-- Where a thread stands after a round of the loop. -/
def Outcome.thread {n : Nat} (childCount : Nat) : Outcome n → Thread n
  | .task it => .picked it
  | .wait => .asleep childCount
  | .null => .exited

/-- One step of the scheduler (`tasks.h:73-85`, `115-210`), with everything the scheduler and the
environment decide in the label.

Two things are taken to go well. Every `std::thread` that `start` asks for is made: a constructor
that throws would end the process. And the calls of `getTaskName` in `sthread` (`tasks.h:203`,
`207`) come back: the member (`tasks.h:216`) is a reference to the constructor's own parameter
(`tasks.h:40-41`), which is over by then, so the language does not say what these calls do. -/
def next {tasks : List (TaskInfo ID)} (s : State tasks) :
    Event tasks.length → Option (State tasks)
  | .create =>
    match s.threadMax with
    | 0 => none
    | k + 1 => some { s with threadMax := k, threads := s.threads ++ [.enter none] }
  | .peek t out woken => do
    let (sh, childCount) ← (← s.threads[t]?).lock tasks s.shared
    let (sh, out', notification) := round tasks sh childCount
    guard (out' = out)
    let threads ← wakeUp (s.threads.set t (out.thread childCount)) woken notification
    return { s with shared := sh, threads := threads }
  | .call t it =>
    if s.threads[t]? = some (.picked it) then
      some { s with threads := s.threads.set t (.inside it) }
    else none
  | .ret t it =>
    if s.threads[t]? = some (.inside it) then
      some { s with threads := s.threads.set t (.enter (some it)) }
    else none
  | .spurious t =>
    match s.threads[t]? with
    | some (.asleep childCount) => some { s with threads := s.threads.set t (.woken childCount) }
    | _ => none
  | .join =>
    if s.threadMax = 0 ∧ s.threads[s.joined]? = some .exited then
      some { s with joined := s.joined + 1 }
    else none

/-- `start` has returned: it has created all threads and joined them. -/
def State.Returned {tasks : List (TaskInfo ID)} (s : State tasks) : Prop :=
  s.threadMax = 0 ∧ s.joined = s.threads.length

/-- A spurious return of `cond_var.wait`. -/
def Event.isSpurious {n : Nat} : Event n → Bool
  | .spurious _ => true
  | _ => false

end

end DebianConf.Tasks
