import DebianConf.Boot.Descent
import DebianConf.Boot.LedgerRuns
import DebianConf.Tasks.Outcome

/-!
# The boot program becomes `init`

No function of the table replaces the program, and `main` does it only when `start` has
returned. The table lets `start` return, and the functions come to an end as long as
`deferred_modules` does not read on forever. So `main` becomes `init`, whatever the calls return, in
every order of the calls, with all tasks done.
-/

namespace DebianConf.Boot

open DebianConf.Lib DebianConf.SysLinux DebianConf.Tasks

/-! ## What may be called when -/

/-- How far an actor is. -/
inductive Stage where
  /-- in a function of the table -/
  | task
  /-- in `main`, before `start` -/
  | before
  /-- in `main`, after `start` -/
  | started
  /-- in a new process, or in `main` when it could not become `init` -/
  | left
  deriving DecidableEq, Repr

/-- `start` is called once, by `main`, and so is `init`, after that. -/
def Stage.allows : Stage → SysCall → Prop
  | .task, c => c.replaces = false ∧ ∀ n, c ≠ .start n
  | .before, c => c.replaces = false ∧ ∀ n, c = .start n → n = 5
  | .started, c => (c.replaces = true → c = .execv [ascii initApp]) ∧ ∀ n, c ≠ .start n
  | .left, _ => True

def Stage.after (g : Stage) : (c : SysCall) → c.Answer → Stage
  | .start _, _ => .started
  | .execv _, _ => .left
  | .fork, (pid : Int) => if pid = 0 then .left else g
  | _, _ => g

abbrev stageRules : Contract SysCall SysCall.Answer where
  Ghost := Stage
  allows := Stage.allows
  answers _ _ _ := True
  after := Stage.after

/-- The program does not go on to another stage. -/
def Stays {α : Type} (g : Stage) (p : Prog α) : Prop := p.wp stageRules (fun _ g' => g' = g) g

section
variable {α β : Type} {g : Stage}

theorem stays_compositional (g : Stage) :
    Program.Compositional fun {α : Type} (p : Prog α) => Stays g p where
  pure _ := rfl
  bind := Program.wp_then_at

theorem after_own {c : SysCall} (own : c.isOwn = true) (r : c.Answer) : g.after c r = g := by
  cases c <;> first | rfl | cases own

theorem allows_of_isOwn {c : SysCall} (own : c.isOwn = true) : g.allows c := by
  have stays : c.replaces = false := by cases c <;> first | rfl | cases own
  have other : ∀ n, c ≠ .start n := by
    rintro n rfl
    cases own
  cases g with
  | task => exact ⟨stays, other⟩
  | before => exact ⟨stays, fun n same => absurd same (other n)⟩
  | started => exact ⟨fun replaces => absurd (stays.symm.trans replaces) (by simp), other⟩
  | left => trivial

theorem Stays.sys {c : SysCall} (own : c.isOwn = true) : Stays g (sys c) :=
  Program.wp_call (allows_of_isOwn own) fun r _ => after_own own r

theorem allows_fork : g.allows .fork := by
  cases g <;> simp [Stage.allows, SysCall.replaces]

/-- The process that is started leaves, the other one goes on. -/
theorem stays_launch (wait : Bool) (argv : List CStr) : Stays g (launch wait argv false) := by
  unfold launch
  rw [if_neg Bool.false_ne_true]
  refine Program.wp_call_seq allows_fork fun (pid : Int) _ => ?_
  extract_lets next
  by_cases child : pid = 0
  · subst child
    exact ⟨trivial, fun _ _ => ⟨trivial, fun r => r.elim⟩⟩
  · show Program.wp stageRules _ _ (if pid = 0 then .left else g)
    rw [if_neg child]
    have goes_on : ∀ status, Stays g (next status) := by
      intro status
      show Stays g (if pid = 0 then _ else _)
      rw [if_neg child]
      exact (stays_compositional g).pure status
    refine Program.Compositional.ite (P := Stays g) ?_ ?_
    · exact (stays_compositional g).bind (Stays.sys rfl) fun _ => goes_on (-1)
    · refine Program.Compositional.ite (P := Stays g) ?_ (goes_on 0)
      refine Program.Compositional.ite (P := Stays g) ?_ (goes_on 0)
      exact (stays_compositional g).bind (Stays.sys rfl) goes_on

theorem Stays.repeatCall {c : SysCall} {body : c.Answer → Prog Bool} (own : c.isOwn = true)
    (turn : ∀ r, Stays g (body r)) : Stays g (Program.repeatCall c body) := by
  refine Program.wp_repeatCall (fun g' => g' = g) rfl (fun _ same => ?_) fun _ same r _ => ?_
  · exact allows_of_isOwn own
  · subst same
    show (body r).wp stageRules _ (Stage.after _ c r)
    rw [after_own own]
    apply Program.wp_mono _ (turn r)
    rintro again _ rfl
    cases again <;> rfl

theorem stays_taskFnc (id : BootId) : Stays g (taskFnc id) :=
  taskFnc_shape (stays_compositional g) id (fun _ own _ => Stays.sys own) (stays_launch true)
    fun _ => Stays.repeatCall rfl
      (deferredTurn_shape (F := []) (stays_compositional g) fun _ idle _ =>
        Stays.sys (own_of_isIdle idle))

end

theorem stays_startOptions {options : Options} (multi_user : options.single = false) :
    Stays .before (startOptions options) := by
  unfold startOptions
  rw [multi_user]
  refine (stays_compositional .before).bind ((stays_compositional .before).pure 0) fun _ => ?_
  refine (stays_compositional .before).bind ?_ fun _ => (stays_compositional .before).pure ()
  refine Program.Compositional.ite (P := Stays .before) ?_ ((stays_compositional .before).pure 0)
  exact executeArg_shape (F := []) (stays_compositional .before)
    (fun _ idle _ => Stays.sys (own_of_isIdle idle)) (stays_launch false) _

/-- `init` replaces the program, or the program exits. -/
theorem wp_executeInit (Q : Int → Stage → Prop) :
    (executeArg [ascii initApp] false false).wp stageRules Q .started := by
  have allowed : Stage.started.allows (.execv [ascii initApp]) := ⟨fun _ => rfl, by simp⟩
  refine Program.wp_call_seq (c := SysCall.execv [ascii initApp]) allowed fun _ _ => ?_
  exact ⟨trivial, fun r => r.elim⟩

/-- `main` calls `start`, then `init`, and never returns. -/
theorem wp_mainInit_stage (tstr : List UInt8) :
    (mainInit tstr).wp stageRules (fun _ _ => False) .before := by
  have idle : ∀ c : SysCall, c.isIdle = true → c.needs ⊆ [.proc] → Stays .before (sys c) :=
    fun _ idle _ => Stays.sys (own_of_isIdle idle)
  have comp := stays_compositional .before
  refine Program.wp_then_at (reopenStdout_shape comp idle) fun _ => ?_
  refine Program.wp_then_at (checkZero_shape comp (Stays.sys rfl) (Stays.sys rfl)) fun _ => ?_
  refine Program.wp_then_at (cmdlineWords_shape comp idle tstr) fun words => ?_
  refine Program.wp_then_at (stays_startOptions (readOptions_single {} words rfl)) fun _ => ?_
  refine Program.wp_then_at (Stays.sys rfl) fun _ => ?_
  have allowed : Stage.before.allows (.start 5) :=
    ⟨rfl, fun n same => (SysCall.start.inj same).symm⟩
  refine Program.wp_call_seq allowed fun _ _ => ?_
  exact Program.wp_seq (wp_executeInit _)

/-! ## The run -/

section
variable {tstr : List UInt8} {log : List (Label bootTable.tasks.length)}
  {s s' : State (bootSetup tstr)}

theorem settles_bootSetup (tstr : List UInt8) : (bootSetup tstr).Settles := by
  have comp : Program.Compositional fun {α : Type} (p : Prog α) => p.Settles calm :=
    Program.settles_compositional _
  have calls : ∀ c : SysCall, (sys c).Settles calm := fun c _ => trivial
  have exits : ∀ {α : Type} (status : Int), (exit status : Prog α).Settles calm :=
    fun _ r => r.elim
  have launches : ∀ wait argv nofork, (launch wait argv nofork).Settles calm :=
    launch_shape comp (fun c _ => calls c) (exits 1)
  constructor
  · refine comp.bind (reopenStdout_shape comp fun c _ _ => calls c) fun _ => ?_
    refine comp.bind (checkZero_shape comp (calls _) (calls _)) fun _ => ?_
    exact afterProcfs_shape comp (fun c _ _ => calls c) launches (calls _) (exits 0) tstr
  · intro it
    refine taskFnc_shape comp _ (fun c _ _ => calls c) (fun argv => launches true argv false) ?_
    intro fd
    refine ⟨?_, fun got quiet => ?_, trivial⟩
    · exact deferredTurn_shape (F := []) comp fun c _ _ => calls c
    · exact if_neg (Int.not_lt.mpr (quiet rfl))

/-- Threads stay in their functions. -/
def Staged (s : State (bootSetup tstr)) : Prop :=
  ∀ t p, s.code (.thread t) = some p → Stays .task p

/-- `main` has not left, and `start` has returned when its answer has been seen. -/
def Running (s : State (bootSetup tstr)) : Prop :=
  ∃ p, s.code .main = some p ∧ (p.wp stageRules (fun _ _ => False) .before ∨
    (p.wp stageRules (fun _ _ => False) .started ∧ s.sched.Returned))

/-- `main` executes another program or ends. -/
def Label.Leaves {n : Nat} : Label n → Prop
  | .sys .main c _ => c.replaces = true
  | .gone .main _ => True
  | _ => False

/-- All tasks are done and `main` is about to become `init`. -/
def BecomesInit (s : State (bootSetup tstr)) : Prop :=
  s.sched.Complete ∧ s.pending .main = some (.execv [ascii initApp])

theorem after_of_admits {g : Stage} {c : SysCall} {r : c.Answer}
    (stays : c.replaces = false) (other : ∀ n, c ≠ .start n) (admitted : s.admits c r = true) :
    g.after c r = g := by
  cases c with
  | fork =>
    have parent : r ≠ inChild := by
      rintro rfl
      cases admitted
    exact if_neg parent
  | start n => exact absurd rfl (other n)
  | execv argv => cases stays
  | _ => rfl

theorem Staged.step (staged : Staged s) {l : Label (bootSetup tstr).table.tasks.length}
    (step : Step s l s') : Staged s' := by
  intro t p here
  cases step with
  | sched starting fired dispatched =>
    rcases dispatch_cases dispatched with ⟨t', it, _, rfl⟩ | ⟨t', it, _, _, rfl⟩ | ⟨_, rfl⟩
    · replace here : Function.update s.code (.thread t') _ (.thread t) = some p := here
      rw [Function.update_apply] at here
      split at here
      · cases here
        exact stays_taskFnc _
      · exact staged t p here
    · replace here : Function.update s.code (.thread t') none (.thread t) = some p := here
      rw [Function.update_apply] at here
      split at here
      · cases here
      · exact staged t p here
    · exact staged t p here
  | @sys a c r q q' admitted caller answered =>
    replace here : Function.update (s.spawn a c r) a (some q') (.thread t) = some p := here
    rw [Function.update_apply, spawn_of_ne (by simp)] at here
    split at here
    · next same =>
      subst same
      cases here
      rcases Program.answer_eq_some answered with ⟨k, stands, rfl⟩
      have calls := Program.wp_calls (staged t q caller) stands
      have same := after_of_admits (g := .task) calls.1.1 calls.1.2 admitted
      have rest := calls.2 r trivial
      rw [show stageRules.after .task c r = .task from same] at rest
      exact rest
    · exact staged t p here
  | @gone a c replaces apart stands =>
    replace here : Function.update s.code a none (.thread t) = some p := here
    rw [Function.update_apply] at here
    split at here
    · cases here
    · exact staged t p here

theorem Run.staged (run : (bootSetup tstr).Run log s) : Staged s := by
  apply run.invariant (fun _ (s : State (bootSetup tstr)) => Staged s)
    (fun t p here => by cases here)
  exact fun staged fired => staged.step (step_of_next fired)

theorem running_init : Running (State.init (bootSetup tstr)) :=
  ⟨_, rfl, Or.inl (wp_mainInit_stage tstr)⟩

/-- What `main` may call next. -/
theorem Running.calls (running : Running s) {c : SysCall} (stands : s.pending .main = some c) :
    (c.replaces = true → c = .execv [ascii initApp] ∧ s.sched.Returned) ∧
      ∀ n, c = .start n → n = 5 := by
  rcases running with ⟨p, here, keeps⟩
  rw [State.pending, here] at stands
  rcases Program.pending_eq_some.mp stands with ⟨k, head⟩
  rcases keeps with keeps | ⟨keeps, back⟩
  · have allowed := (Program.wp_calls keeps head).1
    exact ⟨fun replaces => absurd (allowed.1.symm.trans replaces) (by simp), allowed.2⟩
  · have allowed := (Program.wp_calls keeps head).1
    exact ⟨fun replaces => ⟨allowed.1 replaces, back⟩, fun n same => absurd same (allowed.2 n)⟩

theorem Running.step (running : Running s) {l : Label (bootSetup tstr).table.tasks.length}
    (step : Step s l s') (stays : ¬ l.Leaves) : Running s' := by
  have kept : s'.code .main = s.code .main → s'.sched = s.sched → Running s' := by
    intro same sched
    rcases running with ⟨p, here, keeps⟩
    exact ⟨p, same.trans here, sched ▸ keeps⟩
  cases step with
  | @sched e sched code starting fired dispatched =>
    rcases running with ⟨p, here, keeps | ⟨keeps, _⟩⟩
    · refine ⟨p, ?_, Or.inl keeps⟩
      rw [← here]
      rcases dispatch_cases dispatched with ⟨t, it, _, rfl⟩ | ⟨t, it, _, _, rfl⟩ | ⟨_, rfl⟩ <;> rfl
    · -- `start` is not called again
      rw [State.pending, here] at starting
      rcases Program.pending_eq_some.mp starting with ⟨k, head⟩
      exact absurd rfl ((Program.wp_calls keeps head).1.2 5)
  | @sys a c r p p' admitted here answered =>
    by_cases main : a = .main
    · subst main
      rcases Program.answer_eq_some answered with ⟨k, head, rfl⟩
      have quiet : c.replaces = false := by simpa [Label.Leaves] using stays
      refine ⟨k r, Function.update_self Actor.main (some (k r)) (s.spawn .main c r), ?_⟩
      rcases running with ⟨q, there, keeps⟩
      obtain rfl : q = p := Option.some.inj (there.symm.trans here)
      rcases keeps with keeps | ⟨keeps, back⟩
      · have rest := (Program.wp_calls keeps head).2 r trivial
        by_cases start : ∃ n, c = .start n
        · rcases start with ⟨n, rfl⟩
          exact Or.inr ⟨rest, by simpa [State.admits] using admitted⟩
        · have same : Stage.before.after c r = .before :=
            after_of_admits quiet (fun n same => start ⟨n, same⟩) admitted
          rw [show stageRules.after .before c r = .before from same] at rest
          exact Or.inl rest
      · have calls := Program.wp_calls keeps head
        have same : Stage.started.after c r = .started :=
          after_of_admits quiet calls.1.2 admitted
        have rest := calls.2 r trivial
        rw [show stageRules.after .started c r = .started from same] at rest
        exact Or.inr ⟨rest, back⟩
    · apply kept _ rfl
      show Function.update (s.spawn a c r) a (some p') .main = s.code .main
      rw [Function.update_of_ne (Ne.symm main), spawn_of_ne (by simp)]
  | @gone a c replaces apart stands =>
    have other : a ≠ .main := by
      rintro rfl
      exact stays trivial
    exact kept (Function.update_of_ne (Ne.symm other) _ _) rfl

theorem Run.running (run : (bootSetup tstr).Run log s) (stays : ∀ l ∈ log, ¬ l.Leaves) :
    Running s := by
  induction run with
  | nil => exact running_init
  | snoc before fired ih =>
    refine Running.step (ih fun l member => stays l (List.mem_append_left _ member))
      (step_of_next fired) (stays _ ?_)
    exact List.mem_append_right _ (List.mem_singleton.mpr rfl)

/-- `main` leaves when everything is done, to become `init`. -/
theorem Running.becomesInit (running : Running s) (run : (bootSetup tstr).Run log s) {c : SysCall}
    (stands : s.pending .main = some c) (replaces : c.replaces = true) : BecomesInit s := by
  rcases (running.calls stands).1 replaces with ⟨rfl, back⟩
  have history := Tasks.Run.history (Run.sched run)
  have done := history.all_done (show 1 ≤ 5 by decide) back.1 (history.returned_exited back)
  exact ⟨⟨back, done⟩, stands⟩

theorem Running.becomesInit_of_leaves (running : Running s) (run : (bootSetup tstr).Run log s)
    {l : Label (bootSetup tstr).table.tasks.length} (step : Step s l s') (leaves : l.Leaves) :
    BecomesInit s := by
  cases step with
  | sched starting fired dispatched => exact leaves.elim
  | @sys a c r p p' admitted here answered =>
    cases a with
    | main => exact running.becomesInit run (pending_of_answer here answered) leaves
    | _ => exact leaves.elim
  | @gone a c replaces apart stands =>
    cases a with
    | main => exact running.becomesInit run stands replaces
    | _ => exact leaves.elim

/-- A call that neither replaces the program nor waits for `start` has a calm answer. -/
theorem calm_answer {c : SysCall} (stays : c.replaces = false) (other : ∀ n, c ≠ .start n) :
    ∃ r, calm c r ∧ s.admits c r = true := by
  cases c with
  | read fd count => exact ⟨none, fun _ => show (-1 : Int) ≤ 0 by omega, rfl⟩
  | fork => exact ⟨(1 : Int), trivial, rfl⟩
  | start n => exact absurd rfl (other n)
  | exit status => cases stays
  | fopen path mode => exact ⟨none, trivial, rfl⟩
  | freopen path mode => exact ⟨true, trivial, rfl⟩
  | fread stream count => exact ⟨[], trivial, rfl⟩
  | fibmap fd => exact ⟨none, trivial, rfl⟩
  | mmap fd length => exact ⟨none, trivial, rfl⟩
  | getschedparam => exact ⟨none, trivial, rfl⟩
  | _ => first | exact ⟨(0 : Int), trivial, rfl⟩ | exact ⟨(), trivial, rfl⟩

theorem answer_enabled {a : Actor} {c : SysCall} {r : c.Answer} (stands : s.pending a = some c)
    (admitted : s.admits c r = true) (quiet : calm c r) : ¬ Stuck next Label.Calm s := by
  rcases Option.bind_eq_some_iff.mp stands with ⟨p, here, stands⟩
  rcases Program.pending_eq_some.mp stands with ⟨k, head⟩
  intro stuck
  apply stuck (.sys a c r) _ quiet
  simp only [next]
  rw [if_pos admitted, here]
  simp only [Option.bind_eq_bind, Option.bind_some, Program.answer_of_head head]
  rfl

/-- An actor goes on with its function. -/
theorem call_enabled {a : Actor} {c : SysCall} (stands : s.pending a = some c)
    (stays : c.replaces = false) (other : ∀ n, c ≠ .start n) : ¬ Stuck next Label.Calm s := by
  rcases calm_answer (s := s) stays other with ⟨r, quiet, admitted⟩
  exact answer_enabled stands admitted quiet

/-- The scheduler goes on, or a thread goes on in its function. -/
theorem sched_enabled (staged : Staged s) (starting : s.pending .main = some (.start 5))
    {e : Event bootTable.tasks.length} {sched : Tasks.State bootTable.tasks} (genuine : e.Genuine)
    (fired : Tasks.next s.sched e = some sched) : ¬ Stuck next Label.Calm s := by
  have dispatched : ∀ code, s.dispatch e = some code → ¬ Stuck next Label.Calm s := by
    intro code dispatched stuck
    apply stuck (.sched e) { s with sched := sched, code := code } genuine
    simp only [next]
    rw [if_pos starting, fired, dispatched]
    rfl
  cases e with
  | ret t it =>
    cases pending : s.pending (.thread t) with
    | none => exact dispatched _ (if_pos pending)
    | some c =>
      rcases Option.bind_eq_some_iff.mp pending with ⟨p, here, stands⟩
      rcases Program.pending_eq_some.mp stands with ⟨k, head⟩
      have allowed := (Program.wp_calls (staged t p here) head).1
      exact call_enabled pending allowed.1 allowed.2
  | _ => exact dispatched _ rfl

theorem Running.progress (running : Running s) (run : (bootSetup tstr).Run log s)
    (unreached : ¬ BecomesInit s) : ¬ Stuck next Label.Calm s := by
  rcases running with ⟨p, here, keeps⟩
  have calls : ∃ c, s.pending .main = some c := by
    rw [State.pending, here, Option.bind_some]
    cases stands : p.pending with
    | some c => exact ⟨c, rfl⟩
    | none =>
      rcases Program.pending_eq_none.mp stands with ⟨_, returned⟩
      rcases keeps with keeps | ⟨keeps, _⟩ <;> exact (Program.wp_returned keeps returned).elim
  rcases calls with ⟨c, stands⟩
  have running : Running s := ⟨p, here, keeps⟩
  have stays : c.replaces = false := by
    by_contra replaces
    exact unreached (running.becomesInit run stands (by simpa using replaces))
  by_cases start : ∃ n, c = .start n
  · rcases start with ⟨n, rfl⟩
    obtain rfl := (running.calls stands).2 n rfl
    by_cases back : s.sched.Returned
    · have returns : s.admits (.start 5) () = true := by simpa [State.admits] using back
      exact answer_enabled stands returns trivial
    · have going : ¬ Stuck Tasks.next Event.Genuine s.sched := by
        intro stuck
        rcases Tasks.Run.stuck_cases (show 1 ≤ 5 by decide) (Run.sched run) stuck with
          ⟨complete, _⟩ | ⟨_, unsolvable⟩
        · exact back complete.1
        · exact unsolvable ⟨bootTable_acyclic, bootTable_present⟩
      simp only [Stuck, not_forall, not_not] at going
      rcases going with ⟨e, sched, genuine, fired⟩
      exact sched_enabled (Run.staged run) stands genuine fired
  · exact call_enabled stands stays fun n same => start ⟨n, same⟩

/-- In every run of the boot program `main` leaves only to become `init`, with all tasks done.
As long as it has not left, it comes to that in every maximal run that goes on from there, for
every interleaving of the calls and every answer to them, once there are no more spurious
wake-ups and `deferred_modules` finds nothing more to read. The provisos of `next` of the scheduler
are among this: `start` can make its threads, and the calls of `getTaskName` come back. -/
theorem reaches_init (run : (bootSetup tstr).Run log s) (stays : ∀ l ∈ log, ¬ l.Leaves) :
    (∀ c, s.pending .main = some c → c.replaces = true → BecomesInit s) ∧
      Inevitable next Label.Calm BecomesInit s := by
  have running := Run.running run stays
  refine ⟨fun c stands replaces => running.becomesInit run stands replaces, ?_⟩
  apply Reachable.inevitable_of_progress (P := Running) measure_wellFounded State.measure
    _ _ ⟨log, run⟩ running
  · rintro s e s' ⟨log, run⟩ quiet fired
    exact Step.measure_lt (Run.wired run) (Run.allSettle (settles_bootSetup tstr) run)
      (Tasks.Reachable.inv ⟨_, Run.sched run⟩) (step_of_next fired) quiet
  · rintro s ⟨log, run⟩ running unreached
    refine ⟨running.progress run unreached, fun l s' _ fired => ?_⟩
    have step := step_of_next fired
    exact running.step step fun leaves => unreached (running.becomesInit_of_leaves run step leaves)

end

/-- From the first call of `main` on. -/
theorem reaches_init_boot :
    Inevitable next Label.Calm BecomesInit (State.init (bootSetup [])) :=
  (reaches_init .nil (by simp)).2

end DebianConf.Boot
