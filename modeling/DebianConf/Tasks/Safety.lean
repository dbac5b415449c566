import DebianConf.Tasks.BootTable
import DebianConf.Tasks.History

/-!
# Safety of the scheduler

No task function begins before the functions it depends on have returned, and every function
is called at most once, exactly once by the time `start` returns.
-/

namespace DebianConf.Tasks

open TaskId DebianConf.Lib

section
variable {ID : Type} [DecidableEq ID] [TaskId ID] {T : Table ID}
  {n : Nat} {log : List (Event T.tasks.length)} {s : State T.tasks}

/-- A call is made by the thread that holds the entry, which is running then. -/
theorem History.call_running (history : History n log s) {t : Nat} {i : T.Ptr} {s' : State T.tasks}
    (fired : next s (.call t i) = some s') : T.statusOf s.shared i = .running := by
  cases history.inv.step fired with
  | call at_t => exact history.inv.running_of_holds at_t _ (by simp [Thread.holds])

/-- Dependency order: the parents of a running or done entry are satisfied by functions that
have returned, and they were before the function of the entry was called. -/
theorem dependency_order (run : T.Run n log s) :
    (∀ i, T.statusOf s.shared i = .running ∨ T.statusOf s.shared i = .done →
      T.ParentsSatisfied (returned log) i) ∧
    ∀ before t i after, log = before ++ .call t i :: after →
      T.ParentsSatisfied (returned before) i ∧ ∀ j, T.DependsOn i j → j ∈ returned before := by
  refine ⟨(Run.history run).parents, ?_⟩
  intro before t i after same
  have satisfied := run.event
    (fun log e => ∀ t i, e = .call t i → T.ParentsSatisfied (returned log) i)
    (by
      rintro log s e s' run fired t i rfl
      have history := Run.history run
      exact history.parents i (Or.inl (history.call_running fired)))
    before _ after same t i rfl
  exact ⟨satisfied, (T.parentsSatisfied_iff.mp satisfied).2⟩

end

/-- The boot program with five threads, from the first task to the return of `start`. -/
theorem dependency_order_boot : ∃ s, bootTable.Run 5 bootPoolLog s ∧
    (∀ i, bootTable.statusOf s.shared i = .running ∨ bootTable.statusOf s.shared i = .done →
      bootTable.ParentsSatisfied (returned bootPoolLog) i) ∧
    ∀ before t i after, bootPoolLog = before ++ .call t i :: after →
      bootTable.ParentsSatisfied (returned before) i ∧
        ∀ j, bootTable.DependsOn i j → j ∈ returned before := by
  obtain ⟨s, run, -⟩ := run_of_replay next (State.init bootTable.tasks 5) bootPoolLog
    (fun _ => True) (by decide +kernel)
  exact ⟨s, run, dependency_order run⟩

section
variable {ID : Type} [DecidableEq ID] [TaskId ID] {T : Table ID}
  {n : Nat} {log : List (Event T.tasks.length)} {s : State T.tasks}

/-! ## Exactly once -/

theorem hasCalled_holds {n : Nat} (i : Fin n) (th : Thread n) (h : th.hasCalled i = true) :
    th.holds i = true := by
  cases th with
  | enter it => cases it <;> exact h
  | inside j => exact h
  | _ => cases h

theorem History.calls_le_one (history : History n log s) (i : T.Ptr) :
    log.countP (Event.isCall i) ≤ 1 := by
  have marked : s.threads.countP (Thread.hasCalled i) ≤ s.threads.countP (Thread.holds i) :=
    List.countP_mono_left fun th _ => hasCalled_holds i th
  rw [history.inv.held i] at marked
  rw [history.calls i]
  by_cases finished : T.statusOf s.shared i = .done
  · rw [if_neg (by simp [finished])] at marked
    rw [if_pos finished]
    omega
  · rw [if_neg finished]
    split at marked <;> omega

/-- A `nullptr` is returned only when no entry is waiting, and no entry waits again. -/
theorem History.null_over (history : History n log s) {t : Nat} {woken : Option Nat}
    {s' : State T.tasks} (fired : next s (.peek t .null woken) = some s') (i : T.Ptr) :
    T.statusOf s'.shared i ≠ .waiting := by
  cases history.inv.step fired with
  | finish at_t lock ended => exact ended i

/-- A task is returned only while it waits, so not after a `nullptr`. -/
theorem History.task_not_over (history : History n log s) {t : Nat} {it : T.Ptr}
    {woken : Option Nat} {s' : State T.tasks}
    (fired : next s (.peek t (.task it) woken) = some s') :
    ∀ t woken, .peek t .null woken ∉ log := by
  intro t' woken' seen
  cases history.inv.step fired with
  | pick at_t lock ready wakes =>
    have ended := history.ended ⟨t', woken', seen⟩ it
    have waiting := ready.1
    rcases history.inv.lock_statusOf at_t lock it with same | ⟨_, finished⟩
    · exact ended (same ▸ waiting)
    · rw [Table.statusOf, waiting] at finished
      cases finished

/-- When all threads are over, every entry is done. -/
theorem History.all_done (history : History n log s) (some_thread : 1 ≤ n)
    (created : s.threadMax = 0) (ended : ∀ th ∈ s.threads, th = .exited) (i : T.Ptr) :
    T.statusOf s.shared i = .done := by
  have total := history.created
  obtain ⟨th, member⟩ : ∃ th, th ∈ s.threads := List.exists_mem_of_length_pos (by omega)
  have not_waiting := history.ended (history.exits (ended th member ▸ member)) i
  have not_running : T.statusOf s.shared i ≠ .running := by
    intro running
    have held := history.inv.held i
    rw [if_pos running] at held
    obtain ⟨th, member, holds⟩ := List.countP_pos_iff.mp (by rw [held]; exact Nat.one_pos)
    rw [ended th member] at holds
    cases holds
  have enabled := history.inv.shared.enabled i
  cases status : T.statusOf s.shared i with
  | done => rfl
  | disable => exact absurd status enabled
  | waiting => exact absurd status not_waiting
  | running => exact absurd status not_running

theorem History.returned_exited (history : History n log s) (back : s.Returned) :
    ∀ th ∈ s.threads, th = .exited := by
  intro th member
  obtain ⟨j, inside, rfl⟩ := List.getElem_of_mem member
  have ended := history.inv.joined j (by rw [back.2]; exact inside)
  rw [List.getElem?_eq_getElem inside] at ended
  exact Option.some.inj ended

/-- An entry that is done and in no thread's hands has been called and has returned once. -/
theorem History.once (history : History n log s) {i : T.Ptr}
    (finished : T.statusOf s.shared i = .done) :
    log.countP (Event.isCall i) = 1 ∧ log.countP (Event.isRet i) = 1 := by
  have free : ∀ p : Thread T.tasks.length → Bool, (∀ th, p th = true → th.holds i = true) →
      s.threads.countP p = 0 := by
    intro p sub
    have bound := List.countP_mono_left (l := s.threads) fun th _ => sub th
    rw [history.inv.held i, if_neg (by simp [finished])] at bound
    omega
  have calls := history.calls i
  have rets := history.rets i
  rw [if_pos finished, free _ (hasCalled_holds i)] at calls
  rw [if_pos finished, free _ fun th h => hasCalled_holds i th (by
    cases th with
    | enter it => cases it <;> exact h
    | _ => cases h)] at rets
  exact ⟨calls, rets⟩

/-- Exactly once, and `start` waits for everything: a function is called at most once in a
run, a running entry is in the hands of exactly one thread, statuses move only from waiting
to running to done, `nullptr` is returned only when nothing is waiting and no task is
returned afterwards, and when all threads are over every entry has run once and is done. -/
theorem exactly_once (some_thread : 1 ≤ n) (run : T.Run n log s) :
    (∀ i, log.countP (Event.isCall i) ≤ 1) ∧
    (∀ i, T.statusOf s.shared i = .running → s.threads.countP (Thread.holds i) = 1) ∧
    (∀ e s', next s e = some s' →
      ∀ i, StatusMoves (T.statusOf s.shared i) (T.statusOf s'.shared i)) ∧
    (∀ t woken s', next s (.peek t .null woken) = some s' →
      ∀ i, T.statusOf s'.shared i ≠ .waiting) ∧
    (∀ before t woken after, log = before ++ .peek t .null woken :: after →
      ∀ t' it woken', .peek t' (.task it) woken' ∉ after) ∧
    (s.threadMax = 0 → (∀ th ∈ s.threads, th = .exited) →
      ∀ i, T.statusOf s.shared i = .done ∧ log.countP (Event.isCall i) = 1 ∧
        log.countP (Event.isRet i) = 1) ∧
    (s.Returned → s.threadMax = 0 ∧ ∀ th ∈ s.threads, th = .exited) := by
  have history := Run.history run
  refine ⟨history.calls_le_one, fun i running => ?_, fun e s' fired i => ?_,
    fun t woken s' fired => history.null_over fired, ?_, fun created ended i => ?_,
    fun back => ⟨back.1, history.returned_exited back⟩⟩
  · rw [history.inv.held i, if_pos running]
  · exact history.inv.statusMoves (history.inv.step fired) i
  · intro before t woken after same t' it woken' member
    obtain ⟨mid, rest, rfl⟩ := List.append_of_mem member
    have never := run.event
      (fun log e => ∀ t' it woken', e = .peek t' (.task it) woken' →
        ∀ t woken, .peek t .null woken ∉ log)
      (by
        rintro log s e s' run fired t' it woken' rfl
        exact (Run.history run).task_not_over fired)
      (before ++ .peek t .null woken :: mid) _ rest (by simpa using same) t' it woken' rfl
    exact never t woken (by simp)
  · have finished := history.all_done some_thread created ended i
    exact ⟨finished, history.once finished⟩

end

/-- The boot program with five threads has returned from `start` with every task done once. -/
theorem exactly_once_boot : ∃ s, bootTable.Run 5 bootPoolLog s ∧ s.Returned ∧
    ∀ i, bootTable.statusOf s.shared i = .done ∧ bootPoolLog.countP (Event.isCall i) = 1 ∧
      bootPoolLog.countP (Event.isRet i) = 1 := by
  obtain ⟨s, run, back⟩ := run_of_replay next (State.init bootTable.tasks 5)
    bootPoolLog (fun s => s.threadMax = 0 ∧ s.joined = s.threads.length) (by decide +kernel)
  have facts := exactly_once (by decide) run
  have ended := facts.2.2.2.2.2.2 back
  exact ⟨s, run, back, facts.2.2.2.2.2.1 ended.1 ended.2⟩

end DebianConf.Tasks
