import DebianConf.Tasks.BootTable

/-!
# The scheduler that scans the whole table

`begin` only saves scanning: the scheduler without it, which leaves out the lines that move it
and starts every scan at the first entry of the table, makes the same decisions and stays in
lock step with `Tasks<ID>` in every run.
-/

namespace DebianConf.Tasks

open TaskId DebianConf.Lib

section
variable {ID : Type} [DecidableEq ID] [TaskId ID]

/-- The completion part of `peekTask` without the lines that move `begin`. -/
def completeWhole (tasks : List (TaskInfo ID)) (sh : Shared ID) (it : Fin tasks.length) :
    Shared ID × Nat :=
  let (completed, childCount) := complete tasks sh it
  ({ completed with begin := sh.begin }, childCount)

/-- A thread that takes the mutex in the scheduler without `begin`. -/
def Thread.lockWhole (tasks : List (TaskInfo ID)) (sh : Shared ID) :
    Thread tasks.length → Option (Shared ID × Nat)
  | .enter none => some (sh, 0)
  | .enter (some it) => some (completeWhole tasks sh it)
  | .woken childCount => some (sh, childCount)
  | _ => none

/-- A round of the loop with a scan that starts at the first entry of the table. -/
def roundWhole (tasks : List (TaskInfo ID)) (sh : Shared ID) (childCount : Nat) :
    Shared ID × Outcome tasks.length × Notify :=
  match scan tasks sh.status (List.finRange tasks.length) false with
  | (some it, _) =>
    ({ sh with status := setStatus sh.status (entry tasks it).id .running }, .task it,
      notify childCount)
  | (none, true) => (sh, .wait, .nobody)
  | (none, false) => (sh, .null, notify 3)

/-- A step of the scheduler without `begin`: only `peekTask` differs. -/
def nextWhole {tasks : List (TaskInfo ID)} (s : State tasks) :
    Event tasks.length → Option (State tasks)
  | .peek t out woken => do
    let (sh, childCount) ← (← s.threads[t]?).lockWhole tasks s.shared
    let (sh, out', notification) := roundWhole tasks sh childCount
    guard (out' = out)
    let threads ← wakeUp (s.threads.set t (out.thread childCount)) woken notification
    return { s with shared := sh, threads := threads }
  | e => next s e

omit [DecidableEq ID] [TaskId ID] in
/-- What `peekTask` is to decide: the first ready entry in table order, else to wait while an
entry is waiting, else that all is over. -/
def decision (tasks : List (TaskInfo ID)) (status : ID → TaskStatusT) : Outcome tasks.length :=
  match (List.finRange tasks.length).find? fun it => Ready status (entry tasks it) with
  | some it => .task it
  | none =>
    if ∃ it : Fin tasks.length, (status (entry tasks it).id).status = .waiting then .wait
    else .null

omit [DecidableEq ID] [TaskId ID] in
/-- The members without `begin`. -/
def Shared.whole (sh : Shared ID) : Shared ID := { sh with begin := 0 }

omit [DecidableEq ID] [TaskId ID] in
/-- The state of the scheduler without `begin`. -/
def State.whole {tasks : List (TaskInfo ID)} (s : State tasks) : State tasks :=
  { s with shared := s.shared.whole }

/-! ## The scans agree -/

variable {T : Table ID} {sh : Shared ID}

theorem Shared.Consistent.round_whole (ok : sh.Consistent T) (childCount : Nat) :
    roundWhole T.tasks sh.whole childCount =
      ((round T.tasks sh childCount).1.whole, (round T.tasks sh childCount).2) := by
  have same : scan T.tasks sh.whole.status (List.finRange T.tasks.length) false =
      scan T.tasks sh.status (pointers T.tasks sh.begin) false := ok.scan_whole
  unfold roundWhole round
  rw [same]
  cases scan T.tasks sh.status (pointers T.tasks sh.begin) false with
  | mk picked towait => cases picked <;> cases towait <;> rfl

/-- `peekTask` decides as it should. -/
theorem Shared.Consistent.round_decision (ok : sh.Consistent T) (childCount : Nat) :
    (round T.tasks sh childCount).2.1 = decision T.tasks sh.status := by
  unfold round decision
  rcases ok.scan_cases with ⟨it, towait, found, result⟩ | ⟨unready, result⟩
  · rw [result, found]
  · have nothing : (List.finRange T.tasks.length).find?
        (fun it => Ready sh.status (entry T.tasks it)) = none := by
      rw [List.find?_eq_none]
      intro it _ ready
      exact unready it (of_decide_eq_true ready)
    rw [result, nothing]
    by_cases waits : ∃ it : T.Ptr, (sh.status (entry T.tasks it).id).status = .waiting
    · rw [decide_eq_true (show ∃ i, T.statusOf sh i = .waiting from waits), if_pos waits]
    · rw [decide_eq_false (show ¬ ∃ i, T.statusOf sh i = .waiting from waits), if_neg waits]

/-- `begin` is the position of the first entry that is not done. -/
theorem Shared.Consistent.begin_eq (ok : sh.Consistent T) :
    sh.begin = T.tasks.findIdx fun e => (sh.status e.id).status ≠ .done := by
  rcases Nat.lt_or_eq_of_le ok.begin_le with inside | ended
  · symm
    rw [List.findIdx_eq inside]
    refine ⟨decide_eq_true (ok.at_begin ⟨sh.begin, inside⟩ rfl), fun k below => ?_⟩
    have finished := ok.before_begin ⟨k, below.trans inside⟩ below
    exact decide_eq_false (not_not_intro finished)
  · rw [ended]
    symm
    rw [List.findIdx_eq_length]
    intro e member
    obtain ⟨k, below, rfl⟩ := List.getElem_of_mem member
    have finished := ok.before_begin ⟨k, below⟩ (ended.symm ▸ below)
    exact decide_eq_false (not_not_intro finished)

/-! ## Lock step -/

theorem lockWhole_eq (th : Thread T.tasks.length) (sh : Shared ID) :
    th.lockWhole T.tasks sh.whole = (th.lock T.tasks sh).map fun locked =>
      (locked.1.whole, locked.2) := by
  cases th with
  | enter it => cases it <;> rfl
  | _ => rfl

/-- A step without `begin` is a step of `Tasks<ID>`, with `begin` forgotten. -/
theorem Inv.next_whole {s : State T.tasks} (inv : Inv s) (e : Event T.tasks.length) :
    nextWhole s.whole e = (next s e).map State.whole := by
  cases e with
  | peek t out woken =>
    simp only [nextWhole, next, State.whole, lockWhole_eq]
    cases at_t : s.threads[t]? with
    | none => rfl
    | some th =>
      cases lock : th.lock T.tasks s.shared with
      | none => simp [lock]
      | some locked =>
        obtain ⟨sh, childCount⟩ := locked
        have mid : sh.Consistent T := (inv.lock at_t lock).shared
        simp only [Option.bind_eq_bind, Option.bind_some, lock, Option.map_some,
          mid.round_whole childCount]
        by_cases same : (round T.tasks sh childCount).2.1 = out
        · simp only [guard, if_pos same]
          cases Tasks.wakeUp (s.threads.set t (out.thread childCount)) woken
            (round T.tasks sh childCount).2.2 <;> rfl
        · simp only [guard, if_neg same]
          rfl
  | create =>
    simp only [nextWhole, next, State.whole]
    cases s.threadMax <;> rfl
  | call t it =>
    simp only [nextWhole, next, apply_ite (Option.map State.whole)]
    rfl
  | ret t it =>
    simp only [nextWhole, next, apply_ite (Option.map State.whole)]
    rfl
  | spurious t =>
    simp only [nextWhole, next, State.whole]
    cases s.threads[t]? with
    | none => rfl
    | some th => cases th <;> rfl
  | join =>
    simp only [nextWhole, next, apply_ite (Option.map State.whole)]
    rfl

variable (T)

/-- The runs of the scheduler that scans the whole table. -/
abbrev Table.WholeRun (n : Nat) (log : List (Event T.tasks.length)) (s : State T.tasks) : Prop :=
  Lib.Run nextWhole (State.init T.tasks n) log s

/-- The advancing `begin` is only an optimisation. In every reachable state it is the position
of the first entry that is not done, and whichever thread takes the mutex next, `peekTask`
decides as a scan of the whole table would. The two schedulers have the same runs, in states
that differ in `begin` alone. -/
theorem begin_optimisation (n : Nat) (log : List (Event T.tasks.length)) :
    (∀ s, T.Run n log s →
      s.shared.begin = T.tasks.findIdx (fun e => (s.shared.status e.id).status ≠ .done) ∧
      ∀ (t : Nat) (th : Thread T.tasks.length) (sh : Shared ID) (childCount : Nat),
        s.threads[t]? = some th → th.lock T.tasks s.shared = some (sh, childCount) →
          (round T.tasks sh childCount).2.1 = decision T.tasks sh.status) ∧
    ∀ whole, T.WholeRun n log whole ↔ ∃ s, T.Run n log s ∧ s.whole = whole := by
  refine ⟨fun s run => ?_, fun whole => ?_⟩
  · have inv := Reachable.inv ⟨log, run⟩
    refine ⟨inv.shared.begin_eq, fun t th sh childCount at_t lock => ?_⟩
    exact (inv.lock at_t lock).shared.round_decision childCount
  · have start : (State.init T.tasks n).whole = State.init T.tasks n := rfl
    rw [← run_map_iff State.whole (fun reached => (Reachable.inv reached).next_whole), start]

end

/-- The run of five threads through the boot table is a run without `begin` too. -/
theorem begin_optimisation_boot : ∃ s, bootTable.Run 5 bootPoolLog s ∧
    s.shared.begin = bootTable.tasks.findIdx (fun e => (s.shared.status e.id).status ≠ .done) ∧
    bootTable.WholeRun 5 bootPoolLog s.whole := by
  obtain ⟨s, run, -⟩ := run_of_replay next (State.init bootTable.tasks 5) bootPoolLog
    (fun _ => True) (by decide +kernel)
  obtain ⟨positions, runs⟩ := begin_optimisation bootTable 5 bootPoolLog
  exact ⟨s, run, (positions s run).1, (runs s.whole).mpr ⟨s, run, rfl⟩⟩

end DebianConf.Tasks
