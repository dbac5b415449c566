import DebianConf.Lib.Inevitable
import DebianConf.Tasks.Progress
import DebianConf.Tasks.Termination

/-!
# What `start` comes to

The only states of a run in which nothing but a spurious wake-up can happen are those where
`start` has returned and those where all of its threads sleep. Which of the two it is depends
on the table alone: `start` returns, with everything done, when no entry needs itself and no
parent is missing, and otherwise it never returns, however its threads are scheduled.
-/

namespace DebianConf.Tasks

open TaskId DebianConf.Lib Relation

section
variable {ID : Type} [DecidableEq ID] [TaskId ID] {T : Table ID}

/-- Every step but a spurious wake-up. -/
def Event.Genuine {n : Nat} (e : Event n) : Prop := e.isSpurious = false

/-- `start` has returned and every entry is done. -/
def State.Complete (s : State T.tasks) : Prop :=
  s.Returned ∧ ∀ i : T.Ptr, T.statusOf s.shared i = .done

/-- All `n` threads sleep, `start` waits for the first of them, and the entries done are those
that lead neither to a cycle nor to a parent that names nothing. -/
structure State.Hung (n : Nat) (s : State T.tasks) : Prop where
  created : s.threadMax = 0
  threads : s.threads.length = n
  joined : s.joined = 0
  asleep : ∀ th ∈ s.threads, th.isAsleep = true
  done : T.doneSet s.shared = {i | Attainable T.DependsOn T.Blocked i}

/-- The table has neither a cycle nor a parent that names nothing. -/
def Table.Solvable (T : Table ID) : Prop := T.Acyclic ∧ ∀ i, ¬ T.Blocked i

variable {n : Nat} {log : List (Event T.tasks.length)} {s : State T.tasks}

omit [DecidableEq ID] in
theorem Table.solvable_iff : T.Solvable ↔ ∀ i, Attainable T.DependsOn T.Blocked i := by
  constructor
  · intro solvable
    exact attainable_of_acyclic solvable.1 solvable.2
  · intro all
    refine ⟨fun i => (all i).not_cycle, fun i => ?_⟩
    cases all i with
    | intro _ free _ => exact free

/-! ## States without genuine steps -/

/-- When nothing but a spurious wake-up can happen, `start` has returned or all threads that
are left sleep. -/
theorem Inv.stuck (inv : Inv s) (stuck : Stuck next Event.Genuine s) : s.Returned ∨
    ((∃ th ∈ s.threads, th.isAsleep = true) ∧
      ∀ th ∈ s.threads, th.isAsleep = true ∨ th = .exited) := by
  by_contra given
  rw [not_or] at given
  rcases inv.enabled given.1 given.2 with ⟨e, s', genuine, fired⟩
  exact stuck e s' genuine fired

/-- A thread that sleeps while nobody is awake sees to it that no thread is over. -/
theorem History.none_exited (history : History n log s) (quiet : Quiet s)
    (sleeper : ∃ th ∈ s.threads, th.isAsleep = true)
    (idle : ∀ th ∈ s.threads, th.isAsleep = true ∨ th = .exited) : .exited ∉ s.threads := by
  intro gone
  rcases (quiet.settled sleeper idle).2 with ⟨i, waiting⟩
  exact history.ended (history.exits gone) i waiting

theorem History.hung (history : History n log s) (quiet : Quiet s)
    (stuck : Stuck next Event.Genuine s)
    (sleeper : ∃ th ∈ s.threads, th.isAsleep = true)
    (idle : ∀ th ∈ s.threads, th.isAsleep = true ∨ th = .exited) : s.Hung n := by
  have alive := history.none_exited quiet sleeper idle
  have created : s.threadMax = 0 := by
    cases left : s.threadMax with
    | zero => rfl
    | succ k =>
      have fired : next s .create =
          some { s with threadMax := k, threads := s.threads ++ [.enter none] } := by
        simp only [next, left]
      exact absurd fired (stuck .create _ rfl)
  have all_created := history.created
  refine ⟨created, by omega, ?_, ?_, ?_⟩
  · by_contra positive
    have first := history.inv.joined 0 (Nat.pos_of_ne_zero positive)
    exact alive (List.mem_of_getElem? first)
  · intro th member
    rcases idle th member with asleep | rfl
    · exact asleep
    · exact absurd member alive
  · have closed := quiet.inv.closed (quiet.settled sleeper idle).1 (quiet.inv.not_running idle)
    apply (isLeast_of_closed closed fun i finished => quiet.sound i (Or.inr finished)).unique
    exact attainable_isLeast

/-- The two kinds of states in which nothing but a spurious wake-up can happen. -/
theorem Run.stuck_cases (some_thread : 1 ≤ n) (run : T.Run n log s)
    (stuck : Stuck next Event.Genuine s) :
    (s.Complete ∧ T.Solvable) ∨ (s.Hung n ∧ ¬ T.Solvable) := by
  have history := Run.history run
  have quiet := Reachable.quiet ⟨log, run⟩
  rcases quiet.inv.stuck stuck with back | ⟨sleeper, idle⟩
  · have finished := history.all_done some_thread back.1 (history.returned_exited back)
    refine Or.inl ⟨⟨back, finished⟩, Table.solvable_iff.mpr fun i => ?_⟩
    exact quiet.sound i (Or.inr (finished i))
  · have hung := history.hung quiet stuck sleeper idle
    refine Or.inr ⟨hung, fun sound => ?_⟩
    rcases (quiet.settled sleeper idle).2 with ⟨i, waiting⟩
    have member : i ∈ T.doneSet s.shared := by
      rw [hung.done]
      exact Table.solvable_iff.mp sound i
    rw [show T.statusOf s.shared i = .done from member] at waiting
    cases waiting

/-! ## The outcome -/

/-- A table of which `start` ever returns has neither a cycle nor a missing parent. -/
theorem Run.solvable_of_returned (some_thread : 1 ≤ n) (run : T.Run n log s) (back : s.Returned) :
    T.Solvable := by
  have history := Run.history run
  have finished := history.all_done some_thread back.1 (history.returned_exited back)
  refine Table.solvable_iff.mpr fun i => ?_
  exact (Reachable.quiet ⟨log, run⟩).sound i (Or.inr (finished i))

/-- What holds at the end of every run without spurious wake-ups is inevitable. -/
theorem Run.inevitable {goal : State T.tasks → Prop} (reached : T.Reachable n s)
    (final : ∀ {log s}, T.Run n log s → Stuck next Event.Genuine s → goal s) :
    Inevitable next Event.Genuine goal s := by
  apply Lib.Reachable.inevitable wellFounded_lt measure _ _ reached
  · intro s e s' reached genuine fired
    have inv := Reachable.inv reached
    exact inv.measure_lt (inv.step fired) genuine
  · intro s reached stuck
    rcases reached with ⟨log, run⟩
    exact final run stuck

/-- With at least one thread, what `start` comes to depends on the table alone. In a table
without cycles and missing parents every maximal run from every reachable state returns with
everything done. In any other table no run ever returns, and every maximal run without
spurious wake-ups ends with all threads asleep and the same entries done. All this is under the
provisos of `next`: every thread can be made, and the calls of `getTaskName` come back. -/
theorem start_outcome (some_thread : 1 ≤ n) (reached : T.Reachable n s) :
    (T.Solvable → Inevitable next Event.Genuine State.Complete s) ∧
    (¬ T.Solvable → ¬ s.Returned ∧ Inevitable next Event.Genuine (State.Hung n) s) := by
  constructor
  · intro solvable
    apply Run.inevitable reached
    intro log s run stuck
    rcases Run.stuck_cases some_thread run stuck with ⟨complete, _⟩ | ⟨_, unsolvable⟩
    · exact complete
    · exact absurd solvable unsolvable
  · intro unsolvable
    constructor
    · intro back
      rcases reached with ⟨log, run⟩
      exact unsolvable (Run.solvable_of_returned some_thread run back)
    · apply Run.inevitable reached
      intro log s run stuck
      rcases Run.stuck_cases some_thread run stuck with ⟨_, solvable⟩ | ⟨hung, _⟩
      · exact absurd solvable unsolvable
      · exact hung

end

/-- The five threads of the boot program, from the call of `start` on. -/
theorem start_outcome_boot : Inevitable next Event.Genuine (State.Complete (T := bootTable))
    (State.init bootTable.tasks 5) :=
  (start_outcome (by decide) ⟨[], .nil⟩).1 ⟨bootTable_acyclic, bootTable_present⟩

end DebianConf.Tasks
