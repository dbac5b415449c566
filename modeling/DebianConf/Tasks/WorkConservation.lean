import DebianConf.Tasks.Progress
import DebianConf.Tasks.WakeUpCount

/-!
# Work conservation

The notify rule wakes nobody for one released child, one thread for two and everybody for
more. It never wakes too few: while a thread sleeps, the ready entries are at most as many as
the threads that are awake and still have to scan. The child counts of the constructor bound
how many entries one completion makes ready, and the finishing thread takes one of them.
-/

namespace DebianConf.Tasks

open TaskId DebianConf.Lib

/-- The thread is awake and has to scan: just created, or woken and not back in the scan. -/
def Thread.toScan {n : Nat} : Thread n → Bool
  | .enter none => true
  | .woken _ => true
  | _ => false

section
variable {ID : Type} [DecidableEq ID] [TaskId ID] {T : Table ID}

omit [TaskId ID] [DecidableEq ID] in
/-- The number of ready entries. -/
def readyCount (tasks : List (TaskInfo ID)) (status : ID → TaskStatusT) : Nat :=
  (Finset.univ.filter fun i : Fin tasks.length => Ready status (entry tasks i)).card

/-! ## Changes of the number of ready entries -/

theorem readyCount_complete (tasks : List (TaskInfo ID)) (sh : Shared ID)
    (it : Fin tasks.length) : readyCount tasks (complete tasks sh it).1.status ≤
      readyCount tasks sh.status + newlyReady tasks sh it := by
  refine (Finset.card_le_card ?_).trans (Finset.card_union_le _ _)
  intro i member
  have after := (Finset.mem_filter.mp member).2
  rw [Finset.mem_union, Finset.mem_filter, Finset.mem_filter]
  by_cases before : Ready sh.status (entry tasks i)
  · exact Or.inl ⟨Finset.mem_univ i, before⟩
  · exact Or.inr ⟨Finset.mem_univ i, before, after⟩

omit [DecidableEq ID] in
theorem readyCount_eq_zero {sh : Shared ID}
    (unready : ∀ i : T.Ptr, ¬ Ready sh.status (entry T.tasks i)) :
    readyCount T.tasks sh.status = 0 := by
  rw [readyCount, Finset.card_eq_zero, Finset.filter_eq_empty_iff]
  exact fun i _ => unready i

/-- A started entry is not ready any more, and nothing else changes. -/
theorem readyCount_start {sh : Shared ID} {it : T.Ptr}
    (ready : Ready sh.status (entry T.tasks it)) :
    readyCount T.tasks (sh.start it).status + 1 = readyCount T.tasks sh.status := by
  have parent : ∀ p, ((sh.start it).status p).status = .done ↔ (sh.status p).status = .done := by
    intro p
    rw [Shared.start, setStatus_status]
    split
    · next same => simp [same, ready.1]
    · rfl
  have change := card_change (p := fun i : T.Ptr => Ready (sh.start it).status (entry T.tasks i))
    (q := fun i : T.Ptr => Ready sh.status (entry T.tasks i)) it (by
      intro j other
      have status := start_statusOf sh it j
      rw [if_neg other] at status
      simp only [Table.statusOf] at status
      simp only [Ready, parent, status])
  have started : ¬ Ready (sh.start it).status (entry T.tasks it) := by
    intro again
    have status := start_statusOf sh it it
    rw [if_pos rfl, Table.statusOf, again.1] at status
    cases status
  simp only [ready, started, if_true, if_false] at change
  exact change

/-! ## The counting invariant -/

/-- While some thread sleeps, the ready entries are at most the threads that have to scan. -/
def Conserved (s : State T.tasks) : Prop :=
  (∃ th ∈ s.threads, th.isAsleep = true) →
    readyCount T.tasks s.shared.status ≤ s.threads.countP Thread.toScan

section
variable {s s' : State T.tasks}

/-- Taking the mutex makes entries ready only when it completes a task, and then at most as
many as the child count it accumulates. -/
theorem Inv.lock_readyCount (inv : Inv s) (parents : s.shared.ParentsDone T)
    (order : T.ParentsInOrder) (noGroup : T.NoneNotGroup) {t : Nat} {th : Thread T.tasks.length}
    (at_t : s.threads[t]? = some th) {sh : Shared ID} {childCount : Nat}
    (lock : th.lock T.tasks s.shared = some (sh, childCount)) :
    readyCount T.tasks sh.status ≤
      readyCount T.tasks s.shared.status + if th.toScan then 0 else childCount := by
  rcases Thread.lock_cases lock with ⟨it, rfl, completed⟩ | ⟨rfl, _⟩
  · have released := readyCount_complete T.tasks s.shared it
    have completes : s.completed (.peek t .null none) = some it :=
      completed_eq_some.mpr ⟨t, .null, none, rfl, at_t⟩
    have balance := newlyReady_add_bothMissing noGroup inv parents completes
    rw [secondOnly_eq_zero order noGroup] at balance
    rw [completed] at released balance
    change readyCount T.tasks sh.status ≤ _ at released
    show _ ≤ readyCount T.tasks s.shared.status + childCount
    omega
  · exact Nat.le_add_right _ _

/-- A wake-up after which some thread still sleeps has woken a thread if it was sent for two
children, and was sent for at most two. -/
theorem wakeUp_toScan {n : Nat} {threads threads' : List (Thread n)} {woken : Option Nat}
    {childCount : Nat} (wakes : wakeUp threads woken (notify childCount) = some threads')
    (sleeper : ∃ th ∈ threads', th.isAsleep = true) :
    (∃ th ∈ threads, th.isAsleep = true) ∧ childCount ≤ 2 ∧
      threads.countP Thread.toScan + (childCount - 1) ≤ threads'.countP Thread.toScan := by
  unfold notify at wakes
  split at wakes
  · split at wakes
    · obtain ⟨-, rfl⟩ := wakeUp_all.mp wakes
      exact absurd sleeper (wake_not_asleep _)
    · split at wakes
      · next two =>
        subst two
        rcases wakeUp_one wakes with ⟨nobody, rfl⟩ | ⟨k, c, at_k, rfl⟩
        · obtain ⟨th, member, asleep⟩ := sleeper
          exact absurd asleep (by simpa using List.any_eq_false.mp nobody th member)
        · refine ⟨⟨_, List.mem_of_getElem? at_k, rfl⟩, le_rfl, ?_⟩
          have change := countP_set Thread.toScan at_k (.woken c)
          simp only [Thread.toScan, Bool.false_eq_true, if_true, if_false] at change
          omega
      · obtain ⟨-, rfl⟩ := wakeUp_nobody.mp wakes
        exact ⟨sleeper, by omega, by omega⟩
  · obtain ⟨-, rfl⟩ := wakeUp_nobody.mp wakes
    exact ⟨sleeper, by omega, by omega⟩

omit [DecidableEq ID] in
/-- A thread may move to where it is awake, unless it stops having to scan. -/
theorem Conserved.move (conserved : Conserved s) {t : Nat} {th : Thread T.tasks.length}
    (at_t : s.threads[t]? = some th) (th' : Thread T.tasks.length) (up : th'.isAsleep = false)
    (scans : th.toScan = true → th'.toScan = true) :
    Conserved { s with threads := s.threads.set t th' } := by
  intro sleeper
  have old := conserved (asleep_of_set up sleeper)
  have change := countP_set Thread.toScan at_t th'
  show readyCount T.tasks s.shared.status ≤ (s.threads.set t th').countP Thread.toScan
  by_cases before : th.toScan = true
  · rw [if_pos before, if_pos (scans before)] at change
    omega
  · rw [if_neg before] at change
    omega

/-- Every step keeps the counting invariant. A thread that finishes a task takes one of the
entries its children become, and wakes threads for the rest. -/
theorem Conserved.step (conserved : Conserved s) (inv : Inv s) (parents : s.shared.ParentsDone T)
    (order : T.ParentsInOrder) (noGroup : T.NoneNotGroup) {e : Event T.tasks.length}
    (step : Step s e s') : Conserved s' := by
  intro sleeper
  cases step with
  | create _ =>
    rw [List.countP_append]
    exact (conserved (asleep_of_created sleeper)).trans (Nat.le_add_right _ _)
  | @pick t th sh childCount it woken threads at_t lock ready wakes =>
    obtain ⟨before, few, woke⟩ := wakeUp_toScan wakes sleeper
    have old := conserved (asleep_of_set rfl before)
    have released := inv.lock_readyCount parents order noGroup at_t lock
    have taken := readyCount_start ready
    have change := countP_set Thread.toScan at_t (.picked it)
    have busy : (Thread.picked it).toScan = false := rfl
    rw [busy, if_neg Bool.false_ne_true] at change
    show readyCount T.tasks (sh.start it).status ≤ threads.countP Thread.toScan
    by_cases scanning : th.toScan = true
    · rw [if_pos scanning] at released change
      omega
    · rw [if_neg scanning] at released change
      omega
  | sleep _ _ unready _ =>
    rw [readyCount_eq_zero unready]
    exact Nat.zero_le _
  | finish _ _ _ => exact absurd sleeper (wake_not_asleep _)
  | call at_t => exact conserved.move at_t (.inside _) rfl (by simp [Thread.toScan]) sleeper
  | ret at_t => exact conserved.move at_t (.enter (some _)) rfl (by simp [Thread.toScan]) sleeper
  | spurious at_t => exact conserved.move at_t (.woken _) rfl (fun _ => rfl) sleeper
  | join _ _ => exact conserved sleeper

theorem Reachable.conserved {n : Nat} (order : T.ParentsInOrder) (noGroup : T.NoneNotGroup)
    (reached : T.Reachable n s) : Conserved s := by
  have all : Inv s ∧ s.shared.ParentsDone T ∧ Conserved s := by
    apply reached.invariant (fun s => Inv s ∧ s.shared.ParentsDone T ∧ Conserved s)
    · refine ⟨inv_init n, construct_parentsDone, fun sleeper => ?_⟩
      rcases sleeper with ⟨th, member, _⟩
      cases member
    · intro s e s' before fired
      have step := before.1.step fired
      exact ⟨before.1.preserved step, before.2.1.step before.1 step,
        before.2.2.step before.1 before.2.1 order noGroup step⟩
  exact all.2.2

end

/-- Work conservation: while a thread sleeps, the ready entries are at most as many as the
threads that are awake and still have to scan; when no thread has to scan, none is ready. -/
theorem work_conservation {n : Nat} {s : State T.tasks} (order : T.ParentsInOrder)
    (noGroup : T.NoneNotGroup) (reached : T.Reachable n s)
    (sleeper : ∃ th ∈ s.threads, th.isAsleep = true) :
    readyCount T.tasks s.shared.status ≤ s.threads.countP Thread.toScan ∧
    ((∀ th ∈ s.threads, th.toScan = false) →
      ∀ i : T.Ptr, ¬ Ready s.shared.status (entry T.tasks i)) := by
  have bound := Reachable.conserved order noGroup reached sleeper
  refine ⟨bound, fun nobody i ready => ?_⟩
  have none_scans : s.threads.countP Thread.toScan = 0 := by
    rw [List.countP_eq_zero]
    intro th member
    simp [nobody th member]
  have counted : 0 < readyCount T.tasks s.shared.status :=
    Finset.card_pos.mpr ⟨i, Finset.mem_filter.mpr ⟨Finset.mem_univ i, ready⟩⟩
  omega

end

/-- The boot program with nine threads: eight have picked a task, the ninth sleeps. -/
theorem work_conservation_boot : ∃ s, bootTable.Run 9 bootSleepLog s ∧
    (∃ th ∈ s.threads, th.isAsleep = true) ∧
    ∀ i : bootTable.Ptr, ¬ Ready s.shared.status (entry bootTable.tasks i) := by
  obtain ⟨s, run, sleeper, nobody⟩ := run_of_replay next (State.init bootTable.tasks 9)
    bootSleepLog
    (fun s => (∃ th ∈ s.threads, th.isAsleep = true) ∧ ∀ th ∈ s.threads, th.toScan = false)
    (by decide +kernel)
  exact ⟨s, run, sleeper, (work_conservation bootTable_parentsInOrder bootTable_noneNotGroup
    ⟨_, run⟩ sleeper).2 nobody⟩

end DebianConf.Tasks
