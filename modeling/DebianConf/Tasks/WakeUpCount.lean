import DebianConf.Tasks.BootTable
import DebianConf.Tasks.History

/-!
# The wake-up count

A call of `peekTask` that marks a task done, and maybe its group, adds up their child counts
to decide how many threads to wake. This compares the sum with the number of entries the call
makes ready. The constructor counts an entry once for each of its two slots, but looks at
`parent_id2` only when `parent_id` is used; the scan looks at both in any case. So the sum
exceeds the number by the entries whose two parents are both missing before the call, which
it counts twice or too early, and falls short of it by those that use `parent_id2` alone.
-/

namespace DebianConf.Tasks

open TaskId DebianConf.Lib

section
variable {ID : Type} [DecidableEq ID] [TaskId ID]

section
variable (tasks : List (TaskInfo ID)) (sh : Shared ID) (it : Fin tasks.length)

/-- `x` is marked done with `it`: it is the task or the group that it finishes. -/
def MarksDone (x : ID) : Prop :=
  x = (entry tasks it).id ∨ (FinishesGroup tasks sh it ∧ x = (entry tasks it).grpId)

instance : DecidablePred (MarksDone tasks sh it) := fun _ => inferInstanceAs (Decidable (_ ∨ _))

/-- The number of entries that become ready when `it` is marked done. -/
def newlyReady : Nat :=
  (Finset.univ.filter fun i : Fin tasks.length =>
    ¬ Ready sh.status (entry tasks i) ∧
      Ready (complete tasks sh it).1.status (entry tasks i)).card

/-- The number of entries that have what is marked done in `parent_id2` and nothing in
`parent_id`. -/
def secondOnly : Nat :=
  (Finset.univ.filter fun i : Fin tasks.length =>
    (entry tasks i).parentId = noneId ∧ MarksDone tasks sh it (entry tasks i).parentId2).card

/-- The number of entries that have what is marked done as a parent while neither of their
parents is done yet. -/
def bothMissing : Nat :=
  (Finset.univ.filter fun i : Fin tasks.length =>
    (MarksDone tasks sh it (entry tasks i).parentId ∨
      MarksDone tasks sh it (entry tasks i).parentId2) ∧
    (sh.status (entry tasks i).parentId).status ≠ .done ∧
    (sh.status (entry tasks i).parentId2).status ≠ .done).card

end

/-- What the constructor counts for an entry in the child counts of the ids with `marked`. -/
def counted (marked : ID → Prop) [DecidablePred marked] (e : TaskInfo ID) : Nat :=
  (if e.parentId ≠ noneId ∧ marked e.parentId then 1 else 0) +
    if e.parentId ≠ noneId ∧ e.parentId2 ≠ noneId ∧ marked e.parentId2 then 1 else 0

variable {T : Table ID} {sh : Shared ID} {it : T.Ptr}

/-! ## The sum of the child counts -/

theorem Shared.Consistent.childCount_eq_sum (ok : sh.Consistent T) (x : ID) :
    (sh.status x).childCount = ∑ i : T.Ptr, counted (fun p => p = x) (entry T.tasks i) := by
  rw [ok.child_count, construct_childCount, ← card_filter_get, ← card_filter_get,
    Finset.card_filter, Finset.card_filter, ← Finset.sum_add_distrib]
  rfl

/-- A call accumulates what was counted for the ids that it marks done. -/
theorem Shared.Consistent.complete_snd_eq_sum (ok : sh.Consistent T) (it : T.Ptr) :
    (Tasks.complete T.tasks sh it).2 =
      ∑ i : T.Ptr, counted (MarksDone T.tasks sh it) (entry T.tasks i) := by
  rw [complete_snd, ok.childCount_eq_sum, ok.childCount_eq_sum]
  by_cases last : FinishesGroup T.tasks sh it
  · rw [if_pos last, ← Finset.sum_add_distrib]
    apply Finset.sum_congr rfl
    intro i _
    have apart : (entry T.tasks it).id ≠ (entry T.tasks it).grpId := T.id_ne_grpId it it
    have slot : ∀ (used : Prop) [Decidable used] (p : ID),
        (if used ∧ p = (entry T.tasks it).id then 1 else 0) +
          (if used ∧ p = (entry T.tasks it).grpId then 1 else 0) =
        if used ∧ MarksDone T.tasks sh it p then 1 else 0 := by
      intro used _ p
      by_cases same : p = (entry T.tasks it).id
      · simp [MarksDone, same, apart]
      · simp [MarksDone, same, last]
    simp only [counted, ← slot, ← and_assoc]
    omega
  · rw [if_neg last, Nat.add_zero]
    simp only [counted, MarksDone, last, false_and, or_false]

/-! ## The entries that become ready -/

theorem complete_done_iff (tasks : List (TaskInfo ID)) (sh : Shared ID) (it : Fin tasks.length)
    (x : ID) :
    ((complete tasks sh it).1.status x).status = .done ↔
      (sh.status x).status = .done ∨ MarksDone tasks sh it x := by
  rw [complete_status, MarksDone]
  by_cases marked :
      x = (entry tasks it).id ∨ (FinishesGroup tasks sh it ∧ x = (entry tasks it).grpId)
  · simp [marked]
  · simp [marked]

section
variable (ok : sh.Consistent T) (running : T.statusOf sh it = .running)
include ok running

/-- What a call marks done has not been done before. -/
theorem Shared.Consistent.not_done_of_marksDone (noGroup : T.NoneNotGroup) {x : ID}
    (marked : MarksDone T.tasks sh it x) : (sh.status x).status ≠ .done := by
  rcases marked with rfl | ⟨last, rfl⟩
  · exact fun finished => by simp [Table.statusOf, finished] at running
  · have group := noGroup.groupId last.1
    have one := ((ok.finishesGroup_iff group).mp ⟨last, rfl⟩).2
    rw [ok.grp_open _ group (by omega)]
    simp

/-- An entry becomes ready when a parent is not done and the call marks done what is
missing. -/
theorem Shared.Consistent.becomesReady_iff (parents : sh.ParentsDone T) (i : T.Ptr) :
    (¬ Ready sh.status (entry T.tasks i) ∧
      Ready (Tasks.complete T.tasks sh it).1.status (entry T.tasks i)) ↔
    ¬ ((sh.status (entry T.tasks i).parentId).status = .done ∧
        (sh.status (entry T.tasks i).parentId2).status = .done) ∧
      ((sh.status (entry T.tasks i).parentId).status = .done ∨
        MarksDone T.tasks sh it (entry T.tasks i).parentId) ∧
      ((sh.status (entry T.tasks i).parentId2).status = .done ∨
        MarksDone T.tasks sh it (entry T.tasks i).parentId2) := by
  have status : T.statusOf (Tasks.complete T.tasks sh it).1 i = .waiting ↔
      T.statusOf sh i = .waiting := by
    rw [complete_statusOf]
    split
    · next same => simp [same, running]
    · rfl
  rw [Ready, Ready, complete_done_iff, complete_done_iff]
  change ¬ (T.statusOf sh i = .waiting ∧ _) ∧ (T.statusOf _ i = .waiting ∧ _) ↔ _
  rw [status]
  constructor
  · intro given
    rcases given with ⟨before, waiting, both⟩
    exact ⟨fun finished => before ⟨waiting, finished⟩, both⟩
  · intro given
    rcases given with ⟨missing, both⟩
    have waiting : T.statusOf sh i = .waiting := by
      by_contra begun
      have satisfied := parents i begun
      exact missing ⟨(ok.status_done_iff _).mpr satisfied.1, (ok.status_done_iff _).mpr satisfied.2⟩
    exact ⟨fun ready => missing ready.2, waiting, both⟩

/-- The entries that become ready, with those whose parents are both missing, are what the
call accumulates, with those that use `parent_id2` alone. -/
theorem Shared.Consistent.newlyReady_add (noGroup : T.NoneNotGroup) (parents : sh.ParentsDone T) :
    newlyReady T.tasks sh it + bothMissing T.tasks sh it =
      (Tasks.complete T.tasks sh it).2 + secondOnly T.tasks sh it := by
  rw [ok.complete_snd_eq_sum, newlyReady, bothMissing, secondOnly, Finset.card_filter,
    Finset.card_filter, Finset.card_filter, ← Finset.sum_add_distrib, ← Finset.sum_add_distrib]
  apply Finset.sum_congr rfl
  intro i _
  simp only [ok.becomesReady_iff running parents, counted]
  -- what is marked done was missing before, and `none_id` never is
  have unmarked : ∀ x, (sh.status x).status = .done → ¬ MarksDone T.tasks sh it x :=
    fun x finished marked => ok.not_done_of_marksDone running noGroup marked finished
  have none_unmarked := unmarked noneId ok.none_done
  by_cases first : (entry T.tasks i).parentId = noneId
  · -- counted nowhere, whatever `parent_id2` is
    by_cases second : MarksDone T.tasks sh it (entry T.tasks i).parentId2
    · have missing := ok.not_done_of_marksDone running noGroup second
      simp [first, second, missing, none_unmarked, ok.none_done]
    · simp [first, second, none_unmarked, ok.none_done]
  · have used : MarksDone T.tasks sh it (entry T.tasks i).parentId2 →
        (entry T.tasks i).parentId2 ≠ noneId := fun marked same => none_unmarked (same ▸ marked)
    by_cases one : MarksDone T.tasks sh it (entry T.tasks i).parentId
    · have missing := ok.not_done_of_marksDone running noGroup one
      by_cases two : MarksDone T.tasks sh it (entry T.tasks i).parentId2
      · -- counted twice, becomes ready once
        have missing2 := ok.not_done_of_marksDone running noGroup two
        simp [first, one, two, missing, missing2, used two]
      · by_cases finished : (sh.status (entry T.tasks i).parentId2).status = .done <;>
          simp [first, one, two, missing, finished]
    · by_cases two : MarksDone T.tasks sh it (entry T.tasks i).parentId2
      · have missing2 := ok.not_done_of_marksDone running noGroup two
        by_cases finished : (sh.status (entry T.tasks i).parentId).status = .done <;>
          simp [first, one, two, missing2, finished, used two]
      · by_cases finished : (sh.status (entry T.tasks i).parentId).status = .done <;>
          simp [one, two, finished]

end

/-- Tables written in order have no entry that uses `parent_id2` alone. -/
theorem secondOnly_eq_zero (order : T.ParentsInOrder) (noGroup : T.NoneNotGroup) (sh : Shared ID)
    (it : T.Ptr) : secondOnly T.tasks sh it = 0 := by
  rw [secondOnly, Finset.card_eq_zero, Finset.filter_eq_empty_iff]
  intro i _ given
  rcases given with ⟨first, same | ⟨_, same⟩⟩
  · exact order _ (List.getElem_mem i.isLt) (same ▸ T.id_ne_none it) first
  · exact order _ (List.getElem_mem i.isLt) (same ▸ noGroup _ (List.getElem_mem it.isLt)) first

/-! ## Runs -/

variable {n : Nat} {s : State T.tasks} {e : Event T.tasks.length}

/-- The equation of the counts, for the calls of a run. -/
theorem newlyReady_add_bothMissing (noGroup : T.NoneNotGroup) (inv : Inv s)
    (parents : s.shared.ParentsDone T) (completes : s.completed e = some it) :
    newlyReady T.tasks s.shared it + bothMissing T.tasks s.shared it =
      (complete T.tasks s.shared it).2 + secondOnly T.tasks s.shared it :=
  inv.shared.newlyReady_add (inv.completed_running completes) noGroup parents

theorem newlyReady_le_iff (noGroup : T.NoneNotGroup) (reached : T.Reachable n s)
    (completes : s.completed e = some it) :
    newlyReady T.tasks s.shared it ≤ (complete T.tasks s.shared it).2 ↔
      secondOnly T.tasks s.shared it ≤ bothMissing T.tasks s.shared it := by
  have balance := newlyReady_add_bothMissing noGroup (Reachable.inv reached)
    (Reachable.parentsDone reached) completes
  omega

/-- `P` holds of the protected members and the task for every call of the run that marks a
task done. -/
def Table.AtCompletions (T : Table ID) (n : Nat) (log : List (Event T.tasks.length))
    (P : Shared ID → T.Ptr → Prop) : Prop :=
  ∀ before e after s it, log = before ++ e :: after → T.Run n before s →
    s.completed e = some it → P s.shared it

/-- A call makes at most as many entries ready as the child count it accumulates exactly when
the entries that have what it marks done in `parent_id2` alone are at most those that have it
as a parent while both their parents are missing. In a run all calls do the one exactly when
all do the other. -/
theorem wake_up_count_iff (noGroup : T.NoneNotGroup) (n : Nat) :
    (∀ s e it, T.Reachable n s → s.completed e = some it →
      (newlyReady T.tasks s.shared it ≤ (complete T.tasks s.shared it).2 ↔
        secondOnly T.tasks s.shared it ≤ bothMissing T.tasks s.shared it)) ∧
    ∀ log s, T.Run n log s →
      (T.AtCompletions n log (fun sh it => newlyReady T.tasks sh it ≤ (complete T.tasks sh it).2) ↔
        T.AtCompletions n log
          (fun sh it => secondOnly T.tasks sh it ≤ bothMissing T.tasks sh it)) := by
  refine ⟨fun s e it reached completes => newlyReady_le_iff noGroup reached completes,
    fun log s _ => ?_⟩
  constructor
  · intro covered before e after s it same run completes
    apply (newlyReady_le_iff noGroup ⟨before, run⟩ completes).mp
    exact covered before e after s it same run completes
  · intro balanced before e after s it same run completes
    apply (newlyReady_le_iff noGroup ⟨before, run⟩ completes).mpr
    exact balanced before e after s it same run completes

end

/-- In the boot program with five threads every call makes at most as many entries ready as it
counts. -/
theorem wake_up_count_boot : ∃ s, bootTable.Run 5 bootPoolLog s ∧
    bootTable.AtCompletions 5 bootPoolLog fun sh it =>
      newlyReady bootTable.tasks sh it ≤ (complete bootTable.tasks sh it).2 := by
  obtain ⟨s, run, -⟩ := run_of_replay next (State.init bootTable.tasks 5) bootPoolLog
    (fun _ => True) (by decide +kernel)
  refine ⟨s, run, ((wake_up_count_iff bootTable_noneNotGroup 5).2 bootPoolLog s run).mpr ?_⟩
  intro before e after s it _ _ _
  rw [secondOnly_eq_zero bootTable_parentsInOrder bootTable_noneNotGroup]
  exact Nat.zero_le _

/-- Two entries that wait for a third one with `parent_id2` alone. -/
def secondSlotTable : Table BootId where
  tasks := [⟨.acpi, .grpNone, .none, .none⟩, ⟨.dbus, .grpNone, .none, .acpi⟩,
    ⟨.slim, .grpNone, .none, .acpi⟩]
  distinct := by decide
  ne_none := by decide
  ne_grpNone := by decide
  ne_grp := by decide

/-- A pointer into the table. -/
def secondSlotPtr (k : Fin 3) : secondSlotTable.Ptr := k

/-- Two threads, of which the second falls asleep while the first runs the first task. -/
def secondSlotLog : List (Event secondSlotTable.tasks.length) :=
  [.create, .create, .peek 0 (.task (secondSlotPtr 0)) none, .peek 1 .wait none,
    .call 0 (secondSlotPtr 0), .ret 0 (secondSlotPtr 0)]

/-- The call that marks the first task done makes two entries ready and counts none, so it
takes one and leaves the second thread asleep beside the other. -/
theorem wake_up_count_short : secondSlotTable.NoneNotGroup ∧
    ∃ s s', secondSlotTable.Run 2 secondSlotLog s ∧
      next s (.peek 0 (.task (secondSlotPtr 1)) none) = some s' ∧
      s.completed (.peek 0 (.task (secondSlotPtr 1)) none) = some (secondSlotPtr 0) ∧
      newlyReady secondSlotTable.tasks s.shared (secondSlotPtr 0) = 2 ∧
      (complete secondSlotTable.tasks s.shared (secondSlotPtr 0)).2 = 0 ∧
      ¬ newlyReady secondSlotTable.tasks s.shared (secondSlotPtr 0) ≤
        (complete secondSlotTable.tasks s.shared (secondSlotPtr 0)).2 ∧
      s'.threads[1]? = some (.asleep 0) ∧
      Ready s'.shared.status (entry secondSlotTable.tasks (secondSlotPtr 2)) := by
  refine ⟨by unfold Table.NoneNotGroup; decide, ?_⟩
  obtain ⟨s, run, completes, ready, count, after⟩ := run_of_replay next
    (State.init secondSlotTable.tasks 2) secondSlotLog
    (fun s => s.completed (.peek 0 (.task (secondSlotPtr 1)) none) = some (secondSlotPtr 0) ∧
      newlyReady secondSlotTable.tasks s.shared (secondSlotPtr 0) = 2 ∧
      (complete secondSlotTable.tasks s.shared (secondSlotPtr 0)).2 = 0 ∧
      ((next s (.peek 0 (.task (secondSlotPtr 1)) none)).map fun s' =>
        decide (s'.threads[1]? = some (Thread.asleep 0) ∧
          Ready s'.shared.status (entry secondSlotTable.tasks (secondSlotPtr 2)))) = some true)
    (by decide +kernel)
  obtain ⟨s', fired, holds⟩ := Option.map_eq_some_iff.mp after
  have left := of_decide_eq_true holds
  exact ⟨s, s', run, fired, completes, ready, count, by omega, left.1, left.2⟩

end DebianConf.Tasks
