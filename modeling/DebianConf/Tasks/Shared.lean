import DebianConf.Lib.Counting
import DebianConf.Tasks.Scheduler

/-!
# The mutex-protected members

What the constructor, the completion part of `peekTask` and one round of its loop do to the
status array and to `begin`, each said once, and the invariant `Consistent` of these members:
the counters of the groups count the members that are not done, and `begin` is the first
entry that is not done.
-/

namespace DebianConf.Tasks

open TaskId

section
variable {ID : Type} [DecidableEq ID]

/-! ## Single assignments -/

section
variable (status : ID → TaskStatusT) (id x : ID) (v : TaskStatus)

@[simp] theorem setStatus_status :
    (setStatus status id v x).status = if x = id then v else (status x).status := by
  unfold setStatus modify
  by_cases h : x = id <;> simp [h]

@[simp] theorem setStatus_grpRef : (setStatus status id v x).grpRef = (status x).grpRef := by
  unfold setStatus modify
  by_cases h : x = id <;> simp [h]

@[simp] theorem setStatus_childCount :
    (setStatus status id v x).childCount = (status x).childCount := by
  unfold setStatus modify
  by_cases h : x = id <;> simp [h]

@[simp] theorem incChildCount_status : (incChildCount status id x).status = (status x).status := by
  unfold incChildCount modify
  by_cases h : x = id <;> simp [h]

@[simp] theorem incChildCount_grpRef : (incChildCount status id x).grpRef = (status x).grpRef := by
  unfold incChildCount modify
  by_cases h : x = id <;> simp [h]

@[simp] theorem incChildCount_childCount : (incChildCount status id x).childCount =
    (status x).childCount + if x = id then 1 else 0 := by
  unfold incChildCount modify
  by_cases h : x = id <;> simp [h]

@[simp] theorem incGrpRef_status : (incGrpRef status id x).status = (status x).status := by
  unfold incGrpRef modify
  by_cases h : x = id <;> simp [h]

@[simp] theorem incGrpRef_grpRef :
    (incGrpRef status id x).grpRef = (status x).grpRef + if x = id then 1 else 0 := by
  unfold incGrpRef modify
  by_cases h : x = id <;> simp [h]

@[simp] theorem incGrpRef_childCount :
    (incGrpRef status id x).childCount = (status x).childCount := by
  unfold incGrpRef modify
  by_cases h : x = id <;> simp [h]

@[simp] theorem decGrpRef_status : (decGrpRef status id x).status = (status x).status := by
  unfold decGrpRef modify
  by_cases h : x = id <;> simp [h]

@[simp] theorem decGrpRef_grpRef : (decGrpRef status id x).grpRef =
    if x = id then (if (status x).grpRef = 0 then 4294967295 else (status x).grpRef - 1)
    else (status x).grpRef := by
  unfold decGrpRef modify
  by_cases h : x = id <;> simp [h]

@[simp] theorem decGrpRef_childCount :
    (decGrpRef status id x).childCount = (status x).childCount := by
  unfold decGrpRef modify
  by_cases h : x = id <;> simp [h]

end

variable [TaskId ID]

/-! ## The constructor -/

/-- Counting children changes neither statuses nor group counters, so of `addEntry` only the
assignments to the entry and to its group count for these. -/
theorem addEntry_eq (status : ID → TaskStatusT) (e : TaskInfo ID) :
    ∃ counted : ID → TaskStatusT,
      (∀ x, (counted x).status = (setStatus status e.id .waiting x).status) ∧
      (∀ x, (counted x).grpRef = (status x).grpRef) ∧
      addEntry status e =
        if e.grpId ≠ grpNoneId then setStatus (incGrpRef counted e.grpId) e.grpId .waiting
        else counted := by
  refine ⟨_, fun x => ?_, fun x => ?_, rfl⟩
  · split_ifs <;> simp
  · split_ifs <;> simp

theorem foldl_addEntry_grpRef (tasks : List (TaskInfo ID)) (status : ID → TaskStatusT) (x : ID)
    (grp : x ≠ grpNoneId) :
    (tasks.foldl addEntry status x).grpRef =
      (status x).grpRef + tasks.countP fun e => e.grpId = x := by
  induction tasks generalizing status with
  | nil => simp
  | cons e tasks ih =>
    have head : (addEntry status e x).grpRef =
        (status x).grpRef + if e.grpId = x then 1 else 0 := by
      obtain ⟨counted, -, counters, added⟩ := addEntry_eq status e
      rw [added]
      by_cases group : e.grpId = grpNoneId
      · have other : e.grpId ≠ x := fun same => grp (same ▸ group)
        simp [group, grp.symm, counters]
      · simp [group, counters, eq_comm]
    rw [List.foldl_cons, ih, head, List.countP_cons]
    simp only [decide_eq_true_eq]
    omega

theorem foldl_addEntry_childCount (tasks : List (TaskInfo ID)) (status : ID → TaskStatusT)
    (x : ID) :
    (tasks.foldl addEntry status x).childCount = (status x).childCount +
      tasks.countP (fun e => e.parentId ≠ noneId ∧ e.parentId = x) +
      tasks.countP fun e => e.parentId ≠ noneId ∧ e.parentId2 ≠ noneId ∧ e.parentId2 = x := by
  induction tasks generalizing status with
  | nil => simp
  | cons e tasks ih =>
    have head : (addEntry status e x).childCount = (status x).childCount +
        (if e.parentId ≠ noneId ∧ e.parentId = x then 1 else 0) +
        if e.parentId ≠ noneId ∧ e.parentId2 ≠ noneId ∧ e.parentId2 = x then 1 else 0 := by
      unfold addEntry
      by_cases h1 : e.parentId = noneId <;> by_cases h2 : e.parentId2 = noneId <;>
        by_cases h3 : e.grpId = grpNoneId <;> simp [h1, h2, h3, eq_comm]
    rw [List.foldl_cons, ih, head, List.countP_cons, List.countP_cons]
    simp only [decide_eq_true_eq]
    omega

theorem foldl_addEntry_status (tasks : List (TaskInfo ID)) (status : ID → TaskStatusT) (x : ID)
    (grp : x ≠ grpNoneId) :
    (tasks.foldl addEntry status x).status =
      if ∃ e ∈ tasks, e.id = x ∨ e.grpId = x then .waiting else (status x).status := by
  induction tasks generalizing status with
  | nil => simp
  | cons e tasks ih =>
    have head : (addEntry status e x).status =
        if e.id = x ∨ e.grpId = x then .waiting else (status x).status := by
      obtain ⟨counted, statuses, -, added⟩ := addEntry_eq status e
      rw [added]
      by_cases group : e.grpId = grpNoneId
      · simp [group, grp.symm, statuses, eq_comm]
      · by_cases same : e.grpId = x
        · simp [same, grp]
        · simp [group, same, Ne.symm same, statuses, eq_comm]
    rw [List.foldl_cons, ih, head]
    simp only [List.mem_cons, exists_eq_or_imp]
    by_cases here : e.id = x ∨ e.grpId = x <;>
      by_cases later : ∃ e ∈ tasks, e.id = x ∨ e.grpId = x <;> simp [here, later]

theorem construct_grpRef (tasks : List (TaskInfo ID)) {x : ID} (grp : x ≠ grpNoneId) :
    ((construct tasks).status x).grpRef = tasks.countP fun e => e.grpId = x := by
  simp [construct, foldl_addEntry_grpRef _ _ _ grp, clearStatus]

theorem construct_childCount (tasks : List (TaskInfo ID)) (x : ID) :
    ((construct tasks).status x).childCount =
      tasks.countP (fun e => e.parentId ≠ noneId ∧ e.parentId = x) +
      tasks.countP fun e => e.parentId ≠ noneId ∧ e.parentId2 ≠ noneId ∧ e.parentId2 = x := by
  simp only [construct, setStatus_childCount, foldl_addEntry_childCount, clearStatus, Nat.zero_add]

theorem construct_status (tasks : List (TaskInfo ID)) (x : ID) :
    ((construct tasks).status x).status =
      if x = noneId ∨ x = grpNoneId then .done
      else if ∃ e ∈ tasks, e.id = x ∨ e.grpId = x then .waiting else .disable := by
  by_cases grp : x = grpNoneId
  · simp [construct, grp]
  · simp [construct, grp, foldl_addEntry_status _ _ _ grp, clearStatus]

/-! ## The completion part -/

section
variable (tasks : List (TaskInfo ID)) (sh : Shared ID) (it : Fin tasks.length)

/-- The completion of `it` brings the counter of its group to zero. -/
def FinishesGroup : Prop :=
  (entry tasks it).grpId ≠ grpNoneId ∧ (sh.status (entry tasks it).grpId).grpRef = 1

instance : Decidable (FinishesGroup tasks sh it) := inferInstanceAs (Decidable (_ ∧ _))

private theorem wrapping_dec_eq_zero (n : Nat) :
    (if n = 0 then 4294967295 else n - 1) = 0 ↔ n = 1 := by
  split <;> omega

/-- The completion part counts the group down, and marks it done and adds its child count when
that brings its counter to zero. -/
theorem complete_eq : ∃ counted : ID → TaskStatusT,
    (∀ x, (counted x).status =
      (setStatus sh.status (entry tasks it).id .done x).status) ∧
    (∀ x, (counted x).childCount = (sh.status x).childCount) ∧
    (∀ x, (counted x).grpRef =
      if (entry tasks it).grpId ≠ grpNoneId ∧ x = (entry tasks it).grpId then
        (if (sh.status x).grpRef = 0 then 4294967295 else (sh.status x).grpRef - 1)
      else (sh.status x).grpRef) ∧
    (complete tasks sh it).1.status =
      (if FinishesGroup tasks sh it then setStatus counted (entry tasks it).grpId .done
        else counted) ∧
    (complete tasks sh it).2 = (sh.status (entry tasks it).id).childCount +
      if FinishesGroup tasks sh it then (sh.status (entry tasks it).grpId).childCount else 0 := by
  unfold complete FinishesGroup
  by_cases grp : (entry tasks it).grpId = grpNoneId
  · refine ⟨setStatus sh.status (entry tasks it).id .done, ?_⟩
    simp [grp]
  · refine ⟨decGrpRef (setStatus sh.status (entry tasks it).id .done) (entry tasks it).grpId, ?_⟩
    by_cases last : (sh.status (entry tasks it).grpId).grpRef = 1
    · simp [grp, last]
    · simp [grp, last, wrapping_dec_eq_zero]

theorem complete_status (x : ID) : ((complete tasks sh it).1.status x).status =
    if x = (entry tasks it).id ∨ (FinishesGroup tasks sh it ∧ x = (entry tasks it).grpId) then .done
    else (sh.status x).status := by
  obtain ⟨counted, statuses, -, -, result, -⟩ := complete_eq tasks sh it
  rw [result]
  by_cases last : FinishesGroup tasks sh it
  · by_cases same : x = (entry tasks it).grpId <;> simp [last, same, statuses]
  · simp [last, statuses]

theorem complete_grpRef (x : ID) : ((complete tasks sh it).1.status x).grpRef =
    if (entry tasks it).grpId ≠ grpNoneId ∧ x = (entry tasks it).grpId then
      (if (sh.status x).grpRef = 0 then 4294967295 else (sh.status x).grpRef - 1)
    else (sh.status x).grpRef := by
  obtain ⟨counted, -, -, counters, result, -⟩ := complete_eq tasks sh it
  rw [result, ← counters]
  split <;> simp

theorem complete_childCount (x : ID) :
    ((complete tasks sh it).1.status x).childCount = (sh.status x).childCount := by
  obtain ⟨counted, -, children, -, result, -⟩ := complete_eq tasks sh it
  rw [result, ← children]
  split <;> simp

theorem complete_snd : (complete tasks sh it).2 = (sh.status (entry tasks it).id).childCount +
    if FinishesGroup tasks sh it then (sh.status (entry tasks it).grpId).childCount else 0 := by
  obtain ⟨_, -, -, -, -, result⟩ := complete_eq tasks sh it
  exact result

theorem complete_begin : (complete tasks sh it).1.begin =
    if it.val = sh.begin then
      skipDone (complete tasks sh it).1.status (tasks.drop sh.begin) sh.begin
    else sh.begin := by
  unfold complete
  rfl

end

omit [DecidableEq ID] [TaskId ID] in
/-- `skipDone` stops at the end or at the first entry from `begin` on that is not done. -/
theorem skipDone_spec (status : ID → TaskStatusT) (rest : List (TaskInfo ID)) (begin : Nat) :
    ∃ k, skipDone status rest begin = begin + k ∧ k ≤ rest.length ∧
      (∀ e ∈ rest.take k, (status e.id).status = .done) ∧
      ∀ e, rest[k]? = some e → (status e.id).status ≠ .done := by
  induction rest generalizing begin with
  | nil => exact ⟨0, by simp [skipDone]⟩
  | cons e rest ih =>
    rw [skipDone]
    split
    · next finished =>
      obtain ⟨k, same, bound, before, here⟩ := ih (begin + 1)
      refine ⟨k + 1, by rw [same]; omega, by simpa using bound, ?_, by simpa using here⟩
      simpa [finished] using before
    · next unfinished => exact ⟨0, by simpa using unfinished⟩

omit [DecidableEq ID] [TaskId ID] in
theorem skipDone_pointers (tasks : List (TaskInfo ID)) (status : ID → TaskStatusT) {begin : Nat}
    (inside : begin ≤ tasks.length) :
    skipDone status (tasks.drop begin) begin ≤ tasks.length ∧
    (∀ i : Fin tasks.length, begin ≤ i.val → i.val < skipDone status (tasks.drop begin) begin →
      (status (entry tasks i).id).status = .done) ∧
    ∀ i : Fin tasks.length, i.val = skipDone status (tasks.drop begin) begin →
      (status (entry tasks i).id).status ≠ .done := by
  obtain ⟨k, same, bound, before, here⟩ := skipDone_spec status (tasks.drop begin) begin
  rw [List.length_drop] at bound
  rw [same]
  refine ⟨by omega, ?_, ?_⟩
  · intro i from_begin below
    apply before
    rw [List.mem_take_iff_getElem]
    refine ⟨i.val - begin, by simp; omega, ?_⟩
    simp only [List.getElem_drop, entry, Fin.getElem_fin]
    congr 1
    omega
  · intro i at_end
    apply here
    simp [← at_end, entry]

/-! ## The scan -/

omit [DecidableEq ID] [TaskId ID] in
/-- The scan breaks at the first ready entry. -/
theorem scan_fst (tasks : List (TaskInfo ID)) (status : ID → TaskStatusT)
    (its : List (Fin tasks.length)) (towait : Bool) :
    (scan tasks status its towait).1 = its.find? fun it => Ready status (entry tasks it) := by
  induction its generalizing towait with
  | nil => rfl
  | cons it its ih =>
    rw [scan, List.find?_cons]
    by_cases waiting : (status (entry tasks it).id).status = .waiting
    · by_cases parents : (status (entry tasks it).parentId).status = .done ∧
          (status (entry tasks it).parentId2).status = .done
      · simp [Ready, waiting, parents]
      · rw [if_pos waiting, if_neg parents, ih]
        simp [Ready, waiting, parents]
    · rw [if_neg waiting, ih]
      simp [Ready, waiting]

omit [DecidableEq ID] [TaskId ID] in
/-- A scan that finds nothing has set `towait` when it met a waiting entry. -/
theorem scan_snd (tasks : List (TaskInfo ID)) (status : ID → TaskStatusT)
    (its : List (Fin tasks.length)) (towait : Bool)
    (nothing : ∀ it ∈ its, ¬ Ready status (entry tasks it)) :
    (scan tasks status its towait).2 =
      (towait || its.any fun it => (status (entry tasks it).id).status = .waiting) := by
  induction its generalizing towait with
  | nil => simp [scan]
  | cons it its ih =>
    have later : ∀ it ∈ its, ¬ Ready status (entry tasks it) := fun it h => nothing it (by simp [h])
    rw [scan, List.any_cons]
    by_cases waiting : (status (entry tasks it).id).status = .waiting
    · have parents : ¬((status (entry tasks it).parentId).status = .done ∧
          (status (entry tasks it).parentId2).status = .done) :=
        fun h => nothing it (by simp) ⟨waiting, h⟩
      rw [if_pos waiting, if_neg parents, ih _ later]
      simp [waiting]
    · rw [if_neg waiting, ih _ later]
      simp [waiting]

omit [DecidableEq ID] [TaskId ID] in
/-- Entries that are not waiting do not matter to a scan. -/
theorem scan_skip (tasks : List (TaskInfo ID)) (status : ID → TaskStatusT)
    {front : List (Fin tasks.length)} (rest : List (Fin tasks.length)) (towait : Bool)
    (skipped : ∀ it ∈ front, (status (entry tasks it).id).status ≠ .waiting) :
    scan tasks status (front ++ rest) towait = scan tasks status rest towait := by
  induction front with
  | nil => rfl
  | cons it front ih =>
    rw [List.cons_append, scan, if_neg (skipped it List.mem_cons_self),
      ih fun other member => skipped other (List.mem_cons_of_mem it member)]

end

end DebianConf.Tasks
