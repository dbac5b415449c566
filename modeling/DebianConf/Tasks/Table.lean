import Mathlib.Data.Fintype.Card
import Mathlib.Logic.Relation

/-!
# Task tables

The static data of `Tasks<ID>` (`root/tasks.h`): the entries of the table handed to the
constructor, and what the scheduler expects of the table: distinct task ids that are neither
the reserved enumerators nor the id of a group.
-/

namespace DebianConf.Tasks

/-- The enumerators `ID` has to provide (`tasks.h:4`). `max_id` only sizes the status array,
which is a total function here. -/
class TaskId (ID : Type) where
  noneId : ID
  grpNoneId : ID

open TaskId

/-- `task_info_t` (`tasks.h:30-38`). The function of an entry is named by the entry itself. -/
structure TaskInfo (ID : Type) where
  id : ID
  grpId : ID
  parentId : ID
  parentId2 : ID
  deriving DecidableEq, Repr

/-- The entry a pointer into the table points to, `*it`. -/
def entry {ID : Type} (tasks : List (TaskInfo ID)) (it : Fin tasks.length) : TaskInfo ID :=
  tasks[it]

/-- A table whose task ids are pairwise distinct, reserved by no enumerator and used as no
group. -/
structure Table (ID : Type) [TaskId ID] where
  tasks : List (TaskInfo ID)
  distinct : (tasks.map TaskInfo.id).Nodup
  ne_none : ∀ e ∈ tasks, e.id ≠ noneId
  ne_grpNone : ∀ e ∈ tasks, e.id ≠ grpNoneId
  ne_grp : ∀ e ∈ tasks, ∀ m ∈ tasks, e.id ≠ m.grpId

section
variable {ID : Type} [TaskId ID]

/-- A pointer to an entry, `const task_info_t*` inside `[begin, end)`. -/
abbrev Table.Ptr (T : Table ID) := Fin T.tasks.length

/-- `none_id` is not used as a group. -/
def Table.NoneNotGroup (T : Table ID) : Prop := ∀ e ∈ T.tasks, e.grpId ≠ noneId

/-- `parent_id2` is used only by entries that use `parent_id` as well, as every `TASK_INFO`
macro writes them (`cinit_main.cpp:34-37`). -/
def Table.ParentsInOrder (T : Table ID) : Prop :=
  ∀ e ∈ T.tasks, e.parentId2 ≠ noneId → e.parentId ≠ noneId

/-- `p` is satisfied once the entries of `S` are finished: it is one of the two reserved
ids, a finished entry, or a group with a member whose members are all finished. -/
def Table.Satisfied (T : Table ID) (S : Set T.Ptr) (p : ID) : Prop :=
  p = noneId ∨ p = grpNoneId ∨ (∃ i ∈ S, (entry T.tasks i).id = p) ∨
    ((∃ i : T.Ptr, (entry T.tasks i).grpId = p) ∧ ∀ i : T.Ptr, (entry T.tasks i).grpId = p → i ∈ S)

/-- Both parents of entry `i` are satisfied. -/
def Table.ParentsSatisfied (T : Table ID) (S : Set T.Ptr) (i : T.Ptr) : Prop :=
  T.Satisfied S (entry T.tasks i).parentId ∧ T.Satisfied S (entry T.tasks i).parentId2

/-- `j` is what the parent `p` refers to: the entry itself or a member of the group. -/
def Table.Refers (T : Table ID) (p : ID) (j : T.Ptr) : Prop :=
  p ≠ noneId ∧ p ≠ grpNoneId ∧ ((entry T.tasks j).id = p ∨ (entry T.tasks j).grpId = p)

/-- Entry `i` depends on entry `j`, as a parent task or as a member of a parent group. -/
def Table.DependsOn (T : Table ID) (i j : T.Ptr) : Prop :=
  T.Refers (entry T.tasks i).parentId j ∨ T.Refers (entry T.tasks i).parentId2 j

/-- The parent `p` names nothing: neither an entry nor a group with a member. -/
def Table.Absent (T : Table ID) (p : ID) : Prop :=
  p ≠ noneId ∧ p ≠ grpNoneId ∧ ∀ j : T.Ptr, (entry T.tasks j).id ≠ p ∧ (entry T.tasks j).grpId ≠ p

/-- Entry `i` has a parent that names nothing. -/
def Table.Blocked (T : Table ID) (i : T.Ptr) : Prop :=
  T.Absent (entry T.tasks i).parentId ∨ T.Absent (entry T.tasks i).parentId2

/-- No entry depends on itself, directly or through others. -/
def Table.Acyclic (T : Table ID) : Prop := ∀ i, ¬ Relation.TransGen T.DependsOn i i

variable (T : Table ID)

theorem Table.id_inj {i j : T.Ptr} (h : (entry T.tasks i).id = (entry T.tasks j).id) : i = j := by
  have unique := T.distinct
  rw [List.nodup_iff_injective_get] at unique
  have same := @unique (i.cast (by simp)) (j.cast (by simp)) (by simpa [entry] using h)
  simpa [Fin.ext_iff] using same

theorem Table.id_ne_none (i : T.Ptr) : (entry T.tasks i).id ≠ noneId :=
  T.ne_none _ (List.getElem_mem _)

theorem Table.id_ne_grpNone (i : T.Ptr) : (entry T.tasks i).id ≠ grpNoneId :=
  T.ne_grpNone _ (List.getElem_mem _)

theorem Table.id_ne_grpId (i j : T.Ptr) : (entry T.tasks i).id ≠ (entry T.tasks j).grpId :=
  T.ne_grp _ (List.getElem_mem _) _ (List.getElem_mem _)

theorem Table.Satisfied.mono {S S' : Set T.Ptr} (sub : S ⊆ S') {p : ID}
    (h : T.Satisfied S p) : T.Satisfied S' p := by
  rcases h with h | h | ⟨i, member, h⟩ | ⟨some, all⟩
  · exact Or.inl h
  · exact Or.inr (Or.inl h)
  · exact Or.inr (Or.inr (Or.inl ⟨i, sub member, h⟩))
  · exact Or.inr (Or.inr (Or.inr ⟨some, fun i h => sub (all i h)⟩))

theorem Table.ParentsSatisfied.mono {S S' : Set T.Ptr} (sub : S ⊆ S') {i : T.Ptr}
    (h : T.ParentsSatisfied S i) : T.ParentsSatisfied S' i :=
  ⟨h.1.mono T sub, h.2.mono T sub⟩

/-- A parent is satisfied when it names something and everything it names is finished. -/
theorem Table.satisfied_iff {S : Set T.Ptr} {p : ID} :
    T.Satisfied S p ↔ ¬ T.Absent p ∧ ∀ j, T.Refers p j → j ∈ S := by
  constructor
  · rintro (rfl | rfl | ⟨i, member, rfl⟩ | ⟨⟨m, rfl⟩, all⟩)
    · exact ⟨fun h => h.1 rfl, fun j h => absurd rfl h.1⟩
    · exact ⟨fun h => h.2.1 rfl, fun j h => absurd rfl h.2.1⟩
    · refine ⟨fun h => (h.2.2 i).1 rfl, fun j h => ?_⟩
      rcases h.2.2 with same | same
      · exact T.id_inj same ▸ member
      · exact absurd same.symm (T.id_ne_grpId i j)
    · refine ⟨fun h => (h.2.2 m).2 rfl, fun j h => ?_⟩
      rcases h.2.2 with same | same
      · exact absurd same (T.id_ne_grpId j m)
      · exact all j same
  · intro given
    rcases given with ⟨present, finished⟩
    by_cases hn : p = noneId
    · exact Or.inl hn
    by_cases hg : p = grpNoneId
    · exact Or.inr (Or.inl hg)
    simp only [Table.Absent, not_and, not_forall] at present
    obtain ⟨j, h⟩ := present hn hg
    by_cases same : (entry T.tasks j).id = p
    · exact Or.inr (Or.inr (Or.inl ⟨j, finished j ⟨hn, hg, Or.inl same⟩, same⟩))
    · have member : (entry T.tasks j).grpId = p := by
        by_contra other
        exact h same other
      exact Or.inr (Or.inr (Or.inr ⟨⟨j, member⟩, fun i hi => finished i ⟨hn, hg, Or.inr hi⟩⟩))

theorem Table.parentsSatisfied_iff {S : Set T.Ptr} {i : T.Ptr} :
    T.ParentsSatisfied S i ↔ ¬ T.Blocked i ∧ ∀ j, T.DependsOn i j → j ∈ S := by
  rw [Table.ParentsSatisfied, T.satisfied_iff, T.satisfied_iff]
  constructor
  · intro given
    rcases given with ⟨⟨p1, f1⟩, p2, f2⟩
    exact ⟨fun h => h.elim p1 p2, fun j h => h.elim (f1 j) (f2 j)⟩
  · intro given
    rcases given with ⟨present, finished⟩
    exact ⟨⟨fun h => present (Or.inl h), fun j h => finished j (Or.inl h)⟩,
      fun h => present (Or.inr h), fun j h => finished j (Or.inr h)⟩

end

end DebianConf.Tasks
