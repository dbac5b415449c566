import DebianConf.Tasks.Shared

/-!
# Consistency of the status array

`Consistent` is what holds of the mutex-protected members whenever the mutex is free: the
counter of a group is the number of its members that are not done, its status follows from
theirs, `begin` is the first entry that is not done, and the child counts are those the
constructor computed. The constructor establishes it; the completion of a running task and
the start of a ready one keep it.
-/

namespace DebianConf.Tasks

open TaskId DebianConf.Lib

section
variable {ID : Type} [DecidableEq ID] [TaskId ID] (T : Table ID)

omit [DecidableEq ID] in
/-- The status of an entry. -/
def Table.statusOf (sh : Shared ID) (i : T.Ptr) : TaskStatus :=
  (sh.status (entry T.tasks i).id).status

/-- The entries that are done. -/
def Table.doneSet (sh : Shared ID) : Set T.Ptr := {i | T.statusOf sh i = .done}

/-- The number of members of `g` that are not done. -/
def Table.openMembers (sh : Shared ID) (g : ID) : Nat :=
  (Finset.univ.filter fun i : T.Ptr =>
    (entry T.tasks i).grpId = g ∧ T.statusOf sh i ≠ .done).card

/-- `g` is neither reserved nor the id of an entry. -/
structure Table.GroupId (g : ID) : Prop where
  ne_none : g ≠ noneId
  ne_grpNone : g ≠ grpNoneId
  not_task : ∀ i, (entry T.tasks i).id ≠ g

structure Shared.Consistent (sh : Shared ID) : Prop where
  none_done : (sh.status noneId).status = .done
  grpNone_done : (sh.status grpNoneId).status = .done
  begin_le : sh.begin ≤ T.tasks.length
  before_begin : ∀ i : T.Ptr, i.val < sh.begin → T.statusOf sh i = .done
  at_begin : ∀ i : T.Ptr, i.val = sh.begin → T.statusOf sh i ≠ .done
  enabled : ∀ i : T.Ptr, T.statusOf sh i ≠ .disable
  grp_ref : ∀ g, T.GroupId g → (sh.status g).grpRef = T.openMembers sh g
  grp_absent : ∀ g, T.GroupId g → (∀ i, (entry T.tasks i).grpId ≠ g) →
    (sh.status g).status = .disable
  grp_open : ∀ g, T.GroupId g → T.openMembers sh g ≠ 0 → (sh.status g).status = .waiting
  grp_done : ∀ g, T.GroupId g → (∃ i, (entry T.tasks i).grpId = g) → T.openMembers sh g = 0 →
    (sh.status g).status = .done
  child_count : ∀ x, (sh.status x).childCount = ((construct T.tasks).status x).childCount

variable {T}

omit [DecidableEq ID] in
theorem Table.NoneNotGroup.groupId (noGroup : T.NoneNotGroup) {it : T.Ptr}
    (grouped : (entry T.tasks it).grpId ≠ grpNoneId) : T.GroupId (entry T.tasks it).grpId where
  ne_none := noGroup _ (List.getElem_mem it.isLt)
  ne_grpNone := grouped
  not_task i := T.id_ne_grpId i it

theorem openMembers_eq_zero {sh : Shared ID} {g : ID} : T.openMembers sh g = 0 ↔
    ∀ i, (entry T.tasks i).grpId = g → T.statusOf sh i = .done := by
  simp [Table.openMembers, Finset.filter_eq_empty_iff]

/-! ## The constructor -/

omit [DecidableEq ID] in
theorem exists_mem_tasks {p : TaskInfo ID → Prop} :
    (∃ e ∈ T.tasks, p e) ↔ ∃ i : T.Ptr, p (entry T.tasks i) := by
  constructor
  · intro given
    rcases given with ⟨e, member, holds⟩
    obtain ⟨k, inside, rfl⟩ := List.getElem_of_mem member
    exact ⟨⟨k, inside⟩, holds⟩
  · intro given
    rcases given with ⟨i, holds⟩
    exact ⟨_, List.getElem_mem _, holds⟩

theorem construct_statusOf (i : T.Ptr) : T.statusOf (construct T.tasks) i = .waiting := by
  rw [Table.statusOf, construct_status, if_neg, if_pos]
  · exact exists_mem_tasks.mpr ⟨i, Or.inl rfl⟩
  · rintro (h | h)
    · exact T.id_ne_none i h
    · exact T.id_ne_grpNone i h

theorem construct_openMembers (g : ID) :
    T.openMembers (construct T.tasks) g = T.tasks.countP fun e => e.grpId = g := by
  rw [← card_filter_get]
  simp only [Table.openMembers, construct_statusOf]
  simp [entry]

theorem construct_consistent : (construct T.tasks).Consistent T where
  none_done := by rw [construct_status, if_pos (Or.inl rfl)]
  grpNone_done := by rw [construct_status, if_pos (Or.inr rfl)]
  begin_le := Nat.zero_le _
  before_begin i h := absurd h (Nat.not_lt_zero _)
  at_begin i _ := by simp [construct_statusOf]
  enabled i := by simp [construct_statusOf]
  grp_ref g group := by
    rw [construct_grpRef _ group.ne_grpNone, construct_openMembers]
  grp_absent g group absent := by
    rw [construct_status, if_neg (by simp [group.ne_none, group.ne_grpNone]), if_neg]
    rintro h
    obtain ⟨i, h | h⟩ := exists_mem_tasks.mp h
    · exact group.not_task i h
    · exact absent i h
  grp_open g group some := by
    obtain ⟨i, h⟩ : ∃ i, (entry T.tasks i).grpId = g := by
      by_contra none
      exact some (openMembers_eq_zero.mpr fun i h => absurd ⟨i, h⟩ none)
    rw [construct_status, if_neg (by simp [group.ne_none, group.ne_grpNone]), if_pos]
    exact exists_mem_tasks.mpr ⟨i, Or.inr h⟩
  grp_done g _ member none := by
    obtain ⟨i, h⟩ := member
    have := openMembers_eq_zero.mp none i h
    simp [construct_statusOf] at this
  child_count _ := rfl

/-! ## What a status says about a parent -/

/-- The status of a parent is done exactly when the done entries satisfy it. -/
theorem Shared.Consistent.status_done_iff {sh : Shared ID} (ok : sh.Consistent T) (p : ID) :
    (sh.status p).status = .done ↔ T.Satisfied (T.doneSet sh) p := by
  by_cases hn : p = noneId
  · exact iff_of_true (hn ▸ ok.none_done) (Or.inl hn)
  by_cases hg : p = grpNoneId
  · exact iff_of_true (hg ▸ ok.grpNone_done) (Or.inr (Or.inl hg))
  by_cases task : ∃ i, (entry T.tasks i).id = p
  · obtain ⟨i, rfl⟩ := task
    constructor
    · exact fun h => Or.inr (Or.inr (Or.inl ⟨i, h, rfl⟩))
    · intro h
      exact (T.satisfied_iff.mp h).2 i ⟨hn, hg, Or.inl rfl⟩
  · have group : T.GroupId p := ⟨hn, hg, fun i h => task ⟨i, h⟩⟩
    by_cases members : ∃ i, (entry T.tasks i).grpId = p
    · by_cases finished : T.openMembers sh p = 0
      · refine iff_of_true (ok.grp_done p group members finished) ?_
        exact Or.inr (Or.inr (Or.inr ⟨members, openMembers_eq_zero.mp finished⟩))
      · refine iff_of_false (by simp [ok.grp_open p group finished]) ?_
        intro h
        apply finished
        exact openMembers_eq_zero.mpr fun i hi => (T.satisfied_iff.mp h).2 i ⟨hn, hg, Or.inr hi⟩
    · have absent : ∀ i, (entry T.tasks i).grpId ≠ p := fun i h => members ⟨i, h⟩
      refine iff_of_false (by simp [ok.grp_absent p group absent]) ?_
      exact fun h => (T.satisfied_iff.mp h).1 ⟨hn, hg, fun j => ⟨group.not_task j, absent j⟩⟩

/-- The test of the scan: waiting, and both parents satisfied by the done entries. -/
theorem Shared.Consistent.ready_iff {sh : Shared ID} (ok : sh.Consistent T) (i : T.Ptr) :
    Ready sh.status (entry T.tasks i) ↔
      T.statusOf sh i = .waiting ∧ T.ParentsSatisfied (T.doneSet sh) i := by
  rw [Ready, ok.status_done_iff, ok.status_done_iff]
  rfl

/-! ## The completion of a task -/

section
variable {sh : Shared ID} {it : T.Ptr}

theorem complete_statusOf (sh : Shared ID) (it j : T.Ptr) :
    T.statusOf (complete T.tasks sh it).1 j = if j = it then .done else T.statusOf sh j := by
  rw [Table.statusOf, complete_status]
  have apart : (entry T.tasks j).id ≠ (entry T.tasks it).grpId := T.id_ne_grpId j it
  by_cases same : j = it
  · simp [same]
  · have other : (entry T.tasks j).id ≠ (entry T.tasks it).id := fun h => same (T.id_inj h)
    simp [apart, other, same, Table.statusOf]

theorem complete_openMembers (unfinished : T.statusOf sh it ≠ .done) (g : ID) :
    T.openMembers (complete T.tasks sh it).1 g + (if (entry T.tasks it).grpId = g then 1 else 0) =
      T.openMembers sh g := by
  have change := card_change (p := fun i : T.Ptr => (entry T.tasks i).grpId = g ∧
      T.statusOf (complete T.tasks sh it).1 i ≠ .done)
    (q := fun i : T.Ptr => (entry T.tasks i).grpId = g ∧ T.statusOf sh i ≠ .done) it (by
      intro j other
      rw [complete_statusOf, if_neg other])
  simpa [complete_statusOf, unfinished, Table.openMembers] using change

/-- The completion of `it` takes the counter of its group to zero exactly when `it` was the
last member of a group that is not done. -/
theorem Shared.Consistent.finishesGroup_iff (ok : sh.Consistent T) {g : ID} (group : T.GroupId g) :
    (FinishesGroup T.tasks sh it ∧ g = (entry T.tasks it).grpId) ↔
      (entry T.tasks it).grpId = g ∧ T.openMembers sh g = 1 := by
  constructor
  · intro given
    rcases given with ⟨⟨_, last⟩, rfl⟩
    exact ⟨rfl, ok.grp_ref _ group ▸ last⟩
  · intro given
    rcases given with ⟨rfl, last⟩
    exact ⟨⟨group.ne_grpNone, (ok.grp_ref _ group).trans last⟩, rfl⟩

/-- `begin` is moved past the done entries exactly when it would point to one. -/
theorem complete_pointers (ok : sh.Consistent T) :
    (complete T.tasks sh it).1.begin ≤ T.tasks.length ∧
    (∀ i : T.Ptr, i.val < (complete T.tasks sh it).1.begin →
      T.statusOf (complete T.tasks sh it).1 i = .done) ∧
    ∀ i : T.Ptr, i.val = (complete T.tasks sh it).1.begin →
      T.statusOf (complete T.tasks sh it).1 i ≠ .done := by
  have earlier : ∀ i : T.Ptr, i.val < sh.begin →
      T.statusOf (complete T.tasks sh it).1 i = .done := by
    intro i below
    rw [complete_statusOf, ok.before_begin i below, ite_self]
  rw [complete_begin]
  split
  · obtain ⟨inside, skipped, stop⟩ :=
      skipDone_pointers T.tasks (complete T.tasks sh it).1.status ok.begin_le
    refine ⟨inside, fun i below => ?_, stop⟩
    by_cases before : i.val < sh.begin
    · exact earlier i before
    · exact skipped i (by omega) below
  · next elsewhere =>
    refine ⟨ok.begin_le, earlier, fun i here => ?_⟩
    have other : i ≠ it := fun h => elsewhere (h ▸ here)
    rw [complete_statusOf, if_neg other]
    exact ok.at_begin i here

/-- Completing a task that is not done keeps the members consistent. -/
theorem Shared.Consistent.complete (ok : sh.Consistent T) (unfinished : T.statusOf sh it ≠ .done) :
    (complete T.tasks sh it).1.Consistent T := by
  have count := complete_openMembers unfinished
  have status_of_group : ∀ g, T.GroupId g →
      ((Tasks.complete T.tasks sh it).1.status g).status =
        if (entry T.tasks it).grpId = g ∧ T.openMembers sh g = 1 then .done
        else (sh.status g).status := by
    intro g group
    rw [complete_status]
    simp only [(group.not_task it).symm, false_or, ok.finishesGroup_iff group]
  have keeps_done : ∀ x, (sh.status x).status = .done →
      ((Tasks.complete T.tasks sh it).1.status x).status = .done := by
    intro x h
    rw [complete_status, h, ite_self]
  refine
    { none_done := keeps_done _ ok.none_done
      grpNone_done := keeps_done _ ok.grpNone_done
      begin_le := ?_, before_begin := ?_, at_begin := ?_, enabled := ?_
      grp_ref := ?_, grp_absent := ?_, grp_open := ?_, grp_done := ?_
      child_count := ?_ }
  · exact (complete_pointers ok).1
  · exact (complete_pointers ok).2.1
  · exact (complete_pointers ok).2.2
  · intro i
    rw [complete_statusOf]
    split
    · simp
    · exact ok.enabled i
  · intro g group
    have before := ok.grp_ref g group
    have after := count g
    rw [complete_grpRef]
    by_cases member : (entry T.tasks it).grpId = g
    · subst member
      simp only [if_true] at after
      rw [if_pos ⟨group.ne_grpNone, rfl⟩, if_neg (by omega)]
      omega
    · rw [if_neg fun h => member h.2.symm]
      simpa [member, before] using after.symm
  · intro g group absent
    rw [status_of_group g group, if_neg fun h => absent it h.1]
    exact ok.grp_absent g group absent
  · intro g group some
    have after := count g
    have before := ok.grp_open g group (by omega)
    rw [status_of_group g group, if_neg, before]
    intro given
    rcases given with ⟨member, last⟩
    simp only [member, if_true] at after
    omega
  · intro g group members finished
    have after := count g
    rw [status_of_group g group]
    by_cases member : (entry T.tasks it).grpId = g
    · simp only [member, if_true] at after
      rw [if_pos ⟨member, by omega⟩]
    · simp only [member, if_false] at after
      rw [if_neg fun h => member h.1]
      exact ok.grp_done g group members (by omega)
  · intro x
    rw [complete_childCount, ok.child_count]

end

/-! ## The start of a task -/

section
variable {sh : Shared ID} {it : T.Ptr}

/-- The members after `status[it->id].status = running`. -/
def Shared.start (sh : Shared ID) (it : T.Ptr) : Shared ID :=
  { sh with status := setStatus sh.status (entry T.tasks it).id .running }

theorem start_statusOf (sh : Shared ID) (it j : T.Ptr) :
    T.statusOf (sh.start it) j = if j = it then .running else T.statusOf sh j := by
  rw [Table.statusOf, Shared.start, setStatus_status]
  by_cases same : j = it
  · simp [same]
  · have other : (entry T.tasks j).id ≠ (entry T.tasks it).id := fun h => same (T.id_inj h)
    simp [other, same, Table.statusOf]

theorem start_openMembers (waiting : T.statusOf sh it = .waiting) (g : ID) :
    T.openMembers (sh.start it) g = T.openMembers sh g := by
  unfold Table.openMembers
  congr 1
  apply Finset.filter_congr
  intro j _
  rw [start_statusOf]
  by_cases same : j = it
  · subst same
    simp [waiting]
  · simp [same]

/-- Starting a waiting task keeps the members consistent. -/
theorem Shared.Consistent.start (ok : sh.Consistent T) (waiting : T.statusOf sh it = .waiting) :
    (sh.start it).Consistent T := by
  have elsewhere : ∀ x, x ≠ (entry T.tasks it).id →
      ((sh.start it).status x).status = (sh.status x).status := by
    intro x other
    simp [Shared.start, other]
  have of_group : ∀ g, T.GroupId g → ((sh.start it).status g).status = (sh.status g).status :=
    fun g group => elsewhere g (group.not_task it).symm
  refine
    { none_done := (elsewhere _ (T.id_ne_none it).symm).trans ok.none_done
      grpNone_done := (elsewhere _ (T.id_ne_grpNone it).symm).trans ok.grpNone_done
      begin_le := ok.begin_le, before_begin := ?_, at_begin := ?_, enabled := ?_
      grp_ref := ?_, grp_absent := ?_, grp_open := ?_, grp_done := ?_
      child_count := ?_ }
  · intro i below
    have finished := ok.before_begin i below
    rw [start_statusOf, if_neg, finished]
    rintro rfl
    simp [waiting] at finished
  · intro i here
    rw [start_statusOf]
    split
    · simp
    · exact ok.at_begin i here
  · intro i
    rw [start_statusOf]
    split
    · simp
    · exact ok.enabled i
  · intro g group
    rw [start_openMembers waiting, ← ok.grp_ref g group]
    simp [Shared.start]
  · intro g group absent
    rw [of_group g group, ok.grp_absent g group absent]
  · intro g group some
    rw [of_group g group, ok.grp_open g group (start_openMembers waiting g ▸ some)]
  · intro g group members finished
    rw [of_group g group, ok.grp_done g group members (start_openMembers waiting g ▸ finished)]
  · intro x
    simpa [Shared.start] using ok.child_count x

end

/-! ## One round of the loop -/

section
variable {sh : Shared ID}

/-- Everything before `begin` is done, so a scan from `begin` finds what a scan of the whole
table finds. -/
theorem Shared.Consistent.scan_whole (ok : sh.Consistent T) :
    scan T.tasks sh.status (List.finRange T.tasks.length) false =
      scan T.tasks sh.status (pointers T.tasks sh.begin) false := by
  have split : List.finRange T.tasks.length =
      (List.finRange T.tasks.length).take sh.begin ++ pointers T.tasks sh.begin :=
    (List.take_append_drop sh.begin _).symm
  rw [split]
  refine scan_skip T.tasks sh.status _ false fun it member => ?_
  obtain ⟨k, below, rfl⟩ := List.mem_take_iff_getElem.mp member
  have index : ((List.finRange T.tasks.length)[k]).val = k := by simp
  have finished := ok.before_begin (List.finRange T.tasks.length)[k] (by omega)
  rw [Table.statusOf] at finished
  rw [finished]
  simp

/-- A scan breaks at the first ready entry, or finds none and tells whether one is waiting. -/
theorem Shared.Consistent.scan_cases (ok : sh.Consistent T) :
    (∃ it towait,
      (List.finRange T.tasks.length).find? (fun it => Ready sh.status (entry T.tasks it)) =
        some it ∧
      scan T.tasks sh.status (pointers T.tasks sh.begin) false = (some it, towait)) ∨
    ((∀ i : T.Ptr, ¬ Ready sh.status (entry T.tasks i)) ∧
      scan T.tasks sh.status (pointers T.tasks sh.begin) false =
        (none, decide (∃ i, T.statusOf sh i = .waiting))) := by
  have first := scan_fst T.tasks sh.status (List.finRange T.tasks.length) false
  have flag := scan_snd T.tasks sh.status (List.finRange T.tasks.length) false
  rw [ok.scan_whole] at first flag
  cases result : scan T.tasks sh.status (pointers T.tasks sh.begin) false with
  | mk picked towait =>
    rw [result] at first flag
    cases picked with
    | some it => exact Or.inl ⟨it, towait, first.symm, rfl⟩
    | none =>
      have unready : ∀ i : T.Ptr, ¬ Ready sh.status (entry T.tasks i) := by
        simpa using List.find?_eq_none.mp first.symm
      refine Or.inr ⟨unready, ?_⟩
      obtain rfl : towait = _ := flag fun i _ => unready i
      simp only [Bool.false_or, Prod.mk.injEq, true_and]
      rw [Bool.eq_iff_iff, decide_eq_true_iff]
      simp [Table.statusOf]

/-- What a round of the loop can do: start a ready task, wait because an entry is waiting but
none is ready, or give up because no entry is waiting. -/
theorem Shared.Consistent.round_cases (ok : sh.Consistent T) (childCount : Nat) :
    (∃ it : T.Ptr, Ready sh.status (entry T.tasks it) ∧
      round T.tasks sh childCount = (sh.start it, .task it, notify childCount)) ∨
    ((∀ i : T.Ptr, ¬ Ready sh.status (entry T.tasks i)) ∧
      (∃ i : T.Ptr, T.statusOf sh i = .waiting) ∧
      round T.tasks sh childCount = (sh, .wait, .nobody)) ∨
    ((∀ i : T.Ptr, T.statusOf sh i ≠ .waiting) ∧
      round T.tasks sh childCount = (sh, .null, .all)) := by
  rcases ok.scan_cases with ⟨it, towait, found, result⟩ | ⟨unready, result⟩
  · have ready := List.find?_some found
    refine Or.inl ⟨it, of_decide_eq_true ready, ?_⟩
    rw [round, result]
    rfl
  · by_cases waits : ∃ i : T.Ptr, T.statusOf sh i = .waiting
    · refine Or.inr (Or.inl ⟨unready, waits, ?_⟩)
      rw [round, result, decide_eq_true waits]
    · refine Or.inr (Or.inr ⟨fun i waiting => waits ⟨i, waiting⟩, ?_⟩)
      rw [round, result, decide_eq_false waits]
      rfl

end

end

end DebianConf.Tasks
