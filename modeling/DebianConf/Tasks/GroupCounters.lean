import DebianConf.Tasks.BootTable
import DebianConf.Tasks.History

/-!
# Group counters

The constructor counts the members of a group, the threads count them down in whatever order
they finish them. In every reachable state the counter is the number of members that are not
done, the status of the group follows from theirs, and the group becomes done in one call of
`peekTask`: the one that comes with its last member.
-/

namespace DebianConf.Tasks

open TaskId DebianConf.Lib

section
variable {ID : Type} [DecidableEq ID] [TaskId ID] {T : Table ID}

omit [DecidableEq ID] in
/-- All other members of the group of `it` are done. -/
def Table.LastMember (T : Table ID) (sh : Shared ID) (it : T.Ptr) : Prop :=
  ∀ j : T.Ptr, (entry T.tasks j).grpId = (entry T.tasks it).grpId → j ≠ it →
    T.statusOf sh j = .done

instance (sh : Shared ID) (it : T.Ptr) : Decidable (T.LastMember sh it) :=
  inferInstanceAs (Decidable (∀ _ : T.Ptr, _))

omit [DecidableEq ID] in
/-- The label is a call of `peekTask` that comes with the last member of `g`. -/
def State.FinishesLast (s : State T.tasks) (e : Event T.tasks.length) (g : ID) : Prop :=
  ∃ it, s.completed e = some it ∧ (entry T.tasks it).grpId = g ∧ T.LastMember s.shared it

instance (s : State T.tasks) (e : Event T.tasks.length) (g : ID) :
    Decidable (s.FinishesLast e g) :=
  inferInstanceAs (Decidable (∃ _ : T.Ptr, _))

omit [DecidableEq ID] in
/-- The group `g` is done after the step and was not before. -/
def BecomesDone (g : ID) (s s' : State T.tasks) : Prop :=
  (s.shared.status g).status ≠ .done ∧ (s'.shared.status g).status = .done

instance (g : ID) (s s' : State T.tasks) : Decidable (BecomesDone g s s') :=
  inferInstanceAs (Decidable (_ ∧ _))

/-! ## The status of a group -/

section
variable {sh : Shared ID} (ok : sh.Consistent T) {g : ID} (group : T.GroupId g)
include ok group

theorem Shared.Consistent.group_done_iff : (sh.status g).status = .done ↔
    (∃ i, (entry T.tasks i).grpId = g) ∧
      ∀ i, (entry T.tasks i).grpId = g → T.statusOf sh i = .done := by
  rw [ok.status_done_iff]
  constructor
  · rintro (same | same | ⟨i, _, same⟩ | members)
    · exact absurd same group.ne_none
    · exact absurd same group.ne_grpNone
    · exact absurd same (group.not_task i)
    · exact members
  · intro members
    exact Or.inr (Or.inr (Or.inr members))

theorem Shared.Consistent.group_waiting_iff : (sh.status g).status = .waiting ↔
    ∃ i, (entry T.tasks i).grpId = g ∧ T.statusOf sh i ≠ .done := by
  constructor
  · intro waiting
    by_contra none
    have finished : ∀ i, (entry T.tasks i).grpId = g → T.statusOf sh i = .done := by
      intro i member
      by_contra unfinished
      exact none ⟨i, member, unfinished⟩
    by_cases members : ∃ i, (entry T.tasks i).grpId = g
    · rw [(ok.group_done_iff group).mpr ⟨members, finished⟩] at waiting
      cases waiting
    · rw [ok.grp_absent g group fun i member => members ⟨i, member⟩] at waiting
      cases waiting
  · intro given
    rcases given with ⟨i, member, unfinished⟩
    apply ok.grp_open g group
    intro none
    exact unfinished (openMembers_eq_zero.mp none i member)

theorem Shared.Consistent.group_disable_iff : (sh.status g).status = .disable ↔
    ∀ i, (entry T.tasks i).grpId ≠ g := by
  constructor
  · intro disabled i member
    by_cases unfinished : ∃ j, (entry T.tasks j).grpId = g ∧ T.statusOf sh j ≠ .done
    · rw [(ok.group_waiting_iff group).mpr unfinished] at disabled
      cases disabled
    · have finished : ∀ j, (entry T.tasks j).grpId = g → T.statusOf sh j = .done := by
        intro j member
        by_contra running
        exact unfinished ⟨j, member, running⟩
      rw [(ok.group_done_iff group).mpr ⟨⟨i, member⟩, finished⟩] at disabled
      cases disabled
  · exact ok.grp_absent g group

end

/-! ## The last member -/

section
variable {sh : Shared ID} {it : T.Ptr}

theorem lastMember_iff (unfinished : T.statusOf sh it ≠ .done) :
    T.LastMember sh it ↔ T.openMembers sh (entry T.tasks it).grpId = 1 := by
  have count := complete_openMembers unfinished (entry T.tasks it).grpId
  rw [if_pos rfl] at count
  have others : T.openMembers (complete T.tasks sh it).1 (entry T.tasks it).grpId = 0 ↔
      T.LastMember sh it := by
    rw [openMembers_eq_zero]
    apply forall_congr'
    intro j
    rw [complete_statusOf]
    by_cases same : j = it <;> simp [same]
  rw [← others]
  omega

/-- The counter of a group drops to zero when its last member is finished. -/
theorem Shared.Consistent.finishesGroup_iff_last (ok : sh.Consistent T)
    (noGroup : T.NoneNotGroup) (unfinished : T.statusOf sh it ≠ .done) :
    FinishesGroup T.tasks sh it ↔
      (entry T.tasks it).grpId ≠ grpNoneId ∧ T.LastMember sh it := by
  apply and_congr_right
  intro grouped
  rw [ok.grp_ref _ (noGroup.groupId grouped), lastMember_iff unfinished]

end

/-! ## The step that finishes a group -/

section
variable {s s' : State T.tasks} {e : Event T.tasks.length} {g : ID}

/-- A call that comes with the last member of a group finds the group not done. -/
theorem Inv.open_of_last (inv : Inv s) (group : T.GroupId g) (last : s.FinishesLast e g) :
    (s.shared.status g).status ≠ .done := by
  obtain ⟨it, completes, rfl, -⟩ := last
  rw [Ne, inv.shared.group_done_iff group]
  intro given
  rcases given with ⟨-, finished⟩
  have running := inv.completed_running completes
  rw [finished it rfl] at running
  cases running

/-- A group is done after a step when it was before or the step finishes its last member. -/
theorem Inv.group_done_step (inv : Inv s) (step : Step s e s') (group : T.GroupId g) :
    (s'.shared.status g).status = .done ↔
      (s.shared.status g).status = .done ∨ s.FinishesLast e g := by
  have unstarted : (s'.shared.status g).status = ((s.completion e).status g).status := by
    rcases step.shared_cases with same | ⟨it, _, same⟩
    · rw [same]
    · rw [same, Shared.start, setStatus_status, if_neg (group.not_task it).symm]
  rw [unstarted]
  unfold State.completion
  cases completes : s.completed e with
  | none => simp [State.FinishesLast, completes]
  | some it =>
    have unfinished : T.statusOf s.shared it ≠ .done := by
      simp [inv.completed_running completes]
    have last : (FinishesGroup T.tasks s.shared it ∧ g = (entry T.tasks it).grpId) ↔
        s.FinishesLast e g := by
      rw [inv.shared.finishesGroup_iff group]
      constructor
      · intro given
        rcases given with ⟨rfl, one⟩
        exact ⟨it, completes, rfl, (lastMember_iff unfinished).mpr one⟩
      · intro given
        rcases given with ⟨it', completes', rfl, others⟩
        rw [completes] at completes'
        obtain rfl := Option.some.inj completes'
        exact ⟨rfl, (lastMember_iff unfinished).mp others⟩
    simp only [complete_status, (group.not_task it).symm, false_or, last]
    by_cases finishes : s.FinishesLast e g <;> simp [finishes]

theorem Inv.becomesDone_iff (inv : Inv s) (step : Step s e s') (group : T.GroupId g) :
    BecomesDone g s s' ↔ s.FinishesLast e g := by
  rw [BecomesDone, inv.group_done_step step group]
  constructor
  · intro given
    exact given.2.resolve_left given.1
  · intro last
    exact ⟨inv.open_of_last group last, Or.inr last⟩

/-- The steps recognised by `p` are those that finish the last member of `g`, so a run has
one of them if `g` is done and none otherwise. -/
theorem Run.occurrences_of_last {n : Nat} {log : List (Event T.tasks.length)}
    (run : T.Run n log s) (group : T.GroupId g)
    (p : State T.tasks → Event T.tasks.length → State T.tasks → Bool)
    (same : ∀ {s e s'}, Inv s → Step s e s' → (p s e s' = true ↔ s.FinishesLast e g)) :
    occurrences next p (State.init T.tasks n) log =
      if (s.shared.status g).status = .done then 1 else 0 := by
  apply run.occurrences_eq p fun s : State T.tasks =>
    if (s.shared.status g).status = .done then 1 else 0
  · have open_first : ((construct T.tasks).status g).status ≠ .done := by
      rw [Ne, construct_consistent.group_done_iff group]
      intro given
      rcases given with ⟨⟨i, member⟩, finished⟩
      have waiting := finished i member
      rw [construct_statusOf] at waiting
      cases waiting
    exact if_neg open_first
  · intro s e s' reached fired
    have inv := Reachable.inv reached
    have step := inv.step fired
    simp only [inv.group_done_step step group, same inv step]
    by_cases last : s.FinishesLast e g
    · simp [last, inv.open_of_last group last]
    · simp [last]

end

/-! ## Exactness -/

variable {n : Nat} {log : List (Event T.tasks.length)} {s : State T.tasks}

/-- Group counters are exact: the counter of a group is the number of its members that are
not done, and its status follows from theirs. The group becomes done in the call that comes
with its last member and in no other, so once in a run and not before. No call counts a group
down past zero, and a call adds the child count of the group it finishes, if it finishes one. -/
theorem group_counters (noGroup : T.NoneNotGroup) (run : T.Run n log s) :
    (∀ g, T.GroupId g →
      (s.shared.status g).grpRef = T.openMembers s.shared g ∧
      ((s.shared.status g).status = .done ↔
        (∃ i, (entry T.tasks i).grpId = g) ∧
          ∀ i, (entry T.tasks i).grpId = g → T.statusOf s.shared i = .done) ∧
      ((s.shared.status g).status = .waiting ↔
        ∃ i, (entry T.tasks i).grpId = g ∧ T.statusOf s.shared i ≠ .done) ∧
      ((s.shared.status g).status = .disable ↔ ∀ i, (entry T.tasks i).grpId ≠ g) ∧
      (∀ e s', next s e = some s' → (BecomesDone g s s' ↔ s.FinishesLast e g)) ∧
      occurrences next (fun s _ s' => BecomesDone g s s') (State.init T.tasks n) log =
        (if (s.shared.status g).status = .done then 1 else 0) ∧
      occurrences next (fun s e _ => s.FinishesLast e g) (State.init T.tasks n) log =
        if (s.shared.status g).status = .done then 1 else 0) ∧
    ∀ e it, s.completed e = some it →
      ((entry T.tasks it).grpId ≠ grpNoneId →
        ((complete T.tasks s.shared it).1.status (entry T.tasks it).grpId).grpRef + 1 =
          (s.shared.status (entry T.tasks it).grpId).grpRef) ∧
      (complete T.tasks s.shared it).2 = (s.shared.status (entry T.tasks it).id).childCount +
        if (entry T.tasks it).grpId ≠ grpNoneId ∧ T.LastMember s.shared it then
          (s.shared.status (entry T.tasks it).grpId).childCount else 0 := by
  have inv := Reachable.inv ⟨log, run⟩
  constructor
  · intro g group
    refine ⟨inv.shared.grp_ref g group, inv.shared.group_done_iff group,
      inv.shared.group_waiting_iff group, inv.shared.group_disable_iff group, ?_, ?_, ?_⟩
    · intro e s' fired
      exact inv.becomesDone_iff (inv.step fired) group
    · apply Run.occurrences_of_last run group
      intro s e s' inv step
      rw [decide_eq_true_iff, inv.becomesDone_iff step group]
    · apply Run.occurrences_of_last run group
      intro s e s' _ _
      exact decide_eq_true_iff
  · intro e it completes
    have unfinished : T.statusOf s.shared it ≠ .done := by
      simp [inv.completed_running completes]
    refine ⟨fun grouped => ?_, ?_⟩
    · have counter := inv.shared.grp_ref _ (noGroup.groupId grouped)
      have one := complete_openMembers unfinished (entry T.tasks it).grpId
      rw [if_pos rfl] at one
      rw [complete_grpRef, if_pos ⟨grouped, rfl⟩, if_neg (by omega)]
      omega
    · simp only [complete_snd, inv.shared.finishesGroup_iff_last noGroup unfinished]

end

/-- In the boot program with five threads the group of all file systems becomes done once. -/
theorem group_counters_boot : ∃ s, bootTable.Run 5 bootPoolLog s ∧
    (s.shared.status BootId.grpAllFs).grpRef = 0 ∧
    occurrences next (fun s _ s' => BecomesDone BootId.grpAllFs s s')
      (State.init bootTable.tasks 5) bootPoolLog = 1 := by
  obtain ⟨s, run, counted, finished⟩ := run_of_replay next (State.init bootTable.tasks 5)
    bootPoolLog (fun s => (s.shared.status BootId.grpAllFs).grpRef = 0 ∧
      (s.shared.status BootId.grpAllFs).status = .done) (by decide +kernel)
  have group : bootTable.GroupId BootId.grpAllFs := ⟨by decide, by decide, by decide⟩
  have facts := (group_counters bootTable_noneNotGroup run).1 _ group
  rw [finished] at facts
  exact ⟨s, run, counted, facts.2.2.2.2.2.1⟩

end DebianConf.Tasks
