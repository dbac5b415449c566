import DebianConf.Lib.Run

/-!
# What every maximal run comes to

`Inevitable next keep goal s` says that from `s` a state with `goal` is reached whatever
steps with labels in `keep` are taken, as long as steps go on being taken at all. A system
whose kept steps are well-founded comes to a state without kept steps, so what is inevitable
follows from a description of these states. The same measure shows that the kept steps can be
taken until none is left.
-/

namespace DebianConf.Lib

variable {σ ε : Type*} {next : σ → ε → Option σ} {init : σ}

/-- `s` has no step with a label in `keep`. -/
def Stuck (next : σ → ε → Option σ) (keep : ε → Prop) (s : σ) : Prop :=
  ∀ e s', keep e → next s e ≠ some s'

/-- Every maximal sequence of steps with labels in `keep` from `s` visits `goal`. -/
inductive Inevitable (next : σ → ε → Option σ) (keep : ε → Prop) (goal : σ → Prop) : σ → Prop
  | here {s : σ} : goal s → Inevitable next keep goal s
  | later {s : σ} : ¬ Stuck next keep s →
      (∀ e s', keep e → next s e = some s' → Inevitable next keep goal s') →
      Inevitable next keep goal s

theorem Reachable.step {s s' : σ} {e : ε} (reached : Reachable next init s)
    (fired : next s e = some s') : Reachable next init s' := by
  rcases reached with ⟨log, run⟩
  exact ⟨log ++ [e], run.snoc fired⟩

/-- When a measure of the state into a well-founded order drops along the kept steps, a goal is
inevitable if, wherever `P` holds and the goal does not, there is a kept step and every kept step
leads to `P` again. -/
theorem Reachable.inevitable_of_progress {β : Type*} {r : β → β → Prop} (wf : WellFounded r)
    (measure : σ → β) {keep : ε → Prop} {goal P : σ → Prop}
    (drops : ∀ {s e s'}, Reachable next init s → keep e → next s e = some s' →
      r (measure s') (measure s))
    (progress : ∀ {s}, Reachable next init s → P s → ¬ goal s → ¬ Stuck next keep s ∧
      ∀ e s', keep e → next s e = some s' → P s')
    {s : σ} (reached : Reachable next init s) (holds : P s) : Inevitable next keep goal s := by
  induction s using (wellFounded_of_measure wf measure keep drops).induction with
  | _ s ih =>
    by_cases done : goal s
    · exact .here done
    · have going := progress reached holds done
      refine .later going.1 fun e s' kept fired => ?_
      exact ih s' ⟨reached, e, kept, fired⟩ (reached.step fired) (going.2 e s' kept fired)

/-- In particular what holds of the reachable states without kept steps is inevitable. -/
theorem Reachable.inevitable {β : Type*} {r : β → β → Prop} (wf : WellFounded r)
    (measure : σ → β) {keep : ε → Prop} {goal : σ → Prop}
    (drops : ∀ {s e s'}, Reachable next init s → keep e → next s e = some s' →
      r (measure s') (measure s))
    (final : ∀ {s}, Reachable next init s → Stuck next keep s → goal s)
    {s : σ} (reached : Reachable next init s) : Inevitable next keep goal s := by
  apply reached.inevitable_of_progress (P := fun _ => True) wf measure drops _ trivial
  intro s reached _ unreached
  exact ⟨fun stuck => unreached (final reached stuck), fun _ _ _ _ => trivial⟩

/-- Under the same conditions the kept steps can be taken until none is left. -/
theorem Run.exhaust {β : Type*} {r : β → β → Prop} (wf : WellFounded r) (measure : σ → β)
    {keep : ε → Prop}
    (drops : ∀ {s e s'}, Reachable next init s → keep e → next s e = some s' →
      r (measure s') (measure s))
    {log : List ε} {s : σ} (run : Run next init log s) : ∃ more s', (∀ e ∈ more, keep e) ∧
      Run next init (log ++ more) s' ∧ Stuck next keep s' := by
  induction s using (wellFounded_of_measure wf measure keep drops).induction generalizing log with
  | _ s ih =>
    by_cases stuck : Stuck next keep s
    · exact ⟨[], s, by simp, by simpa using run, stuck⟩
    · simp only [Stuck, not_forall, not_not] at stuck
      rcases stuck with ⟨e, s', kept, fired⟩
      rcases ih s' ⟨⟨log, run⟩, e, kept, fired⟩ (run.snoc fired) with
        ⟨more, last, all, later, stuck⟩
      refine ⟨e :: more, last, ?_, by simpa using later, stuck⟩
      intro x member
      rcases List.mem_cons.mp member with rfl | member
      · exact kept
      · exact all x member

end DebianConf.Lib
