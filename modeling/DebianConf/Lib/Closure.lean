import Mathlib.Data.Fintype.Card
import Mathlib.Data.Set.Finite.Basic
import Mathlib.Logic.Relation
import Mathlib.Order.Bounds.Basic
import Mathlib.Order.WellFounded
import Mathlib.Data.Fintype.EquivFin

/-!
# The least set closed under prerequisites

`dep a b` says that `a` needs `b`, `blocked a` that `a` can never be had. A set is closed
when it has every unblocked element whose prerequisites it has; `Attainable` is the least
closed set. Over a finite type the elements outside of it are those that lead to a blocked
element or to a cycle.
-/

namespace DebianConf.Lib

open Relation

variable {α : Type*} (dep : α → α → Prop) (blocked : α → Prop)

/-- `S` has every unblocked element all of whose prerequisites are in `S`. -/
def ClosedUnder (S : Set α) : Prop := ∀ a, ¬ blocked a → (∀ b, dep a b → b ∈ S) → a ∈ S

/-- The elements that can be had, prerequisites first. -/
inductive Attainable : α → Prop
  | intro (a : α) : ¬ blocked a → (∀ b, dep a b → Attainable b) → Attainable a

variable {dep blocked}

theorem attainable_isLeast :
    IsLeast {S | ClosedUnder dep blocked S} {a | Attainable dep blocked a} := by
  refine ⟨fun a free needs => .intro a free needs, ?_⟩
  intro S closed a attainable
  induction attainable with
  | intro a free _ ih => exact closed a free ih

/-- A closed set of attainable elements is the least closed set. -/
theorem isLeast_of_closed {S : Set α} (closed : ClosedUnder dep blocked S)
    (sound : ∀ a ∈ S, Attainable dep blocked a) :
    IsLeast {S | ClosedUnder dep blocked S} S :=
  ⟨closed, fun _ closed' a member => attainable_isLeast.2 closed' (sound a member)⟩

theorem Attainable.of_reach {a b : α} (attainable : Attainable dep blocked a)
    (reach : ReflTransGen dep a b) : Attainable dep blocked b := by
  induction reach with
  | refl => exact attainable
  | tail _ edge ih =>
    cases ih with
    | intro _ _ needs => exact needs _ edge

theorem Attainable.not_cycle {a : α} (attainable : Attainable dep blocked a) :
    ¬ TransGen dep a a := by
  induction attainable with
  | intro a _ _ ih =>
    intro cycle
    obtain ⟨b, edge, back⟩ := TransGen.head'_iff.mp cycle
    exact ih b edge (TransGen.tail' back edge)

/-- Over a finite type a relation without cycles is well-founded. -/
theorem wellFounded_of_acyclic [Finite α] (acyclic : ∀ a, ¬ TransGen dep a a) :
    WellFounded fun b a => dep a b := by
  have irrefl : Std.Irrefl fun b a => TransGen dep a b := ⟨acyclic⟩
  have trans : IsTrans α fun b a => TransGen dep a b := ⟨fun _ _ _ h h' => h'.trans h⟩
  exact Subrelation.wf (fun edge => TransGen.single edge)
    (Finite.wellFounded_of_trans_of_irrefl fun b a => TransGen dep a b)

/-- Without cycles and blocked elements everything is attainable. -/
theorem attainable_of_acyclic [Finite α] (acyclic : ∀ a, ¬ TransGen dep a a)
    (free : ∀ a, ¬ blocked a) (a : α) : Attainable dep blocked a := by
  induction a using (wellFounded_of_acyclic acyclic).induction with
  | _ a ih => exact .intro a (free a) ih

/-- Outside the least closed set are exactly the elements that lead to a blocked element or
to an element that needs itself. -/
theorem not_attainable_iff [Finite α] (a : α) :
    ¬ Attainable dep blocked a ↔
      ∃ b, ReflTransGen dep a b ∧ (blocked b ∨ TransGen dep b b) := by
  constructor
  · -- the elements reached from `a` form a finite acyclic system of their own
    intro unattainable
    by_contra nothing
    simp only [not_exists, not_and, not_or] at nothing
    let sub : {b // ReflTransGen dep a b} → {b // ReflTransGen dep a b} → Prop :=
      fun x y => dep x y
    have lifted : ∀ x y, TransGen sub x y → TransGen dep x.1 y.1 :=
      fun x y path => TransGen.lift Subtype.val (fun _ _ edge => edge) x y path
    have wf := @wellFounded_of_acyclic _ sub _
      fun x cycle => (nothing x.1 x.2).2 (lifted x x cycle)
    have all : ∀ x : {b // ReflTransGen dep a b}, Attainable dep blocked x.1 := by
      intro x
      induction x using wf.induction with
      | _ x ih =>
        exact .intro x.1 (nothing x.1 x.2).1 fun b edge => ih ⟨b, x.2.tail edge⟩ edge
    exact unattainable (all ⟨a, .refl⟩)
  · intro given attainable
    rcases given with ⟨b, reach, bad⟩
    have at_b := attainable.of_reach reach
    rcases bad with bad | cycle
    · cases at_b with
      | intro _ free _ => exact free bad
    · exact at_b.not_cycle cycle

end DebianConf.Lib
