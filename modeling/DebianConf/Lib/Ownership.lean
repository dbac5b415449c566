import Mathlib.Data.List.Nodup
import Mathlib.Logic.Function.Basic

/-!
# Resources with one owner

Each owner holds at most one resource. What can happen to it is that it gets a new one, gives
its own to another or releases it, and each of these keeps that every resource has exactly one
owner.
-/

namespace DebianConf.Lib

open Function (update)

variable {ι α : Type*}

/-- The resources in `held` are different, and each of them has exactly one owner. -/
structure OneOwner (own : ι → Option α) (held : List α) : Prop where
  nodup : held.Nodup
  mem_iff : ∀ a, a ∈ held ↔ ∃ x, own x = some a
  unique : ∀ {x y a}, own x = some a → own y = some a → x = y

namespace OneOwner

variable {own : ι → Option α} {held : List α}

theorem nothing : OneOwner (fun _ : ι => none) ([] : List α) where
  nodup := List.nodup_nil
  mem_iff a := by simp
  unique owns _ := nomatch owns

theorem eq_nil (owned : OneOwner own held) (nobody : ∀ x, own x = none) : held = [] := by
  rw [List.eq_nil_iff_forall_not_mem]
  intro a member
  obtain ⟨x, owns⟩ := (owned.mem_iff a).mp member
  rw [nobody x] at owns
  cases owns

variable [DecidableEq ι]

/-- An owner of nothing gets a new resource. -/
theorem gain (owned : OneOwner own held) {x : ι} {a : α} (free : own x = none) (new : a ∉ held) :
    OneOwner (update own x (some a)) (a :: held) := by
  have before : ∀ {y b}, update own x (some a) y = some b → (y = x ∧ b = a) ∨ own y = some b := by
    intro y b owns
    by_cases gainer : y = x
    · rw [gainer, Function.update_self] at owns
      exact Or.inl ⟨gainer, (Option.some.inj owns).symm⟩
    · rw [Function.update_of_ne gainer] at owns
      exact Or.inr owns
  -- the new resource was nobody's
  have new_to : ∀ {y}, own y ≠ some a := fun owns => new ((owned.mem_iff a).mpr ⟨_, owns⟩)
  refine ⟨List.nodup_cons.mpr ⟨new, owned.nodup⟩, fun b => ?_, fun owns owns' => ?_⟩
  · rw [List.mem_cons, owned.mem_iff]
    constructor
    · rintro (rfl | ⟨y, owns⟩)
      · exact ⟨x, Function.update_self x _ own⟩
      · have other : y ≠ x := by
          rintro rfl
          rw [free] at owns
          cases owns
        exact ⟨y, by rw [Function.update_of_ne other, owns]⟩
    · rintro ⟨y, owns⟩
      exact (before owns).imp And.right fun owns => ⟨y, owns⟩
  · rcases before owns with ⟨gainer, same⟩ | earlier <;>
      rcases before owns' with ⟨gainer', same'⟩ | earlier'
    · exact gainer.trans gainer'.symm
    · rw [same] at earlier'
      exact absurd earlier' new_to
    · rw [same'] at earlier
      exact absurd earlier new_to
    · exact owned.unique earlier earlier'

/-- An owner releases what it holds. -/
theorem release [BEq α] [LawfulBEq α] (owned : OneOwner own held) {x : ι} {a : α}
    (owns : own x = some a) : OneOwner (update own x none) (held.erase a) := by
  have others : ∀ {y b}, update own x none y = some b → y ≠ x ∧ own y = some b := by
    intro y b owns'
    rcases eq_or_ne y x with rfl | other
    · rw [Function.update_self] at owns'
      cases owns'
    · rw [Function.update_of_ne other] at owns'
      exact ⟨other, owns'⟩
  refine ⟨owned.nodup.erase a, fun b => ?_, fun owns owns' => ?_⟩
  · rw [owned.nodup.mem_erase_iff, owned.mem_iff]
    constructor
    · rintro ⟨different, y, owns'⟩
      have other : y ≠ x := by
        rintro rfl
        exact different (Option.some.inj (owns'.symm.trans owns))
      exact ⟨y, by rw [Function.update_of_ne other, owns']⟩
    · rintro ⟨y, owns'⟩
      obtain ⟨other, owns'⟩ := others owns'
      refine ⟨?_, y, owns'⟩
      rintro rfl
      exact other (owned.unique owns' owns)
  · exact owned.unique (others owns).2 (others owns').2

/-- An owner of nothing takes what another holds. -/
theorem give (owned : OneOwner own held) {x y : ι} (free : own x = none) :
    OneOwner (update (update own x (own y)) y none) held := by
  rcases eq_or_ne x y with rfl | different
  · have same : update (update own x (own x)) x none = own := by
      rw [Function.update_idem, ← free, Function.update_eq_self]
    rwa [same]
  · -- who owns a resource now, and who owned it before
    have before : ∀ {z a}, update (update own x (own y)) y none z = some a →
        z ≠ y ∧ own (if z = x then y else z) = some a := by
      intro z a owns
      rcases eq_or_ne z y with rfl | other
      · rw [Function.update_self] at owns
        cases owns
      · rw [Function.update_of_ne other] at owns
        refine ⟨other, ?_⟩
        split
        · next taker =>
          rw [taker, Function.update_self] at owns
          exact owns
        · next bystander => rwa [Function.update_of_ne bystander] at owns
    refine ⟨owned.nodup, fun a => ?_, fun {z z' a} owns owns' => ?_⟩
    · rw [owned.mem_iff]
      constructor
      · rintro ⟨z, owns⟩
        rcases eq_or_ne z y with rfl | other
        · refine ⟨x, ?_⟩
          rw [Function.update_of_ne different, Function.update_self, owns]
        · refine ⟨z, ?_⟩
          have bystander : z ≠ x := by
            rintro rfl
            rw [free] at owns
            cases owns
          rw [Function.update_of_ne other, Function.update_of_ne bystander, owns]
      · rintro ⟨z, owns⟩
        exact ⟨_, (before owns).2⟩
    · obtain ⟨not_giver, owned_before⟩ := before owns
      obtain ⟨not_giver', owned_before'⟩ := before owns'
      have same := owned.unique owned_before owned_before'
      split at same <;> split at same
      · next taker taker' => exact taker.trans taker'.symm
      · exact absurd same.symm not_giver'
      · exact absurd same not_giver
      · exact same

end OneOwner

end DebianConf.Lib
