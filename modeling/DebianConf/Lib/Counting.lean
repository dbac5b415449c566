import Mathlib.Algebra.BigOperators.Fin
import Mathlib.Algebra.Order.BigOperators.Group.Finset

/-!
# Counting under a change at one place

How a sum, a number of elements or a number of list positions changes when one element of
the domain, or one element of the list, changes. All are stated additively, so that `omega`
can use them.
-/

namespace DebianConf.Lib

section Finset
variable {ι : Type*} [Fintype ι] [DecidableEq ι]

theorem sum_change {f g : ι → ℕ} (i : ι) (same : ∀ j, j ≠ i → f j = g j) :
    ∑ j, f j + g i = ∑ j, g j + f i := by
  have rest : ∑ j ∈ Finset.univ.erase i, f j = ∑ j ∈ Finset.univ.erase i, g j :=
    Finset.sum_congr rfl fun j member => same j (Finset.ne_of_mem_erase member)
  have split_f := Finset.sum_erase_add Finset.univ f (Finset.mem_univ i)
  have split_g := Finset.sum_erase_add Finset.univ g (Finset.mem_univ i)
  omega

theorem card_change {p q : ι → Prop} [DecidablePred p] [DecidablePred q] (i : ι)
    (same : ∀ j, j ≠ i → (p j ↔ q j)) :
    (Finset.univ.filter p).card + (if q i then 1 else 0) =
      (Finset.univ.filter q).card + (if p i then 1 else 0) := by
  rw [Finset.card_filter, Finset.card_filter]
  apply @sum_change _ _ _ (fun j => if p j then 1 else 0) (fun j => if q j then 1 else 0) i
  intro j other
  simp [same j other]

end Finset

theorem card_filter_get {α : Type*} (l : List α) (p : α → Prop) [DecidablePred p] :
    (Finset.univ.filter fun i : Fin l.length => p l[i]).card = l.countP p := by
  rw [Finset.card_filter]
  induction l with
  | nil => rfl
  | cons x l ih =>
    have head : (∑ i : Fin (x :: l).length, if p (x :: l)[i] then 1 else 0) =
        (if p x then 1 else 0) + ∑ i : Fin l.length, if p l[i] then 1 else 0 :=
      @Fin.sum_univ_succ ℕ _ l.length fun i => if p (x :: l)[i] then 1 else 0
    rw [head, ih, List.countP_cons, Nat.add_comm]
    simp

theorem countP_set {α : Type*} {l : List α} {i : ℕ} {x : α} (p : α → Bool)
    (at_i : l[i]? = some x) (y : α) :
    (l.set i y).countP p + (if p x then 1 else 0) = l.countP p + (if p y then 1 else 0) := by
  obtain ⟨inside, rfl⟩ := List.getElem?_eq_some_iff.mp at_i
  have old := List.countP_set (p := p) (l := l) (a := y) inside
  have positive : p l[i] = true → 0 < l.countP p := fun h =>
    List.countP_pos_iff.mpr ⟨_, List.getElem_mem inside, h⟩
  rw [old]
  by_cases before : p l[i] = true
  · have := positive before
    simp only [before, if_true]
    omega
  · simp [before]

/-- When each element of a list is counted under exactly one index, the counts add up to the
length. -/
theorem sum_countP_of_unique {ι α : Type*} [Fintype ι] [DecidableEq ι] (p : ι → α → Bool)
    (l : List α) (unique : ∀ x ∈ l, ∃ i, p i x = true ∧ ∀ j, p j x = true → j = i) :
    ∑ i, l.countP (p i) = l.length := by
  induction l with
  | nil => simp
  | cons x l ih =>
    rcases unique x List.mem_cons_self with ⟨i, here, only⟩
    have one : (∑ j, if p j x = true then 1 else 0) = 1 := by
      rw [Finset.sum_eq_single i]
      · rw [if_pos here]
      · exact fun j _ other => if_neg fun counted => other (only j counted)
      · exact fun absent => absurd (Finset.mem_univ i) absent
    simp only [List.countP_cons, Finset.sum_add_distrib, one, List.length_cons]
    rw [ih fun y member => unique y (List.mem_cons_of_mem x member)]

end DebianConf.Lib
