import Mathlib.Data.List.Basic

/-!
# Delimited fields

A field of a sequence is a token between leading blanks and a delimiter that is itself a
blank. Read from the front, a sequence is all blank, starts with a field, or ends in a token
without delimiter; the lemmas below say which, and what appending to the sequence changes.
-/

namespace DebianConf.Lib

variable {α : Type*} (blank : α → Prop)

def AllBlank (l : List α) : Prop := ∀ x ∈ l, blank x

/-- A token starts with a symbol that is not blank and does not contain the delimiter. -/
structure IsToken (d : α) (tok : List α) : Prop where
  head : ∃ x rest, tok = x :: rest ∧ ¬ blank x
  undelimited : d ∉ tok

/-- `l` is blanks, the token `tok`, the delimiter and `rest`. -/
def Field (d : α) (l tok rest : List α) : Prop :=
  ∃ gap, AllBlank blank gap ∧ l = gap ++ tok ++ d :: rest ∧ IsToken blank d tok

/-- `l` is blanks and the token `tok`, with no delimiter after it. -/
def Trailing (d : α) (l tok : List α) : Prop :=
  ∃ gap, AllBlank blank gap ∧ l = gap ++ tok ∧ IsToken blank d tok

theorem allBlank_nil : AllBlank blank [] := by
  intro x member
  cases member

variable {blank} {d : α} {l tok rest : List α}

theorem allBlank_cons {x : α} : AllBlank blank (x :: l) ↔ blank x ∧ AllBlank blank l :=
  List.forall_mem_cons

theorem Field.cons (field : Field blank d l tok rest) {x : α} (skipped : blank x) :
    Field blank d (x :: l) tok rest := by
  obtain ⟨gap, blanks, rfl, token⟩ := field
  exact ⟨x :: gap, allBlank_cons.mpr ⟨skipped, blanks⟩, by simp, token⟩

/-- A sequence is all blank, or blanks and a symbol that is not blank. -/
theorem gap_cases (blank : α → Prop) (l : List α) :
    AllBlank blank l ∨ ∃ gap x rest, AllBlank blank gap ∧ ¬ blank x ∧ l = gap ++ x :: rest := by
  induction l with
  | nil => exact Or.inl (allBlank_nil blank)
  | cons x l ih =>
    by_cases skipped : blank x
    · rcases ih with blanks | ⟨gap, y, rest, blanks, head, rfl⟩
      · exact Or.inl (allBlank_cons.mpr ⟨skipped, blanks⟩)
      · exact Or.inr ⟨x :: gap, y, rest, allBlank_cons.mpr ⟨skipped, blanks⟩, head, rfl⟩
    · exact Or.inr ⟨[], x, l, allBlank_nil blank, skipped, rfl⟩

/-- A sequence that starts with a symbol that is not blank starts with a field when it
contains the delimiter. -/
theorem field_of_head {x : α} (delim : blank d) (head : ¬ blank x)
    (split : x :: l = tok ++ d :: rest) (first : d ∉ tok) :
    Field blank d (x :: l) tok rest := by
  cases tok with
  | nil =>
    obtain ⟨rfl, -⟩ : x = d ∧ l = rest := by simpa using split
    exact absurd delim head
  | cons y tok =>
    obtain ⟨rfl, -⟩ : x = y ∧ l = tok ++ d :: rest := by simpa using split
    exact ⟨[], allBlank_nil blank, by simpa using split, ⟨x, tok, rfl, head⟩, first⟩

/-- `l` is the blanks `gap`, the token `tok`, the delimiter and `rest`. The delimiter need not be
a blank; the token is empty when it is the first symbol that is none. -/
structure Cut (blank : α → Prop) (d : α) (l gap tok rest : List α) : Prop where
  blanks : AllBlank blank gap
  split : l = gap ++ (tok ++ d :: rest)
  head : ∀ x ∈ (tok ++ [d]).head?, ¬ blank x
  first : d ∉ tok

theorem Field.cut (field : Field blank d l tok rest) : ∃ gap, Cut blank d l gap tok rest := by
  obtain ⟨gap, blanks, rfl, ⟨x, tail, rfl, head⟩, first⟩ := field
  exact ⟨gap, blanks, by simp, by simpa using head, first⟩

/-- A token before a delimiter that is a blank is not empty. -/
theorem Cut.field {gap : List α} (cut : Cut blank d l gap tok rest) (delim : blank d) :
    Field blank d l tok rest := by
  refine ⟨gap, cut.blanks, by rw [cut.split, List.append_assoc], ?_, cut.first⟩
  cases tok with
  | nil => exact absurd delim (cut.head d (by simp))
  | cons x tail => exact ⟨x, tail, rfl, cut.head x (by simp)⟩

/-- A sequence is all blank, has a first delimiter after its leading blanks, or ends in a token
without delimiter. -/
theorem cut_cases (blank : α → Prop) (d : α) (l : List α) :
    AllBlank blank l ∨ (∃ gap tok rest, Cut blank d l gap tok rest) ∨
      ∃ tok, Trailing blank d l tok := by
  rcases gap_cases blank l with blanks | ⟨gap, x, more, blanks, head, rfl⟩
  · exact Or.inl blanks
  · by_cases delimited : d ∈ x :: more
    · obtain ⟨tok, rest, split, first⟩ := List.eq_append_cons_of_mem delimited
      refine Or.inr (Or.inl ⟨gap, tok, rest, blanks, by rw [split], fun y here => ?_, first⟩)
      have same : (tok ++ [d]).head? = some x := by
        have heads := congrArg List.head? split
        cases tok with
        | nil => simpa using heads.symm
        | cons z tok => simpa using heads.symm
      rw [same] at here
      cases here
      exact head
    · exact Or.inr (Or.inr ⟨x :: more, gap, blanks, rfl, ⟨x, more, rfl, head⟩, delimited⟩)

/-- A sequence is all blank, starts with a field, or is a token without delimiter. -/
theorem field_cases (delim : blank d) (l : List α) :
    AllBlank blank l ∨ (∃ tok rest, Field blank d l tok rest) ∨
      ∃ tok, Trailing blank d l tok := by
  rcases cut_cases blank d l with blanks | ⟨gap, tok, rest, cut⟩ | trailing
  · exact Or.inl blanks
  · exact Or.inr (Or.inl ⟨tok, rest, cut.field delim⟩)
  · exact Or.inr (Or.inr trailing)

theorem IsToken.field (token : IsToken blank d tok) {gap : List α} (blanks : AllBlank blank gap)
    (rest : List α) : Field blank d (gap ++ (tok ++ d :: rest)) tok rest :=
  ⟨gap, blanks, (List.append_assoc _ _ _).symm, token⟩

theorem Field.rest_length (field : Field blank d l tok rest) : rest.length < l.length := by
  obtain ⟨gap, -, rfl, -⟩ := field
  simp
  omega

theorem Field.not_allBlank (field : Field blank d l tok rest) : ¬ AllBlank blank l := by
  obtain ⟨gap, -, rfl, ⟨x, tail, rfl, head⟩, -⟩ := field
  exact fun blanks => head (blanks x (by simp))

theorem Trailing.not_allBlank (trailing : Trailing blank d l tok) : ¬ AllBlank blank l := by
  obtain ⟨gap, -, rfl, ⟨x, tail, rfl, head⟩, -⟩ := trailing
  exact fun blanks => head (blanks x (by simp))

/-! ## Appending -/

theorem AllBlank.append (blanks : AllBlank blank l) {more : List α}
    (blanks' : AllBlank blank more) : AllBlank blank (l ++ more) := by
  intro x member
  rcases List.mem_append.mp member with left | right
  · exact blanks x left
  · exact blanks' x right

theorem Field.append (field : Field blank d l tok rest) (more : List α) :
    Field blank d (l ++ more) tok (rest ++ more) := by
  obtain ⟨gap, blanks, rfl, token⟩ := field
  exact ⟨gap, blanks, by simp, token⟩

/-- A delimiter turns the last token into a field. -/
theorem Trailing.close (trailing : Trailing blank d l tok) (rest : List α) :
    Field blank d (l ++ d :: rest) tok rest := by
  obtain ⟨gap, blanks, rfl, token⟩ := trailing
  exact ⟨gap, blanks, rfl, token⟩

/-- Without a delimiter the last token only grows. -/
theorem Trailing.extend (trailing : Trailing blank d l tok) {more : List α}
    (undelimited : d ∉ more) : Trailing blank d (l ++ more) (tok ++ more) := by
  obtain ⟨gap, blanks, rfl, ⟨x, tail, rfl, head⟩, first⟩ := trailing
  refine ⟨gap, blanks, by simp, ⟨x, tail ++ more, rfl, head⟩, ?_⟩
  rw [List.mem_append, not_or]
  exact ⟨first, undelimited⟩

/-! ## Fields and subsequences -/

/-- Past the first `d`, what follows a `d` in a subsequence is found. -/
theorem sublist_of_first {front : List α} {s : List α} (first : d ∉ front)
    (sub : (d :: s).Sublist (front ++ d :: rest)) : s.Sublist rest := by
  induction front with
  | nil => exact List.cons_sublist_cons.mp sub
  | cons x front ih =>
    rw [List.mem_cons, not_or] at first
    rcases List.sublist_cons_iff.mp sub with inside | ⟨_, same, _⟩
    · exact ih first.2 inside
    · exact absurd (List.cons.inj same).1 first.1

/-- A symbol that is not blank with a delimiter somewhere after it makes a field, and the
field ends no later than that delimiter. -/
theorem field_of_sublist (delim : blank d) {x : α} {s : List α} (head : ¬ blank x)
    (sub : (x :: d :: s).Sublist l) : ∃ tok rest, Field blank d l tok rest ∧ s.Sublist rest := by
  induction l with
  | nil => simp at sub
  | cons y l ih =>
    by_cases skipped : blank y
    · rcases List.sublist_cons_iff.mp sub with inside | ⟨_, same, _⟩
      · obtain ⟨tok, rest, field, found⟩ := ih inside
        exact ⟨tok, rest, field.cons skipped, found⟩
      · exact absurd ((List.cons.inj same).1 ▸ skipped) head
    · have later : (d :: s).Sublist (y :: l) := (List.sublist_cons_self x _).trans sub
      obtain ⟨tok, rest, split, first⟩ :=
        List.eq_append_cons_of_mem (later.subset List.mem_cons_self)
      exact ⟨tok, rest, field_of_head delim skipped split first,
        sublist_of_first first (split ▸ later)⟩

theorem Field.sublist (field : Field blank d l tok rest) {s : List α} (sub : s.Sublist rest) :
    ∃ x, ¬ blank x ∧ (x :: d :: s).Sublist l := by
  obtain ⟨gap, -, rfl, ⟨x, tail, rfl, head⟩, -⟩ := field
  refine ⟨x, head, ?_⟩
  rw [List.append_assoc]
  refine List.Sublist.trans ?_ (List.sublist_append_right gap _)
  exact (((sub.cons_cons d).trans (List.sublist_append_right tail _)).cons_cons x)

/-- A sequence that is not all blank has a symbol that is not blank. -/
theorem not_allBlank_iff : ¬ AllBlank blank l ↔ ∃ x, ¬ blank x ∧ [x].Sublist l := by
  simp only [AllBlank, List.singleton_sublist]
  push Not
  exact ⟨fun ⟨x, member, head⟩ => ⟨x, head, member⟩, fun ⟨x, head, member⟩ => ⟨x, member, head⟩⟩

/-! ## One way to read a sequence -/

/-- The blanks before a symbol that is not blank are all those at the front. -/
theorem gap_unique {gap gap' tok tok' : List α} (blanks : AllBlank blank gap)
    (blanks' : AllBlank blank gap') (head : ∃ x more, tok = x :: more ∧ ¬ blank x)
    (head' : ∃ x more, tok' = x :: more ∧ ¬ blank x) (same : gap ++ tok = gap' ++ tok') :
    tok = tok' := by
  induction gap generalizing gap' with
  | nil =>
    cases gap' with
    | nil => exact same
    | cons y gap' =>
      obtain ⟨x, more, rfl, solid⟩ := head
      obtain rfl : x = y := (List.cons.inj same).1
      exact absurd (allBlank_cons.mp blanks').1 solid
  | cons x gap ih =>
    rw [allBlank_cons] at blanks
    cases gap' with
    | nil =>
      obtain ⟨y, more, rfl, solid⟩ := head'
      obtain rfl : x = y := (List.cons.inj same).1
      exact absurd blanks.1 solid
    | cons y gap' => exact ih blanks.2 (allBlank_cons.mp blanks').2 (List.cons.inj same).2

theorem IsToken.head_append (token : IsToken blank d tok) (rest : List α) :
    ∃ x more, tok ++ rest = x :: more ∧ ¬ blank x := by
  obtain ⟨x, more, rfl, solid⟩ := token.head
  exact ⟨x, more ++ rest, rfl, solid⟩

/-- What follows the first delimiter is the same however the delimiter was found. -/
theorem after_first {front front' rest' : List α} (first : d ∉ front) (first' : d ∉ front')
    (same : front ++ d :: rest = front' ++ d :: rest') : rest = rest' := by
  apply List.Sublist.antisymm
  · exact sublist_of_first first' (same ▸ List.sublist_append_right front (d :: rest))
  · exact sublist_of_first first (same ▸ List.sublist_append_right front' (d :: rest'))

theorem Field.unique {tok' rest' : List α} (field : Field blank d l tok rest)
    (field' : Field blank d l tok' rest') : rest = rest' := by
  obtain ⟨gap, blanks, split, token⟩ := field
  obtain ⟨gap', blanks', split', token'⟩ := field'
  rw [List.append_assoc] at split split'
  have same := gap_unique blanks blanks' (token.head_append _) (token'.head_append _)
    (split.symm.trans split')
  exact after_first token.undelimited token'.undelimited same

/-- A token without delimiter is no field. -/
theorem Trailing.not_field {tok' : List α} (trailing : Trailing blank d l tok) :
    ¬ Field blank d l tok' rest := by
  rintro ⟨gap', blanks', split', token'⟩
  obtain ⟨gap, blanks, split, token⟩ := trailing
  rw [List.append_assoc] at split'
  have same := gap_unique blanks blanks' token.head (token'.head_append _)
    (split.symm.trans split')
  apply token.undelimited
  rw [same]
  simp

end DebianConf.Lib
