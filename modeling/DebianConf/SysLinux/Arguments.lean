import DebianConf.Lib.Fields
import DebianConf.SysLinux.Split

/-!
# What `split` makes of a text

`Splits` says it of the text alone: which arguments there are, where they start, and what the
text becomes. Every text splits, `split` computes it, and whatever holds of any text follows from
`Splits` by induction.
-/

namespace DebianConf.SysLinux

open DebianConf.Lib DebianConf.Preload

/-- An argument, where it starts, and whether it stands between quotes. -/
structure Argument where
  start : Nat
  text : List UInt8
  quoted : Bool
  deriving DecidableEq, Repr

/-- The byte an argument ends at. -/
def Argument.delimiter (arg : Argument) : UInt8 := if arg.quoted then 39 else 32

/-- The position after the last byte of an argument. -/
def Argument.stop (arg : Argument) : Nat := arg.start + arg.text.length

/-- Blanks for `split`. -/
abbrev Space : UInt8 → Prop := fun b => b = 32

/-- A word that is not between quotes starts with neither a blank nor a quote and has no
blank. -/
structure Bare (text : List UInt8) : Prop where
  head : ∃ b rest, text = b :: rest ∧ b ≠ 39
  no_blank : (32 : UInt8) ∉ text

instance (text : List UInt8) : Decidable (Bare text) :=
  match text with
  | [] => isFalse fun ⟨⟨_, _, shape, _⟩, _⟩ => by cases shape
  | b :: rest =>
    decidable_of_iff (b ≠ 39 ∧ (32 : UInt8) ∉ b :: rest)
      ⟨fun ⟨unquoted, no_blank⟩ => ⟨⟨b, rest, rfl, unquoted⟩, no_blank⟩,
        fun ⟨⟨_, _, shape, unquoted⟩, no_blank⟩ => by cases shape; exact ⟨unquoted, no_blank⟩⟩

/-- The text `front`, which starts at `start`, is blanks and the argument `arg`, with its opening
quote when it has one. -/
inductive Opens (start : Nat) : List UInt8 → Argument → Prop
  | bare {gap tok : List UInt8} : AllBlank Space gap → Bare tok →
      Opens start (gap ++ tok) ⟨start + gap.length, tok, false⟩
  | quoted {gap tok : List UInt8} : AllBlank Space gap → (39 : UInt8) ∉ tok →
      Opens start (gap ++ 39 :: tok) ⟨start + gap.length + 1, tok, true⟩

/-- `text`, which starts at `start`, splits into `args` and becomes `final`. -/
inductive Splits : Nat → List UInt8 → List Argument → List UInt8 → Prop
  | blanks {start : Nat} {gap : List UInt8} : AllBlank Space gap → Splits start gap [] gap
  | last {start : Nat} {front : List UInt8} {arg : Argument} :
      Opens start front arg → Splits start front [arg] front
  | next {start : Nat} {front rest final : List UInt8} {arg : Argument} {args : List Argument} :
      Opens start front arg → Splits (start + front.length + 1) rest args final →
        Splits start (front ++ arg.delimiter :: rest) (arg :: args) (front ++ 0 :: final)

theorem Opens.ne_nil {start : Nat} {front : List UInt8} {arg : Argument}
    (opens : Opens start front arg) : front ≠ [] := by
  cases opens with
  | bare _ word =>
    obtain ⟨b, rest, rfl, -⟩ := word.head
    simp
  | quoted _ _ => simp

section
variable {start : Nat} {front : List UInt8} {arg : Argument}

/-- An argument stands at the end of the text that opens it, after blanks and a quote. -/
theorem Opens.lead (opens : Opens start front arg) :
    ∃ lead, front = lead ++ arg.text ∧ arg.start = start + lead.length ∧
      ∀ b ∈ lead, b = 32 ∨ b = 39 := by
  cases opens with
  | @bare gap tok blanks word => exact ⟨gap, rfl, rfl, fun b member => Or.inl (blanks b member)⟩
  | @quoted gap tok blanks undelimited =>
    refine ⟨gap ++ [39], by simp, by simp [Nat.add_assoc], fun b member => ?_⟩
    rcases List.mem_append.mp member with blank | quote
    · exact Or.inl (blanks b blank)
    · exact Or.inr (List.mem_singleton.mp quote)

theorem Opens.undelimited (opens : Opens start front arg) : arg.delimiter ∉ arg.text := by
  cases opens with
  | bare _ word => exact word.no_blank
  | quoted _ undelimited => exact undelimited

theorem Opens.stop (opens : Opens start front arg) : arg.stop = start + front.length := by
  obtain ⟨lead, rfl, placed, -⟩ := opens.lead
  rw [Argument.stop, placed, List.length_append, Nat.add_assoc]

theorem Opens.no_nul (opens : Opens start front arg) (no_nul : (0 : UInt8) ∉ front) :
    (0 : UInt8) ∉ arg.text := by
  obtain ⟨lead, rfl, -⟩ := opens.lead
  exact fun nul => no_nul (List.mem_append_right lead nul)

end

/-! ## Every text splits -/

theorem splits_exist (start : Nat) (text : List UInt8) :
    ∃ args final, Splits start text args final := by
  induction length : text.length using Nat.strong_induction_on generalizing start text with
  | _ n ih =>
    -- an argument that is ended leaves a shorter text
    have ended : ∀ {front rest : List UInt8} {arg : Argument}, Opens start front arg →
        (front ++ arg.delimiter :: rest).length = n →
        ∃ args final, Splits start (front ++ arg.delimiter :: rest) args final := by
      intro front rest arg opens size
      obtain ⟨args, final, splits⟩ :=
        ih rest.length (by simp at size; omega) (start + front.length + 1) rest rfl
      exact ⟨_, _, .next opens splits⟩
    rcases gap_cases Space text with blanks | ⟨gap, b, more, blanks, head, rfl⟩
    · exact ⟨[], text, .blanks blanks⟩
    by_cases quote : b = 39
    · subst quote
      by_cases closed : (39 : UInt8) ∈ more
      · obtain ⟨tok, rest, rfl, first⟩ := List.eq_append_cons_of_mem closed
        rw [← List.cons_append, ← List.append_assoc] at length ⊢
        exact ended (.quoted blanks first) length
      · exact ⟨_, _, .last (.quoted blanks closed)⟩
    · by_cases delimited : (32 : UInt8) ∈ b :: more
      · obtain ⟨tok, rest, split, first⟩ := List.eq_append_cons_of_mem delimited
        have word : Bare tok := by
          refine ⟨?_, first⟩
          cases tok with
          | nil => exact absurd (List.cons.inj split).1 head
          | cons x tok => exact ⟨x, tok, rfl, (List.cons.inj split).1 ▸ quote⟩
        rw [split, ← List.append_assoc] at length ⊢
        exact ended (.bare blanks word) length
      · exact ⟨_, _, .last (.bare blanks ⟨⟨b, more, rfl, quote⟩, delimited⟩)⟩

theorem splits_nil {start : Nat} {args : List Argument} {final : List UInt8}
    (splits : Splits start [] args final) : args = [] ∧ final = [] := by
  generalize empty : ([] : List UInt8) = text at splits
  cases splits with
  | blanks _ => exact ⟨rfl, rfl⟩
  | last opens => exact absurd empty.symm opens.ne_nil
  | next _ _ => simp at empty

/-! ## `split` computes it -/

section
variable {delimiter : UInt8} {mem tok rest gap : List UInt8} {start cptr : Nat}

theorem scan_argument (undelimited : delimiter ∉ tok) (no_nul : (0 : UInt8) ∉ tok) :
    ∀ b ∈ tok, (b != delimiter && b != 0) = true := by
  intro b member
  rw [Bool.and_eq_true, bne_iff_ne, bne_iff_ne]
  exact ⟨fun same => undelimited (same ▸ member), fun nul => no_nul (nul ▸ member)⟩

theorem endArgument_delimited (there : mem.drop start = tok ++ delimiter :: rest)
    (undelimited : delimiter ∉ tok) (no_nul : (0 : UInt8) ∉ tok) :
    endArgument delimiter mem start =
      some (mem.set (start + tok.length) 0, start + tok.length + 1) := by
  have here : mem[start + tok.length]? = some delimiter := getElem?_of_drop (drop_of_drop there)
  obtain ⟨inside, -⟩ := List.getElem?_eq_some_iff.mp here
  simp only [endArgument, advance_to_stop there (scan_argument undelimited no_nul) (by simp),
    Option.bind_eq_bind, Option.bind_some, here, if_true, store, if_pos inside]
  rfl

theorem endArgument_end (there : mem.drop start = tok ++ 0 :: rest) (undelimited : delimiter ∉ tok)
    (no_nul : (0 : UInt8) ∉ tok) (nonzero : delimiter ≠ 0) :
    endArgument delimiter mem start = some (mem, start + tok.length) := by
  have here : mem[start + tok.length]? = some 0 := getElem?_of_drop (drop_of_drop there)
  simp only [endArgument, advance_to_stop there (scan_argument undelimited no_nul) (by simp),
    Option.bind_eq_bind, Option.bind_some, here, if_neg nonzero.symm]
  rfl

theorem scan_blanks {b : UInt8} (there : mem.drop cptr = gap ++ b :: rest)
    (blanks : AllBlank Space gap) (head : b ≠ 32) :
    advance (fun b => b == 32 && b != 0) none mem cptr = some (cptr + gap.length) ∧
      mem[cptr + gap.length]? = some b := by
  refine ⟨advance_to_stop there (fun x member => ?_) (by simp [head]),
    getElem?_of_drop (drop_of_drop there)⟩
  rw [blanks x member]
  rfl

theorem splitBody_blanks (there : mem.drop cptr = gap ++ 0 :: rest)
    (blanks : AllBlank Space gap) : splitBody mem cptr = some (mem, cptr + gap.length, []) := by
  obtain ⟨scan, here⟩ := scan_blanks there blanks (by decide)
  simp only [splitBody, scan, here, Option.bind_eq_bind, Option.bind_some]
  rfl

theorem splitBody_quoted {mem' : List UInt8} {ended : Nat}
    (there : mem.drop cptr = gap ++ 39 :: rest) (blanks : AllBlank Space gap)
    (argument : endArgument 39 mem (cptr + gap.length + 1) = some (mem', ended)) :
    splitBody mem cptr = some (mem', ended, [cptr + gap.length + 1]) := by
  obtain ⟨scan, here⟩ := scan_blanks there blanks (by decide)
  simp only [splitBody, scan, here, Option.bind_eq_bind, Option.bind_some, if_true, argument]
  rfl

theorem splitBody_bare {mem' : List UInt8} {ended : Nat} {b : UInt8}
    (there : mem.drop cptr = gap ++ b :: rest) (blanks : AllBlank Space gap) (head : b ≠ 32)
    (quote : b ≠ 39) (nonzero : b ≠ 0)
    (argument : endArgument 32 mem (cptr + gap.length) = some (mem', ended)) :
    splitBody mem cptr = some (mem', ended, [cptr + gap.length]) := by
  obtain ⟨scan, here⟩ := scan_blanks there blanks head
  simp only [splitBody, scan, here, Option.bind_eq_bind, Option.bind_some, if_neg quote,
    if_pos nonzero, argument]
  rfl

/-- One turn of the loop. -/
theorem splitLoop_turn {mem' : List UInt8} {ended : Nat} {pushed : List Nat} {b : UInt8}
    (body : splitBody mem cptr = some (mem', ended, pushed)) (test : mem'[ended]? = some b)
    (v : List Nat) : splitLoop mem cptr v =
      if b ≠ 0 then splitLoop mem' ended (v ++ pushed) else some (mem', v ++ pushed) := by
  rw [splitLoop]
  split
  · next stuck =>
    rw [body] at stuck
    cases stuck
  · next same =>
    rw [body] at same
    cases same
    split
    · next outside =>
      rw [test] at outside
      cases outside
    · next same =>
      rw [test] at same
      cases same
      split <;> simp_all

/-- After an argument whose delimiter is cut off, the loop ends or goes on with the rest. -/
theorem splitLoop_rest (front : List UInt8) {final more : List UInt8} {ended : Nat}
    {pushed : List Nat} {args : List Argument}
    (body : splitBody mem cptr = some (front ++ (rest ++ 0 :: more), ended, pushed))
    (length : front.length = ended) (no_nul : (0 : UInt8) ∉ rest)
    (splits : Splits ended rest args final)
    (goes_on : ∀ v, splitLoop (front ++ (rest ++ 0 :: more)) ended v =
      some (front ++ (final ++ 0 :: more), v ++ args.map Argument.start)) (v : List Nat) :
    splitLoop mem cptr v =
      some (front ++ (final ++ 0 :: more), v ++ (pushed ++ args.map Argument.start)) := by
  subst length
  cases rest with
  | nil =>
    have test : (front ++ ([] ++ 0 :: more))[front.length]? = some 0 := by simp
    rw [splitLoop_turn body test]
    obtain ⟨rfl, rfl⟩ := splits_nil splits
    simp
  | cons b rest =>
    have test : (front ++ (b :: rest ++ 0 :: more))[front.length]? = some b := by simp
    have nonzero : b ≠ 0 := fun nul => no_nul (nul ▸ List.mem_cons_self)
    rw [splitLoop_turn body test, if_pos nonzero, goes_on, List.append_assoc]

/-- An argument that runs to the end of the string ends the loop. -/
theorem splitLoop_end {ended : Nat} {pushed : List Nat}
    (body : splitBody mem cptr = some (mem, ended, pushed)) (test : mem[ended]? = some 0)
    (v : List Nat) : splitLoop mem cptr v = some (mem, v ++ pushed) := by
  rw [splitLoop_turn body test]
  rfl

/-- An argument is read from where it starts. -/
theorem Opens.drop {front text : List UInt8} {arg : Argument} (opens : Opens front.length text arg)
    (more : List UInt8) : (front ++ (text ++ more)).drop arg.start = arg.text ++ more := by
  obtain ⟨lead, rfl, placed, -⟩ := opens.lead
  rw [placed, ← List.drop_drop, List.drop_left, List.append_assoc, List.drop_left]

/-- The body of the loop finds the argument and leaves it to `endArgument`. -/
theorem splitBody_opens {front text more mem' : List UInt8} {arg : Argument} {ended : Nat}
    (opens : Opens front.length text arg) (no_nul : (0 : UInt8) ∉ text)
    (argument : endArgument arg.delimiter (front ++ (text ++ more)) arg.start =
      some (mem', ended)) :
    splitBody (front ++ (text ++ more)) front.length = some (mem', ended, [arg.start]) := by
  have there : (front ++ (text ++ more)).drop front.length = text ++ more := List.drop_left
  have word_no_nul := opens.no_nul no_nul
  cases opens with
  | bare blanks word =>
    obtain ⟨b, tail, rfl, quote⟩ := word.head
    have there := there.trans (List.append_assoc _ _ _)
    exact splitBody_bare there blanks (fun same => word.no_blank (same ▸ List.mem_cons_self)) quote
      (fun same => word_no_nul (same ▸ List.mem_cons_self)) argument
  | quoted blanks undelimited =>
    have there := there.trans (List.append_assoc _ _ _)
    exact splitBody_quoted there blanks argument

/-- An argument that is ended by its delimiter. -/
theorem splitBody_next {text : List UInt8} {arg : Argument} (front back : List UInt8)
    (opens : Opens front.length text arg) (no_nul : (0 : UInt8) ∉ text) :
    splitBody (front ++ (text ++ arg.delimiter :: back)) front.length =
      some (front ++ (text ++ 0 :: back), front.length + text.length + 1, [arg.start]) := by
  have argument := endArgument_delimited (opens.drop (arg.delimiter :: back)) opens.undelimited
    (opens.no_nul no_nul)
  have cut := set_middle (front ++ text) arg.delimiter 0 back
  have stop : arg.start + arg.text.length = front.length + text.length := opens.stop
  rw [List.length_append, List.append_assoc, List.append_assoc] at cut
  rw [stop, cut] at argument
  exact splitBody_opens opens no_nul argument

/-- An argument that runs to the end of the string. -/
theorem splitBody_last {text : List UInt8} {arg : Argument} (front back : List UInt8)
    (opens : Opens front.length text arg) (no_nul : (0 : UInt8) ∉ text) :
    splitBody (front ++ (text ++ 0 :: back)) front.length =
      some (front ++ (text ++ 0 :: back), front.length + text.length, [arg.start]) := by
  have nonzero : arg.delimiter ≠ 0 := by
    unfold Argument.delimiter
    split <;> decide
  have argument := endArgument_end (opens.drop (0 :: back)) opens.undelimited
    (opens.no_nul no_nul) nonzero
  have stop : arg.start + arg.text.length = front.length + text.length := opens.stop
  rw [stop] at argument
  exact splitBody_opens opens no_nul argument

/-- The loop of `split` does what `Splits` says, and touches nothing after the NUL. -/
theorem Splits.splitLoop {text final : List UInt8} {args : List Argument}
    (splits : Splits start text args final) (no_nul : (0 : UInt8) ∉ text) (more : List UInt8)
    (front : List UInt8) (length : front.length = start) (v : List Nat) :
    splitLoop (front ++ (text ++ 0 :: more)) start v =
      some (front ++ (final ++ 0 :: more), v ++ args.map Argument.start) := by
  induction splits generalizing front v with
  | @blanks start gap blanks =>
    subst length
    have there : (front ++ (gap ++ 0 :: more)).drop front.length = gap ++ 0 :: more :=
      List.drop_left
    exact splitLoop_end (splitBody_blanks there blanks) (getElem?_of_drop (drop_of_drop there)) v
  | @last start text arg opens =>
    subst length
    have test := get_middle (front ++ text) 0 more
    rw [List.append_assoc, List.length_append] at test
    exact splitLoop_end (splitBody_last front more opens no_nul) test v
  | @next start text rest final arg args opens splits ih =>
    subst length
    simp only [List.mem_append, List.mem_cons, not_or] at no_nul
    have body := splitBody_next front (rest ++ 0 :: more) opens no_nul.1
    have split := splitLoop_rest (front ++ (text ++ [0])) (by simpa using body)
      (by simp; omega) no_nul.2.2 splits (fun v => ih no_nul.2.2 _ (by simp; omega) v) v
    simpa using split

end

theorem Splits.split {text final : List UInt8} {args : List Argument}
    (splits : Splits 0 text args final) (no_nul : (0 : UInt8) ∉ text) (more : List UInt8) :
    split (text ++ 0 :: more) = some (final ++ 0 :: more, args.map Argument.start) :=
  splits.splitLoop no_nul more [] rfl []

end DebianConf.SysLinux
