import DebianConf.SysLinux.SplitSafety

/-!
# `split` undoes quoting and joining

A command line is written from a list of arguments: each bare or between quotes, with blanks
between them. `split` gives the arguments back, so `execute` launches what was written.
-/

namespace DebianConf.SysLinux

open DebianConf.Lib DebianConf.Preload

/-- An argument the way it is written: bare, or between quotes. -/
inductive Word where
  | bare (text : List UInt8) (word : Bare text)
  | quoted (text : List UInt8) (undelimited : (39 : UInt8) ∉ text)

def Word.text : Word → List UInt8
  | bare text _ => text
  | quoted text _ => text

/-- The bytes a word is written with. -/
def Word.source : Word → List UInt8
  | bare text _ => text
  | quoted text _ => 39 :: (text ++ [39])

/-- `line` is written with `words`: one or more blanks between two of them, any number of blanks
in front and at the end. -/
inductive Joins : List Word → List UInt8 → Prop
  | blanks {gap : List UInt8} : AllBlank Space gap → Joins [] gap
  | last {gap : List UInt8} {word : Word} : AllBlank Space gap → Joins [word] (gap ++ word.source)
  | next {gap line : List UInt8} {word : Word} {words : List Word} :
      AllBlank Space gap → Joins words line →
        Joins (word :: words) (gap ++ (word.source ++ 32 :: line))

section
variable {start : Nat} {text final front : List UInt8} {arg : Argument} {args : List Argument}

/-! ## A blank in front -/

theorem Opens.blank (opens : Opens (start + 1) front arg) : Opens start (32 :: front) arg := by
  cases opens with
  | @bare gap tok blanks word =>
    have opens : Opens start ((32 :: gap) ++ tok) _ := .bare (allBlank_cons.mpr ⟨rfl, blanks⟩) word
    rwa [List.length_cons, Nat.add_comm gap.length, ← Nat.add_assoc] at opens
  | @quoted gap tok blanks undelimited =>
    have opens : Opens start ((32 :: gap) ++ 39 :: tok) _ :=
      .quoted (allBlank_cons.mpr ⟨rfl, blanks⟩) undelimited
    rwa [List.length_cons, Nat.add_comm gap.length, ← Nat.add_assoc] at opens

theorem Splits.blank (splits : Splits (start + 1) text args final) :
    Splits start (32 :: text) args (32 :: final) := by
  cases splits with
  | blanks blanks => exact .blanks (allBlank_cons.mpr ⟨rfl, blanks⟩)
  | last opens => exact .last opens.blank
  | @next _ front rest final arg args opens splits =>
    apply Splits.next opens.blank
    rwa [List.length_cons, Nat.add_comm front.length, ← Nat.add_assoc]

/-! ## A written word -/

/-- A word at the end of the line. -/
theorem Word.splits_last (word : Word) {gap : List UInt8} (blanks : AllBlank Space gap)
    (start : Nat) : ∃ args final, Splits start (gap ++ word.source) args final ∧
      args.map Argument.text = [word.text] := by
  cases word with
  | bare text word => exact ⟨_, _, .last (.bare blanks word), rfl⟩
  | quoted text undelimited =>
    have opens : Opens start (gap ++ 39 :: text) _ := .quoted blanks undelimited
    have splits := Splits.next opens (.blanks (allBlank_nil Space))
    rw [List.append_assoc, List.cons_append] at splits
    exact ⟨_, _, splits, rfl⟩

/-- A word with a blank after it. -/
theorem Word.splits_next (word : Word) {gap line : List UInt8} (blanks : AllBlank Space gap)
    (rest : ∀ start, ∃ args final, Splits start line args final ∧ args.map Argument.text = texts)
    (start : Nat) : ∃ args final, Splits start (gap ++ (word.source ++ 32 :: line)) args final ∧
      args.map Argument.text = word.text :: texts := by
  cases word with
  | bare text word =>
    have opens : Opens start (gap ++ text) _ := .bare blanks word
    obtain ⟨args, final, splits, rfl⟩ := rest (start + (gap ++ text).length + 1)
    have splits := Splits.next opens splits
    rw [List.append_assoc] at splits
    exact ⟨_, _, splits, rfl⟩
  | quoted text undelimited =>
    -- the blank after the closing quote is left for the next turn
    have opens : Opens start (gap ++ 39 :: text) _ := .quoted blanks undelimited
    obtain ⟨args, final, splits, rfl⟩ := rest (start + (gap ++ 39 :: text).length + 1 + 1)
    have splits := Splits.next opens splits.blank
    rw [List.append_assoc] at splits
    rw [List.append_assoc, List.cons_append] at splits
    rw [Word.source, List.cons_append, List.append_assoc]
    exact ⟨_, _, splits, rfl⟩

end

theorem Joins.splits {words : List Word} {line : List UInt8} (joins : Joins words line)
    (start : Nat) : ∃ args final, Splits start line args final ∧
      args.map Argument.text = words.map Word.text := by
  induction joins generalizing start with
  | blanks blanks => exact ⟨[], _, .blanks blanks, rfl⟩
  | last blanks => exact Word.splits_last _ blanks start
  | next blanks _ ih => exact Word.splits_next _ blanks ih start

/-- `line` is written with the words of `texts`. -/
def Spells (line : List UInt8) (texts : List (List UInt8)) : Prop :=
  ∃ words, Joins words line ∧ words.map Word.text = texts

theorem Bare.append {text more : List UInt8} (word : Bare text) (no_blank : (32 : UInt8) ∉ more) :
    Bare (text ++ more) := by
  obtain ⟨b, rest, rfl, unquoted⟩ := word.head
  exact ⟨⟨b, rest ++ more, rfl, unquoted⟩, List.not_mem_append word.no_blank no_blank⟩

theorem Bare.spells {text : List UInt8} (word : Bare text) : Spells text [text] :=
  ⟨[.bare text word], .last (allBlank_nil Space), rfl⟩

theorem Bare.spells_cons {text line : List UInt8} {texts : List (List UInt8)} (word : Bare text)
    (spells : Spells line texts) : Spells (text ++ 32 :: line) (text :: texts) := by
  obtain ⟨words, joins, rfl⟩ := spells
  exact ⟨.bare text word :: words, .next (allBlank_nil Space) joins, rfl⟩

/-- Words with one blank after each of them. -/
theorem Spells.words {line : List UInt8} {texts : List (List UInt8)} (spells : Spells line texts) :
    ∀ words : List (List UInt8), (∀ text ∈ words, Bare text) →
      Spells (words.foldr (fun text line => text ++ 32 :: line) line) (words ++ texts) := by
  intro words bare
  induction words with
  | nil => exact spells
  | cons text words ih =>
    rw [List.forall_mem_cons] at bare
    exact bare.1.spells_cons (ih bare.2)

theorem Spells.blank {line : List UInt8} {texts : List (List UInt8)}
    (spells : Spells line texts) : Spells (32 :: line) texts := by
  obtain ⟨words, joins, rfl⟩ := spells
  refine ⟨words, ?_, rfl⟩
  cases joins with
  | blanks blanks => exact .blanks (allBlank_cons.mpr ⟨rfl, blanks⟩)
  | last blanks => exact .last (allBlank_cons.mpr ⟨rfl, blanks⟩)
  | next blanks joins => exact .next (allBlank_cons.mpr ⟨rfl, blanks⟩) joins

theorem Word.source_no_nul {word : Word} (no_nul : (0 : UInt8) ∉ word.text) :
    (0 : UInt8) ∉ word.source := by
  cases word with
  | bare text _ => exact no_nul
  | quoted text _ => simpa [Word.source, Word.text] using no_nul

theorem gap_no_nul {gap : List UInt8} (blanks : AllBlank Space gap) : (0 : UInt8) ∉ gap :=
  fun nul => absurd (blanks 0 nul) (by decide)

theorem Joins.no_nul {words : List Word} {line : List UInt8} (joins : Joins words line)
    (no_nul : ∀ word ∈ words, (0 : UInt8) ∉ word.text) : (0 : UInt8) ∉ line := by
  induction joins with
  | blanks blanks => exact gap_no_nul blanks
  | last blanks =>
    have source := Word.source_no_nul (no_nul _ List.mem_cons_self)
    simp [gap_no_nul blanks, source]
  | next blanks _ ih =>
    have source := Word.source_no_nul (no_nul _ List.mem_cons_self)
    have rest := ih fun word member => no_nul word (List.mem_cons_of_mem _ member)
    simp [gap_no_nul blanks, source, rest]

/-- `split` undoes quoting and joining: on a line written with `words` it pushes one pointer for
each word, the pointers are afterwards the words as C strings, and `execute` launches exactly
them, with a null pointer at the end. -/
theorem split_joined (words : List Word) (line more : List UInt8) (joins : Joins words line)
    (no_nul : ∀ word ∈ words, (0 : UInt8) ∉ word.text) :
    ∃ mem pushed, split (line ++ 0 :: more) = some (mem, pushed) ∧
      pushed.length = words.length ∧ pushed.map (cstr mem) = words.map Word.text ∧
      ∀ wait fork, execute (line ++ 0 :: more) wait fork =
        some ⟨wait, mem, pushed.map some ++ [none], !fork⟩ := by
  obtain ⟨args, final, splits, texts⟩ := joins.splits 0
  have line_no_nul := joins.no_nul no_nul
  have split := splits.split line_no_nul more
  refine ⟨_, _, split, ?_, ?_, fun wait fork => ?_⟩
  · have length := congrArg List.length texts
    simpa only [List.length_map] using length
  · rw [← texts, List.map_map]
    exact List.map_congr_left (splits.cstr line_no_nul more)
  · rw [execute, split]
    rfl

/-- `a 'b c' ''`, with a blank in front. -/
theorem split_joined_three : ∃ mem pushed,
    split [32, 97, 32, 39, 98, 32, 99, 39, 32, 32, 39, 39, 0] = some (mem, pushed) ∧
      pushed.length = 3 ∧ pushed.map (cstr mem) = [[97], [98, 32, 99], []] := by
  let words := [Word.bare [97] ⟨⟨97, [], rfl, by decide⟩, by decide⟩,
    Word.quoted [98, 32, 99] (by decide), Word.quoted [] (by decide)]
  have one : AllBlank Space [32] := by
    intro b member
    exact List.mem_singleton.mp member
  have joins : Joins words [32, 97, 32, 39, 98, 32, 99, 39, 32, 32, 39, 39] :=
    .next one (.next (allBlank_nil Space) (.last one))
  obtain ⟨mem, pushed, split, length, texts, -⟩ := split_joined words _ [] joins (by decide)
  exact ⟨mem, pushed, split, length, texts⟩

end DebianConf.SysLinux
