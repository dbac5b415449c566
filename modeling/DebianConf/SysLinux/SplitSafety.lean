import Mathlib.Data.List.Pairwise
import DebianConf.SysLinux.Arguments

/-!
# `split` on any text

The command line of the kernel is not under the control of the program, so quotes need not be
balanced. Whatever the text, `split` stays in the string, writes on delimiters only, and its
pointers stand for segments of the text that do not overlap.
-/

namespace DebianConf.SysLinux

open DebianConf.Lib DebianConf.Preload

/-- `tok` stands in `text` at `p`, and what comes after it is `d` or the end. -/
def Segment (d : UInt8) (text : List UInt8) (p : Nat) (tok : List UInt8) : Prop :=
  ∃ front after, text = front ++ (tok ++ after) ∧ front.length = p ∧ ∀ b ∈ after.head?, b = d

section
variable {d : UInt8} {text tok : List UInt8} {p : Nat}

/-- A segment is what is read up to the next `d`. -/
theorem Segment.takeWhile (segment : Segment d text p tok) (undelimited : d ∉ tok) :
    (text.drop p).takeWhile (· != d) = tok := by
  obtain ⟨front, after, rfl, rfl, ended⟩ := segment
  have all : ∀ b ∈ tok, (b != d) = true := by
    intro b member
    rw [bne_iff_ne]
    exact fun same => undelimited (same ▸ member)
  have nothing : after.takeWhile (· != d) = [] := by
    cases after with
    | nil => rfl
    | cons b after =>
      have same : b = d := ended b rfl
      rw [List.takeWhile_cons_of_neg (by simp [same])]
  rw [List.drop_left, List.takeWhile_append_of_pos all, nothing, List.append_nil]

theorem Segment.past (segment : Segment d text p tok) (front : List UInt8) (x : UInt8) :
    Segment d (front ++ x :: text) (front.length + 1 + p) tok := by
  obtain ⟨lead, after, rfl, rfl, ended⟩ := segment
  exact ⟨front ++ x :: lead, after, by simp, by simp; omega, ended⟩

theorem Segment.append (segment : Segment d text p tok) (rest : List UInt8) :
    Segment d (text ++ d :: rest) p tok := by
  obtain ⟨front, after, rfl, length, ended⟩ := segment
  refine ⟨front, after ++ d :: rest, by simp, length, fun b head => ?_⟩
  cases after with
  | nil => exact (Option.some.inj head).symm
  | cons x after => exact ended b head

/-- Read as a C string, a segment up to a NUL is itself. -/
theorem Segment.cstr (segment : Segment 0 text p tok) (no_nul : (0 : UInt8) ∉ tok)
    (more : List UInt8) : cstr (text ++ 0 :: more) p = tok :=
  (segment.append more).takeWhile no_nul

end

section
variable {start : Nat} {front text final : List UInt8} {arg : Argument} {args : List Argument}

/-- How an argument is opened: by the quote before it, or by its own first byte. -/
structure Argument.Opened (arg : Argument) (start : Nat) (text : List UInt8) : Prop where
  quote : arg.quoted = true → ∃ p, arg.start = start + p + 1 ∧ text[p]? = some 39
  bare : arg.quoted = false → Bare arg.text

theorem Argument.Opened.past (opened : arg.Opened (start + front.length + 1) text) (x : UInt8) :
    arg.Opened start (front ++ x :: text) := by
  refine ⟨fun quoted => ?_, opened.bare⟩
  obtain ⟨p, placed, quote⟩ := opened.quote quoted
  exact ⟨front.length + 1 + p, by omega, (get_past front x text p).trans quote⟩

theorem Opens.opened (opens : Opens start front arg) (rest : List UInt8) :
    arg.Opened start (front ++ rest) := by
  cases opens with
  | bare _ word => exact ⟨nofun, fun _ => word⟩
  | @quoted gap tok _ _ => exact ⟨fun _ => ⟨gap.length, rfl, by simp⟩, nofun⟩

/-- Before the argument there are only blanks and its quote. -/
theorem Opens.covered (opens : Opens start front arg) {k : Nat} {b : UInt8}
    (there : front[k]? = some b) (letter : b ≠ 32) (unquoted : b ≠ 39) :
    arg.start ≤ start + k ∧ start + k < arg.stop := by
  have stop := opens.stop
  obtain ⟨lead, rfl, placed, opening⟩ := opens.lead
  obtain ⟨bound, -⟩ := List.getElem?_eq_some_iff.mp there
  refine ⟨?_, by omega⟩
  by_contra before
  rw [List.getElem?_append_left (by omega)] at there
  rcases opening b (List.mem_of_getElem? there) with blank | quote
  · exact letter blank
  · exact unquoted quote

/-- `front` as a text of its own. -/
theorem Opens.segment (opens : Opens start front arg) (d : UInt8) :
    ∃ p, arg.start = start + p ∧ Segment d front p arg.text := by
  obtain ⟨lead, rfl, placed, -⟩ := opens.lead
  exact ⟨lead.length, placed, lead, [], by simp, rfl, by simp⟩

/-! ## What holds of every text that splits -/

theorem Splits.length (splits : Splits start text args final) : final.length = text.length := by
  induction splits with
  | blanks _ => rfl
  | last _ => rfl
  | next _ _ ih => simp [ih]

theorem Splits.start_le (splits : Splits start text args final) :
    ∀ arg ∈ args, start ≤ arg.start := by
  induction splits with
  | blanks _ => simp
  | @last start front first opens =>
    intro arg member
    obtain ⟨lead, -, placed, -⟩ := opens.lead
    rw [List.mem_singleton.mp member]
    omega
  | @next start front rest final first args opens splits ih =>
    intro arg member
    obtain ⟨lead, -, placed, -⟩ := opens.lead
    rcases List.mem_cons.mp member with rfl | later
    · omega
    · have further := ih arg later
      omega

/-- Arguments do not overlap: each starts after the delimiter of the one before it. -/
theorem Splits.ordered (splits : Splits start text args final) :
    args.Pairwise (fun a b => a.stop < b.start) := by
  induction splits with
  | blanks _ => exact List.Pairwise.nil
  | last _ => exact List.pairwise_singleton _ _
  | @next start front rest final first args opens splits ih =>
    refine List.pairwise_cons.mpr ⟨fun arg later => ?_, ih⟩
    have further := splits.start_le arg later
    rw [opens.stop]
    omega

/-- What becomes another byte was the delimiter of an argument, and becomes a NUL. -/
theorem Splits.written (splits : Splits start text args final) {k : Nat} {b : UInt8}
    (there : text[k]? = some b) (changed : final[k]? ≠ some b) :
    ∃ arg ∈ args, start + k = arg.stop ∧ b = arg.delimiter ∧ final[k]? = some 0 := by
  induction splits generalizing k with
  | blanks _ => exact absurd there changed
  | last _ => exact absurd there changed
  | @next start front rest final first args opens splits ih =>
    rcases Nat.lt_trichotomy k front.length with inside | rfl | beyond
    · rw [List.getElem?_append_left inside] at there changed
      exact absurd there changed
    · refine ⟨first, List.mem_cons_self, opens.stop.symm, ?_, get_middle front 0 final⟩
      rw [get_middle] at there
      exact (Option.some.inj there).symm
    · obtain ⟨j, rfl⟩ : ∃ j, k = front.length + 1 + j := ⟨k - (front.length + 1), by omega⟩
      rw [get_past] at there changed
      rw [get_past]
      obtain ⟨arg, member, stop, delimiter, nul⟩ := ih there changed
      exact ⟨arg, List.mem_cons_of_mem first member, by omega, delimiter, nul⟩

/-- Each argument is a segment of the text up to its delimiter and, afterwards, a segment up to a
NUL. -/
theorem Splits.segments (splits : Splits start text args final) :
    ∀ arg ∈ args, arg.Opened start text ∧ arg.delimiter ∉ arg.text ∧
      ∃ p, arg.start = start + p ∧ Segment arg.delimiter text p arg.text ∧
        Segment 0 final p arg.text := by
  induction splits with
  | blanks _ => simp
  | @last start front first opens =>
    intro arg member
    rw [List.mem_singleton.mp member]
    obtain ⟨lead, rfl, placed, -⟩ := opens.lead
    have opened := opens.opened []
    rw [List.append_nil] at opened
    exact ⟨opened, opens.undelimited, lead.length, placed, ⟨lead, [], by simp, rfl, by simp⟩,
      ⟨lead, [], by simp, rfl, by simp⟩⟩
  | @next start front rest final first args opens splits ih =>
    intro arg member
    rcases List.mem_cons.mp member with rfl | later
    · obtain ⟨p, placed, segment⟩ := opens.segment arg.delimiter
      obtain ⟨q, placed', segment'⟩ := opens.segment 0
      obtain rfl : p = q := by omega
      exact ⟨opens.opened _, opens.undelimited, p, placed, segment.append rest,
        segment'.append final⟩
    · obtain ⟨opened, undelimited, p, placed, segment, segment'⟩ := ih arg later
      exact ⟨opened.past first.delimiter, undelimited, front.length + 1 + p, by omega,
        segment.past front first.delimiter, segment'.past front 0⟩

/-- After `split` a pointer is the C string of its argument. -/
theorem Splits.cstr (splits : Splits 0 text args final) (no_nul : (0 : UInt8) ∉ text)
    (more : List UInt8) : ∀ arg ∈ args, cstr (final ++ 0 :: more) arg.start = arg.text := by
  intro arg member
  obtain ⟨-, -, p, placed, segment, segment'⟩ := splits.segments arg member
  obtain rfl : arg.start = p := by omega
  apply segment'.cstr
  obtain ⟨front, after, rfl, -⟩ := segment
  intro nul
  simp [nul] at no_nul

/-- A byte that is neither a blank nor a quote is in an argument. -/
theorem Splits.covered (splits : Splits start text args final) {k : Nat} {b : UInt8}
    (there : text[k]? = some b) (letter : b ≠ 32) (unquoted : b ≠ 39) :
    ∃ arg ∈ args, arg.start ≤ start + k ∧ start + k < arg.stop := by
  induction splits generalizing k with
  | @blanks start gap blanks => exact absurd (blanks b (List.mem_of_getElem? there)) letter
  | last opens => exact ⟨_, List.mem_singleton_self _, opens.covered there letter unquoted⟩
  | @next start front rest final first args opens splits ih =>
    rcases Nat.lt_trichotomy k front.length with inside | rfl | beyond
    · rw [List.getElem?_append_left inside] at there
      exact ⟨first, List.mem_cons_self, opens.covered there letter unquoted⟩
    · rw [get_middle] at there
      cases there
      unfold Argument.delimiter at letter unquoted
      cases quoted : first.quoted <;> simp [quoted] at letter unquoted
    · obtain ⟨j, rfl⟩ : ∃ j, k = front.length + 1 + j := ⟨k - (front.length + 1), by omega⟩
      rw [get_past] at there
      obtain ⟨arg, member, bounds⟩ := ih there
      exact ⟨arg, List.mem_cons_of_mem first member, by omega⟩

end

/-- Different arguments have no position in common. -/
theorem Splits.disjoint {start k : Nat} {text final : List UInt8} {args : List Argument}
    (splits : Splits start text args final) {a b : Argument} (in_a : a ∈ args) (in_b : b ∈ args)
    (inside_a : a.start ≤ k ∧ k < a.stop) (inside_b : b.start ≤ k ∧ k < b.stop) : a = b := by
  by_contra different
  let Apart : Argument → Argument → Prop := fun a b => a.stop < b.start ∨ b.stop < a.start
  have symmetric : Std.Symm Apart := ⟨fun a b apart => Or.symm apart⟩
  have apart : args.Pairwise Apart := splits.ordered.imp Or.inl
  have between : Apart a b := apart.forall in_a in_b different
  rcases between with before | after
  · omega
  · omega

/-- `split` is safe on any text. It returns, and as it does so without the bytes after the NUL, it
reads none of them. It writes on delimiters of arguments only. Its pointers increase, each is
afterwards the C string that was the text up to the delimiter or the end, and a byte that is
neither a blank nor a quote is in exactly one of them. -/
theorem split_safe (text : List UInt8) (no_nul : (0 : UInt8) ∉ text) :
    ∃ (args : List Argument) (final : List UInt8),
      (∀ more, split (text ++ 0 :: more) = some (final ++ 0 :: more, args.map Argument.start)) ∧
      final.length = text.length ∧
      (∀ k b, text[k]? = some b → final[k]? ≠ some b →
        ∃ arg ∈ args, k = arg.stop ∧ b = arg.delimiter ∧ final[k]? = some 0) ∧
      (args.map Argument.start).Pairwise (· < ·) ∧
      (∀ arg ∈ args, arg.Opened 0 text ∧
        (text.drop arg.start).takeWhile (· != arg.delimiter) = arg.text ∧
        ∀ more, cstr (final ++ 0 :: more) arg.start = arg.text) ∧
      ∀ k b, text[k]? = some b → b ≠ 32 → b ≠ 39 →
        ∃! arg, arg ∈ args ∧ arg.start ≤ k ∧ k < arg.stop := by
  obtain ⟨args, final, splits⟩ := splits_exist 0 text
  refine ⟨args, final, splits.split no_nul, splits.length,
    fun k b there changed => ?_, ?_, fun arg member => ?_, fun k b there letter unquoted => ?_⟩
  · obtain ⟨arg, member, stop, delimiter, nul⟩ := splits.written there changed
    exact ⟨arg, member, by omega, delimiter, nul⟩
  · apply List.Pairwise.map _ _ splits.ordered
    intro a b apart
    unfold Argument.stop at apart
    omega
  · obtain ⟨opened, undelimited, p, placed, segment, -⟩ := splits.segments arg member
    obtain rfl : arg.start = p := by omega
    exact ⟨opened, segment.takeWhile undelimited, fun more => splits.cstr no_nul more arg member⟩
  · obtain ⟨arg, member, bounds⟩ := splits.covered there letter unquoted
    rw [Nat.zero_add] at bounds
    exact ⟨arg, ⟨member, bounds⟩, fun other inside =>
      splits.disjoint inside.1 member inside.2 bounds⟩

example : split [97, 32, 39, 98, 32, 0] = some ([97, 0, 39, 98, 32, 0], [0, 3]) := by
  decide +kernel

theorem split_safe_unbalanced : (0 : UInt8) ∉ [97, 32, 39, 98, 32] ∧
    ∃ (args : List Argument) (final : List UInt8), final.length = 5 ∧
      split [97, 32, 39, 98, 32, 0] = some (final ++ [0], args.map Argument.start) ∧
      (args.map Argument.start).Pairwise (· < ·) := by
  obtain ⟨args, final, split, length, -, increasing, -⟩ :=
    split_safe [97, 32, 39, 98, 32] (by decide)
  exact ⟨by decide, args, final, length, split [], increasing⟩

end DebianConf.SysLinux
