import DebianConf.Lib.Memory
import DebianConf.Lib.Numerals
import DebianConf.Preload.Parser

/-!
# C strings in buffers

`strlen` and `snprintf` with checked access to the buffers they work on, and string literals as
bytes.
-/

namespace DebianConf.SysLinux

open DebianConf.Lib DebianConf.Preload

/-- The bytes of a string literal. -/
def ascii (s : String) : List UInt8 := s.toList.map fun c => UInt8.ofNat c.toNat

/-- The C string at the start of `mem`. -/
def loadString (mem : List UInt8) : Option (List UInt8) := do
  let q ← advance (fun b => b != 0) none mem 0
  return mem.take q

/-- An argument of `snprintf`. -/
inductive FormatArg where
  | s (text : List UInt8)
  | d (n : Int)

/-- The text that a format stands for. -/
def formatText : List UInt8 → List FormatArg → List UInt8
  | 37 :: 115 :: format, .s text :: args => text ++ formatText format args
  | 37 :: 100 :: format, .d n :: args => printSigned n ++ formatText format args
  | b :: format, args => b :: formatText format args
  | [], _ => []

/-- What an argument is printed as. -/
def FormatArg.text : FormatArg → List UInt8
  | s text => text
  | d n => printSigned n

@[simp] theorem FormatArg.text_s (text : List UInt8) : (FormatArg.s text).text = text := rfl

@[simp] theorem FormatArg.text_d (n : Int) : (FormatArg.d n).text = printSigned n := rfl

theorem formatText_no_nul {format : List UInt8} {args : List FormatArg}
    (no_nul : (0 : UInt8) ∉ format) (args_no_nul : ∀ arg ∈ args, (0 : UInt8) ∉ arg.text) :
    (0 : UInt8) ∉ formatText format args := by
  fun_induction formatText format args with
  | case1 format text args ih =>
    have first := args_no_nul _ List.mem_cons_self
    have rest := ih (by simp_all) fun arg member => args_no_nul arg (List.mem_cons_of_mem _ member)
    exact fun nul => (List.mem_append.mp nul).elim first rest
  | case2 format n args ih =>
    have first := args_no_nul _ List.mem_cons_self
    have rest := ih (by simp_all) fun arg member => args_no_nul arg (List.mem_cons_of_mem _ member)
    exact fun nul => (List.mem_append.mp nul).elim first rest
  | case3 args b format other other' ih =>
    rw [List.mem_cons, not_or] at no_nul ⊢
    exact ⟨no_nul.1, ih no_nul.2 args_no_nul⟩
  | case4 => exact no_nul

theorem formatText_length_le (format : List UInt8) (args : List FormatArg) :
    (formatText format args).length ≤
      format.length + (args.map fun arg => arg.text.length).sum := by
  fun_induction formatText format args with
  | case1 format text args ih =>
    simp
    omega
  | case2 format n args ih =>
    simp
    omega
  | case3 args b format other other' ih =>
    simp
    omega
  | case4 => simp

/-- `snprintf(mem + p, size, …)`: the buffer and the length of the complete text. -/
def snprintf (mem : List UInt8) (p size : Nat) (text : List UInt8) :
    Option (List UInt8 × Nat) := do
  if size = 0 then return (mem, text.length)
  let mem ← storeAll mem p (text.take (size - 1) ++ [0])
  return (mem, text.length)

/-- `mem` starts with the C string `text`. -/
structure Holds (mem text : List UInt8) : Prop where
  no_nul : (0 : UInt8) ∉ text
  nul : ∃ more, mem = text ++ 0 :: more

section
variable {mem text more : List UInt8}

theorem Holds.loadString (holds : Holds mem text) : loadString mem = some text := by
  obtain ⟨more, rfl⟩ := holds.nul
  have all : ∀ b ∈ text, (b != 0) = true := by
    intro b member
    rw [bne_iff_ne]
    exact fun nul => holds.no_nul (nul ▸ member)
  have here : (text ++ 0 :: more).drop 0 = text ++ 0 :: more := rfl
  rw [SysLinux.loadString, advance_to_stop here all rfl, Nat.zero_add]
  simp

theorem upToNul_no_nul (bytes : List UInt8) : (0 : UInt8) ∉ upToNul bytes := by
  intro member
  have nonzero := List.mem_takeWhile_imp member
  simp at nonzero

/-- A NUL after any bytes ends the C string in front of the first of all NULs. -/
theorem holds_upToNul (body more : List UInt8) : Holds (body ++ 0 :: more) (upToNul body) := by
  refine ⟨upToNul_no_nul body, ?_⟩
  by_cases nul : (0 : UInt8) ∈ body
  · obtain ⟨front, after, rfl, first⟩ := List.eq_append_cons_of_mem nul
    exact ⟨after ++ 0 :: more, by rw [upToNul_nul, upToNul_eq_self first]; simp⟩
  · exact ⟨more, by rw [upToNul_eq_self nul]⟩

/-- With enough room the text is complete. -/
theorem snprintf_fits {front back : List UInt8} {p size : Nat} (at_front : front.length = p)
    (fits : text.length < size) (inside : text.length < back.length) :
    snprintf (front ++ back) p size text =
      some (front ++ (text ++ 0 :: back.drop (text.length + 1)), text.length) := by
  have whole : text.take (size - 1) = text := List.take_of_length_le (by omega)
  have stored : storeAll (front ++ back) p (text ++ [0]) = _ :=
    storeAll_front at_front (by simp; omega)
  rw [snprintf, if_neg (by omega), whole, stored]
  simp

end

end DebianConf.SysLinux
