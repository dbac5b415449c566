import DebianConf.SysLinux.CommandLine

/-!
# The configured host name

The comment in `hostname` asks for the name in `/etc/hostname`, and for `localhost` when there is
none. This compares that name with the one given to `sethostname` and with the suffix of the
configuration file of the X server.
-/

namespace DebianConf.SysLinux

open DebianConf.Lib DebianConf.Preload

/-- A state of `/etc/hostname`: missing, or a name of at most 99 bytes with or without a final
newline. Without a name it is empty or has only a newline. -/
inductive HostFile where
  | missing
  | present (name : List UInt8) (newline : Bool) (short : name.length ≤ 99)
      (no_nul : (0 : UInt8) ∉ name) (one_line : (10 : UInt8) ∉ name)

def HostFile.content : HostFile → Option (List UInt8)
  | missing => none
  | present name newline _ _ _ => some (name ++ if newline then [10] else [])

/-- The name that the file configures. -/
def HostFile.configured : HostFile → List UInt8
  | missing => ascii "localhost"
  | present name _ _ _ _ => if name = [] then ascii "localhost" else name

/-- An option with its value among the arguments of a launch. -/
def Launch.Passes (launch : Launch) (option value : List UInt8) : Prop :=
  ∃ before after, launch.strings = before ++ some option :: some value :: after

/-- The name `name` is given to `sethostname`, its configuration file is looked for, and is passed
to the X server when it is found. -/
structure NameUsed (name given : List UInt8) (run : XRun) (access : List UInt8 → Int) : Prop where
  given_eq : given = name
  probed : ∀ command, run.command = some command → command.probed = confFile name
  passed : ∀ command, run.command = some command → access command.probed = 0 →
    command.launch.Passes (ascii "-config") (confFile name)

/-! ## The name given to `sethostname` -/

theorem givenName_short {content : List UInt8} (nonempty : content ≠ [])
    (short : content.length ≤ 100) : givenName (some content) = upToNul content.dropLast := by
  obtain ⟨b, rest, rfl⟩ := List.exists_cons_of_ne_nil nonempty
  rw [givenName, List.take_of_length_le short]
  simp

/-- `hostname` finds the configured name when the file is empty or ends its name with a newline. -/
theorem given_iff (file : HostFile) : givenName file.content = file.configured ↔
    file.content = some [] ∨ ∃ name, name ≠ [] ∧ file.content = some (name ++ [10]) := by
  cases file with
  | missing => simp [HostFile.content, HostFile.configured, givenName, ascii]
  | present name newline short no_nul one_line =>
    simp only [HostFile.content, HostFile.configured, Option.some.injEq]
    cases newline with
    | true =>
      have given : givenName (some (name ++ [10])) = _ :=
        givenName_short (by simp) (by simp; omega)
      rw [List.dropLast_concat, upToNul_eq_self no_nul] at given
      by_cases nameless : name = []
      · subst nameless
        rw [if_pos rfl, if_pos rfl, given]
        refine iff_of_false (by decide) ?_
        rintro (empty | ⟨name, nonempty, same⟩)
        · cases empty
        · exact nonempty (List.append_cancel_right same).symm
      · rw [if_neg nameless, if_pos rfl, given]
        exact iff_of_true rfl (Or.inr ⟨name, nameless, rfl⟩)
    | false =>
      rw [if_neg Bool.false_ne_true, List.append_nil]
      by_cases nameless : name = []
      · subst nameless
        rw [if_pos rfl]
        exact iff_of_true rfl (Or.inl rfl)
      · rw [if_neg nameless, givenName_short nameless (by omega)]
        refine iff_of_false (fun same => ?_) ?_
        · -- the last byte of the name is cut off
          have kept := (List.takeWhile_prefix (fun b => b != 0) (l := name.dropLast)).length_le
          have cut := congrArg List.length same
          have positive := List.length_pos_of_ne_nil nameless
          rw [upToNul] at cut
          rw [List.length_dropLast] at kept
          omega
        · rintro (empty | ⟨front, -, same⟩)
          · exact nameless empty
          · exact one_line (same ▸ by simp)

/-! ## The name passed to the X server -/

theorem xText_no_quote {config : Bool} {host : List UInt8} {suffix : Suffix}
    (no_quote : (39 : UInt8) ∉ host) : (39 : UInt8) ∉ xText config host (serverFile suffix) := by
  have file : (39 : UInt8) ∉ serverFile suffix :=
    List.not_mem_append (by decide) (suffix.not_mem rfl)
  have path : (39 : UInt8) ∉ confFile host := List.not_mem_append (by decide) no_quote
  have option : (39 : UInt8) ∉ configText config host := by
    unfold configText
    split
    · exact List.not_mem_append (by decide) path
    · exact List.not_mem_nil
  simp only [xText, List.mem_append, not_or]
  exact ⟨by decide, option, by decide, file, by decide⟩

/-- A configuration file with a blank in its name is not an argument: an argument without quotes has
no blank, and one between quotes has none of the quotes that are needed for it. -/
theorem confFile_not_argument {config : Bool} {host final : List UInt8} {suffix : Suffix}
    {args : List Argument} (splits : Splits 0 (xText config host (serverFile suffix)) args final)
    (blank : (32 : UInt8) ∈ host) : ∀ arg ∈ args, arg.text ≠ confFile host := by
  intro arg member same
  obtain ⟨opened, undelimited, -⟩ := splits.segments arg member
  have inside : ∀ b ∈ host, b ∈ arg.text := fun b in_host => by
    rw [same]
    exact List.mem_append_right _ in_host
  cases quoted : arg.quoted with
  | false => exact (opened.bare quoted).no_blank (inside 32 blank)
  | true =>
    obtain ⟨p, -, quote⟩ := opened.quote quoted
    have in_host : (39 : UInt8) ∈ host := by
      by_contra no_quote
      exact xText_no_quote no_quote (List.mem_of_getElem? quote)
    rw [Argument.delimiter, if_pos quoted] at undelimited
    exact undelimited (inside 39 in_host)

/-- The configuration file is passed exactly when its name has no blank. -/
theorem passes_iff {mem host : List UInt8} {suffix : Suffix} {launch : Launch}
    (text : Holds mem (xText true host (serverFile suffix)))
    (executed : execute mem false false = some launch) :
    launch.Passes (ascii "-config") (confFile host) ↔ (32 : UInt8) ∉ host := by
  constructor
  · intro ⟨before, after, passed⟩ blank
    obtain ⟨args, final, splits⟩ := splits_exist 0 (xText true host (serverFile suffix))
    obtain ⟨launch', executed', -, -, -, strings⟩ := execute_splits text splits false false
    rw [executed] at executed'
    cases executed'
    have member : some (confFile host) ∈ launch.strings := by
      rw [passed]
      simp
    rw [strings] at member
    obtain ⟨arg, in_args, same⟩ : ∃ arg ∈ args, arg.text = confFile host := by
      simpa using member
    exact confFile_not_argument splits blank arg in_args same
  · intro no_blank
    have spells := xText_spells (confFile_bare no_blank) (serverFile_bare suffix) true
    obtain ⟨launch', executed', strings⟩ := spells.execute text false false
    rw [executed] at executed'
    cases executed'
    exact ⟨[some (ascii "/usr/bin/X"), some (ascii ":1")], _, strings⟩

/-- The configured name is used exactly when the file is empty or ends its name with a newline, and
a name with a blank in it meets no configuration file. -/
theorem host_name_iff (storage : Storage) (file : HostFile) (tmpStr : List UInt8)
    (tmp_size : tmpStr.length = 255) (out : Outside) :
    ∃ s s' given run, construct storage = some s ∧
      hostname s file.content = some (s', given) ∧ startXserver s' tmpStr out = some run ∧
      (NameUsed file.configured given run out.access ↔
        (file.content = some [] ∨ ∃ name, name ≠ [] ∧ file.content = some (name ++ [10])) ∧
        (out.chown ≠ -1 → out.access (confFile file.configured) = 0 →
          (32 : UInt8) ∉ file.configured)) := by
  obtain ⟨s, s', run, constructed, named, ran, -, exits, command⟩ :=
    startXserver_spec storage file.content tmp_size out
  refine ⟨s, s', _, run, constructed, named, ran, ?_⟩
  rw [← given_iff]
  by_cases same : givenName file.content = file.configured
  · rw [same] at command
    generalize file.configured = name at same command
    constructor
    · refine fun used => ⟨same, fun succeeded found => ?_⟩
      obtain ⟨command, mem, launched, probed, text, executed⟩ := command succeeded
      rw [decide_eq_true found] at text
      exact (passes_iff text executed).mp (used.passed command launched (probed ▸ found))
    · intro ⟨_, no_blank⟩
      -- a command that is run is the one of `startXserver_spec`
      have only : ∀ other, run.command = some other → other.probed = confFile name ∧
          (out.access (confFile name) = 0 →
            other.launch.Passes (ascii "-config") (confFile name)) := by
        intro other launched
        by_cases failed : out.chown = -1
        · rw [exits failed] at launched
          cases launched
        · obtain ⟨command, mem, launched', probed, text, executed⟩ := command failed
          rw [launched] at launched'
          cases launched'
          refine ⟨probed, fun found => ?_⟩
          rw [decide_eq_true found] at text
          exact (passes_iff text executed).mpr (no_blank failed found)
      exact ⟨same, fun other launched => (only other launched).1, fun other launched found =>
        (only other launched).2 ((only other launched).1 ▸ found)⟩
  · exact iff_of_false (fun used => same used.given_eq) (fun holds => same holds.1)

/-- Without the file the name is empty, where the comment asks for `localhost`. -/
theorem missing_host_name : ∃ s s' run, construct .zero = some s ∧
    hostname s HostFile.missing.content = some (s', []) ∧
    startXserver s' (List.replicate 255 0) .success = some run ∧
    ¬ NameUsed HostFile.missing.configured [] run Outside.success.access := by
  obtain ⟨s, s', run, constructed, named, ran, -⟩ :=
    startXserver_spec .zero none List.length_replicate .success
  exact ⟨s, s', run, constructed, named, ran, fun used => absurd used.given_eq (by decide)⟩

theorem host_name_box : (List.replicate 255 (0 : UInt8)).length = 255 ∧ ∃ s s' given run,
    hostname s (some (ascii "box\n")) = some (s', given) ∧
      startXserver s' (List.replicate 255 0) .success = some run ∧
      NameUsed (ascii "box") given run Outside.success.access := by
  obtain ⟨s, s', given, run, -, named, ran, iff⟩ := host_name_iff .zero
    (.present (ascii "box") true (by decide) (by decide) (by decide)) (List.replicate 255 0)
    List.length_replicate .success
  refine ⟨List.length_replicate, s, s', given, run, named, ran, iff.mpr ⟨Or.inr ?_, ?_⟩⟩
  · exact ⟨ascii "box", by decide, rfl⟩
  · intro _ _
    decide

end DebianConf.SysLinux
