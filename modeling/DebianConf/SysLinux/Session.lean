import DebianConf.SysLinux.CommandLine

/-!
# The desktop session

`startxfce4` of `root/sys_linux.h`, which logs the user in after `startXserver` has put the cookie
of the server into two files. The session is told the file that belongs to the user and the
display that the cookie was added for.
-/

namespace DebianConf.SysLinux

open DebianConf.Lib DebianConf.Preload

/-- `env_authority` (`sys_linux.h:576`). -/
def envAuthority : List UInt8 := ascii "XAUTHORITY"
/-- `env_display` (`sys_linux.h:577`). -/
def envDisplay : List UInt8 := ascii "DISPLAY"

/-- `startxfce4()` (`sys_linux.h:440-446`): what is printed, and the command that is executed. -/
def startxfce4 (s : Members) (tmpStr : List UInt8) : Option (List Print × Launch) := do
  let user ← loadString s.usrAuthFile
  let (tmp, _) ← (Tmp.mk tmpStr []).print 0 (255 - 1)
    "/bin/su -l -c 'export %s=%s;export %s=:%d;exec /usr/bin/startxfce4' lester"
    [.s envAuthority, .s user, .s envDisplay, .d xDisplayId]
  let (tmp, launch) ← tmp.execute false true
  return (tmp.prints, launch)

/-- The arguments of `xauth`. -/
def xauthArguments (file cookie : List UInt8) : List (List UInt8) :=
  [ascii "/usr/bin/xauth", ascii "-q", ascii "-f", file, ascii "add", ascii ":1", ascii ".", cookie]

/-- The command that the user's shell gets. -/
def sessionScript (user : List UInt8) : List UInt8 :=
  ascii "export XAUTHORITY=" ++ (user ++ ascii ";export DISPLAY=:1;exec /usr/bin/startxfce4")

/-- The arguments of `su`. -/
def sessionArguments (user : List UInt8) : List (List UInt8) :=
  [ascii "/bin/su", ascii "-l", ascii "-c", sessionScript user, ascii "lester"]

/-! ## The command lines -/

theorem xauth_spells {file cookie : List UInt8} (file_bare : Bare file)
    (cookie_bare : Bare cookie) :
    Spells (xauthText file cookie) (xauthArguments file cookie) := by
  have last := cookie_bare.spells.words [ascii "add", ascii ":1", ascii "."] (by decide)
  exact (file_bare.spells_cons last).words [ascii "/usr/bin/xauth", ascii "-q", ascii "-f"]
    (by decide)

/-- The calls of `xauth` get their arguments as they are. -/
theorem xauth_strings {files : List (List UInt8)} {cookie : List UInt8} {launches : List Launch}
    (runs : List.Forall₂ (fun file launch => Runs (xauthText file cookie) launch) files launches)
    (files_bare : ∀ file ∈ files, Bare file) (cookie_bare : Bare cookie) :
    launches.map Launch.strings =
      files.map fun file => (xauthArguments file cookie).map some ++ [none] := by
  induction runs with
  | nil => rfl
  | @cons file launch files launches run _ ih =>
    obtain ⟨mem, holds, executed⟩ := run
    obtain ⟨file_bare, rest_bare⟩ := List.forall_mem_cons.mp files_bare
    obtain ⟨launch', executed', strings⟩ :=
      (xauth_spells file_bare cookie_bare).execute holds true true
    obtain rfl : launch = launch' := Option.some.inj (executed.symm.trans executed')
    rw [List.map_cons, List.map_cons, strings, ih rest_bare]

theorem format_session (user : List UInt8) :
    formatText (ascii "/bin/su -l -c 'export %s=%s;export %s=:%d;exec /usr/bin/startxfce4' lester")
        [.s envAuthority, .s user, .s envDisplay, .d xDisplayId] =
      ascii "/bin/su -l -c " ++ (39 :: (sessionScript user ++ [39]) ++ 32 :: ascii "lester") := by
  have formatted : formatText
      (ascii "/bin/su -l -c 'export %s=%s;export %s=:%d;exec /usr/bin/startxfce4' lester")
      [.s envAuthority, .s user, .s envDisplay, .d xDisplayId] =
        ascii "/bin/su -l -c 'export XAUTHORITY=" ++ (user ++ (ascii ";export DISPLAY=:" ++
          (printSigned xDisplayId ++ ascii ";exec /usr/bin/startxfce4' lester"))) := rfl
  rw [formatted, printSigned_one, sessionScript]
  simp [ascii]

theorem quoted_spells {text line : List UInt8} {texts : List (List UInt8)}
    (undelimited : (39 : UInt8) ∉ text) (spells : Spells line texts) :
    Spells (39 :: (text ++ [39]) ++ 32 :: line) (text :: texts) := by
  obtain ⟨words, joins, rfl⟩ := spells
  exact ⟨.quoted text undelimited :: words, .next (allBlank_nil Space) joins, rfl⟩

/-- The command for the shell stays one argument, blanks and all. -/
theorem session_spells {user : List UInt8} (undelimited : (39 : UInt8) ∉ user) : Spells
      (ascii "/bin/su -l -c " ++ (39 :: (sessionScript user ++ [39]) ++ 32 :: ascii "lester"))
      (sessionArguments user) := by
  have last : Spells (ascii "lester") [ascii "lester"] := Bare.spells (by decide)
  have script : (39 : UInt8) ∉ sessionScript user :=
    List.not_mem_append (by decide) (List.not_mem_append undelimited (by decide))
  exact (quoted_spells script last).words [ascii "/bin/su", ascii "-l", ascii "-c"] (by decide)

/-! ## The server and the session -/

theorem userFile_bare (suffix : Suffix) : Bare (userFile suffix) :=
  Bare.append (by decide) (suffix.not_mem rfl)

theorem startxfce4_good {s : Members} {tmpStr : List UInt8} (suffix : Suffix)
    (holds : Holds s.usrAuthFile (userFile suffix)) (tmp_size : tmpStr.length = 255) :
    ∃ prints launch, startxfce4 s tmpStr = some (prints, launch) ∧
      (∀ print ∈ prints, print.Complete) ∧
      launch.strings = (sessionArguments (userFile suffix)).map some ++ [none] := by
  have format_length : (ascii
    "/bin/su -l -c 'export %s=%s;export %s=:%d;exec /usr/bin/startxfce4' lester").length = 74 :=
    rfl
  have names_no_nul : (0 : UInt8) ∉ envAuthority ∧ (0 : UInt8) ∉ envDisplay := by decide
  have names_length : envAuthority.length = 10 ∧ envDisplay.length = 7 := ⟨rfl, rfl⟩
  have start : Tmp.Good ⟨tmpStr, []⟩ [] := ⟨tmp_size, ⟨tmpStr, rfl⟩, by simp⟩
  have undelimited : (39 : UInt8) ∉ userFile suffix :=
    List.not_mem_append (by decide) (suffix.not_mem rfl)
  have user_length := userFile_length suffix
  obtain ⟨tmp₁, printed, good₁, text⟩ := start.print 0 (255 - 1)
    "/bin/su -l -c 'export %s=%s;export %s=:%d;exec /usr/bin/startxfce4' lester"
    [.s envAuthority, .s (userFile suffix), .s envDisplay, .d xDisplayId]
    List.length_nil rfl List.not_mem_nil (by decide)
    (by simp [holds.no_nul, names_no_nul, printSigned_one])
    (by simp [printSigned_one, format_length]; omega)
  obtain ⟨tmp₂, launch, executed, good₂, launched⟩ := good₁.execute text false true
  rw [format_session, List.nil_append] at text
  obtain ⟨launch', launched', strings⟩ := (session_spells undelimited).execute text false true
  obtain rfl : launch = launch' := Option.some.inj (launched.symm.trans launched')
  refine ⟨tmp₂.prints, launch, ?_, good₂.complete, strings⟩
  simp only [startxfce4, holds.loadString, printed, executed, Option.bind_eq_bind,
    Option.bind_some]
  rfl

/-- From the constructor on: `hostname`, `startXserver` and `startxfce4`. If `mcookie` writes a
word, both calls of `xauth` add it for the display of the server, and the session gets the second
of their files and this display in one command for the shell, whatever is in `/etc/hostname` and
in the memory that the functions find. -/
theorem session_agrees (storage : Storage) (file : Option (List UInt8))
    {tmpStr tmpStr' : List UInt8} (tmp_size : tmpStr.length = 255)
    (tmp_size' : tmpStr'.length = 255) (out : Outside)
    (cookie_bare : Bare (cookieText out.cookie)) :
    ∃ s s' name run prints session, construct storage = some s ∧
      hostname s file = some (s', name) ∧ startXserver s' tmpStr out = some run ∧
      startxfce4 run.members tmpStr' = some (prints, session) ∧
      (∀ print ∈ prints, print.Complete) ∧
      run.xauth.map Launch.strings =
        [serverFile out.server, userFile out.user].map (fun file =>
          (xauthArguments file (cookieText out.cookie)).map some ++ [none]) ∧
      session.strings = (sessionArguments (userFile out.user)).map some ++ [none] := by
  obtain ⟨s, constructed, fresh⟩ := construct_fresh storage
  obtain ⟨host, named, holds⟩ := hostname_spec fresh file
  obtain ⟨run, ran, -, user, runs, -⟩ :=
    startXserver_good fresh holds (givenName_length file) tmp_size out
  have xauths := xauth_strings runs
    (by simp [serverFile_bare out.server, userFile_bare out.user]) cookie_bare
  obtain ⟨prints, session, started, complete, strings⟩ := startxfce4_good out.user user tmp_size'
  exact ⟨s, _, _, run, prints, session, constructed, named, ran, started, complete, xauths,
    strings⟩

theorem session_agrees_box : ∃ s s' name run prints session,
    construct .zero = some s ∧ hostname s (some (ascii "box\n")) = some (s', name) ∧
      startXserver s' (List.replicate 255 0) .success = some run ∧
      startxfce4 run.members (List.replicate 255 1) = some (prints, session) ∧
      (∀ print ∈ prints, print.Complete) ∧
      run.xauth.map Launch.strings =
        [serverFile Outside.success.server, userFile Outside.success.user].map (fun file =>
          (xauthArguments file (cookieText Outside.success.cookie)).map some ++ [none]) ∧
      session.strings = (sessionArguments (userFile Outside.success.user)).map some ++ [none] :=
  session_agrees .zero (some (ascii "box\n")) List.length_replicate List.length_replicate .success
    (by decide)

end DebianConf.SysLinux
