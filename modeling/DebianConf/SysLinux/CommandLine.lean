import DebianConf.SysLinux.Quoting
import DebianConf.SysLinux.XServer

/-!
# The command line of the X server

The buffer of 255 bytes is large enough for every host name, so no text is cut off and no size
wraps around, and `split` finds the arguments of the X server in it when the name has no blank.
-/

namespace DebianConf.SysLinux

open DebianConf.Lib DebianConf.Preload

/-! ## Printing into the buffer -/

/-- The text is complete and the place it is printed to is in the buffer. -/
structure Print.Complete (print : Print) : Prop where
  fits : print.text.length < print.size
  inside : print.cptr + print.size < 255

/-- The buffer starts with `text` and all that was printed into it was complete. -/
structure Tmp.Good (tmp : Tmp) (text : List UInt8) : Prop where
  size : tmp.mem.length = 255
  front : ∃ more, tmp.mem = text ++ more
  complete : ∀ print ∈ tmp.prints, print.Complete

theorem remaining_eq {cptr : Nat} (inside : cptr ≤ 254) : remaining cptr = 254 - cptr := by
  unfold remaining
  omega

/-- A text printed at the end of what the buffer holds. -/
theorem Tmp.Good.print {tmp : Tmp} {text : List UInt8} (good : tmp.Good text) (cptr size : Nat)
    (format : String) (args : List FormatArg) (at_end : text.length = cptr)
    (room : size = 254 - cptr) (no_nul : (0 : UInt8) ∉ text)
    (format_no_nul : (0 : UInt8) ∉ ascii format)
    (args_no_nul : ∀ arg ∈ args, (0 : UInt8) ∉ arg.text)
    (fits : cptr + ((ascii format).length + (args.map fun arg => arg.text.length).sum) < 254) :
    ∃ tmp', tmp.print cptr size format args =
        some (tmp', (formatText (ascii format) args).length) ∧
      tmp'.Good (text ++ formatText (ascii format) args) ∧
      Holds tmp'.mem (text ++ formatText (ascii format) args) := by
  have short := formatText_length_le (ascii format) args
  have added_no_nul := formatText_no_nul format_no_nul args_no_nul
  generalize formatted : formatText (ascii format) args = added at short added_no_nul ⊢
  obtain ⟨size_eq, ⟨more, shape⟩, complete⟩ := good
  have length := congrArg List.length shape
  rw [size_eq, List.length_append, at_end] at length
  have printed : snprintf (text ++ more) cptr size added =
      some (text ++ (added ++ 0 :: more.drop (added.length + 1)), added.length) :=
    snprintf_fits at_end (by omega) (by omega)
  refine ⟨_, by rw [Tmp.print, formatted, shape, printed]; rfl, ⟨?_, ?_, ?_⟩, ?_, ?_⟩
  · simp
    omega
  · exact ⟨_, (List.append_assoc _ _ _).symm⟩
  · intro print member
    rcases List.mem_append.mp member with earlier | last
    · exact complete print earlier
    · rw [List.mem_singleton.mp last]
      exact ⟨by dsimp only; omega, by dsimp only; omega⟩
  · exact List.not_mem_append no_nul added_no_nul
  · exact ⟨_, (List.append_assoc _ _ _).symm⟩

/-- The arguments of a launch as C strings, with `none` for the null pointer. -/
def Launch.strings (launch : Launch) : List (Option (List UInt8)) :=
  launch.argv.map fun arg => arg.map (cstr launch.mem)

theorem execute_splits {mem text final : List UInt8} {args : List Argument} (holds : Holds mem text)
    (splits : Splits 0 text args final) (wait fork : Bool) :
    ∃ launch, execute mem wait fork = some launch ∧ launch.wait = wait ∧ launch.nofork = !fork ∧
      launch.mem.length = mem.length ∧
      launch.strings = (args.map Argument.text).map some ++ [none] := by
  obtain ⟨no_nul, more, rfl⟩ := holds
  refine ⟨_, by rw [execute, splits.split no_nul more]; rfl, rfl, rfl, ?_, ?_⟩
  · simp [splits.length]
  · have texts := List.map_congr_left (splits.cstr no_nul more)
    simp [Launch.strings, ← texts]

theorem Tmp.Good.execute {tmp : Tmp} {front text : List UInt8} (good : tmp.Good front)
    (holds : Holds tmp.mem text) (wait fork : Bool) : ∃ tmp' launch,
      tmp.execute wait fork = some (tmp', launch) ∧ tmp'.Good [] ∧
        SysLinux.execute tmp.mem wait fork = some launch := by
  obtain ⟨args, final, splits⟩ := splits_exist 0 text
  obtain ⟨launch, executed, -, -, length, -⟩ := execute_splits holds splits wait fork
  refine ⟨_, launch, by rw [Tmp.execute, executed]; rfl, ?_, executed⟩
  exact ⟨length.trans good.size, ⟨launch.mem, rfl⟩, good.complete⟩

theorem Tmp.Good.restart {tmp : Tmp} {text : List UInt8} (good : tmp.Good text) : tmp.Good [] :=
  ⟨good.size, ⟨tmp.mem, rfl⟩, good.complete⟩

theorem printSigned_one : printSigned xDisplayId = [49] :=
  printSigned_digit (by omega : 1 < 10)

theorem printSigned_eight : printSigned xVtId = [56] :=
  printSigned_digit (by omega : 8 < 10)

/-! ## The commands -/

/-- The command line of `xauth`. -/
def xauthText (file cookie : List UInt8) : List UInt8 :=
  ascii "/usr/bin/xauth -q -f " ++ (file ++ (ascii " add :1 . " ++ cookie))

theorem format_xauth (file cookie : List UInt8) :
    formatText (ascii "/usr/bin/xauth -q -f %s add :%d . %s")
        [.s file, .d xDisplayId, .s cookie] = xauthText file cookie := by
  have formatted : formatText (ascii "/usr/bin/xauth -q -f %s add :%d . %s")
      [.s file, .d xDisplayId, .s cookie] = ascii "/usr/bin/xauth -q -f " ++
        (file ++ (ascii " add :" ++ (printSigned xDisplayId ++ (ascii " . " ++ (cookie ++ []))))) :=
    rfl
  rw [formatted, printSigned_one, List.append_nil]
  rfl

/-- `launch` is what becomes of the command line `text` when it is executed and waited for. -/
def Runs (text : List UInt8) (launch : Launch) : Prop :=
  ∃ mem, Holds mem text ∧ execute mem true true = some launch

theorem xauth_good {tmp : Tmp} {front file cookie : List UInt8} (good : tmp.Good front)
    (file_no_nul : (0 : UInt8) ∉ file) (cookie_no_nul : (0 : UInt8) ∉ cookie)
    (file_length : file.length ≤ 24) (cookie_length : cookie.length ≤ 39) :
    ∃ tmp' launch, xauth tmp file cookie = some (tmp', launch) ∧ tmp'.Good [] ∧
      Runs (xauthText file cookie) launch := by
  have format_length : (ascii "/usr/bin/xauth -q -f %s add :%d . %s").length = 36 := rfl
  obtain ⟨tmp₁, printed, good₁, holds⟩ := good.restart.print 0 (255 - 1)
    "/usr/bin/xauth -q -f %s add :%d . %s" [.s file, .d xDisplayId, .s cookie]
    List.length_nil rfl List.not_mem_nil (by decide)
    (by simp [file_no_nul, cookie_no_nul, printSigned_one])
    (by simp [printSigned_one, format_length]; omega)
  obtain ⟨tmp₂, launch, executed, good₂, launched⟩ := good₁.execute holds true true
  rw [format_xauth, List.nil_append] at holds
  refine ⟨tmp₂, launch, ?_, good₂, tmp₁.mem, holds, launched⟩
  simp only [xauth, printed, Option.bind_eq_bind, Option.bind_some, executed]

/-- The configuration file for a host. -/
def confFile (host : List UInt8) : List UInt8 := ascii "/etc/X11/xorg.conf." ++ host

/-- The option `-config` of the command line. -/
def configText (config : Bool) (host : List UInt8) : List UInt8 :=
  if config then ascii " -config " ++ confFile host else []

/-- The command line of the X server. -/
def xText (config : Bool) (host server : List UInt8) : List UInt8 :=
  ascii "/usr/bin/X :1 " ++ (configText config host ++
    (ascii "  -audit 0 -logfile /dev/kmsg -nolisten tcp -auth " ++ (server ++ ascii " vt08")))

theorem format_probe (host : List UInt8) :
    formatText (ascii "/etc/X11/xorg.conf.%s") [.s host] = confFile host := by
  have formatted : formatText (ascii "/etc/X11/xorg.conf.%s") [.s host] =
      ascii "/etc/X11/xorg.conf." ++ (host ++ []) := rfl
  rw [formatted, List.append_nil, confFile]

theorem format_display : formatText (ascii "/usr/bin/X :%d ") [.d xDisplayId] =
    ascii "/usr/bin/X :1 " := by
  have formatted : formatText (ascii "/usr/bin/X :%d ") [.d xDisplayId] =
      ascii "/usr/bin/X :" ++ (printSigned xDisplayId ++ ascii " ") := rfl
  rw [formatted, printSigned_one]
  rfl

theorem format_config (host : List UInt8) :
    formatText (ascii " -config /etc/X11/xorg.conf.%s") [.s host] =
      ascii " -config " ++ confFile host := by
  have formatted : formatText (ascii " -config /etc/X11/xorg.conf.%s") [.s host] =
      ascii " -config " ++ (ascii "/etc/X11/xorg.conf." ++ (host ++ [])) := rfl
  rw [formatted, List.append_nil, confFile]

theorem format_options (server : List UInt8) :
    formatText (ascii "  -audit 0 -logfile /dev/kmsg -nolisten tcp -auth %s vt0%d")
        [.s server, .d xVtId] =
      ascii "  -audit 0 -logfile /dev/kmsg -nolisten tcp -auth " ++ (server ++ ascii " vt08") := by
  have formatted :
      formatText (ascii "  -audit 0 -logfile /dev/kmsg -nolisten tcp -auth %s vt0%d")
          [.s server, .d xVtId] =
        ascii "  -audit 0 -logfile /dev/kmsg -nolisten tcp -auth " ++
          (server ++ (ascii " vt0" ++ (printSigned xVtId ++ []))) := rfl
  rw [formatted, printSigned_eight]
  rfl

theorem printConfig_good {tmp : Tmp} {text host : List UInt8} {cptr : Nat} (good : tmp.Good text)
    (at_end : text.length = cptr) (early : cptr = 14) (no_nul : (0 : UInt8) ∉ text)
    (host_no_nul : (0 : UInt8) ∉ host) (host_length : host.length ≤ 99) (r : Int) :
    ∃ tmp', printConfig tmp cptr host r =
        some (tmp', cptr + (configText (r = 0) host).length) ∧
      tmp'.Good (text ++ configText (r = 0) host) := by
  by_cases found : r = 0
  · have format_length : (ascii " -config /etc/X11/xorg.conf.%s").length = 30 := rfl
    obtain ⟨tmp', printed, good', -⟩ := good.print cptr (remaining cptr)
      " -config /etc/X11/xorg.conf.%s" [.s host] at_end (remaining_eq (by omega)) no_nul
      (by decide) (by simp [host_no_nul]) (by simp [format_length]; omega)
    rw [format_config] at printed good'
    refine ⟨tmp', ?_, by simpa [configText, found] using good'⟩
    simp only [printConfig, if_pos found, printed, Option.bind_eq_bind, Option.bind_some]
    simp [configText, found]
  · refine ⟨tmp, ?_, by simpa [configText, found] using good⟩
    simp [printConfig, configText, found]

theorem configText_length_le {host : List UInt8} (host_length : host.length ≤ 99)
    (config : Bool) : (configText config host).length ≤ 127 := by
  unfold configText
  split
  · have option_length : (ascii " -config ").length = 9 := rfl
    have path_length : (ascii "/etc/X11/xorg.conf.").length = 19 := rfl
    rw [confFile, List.length_append, List.length_append]
    omega
  · exact Nat.zero_le _

theorem configText_no_nul {host : List UInt8} (host_no_nul : (0 : UInt8) ∉ host)
    (config : Bool) : (0 : UInt8) ∉ configText config host := by
  have path : (0 : UInt8) ∉ confFile host := List.not_mem_append (by decide) host_no_nul
  unfold configText
  split
  · exact List.not_mem_append (by decide) path
  · exact List.not_mem_nil

/-- The buffer is large enough for every host name: the pieces have at most 14, 127 and 79 bytes. -/
theorem xCommand_good {tmp : Tmp} {front host server : List UInt8} (good : tmp.Good front)
    (host_no_nul : (0 : UInt8) ∉ host) (host_length : host.length ≤ 99)
    (server_no_nul : (0 : UInt8) ∉ server) (server_length : server.length ≤ 24)
    (access : List UInt8 → Int) :
    ∃ tmp' mem command, xCommand tmp host server access = some (tmp', command) ∧
      tmp'.Good [] ∧ command.probed = confFile host ∧
      Holds mem (xText (access (confFile host) = 0) host server) ∧
      execute mem false false = some command.launch := by
  have probe_length : (ascii "/etc/X11/xorg.conf.%s").length = 21 := rfl
  have display_length : (ascii "/usr/bin/X :%d ").length = 15 := rfl
  have options_length :
      (ascii "  -audit 0 -logfile /dev/kmsg -nolisten tcp -auth %s vt0%d").length = 58 := rfl
  have start_length : (ascii "/usr/bin/X :1 ").length = 14 := rfl
  obtain ⟨tmp₁, probe, good₁, holds₁⟩ := good.restart.print 0 (255 - 1) "/etc/X11/xorg.conf.%s"
    [.s host] List.length_nil rfl List.not_mem_nil (by decide) (by simp [host_no_nul])
    (by simp [probe_length]; omega)
  rw [format_probe, List.nil_append] at holds₁
  obtain ⟨tmp₂, display, good₂, holds₂⟩ := good₁.restart.print 0 (remaining 0) "/usr/bin/X :%d "
    [.d xDisplayId] List.length_nil (remaining_eq (by omega)) List.not_mem_nil (by decide)
    (by simp [printSigned_one]) (by simp [printSigned_one, display_length])
  rw [format_display, List.nil_append] at good₂ holds₂
  rw [format_display] at display
  obtain ⟨tmp₃, config, good₃⟩ := printConfig_good good₂ (Nat.zero_add _).symm (by omega)
    holds₂.no_nul host_no_nul host_length (access (confFile host))
  have config_length := configText_length_le host_length (access (confFile host) = 0)
  have config_no_nul := configText_no_nul host_no_nul (access (confFile host) = 0)
  generalize piece : configText (access (confFile host) = 0) host = option
    at config good₃ config_length config_no_nul
  obtain ⟨tmp₄, options, good₄, holds₄⟩ := good₃.print (0 + (ascii "/usr/bin/X :1 ").length +
      option.length) (remaining (0 + (ascii "/usr/bin/X :1 ").length + option.length))
    "  -audit 0 -logfile /dev/kmsg -nolisten tcp -auth %s vt0%d" [.s server, .d xVtId]
    (by simp) (remaining_eq (by omega))
    (List.not_mem_append holds₂.no_nul config_no_nul) (by decide)
    (by simp [server_no_nul, printSigned_eight])
    (by simp [printSigned_eight, options_length]; omega)
  rw [format_options] at holds₄
  obtain ⟨tmp₅, launch, executed, good₅, launched⟩ := good₄.execute holds₄ false false
  refine ⟨tmp₅, tmp₄.mem, ⟨confFile host, launch⟩, ?_, good₅, rfl, ?_, launched⟩
  · simp only [xCommand, probe, holds₁.loadString, display, config, options, executed,
      Option.bind_eq_bind, Option.bind_some]
    rfl
  · rw [xText, piece, ← List.append_assoc]
    exact holds₄

/-! ## The files and the cookie -/

theorem Suffix.not_mem (suffix : Suffix) {b : UInt8} (other : isAlnum b = false) :
    b ∉ suffix.bytes := by
  intro member
  rw [suffix.alnum b member] at other
  cases other

theorem mkstemp_eq {front : List UInt8} (no_nul : (0 : UInt8) ∉ front) (suffix : Suffix) :
    ∃ file, mkstemp (front ++ ascii "XXXXXX" ++ [0]) suffix = some file ∧
      Holds file (front ++ suffix.bytes) := by
  have holds : Holds (front ++ ascii "XXXXXX" ++ [0]) (front ++ ascii "XXXXXX") :=
    ⟨List.not_mem_append no_nul (by decide), [], rfl⟩
  have at_end : front.length = (front ++ ascii "XXXXXX").length - 6 := by
    rw [List.length_append]
    exact (Nat.add_sub_cancel _ 6).symm
  have stored : storeAll (front ++ (ascii "XXXXXX" ++ [0])) _ suffix.bytes = _ :=
    storeAll_front at_end (by rw [suffix.length]; decide)
  rw [suffix.length] at stored
  refine ⟨front ++ (suffix.bytes ++ [0]), ?_, ?_, [], (List.append_assoc _ _ _).symm⟩
  · rw [mkstemp, holds.loadString, List.append_assoc]
    exact stored
  · exact List.not_mem_append no_nul (suffix.not_mem rfl)

theorem readCookie_eq {rest : List UInt8} (size : rest.length = 39) (output : List UInt8) :
    ∃ mcookie, readCookie (0 :: rest) output = some mcookie ∧
      Holds mcookie (upToNul (output.take (40 - 1))) := by
  cases taken : output.take (40 - 1) with
  | nil =>
    refine ⟨0 :: rest, ?_, List.not_mem_nil, rest, rfl⟩
    have nothing : storeAll (0 :: rest) 0 [] = some (0 :: rest) :=
      storeAll_front List.length_nil (Nat.zero_le _)
    simp only [readCookie, taken, nothing]
    rfl
  | cons b got =>
    have short := congrArg List.length taken
    rw [List.length_take] at short
    -- there is room for the NUL after the last byte that is read
    obtain ⟨x, back, beyond⟩ : ∃ x back, (0 :: rest).drop (b :: got).length = x :: back := by
      apply List.exists_cons_of_length_pos
      rw [List.length_drop, List.length_cons, size]
      omega
    have stored : storeAll (0 :: rest) 0 (b :: got) = some ((b :: got) ++ x :: back) := by
      rw [← beyond]
      exact storeAll_front List.length_nil (by simp only [List.length_cons] at short ⊢; omega)
    refine ⟨(b :: got) ++ 0 :: back, ?_, holds_upToNul (b :: got) back⟩
    simp only [readCookie, taken, stored, Option.bind_eq_bind, Option.bind_some]
    rw [if_pos (by simp), store_middle]

/-- The name of the server's auth file. -/
def serverFile (suffix : Suffix) : List UInt8 := ascii "/tmp/.server.auth." ++ suffix.bytes

/-- The name of the user's auth file. -/
def userFile (suffix : Suffix) : List UInt8 := ascii "/tmp/.user.auth." ++ suffix.bytes

/-- What is in `mcookie` when `/usr/bin/mcookie` has written `output`. -/
def cookieText (output : List UInt8) : List UInt8 := upToNul (output.take (40 - 1))

theorem serverFile_length (suffix : Suffix) : (serverFile suffix).length = 24 := by
  rw [serverFile, List.length_append, suffix.length]
  rfl

theorem userFile_length (suffix : Suffix) : (userFile suffix).length = 22 := by
  rw [userFile, List.length_append, suffix.length]
  rfl

theorem cookieText_length (output : List UInt8) : (cookieText output).length ≤ 39 := by
  have shorter := (List.takeWhile_prefix (fun b => b != 0) (l := output.take (40 - 1))).length_le
  exact shorter.trans (by rw [List.length_take]; exact Nat.min_le_left _ _)

/-- `startXserver` after `hostname`, on memory that is not initialised: every text is complete, both
calls of `xauth` are made with their file and the cookie, and unless `chown` fails the last text is
executed. -/
theorem startXserver_good {s : Members} {host name tmpStr : List UInt8} (fresh : s.Fresh)
    (holds : Holds host name) (name_length : name.length ≤ 99) (tmp_size : tmpStr.length = 255)
    (out : Outside) :
    ∃ run, startXserver { s with host := host } tmpStr out = some run ∧
      (∀ print ∈ run.prints, print.Complete) ∧
      Holds run.members.usrAuthFile (userFile out.user) ∧
      List.Forall₂ (fun file launch => Runs (xauthText file (cookieText out.cookie)) launch)
        [serverFile out.server, userFile out.user] run.xauth ∧
      (out.chown = -1 → run.command = none) ∧
      (out.chown ≠ -1 → ∃ command mem, run.command = some command ∧
        command.probed = confFile name ∧
        Holds mem (xText (out.access (confFile name) = 0) name (serverFile out.server)) ∧
        execute mem false false = some command.launch) := by
  obtain ⟨srvAuthFile, made, server⟩ :=
    mkstemp_eq (by decide : (0 : UInt8) ∉ ascii "/tmp/.server.auth.") out.server
  have srv_made : mkstemp s.srvAuthFile out.server = some srvAuthFile :=
    fresh.srvAuthFile ▸ made
  obtain ⟨usrAuthFile, made, user⟩ :=
    mkstemp_eq (by decide : (0 : UInt8) ∉ ascii "/tmp/.user.auth.") out.user
  have usr_made : mkstemp s.usrAuthFile out.user = some usrAuthFile :=
    fresh.usrAuthFile ▸ made
  obtain ⟨rest, mcookie, rest_length⟩ := fresh.mcookie
  obtain ⟨cookies, read, cookie_holds⟩ := readCookie_eq rest_length out.cookie
  have cookie_length := cookieText_length out.cookie
  have server_length := serverFile_length out.server
  have user_length := userFile_length out.user
  have start : Tmp.Good ⟨tmpStr, []⟩ [] := ⟨tmp_size, ⟨tmpStr, rfl⟩, by simp⟩
  obtain ⟨tmp₁, serverAuth, xauth₁, good₁, runs₁⟩ := xauth_good start server.no_nul
    cookie_holds.no_nul (le_of_eq server_length) cookie_length
  obtain ⟨tmp₂, clientAuth, xauth₂, good₂, runs₂⟩ := xauth_good good₁ user.no_nul
    cookie_holds.no_nul (user_length.trans_le (by omega)) cookie_length
  have both : List.Forall₂ (fun file launch => Runs (xauthText file (cookieText out.cookie)) launch)
      [serverFile out.server, userFile out.user] [serverAuth, clientAuth] :=
    .cons runs₁ (.cons runs₂ .nil)
  by_cases failed : out.chown = -1
  · refine ⟨⟨⟨host, srvAuthFile, usrAuthFile, cookies⟩, tmp₂.prints, [serverAuth, clientAuth],
      none⟩, ?_, good₂.complete, user, both, fun _ => rfl, fun succeeded => absurd failed succeeded⟩
    simp only [startXserver, srv_made, usr_made, mcookie, read, server.loadString,
      user.loadString, cookie_holds.loadString, xauth₁, xauth₂, Option.bind_eq_bind,
      Option.bind_some, if_pos failed]
    rfl
  · obtain ⟨tmp₃, mem, command, run, good₃, probed, text, executed⟩ := xCommand_good good₂
      holds.no_nul name_length server.no_nul (le_of_eq server_length) out.access
    refine ⟨⟨⟨host, srvAuthFile, usrAuthFile, cookies⟩, tmp₃.prints, [serverAuth, clientAuth],
      some command⟩, ?_, good₃.complete, user, both, fun fails => absurd fails failed,
      fun _ => ⟨command, mem, rfl, probed, text, executed⟩⟩
    simp only [startXserver, srv_made, usr_made, mcookie, read, server.loadString,
      user.loadString, cookie_holds.loadString, xauth₁, xauth₂, Option.bind_eq_bind,
      Option.bind_some, if_neg failed, holds.loadString, run]
    rfl

/-! ## What `split` makes of the command line -/

/-- The arguments of the X server. -/
def xArguments (config : Bool) (host server : List UInt8) : List (List UInt8) :=
  [ascii "/usr/bin/X", ascii ":1"] ++
    ((if config then [ascii "-config", confFile host] else []) ++
      [ascii "-audit", ascii "0", ascii "-logfile", ascii "/dev/kmsg", ascii "-nolisten",
        ascii "tcp", ascii "-auth", server, ascii "vt08"])

theorem confFile_bare {host : List UInt8} (no_blank : (32 : UInt8) ∉ host) :
    Bare (confFile host) :=
  Bare.append (by decide) no_blank

theorem serverFile_bare (suffix : Suffix) : Bare (serverFile suffix) :=
  Bare.append (by decide) (suffix.not_mem rfl)

theorem xText_spells {host server : List UInt8} (host_bare : Bare (confFile host))
    (server_bare : Bare server) (config : Bool) :
    Spells (xText config host server) (xArguments config host server) := by
  have last : Spells (ascii "vt08") [ascii "vt08"] := Bare.spells (by decide)
  have options := (server_bare.spells_cons last).words [ascii "-audit", ascii "0",
    ascii "-logfile", ascii "/dev/kmsg", ascii "-nolisten", ascii "tcp", ascii "-auth"] (by decide)
  have front : ∀ {line texts}, Spells line texts → Spells (ascii "/usr/bin/X :1 " ++ line)
      ([ascii "/usr/bin/X", ascii ":1"] ++ texts) := fun rest =>
    rest.words [ascii "/usr/bin/X", ascii ":1"] (by decide)
  cases config with
  | false => exact front options.blank.blank
  | true =>
    have option := (host_bare.spells_cons options.blank).words [ascii "-config"] (by decide)
    exact front option.blank

theorem Spells.execute {mem line : List UInt8} {texts : List (List UInt8)}
    (spells : Spells line texts) (holds : Holds mem line) (wait fork : Bool) :
    ∃ launch, execute mem wait fork = some launch ∧ launch.strings = texts.map some ++ [none] := by
  obtain ⟨words, joins, rfl⟩ := spells
  obtain ⟨args, final, splits, texts⟩ := joins.splits 0
  obtain ⟨launch, executed, -, -, -, strings⟩ := execute_splits holds splits wait fork
  exact ⟨launch, executed, texts ▸ strings⟩

/-- `hostname` and `startXserver`, from the constructor on. -/
theorem startXserver_spec (storage : Storage) (file : Option (List UInt8)) {tmpStr : List UInt8}
    (tmp_size : tmpStr.length = 255) (out : Outside) :
    ∃ s s' run, construct storage = some s ∧ hostname s file = some (s', givenName file) ∧
      startXserver s' tmpStr out = some run ∧ (∀ print ∈ run.prints, print.Complete) ∧
      (out.chown = -1 → run.command = none) ∧
      (out.chown ≠ -1 → ∃ command mem, run.command = some command ∧
        command.probed = confFile (givenName file) ∧
        Holds mem (xText (out.access (confFile (givenName file)) = 0) (givenName file)
          (serverFile out.server)) ∧
        execute mem false false = some command.launch) := by
  obtain ⟨s, constructed, fresh⟩ := construct_fresh storage
  obtain ⟨host, named, holds⟩ := hostname_spec fresh file
  obtain ⟨run, ran, complete, -, -, command⟩ :=
    startXserver_good fresh holds (givenName_length file) tmp_size out
  exact ⟨s, _, run, constructed, named, ran, complete, command⟩

/-- For every content of `/etc/hostname`, also a missing file, and every answer of `access`: no
access is out of bounds, every text is complete and printed with a size that is larger and inside
`tmp_str`, and unless `chown` fails the X server gets exactly its arguments when the host name has
no blank. -/
theorem x_server_command (storage : Storage) (file : Option (List UInt8)) (tmpStr : List UInt8)
    (tmp_size : tmpStr.length = 255) (out : Outside) :
    ∃ s s' name run, construct storage = some s ∧ hostname s file = some (s', name) ∧
      startXserver s' tmpStr out = some run ∧
      (∀ print ∈ run.prints, 0 < print.size ∧ print.text.length < print.size ∧
        print.cptr + print.size < 255) ∧
      (out.chown ≠ -1 → ∃ command, run.command = some command ∧
        ((32 : UInt8) ∉ name → command.launch.strings =
          (xArguments (out.access (confFile name) = 0) name (serverFile out.server)).map some ++
            [none])) := by
  obtain ⟨s, s', run, constructed, named, ran, complete, -, command⟩ :=
    startXserver_spec storage file tmp_size out
  refine ⟨s, s', _, run, constructed, named, ran, fun print member => ?_, fun succeeded => ?_⟩
  · obtain ⟨fits, inside⟩ := complete print member
    exact ⟨by omega, fits, inside⟩
  · obtain ⟨command, mem, some_command, -, text, executed⟩ := command succeeded
    refine ⟨command, some_command, fun no_blank => ?_⟩
    have spells := xText_spells (confFile_bare no_blank) (serverFile_bare out.server)
      (out.access (confFile (givenName file)) = 0)
    obtain ⟨launch, executed', strings⟩ := spells.execute text false false
    rw [executed] at executed'
    cases executed'
    exact strings

/-- The auth files are made and the configuration file is found. -/
def Outside.success : Outside :=
  ⟨⟨ascii "abcdef", rfl, List.all_eq_true.mp rfl⟩,
    ⟨ascii "ghijkl", rfl, List.all_eq_true.mp rfl⟩, ascii "c0ffee\n", 0, fun _ => 0⟩

theorem x_server_command_box : ∃ s' run command,
    startXserver s' (List.replicate 255 0) .success = some run ∧ run.command = some command ∧
      command.launch.strings = (xArguments true (ascii "box")
        (ascii "/tmp/.server.auth.abcdef")).map some ++ [none] := by
  obtain ⟨s, s', name, run, constructed, named, ran, -, command⟩ :=
    x_server_command .zero (some (ascii "box\n")) (List.replicate 255 0) List.length_replicate
      .success
  obtain ⟨fresh, same, is_fresh⟩ := construct_fresh .zero
  rw [constructed] at same
  cases same
  obtain ⟨host, given, -⟩ := hostname_spec is_fresh (some (ascii "box\n"))
  rw [named] at given
  have box : name = ascii "box" := congrArg Prod.snd (Option.some.inj given)
  obtain ⟨command, launched, strings⟩ := command (by decide)
  exact ⟨s', run, command, ran, launched, box ▸ strings (box ▸ by decide)⟩

end DebianConf.SysLinux
