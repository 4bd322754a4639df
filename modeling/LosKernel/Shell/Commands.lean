import LosKernel.Fs.Calls
import LosKernel.Lib.System

/-!
# Commands of the shell

After `shell/buildin_cmd.c` and the loop of `shell/shell.c`, for the commands on directories; the
line is already split into a command and its arguments, and messages are left out. Paths are kept
in buffers of `MAX_PATH_LEN` bytes, the directory in the prompt in `cwd_cache`, which has 64
bytes.
-/

namespace LosKernel

open Prog

/-! ## Cleaning a path -/

/-- Cut the last component off a path, but leave the slash of the root. -/
def dropLastName (path : CStr) : CStr :=
  let front := ((path.reverse.dropWhile (· != slash)).drop 1).reverse
  if front = [] then [slash] else front

/-- What a round of `wash_path` makes of the path cleaned so far. -/
def washName (newAbsPath name : CStr) : CStr :=
  if name = dotdotName then dropLastName newAbsPath
  else if name = dotName then newAbsPath
  else (if newAbsPath = [slash] then newAbsPath else newAbsPath ++ [slash]) ++ name

/-- The loop of `wash_path`. `name` is the component to add, `subPath` the rest of the path. The
buffer takes `room` bytes of a component and a zero. -/
def washLoop (room : Nat) : Nat → Option CStr → CStr → CStr → Call CStr
  | 0, _, _, _ => halt .hang
  | fuel + 1, subPath, name, newAbsPath => do
    access (name.length < room + 1)
    if name = [] then pure newAbsPath
    else
      access ((washName newAbsPath name).length < maxPathLen)
      washLoop room fuel (parseNext subPath).1 (parseNext subPath).2 (washName newAbsPath name)

/-- `wash_path` with a buffer for `room` bytes of a component: the path without `.` and `..`. -/
def washPathIn (room : Nat) (oldAbsPath : CStr) : Call CStr := do
  assert (oldAbsPath.head? = some slash)
  washLoop room (oldAbsPath.length + 1) (pathParse oldAbsPath).1 (pathParse oldAbsPath).2 [slash]

/-- `wash_path`. -/
def washPath (oldAbsPath : CStr) : Call CStr := washPathIn (maxFileNameLen - 1) oldAbsPath

/-- `getcwd` into a buffer of `MAX_PATH_LEN` bytes. -/
def getcwd : Call (Option CStr) := sysGetcwd (UInt32.ofNat maxPathLen)

/-- The directory that `make_clear_abs_path` puts in front of a path. -/
def pathStart (path : CStr) : Call CStr :=
  if path.head? = some slash then pure []
  else do
    match ← getcwd with
    | none => pure []
    | some cwd => pure (if cwd = [slash] then cwd else cwd ++ [slash])

/-- `make_clear_abs_path`. -/
def makeClearAbsPath (path : CStr) : Call CStr := do
  let start ← pathStart path
  access ((start ++ path).length < maxPathLen)
  washPath (start ++ path)

/-! ## Commands -/

/-- `buildin_pwd`. -/
def buildinPwd (args : List CStr) : Call Unit :=
  when (args = []) do
    let _ ← getcwd
    pure ()

/-- `buildin_cd`: the new directory, or `none` for `NULL`. -/
def buildinCd (args : List CStr) : Call (Option CStr) :=
  if 1 < args.length then pure none
  else do
    let finalPath ← match args with
      | [] => pure [slash]
      | path :: _ => makeClearAbsPath path
    let r ← sysChdir finalPath
    pure (if r = -1 then none else some finalPath)

/-- A command with one path that calls the kernel unless the path is the root. -/
def pathCommand (call : CStr → Call Int) (args : List CStr) : Call Int :=
  match args with
  | [path] => do
    let finalPath ← makeClearAbsPath path
    if finalPath = [slash] then pure (-1)
    else
      let r ← call finalPath
      pure (if r = 0 then 0 else -1)
  | _ => pure (-1)

/-- `buildin_mkdir`. -/
def buildinMkdir : List CStr → Call Int := pathCommand sysMkdir

/-- `buildin_rmdir`. -/
def buildinRmdir : List CStr → Call Int := pathCommand sysRmdir

/-- `buildin_rm`. -/
def buildinRm : List CStr → Call Int := pathCommand sysUnlink

/-! ## Listing a directory -/

/-- The loop of `buildin_ls` over its arguments: whether `-l` was given, and the path. The result is
`none` when the command ends here. -/
def lsArgs : List CStr → Bool → Option CStr → Option (Bool × Option CStr)
  | [], longInfo, pathname => some (longInfo, pathname)
  | arg :: args, longInfo, pathname =>
    if arg.head? = some 45 then
      if arg = [45, 108] then lsArgs args true pathname else none
    else
      match pathname with
      | none => lsArgs args longInfo (some arg)
      | some _ => none

/-- The loop of `buildin_ls` over the entries of a directory. It returns `false` when the
information about an entry is missing. -/
def listEntries (dir : Ptr) (subPathname : CStr) (longInfo : Bool) : Nat → Call Bool
  | 0 => halt .hang
  | fuel + 1 => do
    match ← sysReaddir dir with
    | none => pure true
    | some (_, filename) =>
      if longInfo then
        access ((subPathname ++ filename).length < maxPathLen)
        match ← sysStat (subPathname ++ filename) with
        | none => pure false
        | some _ => listEntries dir subPathname longInfo fuel
      else listEntries dir subPathname longInfo fuel

/-- The part of `buildin_ls` that lists a directory. A directory has at most 140 blocks of entries.
The directory stays open when the listing ends early. -/
def listDir (pathname : CStr) (longInfo : Bool) : Call Unit := do
  let dir ← sysOpendir pathname
  let subPathname := if pathname.getLast? = some slash then pathname else pathname ++ [slash]
  let dir ← nonNull dir
  sysRewinddir dir
  let s ← state
  let listed ← listEntries dir subPathname longInfo (140 * dirEntrysPerSec s.part.sb + 1)
  when listed do
    let _ ← sysClosedir (some dir)
    pure ()

/-- The path that `buildin_ls` lists, the working directory by default. -/
def lsPath : Option CStr → Call (Option CStr)
  | none => getcwd
  | some path => do
    let finalPath ← makeClearAbsPath path
    pure (some finalPath)

/-- `buildin_ls`. -/
def buildinLs (args : List CStr) : Call Unit :=
  match lsArgs args false none with
  | none => pure ()
  | some (longInfo, arg) => do
    match ← lsPath arg with
    | none => pure ()
    | some pathname =>
      match ← sysStat pathname with
      | none => pure ()
      | some fileStat => when (fileStat.stFiletype = .directory) (listDir pathname longInfo)

/-! ## The shell -/

/-- The commands that work on directories. -/
inductive Buildin where
  | ls
  | cd
  | pwd
  | mkdir
  | rmdir
  | rm
  deriving DecidableEq, Repr

/-- A command and its arguments. -/
structure Cmd where
  name : Buildin
  args : List CStr
  deriving DecidableEq, Repr

/-- The shell: the kernel it runs on and the directory its prompt shows. -/
structure Shell where
  kernel : Kernel
  cwdCache : CStr

/-- The size of `cwd_cache`. -/
def cwdCacheLen : Nat := 64

/-- The work of a command: the path that `cd` returned, if it did. -/
def runBuildin (c : Cmd) : Call (Option CStr) :=
  match c.name with
  | .cd => buildinCd c.args
  | .ls => do
    buildinLs c.args
    pure none
  | .pwd => do
    buildinPwd c.args
    pure none
  | .mkdir => do
    let _ ← buildinMkdir c.args
    pure none
  | .rmdir => do
    let _ ← buildinRmdir c.args
    pure none
  | .rm => do
    let _ ← buildinRm c.args
    pure none

/-- The update of `cwd_cache`: `memset` clears `MAX_PATH_LEN` bytes, then `strcpy` stores the path
and its zero byte. -/
def storeCwdCache (path : CStr) : Prog Stop Shell Unit := do
  Prog.guard (maxPathLen ≤ cwdCacheLen) .badAccess
  Prog.guard (path.length < cwdCacheLen) .badAccess
  update fun sh => { sh with cwdCache := path }

/-- A round of `my_shell`. -/
def execCmd (c : Cmd) : Prog Stop Shell Unit := do
  match ← zoom Shell.kernel (fun s sh => { sh with kernel := s }) (runBuildin c) with
  | none => pure ()
  | some path => storeCwdCache path

/-- `my_shell`, as a system of commands. -/
def myShell : System Stop Shell Cmd where
  Enabled := fun _ _ => True
  exec := execCmd

end LosKernel
