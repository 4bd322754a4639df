import LosKernel.Fs.File

/-!
# Path lookup

After the path functions of `fs/fs.c`. A path is a C string; `pathParse` splits off its first
component. The length of the path bounds the number of rounds of the loops.
-/

namespace LosKernel

/-- `'/'`. -/
def slash : UInt8 := 47

/-- `path_parse`: the rest of the path, `none` for `NULL`, and the first component. -/
def pathParse (pathname : CStr) : Option CStr × CStr :=
  let p := pathname.dropWhile (· == slash)
  let rest := p.dropWhile (· != slash)
  (if rest = [] then none else some rest, p.takeWhile (· != slash))

/-- The next round of a loop over a path: the first component of the rest, if there is a rest. -/
def parseNext : Option CStr → Option CStr × CStr
  | none => (none, [])
  | some p => pathParse p

/-- The loop of `path_depth_cnt`: `name` is the component just split off, `p` the rest. The buffer
for a component takes `room` bytes. -/
def depthLoop (room : Nat) : Nat → Option CStr → CStr → Call Nat
  | 0, _, _ => Prog.halt .hang
  | fuel + 1, p, name => do
    access (name.length ≤ room)
    if name = [] then pure 0
    else
      let depth ← depthLoop room fuel (parseNext p).1 (parseNext p).2
      pure (depth + 1)

/-- `path_depth_cnt` with a buffer for `room` bytes of a component. The buffer is not initialised
before the first component is stored, so a path without components reads an undefined byte. -/
def pathDepthCntIn (room : Nat) (pathname : CStr) : Call Nat := do
  access ((pathParse pathname).2 ≠ [])
  depthLoop room (pathname.length + 1) (pathParse pathname).1 (pathParse pathname).2

/-- `path_depth_cnt`. -/
def pathDepthCnt (pathname : CStr) : Call Nat := pathDepthCntIn maxFileNameLen pathname

/-- `path_search_record`. -/
structure PathSearchRecord where
  searchedPath : CStr
  parentDir : Ptr
  fileType : FileType

/-- The result -1 of `search_file`. -/
def noInode : UInt32 := 0xffffffff

/-- The loop of `search_file`. `name` is the component to look up, `subPath` the rest of the path,
`parentInodeNo` the directory that holds `parentDir`, and `last` the inode of the entry found
last. The buffer takes `room` bytes of a component that is looked up, behind which it needs a zero,
and `spare` bytes of one that is not. -/
def searchLoop (room spare : Nat) : Nat → Option CStr → CStr → CStr → Ptr → UInt32 → UInt32 →
    Call (UInt32 × PathSearchRecord)
  | 0, _, _, _, _, _, _ => Prog.halt .hang
  | fuel + 1, subPath, name, searchedPath, parentDir, parentInodeNo, last => do
    access (name.length < room + 1)
    if name = [] then
      -- the whole path was walked and it names a directory
      dirClose parentDir
      let parentDir ← dirOpen parentInodeNo
      pure (last, ⟨searchedPath, parentDir, .directory⟩)
    else
      assert (searchedPath.length < 512)
      let searchedPath := searchedPath ++ [slash] ++ name
      access (searchedPath.length < maxPathLen)
      match ← searchDirEntry parentDir name with
      | none => pure (noInode, ⟨searchedPath, parentDir, .unknown⟩)
      | some e =>
        let next := parseNext subPath
        if e.fType = FileType.directory.code then
          let inode ← dirInode parentDir
          dirClose parentDir
          let child ← dirOpen e.iNo
          searchLoop room spare fuel next.1 next.2 searchedPath child inode.iNo e.iNo
        else if e.fType = FileType.regular.code then
          access (next.2.length ≤ spare)
          pure (e.iNo, ⟨searchedPath, parentDir, .regular⟩)
        else searchLoop room spare fuel next.1 next.2 searchedPath parentDir parentInodeNo e.iNo

/-- The paths `search_file` answers without a search. -/
def isRootPath (pathname : CStr) : Bool :=
  pathname == [slash] || pathname == slash :: dotName || pathname == slash :: dotdotName

/-- `search_file` with a buffer as in `searchLoop`: the inode found, `noInode` for -1, and the
search record. The inode of a path without components is read from an uninitialised local. -/
def searchFileIn (room spare : Nat) (pathname : CStr) : Call (UInt32 × PathSearchRecord) :=
  if isRootPath pathname then pure (0, ⟨[], rootDir, .directory⟩)
  else do
    assert (pathname.head? = some slash ∧ 1 < pathname.length ∧ pathname.length < maxPathLen)
    let s ← Prog.state
    searchLoop room spare (pathname.length + 1) (pathParse pathname).1 (pathParse pathname).2 []
      rootDir 0 (s.junk s.heap.requests)

/-- `search_file`. -/
def searchFile (pathname : CStr) : Call (UInt32 × PathSearchRecord) :=
  searchFileIn (maxFileNameLen - 1) maxFileNameLen pathname

end LosKernel
