-- SUMMARY: `directory_reader::read` as a step machine over search handles, the explicit stack and the thread's last error.
import Spacenet.Library.Machine
import Spacenet.FileSystem
import Spacenet.Sqlite.Database

/-!
# The directory walk

`directory_reader::read` is one loop with a handle variable and a stack of
half-read directories. It may run forever under some options, so it is modelled
as a step machine: one step is one iteration of the outer `for(;;)` up to its
`do`, or one iteration of the `do ... while`.
-/

namespace Spacenet

/-! ## Search handles -/

/-- A search that `FindFirstFileW` has opened. A handle is the number of its search. -/
structure Search where
  rest : List FindData
  endError : U32
  closes : Nat
  usedAfterClose : Bool

/-- The searches of the process and the thread's last-error register. -/
structure Win32 where
  searches : List Search
  lastError : U32

namespace Win32

/-- `FindFirstFileW`. `none` is INVALID_HANDLE_VALUE. -/
def findFirstFile (disk : Disk) (path : WString) (w : Win32) : Option (Nat × FindData) × Win32 :=
  match disk.findFirst path with
  | .error err => (none, { w with lastError := err })
  | .ok l =>
      (some (w.searches.length, l.first),
        { w with searches := w.searches ++ [⟨l.rest, l.endError, 0, false⟩] })

/-- `FindNextFileW`. `none` is the result 0. -/
def findNextFile (handle : Nat) (w : Win32) : Option FindData × Win32 :=
  match w.searches[handle]? with
  | none => (none, { w with lastError := ERROR_INVALID_HANDLE })
  | some s =>
      if s.closes = 0 then
        match s.rest with
        | [] => (none, { w with lastError := s.endError })
        | fdw :: rest =>
            let s := { s with rest := rest }
            (some fdw, { w with searches := w.searches.set handle s })
      else
        let s := { s with usedAfterClose := true }
        (none, { searches := w.searches.set handle s, lastError := ERROR_INVALID_HANDLE })

/-- `FindClose`. -/
def findClose (handle : Nat) (w : Win32) : Win32 :=
  match w.searches[handle]? with
  | none => w
  | some s =>
      let stale := s.usedAfterClose || s.closes ≠ 0
      let s := { s with closes := s.closes + 1, usedAfterClose := stale }
      { w with searches := w.searches.set handle s }

end Win32

/-! ## directory_reader -/

/-- `directory_reader` without its `manipulator_`. A regular expression is the test of a name that
it makes; `none` is the empty text. -/
structure DirectoryReader where
  path : WString := []
  pathName : WString := []
  name : WString := []
  mask : Option (WString → Bool) := none
  exclude : Option (WString → Bool) := none
  level : Nat := 0
  maxLevel : Nat := 0
  listDot : Bool := false
  listDotdot : Bool := false
  listDirectories : Bool := false
  recursive : Bool := false
  atime : U64 := 0
  ctime : U64 := 0
  mtime : U64 := 0
  atimeNs : U32 := 0
  ctimeNs : U32 := 0
  mtimeNs : U32 := 0
  fsize : U64 := 0
  isDir : Bool := false
  isReg : Bool := false
  isLnk : Bool := false
  abort : Bool := false

/-- `unpack_FILETIME`: the seconds since 1970 and the nanoseconds. -/
def unpackFILETIME (ft : FileTime) : U64 × U32 :=
  let q : U64 := ft.dwHighDateTime ++ ft.dwLowDateTime
  let nsec : U32 := ((q % 10000000) * 100).setWidth 32
  let secsBetweenEpochs : U64 := 11644473600
  (q / 10000000 - secsBetweenEpochs, nsec)

namespace DirectoryReader

/-- The test of an entry's name. An empty mask stands for `.*`, which no name with a line terminator
matches. -/
def matchName (dr : DirectoryReader) (name : WString) : Bool :=
  let isMatch := (dr.mask.getD matchesDotStar) name
  match dr.exclude with
  | some exclude => if isMatch then !exclude name else isMatch
  | none => isMatch

/-- Publish the data of an entry in the members that the callback reads. -/
def publish (dr : DirectoryReader) (fdw : FindData) : DirectoryReader :=
  let (atime, atimeNs) := unpackFILETIME fdw.stat.ftLastAccessTime
  let (ctime, ctimeNs) := unpackFILETIME fdw.stat.ftCreationTime
  let (mtime, mtimeNs) := unpackFILETIME fdw.stat.ftLastWriteTime
  { dr with
    name := fdw.cFileName
    pathName := dr.path ++ pathDelimiter ++ fdw.cFileName
    fsize := fdw.stat.nFileSizeHigh.setWidth 64 <<< 32 ||| fdw.stat.nFileSizeLow.setWidth 64
    isReg := !fdw.directory
    isDir := fdw.directory
    isLnk := false
    atime, atimeNs, ctime, ctimeNs, mtime, mtimeNs }

end DirectoryReader

/-- What the callback shares with the walk beside the members it reads: it may set `abort_`, its
API calls may change the thread's last error, and it has captured state of its own. -/
structure Shared (σ : Type) where
  abort : Bool
  lastError : U32
  user : σ

/-- `manipulator_`. -/
abbrev Manipulator (σ : Type) := DirectoryReader → EStateM Error (Shared σ) Unit

structure StackEntry where
  handle : Nat
  path : WString

structure ReaderState (σ : Type) where
  dr : DirectoryReader
  win : Win32
  stack : List StackEntry
  handle : Option Nat
  user : σ

/-- Where the machine stands: before an iteration of the `for(;;)`, or at the body of the
`do ... while` with the data of an entry. -/
inductive Point where
  | outer
  | inner (fdw : FindData)

abbrev ReadResult (σ : Type) := EStateM.Result Error (ReaderState σ) Unit

/-- `std::runtime_error(str2utf(what))`. -/
def convertedError (what : WString) : Error :=
  match Unicode.ofUtf16 what with
  | some text => .runtimeError text
  | none => badConversion

/-- A wide string literal. -/
def wide (literal : Text) : WString := literal.map cppxU

/-- `std::to_wstring` of an error number. -/
def errText (err : U32) : WString := wide (toString err.toNat).toList

def failedToOpen (path : WString) (err : U32) : Error :=
  convertedError (wide "Failed to open directory: ".toList ++ path ++ wide ", ".toList ++ errText err)

def failedToRead (path : WString) (err : U32) : Error :=
  convertedError (wide "Failed to read directory: ".toList ++ path ++ wide ", ".toList ++ errText err)

namespace ReaderState

variable {σ : Type} (disk : Disk) (manipulator : Option (Manipulator σ))

/-- The outer `at_scope_exit`: close the handles on the stack. -/
def closeStack (st : ReaderState σ) : ReaderState σ :=
  { st with win := st.stack.foldl (fun w e => w.findClose e.handle) st.win, stack := [] }

/-- The inner `at_scope_exit`: close the handle of the iteration. -/
def closeHandle (st : ReaderState σ) : ReaderState σ :=
  match st.handle with
  | none => st
  | some handle => { st with win := st.win.findClose handle }

theorem closeHandle_user (st : ReaderState σ) : st.closeHandle.user = st.user := by
  unfold closeHandle
  split <;> rfl

/-- Leave `read` by `return`. -/
def leave (st : ReaderState σ) : (Point × ReaderState σ) ⊕ ReadResult σ :=
  .inr (.ok () st.closeStack)

/-- Leave `read` by an exception thrown inside the inner scope. -/
def unwind (st : ReaderState σ) (e : Error) : (Point × ReaderState σ) ⊕ ReadResult σ :=
  .inr (.error e st.closeHandle.closeStack)

/-- Behind the `do ... while`. -/
def endOfLoop (st : ReaderState σ) : (Point × ReaderState σ) ⊕ ReadResult σ :=
  if st.handle ≠ none ∧ st.win.lastError ≠ ERROR_NO_MORE_FILES then
    st.unwind (failedToRead st.dr.path st.win.lastError)
  else
    .inl (.outer, st.closeHandle)

/-- `while( FindNextFileW(handle, &fdw) != 0 )`. -/
def next (st : ReaderState σ) : (Point × ReaderState σ) ⊕ ReadResult σ :=
  match st.handle with
  | none => endOfLoop { st with win := { st.win with lastError := ERROR_INVALID_HANDLE } }
  | some handle =>
      match st.win.findNextFile handle with
      | (some fdw, win) => .inl (.inner fdw, { st with win := win })
      | (none, win) => endOfLoop { st with win := win }

/-- The state behind a callback that left `sh`. -/
def afterCall (st : ReaderState σ) (sh : Shared σ) : ReaderState σ :=
  { st with
    dr := { st.dr with abort := sh.abort }
    win := { st.win with lastError := sh.lastError }
    user := sh.user }

/-- `if( manipulator_ ) manipulator_();`, then `k`. -/
def callManipulator (st : ReaderState σ)
    (k : ReaderState σ → (Point × ReaderState σ) ⊕ ReadResult σ) :
    (Point × ReaderState σ) ⊕ ReadResult σ :=
  match manipulator with
  | none => k st
  | some m =>
      match m st.dr ⟨st.dr.abort, st.win.lastError, st.user⟩ with
      | .ok () sh => k (st.afterCall sh)
      | .error e sh => (st.afterCall sh).unwind e

/-- Descend into the directory the entry names, unless the options forbid it. -/
def descend (st : ReaderState σ) : (Point × ReaderState σ) ⊕ ReadResult σ :=
  if st.dr.recursive ∧ (st.dr.maxLevel = 0 ∨ st.stack.length < st.dr.maxLevel) then
    match st.handle with
    | none => st.next
    | some handle =>
        endOfLoop { st with
          stack := ⟨handle, st.dr.path⟩ :: st.stack
          dr := { st.dr with path := st.dr.path ++ pathDelimiter ++ st.dr.name }
          handle := none }
  else st.next

/-- The body of the `do ... while`. -/
def inner (fdw : FindData) (st : ReaderState σ) : (Point × ReaderState σ) ⊕ ReadResult σ :=
  if st.dr.abort then st.endOfLoop
  else if fdw.cFileName = [] then st.next
  else if fdw.cFileName = (['.'] : WString) ∧ ¬st.dr.listDot then st.next
  else if fdw.cFileName = (['.', '.'] : WString) ∧ ¬st.dr.listDotdot then st.next
  else
    let st := { st with dr := st.dr.publish fdw }
    let isMatch := st.dr.matchName fdw.cFileName
    if fdw.directory then
      if st.dr.listDirectories ∧ isMatch then callManipulator manipulator st descend else st.descend
    else
      if isMatch then callManipulator manipulator st next else st.next

/-- `fdw` after `lstrcpyW(fdw.cFileName, L"")`. Nothing reads its other members. -/
def resumed : FindData :=
  ⟨[], false, ⟨0, 0, ⟨0, 0⟩, ⟨0, 0⟩, ⟨0, 0⟩⟩⟩

/-- The head of the `for(;;)`: open the directory `path_`, or resume the one on the stack. -/
def outer (st : ReaderState σ) : (Point × ReaderState σ) ⊕ ReadResult σ :=
  if st.dr.abort then st.leave
  else
    match st.handle with
    | none =>
        let (opened, win) := st.win.findFirstFile disk st.dr.path
        let st := { st with win := win, dr := { st.dr with level := st.stack.length + 1 } }
        match opened with
        | none =>
            if win.lastError = ERROR_PATH_NOT_FOUND then st.leave
            else .inr (.error (failedToOpen st.dr.path win.lastError) st.closeStack)
        | some (handle, fdw) => .inl (.inner fdw, { st with handle := some handle })
    | some _ =>
        match st.stack with
        | [] => st.leave
        | e :: stack =>
            .inl (.inner resumed, { st with
              handle := some e.handle
              stack := stack
              dr := { st.dr with path := e.path, level := stack.length + 1 } })

/-- One step of `read`. -/
def step : Point × ReaderState σ → (Point × ReaderState σ) ⊕ ReadResult σ
  | (.outer, st) => st.outer disk
  | (.inner fdw, st) => st.inner manipulator fdw

end ReaderState

/-- `path_ = root_path` without a delimiter at its end. -/
def rootPath (path : WString) : WString :=
  if path.getLast? = some delimiterChar then path.dropLast else path

/-- The state in which `read` enters its loop. -/
def DirectoryReader.start {σ : Type} (dr : DirectoryReader) (path : WString) (win : Win32) (user : σ) :
    ReaderState σ where
  dr := { dr with path := rootPath path, abort := false }
  win := win
  stack := []
  handle := none
  user := user

/-- `directory_reader::read(root_path)`, for at most `fuel` steps. -/
def DirectoryReader.read {σ : Type} (fuel : Nat) (disk : Disk) (manipulator : Option (Manipulator σ))
    (dr : DirectoryReader) (path : WString) (win : Win32) (user : σ) : Option (ReadResult σ) :=
  Machine.run (ReaderState.step disk manipulator) fuel (.outer, dr.start path win user)

end Spacenet
