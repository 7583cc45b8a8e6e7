-- SUMMARY: `home_path`, and `directory_tracker::run` up to the start of the thread: where the database of a tracked directory lies.
import Spacenet.Indexer
import Spacenet.Library.Unicode
import Spacenet.Mkdir
import Spacenet.Path2rel

/-!
# Starting a tracker

`run` puts the databases of all tracked directories into one directory under the
home directory of the user, and makes that directory where it is missing.
-/

namespace Spacenet

open Unicode

def F_OK : Nat := 0
def W_OK : Nat := 2
def ENOENT : U32 := 2
def EACCES : U32 := 13

/-- The user of the process: what `_wgetenv` returns for three variables, and the directories that are granted
to him. -/
structure User where
  homeDrive : Text
  homePath : Text
  userProfile : Text
  granted : List Text → Bool

/-- `_waccess(path, mode)`: `none` for 0, and `errno` for -1. -/
def User.access (user : User) (path : Text) (mode : Nat) : EStateM Error Directories (Option U32) := fun dirs =>
  let dir := directoryOf (pieces path)
  if path = [] ∨ ¬dirs.exist dir then .ok (some ENOENT) dirs
  else if mode = F_OK ∨ user.granted dir then .ok none dirs
  else .ok (some EACCES) dirs

/-- The last character of `home_path`: `pop_back` or `push_back`. -/
def setDelimiter (s : Text) (noBackSlash : Bool) : Text :=
  if noBackSlash then
    if s.getLast? = some '\\' then s.dropLast else s
  else if s.getLast? ≠ some '\\' then s ++ ['\\']
  else s

/-- `home_path`. -/
def homePath (user : User) (noBackSlash : Bool) : EStateM Error Directories Text := do
  let s := user.homeDrive ++ user.homePath
  let s := if (← user.access s (R_OK ||| W_OK ||| X_OK)).isSome then user.userProfile else s
  if (← user.access s (R_OK ||| W_OK ||| X_OK)).isSome then
    throw (.runtimeError "Access denied to user home directory".toList)
  return setDelimiter s noBackSlash

/-- The members that `run` sets. -/
structure Location where
  dbPath : Text
  dbName : WString
  dbPathName : WString

/-- `run`, before it starts the thread. -/
def DirectoryTracker.run (user : User) (tracker : DirectoryTracker) : EStateM Error Directories Location := do
  let dbPath := (← homePath user false) ++ ".spacenet".toList
  let dbName := tracker.dbName
  let dbPathName := utf16 dbPath ++ [delimiterChar] ++ dbName
  if (← user.access dbPath F_OK) = some ENOENT then
    let _ ← mkdir dbPath
  return ⟨dbPath, dbName, dbPathName⟩

end Spacenet
