-- SUMMARY: Finite directory trees and the Windows calls (`FindFirstFileW`, `_waccess`, `_wsopen_s`) that answer from them.
import Spacenet.Sqlite.Tables

/-!
# The file system

A directory tree, and the file system calls of the program as functions of a
path text. A path is resolved component by component, so that the text which the
program builds by joining names leads back to the entry it was built for.
-/

namespace Spacenet

/-! ## What the calls return -/

def ERROR_PATH_NOT_FOUND : U32 := 3
def ERROR_INVALID_HANDLE : U32 := 6
def ERROR_NO_MORE_FILES : U32 := 18
def ERROR_DIRECTORY : U32 := 267

/-- `FILETIME`. -/
structure FileTime where
  dwLowDateTime : U32
  dwHighDateTime : U32
deriving DecidableEq

/-- The members of `WIN32_FIND_DATAW` that `directory_reader::read` uses beside name and kind. -/
structure Stat where
  nFileSizeHigh : U32
  nFileSizeLow : U32
  ftLastAccessTime : FileTime
  ftCreationTime : FileTime
  ftLastWriteTime : FileTime
deriving DecidableEq

/-- `WIN32_FIND_DATAW`. `directory` is the FILE_ATTRIBUTE_DIRECTORY bit. -/
structure FindData where
  cFileName : WString
  directory : Bool
  stat : Stat
deriving DecidableEq

/-- A successful search: the data of `FindFirstFileW`, the data that `FindNextFileW` still has, and
the error with which it ends. -/
structure Listing where
  first : FindData
  rest : List FindData
  endError : U32

/-- What an open file gives to `_read`: the bytes of the successive calls, then 0 or, when reading
fails, -1. -/
structure FileReads where
  chunks : List Blob
  failed : Bool
  nonempty : ∀ chunk ∈ chunks, chunk ≠ []
deriving DecidableEq

/-- The file system as the program sees it. -/
structure Disk where
  /-- `FindFirstFileW((path + L"\\*").c_str(), &fdw)`. -/
  findFirst : WString → Except U32 Listing
  /-- `_waccess(path, mode)`. -/
  access : WString → Nat → Int
  /-- `_wsopen_s(&in, path, ...)`, `none` when it returns an error. -/
  sopen : WString → Option FileReads

/-! ## Directory trees -/

structure FileInfo where
  stat : Stat
  accessible : Bool
  content : Option FileReads
deriving DecidableEq

/-- `openError` is the error of `FindFirstFileW` on the directory, `endError` the one that
`FindNextFileW` gives behind the last entry. -/
structure DirInfo where
  stat : Stat
  dotdotStat : Stat
  accessible : Bool
  openError : Option U32
  endError : U32
deriving DecidableEq

/-- The entries of a directory in listing order: the first entry, its content when it is a
directory, and the entries behind it. -/
inductive Forest where
  | nil
  | file (name : WString) (info : FileInfo) (rest : Forest)
  | dir (name : WString) (info : DirInfo) (sub : Forest) (rest : Forest)
deriving DecidableEq

/-- A file name: not empty, without a path delimiter, and not one of the two dot names. -/
def ValidName (name : WString) : Prop :=
  name ≠ [] ∧ delimiterChar ∉ name ∧ name ≠ (['.'] : WString) ∧ name ≠ (['.', '.'] : WString)

instance (name : WString) : Decidable (ValidName name) := inferInstanceAs (Decidable (_ ∧ _ ∧ _ ∧ _))

namespace Forest

def names : Forest → List WString
  | nil => []
  | file name _ rest => name :: rest.names
  | dir name _ _ rest => name :: rest.names

/-- Every name is valid and no directory has two entries of one name. -/
def Wf : Forest → Prop
  | nil => True
  | file name _ rest => ValidName name ∧ name ∉ rest.names ∧ rest.Wf
  | dir name _ sub rest => ValidName name ∧ name ∉ rest.names ∧ sub.Wf ∧ rest.Wf

instance decidableWf : (f : Forest) → Decidable f.Wf
  | nil => .isTrue trivial
  | file _ _ rest =>
      have := decidableWf rest
      inferInstanceAs (Decidable (_ ∧ _ ∧ _))
  | dir _ _ sub rest =>
      have := decidableWf sub
      have := decidableWf rest
      inferInstanceAs (Decidable (_ ∧ _ ∧ _ ∧ _))

/-- What a search of the directory returns behind the two dot entries. -/
def listing : Forest → List FindData
  | nil => []
  | file name info rest => ⟨name, false, info.stat⟩ :: rest.listing
  | dir name info _ rest => ⟨name, true, info.stat⟩ :: rest.listing

end Forest

/-- A directory tree with its root directory. -/
structure Tree where
  info : DirInfo
  entries : Forest
  wf : entries.Wf

/-! ## Resolving a path -/

inductive Node where
  | file (info : FileInfo)
  | dir (info : DirInfo) (entries : Forest)

def Node.accessible : Node → Bool
  | .file info => info.accessible
  | .dir info _ => info.accessible

def Forest.find : Forest → WString → Option Node
  | nil, _ => none
  | file name info rest, wanted => if name = wanted then some (.file info) else rest.find wanted
  | dir name info sub rest, wanted =>
      if name = wanted then some (.dir info sub) else rest.find wanted

def Node.descend : Node → List WString → Option Node
  | node, [] => some node
  | .file _, _ :: _ => none
  | .dir _ entries, name :: names => (entries.find name).bind (·.descend names)

/-- Resolve the dot components. `..` in the root stays in the root. -/
def resolveDots (components : List WString) : List WString :=
  components.foldl (fun acc (c : WString) =>
    if c = (['.'] : WString) then acc else if c = (['.', '.'] : WString) then acc.dropLast else acc ++ [c]) []

/-- `path_delimiter`. -/
def pathDelimiter : WString := [delimiterChar]

/-- The text of a path with the given components. -/
def joinPath (components : List WString) : WString := pathDelimiter.intercalate components

namespace Tree

variable (root : WString) (t : Tree)

def node : Node := .dir t.info t.entries

/-- The entry of the tree, mounted at `root`, that a path text leads to. -/
def resolve (path : WString) : Option Node :=
  if root.isPrefixOf path then
    match path.drop root.length with
    | [] => some t.node
    | c :: rest =>
        if c = delimiterChar then t.node.descend (resolveDots (rest.splitOn delimiterChar)) else none
  else none

/-- The search of a directory lists `.` and `..` before its entries. -/
def findFirst (path : WString) : Except U32 Listing :=
  match t.resolve root path with
  | none => .error ERROR_PATH_NOT_FOUND
  | some (.file _) => .error ERROR_DIRECTORY
  | some (.dir info entries) =>
      match info.openError with
      | some err => .error err
      | none => .ok {
          first := ⟨['.'], true, info.stat⟩
          rest := ⟨['.', '.'], true, info.dotdotStat⟩ :: entries.listing
          endError := info.endError }

def access (path : WString) (_mode : Nat) : Int :=
  match t.resolve root path with
  | none => -1
  | some node => if node.accessible then 0 else -1

def sopen (path : WString) : Option FileReads :=
  match t.resolve root path with
  | some (.file info) => info.content
  | _ => none

/-- The file system with the tree mounted at `root`. -/
def disk : Disk where
  findFirst := t.findFirst root
  access := t.access root
  sopen := t.sopen root

end Tree

/-! ## Joined paths resolve to the entry they name -/

theorem joinPath_append_name {dir : List WString} (h : dir ≠ []) (name : WString) :
    joinPath (dir ++ [name]) = joinPath dir ++ pathDelimiter ++ name := by
  induction dir with
  | nil => exact absurd rfl h
  | cons c dir ih =>
      cases dir with
      | nil => simp [joinPath, List.intercalate]
      | cons c' dir =>
          have := ih (by simp)
          simp [joinPath, List.intercalate] at this ⊢
          exact this

theorem joinPath_singleton (root : WString) : joinPath [root] = root := List.intercalate_singleton

theorem joinPath_cons_cons (root name : WString) (names : List WString) :
    joinPath (root :: name :: names) = root ++ delimiterChar :: joinPath (name :: names) := by
  simp [joinPath, List.intercalate, pathDelimiter]

theorem resolveDots_valid {names : List WString} (h : ∀ n ∈ names, ValidName n) :
    resolveDots names = names := by
  have key : ∀ acc : List WString, names.foldl (fun acc (c : WString) =>
      if c = (['.'] : WString) then acc else if c = (['.', '.'] : WString) then acc.dropLast else acc ++ [c]) acc
        = acc ++ names := by
    induction names with
    | nil => simp
    | cons n names ih =>
        intro acc
        obtain ⟨-, -, hdot, hdotdot⟩ := h n List.mem_cons_self
        rw [List.foldl_cons, if_neg hdot, if_neg hdotdot,
          ih (fun m hm => h m (List.mem_cons_of_mem _ hm))]
        simp
  exact key []

theorem Tree.resolve_joinPath (root : WString) (t : Tree) {names : List WString}
    (h : ∀ n ∈ names, ValidName n) :
    t.resolve root (joinPath (root :: names)) = t.node.descend names := by
  cases names with
  | nil => simp [resolve, joinPath, List.intercalate, Node.descend]
  | cons name names =>
      have hsplit : (joinPath (name :: names)).splitOn delimiterChar = name :: names :=
        List.splitOn_intercalate delimiterChar (fun n hn => (h n hn).2.1) (by simp)
      rw [joinPath_cons_cons, resolve, if_pos (by simp), List.drop_left]
      simp only [if_true, hsplit, resolveDots_valid h]

theorem joinPath_injective {root : WString} {names names' : List WString}
    (h : ∀ n ∈ names, delimiterChar ∉ n) (h' : ∀ n ∈ names', delimiterChar ∉ n)
    (heq : joinPath (root :: names) = joinPath (root :: names')) : names = names' := by
  cases names with
  | nil =>
      cases names' with
      | nil => rfl
      | cons name' names' =>
          rw [joinPath_cons_cons] at heq
          simp [joinPath, List.intercalate] at heq
  | cons name names =>
      cases names' with
      | nil =>
          rw [joinPath_cons_cons] at heq
          simp [joinPath, List.intercalate] at heq
      | cons name' names' =>
          rw [joinPath_cons_cons, joinPath_cons_cons] at heq
          have hjoin := (List.cons.inj (List.append_cancel_left heq)).2
          rw [← List.splitOn_intercalate delimiterChar h (by simp),
            ← List.splitOn_intercalate delimiterChar h' (by simp)]
          exact congrArg (List.splitOn delimiterChar) hjoin

end Spacenet
