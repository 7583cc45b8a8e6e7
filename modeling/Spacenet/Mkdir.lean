-- SUMMARY: `mkdir` of `indexer.cpp` on a set of existing directories, and what `CreateDirectoryW` does to the set.
import Spacenet.FileSystem
import Spacenet.Library.Program
import Spacenet.Sqlite.Database

/-!
# mkdir

`mkdir` creates a directory with the directories above it that are missing. The
file system is the set of the directories that exist; a path text names one of
them by the pieces between its delimiters.
-/

namespace Spacenet

def ERROR_ALREADY_EXISTS : U32 := 183
def EEXIST : U32 := 17

/-! ## Directories -/

/-- The directory that a piece of a path leads to. A doubled or trailing delimiter leaves an empty
piece; `..` in the root stays in the root. -/
def enter (dir : List Text) (piece : Text) : List Text :=
  if piece = [] ∨ piece = ['.'] then dir
  else if piece = ['.', '.'] then if dir.dropLast = [] then dir else dir.dropLast
  else dir ++ [piece]

/-- The directory that the pieces of a path name, from its first piece on. -/
def directoryOf : List Text → List Text
  | [] => []
  | first :: pieces => pieces.foldl enter [first]

/-- The pieces of a path text. -/
def pieces (path : Text) : List Text := path.splitOn '\\'

/-- The directories that exist. With a directory there is its parent. -/
structure Directories where
  exist : List Text → Bool
  closed : ∀ dir name, dir ≠ [] → exist (dir ++ [name]) → exist dir

/-- A new directory in one that exists. -/
def Directories.add (dirs : Directories) (dir : List Text) (h : dirs.exist dir.dropLast) :
    Directories where
  exist d := dirs.exist d || d == dir
  closed d name hd hmem := by
    rw [Bool.or_eq_true, beq_iff_eq] at hmem
    rw [Bool.or_eq_true]
    rcases hmem with hold | rfl
    · exact .inl (dirs.closed d name hd hold)
    · exact .inl (by simpa using h)

/-- `CreateDirectoryW(path, NULL)`: `none` for TRUE, the last error for FALSE. -/
def createDirectoryW (path : Text) : EStateM Error Directories (Option U32) := fun dirs =>
  let dir := directoryOf (pieces path)
  if dirs.exist dir then .ok (some ERROR_ALREADY_EXISTS) dirs
  else if h : dirs.exist dir.dropLast then .ok none (dirs.add dir h)
  else .ok (some ERROR_PATH_NOT_FOUND) dirs

/-! ## mkdir -/

/-- `rfind` of a character, `none` for `npos`. -/
def rfind (s : Text) (c : Char) : Option Nat :=
  if c ∈ s then some (s.length - 1 - s.reverse.idxOf c) else none

/-- The lambda `make`: its result, and `err`. -/
def make (path : Text) : EStateM Error Directories (Bool × U32) := do
  match ← createDirectoryW path with
  | none => return (false, 0)
  | some lastError =>
      let (r, err) := if lastError = ERROR_ALREADY_EXISTS then (false, EEXIST) else (true, lastError)
      -- an existing directory has become EEXIST here, which is not ERROR_ALREADY_EXISTS
      if err ≠ ERROR_PATH_NOT_FOUND ∧ err ≠ ERROR_ALREADY_EXISTS then
        throw (.runtimeError ("Error create directory, ".toList ++ (Nat.repr err.toNat).toList))
      return (r, err)

theorem rfind_lt {s : Text} {c : Char} {i : Nat} (h : rfind s c = some i) : i < s.length := by
  unfold rfind at h
  split at h
  · have hpos := List.length_pos_of_mem ‹c ∈ s›
    have hi := Option.some.inj h
    omega
  · cases h

/-- `mkdir`. -/
def mkdir (path : Text) : EStateM Error Directories U32 := do
  let (r, err) ← make path
  if r then
    match h : rfind path '\\' with
    | none => throw (.runtimeError "Error create directory".toList)
    | some i =>
        have := rfind_lt h
        let _ ← mkdir (path.take i)
        let (r, err) ← make path
        if r then throw (.runtimeError "Error create directory".toList)
        return err
  else return err
termination_by path.length
decreasing_by
  rw [List.length_take]
  omega

/-! ## Pieces -/

theorem directoryOf_append {names : List Text} (h : names ≠ []) (piece : Text) :
    directoryOf (names ++ [piece]) = enter (directoryOf names) piece := by
  cases names with
  | nil => exact absurd rfl h
  | cons first names => simp [directoryOf]

/-- The path text of its pieces. -/
def joinPieces (names : List Text) : Text := ['\\'].intercalate names

theorem pieces_joinPieces {names : List Text} (h : ∀ n ∈ names, '\\' ∉ n) (hne : names ≠ []) :
    pieces (joinPieces names) = names :=
  List.splitOn_intercalate '\\' h hne

theorem joinPieces_pieces (path : Text) : joinPieces (pieces path) = path :=
  List.intercalate_splitOn '\\'

theorem joinPieces_append {names : List Text} (hne : names ≠ []) (piece : Text) :
    joinPieces (names ++ [piece]) = joinPieces names ++ '\\' :: piece := by
  induction names with
  | nil => exact absurd rfl hne
  | cons first names ih =>
      cases names with
      | nil => simp [joinPieces, List.intercalate]
      | cons second names =>
          have := ih (by simp)
          simp [joinPieces, List.intercalate] at this ⊢
          exact this

theorem notMem_of_mem_pieces {path n : Text} (h : n ∈ pieces path) : '\\' ∉ n := by
  unfold pieces at h
  induction path generalizing n with
  | nil => simp_all
  | cons c path ih =>
      rw [List.splitOn_cons_eq_if_modifyHead] at h
      split at h
      · rcases List.mem_cons.mp h with rfl | h
        · simp
        · exact ih h
      · cases hsplit : path.splitOn '\\' with
        | nil => exact absurd hsplit (List.splitOn_ne_nil _ _)
        | cons first rest =>
            rw [hsplit, List.modifyHead_cons] at h
            rcases List.mem_cons.mp h with rfl | h
            · have hfirst : '\\' ∉ first := ih (by simp [hsplit])
              rw [List.mem_cons]
              rintro (rfl | hmem)
              · simp_all
              · exact hfirst hmem
            · exact ih (by simp [hsplit, h])

theorem rfind_append {s t : Text} {c : Char} (h : c ∉ t) : rfind (s ++ c :: t) c = some s.length := by
  have hindex : (s ++ c :: t).reverse.idxOf c = t.length := by
    rw [List.reverse_append, List.reverse_cons, List.append_assoc,
      List.idxOf_append_of_notMem (by simpa using h)]
    simp
  rw [rfind, if_pos (by simp), hindex]
  simp

/-- A piece that leads into a directory of this name. -/
def ProperName (piece : Text) : Prop := piece ≠ [] ∧ piece ≠ ['.'] ∧ piece ≠ ['.', '.']

instance (piece : Text) : Decidable (ProperName piece) := by
  unfold ProperName
  infer_instance

theorem ProperName.enter_eq {piece : Text} (h : ProperName piece) (dir : List Text) :
    enter dir piece = dir ++ [piece] := by
  rw [enter, if_neg (by simp [h.1, h.2.1]), if_neg h.2.2]

/-- The other pieces lead to the directory itself or to the one above it. -/
theorem enter_prefix_of_not_properName {piece : Text} (h : ¬ ProperName piece) (dir : List Text) :
    enter dir piece <+: dir := by
  unfold enter
  split
  · exact List.prefix_rfl
  · split
    · split
      · exact List.prefix_rfl
      · exact List.dropLast_prefix dir
    · rename_i hname hdots
      exact absurd ⟨fun hnil => hname (.inl hnil), fun hdot => hname (.inr hdot), hdots⟩ h

theorem enter_ne_nil {dir : List Text} (h : dir ≠ []) (piece : Text) : enter dir piece ≠ [] := by
  unfold enter
  split
  · exact h
  · split
    · split
      · exact h
      · assumption
    · simp

theorem directoryOf_ne_nil {names : List Text} (h : names ≠ []) : directoryOf names ≠ [] := by
  induction names using List.reverseRecOn with
  | nil => exact absurd rfl h
  | append_singleton names piece ih =>
      cases names with
      | nil => simp [directoryOf]
      | cons first names =>
          rw [directoryOf_append (by simp)]
          exact enter_ne_nil (ih (by simp)) piece

namespace Directories

variable {dirs : Directories} {dir : List Text}

@[simp] theorem add_exist (h : dirs.exist dir.dropLast) (d : List Text) :
    (dirs.add dir h).exist d ↔ dirs.exist d ∨ d = dir := by
  simp [add]

theorem exist_above {d : List Text} (h : dirs.exist dir) (hpre : d <+: dir) (hd : d ≠ []) :
    dirs.exist d := by
  obtain ⟨rest, rfl⟩ := hpre
  induction rest using List.reverseRecOn with
  | nil => simpa using h
  | append_singleton rest name ih =>
      rw [← List.append_assoc] at h
      exact ih (dirs.closed _ name (by simp [hd]) h)

/-- The directory does not exist and has no parent to make it in. -/
def Missing (dirs : Directories) (dir : List Text) : Prop :=
  ¬ dirs.exist dir ∧ ¬ dirs.exist dir.dropLast

/-- The set of the directories `dirs` with `dir` and the directories above it. -/
def Grown (dirs : Directories) (dir : List Text) (dirs' : Directories) : Prop :=
  ∀ d, dirs'.exist d ↔ dirs.exist d ∨ (d ≠ [] ∧ d <+: dir)

theorem Grown.exist_self {dirs' : Directories} (h : dirs.Grown dir dirs') (hdir : dir ≠ []) :
    dirs'.exist dir :=
  (h dir).mpr (.inr ⟨hdir, List.prefix_rfl⟩)

/-- One new directory in an existing one. -/
theorem grown_add (h : dirs.exist dir.dropLast) (hdir : dir ≠ []) : dirs.Grown dir (dirs.add dir h) := by
  intro d
  rw [add_exist]
  constructor
  · rintro (hold | rfl)
    · exact .inl hold
    · exact .inr ⟨hdir, List.prefix_rfl⟩
  · rintro (hold | ⟨hd, hpre⟩)
    · exact .inl hold
    · rw [← List.dropLast_concat_getLast hdir, List.prefix_concat_iff] at hpre
      rcases hpre with heq | hpre
      · exact .inr (heq.trans (List.dropLast_concat_getLast hdir))
      · exact .inl (exist_above h hpre hd)

/-- A directory in one that has just been made with the directories above it. -/
theorem Grown.add {dirs' : Directories} {name : Text} (h : dirs.Grown dir dirs')
    (hparent : dirs'.exist (dir ++ [name]).dropLast) :
    dirs.Grown (dir ++ [name]) (dirs'.add (dir ++ [name]) hparent) := by
  intro d
  rw [add_exist, h d, List.prefix_concat_iff]
  constructor
  · rintro ((hold | ⟨hd, hpre⟩) | rfl)
    · exact .inl hold
    · exact .inr ⟨hd, .inr hpre⟩
    · exact .inr ⟨by simp, .inl rfl⟩
  · rintro (hold | ⟨hd, rfl | hpre⟩)
    · exact .inl (.inl hold)
    · exact .inr rfl
    · exact .inl (.inr ⟨hd, hpre⟩)

end Directories

/-! ## make -/

section

variable {path : Text} {dir : List Text} {dirs : Directories} (hdir : directoryOf (pieces path) = dir)

/-- The error of `make` on an existing directory. -/
def existsError : Error := .runtimeError "Error create directory, 17".toList

include hdir

theorem make_existing (h : dirs.exist dir) : make path dirs = .error existsError dirs := by
  subst hdir
  have hcreate : createDirectoryW path dirs = .ok (some ERROR_ALREADY_EXISTS) dirs := by
    rw [createDirectoryW, if_pos h]
  simp only [make, bind, EStateM.bind, hcreate]
  rfl

theorem make_new (h : ¬ dirs.exist dir) (hparent : dirs.exist dir.dropLast) :
    make path dirs = .ok (false, 0) (dirs.add dir hparent) := by
  subst hdir
  have hcreate : createDirectoryW path dirs = .ok none (dirs.add _ hparent) := by
    rw [createDirectoryW, if_neg h, dif_pos hparent]
  simp only [make, bind, EStateM.bind, hcreate]
  rfl

theorem make_missing (h : dirs.Missing dir) : make path dirs = .ok (true, ERROR_PATH_NOT_FOUND) dirs := by
  subst hdir
  have hcreate : createDirectoryW path dirs = .ok (some ERROR_PATH_NOT_FOUND) dirs := by
    rw [createDirectoryW, if_neg h.1, dif_neg h.2]
  simp only [make, bind, EStateM.bind, hcreate]
  rfl

/-! ## mkdir, one call -/

theorem mkdir_existing (h : dirs.exist dir) : mkdir path dirs = .error existsError dirs := by
  rw [mkdir]
  simp only [bind, EStateM.bind, make_existing hdir h]

theorem mkdir_new (h : ¬ dirs.exist dir) (hparent : dirs.exist dir.dropLast) :
    mkdir path dirs = .ok 0 (dirs.add dir hparent) := by
  rw [mkdir]
  simp only [bind, EStateM.bind, make_new hdir h hparent]
  rfl

omit hdir in
/-- What `mkdir` does when the parent is missing: the path `s` first, then `path` again. -/
def makeBehind (s path : Text) : EStateM Error Directories U32 := do
  let _ ← mkdir s
  let (r, err) ← make path
  if r then throw (.runtimeError "Error create directory".toList)
  return err

omit hdir in
theorem mkdir_of_rfind {i : Nat} (hi : rfind path '\\' = some i) :
    mkdir path = (do
      let (r, err) ← make path
      if r then makeBehind (path.take i) path else return err) := by
  rw [mkdir]
  congr 1
  funext ⟨r, err⟩
  cases r with
  | false => rfl
  | true =>
      simp only [if_true]
      split
      · rename_i hnone
        rw [hi] at hnone
        cases hnone
      · rename_i j hj
        rw [hi] at hj
        rw [← Option.some.inj hj]
        rfl

omit hdir in
theorem mkdir_missing {s t : Text} (ht : '\\' ∉ t) (hdir : directoryOf (pieces (s ++ '\\' :: t)) = dir)
    (h : dirs.Missing dir) : mkdir (s ++ '\\' :: t) dirs = makeBehind s (s ++ '\\' :: t) dirs := by
  rw [mkdir_of_rfind (rfind_append ht), List.take_left]
  simp only [bind, EStateM.bind, make_missing hdir h, if_true]

omit hdir in
/-- The path `s` has been made, and `path` names a new directory in it. -/
theorem makeBehind_made {s : Text} {name : Text} {err : U32} {dirs₁ : Directories}
    (hdir : directoryOf (pieces path) = dir ++ [name]) (hrun : mkdir s dirs = .ok err dirs₁)
    (hgrown : dirs.Grown dir dirs₁) (hne : dir ≠ []) (hnew : ¬ dirs.exist (dir ++ [name])) :
    ∃ dirs', makeBehind s path dirs = .ok 0 dirs' ∧ dirs.Grown (dir ++ [name]) dirs' := by
  have hparent : dirs₁.exist (dir ++ [name]).dropLast := by
    rw [List.dropLast_concat]
    exact hgrown.exist_self hne
  have habsent : ¬ dirs₁.exist (dir ++ [name]) := by
    rw [hgrown]
    rintro (hold | ⟨-, hpre⟩)
    · exact hnew hold
    · have hlength := hpre.length_le
      rw [List.length_append, List.length_singleton] at hlength
      omega
  refine ⟨dirs₁.add _ hparent, ?_, hgrown.add hparent⟩
  simp only [makeBehind, bind, EStateM.bind, hrun, make_new hdir habsent hparent]
  rfl

/-- The path `s` has been made, and `path` names one of the directories that exist since. -/
theorem makeBehind_found {s : Text} {err : U32} {dirs₁ : Directories} (hrun : mkdir s dirs = .ok err dirs₁)
    (hexist : dirs₁.exist dir) : makeBehind s path dirs = .error existsError dirs₁ := by
  simp only [makeBehind, bind, EStateM.bind, hrun, make_existing hdir hexist]

omit hdir in
theorem makeBehind_error {s : Text} {e : Error} {dirs₁ : Directories} (hrun : mkdir s dirs = .error e dirs₁) :
    makeBehind s path dirs = .error e dirs₁ := by
  simp only [makeBehind, bind, EStateM.bind, hrun]

end

end Spacenet
