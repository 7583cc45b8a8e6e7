-- SUMMARY: `mkdir` makes the missing directories of a path exactly when the path is new and no empty or dot piece stands where it has to go back.
import Spacenet.Mkdir

/-!
# Directories

`mkdir` goes back to the path before the last delimiter as long as a parent is
missing, and then makes one directory after the other. It throws on a directory
that exists, so it also throws when the path it goes back to names the directory
itself or one below it.
-/

namespace Spacenet

variable {dirs dirs' : Directories} {path : Text} {names : List Text} {piece : Text} {err : U32}

/-! ## What mkdir is for -/

/-- `mkdir` returns; `path` and the directories above it have been added, and nothing else. -/
def MakesDirectory (path : Text) (dirs : Directories) : Prop :=
  ∃ err dirs', mkdir path dirs = .ok err dirs' ∧
    dirs.Grown (directoryOf (pieces path)) dirs' ∧
    err = (if dirs.exist (directoryOf (pieces path)) then EEXIST else 0) ∧
    (dirs.exist (directoryOf (pieces path)) → dirs' = dirs)

/-- Wherever `mkdir` goes back, it leaves out a name. It goes back from a path for which, and for all
longer ones up to the whole, the parent is missing. -/
def GoesBackByName (dirs : Directories) (parts : List Text) : Prop :=
  ∀ names piece rest, parts = names ++ piece :: rest → names ≠ [] →
    (∀ more, more <+: rest → dirs.Missing (directoryOf (names ++ piece :: more))) → ProperName piece

theorem goesBackByName_singleton (piece : Text) : GoesBackByName dirs [piece] := by
  intro names piece' rest heq hne
  cases names with
  | nil => exact absurd rfl hne
  | cons name names => simp at heq

/-- With only proper names behind the first piece, every way back is by a name. -/
theorem goesBackByName_of_properName {parts : List Text} (h : ∀ n ∈ parts.tail, ProperName n) :
    GoesBackByName dirs parts := by
  rintro names piece rest rfl hne -
  apply h
  cases names with
  | nil => exact absurd rfl hne
  | cons name names => simp

theorem goesBackByName_append (hne : names ≠ []) :
    GoesBackByName dirs (names ++ [piece]) ↔
      (dirs.Missing (directoryOf (names ++ [piece])) → ProperName piece ∧ GoesBackByName dirs names) := by
  constructor
  · intro h hmissing
    constructor
    · exact h names piece [] rfl hne (fun more hmore => by rwa [List.prefix_nil.mp hmore])
    · intro before name rest heq hbefore hrest
      refine h before name (rest ++ [piece]) (by rw [heq]; simp) hbefore (fun more hmore => ?_)
      rcases List.prefix_concat_iff.mp hmore with rfl | hmore
      · rwa [heq, List.append_assoc, List.cons_append] at hmissing
      · exact hrest more hmore
  · intro h before name rest heq hbefore hrest
    have hmissing : dirs.Missing (directoryOf (names ++ [piece])) := by
      rw [heq]
      exact hrest rest List.prefix_rfl
    obtain ⟨hpiece, hnames⟩ := h hmissing
    cases rest using List.reverseRecOn with
    | nil =>
        have hlast := List.append_inj_right' heq rfl
        rwa [← List.cons.inj hlast |>.1]
    | append_singleton rest last =>
        rw [← List.cons_append, ← List.append_assoc] at heq
        exact hnames before name rest (List.append_inj_left' heq rfl) hbefore
          (fun more hmore => hrest more (hmore.trans (List.prefix_append rest [last])))

/-! ## A whole call -/

theorem directoryOf_joinPieces {parts : List Text} (hparts : ∀ n ∈ parts, '\\' ∉ n) (hne : parts ≠ []) :
    directoryOf (pieces (joinPieces parts)) = directoryOf parts := by
  rw [pieces_joinPieces hparts hne]

theorem take_one_append (hne : names ≠ []) (piece : Text) : (names ++ [piece]).take 1 = names.take 1 :=
  List.take_append_of_le_length (List.length_pos_iff.mpr hne)

/-- By induction on the pieces from the last to the first: the parent exists, or the call for the
pieces before makes it. -/
theorem mkdir_grown {parts : List Text} (hparts : ∀ n ∈ parts, '\\' ∉ n) (hfirst : dirs.exist (parts.take 1))
    (hnew : ¬ dirs.exist (directoryOf parts)) (hback : GoesBackByName dirs parts) :
    ∃ dirs', mkdir (joinPieces parts) dirs = .ok 0 dirs' ∧ dirs.Grown (directoryOf parts) dirs' := by
  induction parts using List.reverseRecOn with
  | nil => exact absurd hfirst hnew
  | append_singleton names piece ih =>
      rcases eq_or_ne names [] with rfl | hne
      · exact absurd hfirst hnew
      have hdir := directoryOf_joinPieces hparts (by simp)
      by_cases hparent : dirs.exist (directoryOf (names ++ [piece])).dropLast
      · exact ⟨_, mkdir_new hdir hnew hparent,
          Directories.grown_add hparent (directoryOf_ne_nil (by simp))⟩
      · have hmissing : dirs.Missing (directoryOf (names ++ [piece])) := ⟨hnew, hparent⟩
        obtain ⟨hproper, hbefore⟩ := (goesBackByName_append hne).mp hback hmissing
        have henter : directoryOf (names ++ [piece]) = directoryOf names ++ [piece] := by
          rw [directoryOf_append hne, hproper.enter_eq]
        rw [take_one_append hne] at hfirst
        rw [henter] at hdir hnew hparent hmissing ⊢
        rw [List.dropLast_concat] at hparent
        obtain ⟨dirs₁, hrun, hgrown⟩ := ih (fun n hn => hparts n (List.mem_append_left _ hn)) hfirst hparent hbefore
        rw [joinPieces_append hne] at hdir ⊢
        rw [mkdir_missing (hparts piece (by simp)) hdir hmissing]
        exact makeBehind_made hdir hrun hgrown (directoryOf_ne_nil hne) hnew

/-- `mkdir` returns on no other path: when it goes back by a piece that is not a name, it makes the
directory of the path itself, and finds it. -/
theorem mkdir_returns {parts : List Text} (hparts : ∀ n ∈ parts, '\\' ∉ n) (hne : parts ≠ [])
    (hfirst : dirs.exist (parts.take 1)) (hrun : mkdir (joinPieces parts) dirs = .ok err dirs') :
    ¬ dirs.exist (directoryOf parts) ∧ GoesBackByName dirs parts := by
  induction parts using List.reverseRecOn generalizing err dirs' with
  | nil => exact absurd rfl hne
  | append_singleton names piece ih =>
      have hdir := directoryOf_joinPieces hparts hne
      have hnew : ¬ dirs.exist (directoryOf (names ++ [piece])) := by
        intro hexist
        rw [mkdir_existing hdir hexist] at hrun
        cases hrun
      refine ⟨hnew, ?_⟩
      rcases eq_or_ne names [] with rfl | hnames
      · exact goesBackByName_singleton piece
      rw [goesBackByName_append hnames]
      intro hmissing
      have hbefore : ∀ n ∈ names, '\\' ∉ n := fun n hn => hparts n (List.mem_append_left _ hn)
      rw [take_one_append hnames] at hfirst
      rw [joinPieces_append hnames] at hrun hdir
      rw [mkdir_missing (hparts piece (by simp)) hdir hmissing] at hrun
      cases hfront : mkdir (joinPieces names) dirs with
      | error e dirs₁ =>
          rw [makeBehind_error hfront] at hrun
          cases hrun
      | ok err₁ dirs₁ =>
          obtain ⟨hnewNames, hbackNames⟩ := ih hbefore hnames hfirst hfront
          refine ⟨by_contra fun hproper => ?_, hbackNames⟩
          obtain ⟨dirs₂, hrun₂, hgrown⟩ := mkdir_grown hbefore hfirst hnewNames hbackNames
          rw [hfront] at hrun₂
          obtain ⟨rfl, rfl⟩ := EStateM.Result.ok.inj hrun₂
          have hexist : dirs₁.exist (directoryOf (names ++ [piece])) := by
            rw [directoryOf_append hnames]
            exact (hgrown _).mpr (.inr ⟨enter_ne_nil (directoryOf_ne_nil hnames) piece,
              enter_prefix_of_not_properName hproper _⟩)
          rw [makeBehind_found hdir hfront hexist] at hrun
          cases hrun

theorem mkdir_returned (hfirst : dirs.exist ((pieces path).take 1)) (hrun : mkdir path dirs = .ok err dirs') :
    ¬ dirs.exist (directoryOf (pieces path)) ∧ GoesBackByName dirs (pieces path) := by
  rw [← joinPieces_pieces path] at hrun
  exact mkdir_returns (fun n hn => notMem_of_mem_pieces hn) (List.splitOn_ne_nil _ _) hfirst hrun

/-- `mkdir` does what it is for on a new path, unless it has to go back by an empty or dot piece. On
an existing directory it throws. -/
theorem mkdir_makes_iff (path : Text) (dirs : Directories) (hfirst : dirs.exist ((pieces path).take 1)) :
    MakesDirectory path dirs ↔
      ¬ dirs.exist (directoryOf (pieces path)) ∧ GoesBackByName dirs (pieces path) := by
  constructor
  · rintro ⟨err, dirs', hrun, -⟩
    exact mkdir_returned hfirst hrun
  · rintro ⟨hnew, hback⟩
    obtain ⟨dirs', hrun, hgrown⟩ := mkdir_grown (fun n hn => notMem_of_mem_pieces hn) hfirst hnew hback
    rw [joinPieces_pieces] at hrun
    exact ⟨0, dirs', hrun, hgrown, by rw [if_neg hnew], fun hexist => absurd hexist hnew⟩

/-- A drive without directories. -/
def emptyDrive : Directories where
  exist dir := dir == ["C:".toList]
  closed dir name hne h := by
    rw [beq_iff_eq] at h
    have hlength := congrArg List.length h
    rw [List.length_append, List.length_singleton, List.length_singleton] at hlength
    exact absurd (List.eq_nil_of_length_eq_zero (by omega)) hne

theorem mkdir_makes_iff_two : MakesDirectory "C:\\.spacenet\\db".toList emptyDrive :=
  (mkdir_makes_iff "C:\\.spacenet\\db".toList emptyDrive (by decide)).mpr
    ⟨by decide, goesBackByName_of_properName (by decide)⟩

/-- The directory of the databases, from an earlier run. -/
def usedDrive : Directories := emptyDrive.add ["C:".toList, ".spacenet".toList] rfl

/-- EEXIST has replaced the error that the next test of `make` lets pass. -/
theorem mkdir_existing_throws :
    usedDrive.exist (directoryOf (pieces "C:\\.spacenet".toList)) ∧
      mkdir "C:\\.spacenet".toList usedDrive = .error existsError usedDrive ∧
      ¬ MakesDirectory "C:\\.spacenet".toList usedDrive := by
  have hexist : usedDrive.exist (directoryOf (pieces "C:\\.spacenet".toList)) := by decide
  have hrun : mkdir "C:\\.spacenet".toList usedDrive = .error existsError usedDrive :=
    mkdir_existing rfl hexist
  refine ⟨hexist, hrun, ?_⟩
  rintro ⟨err, dirs', hok, -⟩
  rw [hrun] at hok
  cases hok

/-- A delimiter at the end: `mkdir` goes back to the same directory, makes it and finds it. -/
example : ¬ MakesDirectory "C:\\.spacenet\\db\\".toList emptyDrive := by
  rintro ⟨err, dirs', hok, -⟩
  have hback : GoesBackByName emptyDrive (pieces "C:\\.spacenet\\db\\".toList) :=
    (mkdir_returned rfl hok).2
  refine absurd (hback ["C:".toList, ".spacenet".toList, "db".toList] [] [] rfl (by decide) ?_) (by decide)
  intro more hmore
  rw [List.prefix_nil.mp hmore]
  exact ⟨by decide, by decide⟩

end Spacenet
