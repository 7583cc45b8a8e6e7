-- SUMMARY: Starting trackers makes one directory at most, and puts every database directly into it.
import Mathlib.Data.Nat.Digits.Lemmas
import Spacenet.Correctness.Directories
import Spacenet.Correctness.Naming
import Spacenet.Tracker.Run

/-!
# Starting trackers

`run` asks for the directory of the databases before it calls `mkdir`, and so it
never meets the error of `mkdir` on a directory that exists. Whatever the name of
a tracked directory, the name of its database is that of a file in there.
-/

namespace Spacenet

open Unicode

/-! ## Names of files -/

/-- The characters that no file name has. -/
def reservedCharacters : Text := "<>:\"/\\|?*".toList

/-- A name of characters that file names have. -/
structure FileCharacters (name : Text) : Prop where
  proper : ProperName name
  printable : ∀ c ∈ name, 0x20 ≤ c.toNat
  unreserved : ∀ c ∈ name, c ∉ reservedCharacters

def deviceNames : List Text :=
  ["CON", "PRN", "AUX", "NUL", "COM1", "COM2", "COM3", "COM4", "COM5", "COM6", "COM7", "COM8", "COM9",
    "LPT1", "LPT2", "LPT3", "LPT4", "LPT5", "LPT6", "LPT7", "LPT8", "LPT9"].map String.toList

/-- The name of a device in any case, with or without an extension. -/
def IsDevice (name : Text) : Prop := (name.takeWhile (· ≠ '.')).map Char.toUpper ∈ deviceNames

/-- The greatest length of a file name. -/
def maxComponent : Nat := 255

structure FileName (name : Text) : Prop extends FileCharacters name where
  short : name.length ≤ maxComponent
  notDevice : ¬IsDevice name

/-- A code unit of such a character. -/
structure Plain (u : WChar) : Prop where
  printable : 0x20 ≤ u.toNat
  ascii : u.toNat < 0x7f
  unreserved : ∀ c ∈ reservedCharacters, u.toNat ≠ c.toNat

/-- What holds of the characters of a text one by one. -/
theorem forall_mem_of_all {P : Char → Prop} [DecidablePred P] {s : Text} (h : s.all (fun c => decide (P c)) = true) :
    ∀ c ∈ s, P c := by
  simpa using h

instance (u : WChar) : Decidable (Plain u) :=
  decidable_of_iff
    (0x20 ≤ u.toNat ∧ u.toNat < 0x7f ∧ reservedCharacters.all (fun c => decide (u.toNat ≠ c.toNat)) = true)
    ⟨fun h => ⟨h.1, h.2.1, forall_mem_of_all h.2.2⟩, fun h => ⟨h.printable, h.ascii, by simpa using h.unreserved⟩⟩

/-- The characters of a text without surrogates. -/
def WString.text (s : WString) : Text := s.map fun (u : WChar) => Char.ofNat u.toNat

theorem utf16_text {s : WString} (h : ∀ u ∈ s, Plain u) : utf16 s.text = s := by
  induction s with
  | nil => rfl
  | cons u s ih =>
      obtain ⟨hu, hs⟩ := List.forall_mem_cons.mp h
      have hlt := hu.ascii
      have hhigh : ¬IsHigh u := by
        unfold IsHigh
        omega
      have hlow : ¬IsLow u := by
        unfold IsLow
        omega
      have htext : WString.text (u :: s) = Char.ofNat u.toNat :: WString.text s := rfl
      rw [htext, utf16, List.flatMap_cons, utf16Char_ofNat hhigh hlow, ← utf16, ih hs, List.singleton_append]

theorem Plain.toNat_ofNat {u : WChar} (h : Plain u) : (Char.ofNat u.toNat).toNat = u.toNat :=
  toNat_ofNat_of_valid (.inl (Nat.lt_trans h.ascii (by decide)))

theorem fileCharacters_text {s : WString} (h : ∀ u ∈ s, Plain u) (hlength : 2 < s.length) : FileCharacters s.text := by
  have hchars : ∀ c ∈ s.text, ∃ u, Plain u ∧ c.toNat = u.toNat := by
    intro c hc
    obtain ⟨u, hu, rfl⟩ := List.mem_map.mp hc
    exact ⟨u, h u hu, (h u hu).toNat_ofNat⟩
  have hsame : s.text.length = s.length := List.length_map _
  constructor
  · refine ⟨?_, ?_, ?_⟩ <;>
    · intro heq
      rw [heq] at hsame
      simp only [List.length_nil, List.length_cons] at hsame
      omega
  · intro c hc
    obtain ⟨u, hu, heq⟩ := hchars c hc
    exact heq ▸ hu.printable
  · intro c hc hreserved
    obtain ⟨u, hu, heq⟩ := hchars c hc
    exact hu.unreserved c hreserved heq.symm

/-! ## The name of a database -/

theorem plain_of_allowed {s : WString} {u : WChar} (h : u ∈ removeForbiddenCharacters s) : Plain u := by
  have hallowed := (List.mem_filter.mp h).2
  simp only [Bool.or_eq_true, Bool.and_eq_true, decide_eq_true_eq, beq_iff_eq] at hallowed
  have hrange : ∀ a b : Char, cppxU a ≤ u → u ≤ cppxU b → (cppxU a).toNat ≤ u.toNat ∧ u.toNat ≤ (cppxU b).toNat :=
    fun a b ha hb => ⟨BitVec.le_def.mp ha, BitVec.le_def.mp hb⟩
  have hupper : (cppxU 'A').toNat = 65 ∧ (cppxU 'Z').toNat = 90 := by decide
  have hlower : (cppxU 'a').toNat = 97 ∧ (cppxU 'z').toNat = 122 := by decide
  have hdigit : (cppxU '0').toNat = 48 ∧ (cppxU '9').toNat = 57 := by decide
  have hcodes : ∀ c ∈ reservedCharacters, c.toNat ∈ [60, 62, 58, 34, 47, 92, 124, 63, 42] :=
    forall_mem_of_all (by decide)
  have hplain : ∀ lo hi, lo ≤ u.toNat ∧ u.toNat ≤ hi → 0x20 ≤ lo → hi < 0x7f →
      (∀ n ∈ [60, 62, 58, 34, 47, 92, 124, 63, 42], n < lo ∨ hi < n) → Plain u := by
    intro lo hi hu hlo hhi hout
    refine ⟨by omega, by omega, fun c hc heq => ?_⟩
    have := hout _ (hcodes c hc)
    omega
  rcases hallowed with ((((⟨ha, hz⟩ | ⟨ha, hz⟩) | ⟨ha, hz⟩) | rfl) | rfl) | rfl
  · have hu := hrange _ _ ha hz
    rw [hupper.1, hupper.2] at hu
    exact hplain 65 90 hu (by decide) (by decide) (by decide)
  · have hu := hrange _ _ ha hz
    rw [hlower.1, hlower.2] at hu
    exact hplain 97 122 hu (by decide) (by decide) (by decide)
  · have hu := hrange _ _ ha hz
    rw [hdigit.1, hdigit.2] at hu
    exact hplain 48 57 hu (by decide) (by decide) (by decide)
  · decide
  · decide
  · decide

theorem mem_shortDigits {a : U64} {c : Char} (h : c ∈ shortDigits a) : c ∈ shortAlphabet := by
  obtain ⟨i, hi, rfl⟩ := List.mem_map.mp h
  have hlt : i < shortAlphabet.length := Nat.digits_lt_base (by decide) hi
  rw [List.getD_eq_getElem?_getD, List.getElem?_eq_getElem hlt, Option.getD_some]
  exact List.getElem_mem hlt

theorem plain_of_shortDigest {s : WString} {u : WChar} (h : u ∈ shortDigest s) : Plain u := by
  have hall : ∀ c ∈ shortAlphabet, Plain (cppxU c) := forall_mem_of_all (by decide)
  obtain ⟨c, hc, rfl⟩ := List.mem_map.mp h
  obtain ⟨word, -, hword⟩ := List.mem_flatMap.mp hc
  exact hall c (mem_shortDigits hword)

/-- No name of a device begins with the dash of a replaced name. -/
theorem not_isDevice_dash (t : Text) : ¬IsDevice ('-' :: t) := by
  have hnone : ∀ device ∈ deviceNames, device.head? ≠ some '-' := by decide
  intro h
  exact hnone _ h (by rw [List.takeWhile_cons_of_pos (by decide)]; rfl)

/-- An extension makes no difference to a device. -/
theorem isDevice_append (s t : Text) : IsDevice (s ++ '.' :: t) ↔ IsDevice s := by
  have hsame : (s ++ '.' :: t).takeWhile (· ≠ '.') = s.takeWhile (· ≠ '.') := by
    rw [List.takeWhile_append]
    split
    · next hall =>
        have hwhole : s.takeWhile (· ≠ '.') = s := (List.takeWhile_prefix _).eq_of_length hall
        rw [hwhole, List.takeWhile_cons_of_neg (by decide), List.append_nil]
    · rfl
  rw [IsDevice, hsame, IsDevice]

/-- A 64-bit word has at most twelve digits. -/
theorem length_shortDigits_le (a : U64) : (shortDigits a).length ≤ 12 := by
  have hbase : shortAlphabet.length = 50 := by decide
  rw [shortDigits, List.length_map, hbase, Nat.digits_length_le_iff (by decide)]
  exact Nat.lt_trans a.isLt (by decide)

theorem length_flatMap_shortDigits_le (words : List U64) : (words.flatMap shortDigits).length ≤ 12 * words.length := by
  induction words with
  | nil => rfl
  | cons word words ih =>
      have hword := length_shortDigits_le word
      rw [List.flatMap_cons, List.length_append, List.length_cons]
      omega

theorem length_shortDigest_le (s : WString) : (shortDigest s).length ≤ 96 := by
  have hwords : (Cdc512.init.update s.bytes).finish.digest64.reverse.length = 8 := by
    rw [List.length_reverse]
    rfl
  have hdigits := length_flatMap_shortDigits_le (Cdc512.init.update s.bytes).finish.digest64.reverse
  rw [shortDigest, utf2str, List.length_map, Cdc512.toShortString]
  omega

/-- The name is replaced by a digest, or it leaves room for the extension and is no name of a device. -/
def DirectoryTracker.Namable (tracker : DirectoryTracker) : Prop :=
  Altered tracker.name ∨
    tracker.name.length + ".sqlite".toList.length ≤ maxComponent ∧ ¬IsDevice tracker.name.text

/-- The name of a database has the characters of a file name, whatever the name of the tracked directory. It is
a file name when that name has forbidden characters. -/
theorem DirectoryTracker.exists_fileName (tracker : DirectoryTracker) :
    ∃ name, tracker.dbName = utf16 name ∧ FileCharacters name ∧ (FileName name ↔ tracker.Namable) := by
  have hname : ∀ u ∈ makeName tracker.name, Plain u := by
    intro u hu
    by_cases h : Altered tracker.name
    · rw [makeName_of_altered h] at hu
      rcases List.mem_cons.mp hu with rfl | hu
      · decide
      · exact plain_of_shortDigest hu
    · have hsame : removeForbiddenCharacters tracker.name = tracker.name := not_not.mp h
      rw [makeName_of_not_altered h, ← hsame] at hu
      exact plain_of_allowed hu
  have hplain : ∀ c ∈ ".sqlite".toList, Plain (cppxU c) := forall_mem_of_all (by decide)
  have hext : ∀ u ∈ utf2str ".sqlite".toList, Plain u := by
    intro u hu
    obtain ⟨c, hc, rfl⟩ := List.mem_map.mp hu
    exact hplain c hc
  have hall : ∀ u ∈ tracker.dbName, Plain u := by
    intro u hu
    rw [DirectoryTracker.dbName, List.mem_append] at hu
    exact hu.elim (hname u) (hext u)
  have hsuffix : ".sqlite".toList.length = 7 := by decide
  have htext : tracker.dbName.text = (makeName tracker.name).text ++ ".sqlite".toList := List.map_append
  have hchars : FileCharacters tracker.dbName.text := by
    apply fileCharacters_text hall
    rw [DirectoryTracker.dbName, List.length_append, utf2str, List.length_map, hsuffix]
    omega
  have hfile : FileName tracker.dbName.text ↔
      (makeName tracker.name).length + ".sqlite".toList.length ≤ maxComponent ∧
        ¬IsDevice (makeName tracker.name).text := by
    have hdevice : IsDevice tracker.dbName.text ↔ IsDevice (makeName tracker.name).text := by
      rw [htext]
      exact isDevice_append _ _
    have hlength : tracker.dbName.text.length = (makeName tracker.name).length + ".sqlite".toList.length := by
      rw [htext, List.length_append, WString.text, List.length_map]
    rw [← hdevice, ← hlength]
    exact ⟨fun h => ⟨h.short, h.notDevice⟩, fun h => ⟨hchars, h.1, h.2⟩⟩
  refine ⟨_, (utf16_text hall).symm, hchars, hfile.trans ?_⟩
  unfold DirectoryTracker.Namable
  by_cases h : Altered tracker.name
  · have hdigest := length_shortDigest_le (removeForbiddenCharacters tracker.name)
    rw [makeName_of_altered h, hsuffix, List.length_cons, maxComponent]
    exact iff_of_true ⟨by omega, not_isDevice_dash _⟩ (.inl h)
  · rw [makeName_of_not_altered h]
    simp only [h, false_or]

/-! ## Paths below a directory -/

theorem pieces_append (s : Text) {t : Text} (ht : '\\' ∉ t) : pieces (s ++ '\\' :: t) = pieces s ++ [t] := by
  have hne : pieces s ≠ [] := List.splitOn_ne_nil _ _
  have hjoin : s ++ '\\' :: t = joinPieces (pieces s ++ [t]) := by
    rw [joinPieces_append hne, joinPieces_pieces]
  rw [hjoin]
  apply pieces_joinPieces _ (by simp)
  intro n hn
  rcases List.mem_append.mp hn with hn | hn
  · exact notMem_of_mem_pieces hn
  · rwa [List.mem_singleton.mp hn]

theorem directoryOf_pieces_append (s : Text) {t : Text} (ht : '\\' ∉ t) :
    directoryOf (pieces (s ++ '\\' :: t)) = enter (directoryOf (pieces s)) t := by
  have hne : pieces s ≠ [] := List.splitOn_ne_nil _ _
  rw [pieces_append s ht, directoryOf_append hne]

/-- A path behind which `home_path` has set a delimiter leads on from the same directory. -/
theorem directoryOf_setDelimiter {s t : Text} (hs : s ≠ []) (ht : '\\' ∉ t) :
    directoryOf (pieces (setDelimiter s false ++ t)) = enter (directoryOf (pieces s)) t := by
  simp only [setDelimiter, Bool.false_eq_true, if_false]
  split
  · rw [List.append_assoc, List.singleton_append]
    exact directoryOf_pieces_append s ht
  · next hlast =>
      obtain ⟨s', rfl⟩ : ∃ s', s = s' ++ ['\\'] := by
        obtain ⟨s', c, rfl⟩ := (List.eq_nil_or_concat' s).resolve_left hs
        simp only [List.getLast?_append, List.getLast?_singleton, Option.some_or, ne_eq, Option.some.injEq, not_not] at hlast
        exact ⟨s', hlast ▸ rfl⟩
      have hempty : directoryOf (pieces (s' ++ ['\\'])) = directoryOf (pieces s') := by
        rw [directoryOf_pieces_append s' (by simp), enter, if_pos (.inl rfl)]
      rw [hempty, List.append_assoc, List.singleton_append]
      exact directoryOf_pieces_append s' ht

/-! ## home_path -/

namespace User

variable (user : User) (dirs : Directories)

/-- The path names a directory in which the user may read and write. -/
def Owns (path : Text) : Prop :=
  path ≠ [] ∧ dirs.exist (directoryOf (pieces path)) ∧ user.granted (directoryOf (pieces path))

instance (path : Text) : Decidable (user.Owns dirs path) := inferInstanceAs (Decidable (_ ∧ _ ∧ _))

/-- The path that `home_path` decides for. -/
def home : Option Text :=
  if user.Owns dirs (user.homeDrive ++ user.homePath) then some (user.homeDrive ++ user.homePath)
  else if user.Owns dirs user.userProfile then some user.userProfile
  else none

variable {user dirs}

theorem access_home (path : Text) :
    ∃ errno, user.access path (R_OK ||| W_OK ||| X_OK) dirs = .ok errno dirs ∧
      (errno.isSome ↔ ¬user.Owns dirs path) := by
  have hmode : R_OK ||| W_OK ||| X_OK ≠ F_OK := by decide
  unfold access Owns
  by_cases hpath : path = [] ∨ ¬dirs.exist (directoryOf (pieces path))
  · refine ⟨some ENOENT, if_pos hpath, ?_⟩
    simp only [Option.isSome_some, true_iff]
    rintro ⟨hne, hexist, -⟩
    exact hpath.elim hne (fun hmissing => hmissing hexist)
  · obtain ⟨hne, hexist⟩ := not_or.mp hpath
    by_cases hgranted : user.granted (directoryOf (pieces path)) = true
    · refine ⟨none, ?_, ?_⟩
      · simp only [if_neg hpath, hgranted, or_true, if_true]
      · simp only [Option.isSome_none, Bool.false_eq_true, false_iff, not_not]
        exact ⟨hne, not_not.mp hexist, hgranted⟩
    · refine ⟨some EACCES, ?_, ?_⟩
      · simp only [if_neg hpath, hmode, hgranted, false_or, Bool.false_eq_true, if_false]
      · simp only [Option.isSome_some, true_iff]
        exact fun howns => hgranted howns.2.2

theorem home_owned {s : Text} (h : user.home dirs = some s) : user.Owns dirs s := by
  unfold home at h
  split at h
  · next howns => exact Option.some.inj h ▸ howns
  · split at h
    · next howns => exact Option.some.inj h ▸ howns
    · cases h

end User

section

variable {user : User} {dirs : Directories} {tracker : DirectoryTracker} {home : Text}

def deniedError : Error := .runtimeError "Access denied to user home directory".toList

theorem homePath_eq (noBackSlash : Bool) :
    homePath user noBackSlash dirs =
      match user.home dirs with
      | some s => .ok (setDelimiter s noBackSlash) dirs
      | none => .error deniedError dirs := by
  obtain ⟨errno, hfirst, hisSome⟩ := @User.access_home user dirs (user.homeDrive ++ user.homePath)
  obtain ⟨errno', hsecond, hisSome'⟩ := @User.access_home user dirs user.userProfile
  unfold User.home
  simp only [homePath, bind, EStateM.bind, hfirst]
  by_cases howns : user.Owns dirs (user.homeDrive ++ user.homePath)
  · have hnone : errno.isSome = false := by simpa [howns] using hisSome
    simp only [hnone, Bool.false_eq_true, if_false, hfirst, howns, if_true]
    rfl
  · have hsome : errno.isSome = true := hisSome.mpr howns
    by_cases howns' : user.Owns dirs user.userProfile
    · have hnone : errno'.isSome = false := by simpa [howns'] using hisSome'
      simp only [hsome, if_true, hsecond, hnone, Bool.false_eq_true, if_false, howns, howns']
      rfl
    · have hsome' : errno'.isSome = true := hisSome'.mpr howns'
      simp only [hsome, if_true, hsecond, hsome', howns, howns', if_false]
      rfl

/-! ## run -/

/-- The directory of the databases of a user with this home directory. -/
def databases (home : Text) : List Text := directoryOf (pieces home) ++ [".spacenet".toList]

/-- The database of a tracker lies in the directory of the databases. -/
structure Located (home : Text) (tracker : DirectoryTracker) (loc : Location) : Prop where
  dbPath : loc.dbPath = setDelimiter home false ++ ".spacenet".toList
  directory : directoryOf (pieces loc.dbPath) = databases home
  dbName : loc.dbName = tracker.dbName
  database : ∃ name, FileCharacters name ∧ (FileName name ↔ tracker.Namable) ∧
    loc.dbPathName = utf16 (loc.dbPath ++ '\\' :: name) ∧
    directoryOf (pieces (loc.dbPath ++ '\\' :: name)) = databases home ++ [name]

theorem run_denied (hhome : user.home dirs = none) : tracker.run user dirs = .error deniedError dirs := by
  have hpath := @homePath_eq user dirs false
  rw [hhome] at hpath
  simp only [DirectoryTracker.run, bind, EStateM.bind, hpath]

theorem directoryOf_dbPath (hne : home ≠ []) :
    directoryOf (pieces (setDelimiter home false ++ ".spacenet".toList)) = databases home := by
  have hproper : ProperName ".spacenet".toList := by decide
  rw [directoryOf_setDelimiter hne (by decide), hproper.enter_eq, databases]

theorem located (tracker : DirectoryTracker) (hne : home ≠ []) :
    Located home tracker
      ⟨setDelimiter home false ++ ".spacenet".toList, tracker.dbName,
        utf16 (setDelimiter home false ++ ".spacenet".toList) ++ [delimiterChar] ++ tracker.dbName⟩ := by
  obtain ⟨name, hname, hchars, hfile⟩ := tracker.exists_fileName
  have hdelimiter : '\\' ∉ name := fun hmem => hchars.unreserved _ hmem (by decide)
  refine ⟨rfl, directoryOf_dbPath hne, rfl, name, hchars, hfile, ?_, ?_⟩
  · have hchar : utf16 ['\\'] = [delimiterChar] := by decide
    show _ ++ [delimiterChar] ++ tracker.dbName = _
    rw [hname, ← hchar, ← utf16_append, ← utf16_append, List.append_assoc, List.singleton_append]
  · rw [directoryOf_pieces_append _ hdelimiter, hchars.proper.enter_eq, directoryOf_dbPath hne]

/-- One run: the directory exists already, or its parent does, in which `mkdir` makes it. -/
theorem run_located (hhome : user.home dirs = some home) (tracker : DirectoryTracker) :
    ∃ loc dirs', tracker.run user dirs = .ok loc dirs' ∧ Located home tracker loc ∧
      ∀ d, dirs'.exist d ↔ dirs.exist d ∨ d = databases home := by
  obtain ⟨hne, hparent, -⟩ := User.home_owned hhome
  have hdir := directoryOf_dbPath hne
  have hpath := @homePath_eq user dirs false
  rw [hhome] at hpath
  simp only at hpath
  have hnonempty : setDelimiter home false ++ ".spacenet".toList ≠ [] := by simp
  by_cases hexist : dirs.exist (databases home)
  · have haccess : user.access (setDelimiter home false ++ ".spacenet".toList) F_OK dirs = .ok none dirs := by
      simp only [User.access, hdir, hnonempty, hexist, not_true_eq_false, or_self, if_false, true_or, if_true]
    refine ⟨_, dirs, ?_, located tracker hne, ?_⟩
    · simp only [DirectoryTracker.run, bind, EStateM.bind, hpath, haccess, reduceCtorEq, if_false]
      rfl
    · intro d
      constructor
      · exact .inl
      · rintro (hd | rfl)
        · exact hd
        · exact hexist
  · have haccess : user.access (setDelimiter home false ++ ".spacenet".toList) F_OK dirs = .ok (some ENOENT) dirs := by
      simp only [User.access, hdir, hexist, Bool.false_eq_true, not_false_eq_true, or_true, if_true]
    have hparent' : dirs.exist (databases home).dropLast := by
      rw [databases, List.dropLast_concat]
      exact hparent
    refine ⟨_, dirs.add _ hparent', ?_, located tracker hne, Directories.add_exist hparent'⟩
    simp only [DirectoryTracker.run, bind, EStateM.bind, hpath, haccess, if_true, mkdir_new hdir hexist hparent']
    rfl

/-- The directory that has been made does not move the home directory of the user. -/
theorem home_kept {dirs' : Directories} (hhome : user.home dirs = some home)
    (hmade : ∀ d, dirs'.exist d ↔ dirs.exist d ∨ d = databases home)
    (hother : directoryOf (pieces (user.homeDrive ++ user.homePath)) ≠ databases home) :
    user.home dirs' = some home := by
  have hmono : ∀ path, user.Owns dirs path → user.Owns dirs' path :=
    fun path howns => ⟨howns.1, (hmade _).mpr (.inl howns.2.1), howns.2.2⟩
  unfold User.home at hhome ⊢
  split at hhome
  · next howns => rwa [if_pos (hmono _ howns)]
  · next hnot =>
      have hstill : ¬user.Owns dirs' (user.homeDrive ++ user.homePath) :=
        fun howns => hnot ⟨howns.1, ((hmade _).mp howns.2.1).resolve_right hother, howns.2.2⟩
      rw [if_neg hstill]
      split at hhome
      · next howns => rwa [if_pos (hmono _ howns)]
      · cases hhome

/-- However many trackers a user with a home directory starts: no call throws, all databases lie directly in one
directory, and no other directory is made. -/
theorem runs_prepare (hhome : user.home dirs = some home)
    (hother : directoryOf (pieces (user.homeDrive ++ user.homePath)) ≠ databases home)
    (trackers : List DirectoryTracker) :
    ∃ locs dirs', trackers.mapM (DirectoryTracker.run user) dirs = .ok locs dirs' ∧
      List.Forall₂ (Located home) trackers locs ∧
      ∀ d, dirs'.exist d ↔ dirs.exist d ∨ trackers ≠ [] ∧ d = databases home := by
  induction trackers generalizing dirs with
  | nil => exact ⟨[], dirs, rfl, .nil, by simp⟩
  | cons tracker trackers ih =>
      obtain ⟨loc, dirs₁, hrun, hloc, hmade⟩ := run_located hhome tracker
      obtain ⟨locs, dirs', hruns, hlocs, hmore⟩ := ih (home_kept hhome hmade hother)
      refine ⟨loc :: locs, dirs', ?_, .cons hloc hlocs, ?_⟩
      · rw [List.mapM_cons]
        simp only [bind, EStateM.bind, hrun, hruns]
        rfl
      · intro d
        rw [hmore, hmade]
        simp only [ne_eq, reduceCtorEq, not_false_eq_true, true_and]
        tauto

end

/-- The user of a drive without directories. -/
def driveUser : User where
  homeDrive := "C:".toList
  homePath := "\\".toList
  userProfile := []
  granted _ := true

theorem runs_prepare_two :
    ∃ locs dirs', [pathTracker "C:\\ab", pathTracker "C:\\a"].mapM (DirectoryTracker.run driveUser) emptyDrive
        = .ok locs dirs' ∧
      List.Forall₂ (Located "C:\\".toList) [pathTracker "C:\\ab", pathTracker "C:\\a"] locs ∧
      ∀ d, dirs'.exist d ↔ emptyDrive.exist d ∨ [pathTracker "C:\\ab", pathTracker "C:\\a"] ≠ [] ∧
        d = databases "C:\\".toList :=
  runs_prepare (by decide) (by decide) _

end Spacenet
