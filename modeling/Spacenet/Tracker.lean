-- SUMMARY: `directory_tracker::run`: the name of the database of a tracked directory.
import Mathlib.Data.Nat.Digits.Defs
import Spacenet.Cdc512

/-!
# The directory tracker

`directory_tracker::run` names the database after the tracked directory. Strings
are lists of the 16-bit `wchar_t` of Windows.
-/

namespace Spacenet

/-! ## Strings -/

/-- `utf2str` on ASCII text. -/
def utf2str (s : Text) : WString := s.map cppxU

/-- The bytes of a string in memory. -/
def WString.bytes (s : WString) : Blob := s.flatMap fun (c : WChar) => [c.setWidth 8, (c >>> 8).setWidth 8]

/-! ## The digest as a name -/

/-- `abc` of `to_short_string`. -/
def shortAlphabet : Text := "._,=~!@#$%^&-+0123456789abcdefghijklmnopqrstuvwxyz".toList

/-- The inner `while`: the digits of a word, the lowest first. -/
def shortDigits (a : U64) : Text :=
  (Nat.digits shortAlphabet.length a.toNat).map fun i => shortAlphabet.getD i '.'

/-- `to_short_string`. The words of the digest are taken from the last to the first. -/
def Cdc512.toShortString (ctx : Cdc512) : Text := ctx.digest64.reverse.flatMap shortDigits

/-! ## run -/

/-- `remove_forbidden_characters`. -/
def removeForbiddenCharacters (s : WString) : WString :=
  s.filter fun c =>
    (cppxU 'A' ≤ c && c ≤ cppxU 'Z') ||
    (cppxU 'a' ≤ c && c ≤ cppxU 'z') ||
    (cppxU '0' ≤ c && c ≤ cppxU '9') ||
    c == cppxU '.' ||
    c == cppxU '_' ||
    c == cppxU '-'

/-- The text that `make_digest_name` appends. -/
def shortDigest (s : WString) : WString :=
  utf2str (Cdc512.init.update s.bytes).finish.toShortString

/-- `make_digest_name`. The string that is shortened to 13 characters is the empty `t`. -/
def makeDigestName (s : WString) : WString :=
  let t : WString := []
  let t := if t.length > 13 then t.take 13 else t
  let t := t ++ [cppxU '-']
  t ++ shortDigest s

/-- `make_name`. The digest is that of the text without the forbidden characters. -/
def makeName (s : WString) : WString :=
  let t := removeForbiddenCharacters s
  if t ≠ s then makeDigestName t else t

/-- The members of `directory_tracker` that name the directory. -/
structure DirectoryTracker where
  dirUserDefinedName : WString
  dirPathName : WString
deriving DecidableEq

namespace DirectoryTracker

/-- The user-defined name, or the directory path when that is empty. -/
def name (tracker : DirectoryTracker) : WString :=
  if tracker.dirUserDefinedName.isEmpty then tracker.dirPathName else tracker.dirUserDefinedName

/-- `db_name_` behind `run`. -/
def dbName (tracker : DirectoryTracker) : WString := makeName tracker.name ++ utf2str ".sqlite".toList

end DirectoryTracker

/-! ## Names -/

theorem makeDigestName_eq (s : WString) : makeDigestName s = cppxU '-' :: shortDigest s := rfl

/-- The name has forbidden characters. -/
def Altered (s : WString) : Prop := removeForbiddenCharacters s ≠ s

instance (s : WString) : Decidable (Altered s) := inferInstanceAs (Decidable (_ ≠ _))

theorem makeName_of_altered {s : WString} (h : Altered s) :
    makeName s = cppxU '-' :: shortDigest (removeForbiddenCharacters s) := by
  unfold Altered at h
  rw [makeName, if_pos h, makeDigestName_eq]

theorem makeName_of_not_altered {s : WString} (h : ¬Altered s) : makeName s = s := by
  unfold Altered at h
  rw [makeName, if_neg h]
  exact not_not.mp h

end Spacenet
