-- SUMMARY: `temp_name`: the names that it forms, and the loop that looks for one which no file has.
import Spacenet.Library.Digits
import Spacenet.Tracker.Run

/-!
# Temporary names

A name is formed of the directory and the prefix that are asked for, of the
process, of a counter that all threads of the process share, and of the time.
Names are formed until one is free.
-/

namespace Spacenet

open Machine Unicode

def MAXTRIES : Nat := 10000

/-- What a call of `temp_name` meets. `ticket` counts the `fetch_add`s on `index` before that of a try, by
whatever thread; `m` and `n` mix the time with addresses; `taken` tells whether `access` finds the name. -/
structure Tries where
  pid : Nat
  pid_lt : pid < 2 ^ 31
  tempDir : Text
  granted : Text → Bool
  ticket : Nat → Nat
  m : Nat → U32
  n : Nat → U32
  taken : Nat → WString → Bool

/-- The text that a pointer to the characters stands for. -/
def cText (s : Text) : Text := s.takeWhile (· ≠ '\x00')

/-- `size()` of a string. -/
def units (s : Text) : Nat := (utf16 s).length

/-- `temp_path`. -/
def tempPath (x : Tries) (noBackSlash : Bool) : Text := setDelimiter x.tempDir noBackSlash

namespace Tries

variable (x : Tries) (dir pfx : Text)

/-- The value of `index.fetch_add(1)`. A counter beyond its type goes on with the lowest value. -/
def index (tryN : Nat) : U32 := BitVec.ofNat 32 (x.ticket tryN)

/-- The text of the format `%ls\%ls-%d-%d-%x-%x`. -/
def format (tryN : Nat) : Text :=
  cText dir ++ '\\' :: cText pfx ++ '-' :: Digits.signed x.pid ++ '-' :: Digits.signed (x.index tryN).toInt ++
    '-' :: Nat.toDigits 16 (x.m tryN).toNat ++ '-' :: Nat.toDigits 16 (x.n tryN).toNat

/-- What `_snwprintf(&s[0], l, ...)` leaves in `s`: no more than `l` characters. -/
def candidate (tryN : Nat) : WString :=
  let l := units dir + 1 + units pfx + 4 * (4 * 3 + 2) + 1
  (utf16 (x.format dir pfx tryN)).take l

/-- An iteration of the loop, with `s` and `try_n` behind the last one. -/
def tempNameStep (tryN : Nat) : Nat ⊕ (WString × Nat) :=
  let s := x.candidate dir pfx tryN
  if x.taken tryN s then
    if tryN < MAXTRIES then .inl (tryN + 1) else .inr (s, tryN + 1)
  else .inr (s, tryN)

/-- `dir` and `pfx` behind their defaults. -/
def dirOr : Text := if dir.isEmpty then tempPath x true else dir

def pfxOr : Text := if pfx.isEmpty then "temp".toList else pfx

/-- `temp_name`. -/
def tempName (fuel : Nat) : Option (Except Error WString) :=
  let dir := x.dirOr dir
  let pfx := pfxOr pfx
  if ¬x.granted dir then some (.error (.runtimeError ("access denied to directory: ".toList ++ dir)))
  else do
    let (s, tryN) ← run (x.tempNameStep dir pfx) fuel 0
    if tryN ≥ MAXTRIES then return .error (.rangeError "function temp_name MAXTRIES reached".toList)
    else return .ok s

end Tries

end Spacenet
