-- SUMMARY: `std_ext.hpp`: the loop of `str_replace`, and the two loops that copy a stream through a buffer.
import Spacenet.Library.Machine
import Spacenet.Library.Occurrences
import Spacenet.Sqlite.Tables

/-!
# Extensions of the standard library

The loops are step machines, with as many steps as fuel is given. An iterator is
the position it has reached.
-/

namespace Spacenet

open Machine Occurrences

/-! ## str_replace -/

section

variable {α : Type} [DecidableEq α]

/-- `std::search(b, e, sb, se)`, with `e` the end of `subject`. -/
def searchFrom (subject search : List α) (b : Nat) : Nat :=
  match (subject.drop b).dropInfix? search with
  | some (gap, _) => b + gap.length
  | none => subject.length

/-- The locals that the loop of `str_replace` changes. -/
structure Replacing (α : Type) where
  s : List α
  b : Nat

/-- The elements from `b` up to `i`. -/
def range (l : List α) (b i : Nat) : List α := (l.drop b).take (i - b)

/-- An iteration of `str_replace`. `search` is the range between its iterators, `replace` what `append`
makes of it. -/
def strReplaceStep (subject search replace : List α) (st : Replacing α) : Replacing α ⊕ List α :=
  let l := search.length
  let e := subject.length
  let i := searchFrom subject search st.b
  if i = e then .inr (st.s ++ range subject st.b i)
  else .inl { s := st.s ++ range subject st.b i ++ replace, b := i + l }

/-- `str_replace`. -/
def strReplace (fuel : Nat) (subject search replace : List α) : Option (List α) :=
  run (strReplaceStep subject search replace) fuel ⟨[], 0⟩

variable {subject search replace : List α} {gaps : List (List α)}

/-- An iteration for each gap, the last of which ends the loop. -/
theorem run_strReplaceStep (hsearch : search ≠ []) {b : Nat} (hb : b ≤ subject.length)
    (h : Gaps search (subject.drop b) gaps) (s : List α) :
    run (strReplaceStep subject search replace) gaps.length ⟨s, b⟩ = some (s ++ replace.intercalate gaps) := by
  generalize hl : subject.drop b = l at h
  induction h generalizing b s with
  | @last l hnone =>
      have hi : searchFrom subject search b = subject.length := by
        rw [searchFrom, hl, dropInfix?_eq_none hnone]
      have hrange : range subject b subject.length = l := by
        rw [range, List.take_of_length_le (by rw [List.length_drop]), hl]
      have hstep : strReplaceStep subject search replace ⟨s, b⟩ = .inr (s ++ l) := by
        simp only [strReplaceStep, hi, if_true, hrange]
      simp only [List.length_singleton, run, hstep, List.intercalate_singleton]
  | @next gap rest gaps hleft hrest ih =>
      have hi : searchFrom subject search b = b + gap.length := by
        rw [searchFrom, hl, hleft.dropInfix?_eq]
      have hlength := congrArg List.length hl
      simp only [List.length_drop, List.length_append] at hlength
      have hpos := List.length_pos_iff.mpr hsearch
      have hne : b + gap.length ≠ subject.length := by omega
      have hrange : range subject b (b + gap.length) = gap := by
        rw [range, hl, Nat.add_sub_cancel_left, List.append_assoc, List.take_left]
      have hbehind : subject.drop (b + gap.length + search.length) = rest := by
        rw [Nat.add_assoc, ← List.drop_drop, hl, ← List.length_append, List.drop_left]
      have hstep : strReplaceStep subject search replace ⟨s, b⟩
          = .inl ⟨s ++ gap ++ replace, b + gap.length + search.length⟩ := by
        simp only [strReplaceStep, hi, if_neg hne, hrange]
      simp only [List.length_cons, run, hstep]
      rw [ih (by omega) _ hbehind, List.intercalate_cons_of_ne_nil hrest.ne_nil]
      simp only [List.append_assoc]

/-- The replacement stands between the gaps, and more fuel than characters is enough. -/
theorem strReplace_of_gaps (hsearch : search ≠ []) (h : Gaps search subject gaps) {fuel : Nat}
    (hfuel : subject.length < fuel) : strReplace fuel subject search replace = some (replace.intercalate gaps) := by
  have hlength := h.length_le hsearch
  have hsum : fuel = gaps.length + (fuel - gaps.length) := by omega
  rw [strReplace, hsum]
  exact run_add (run_strReplaceStep hsearch (Nat.zero_le _) h []) _

theorem strReplace_unique (hsearch : search ≠ []) (h : Gaps search subject gaps) {fuel : Nat} {r : List α}
    (hr : strReplace fuel subject search replace = some r) : r = replace.intercalate gaps := by
  have hmore : strReplace (fuel + (subject.length + 1)) subject search replace = some r := run_add hr _
  rw [strReplace_of_gaps hsearch h (by omega)] at hmore
  exact (Option.some.inj hmore).symm

end

/-! ## Streams -/

/-- `std::istream`: the bytes that have not been extracted, the error flags, and `gcount()`. -/
structure IStream where
  rest : Blob
  eofbit : Bool
  failbit : Bool
  gcount : Nat

/-- A stream that has been read up to these bytes without an error. -/
def IStream.of (rest : Blob) : IStream := ⟨rest, false, false, 0⟩

def IStream.good (is : IStream) : Bool := !is.eofbit && !is.failbit

/-- `read(s, n)`: the bytes stored at the front of `s`, and the stream behind it. Too few bytes set both
flags, and a stream with a flag set gives nothing. -/
def IStream.read (is : IStream) (n : Nat) : Blob × IStream :=
  if is.good then
    let bytes := is.rest.take n
    let short : Bool := bytes.length < n
    (bytes, { rest := is.rest.drop n, eofbit := short, failbit := short, gcount := bytes.length })
  else ([], { is with failbit := true, gcount := 0 })

/-- The buffer with the bytes stored at its front. -/
def fillBuffer (buffer bytes : Blob) : Blob := bytes ++ buffer.drop bytes.length

/-- The locals of the two functions that copy, with the bytes that `out` has been given. -/
structure Copying where
  out : Blob
  is : IStream
  buffer : Blob
  count : Nat

/-- An iteration of `stream_copy_n`. -/
def streamCopyNStep (bufferSize : Nat) (st : Copying) : Copying ⊕ Blob :=
  if st.count > 0 then
    let r := if st.count > bufferSize then bufferSize else st.count
    let (bytes, is) := st.is.read r
    let buffer := fillBuffer st.buffer bytes
    .inl { out := st.out ++ buffer.take r, is, buffer, count := st.count - r }
  else .inr st.out

/-- `stream_copy_n`. Nothing is stored in `buffer` before the first `read`. -/
def streamCopyN (fuel bufferSize : Nat) (buffer out : Blob) (is : IStream) (size : Nat) : Option Blob :=
  run (streamCopyNStep bufferSize) fuel ⟨out, is, buffer, size⟩

/-- An iteration of `copy_eof`. -/
def copyEofStep (bufferSize : Nat) (st : Copying) : Copying ⊕ Blob :=
  let (bytes, is) := st.is.read bufferSize
  let buffer := fillBuffer st.buffer bytes
  let r := is.gcount
  let out := st.out ++ buffer.take r
  if is.eofbit then .inr out else .inl { st with out, is, buffer }

/-- `copy_eof`. -/
def copyEof (fuel bufferSize : Nat) (buffer out : Blob) (is : IStream) : Option Blob :=
  run (copyEofStep bufferSize) fuel ⟨out, is, buffer, 0⟩

end Spacenet
