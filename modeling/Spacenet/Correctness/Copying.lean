-- SUMMARY: `stream_copy_n` always writes as many bytes as requested, so it copies exactly if and only if the input holds that many.
import Spacenet.StdExt

/-!
# Copying streams

`stream_copy_n` writes what it has asked for, and not what it has got. Once the input
is at its end, the bytes that are written are those that the buffer happens to hold.
They are bytes of the input if that has filled the buffer once, and uninitialised
ones else. `copy_eof` writes what `gcount()` tells.
-/

namespace Spacenet

open Machine

/-! ## The input -/

namespace IStream

variable {is : IStream} {n : Nat}

/-- A stream with an error flag has been read to its end. -/
def Ended (is : IStream) : Prop := is.good = false → is.rest = []

theorem of_ended (rest : Blob) : (of rest).Ended := fun h => by cases h

theorem read_of_good (h : is.good = true) (n : Nat) :
    is.read n = (is.rest.take n, ⟨is.rest.drop n, is.rest.length < n, is.rest.length < n, min n is.rest.length⟩) := by
  have hshort : min n is.rest.length < n ↔ is.rest.length < n := by omega
  simp only [read, h, if_true, List.length_take, hshort]

theorem read_bytes (h : is.Ended) : (is.read n).1 = is.rest.take n := by
  cases hgood : is.good with
  | true => rw [read_of_good hgood]
  | false => simp [read, hgood, h hgood]

theorem read_rest (h : is.Ended) : (is.read n).2.rest = is.rest.drop n := by
  cases hgood : is.good with
  | true => rw [read_of_good hgood]
  | false => simp [read, hgood, h hgood]

theorem read_ended (h : is.Ended) : (is.read n).2.Ended := by
  intro hread
  rw [read_rest h]
  cases hgood : is.good with
  | true =>
      rw [read_of_good hgood] at hread
      simp only [good, Bool.and_self, Bool.not_eq_false', decide_eq_true_eq] at hread
      exact List.drop_eq_nil_of_le (Nat.le_of_lt hread)
  | false => rw [h hgood, List.drop_nil]

end IStream

theorem fillBuffer_length {buffer rest : Blob} {bufferSize r : Nat} (hbuffer : buffer.length = bufferSize)
    (hr : r ≤ bufferSize) : (fillBuffer buffer (rest.take r)).length = bufferSize := by
  have hbytes := List.length_take_le r rest
  rw [fillBuffer, List.length_append, List.length_drop]
  omega

/-! ## stream_copy_n -/

/-- The state behind an iteration that asks for `r` bytes. -/
def Copying.next (st : Copying) (r : Nat) : Copying :=
  let buffer := fillBuffer st.buffer (st.is.rest.take r)
  { out := st.out ++ buffer.take r, is := (st.is.read r).2, buffer, count := st.count - r }

theorem streamCopyNStep_eq {bufferSize : Nat} {st : Copying} (hended : st.is.Ended) (hcount : 0 < st.count) :
    streamCopyNStep bufferSize st = .inl (st.next (min st.count bufferSize)) := by
  have hr : (if st.count > bufferSize then bufferSize else st.count) = min st.count bufferSize := by
    split <;> omega
  simp only [streamCopyNStep, if_pos hcount, hr, IStream.read_bytes hended, Copying.next]

/-- Where the byte comes from that is written at position `i`, with these bytes in the buffer and behind it in
the input: from position `i` of the input or, behind its end, from the last position that was read to the same
place of the buffer. Where nothing was read to that place, from the buffer. -/
inductive Source (bufferSize : Nat) (buffer rest : Blob) (i : Nat) (byte : U8) : Prop where
  | input (j : Nat) (hbyte : rest[j]? = some byte) (hplace : j % bufferSize = i % bufferSize)
      (hlast : j = i ∨ rest.length ≤ i ∧ rest.length ≤ j + bufferSize)
  | buffer (hshort : rest.length ≤ i % bufferSize) (hbyte : buffer[i % bufferSize]? = some byte)

namespace Source

variable {bufferSize : Nat} {buffer buffer' rest : Blob} {i : Nat} {byte byte' : U8}

/-- Before the end of the input, the byte is that of the input. -/
theorem of_lt (h : Source bufferSize buffer rest i byte) (hlt : i < rest.length) : rest[i]? = some byte := by
  cases h with
  | input j hbyte hplace hlast =>
      obtain rfl : j = i := by omega
      exact hbyte
  | buffer hshort hbyte =>
      have := Nat.mod_le i bufferSize
      omega

/-- Behind an input that fills the buffer, the byte is one of those that were read last. -/
theorem exists_last (h : Source bufferSize buffer rest i byte) (hpos : 0 < bufferSize)
    (hfull : bufferSize ≤ rest.length) (hend : rest.length ≤ i) :
    ∃ j < rest.length, rest.length ≤ j + bufferSize ∧ j % bufferSize = i % bufferSize ∧ rest[j]? = some byte := by
  cases h with
  | input j hbyte hplace hlast =>
      obtain ⟨hlt, -⟩ := List.getElem?_eq_some_iff.mp hbyte
      exact ⟨j, hlt, by omega, hplace, hbyte⟩
  | buffer hshort hbyte =>
      have := Nat.mod_lt i hpos
      omega

/-- Two of the last positions that go to one place of the buffer are one position. -/
theorem last_unique {j j' n : Nat} (hj : j < n) (hj' : j' < n) (hlast : n ≤ j + bufferSize)
    (hlast' : n ≤ j' + bufferSize) (hplace : j % bufferSize = j' % bufferSize) : j = j' := by
  have hdiv := Nat.div_add_mod j bufferSize
  have hdiv' := Nat.div_add_mod j' bufferSize
  rcases Nat.lt_trichotomy (j / bufferSize) (j' / bufferSize) with hlt | heq | hlt
  · have := Nat.mul_le_mul_left bufferSize hlt
    rw [Nat.mul_succ] at this
    omega
  · rw [← hdiv, ← hdiv', heq, hplace]
  · have := Nat.mul_le_mul_left bufferSize hlt
    rw [Nat.mul_succ] at this
    omega

/-- So the buffer plays no part there. -/
theorem unique (hpos : 0 < bufferSize) (hfull : i < rest.length ∨ bufferSize ≤ rest.length)
    (h : Source bufferSize buffer rest i byte) (h' : Source bufferSize buffer' rest i byte') : byte = byte' := by
  rcases Nat.lt_or_ge i rest.length with hlt | hend
  · exact Option.some.inj ((h.of_lt hlt).symm.trans (h'.of_lt hlt))
  · have hfull := hfull.resolve_left (Nat.not_lt.mpr hend)
    obtain ⟨j, hj, hlast, hplace, hbyte⟩ := h.exists_last hpos hfull hend
    obtain ⟨j', hj', hlast', hplace', hbyte'⟩ := h'.exists_last hpos hfull hend
    obtain rfl := last_unique hj hj' hlast hlast' (hplace.trans hplace'.symm)
    exact Option.some.inj (hbyte.symm.trans hbyte')

/-- What an iteration writes. -/
theorem of_fillBuffer {r : Nat} (hr : r ≤ bufferSize) (hi : i < r)
    (h : (fillBuffer buffer (rest.take r))[i]? = some byte) : Source bufferSize buffer rest i byte := by
  have hplace : i % bufferSize = i := Nat.mod_eq_of_lt (Nat.lt_of_lt_of_le hi hr)
  unfold fillBuffer at h
  rcases Nat.lt_or_ge i (rest.take r).length with hlt | hend
  · rw [List.getElem?_append_left hlt, List.getElem?_take_of_lt hi] at h
    exact .input i h rfl (.inl rfl)
  · rw [List.getElem?_append_right hend, List.getElem?_drop, Nat.add_sub_cancel' hend] at h
    have hshort : rest.length ≤ i := by
      rw [List.length_take] at hend
      omega
    exact .buffer (hplace.symm ▸ hshort) (hplace.symm ▸ h)

/-- What is written behind an iteration that has filled the buffer as far as it could. -/
theorem of_next (hbuffer : buffer.length = bufferSize) (hi : bufferSize ≤ i)
    (h : Source bufferSize (fillBuffer buffer (rest.take bufferSize)) (rest.drop bufferSize) (i - bufferSize) byte) :
    Source bufferSize buffer rest i byte := by
  have hplace : (i - bufferSize) % bufferSize = i % bufferSize := (Nat.mod_eq_sub_mod hi).symm
  cases h with
  | input j hbyte hj hlast =>
      rw [List.getElem?_drop] at hbyte
      rw [List.length_drop] at hlast
      have hlt := (List.getElem?_eq_some_iff.mp hbyte).1
      refine .input (bufferSize + j) hbyte ?_ (by omega)
      rw [Nat.add_mod_left, hj, hplace]
  | buffer hshort hbyte =>
      have hbefore := Nat.mod_le (i - bufferSize) bufferSize
      rw [hplace] at hshort hbyte hbefore
      rw [List.length_drop] at hshort
      have hlt : i % bufferSize < bufferSize := by
        have hlength := (List.getElem?_eq_some_iff.mp hbyte).1
        rwa [fillBuffer_length hbuffer (Nat.le_refl _)] at hlength
      unfold fillBuffer at hbyte
      rcases Nat.lt_or_ge (i % bufferSize) (rest.take bufferSize).length with hread | hkept
      · rw [List.getElem?_append_left hread, List.getElem?_take_of_lt hlt] at hbyte
        exact .input (i % bufferSize) hbyte (Nat.mod_mod _ _) (by omega)
      · rw [List.getElem?_append_right hkept, List.getElem?_drop, Nat.add_sub_cancel' hkept] at hbyte
        rw [List.length_take] at hkept
        exact .buffer (by omega) hbyte

end Source

/-- The loop ends with as many bytes as are still to be copied, each from its source. -/
theorem run_streamCopyNStep {bufferSize : Nat} (hpos : 0 < bufferSize) (st : Copying)
    (hbuffer : st.buffer.length = bufferSize) (hended : st.is.Ended) :
    ∃ fuel bytes, run (streamCopyNStep bufferSize) fuel st = some (st.out ++ bytes) ∧ bytes.length = st.count ∧
      ∀ i byte, bytes[i]? = some byte → Source bufferSize st.buffer st.is.rest i byte := by
  induction hn : st.count using Nat.strongRecOn generalizing st with
  | ind n ih =>
      subst hn
      rcases Nat.eq_zero_or_pos st.count with hzero | hcount
      · have hstep : streamCopyNStep bufferSize st = .inr st.out := by
          simp only [streamCopyNStep, hzero, gt_iff_lt, Nat.lt_irrefl, if_false]
        refine ⟨1, [], ?_, hzero.symm, fun i byte h => by cases h⟩
        simp only [run, hstep, List.append_nil]
      · generalize hr : min st.count bufferSize = r
        have hle : r ≤ st.count ∧ r ≤ bufferSize ∧ 0 < r := by omega
        have hlength : (st.next r).buffer.length = bufferSize := fillBuffer_length hbuffer hle.2.1
        have hcopied : (st.next r).count = st.count - r := rfl
        have hrest : (st.next r).is.rest = st.is.rest.drop r := IStream.read_rest hended
        obtain ⟨fuel, bytes, hrun, hbytes, hsource⟩ := ih (st.next r).count (by omega) (st.next r) hlength
          (IStream.read_ended hended) rfl
        have hwritten : ((st.next r).buffer.take r).length = r := by
          rw [List.length_take, hlength, Nat.min_eq_left hle.2.1]
        refine ⟨fuel + 1, (st.next r).buffer.take r ++ bytes, ?_, ?_, ?_⟩
        · simp only [run, streamCopyNStep_eq hended hcount, hr]
          rw [hrun, ← List.append_assoc]
          rfl
        · rw [List.length_append, hwritten, hbytes, hcopied, Nat.add_sub_cancel' hle.1]
        · intro i byte hbyte
          rcases Nat.lt_or_ge i r with hfirst | hlater
          · rw [List.getElem?_append_left (by omega), List.getElem?_take_of_lt hfirst] at hbyte
            exact .of_fillBuffer hle.2.1 hfirst hbyte
          · rw [List.getElem?_append_right (by omega), hwritten] at hbyte
            -- bytes are written behind this iteration, so it has asked for a whole buffer
            have hlt := (List.getElem?_eq_some_iff.mp hbyte).1
            obtain rfl : r = bufferSize := by omega
            have h := hsource _ _ hbyte
            rw [hrest] at h
            exact .of_next hbuffer hlater h

section

variable {bufferSize : Nat} {buffer content : Blob} {size : Nat}

theorem exists_streamCopyN (hpos : 0 < bufferSize) (hbuffer : buffer.length = bufferSize) (out content : Blob)
    (size : Nat) :
    ∃ fuel bytes, streamCopyN fuel bufferSize buffer out (.of content) size = some (out ++ bytes) ∧
      bytes.length = size ∧ ∀ i byte, bytes[i]? = some byte → Source bufferSize buffer content i byte :=
  run_streamCopyNStep hpos ⟨out, .of content, buffer, size⟩ hbuffer (IStream.of_ended content)

/-- As many bytes are written as are requested, each from its source. -/
theorem source_of_streamCopyN (hpos : 0 < bufferSize) (hbuffer : buffer.length = bufferSize) {out r : Blob} {fuel : Nat}
    (h : streamCopyN fuel bufferSize buffer out (.of content) size = some r) :
    ∃ bytes, r = out ++ bytes ∧ bytes.length = size ∧
      ∀ i byte, bytes[i]? = some byte → Source bufferSize buffer content i byte := by
  obtain ⟨fuel', bytes, hrun, hbytes, hsource⟩ := exists_streamCopyN hpos hbuffer out content size
  exact ⟨bytes, Halts.unique (halts_iff.mpr ⟨fuel, h⟩) (halts_iff.mpr ⟨fuel', hrun⟩), hbytes, hsource⟩

theorem streamCopyN_of_le (hpos : 0 < bufferSize) (hbuffer : buffer.length = bufferSize) (out : Blob)
    (hsize : size ≤ content.length) :
    ∃ fuel, streamCopyN fuel bufferSize buffer out (.of content) size = some (out ++ content.take size) := by
  obtain ⟨fuel, bytes, hrun, rfl, hsource⟩ := exists_streamCopyN hpos hbuffer out content size
  have heq : bytes = content.take bytes.length := by
    apply List.ext_getElem?
    intro i
    rcases Nat.lt_or_ge i bytes.length with hlt | hge
    · rw [List.getElem?_take_of_lt hlt, List.getElem?_eq_getElem hlt]
      exact ((hsource i _ (List.getElem?_eq_getElem hlt)).of_lt (Nat.lt_of_lt_of_le hlt hsize)).symm
    · rw [List.getElem?_eq_none hge, List.getElem?_eq_none (Nat.le_trans (List.length_take_le _ _) hge)]
  exact ⟨fuel, heq ▸ hrun⟩

end

/-- Exactly the first bytes of the input are appended to the output, whatever the buffer holds before. -/
def CopiesExactly (bufferSize : Nat) (content : Blob) (size : Nat) : Prop :=
  ∀ buffer out : Blob, buffer.length = bufferSize →
    ∃ fuel, streamCopyN fuel bufferSize buffer out (.of content) size
      = some (out ++ content.take (min size content.length))

/-- The copy is exact when the input is long enough, and never else. -/
theorem streamCopyN_exactly_iff {bufferSize : Nat} (hpos : 0 < bufferSize) (content : Blob) (size : Nat) :
    CopiesExactly bufferSize content size ↔ size ≤ content.length := by
  constructor
  · intro hexact
    have hbuffer : (List.replicate bufferSize (0 : U8)).length = bufferSize := List.length_replicate
    obtain ⟨fuel, h⟩ := hexact _ [] hbuffer
    obtain ⟨bytes, heq, hbytes, -⟩ := source_of_streamCopyN hpos hbuffer h
    rw [List.nil_append, List.nil_append] at heq
    have hlength := congrArg List.length heq
    rw [List.length_take] at hlength
    omega
  · intro hsize buffer out hbuffer
    rw [Nat.min_eq_left hsize]
    exact streamCopyN_of_le hpos hbuffer out hsize

theorem streamCopyN_exactly_iff_four : CopiesExactly 4 [1, 2, 3, 4, 5] 5 ↔ 5 ≤ [1, 2, 3, 4, 5].length :=
  streamCopyN_exactly_iff (by decide) _ _

/-- The second byte was in the buffer before anything had been read. -/
theorem streamCopyN_leaks :
    streamCopyN 2 4 [0xaa, 0xbb, 0xcc, 0xdd] [] (.of [1]) 2 = some [1, 0xbb] ∧ ¬CopiesExactly 4 [1] 2 := by
  have hleak : streamCopyN 2 4 [0xaa, 0xbb, 0xcc, 0xdd] [] (.of [1]) 2 = some [1, 0xbb] := by decide
  refine ⟨hleak, ?_⟩
  intro hexact
  obtain ⟨fuel, h⟩ := hexact [0xaa, 0xbb, 0xcc, 0xdd] [] rfl
  have heq := Halts.unique (halts_iff.mpr ⟨2, hleak⟩) (halts_iff.mpr ⟨fuel, h⟩)
  exact absurd heq (by decide)

/-! ## Bytes that were never stored -/

/-- The output is the same whatever the buffer holds before the first read. -/
def IgnoresBuffer (bufferSize : Nat) (content : Blob) (size : Nat) : Prop :=
  ∀ (buffer buffer' out r r' : Blob) (fuel fuel' : Nat), buffer.length = bufferSize → buffer'.length = bufferSize →
    streamCopyN fuel bufferSize buffer out (.of content) size = some r →
    streamCopyN fuel' bufferSize buffer' out (.of content) size = some r' → r = r'

/-- Each byte behind the end of the input is the one that was read last to the same place of the buffer. -/
def RepeatsInput (bufferSize : Nat) (content : Blob) (size : Nat) : Prop :=
  ∀ buffer out : Blob, buffer.length = bufferSize →
    ∃ fuel bytes, streamCopyN fuel bufferSize buffer out (.of content) size = some (out ++ bytes) ∧
      bytes.length = size ∧ ∀ i, content.length ≤ i → i < size →
        ∃ j < content.length, content.length ≤ j + bufferSize ∧ j % bufferSize = i % bufferSize ∧
          bytes[i]? = content[j]?

section

variable {bufferSize : Nat} {content : Blob} {size : Nat}

/-- Behind an input that does not fill the buffer once, a byte of the buffer is written. -/
theorem exists_streamCopyN_byte (hsize : content.length < size) (hshort : content.length < bufferSize) (byte : U8) :
    ∃ fuel bytes, streamCopyN fuel bufferSize (List.replicate bufferSize byte) [] (.of content) size = some bytes ∧
      bytes[content.length]? = some byte := by
  obtain ⟨fuel, bytes, hrun, rfl, hsource⟩ := exists_streamCopyN (Nat.zero_lt_of_lt hshort)
    (List.length_replicate (a := byte)) [] content size
  refine ⟨fuel, bytes, hrun, ?_⟩
  have hplace : content.length % bufferSize = content.length := Nat.mod_eq_of_lt hshort
  rw [List.getElem?_eq_getElem hsize, Option.some_inj]
  cases hsource _ _ (List.getElem?_eq_getElem hsize) with
  | input j hbyte hj hlast =>
      have hlt := (List.getElem?_eq_some_iff.mp hbyte).1
      rw [hplace, Nat.mod_eq_of_lt (Nat.lt_trans hlt hshort)] at hj
      omega
  | buffer hend hbyte =>
      rw [hplace, List.getElem?_replicate_of_lt hshort] at hbyte
      exact (Option.some.inj hbyte).symm

theorem ignoresBuffer_iff (hpos : 0 < bufferSize) :
    IgnoresBuffer bufferSize content size ↔ size ≤ content.length ∨ bufferSize ≤ content.length := by
  constructor
  · intro hsame
    by_contra hnot
    obtain ⟨hsize, hshort⟩ := not_or.mp hnot
    obtain ⟨fuel, r, hr, hbyte⟩ := exists_streamCopyN_byte (Nat.lt_of_not_le hsize) (Nat.lt_of_not_le hshort) 0
    obtain ⟨fuel', r', hr', hbyte'⟩ := exists_streamCopyN_byte (Nat.lt_of_not_le hsize) (Nat.lt_of_not_le hshort) 1
    have heq := hsame _ _ [] r r' fuel fuel' List.length_replicate List.length_replicate hr hr'
    rw [heq, hbyte'] at hbyte
    exact absurd hbyte (by decide)
  · intro h buffer buffer' out r r' fuel fuel' hbuffer hbuffer' hr hr'
    obtain ⟨bytes, rfl, hbytes, hsource⟩ := source_of_streamCopyN hpos hbuffer hr
    obtain ⟨bytes', rfl, hbytes', hsource'⟩ := source_of_streamCopyN hpos hbuffer' hr'
    congr 1
    apply List.ext_getElem (hbytes.trans hbytes'.symm)
    intro i hi hi'
    have hfull : i < content.length ∨ bufferSize ≤ content.length := h.imp_left (Nat.lt_of_lt_of_le (hbytes ▸ hi))
    exact (hsource i _ (List.getElem?_eq_getElem hi)).unique hpos hfull (hsource' i _ (List.getElem?_eq_getElem hi'))

theorem repeatsInput_of_le (hpos : 0 < bufferSize) (hfull : bufferSize ≤ content.length) :
    RepeatsInput bufferSize content size := by
  intro buffer out hbuffer
  obtain ⟨fuel, bytes, hrun, hbytes, hsource⟩ := exists_streamCopyN hpos hbuffer out content size
  refine ⟨fuel, bytes, hrun, hbytes, ?_⟩
  intro i hend hi
  have hlt : i < bytes.length := hbytes ▸ hi
  obtain ⟨j, hj, hlast, hplace, hbyte⟩ :=
    (hsource i _ (List.getElem?_eq_getElem hlt)).exists_last hpos hfull hend
  exact ⟨j, hj, hlast, hplace, by rw [hbyte, List.getElem?_eq_getElem hlt]⟩

/-- Uninitialised bytes are written exactly when the input is shorter than the request and than the buffer.
Behind a longer input they are bytes that have been read before. -/
theorem streamCopyN_ignoresBuffer_iff (hpos : 0 < bufferSize) (content : Blob) (size : Nat) :
    (IgnoresBuffer bufferSize content size ↔ size ≤ content.length ∨ bufferSize ≤ content.length) ∧
      (bufferSize ≤ content.length → RepeatsInput bufferSize content size) :=
  ⟨ignoresBuffer_iff hpos, repeatsInput_of_le hpos⟩

end

/-- The second read gets one byte of the four that are asked for. -/
theorem streamCopyN_ignoresBuffer_iff_four :
    (IgnoresBuffer 4 [1, 2, 3, 4, 5] 8 ↔ 8 ≤ [1, 2, 3, 4, 5].length ∨ 4 ≤ [1, 2, 3, 4, 5].length) ∧
      (4 ≤ [1, 2, 3, 4, 5].length → RepeatsInput 4 [1, 2, 3, 4, 5] 8) :=
  streamCopyN_ignoresBuffer_iff (by decide) _ _

/-! ## copy_eof -/

/-- A read that is not cut short is written as it is. -/
theorem take_fillBuffer (buffer : Blob) {rest : Blob} {r : Nat} (hr : r ≤ rest.length) :
    (fillBuffer buffer (rest.take r)).take r = rest.take r :=
  List.take_left' (by simpa using hr)

theorem run_copyEofStep {bufferSize : Nat} (hpos : 0 < bufferSize) (st : Copying)
    (hbuffer : st.buffer.length = bufferSize) (hgood : st.is.good = true) :
    ∃ fuel, run (copyEofStep bufferSize) fuel st = some (st.out ++ st.is.rest) := by
  induction hn : st.is.rest.length using Nat.strongRecOn generalizing st with
  | ind n ih =>
      obtain ⟨out, is, buffer, count⟩ := st
      simp only at hbuffer hgood hn ⊢
      rcases Nat.lt_or_ge is.rest.length bufferSize with hshort | henough
      · have hall : is.rest.take bufferSize = is.rest := List.take_of_length_le (Nat.le_of_lt hshort)
        have hstep : copyEofStep bufferSize ⟨out, is, buffer, count⟩ = .inr (out ++ is.rest) := by
          simp only [copyEofStep, IStream.read_of_good hgood, hshort, decide_true, if_true, hall,
            Nat.min_eq_right (Nat.le_of_lt hshort), fillBuffer, List.take_left]
        exact ⟨1, by simp only [run, hstep]⟩
      · have hfull : (fillBuffer buffer (is.rest.take bufferSize)).take bufferSize = is.rest.take bufferSize :=
          take_fillBuffer buffer henough
        let next : Copying := ⟨out ++ is.rest.take bufferSize, ⟨is.rest.drop bufferSize, false, false, bufferSize⟩,
          fillBuffer buffer (is.rest.take bufferSize), count⟩
        have hstep : copyEofStep bufferSize ⟨out, is, buffer, count⟩ = .inl next := by
          simp only [copyEofStep, IStream.read_of_good hgood, Nat.not_lt.mpr henough, decide_false,
            Bool.false_eq_true, if_false, Nat.min_eq_left henough, hfull, next]
        obtain ⟨fuel, hrun⟩ := ih (is.rest.drop bufferSize).length (by rw [List.length_drop]; omega) next
          (fillBuffer_length hbuffer (Nat.le_refl _)) rfl rfl
        refine ⟨fuel + 1, ?_⟩
        simp only [run, hstep]
        rw [hrun, List.append_assoc, List.take_append_drop]

/-- A stream that has failed without an end is read for ever. -/
theorem run_copyEofStep_failed {bufferSize : Nat} (st : Copying) (hfail : st.is.failbit = true)
    (heof : st.is.eofbit = false) (fuel : Nat) : run (copyEofStep bufferSize) fuel st = none := by
  induction fuel generalizing st with
  | zero => rfl
  | succ fuel ih =>
      have hgood : st.is.good = false := by simp [IStream.good, hfail]
      simp only [run, copyEofStep, IStream.read, hgood, heof, Bool.false_eq_true, if_false]
      exact ih _ rfl rfl

/-- The function that asks `gcount()` copies all that is left, and nothing else. It ends on every stream but those
that have failed without an end. -/
theorem copyEof_returns_iff {bufferSize : Nat} (hpos : 0 < bufferSize) {buffer : Blob}
    (hbuffer : buffer.length = bufferSize) (out : Blob) (is : IStream) (r : Blob) :
    (∃ fuel, copyEof fuel bufferSize buffer out is = some r) ↔
      is.good = true ∧ r = out ++ is.rest ∨ is.eofbit = true ∧ r = out := by
  unfold copyEof
  rw [← halts_iff]
  cases hgood : is.good with
  | true =>
      have heof : is.eofbit = false := by simp_all [IStream.good]
      have hcopied := halts_iff.mpr (run_copyEofStep hpos ⟨out, is, buffer, 0⟩ hbuffer hgood)
      simp only [heof, true_and, Bool.false_eq_true, false_and, or_false]
      exact ⟨fun h => h.unique hcopied, fun h => h ▸ hcopied⟩
  | false =>
      simp only [Bool.false_eq_true, false_and, false_or]
      cases heof : is.eofbit with
      | true =>
          have hended : Halts (copyEofStep bufferSize) ⟨out, is, buffer, 0⟩ out :=
            halts_iff.mpr ⟨1, by simp [run, copyEofStep, IStream.read, hgood, heof]⟩
          simp only [true_and]
          exact ⟨fun h => h.unique hended, fun h => h ▸ hended⟩
      | false =>
          have hfail : is.failbit = true := by simp_all [IStream.good]
          simp only [Bool.false_eq_true, false_and, halts_iff, run_copyEofStep_failed ⟨out, is, buffer, 0⟩ hfail heof,
            reduceCtorEq, exists_false]

theorem copyEof_returns_iff_four :
    (∃ fuel, copyEof fuel 4 [0, 0, 0, 0] [] (.of [1, 2, 3, 4, 5]) = some [1, 2, 3, 4, 5]) ↔
      (IStream.of [1, 2, 3, 4, 5]).good = true ∧ [1, 2, 3, 4, 5] = [] ++ (IStream.of [1, 2, 3, 4, 5]).rest ∨
        (IStream.of [1, 2, 3, 4, 5]).eofbit = true ∧ ([1, 2, 3, 4, 5] : Blob) = [] :=
  have hbuffer : ([0, 0, 0, 0] : Blob).length = 4 := rfl
  copyEof_returns_iff (by decide) hbuffer _ _ _

end Spacenet
