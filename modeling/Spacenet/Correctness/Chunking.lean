-- SUMMARY: `cdc512` over data in chunks compared with `cdc512` over the data at once.
import Spacenet.Cdc512.Groups

/-!
# Data in chunks

A file is hashed buffer by buffer. The context behind the buffers is the one
behind all of the data when only the last buffer may end inside a group.
-/

namespace Spacenet

open Cdc512Data

/-- Chunks that end at group boundaries may be absorbed one by one, as may data that is empty. -/
theorem foldl_update_eq {chunks : List Blob} (haligned : ∀ chunk ∈ chunks.dropLast, size ∣ chunk.length)
    (ctx : Cdc512) : chunks.foldl Cdc512.update ctx = ctx.update chunks.flatten := by
  induction chunks generalizing ctx with
  | nil => exact ctx.update_nil.symm
  | cons chunk chunks ih =>
      cases chunks with
      | nil => rw [List.flatten_singleton, List.foldl_cons, List.foldl_nil]
      | cons chunk' chunks =>
          rw [List.dropLast_cons_cons] at haligned
          have hchunk := haligned chunk List.mem_cons_self
          have hrest := ih (fun c hc => haligned c (List.mem_cons_of_mem _ hc)) (ctx.update chunk)
          rw [List.foldl_cons, hrest, ctx.update_append _ _ hchunk]
          rfl

/-- Calling `update` on chunks of which all but the last are whole groups leaves the context that one
`update` on their concatenation leaves. Its words are those behind both shuffles for each group of
the concatenation in order, and its count has grown by the length. -/
theorem update_chunks {chunks : List Blob} (haligned : ∀ chunk ∈ chunks.dropLast, size ∣ chunk.length)
    (ctx : Cdc512) :
    chunks.foldl Cdc512.update ctx = ctx.update chunks.flatten ∧
      (ctx.update chunks.flatten).toCdc512Data =
        (groups chunks.flatten).foldl (fun s group => (s.shuffleWith (load group)).shuffle)
          ctx.toCdc512Data ∧
      (ctx.update chunks.flatten).p = ctx.p + BitVec.ofNat 64 chunks.flatten.length := by
  refine ⟨foldl_update_eq haligned ctx, ?_, ctx.update_p chunks.flatten⟩
  rw [Cdc512.update_toCdc512Data, Cdc512.updateState_eq_foldl]
  rfl

/-- A whole group, no data, and a rest of one byte. -/
theorem update_chunks_three :
    [List.replicate 64 7, [], [1]].foldl Cdc512.update Cdc512.init =
        Cdc512.init.update [List.replicate 64 7, [], [1]].flatten ∧
      (Cdc512.init.update [List.replicate 64 7, [], [1]].flatten).toCdc512Data =
        (groups [List.replicate 64 7, [], [1]].flatten).foldl
          (fun s group => (s.shuffleWith (load group)).shuffle) Cdc512.init.toCdc512Data ∧
      (Cdc512.init.update [List.replicate 64 7, [], [1]].flatten).p =
        Cdc512.init.p + BitVec.ofNat 64 [List.replicate 64 (7 : U8), [], [1]].flatten.length :=
  update_chunks (by decide) Cdc512.init

end Spacenet
