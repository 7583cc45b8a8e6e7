-- SUMMARY: The absorption of data as a fold over its 64-byte groups, the last of them padded with zeros.
import Spacenet.Cdc512.Rounds
import Spacenet.Effect.Content

/-!
# Groups

`update` splits its data into groups of 64 bytes and pads the last group. Zeros
behind the data that fit into the last group are not noticed by the words of the
context.
-/

namespace Spacenet

open Cdc512Data

/-! ## Blocks of data -/

/-- The induction over data by blocks: a last block, and a full block before other data. -/
theorem blockInduction {blockSize : Nat} (hpos : 0 < blockSize) {P : Blob → Prop} (hnil : P [])
    (hlast : ∀ block, block ≠ [] → block.length ≤ blockSize → P block)
    (hfull : ∀ block data, block.length = blockSize → P data → P (block ++ data)) (data : Blob) :
    P data := by
  by_cases hempty : data = []
  · rw [hempty]
    exact hnil
  · by_cases hle : data.length ≤ blockSize
    · exact hlast data hempty hle
    · have hblock : (data.take blockSize).length = blockSize := by
        rw [List.length_take]
        omega
      have hrest : (data.drop blockSize).length < data.length := by
        rw [List.length_drop]
        omega
      rw [← List.take_append_drop blockSize data]
      exact hfull _ _ hblock (blockInduction hpos hnil hlast hfull (data.drop blockSize))
termination_by data.length

theorem blockCount_nil (blockSize : Nat) : blockCount blockSize [] = 0 := by
  rcases Nat.eq_zero_or_pos blockSize with hzero | hpos
  · simp [blockCount, hzero]
  · have hcount := (blockCount_pos hpos []).not
    simpa using hcount

theorem zeroPad_append_zeros {blockSize : Nat} {block : Blob} {k : Nat}
    (h : block.length + k ≤ blockSize) :
    zeroPad blockSize (block ++ List.replicate k 0) = zeroPad blockSize block := by
  have hzeros : k + (blockSize - (block.length + k)) = blockSize - block.length := by omega
  simp only [zeroPad, List.length_append, List.length_replicate, List.append_assoc,
    List.replicate_append_replicate, hzeros]

/-! ## Groups of 64 bytes -/

/-- The groups that `update` absorbs. -/
def groups (data : Blob) : List Blob :=
  (List.range (blockCount size data)).map fun i => zeroPad size (blockAt size data i)

theorem groups_nil : groups [] = [] := by
  simp only [groups, blockCount_nil, List.range_zero, List.map_nil]

theorem groups_of_le {data : Blob} (hne : data ≠ []) (hle : data.length ≤ size) :
    groups data = [zeroPad size data] := by
  simp [groups, blockCount_of_le hne hle, blockAt, List.take_of_length_le hle]

theorem groups_append {group data : Blob} (hgroup : group.length = size) :
    groups (group ++ data) = group :: groups data := by
  have hfirst : zeroPad size (blockAt size (group ++ data) 0) = group := by
    simp [zeroPad, blockAt, ← hgroup]
  have hrest : (fun i => zeroPad size (blockAt size (group ++ data) i)) ∘ Nat.succ =
      fun i => zeroPad size (blockAt size data i) := by
    funext i
    exact congrArg (zeroPad size) (blockAt_append hgroup i)
  rw [groups, blockCount_append size_pos hgroup, List.range_succ_eq_map, List.map_cons,
    List.map_map, hrest, hfirst, groups]

/-! ## Absorbing -/

namespace Cdc512

theorem updateState_nil (s : Cdc512Data) : updateState [] s = s := rfl

theorem updateState_of_le {data : Blob} (hne : data ≠ []) (hle : data.length ≤ size) (s : Cdc512Data) :
    updateState data s = s.absorb (load (zeroPad size data)) := by
  rcases Nat.lt_or_eq_of_le hle with hlt | heq
  · have hchunks : data.length / size = 0 := Nat.div_eq_of_lt hlt
    simp only [updateState, hchunks, absorbChunks, gt_iff_lt, List.length_pos_iff, ne_eq, hne,
      not_false_eq_true, if_true, zeroPad]
  · have hchunks : data.length / size = 1 := by
      rw [heq]
      rfl
    have hrest : data.drop size = [] := List.drop_of_length_le hle
    have hpad : zeroPad size data = data := by simp [zeroPad, heq]
    simp only [updateState, hchunks, absorbChunks, hrest, hpad, List.length_nil, gt_iff_lt,
      Nat.lt_irrefl, if_false]

theorem updateState_append {group data : Blob} (hgroup : group.length = size) (s : Cdc512Data) :
    updateState (group ++ data) s = updateState data (s.absorb (load group)) := by
  have hne : group ≠ [] := by
    apply List.ne_nil_of_length_pos
    rw [hgroup]
    decide
  have hpad : zeroPad size group = group := by simp [zeroPad, hgroup]
  have hfirst := updateState_of_le hne (Nat.le_of_eq hgroup) s
  rw [hpad] at hfirst
  have happend := update_append ⟨s, [], 0⟩ group data (dvd_of_eq hgroup.symm)
  have hstate := congrArg Cdc512.toCdc512Data happend
  rw [update_toCdc512Data, update_toCdc512Data, update_toCdc512Data, hfirst] at hstate
  exact hstate.symm

/-- The words behind `update` are those behind both shuffles for each group in order. -/
theorem updateState_eq_foldl (data : Blob) (s : Cdc512Data) :
    updateState data s = (groups data).foldl (fun s group => s.absorb (load group)) s := by
  refine blockInduction size_pos
    (P := fun data => ∀ s, updateState data s = (groups data).foldl (fun s group => s.absorb (load group)) s)
    ?_ ?_ ?_ data s
  · intro s
    rw [groups_nil]
    rfl
  · intro block hne hle s
    rw [groups_of_le hne hle, updateState_of_le hne hle]
    rfl
  · intro group data hgroup ih s
    rw [groups_append hgroup, updateState_append hgroup, ih]
    rfl

end Cdc512

/-- Zeros that fit into the last group leave the groups as they are. -/
theorem groups_append_zeros {k : Nat} (data : Blob)
    (h : blockCount size (data ++ List.replicate k 0) = blockCount size data) :
    groups (data ++ List.replicate k 0) = groups data := by
  refine blockInduction size_pos
    (P := fun data => blockCount size (data ++ List.replicate k 0) = blockCount size data →
      groups (data ++ List.replicate k 0) = groups data) ?_ ?_ ?_ data h
  · intro h
    rw [blockCount_nil] at h
    simp only [groups, h, blockCount_nil, List.range_zero, List.map_nil]
  · intro block hne hle h
    rw [blockCount_of_le hne hle] at h
    have hroom : block.length + k ≤ size := by
      have hno : ¬1 < blockCount size (block ++ List.replicate k 0) := by omega
      rw [lt_blockCount size_pos] at hno
      simpa using hno
    have hne' : block ++ List.replicate k 0 ≠ [] := by
      intro hempty
      exact hne (List.append_eq_nil_iff.mp hempty).1
    have hle' : (block ++ List.replicate k 0).length ≤ size := by
      rw [List.length_append, List.length_replicate]
      exact hroom
    rw [groups_of_le hne' hle', groups_of_le hne hle, zeroPad_append_zeros hroom]
  · intro group data hgroup ih h
    rw [List.append_assoc, blockCount_append size_pos hgroup,
      blockCount_append size_pos hgroup] at h
    rw [List.append_assoc, groups_append hgroup, groups_append hgroup, ih (by omega)]

end Spacenet
