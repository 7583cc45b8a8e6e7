-- SUMMARY: The references between the rows: parents and the entries of blocks exist, and the statements of `reindex` keep it so.
import Spacenet.Effect.Rooted

/-!
# References between the rows

No foreign key is declared. That a parent and the entry of a block exist follows
from what each statement is executed with: the parent of a row that is written is
marked, so is the entry of a block, and the blocks of the rows that are deleted
are gone before.
-/

namespace Spacenet

open UniqueKey

/-- The constraints and the references of the tables. -/
structure Tables.Integral (t : Tables) : Prop where
  keys : Unique EntryRow.key t.entries.rows
  blockKeys : Unique BlockRow.key t.blocksDigests.rows
  parents : ∀ r ∈ t.entries.rows, r.parentId ≠ 0 →
    ∃ p ∈ t.entries.rows, p.rowid = r.parentId ∧ p.rowid < r.rowid
  blocks : ∀ b ∈ t.blocksDigests.rows, ∃ r ∈ t.entries.rows, r.rowid = b.entryId

/-- The invariant of the statements: the parent of a marked row is marked. -/
structure Tables.Coherent (t : Tables) : Prop extends t.Integral where
  marked : ∀ r ∈ t.entries.rows, r.isAlive = 0 → t.entries.MarkedDir r.parentId

namespace Tables.Integral

variable {t : Tables}

/-- The chain of the parents of a row ends at the top: the row has a path. -/
theorem linked (h : t.Integral) {r : EntryRow} (hr : r ∈ t.entries.rows) :
    ∃ path, t.entries.rowAt path = some r := by
  induction hid : r.rowid using Nat.strong_induction_on generalizing r with
  | _ id ih =>
      subst hid
      by_cases hroot : r.parentId = 0
      · refine ⟨[] ++ [r.name], Entries.rowAt_of_find ?_ (Entries.find_self hr)⟩
        rw [hroot]
        rfl
      · obtain ⟨p, hp, hid, hlt⟩ := h.parents r hr hroot
        obtain ⟨path, hpath⟩ := ih p.rowid hlt hp rfl
        refine ⟨path ++ [r.name], Entries.rowAt_of_find ?_ (Entries.find_self hr)⟩
        rw [← hid]
        exact Entries.idAt_of_rowAt hpath

/-- The rowid of a row that is inserted next has no blocks. -/
theorem fresh (h : t.Integral) (policy : RowidPolicy) {b : BlockRow} (hb : b ∈ t.blocksDigests.rows) :
    b.entryId ≠ policy.next t.entries.rowids := by
  obtain ⟨r, hr, hid⟩ := h.blocks b hb
  rw [← hid]
  intro heq
  exact policy.fresh t.entries.rowids (List.mem_map.mpr ⟨r, hr, heq⟩)

end Tables.Integral

/-! ## Entries that grow -/

/-- The rows keep their rowids and marks, and what is written is in a marked directory. -/
structure Entries.Grows (e e' : Entries) : Prop where
  kept : ∀ r ∈ e.rows, ∃ r' ∈ e'.rows, r'.rowid = r.rowid ∧ (r.isAlive = 0 → r'.isAlive = 0)
  rows : ∀ r' ∈ e'.rows, (∃ r ∈ e.rows, r.rowid = r'.rowid ∧ r.parentId = r'.parentId) ∨
    e.MarkedDir r'.parentId ∧ ∀ r ∈ e.rows, r.rowid < r'.rowid
  marked : ∀ r' ∈ e'.rows, r'.isAlive = 0 → e.MarkedDir r'.parentId

namespace Entries.Grows

variable {e e' : Entries}

theorem markedDir (h : e.Grows e') {id : Nat} (hid : e.MarkedDir id) : e'.MarkedDir id := by
  apply hid.imp_right
  rintro ⟨p, hp, rfl, hmarked⟩
  obtain ⟨p', hp', hid, hmarked'⟩ := h.kept p hp
  exact ⟨p', hp', hid, hmarked' hmarked⟩

theorem refl (hmarked : ∀ r ∈ e.rows, r.isAlive = 0 → e.MarkedDir r.parentId) : e.Grows e where
  kept := fun r hr => ⟨r, hr, rfl, fun h => h⟩
  rows := fun r hr => .inl ⟨r, hr, rfl, rfl⟩
  marked := hmarked

/-- Rows rewritten in place, a marked one in a marked directory. -/
theorem update {p : EntryRow → Bool} {f : EntryRow → EntryRow}
    (hid : ∀ r, p r → (f r).rowid = r.rowid) (hkey : ∀ r, p r → (f r).key = r.key)
    (hmarked : ∀ r ∈ e.rows, r.isAlive = 0 → e.MarkedDir r.parentId)
    (hf : ∀ r ∈ e.rows, p r = true → (f r).isAlive = 0 ∧ e.MarkedDir r.parentId) :
    e.Grows (e.update p f hid hkey) where
  kept := by
    intro r hr
    refine ⟨_, mem_modify.mpr ⟨r, hr, rfl⟩, ?_⟩
    split
    · next hp => exact ⟨hid r hp, fun _ => (hf r hr hp).1⟩
    · exact ⟨rfl, fun h => h⟩
  rows := by
    intro r' hr'
    obtain ⟨r, hr, rfl⟩ := mem_modify.mp hr'
    refine .inl ⟨r, hr, ?_⟩
    split
    · next hp => exact ⟨(hid r hp).symm, (Prod.mk.inj (hkey r hp)).1.symm⟩
    · exact ⟨rfl, rfl⟩
  marked := by
    intro r' hr' hm
    obtain ⟨r, hr, rfl⟩ := mem_modify.mp hr'
    by_cases hp : p r = true
    · rw [if_pos hp, (Prod.mk.inj (hkey r hp)).1]
      exact (hf r hr hp).2
    · rw [if_neg hp] at hm ⊢
      exact hmarked r hr hm

theorem insert {params : EntryParams} (h : e.find params.parentId params.name = none)
    (hmarked : ∀ r ∈ e.rows, r.isAlive = 0 → e.MarkedDir r.parentId)
    (hdir : e.MarkedDir params.parentId) : e.Grows (e.insert .maxPlusOne params h) where
  kept := fun r hr => ⟨r, List.mem_append_left _ hr, rfl, fun h => h⟩
  rows := by
    intro r' hr'
    rcases List.mem_append.mp hr' with hr' | hr'
    · exact .inl ⟨r', hr', rfl, rfl⟩
    · rw [List.mem_singleton.mp hr']
      refine .inr ⟨hdir, fun r hr => ?_⟩
      exact Nat.lt_succ_of_le (le_foldr_max (List.mem_map.mpr ⟨r, hr, rfl⟩))
  marked := by
    intro r' hr' hm
    rcases List.mem_append.mp hr' with hr' | hr'
    · exact hmarked r' hr' hm
    · rw [List.mem_singleton.mp hr']
      exact hdir

end Entries.Grows

/-! ## The statements -/

/-- What the statement may be executed with: the directory of a row that gets a mark is marked, and so
is the entry of a block. No entry is deleted before its blocks. -/
def Stmt.Admissible (t : Tables) : Stmt → Prop
  | .ins params | .upd params => t.entries.MarkedDir params.parentId
  | .updTouch id => ∃ r ∈ t.entries.rows, r.rowid = id ∧ t.entries.MarkedDir r.parentId
  | .updAfter id _ _ => t.entries.MarkedDir id
  | .blkIns entryId _ _ => entryId ≠ 0 ∧ t.entries.MarkedDir entryId
  | .deleteEntries => ∀ b ∈ t.blocksDigests.rows, b.entryId ∉ t.entries.unmarked
  | _ => True

namespace Tables.Coherent

variable {t : Tables}

theorem empty : Tables.empty.Coherent where
  keys := Entries.empty.keyUnique
  blockKeys := Blocks.empty.keyUnique
  parents := fun _ hr => absurd hr List.not_mem_nil
  blocks := fun _ hb => absurd hb List.not_mem_nil
  marked := fun _ hr => absurd hr List.not_mem_nil

theorem grow (h : t.Coherent) {entries : Entries} (hgrows : t.entries.Grows entries) :
    Coherent { t with entries := entries } where
  keys := entries.keyUnique
  blockKeys := h.blockKeys
  parents := by
    intro r' hr' hne
    rcases hgrows.rows r' hr' with ⟨r, hr, hid, hparent⟩ | ⟨hdir, hlast⟩
    · obtain ⟨p, hp, hpid, hlt⟩ := h.parents r hr (hparent ▸ hne)
      obtain ⟨p', hp', hpid', -⟩ := hgrows.kept p hp
      refine ⟨p', hp', ?_, ?_⟩
      · rw [hpid', hpid, hparent]
      · rw [hpid', ← hid]
        exact hlt
    · rcases hdir with hzero | ⟨p, hp, hpid, -⟩
      · exact absurd hzero hne
      · obtain ⟨p', hp', hpid', -⟩ := hgrows.kept p hp
        refine ⟨p', hp', hpid'.trans hpid, ?_⟩
        rw [hpid']
        exact hlast p hp
  blocks := by
    intro b hb
    obtain ⟨r, hr, hid⟩ := h.blocks b hb
    obtain ⟨r', hr', hid', -⟩ := hgrows.kept r hr
    exact ⟨r', hr', hid'.trans hid⟩
  marked := fun r' hr' hm => hgrows.markedDir (hgrows.marked r' hr' hm)

theorem withBlocks (h : t.Coherent) {blocks : Blocks}
    (hblocks : ∀ b ∈ blocks.rows, ∃ r ∈ t.entries.rows, r.rowid = b.entryId) :
    Coherent { t with blocksDigests := blocks } where
  keys := h.keys
  blockKeys := blocks.keyUnique
  parents := h.parents
  blocks := hblocks
  marked := h.marked

theorem filterBlocks (h : t.Coherent) (p : BlockRow → Bool) :
    Coherent { t with blocksDigests := t.blocksDigests.filter p } :=
  h.withBlocks fun b hb => h.blocks b (List.mem_filter.mp hb).1

theorem deleteEntries (h : t.Coherent)
    (hblocks : ∀ b ∈ t.blocksDigests.rows, b.entryId ∉ t.entries.unmarked) :
    Coherent { t with entries := t.entries.deleteUnmarked } where
  keys := Entries.keyUnique _
  blockKeys := h.blockKeys
  parents := by
    intro r hr hne
    obtain ⟨hr, hmarked⟩ := Entries.mem_deleteUnmarked.mp hr
    obtain ⟨p, hp, hid, hlt⟩ := h.parents r hr hne
    -- the parent of a row that stays is marked, so it stays
    rcases h.marked r hr hmarked with hzero | ⟨p', hp', hid', hmarked'⟩
    · exact absurd hzero hne
    · obtain rfl := t.entries.rowidUnique.eq_of_key hp hp' (hid.trans hid'.symm)
      exact ⟨p, Entries.mem_deleteUnmarked.mpr ⟨hp, hmarked'⟩, hid, hlt⟩
  blocks := by
    intro b hb
    obtain ⟨r, hr, hid⟩ := h.blocks b hb
    refine ⟨r, Entries.mem_deleteUnmarked.mpr ⟨hr, ?_⟩, hid⟩
    by_contra hmarked
    exact hblocks b hb (Entries.mem_unmarked.mpr ⟨r, hr, hmarked, hid⟩)
  marked := by
    intro r hr hmarked
    obtain ⟨hr, -⟩ := Entries.mem_deleteUnmarked.mp hr
    apply (h.marked r hr hmarked).imp_right
    rintro ⟨p, hp, hid, hm⟩
    exact ⟨p, Entries.mem_deleteUnmarked.mpr ⟨hp, hm⟩, hid, hm⟩

theorem resetAlive (h : t.Coherent) : Coherent { t with entries := t.entries.resetAlive } where
  keys := Entries.keyUnique _
  blockKeys := h.blockKeys
  parents := by
    intro r hr hne
    obtain ⟨s, hs, rfl⟩ := Entries.mem_resetAlive.mp hr
    obtain ⟨p, hp, hid, hlt⟩ := h.parents s hs hne
    exact ⟨p.revived, Entries.mem_resetAlive.mpr ⟨p, hp, rfl⟩, hid, hlt⟩
  blocks := by
    intro b hb
    obtain ⟨r, hr, hid⟩ := h.blocks b hb
    exact ⟨r.revived, Entries.mem_resetAlive.mpr ⟨r, hr, rfl⟩, hid⟩
  marked := by
    intro r hr hmarked
    obtain ⟨s, -, rfl⟩ := Entries.mem_resetAlive.mp hr
    cases hmarked

end Tables.Coherent

namespace Stmt.Admissible

variable {t : Tables} {s : Stmt}

/-- An admissible statement of the callback only adds rows, and rewrites rows in place. -/
theorem grows (hs : s.Admissible t) (h : t.Coherent) (hdelete : s ≠ .deleteEntries)
    (hreset : s ≠ .resetAlive) : t.entries.Grows (s.exec .maxPlusOne t).2.entries := by
  cases s with
  | ins params =>
      cases hfind : t.entries.find params.parentId params.name with
      | none =>
          rw [exec_ins _ hfind]
          exact .insert hfind h.marked hs
      | some r =>
          rw [exec_ins_conflict _ (by rw [hfind]; exact Option.some_ne_none r)]
          exact .refl h.marked
  | upd params =>
      refine .update (p := fun r => r.key = params.key) (f := EntryRow.upd params) (fun _ _ => rfl)
        (fun _ h => (of_decide_eq_true h).symm) h.marked ?_
      intro r _ hkey
      rw [(Prod.mk.inj (of_decide_eq_true hkey)).1]
      exact ⟨rfl, hs⟩
  | updTouch id =>
      obtain ⟨p, hp, hid, hdir⟩ := hs
      refine .update (p := fun r => r.rowid = id) (f := EntryRow.touch) (fun _ _ => rfl)
        (fun _ _ => rfl) h.marked ?_
      intro r hr hrid
      rw [t.entries.rowidUnique.eq_of_key hr hp ((of_decide_eq_true hrid).trans hid.symm)]
      exact ⟨rfl, hdir⟩
  | updAfter id mtime digest =>
      refine .update (p := fun r => r.rowid = id) (f := .updAfter mtime digest)
        (fun _ _ => rfl) (fun _ _ => rfl) h.marked ?_
      intro r hr hrid
      refine ⟨rfl, ?_⟩
      have hid : r.rowid = id := of_decide_eq_true hrid
      rcases hs with hzero | ⟨p, hp, hpid, hmarked⟩
      · exact absurd (hid.trans hzero) (Nat.ne_of_gt (t.entries.rowidPos r hr))
      · rw [t.entries.rowidUnique.eq_of_key hr hp (hid.trans hpid.symm)]
        exact h.marked p hp hmarked
  | blkIns entryId blockNo digest =>
      cases hfind : t.blocksDigests.find entryId blockNo with
      | none =>
          rw [exec_blkIns _ _ hfind]
          exact .refl h.marked
      | some b =>
          rw [exec_blkIns_conflict _ _ (by rw [hfind]; exact Option.some_ne_none b)]
          exact .refl h.marked
  | deleteEntries => exact absurd rfl hdelete
  | resetAlive => exact absurd rfl hreset
  | create | sel | blkUpd | blkDel | deleteBlocks | begin | commit | rollback => exact .refl h.marked

/-- The step lemma of the invariant. -/
theorem coherent (hs : s.Admissible t) (h : t.Coherent) : (s.exec .maxPlusOne t).2.Coherent := by
  cases s with
  | ins params =>
      cases hfind : t.entries.find params.parentId params.name with
      | none =>
          rw [exec_ins _ hfind]
          exact h.grow (.insert hfind h.marked hs)
      | some r =>
          rw [exec_ins_conflict _ (by rw [hfind]; exact Option.some_ne_none r)]
          exact h
  | upd params => exact h.grow (hs.grows h nofun nofun)
  | updTouch id => exact h.grow (hs.grows h nofun nofun)
  | updAfter id mtime digest => exact h.grow (grows hs h nofun nofun)
  | blkIns entryId blockNo digest =>
      cases hfind : t.blocksDigests.find entryId blockNo with
      | none =>
          rw [exec_blkIns _ _ hfind]
          apply h.withBlocks
          intro b hb
          rcases List.mem_append.mp hb with hb | hb
          · exact h.blocks b hb
          · rw [List.mem_singleton.mp hb]
            rcases hs with ⟨hne, hzero | ⟨r, hr, hid, -⟩⟩
            · exact absurd hzero hne
            · exact ⟨r, hr, hid⟩
      | some b =>
          rw [exec_blkIns_conflict _ _ (by rw [hfind]; exact Option.some_ne_none b)]
          exact h
  | blkUpd entryId blockNo digest =>
      apply h.withBlocks
      intro b hb
      obtain ⟨b₀, hb₀, rfl⟩ := mem_modify.mp hb
      obtain ⟨r, hr, hid⟩ := h.blocks b₀ hb₀
      refine ⟨r, hr, ?_⟩
      split
      · exact hid
      · exact hid
  | blkDel entryId blockNo => exact h.filterBlocks _
  | deleteBlocks => exact h.filterBlocks _
  | deleteEntries => exact h.deleteEntries hs
  | resetAlive => exact h.resetAlive
  | create | sel | begin | commit | rollback => exact h

end Stmt.Admissible

end Spacenet
