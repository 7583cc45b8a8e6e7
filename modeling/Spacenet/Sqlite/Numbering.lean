-- SUMMARY: The rowids of `blocks_digests`, which no statement names: how the statements of a log choose them.
import Spacenet.Sqlite.Trace

/-!
# The rowids of the blocks

`blocks_digests` is a rowid table, too. No statement reads its rowids, so the
tables leave them out; replaying a log over rows that have them says what they
are. Without the rowids the replay is that of the tables.
-/

namespace Spacenet

open UniqueKey

/-- A row of `blocks_digests` with its rowid. -/
structure NumberedBlock where
  rowid : Nat
  row : BlockRow
deriving DecidableEq

/-- The tables, with the rowids of the blocks. -/
structure Numbered where
  tables : Tables
  blocks : List NumberedBlock
  rows : blocks.map NumberedBlock.row = tables.blocksDigests.rows

/-- What a statement does to the blocks with their rowids. A new row gets its rowid from SQLite, and
the rows that stay keep theirs. -/
def Stmt.number (policy : RowidPolicy) (s : Stmt) (t : Tables) (blocks : List NumberedBlock) :
    List NumberedBlock :=
  match s with
  | .blkIns entryId blockNo digest =>
      if t.blocksDigests.find entryId blockNo = none then
        blocks ++ [⟨policy.next (blocks.map NumberedBlock.rowid), entryId, blockNo, some digest⟩]
      else blocks
  | .blkUpd entryId blockNo digest =>
      modify (fun n => n.row.entryId = entryId ∧ n.row.blockNo = blockNo)
        (fun n => { n with row := n.row.upd digest }) blocks
  | .blkDel entryId blockNo =>
      blocks.filter fun n => ¬(n.row.entryId = entryId ∧ n.row.blockNo > blockNo)
  | .deleteBlocks => blocks.filter fun n => n.row.entryId ∉ t.entries.unmarked
  | _ => blocks

theorem Stmt.number_rows (policy : RowidPolicy) (s : Stmt) {t : Tables} {blocks : List NumberedBlock}
    (h : blocks.map NumberedBlock.row = t.blocksDigests.rows) :
    (s.number policy t blocks).map NumberedBlock.row = (s.exec policy t).2.blocksDigests.rows := by
  have hfilter : ∀ p : BlockRow → Bool, (blocks.filter fun n => p n.row).map NumberedBlock.row =
      t.blocksDigests.rows.filter p := by
    intro p
    rw [← h, List.filter_map]
    rfl
  cases s with
  | blkIns entryId blockNo digest =>
      cases hfind : t.blocksDigests.find entryId blockNo with
      | none =>
          rw [exec_blkIns policy digest hfind, number, if_pos hfind, List.map_append, h]
          rfl
      | some b =>
          have hconflict : t.blocksDigests.find entryId blockNo ≠ none := by
            rw [hfind]
            exact Option.some_ne_none b
          rw [exec_blkIns_conflict policy digest hconflict, number, if_neg hconflict, h]
  | blkUpd entryId blockNo digest =>
      have hupd : (Stmt.blkUpd entryId blockNo digest |>.exec policy t).2.blocksDigests.rows =
          modify (fun b => b.entryId = entryId ∧ b.blockNo = (blockNo : Int)) (BlockRow.upd digest)
            t.blocksDigests.rows := rfl
      rw [hupd, ← h, number, UniqueKey.modify, UniqueKey.modify, List.map_map, List.map_map]
      apply List.map_congr_left
      intro n _
      simp only [Function.comp_apply]
      split
      · rfl
      · rfl
  | blkDel entryId blockNo =>
      exact hfilter fun b => ¬(b.entryId = entryId ∧ b.blockNo > (blockNo : Int))
  | deleteBlocks => exact hfilter fun b => b.entryId ∉ t.entries.unmarked
  | ins params =>
      by_cases hfind : t.entries.find params.parentId params.name = none
      · rw [exec_ins policy hfind]
        exact h
      · rw [exec_ins_conflict policy hfind]
        exact h
  | _ => exact h

namespace Numbered

def empty : Numbered := ⟨.empty, [], rfl⟩

/-- What a statement does when nothing fails. -/
def exec (policy : RowidPolicy) (s : Stmt) (n : Numbered) : Numbered where
  tables := (s.exec policy n.tables).2
  blocks := s.number policy n.tables n.blocks
  rows := s.number_rows policy n.rows

/-- The same with the open transaction. -/
def run (policy : RowidPolicy) (s : Stmt) (n : Numbered) (snapshot : Option Numbered) :
    Numbered × Option Numbered :=
  match s, snapshot with
  | .begin _, none => (n, some n)
  | .commit, some _ => (n, none)
  | .rollback, some n₀ => (n₀, none)
  | .begin _, some _ | .commit, none | .rollback, none => (n, snapshot)
  | s, _ => (n.exec policy s, snapshot)

/-- The numbered content behind a statement that ended with a code. -/
def behind (policy : RowidPolicy) (c : Numbered × Option Numbered) (e : Stmt × ResultCode) :
    Numbered × Option Numbered :=
  match e.2 with
  | .error _ => c
  | _ => run policy e.1 c.1 c.2

/-- The numbered content behind the statements of a log. -/
def replay (policy : RowidPolicy) (c : Numbered × Option Numbered) (log : List (Stmt × ResultCode)) :
    Numbered × Option Numbered :=
  log.foldl (behind policy) c

/-- The content without the rowids of the blocks. -/
def content (c : Numbered × Option Numbered) : Content := (c.1.tables, c.2.map Numbered.tables)

theorem content_run (policy : RowidPolicy) (s : Stmt) (c : Numbered × Option Numbered) :
    content (run policy s c.1 c.2) = (s.run policy c.1.tables (c.2.map Numbered.tables)).2 := by
  obtain ⟨n, snapshot⟩ := c
  cases s <;> cases snapshot <;> rfl

theorem content_behind (policy : RowidPolicy) (c : Numbered × Option Numbered) (e : Stmt × ResultCode) :
    content (behind policy c e) = (content c).behind policy e := by
  obtain ⟨s, rc⟩ := e
  cases rc with
  | error code => rfl
  | row | done | constraintUnique => exact content_run policy s c

/-- Without the rowids the replay is that of the tables. -/
theorem content_replay (policy : RowidPolicy) (c : Numbered × Option Numbered)
    (log : List (Stmt × ResultCode)) :
    content (replay policy c log) = (content c).replay policy log := by
  induction log generalizing c with
  | nil => rfl
  | cons e log ih =>
      have hstep := ih (behind policy c e)
      rw [content_behind] at hstep
      exact hstep

/-- The numbered tables behind a log that ends outside of a transaction. -/
def afterLog (policy : RowidPolicy) (n : Numbered) (log : List (Stmt × ResultCode)) : Option Numbered :=
  match replay policy (n, none) log with
  | (n', none) => some n'
  | (_, some _) => none

theorem content_of_afterLog {policy : RowidPolicy} {n n' : Numbered} {log : List (Stmt × ResultCode)}
    (h : n.afterLog policy log = some n') :
    Content.replay policy (n.tables, none) log = (n'.tables, none) := by
  have hcontent := content_replay policy (n, none) log
  unfold afterLog at h
  split at h
  · next heq =>
      obtain rfl := Option.some.inj h
      rw [heq] at hcontent
      exact hcontent.symm
  · cases h

end Numbered

end Spacenet
