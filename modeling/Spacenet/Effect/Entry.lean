-- SUMMARY: What `update_entry` does to the table `entries`, and the proof that the program does it.
import Spacenet.Indexer
import Spacenet.Sqlite.Execution

/-!
# The effect of update_entry

`update_entry` leaves exactly one row with the key of its entry: a new one, the
old one touched, or the old one rewritten. The other rows stay. The program does
this in one statement, so an exception finds the table before it or behind it.
-/

namespace Spacenet

open Prog UniqueKey Entries

/-- The row of an entry behind `update_entry`, when it was there before. -/
def EntryRow.updateEntry (modifiedOnly : Bool) (params : EntryParams) (mtime : U64) (r : EntryRow) :
    EntryRow :=
  if modifiedOnly ∧ (r.mtime.getD 0 = mtime ∨ mtime = 0) then r.touch else r.upd params

namespace EntryRow

theorem updateEntry_rowid (modifiedOnly : Bool) (params : EntryParams) (mtime : U64)
    (r : EntryRow) : (r.updateEntry modifiedOnly params mtime).rowid = r.rowid := by
  unfold updateEntry
  split <;> rfl

theorem updateEntry_isAlive (modifiedOnly : Bool) (params : EntryParams) (mtime : U64)
    (r : EntryRow) : (r.updateEntry modifiedOnly params mtime).isAlive = 0 := by
  unfold updateEntry
  split <;> rfl

theorem updateEntry_key {modifiedOnly : Bool} {params : EntryParams} {mtime : U64} {r : EntryRow}
    (h : r.key = params.key) : (r.updateEntry modifiedOnly params mtime).key = params.key := by
  unfold updateEntry
  split
  · exact h
  · rfl

end EntryRow

namespace Entries

/-- The `id` that `get_id_mtim` reads; 0 when there is no row. -/
def idOf (t : Entries) (parentId : Nat) (name : WString) : Nat :=
  ((t.find parentId name).map EntryRow.rowid).getD 0

/-- The `mtim` that `get_id_mtim` reads. -/
def mtimeOf (t : Entries) (parentId : Nat) (name : WString) : U64 :=
  ((t.find parentId name).bind EntryRow.mtime).getD 0

/-- The table behind `update_entry`. -/
def updateEntry (policy : RowidPolicy) (modifiedOnly : Bool) (params : EntryParams) (mtime : U64)
    (t : Entries) : Entries :=
  if h : t.find params.parentId params.name = none then t.insert policy params h
  else if modifiedOnly ∧ (t.mtimeOf params.parentId params.name = mtime ∨ mtime = 0) then
    t.updTouch (t.idOf params.parentId params.name)
  else t.upd params

/-- The row that `update_entry` leaves for its entry. -/
def rowOf (policy : RowidPolicy) (modifiedOnly : Bool) (params : EntryParams) (mtime : U64)
    (t : Entries) : EntryRow :=
  match t.find params.parentId params.name with
  | none => t.newRow policy params
  | some r => r.updateEntry modifiedOnly params mtime

variable {t : Entries} {policy : RowidPolicy} {modifiedOnly : Bool} {params : EntryParams}
  {mtime : U64}

theorem idOf_of_find {parentId : Nat} {name : WString} {r : EntryRow}
    (h : t.find parentId name = some r) : t.idOf parentId name = r.rowid := by
  simp [idOf, h]

theorem mtimeOf_of_find {parentId : Nat} {name : WString} {r : EntryRow}
    (h : t.find parentId name = some r) : t.mtimeOf parentId name = r.mtime.getD 0 := by
  simp [mtimeOf, h]

theorem rowOf_of_none (h : t.find params.parentId params.name = none) :
    t.rowOf policy modifiedOnly params mtime = t.newRow policy params := by
  simp only [rowOf, h]

theorem rowOf_of_some {r : EntryRow} (h : t.find params.parentId params.name = some r) :
    t.rowOf policy modifiedOnly params mtime = r.updateEntry modifiedOnly params mtime := by
  simp only [rowOf, h]

theorem rowOf_key : (t.rowOf policy modifiedOnly params mtime).key = params.key := by
  cases h : t.find params.parentId params.name with
  | none =>
      rw [rowOf_of_none h]
      rfl
  | some r =>
      rw [rowOf_of_some h]
      exact EntryRow.updateEntry_key (t.keyUnique.lookup_eq_some.mp h).2

theorem rowOf_isAlive : (t.rowOf policy modifiedOnly params mtime).isAlive = 0 := by
  cases h : t.find params.parentId params.name with
  | none =>
      rw [rowOf_of_none h]
      rfl
  | some r =>
      rw [rowOf_of_some h]
      exact EntryRow.updateEntry_isAlive ..

theorem rowOf_rowid {r : EntryRow} (h : t.find params.parentId params.name = some r) :
    (t.rowOf policy modifiedOnly params mtime).rowid = r.rowid := by
  rw [rowOf_of_some h]
  exact EntryRow.updateEntry_rowid ..

/-- The rows behind `update_entry`: the row of the entry, and the rows with another key. -/
theorem mem_updateEntry {s : EntryRow} :
    s ∈ (t.updateEntry policy modifiedOnly params mtime).rows ↔
      (s ∈ t.rows ∧ s.key ≠ params.key) ∨ s = t.rowOf policy modifiedOnly params mtime := by
  cases hfind : t.find params.parentId params.name with
  | none =>
      rw [rowOf_of_none hfind]
      unfold updateEntry
      rw [dif_pos hfind]
      exact mem_append_new (lookup_eq_none.mp hfind)
  | some r =>
      obtain ⟨hr, hkey⟩ := t.keyUnique.lookup_eq_some.mp hfind
      have hnone : t.find params.parentId params.name ≠ none := by simp [hfind]
      rw [rowOf_of_some hfind]
      unfold updateEntry EntryRow.updateEntry
      rw [dif_neg hnone, mtimeOf_of_find hfind, idOf_of_find hfind]
      split
      · refine t.keyUnique.mem_modify_one hr hkey (fun q hq => ?_)
        rw [decide_eq_true_iff]
        constructor
        · exact fun h => t.rowidUnique.eq_of_key hq hr h
        · exact fun h => h ▸ rfl
      · exact t.keyUnique.mem_modify_key hr hkey (fun q => decide_eq_true_iff)

theorem rowOf_mem : t.rowOf policy modifiedOnly params mtime ∈
    (t.updateEntry policy modifiedOnly params mtime).rows :=
  mem_updateEntry.mpr (.inr rfl)

/-- A row with another key has another rowid than the row of the entry. -/
theorem rowid_ne_rowOf {r : EntryRow} (hr : r ∈ t.rows) (hkey : r.key ≠ params.key) :
    r.rowid ≠ (t.rowOf policy modifiedOnly params mtime).rowid := by
  intro hid
  have hr' : r ∈ (t.updateEntry policy modifiedOnly params mtime).rows :=
    mem_updateEntry.mpr (.inl ⟨hr, hkey⟩)
  apply hkey
  rw [(rowidUnique _).eq_of_key hr' rowOf_mem hid]
  exact rowOf_key

theorem find_updateEntry {parentId : Nat} {name : WString} :
    (t.updateEntry policy modifiedOnly params mtime).find parentId name =
      if params.key = (parentId, name) then some (t.rowOf policy modifiedOnly params mtime)
      else t.find parentId name := by
  split
  · next h =>
      refine (keyUnique _).lookup_eq_some.mpr ⟨rowOf_mem, ?_⟩
      rw [rowOf_key, h]
  · next h =>
      cases hfind : t.find parentId name with
      | none =>
          refine lookup_eq_none.mpr (fun r hr hk => ?_)
          rcases mem_updateEntry.mp hr with ⟨hr, -⟩ | rfl
          · exact lookup_eq_none.mp hfind r hr hk
          · exact h (rowOf_key.symm.trans hk)
      | some r =>
          obtain ⟨hr, hk⟩ := t.keyUnique.lookup_eq_some.mp hfind
          refine (keyUnique _).lookup_eq_some.mpr ⟨mem_updateEntry.mpr (.inl ⟨hr, ?_⟩), hk⟩
          exact fun hk' => h (hk'.symm.trans hk)

theorem find_updateEntry_self :
    (t.updateEntry policy modifiedOnly params mtime).find params.parentId params.name =
      some (t.rowOf policy modifiedOnly params mtime) := by
  rw [find_updateEntry]
  exact if_pos rfl

theorem idOf_updateEntry :
    (t.updateEntry policy modifiedOnly params mtime).idOf params.parentId params.name =
      (t.rowOf policy modifiedOnly params mtime).rowid :=
  idOf_of_find find_updateEntry_self

end Entries

namespace Entries

variable {t : Entries} {policy : RowidPolicy} {modifiedOnly : Bool} {params : EntryParams}
  {mtime : U64} {r : EntryRow}

theorem updateEntry_new (h : t.find params.parentId params.name = none) :
    t.updateEntry policy modifiedOnly params mtime = t.insert policy params h :=
  dif_pos h

theorem updateEntry_touch (h : t.find params.parentId params.name = some r)
    (hsame : modifiedOnly ∧ (r.mtime.getD 0 = mtime ∨ mtime = 0)) :
    t.updateEntry policy modifiedOnly params mtime = t.updTouch r.rowid := by
  unfold updateEntry
  rw [dif_neg (by simp [h]), mtimeOf_of_find h, idOf_of_find h, if_pos hsame]

theorem updateEntry_upd (h : t.find params.parentId params.name = some r)
    (hsame : ¬(modifiedOnly ∧ (r.mtime.getD 0 = mtime ∨ mtime = 0))) :
    t.updateEntry policy modifiedOnly params mtime = t.upd params := by
  unfold updateEntry
  rw [dif_neg (by simp [h]), mtimeOf_of_find h, if_neg hsame]

end Entries

/-! ## The program -/

variable {sql : Sqlite} {db : Db}

theorem wp_getIdMtim (h : sql.LosesNothing) {parentId : Nat} {name : WString} {id : Nat} {mtim : U64}
    {Q : Nat × U64 → Db → Prop} {E : Error → Db → Prop} (hdb : db.snapshot = none)
    (hrow : ∀ r log, db.tables.entries.find parentId name = some r →
      Q (r.rowid, r.mtime.getD 0) (db.put db.tables log))
    (hnone : ∀ log, db.tables.entries.find parentId name = none →
      Q (id, mtim) (db.put db.tables log))
    (herr : ∀ e log, ¬sql.NoFault → E e (db.put db.tables log)) :
    wp (getIdMtim sql parentId name id mtim) Q E db := by
  unfold getIdMtim
  rw [wp_bind]
  refine h.wp_execute rfl rfl hdb ?_ herr
  intro log
  simp only [Stmt.exec, wp_bind, wp_get, Db.put_tables]
  cases hfind : db.tables.entries.find parentId name with
  | none => exact hnone log hfind
  | some r => exact hrow r log hfind

/-- The tables behind `update_entry`. -/
def Tables.updateEntry (policy : RowidPolicy) (modifiedOnly : Bool) (params : EntryParams)
    (mtime : U64) (t : Tables) : Tables :=
  { t with entries := t.entries.updateEntry policy modifiedOnly params mtime }

/-- The id that `update_entry` returns. -/
def Tables.entryId (policy : RowidPolicy) (modifiedOnly : Bool) (params : EntryParams)
    (mtime : U64) (t : Tables) : Nat :=
  (t.entries.rowOf policy modifiedOnly params mtime).rowid

/-- `update_entry` returns the id of the row that it leaves, and the mtime that was stored before. A
row that is there stays as it is when a failure of the INSERT goes unnoticed. -/
theorem wp_updateEntry (h : sql.LosesNothing) {modifiedOnly : Bool} {params : EntryParams} {mtime : U64}
    {Q : Nat × U64 → Db → Prop} {E : Error → Db → Prop} (hdb : db.snapshot = none)
    (hok : ∀ log, Q (db.tables.entryId sql.policy modifiedOnly params mtime,
        db.tables.entries.mtimeOf params.parentId params.name)
      (db.put (db.tables.updateEntry sql.policy modifiedOnly params mtime) log))
    (hkept : ∀ r log, ¬sql.Throws → db.tables.entries.find params.parentId params.name = some r →
      Q (r.rowid, r.mtime.getD 0) (db.put db.tables log))
    (hbefore : ∀ e log, ¬sql.NoFault → E e (db.put db.tables log))
    (hbehind : ∀ e log, ¬sql.NoFault →
      E e (db.put (db.tables.updateEntry sql.policy modifiedOnly params mtime) log)) :
    wp (updateEntry sql modifiedOnly params mtime) Q E db := by
  unfold updateEntry Db.keepingExceptions
  simp only [wp_bind, wp_get, wp_atScopeExit, Db.setExceptions, wp_modify]
  refine wp_getIdMtim h hdb ?_ ?_ ?_
  · intro r log hfind
    have hfind' : db.tables.entries.find params.parentId params.name = some r := hfind
    have hne : r.rowid ≠ 0 := Nat.ne_of_gt (db.tables.entries.rowidPos r (find_eq_some.mp hfind').1)
    have hresult : (db.tables.entryId sql.policy modifiedOnly params mtime,
        db.tables.entries.mtimeOf params.parentId params.name) = (r.rowid, r.mtime.getD 0) := by
      rw [Tables.entryId, rowOf_rowid hfind', mtimeOf_of_find hfind']
    rw [hresult] at hok
    simp only [hne, ne_eq, not_false_eq_true, true_and, if_false, wp_ite, wp_bind, wp_modify, wp_pure]
    split
    · next hsame =>
        refine h.wp_execute rfl rfl hdb ?_ (fun e log => hbefore e log)
        intro log
        have htables : db.tables.updateEntry sql.policy modifiedOnly params mtime =
            { db.tables with entries := db.tables.entries.updTouch r.rowid } := by
          rw [Tables.updateEntry, updateEntry_touch hfind' hsame]
        rw [htables] at hok
        exact hok log
    · next hsame =>
        have htables : db.tables.updateEntry sql.policy modifiedOnly params mtime =
            { db.tables with entries := db.tables.entries.upd params } := by
          rw [Tables.updateEntry, updateEntry_upd hfind' hsame]
        have hconflict : db.tables.entries.find params.parentId params.name ≠ none := by
          simp [hfind']
        refine h.wp_insert rfl rfl hdb ?_ ?_ (fun e log => hbefore e log)
        · intro log
          have hexec := Stmt.exec_ins_conflict sql.policy hconflict
          simp only [Db.put_tables, Db.put_withExceptions, Db.withExceptions_tables, hexec, if_true]
          refine h.wp_execute rfl rfl hdb ?_ (fun e log => hbefore e log)
          intro log
          rw [htables] at hok
          exact hok log
        · intro code log hthrows _
          simp only [reduceCtorEq, if_false]
          exact hkept r log hthrows hfind'
  · intro log hfind
    have hfind' : db.tables.entries.find params.parentId params.name = none := hfind
    have htables : db.tables.updateEntry sql.policy modifiedOnly params mtime =
        { db.tables with entries := db.tables.entries.insert sql.policy params hfind' } := by
      rw [Tables.updateEntry, updateEntry_new hfind']
    have hresult : db.tables.entries.mtimeOf params.parentId params.name = 0 := by
      simp [mtimeOf, hfind']
    rw [hresult] at hok
    simp only [ne_eq, not_true_eq_false, false_and, and_false, if_false, if_true, wp_ite, wp_bind,
      wp_modify, wp_pure]
    refine h.wp_insert rfl rfl hdb ?_ ?_ (fun e log => hbefore e log)
    · intro log
      have hexec := Stmt.exec_ins sql.policy hfind'
      simp only [Db.put_tables, Db.put_withExceptions, Db.withExceptions_tables, hexec, reduceCtorEq,
        if_false]
      rw [← htables]
      refine wp_getIdMtim h hdb ?_ ?_ (fun e log => hbehind e log)
      · intro r log hrow
        have : r.rowid = db.tables.entryId sql.policy modifiedOnly params mtime := by
          rw [← idOf_of_find hrow]
          exact idOf_updateEntry
        exact this ▸ hok log
      · intro log hnone
        have hrow : (db.tables.entries.updateEntry sql.policy modifiedOnly params mtime).find
            params.parentId params.name = none := hnone
        rw [find_updateEntry_self] at hrow
        cases hrow
    · intro code log _ hstored
      exact absurd hfind' hstored
  · intro e log hfault
    exact hbefore e log hfault

end Spacenet
