-- SUMMARY: A run over an accessible tree leaves a table `entries` that mirrors the tree.
import Spacenet.Effect.Accessible

/-!
# The mirror

The table of a completed run is the tree: a path leads to a row exactly when it
leads to an entry, and every row has one path. Since the rows of a path are
linked by `parent_id`, this fixes parents and names.
-/

namespace Spacenet

open Prog

/-- The table has the row of the root, one row for each entry of the tree, and no other. -/
structure Mirrors (root : WString) (t : Tree) (entries : Entries) : Prop where
  top : ∃ r, entries.rowAt [root] = some r ∧ r.parentId = 0 ∧ r.name = root
  entry : ∀ names name, (t.node.descend (names ++ [name])).isSome →
    ∃ p r, entries.rowAt (root :: names) = some p ∧ entries.rowAt (root :: names ++ [name]) = some r ∧
      r.parentId = p.rowid ∧ r.name = name
  only : ∀ r ∈ entries.rows, ∃! names, (t.node.descend names).isSome ∧
    entries.rowAt (root :: names) = some r
  alive : ∀ r ∈ entries.rows, r.isAlive = 1

theorem Node.descend_of_append {node : Node} {names names' : List WString}
    (h : (node.descend (names ++ names')).isSome) : (node.descend names).isSome := by
  rw [descend_append] at h
  cases hdescend : node.descend names with
  | none =>
      rw [hdescend] at h
      cases h
  | some node' => rfl

section

variable {policy : RowidPolicy} {modifiedOnly : Bool} {root : WString} {t : Tree} {t₀ : Tables}
  {idx : Index}

/-- Every entry of an accessible tree whose entries can be indexed has its callback. -/
theorem Tree.Accessible.calls (ht : t.Accessible) (hnames : t.Indexable root) {name : WString}
    {names : List WString} {node : Node} (hnode : t.node.descend (name :: names) = some node) :
    ∃ c ∈ callsOf (t.events indexReader root), c.path = root :: name :: names ∧ c.node = node := by
  refine Tree.calls_complete indexReader_listsAll.toDeep ht.root.opens ht.entries.opens root hnode fun last hlast => ?_
  have hdescend := Tree.descend_cons.symm.trans hnode
  rw [indexReader_listsAll.matchName]
  exact (hnames.of_descend hdescend hlast (ht.entries.of_descend hdescend)).1

/-- An accessible tree that is not empty has a record for each of its paths. -/
theorem Tree.Accessible.recorded (ht : t.Accessible) (hnames : t.Indexable root) (hne : t.entries ≠ .nil)
    {names : List WString} (h : (t.node.descend names).isSome) :
    ∃ rec ∈ recordsOf root (callsOf (t.events indexReader root)), rec.path = root :: names := by
  have hcall : ∀ name names, (t.node.descend (name :: names)).isSome →
      ∃ rec ∈ recordsOf root (callsOf (t.events indexReader root)), rec.path = root :: name :: names := by
    intro name names hdescend
    obtain ⟨node, hnode⟩ := Option.isSome_iff_exists.mp hdescend
    obtain ⟨c, hc, hpath, -⟩ := ht.calls hnames hnode
    have hacc : c.node.accessible = true := ht.events_smooth indexReader root _ (mem_callsOf.mp hc)
    exact ⟨c.record, record_mem_recordsOf hc hacc, hpath⟩
  cases names with
  | cons name names => exact hcall name names h
  | nil =>
      obtain ⟨name, hname⟩ : ∃ name, (t.node.descend [name]).isSome := by
        cases hentries : t.entries with
        | nil => exact absurd hentries hne
        | file name info rest => exact ⟨name, by simp [Tree.node, Node.descend, hentries, Forest.find]⟩
        | dir name info sub rest => exact ⟨name, by simp [Tree.node, Node.descend, hentries, Forest.find]⟩
      obtain ⟨rec, hrec, -⟩ := hcall name [] hname
      exact ⟨.root root, root_mem_recordsOf (List.ne_nil_of_mem hrec), rfl⟩

/-- The path of a record is a path of the tree. -/
theorem Tree.path_of_record {rec : Record}
    (h : rec ∈ recordsOf root (callsOf (t.events indexReader root))) :
    ∃ names, rec.path = root :: names ∧ (t.node.descend names).isSome := by
  rcases mem_recordsOf h with rfl | ⟨c, hc, -, rfl⟩
  · exact ⟨[], rfl, rfl⟩
  · obtain ⟨names, hpath, hdescend⟩ := t.calls_descend indexReader root c hc
    exact ⟨names, hpath, by rw [hdescend]; rfl⟩

/-- The sweep behind the records of the whole tree leaves its mirror. -/
theorem Recorded.mirrors (ht : t.Accessible) (hnames : t.Indexable root) (hne : t.entries ≠ .nil) {tables : Tables}
    (hrecorded : Recorded modifiedOnly (recordsOf root (callsOf (t.events indexReader root))) t₀ tables)
    (hpre : Preorder (recordsOf root (callsOf (t.events indexReader root))))
    (halive : ∀ r ∈ t₀.entries.rows, r.isAlive ≠ 0) : Mirrors root t tables.sweep.entries := by
  have hrow : ∀ names, (t.node.descend names).isSome →
      ∃ r, tables.sweep.entries.rowAt (root :: names) = some r := by
    intro names hdescend
    obtain ⟨rec, hrec, hpath⟩ := ht.recorded hnames hne hdescend
    obtain ⟨r, hr, -⟩ := hrecorded.rowAt_marked hrec
    exact ⟨_, hpath ▸ hrecorded.rowAt_sweep hpre hrec hr⟩
  refine ⟨?_, ?_, ?_, ?_⟩
  · obtain ⟨r, hr⟩ := hrow [] rfl
    have hr' : tables.sweep.entries.rowIn [] root = some r := by
      rw [← Entries.rowAt_append]
      exact hr
    obtain ⟨id, hid, hfind⟩ := Entries.rowIn_eq_some.mp hr'
    obtain rfl : 0 = id := Option.some.inj hid
    exact ⟨r, hr, (Entries.find_eq_some.mp hfind).2⟩
  · intro names name hdescend
    obtain ⟨p, hp⟩ := hrow names (Node.descend_of_append hdescend)
    obtain ⟨r, hr⟩ := hrow _ hdescend
    have hr' : tables.sweep.entries.rowIn (root :: names) name = some r := by
      rw [← Entries.rowAt_append]
      exact hr
    obtain ⟨id, hid, hfind⟩ := Entries.rowIn_eq_some.mp hr'
    obtain rfl : p.rowid = id := Option.some.inj ((Entries.idAt_of_rowAt hp).symm.trans hid)
    exact ⟨p, r, hp, hr, (Entries.find_eq_some.mp hfind).2⟩
  · intro r hr
    obtain ⟨rec, hrec, hrow⟩ := hrecorded.row_of_sweep hpre halive hr
    obtain ⟨names, hpath, hdescend⟩ := Tree.path_of_record hrec
    rw [hpath] at hrow
    refine ⟨names, ⟨hdescend, hrow⟩, ?_⟩
    rintro names' ⟨-, hrow'⟩
    exact (List.cons.inj (Entries.rowAt_injective hrow' hrow)).2
  · intro r hr
    obtain ⟨s, -, -, rfl⟩ := Tables.mem_sweep.mp hr
    rfl

end

/-! ## The run -/

/-- The run ends normally. It leaves the mirror of the tree, and a row whose path existed keeps its
rowid. -/
def LeavesMirror (env : Env) (t : Tree) (path : WString) (win : Win32) (db : Db) : Prop :=
  ∃ db', (∀ r, Reindexes env t path win db r ↔ r = .ok () db') ∧
    Mirrors (rootPath path) t db'.committed.entries ∧
    ∀ p r₀ r, db.tables.entries.rowAt p = some r₀ → db'.committed.entries.rowAt p = some r →
      r.rowid = r₀.rowid

/-- An accessible file with U+2028 in its name. -/
def separatorTree : Tree where
  info := .plain
  entries := .file ['a', 0x2028, 'b'] (.plain ⟨0, 1⟩ [7]) .nil
  wf := by decide

theorem separatorTree_accessible : separatorTree.Accessible := ⟨DirInfo.plain_readable, rfl, trivial⟩

/-- An accessible file whose name is no UTF-16: the run over it throws. -/
example : (reindex (.plain true) (Tree.disk ['r'] ⟨.plain, .file [0xD800] (.plain ⟨0, 1⟩ [7]) .nil, by decide⟩) 20
    ['r'] ⟨[], 0⟩ (Db.connect .empty)).map (fun r => (resultOk r).isSome) = some false := by
  decide +kernel

end Spacenet
