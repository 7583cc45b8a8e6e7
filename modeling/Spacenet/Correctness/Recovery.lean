-- SUMMARY: Which rows of failed runs a completed run removes: the marks of a failed run stay until a sweep.
import Spacenet.Effect.Accessible
import Spacenet.Effect.Rooted

/-!
# Recovery

A run that fails leaves its marks in the table, and the next run does not reset
them before its walk. The sweep of a completed run then keeps the rows that a
failed run has marked, whether or not their paths are visited again.
-/

namespace Spacenet

/-- The callbacks of a run that is neither aborted nor ended by an exception. -/
def Run.visits (x : Run) : List Call := callsOf (passedOf x.events)

/-- The path of an entry that a callback of the run records, or that of the root with such an entry. What
is not accessible the callback skips. -/
def Run.VisitsPath (x : Run) (path : List WString) : Prop :=
  ∃ c ∈ x.visits, c.node.accessible = true ∧ (path = c.path ∨ path = [rootPath x.path])

/-- No row remains of a path that the run did not visit, and no mark remains. -/
def Run.Recovers (x : Run) (entries : Entries) : Prop :=
  ∀ r ∈ entries.rows, r.isAlive = 1 ∧ ∃ path, x.VisitsPath path ∧ entries.rowAt path = some r

/-- The rows that earlier runs left marked are of paths that the run visits. -/
def Run.MarksVisited (x : Run) (entries : Entries) : Prop :=
  ∀ r ∈ entries.rows, r.isAlive = 0 → ∃ path, x.VisitsPath path ∧ entries.rowAt path = some r

theorem Run.visitsPath_of_record {x : Run} {rec : Record}
    (h : rec ∈ recordsOf (rootPath x.path) x.visits) : x.VisitsPath rec.path := by
  rcases mem_recordsOf h with rfl | ⟨c, hc, hacc, rfl⟩
  · obtain ⟨c, hc, hacc⟩ := accessible_of_mem_recordsOf h
    exact ⟨c, hc, hacc, .inr rfl⟩
  · exact ⟨c, hc, hacc, .inl rfl⟩

theorem Run.recovers_iff {x : Run} {t₀ : Tables} {idx : Index} (hrooted : t₀.entries.Rooted)
    (hvisited : Visited x.env ⟨t₀, []⟩ 0 (passedOf x.events) idx) :
    x.Recovers idx.tables.sweep.entries ↔ x.MarksVisited t₀.entries := by
  have hsound := hvisited.sound (passedOf_isPrefix x.events)
  have hrecorded := hsound.recorded
  have hafter : idx.tables.entries.Rooted :=
    ((Index.Rooted.start hrooted).visitAll hvisited.visit).entries
  constructor
  · intro hrecovers r hr hmarked
    -- the row is marked behind the walk as well, so that the sweep keeps it
    obtain ⟨s, hs, hid⟩ := hrecorded.entries_extends _ _ r (Entries.find_self hr)
    have hsmem := (Entries.find_eq_some.mp hs).1
    have hsmarked : s.isAlive = 0 := by
      rcases hrecorded.row_cases hsmem with ⟨rec, hrec, hrow⟩ | hold
      · obtain ⟨s', hs', hmarked'⟩ := hrecorded.rowAt_marked hrec
        obtain rfl := Option.some.inj (hrow.symm.trans hs')
        exact hmarked'
      · rw [t₀.entries.rowidUnique.eq_of_key hold hr hid]
        exact hmarked
    obtain ⟨-, path, hpath, hrow⟩ := hrecovers _ (Tables.mem_sweep.mpr ⟨s, hsmem, hsmarked, rfl⟩)
    refine ⟨path, hpath, ?_⟩
    obtain ⟨s', hs', -, heq⟩ := Tables.rowAt_of_sweep hrow
    have hs'id : s'.rowid = r.rowid := (congrArg EntryRow.rowid heq).symm.trans hid
    obtain ⟨path₀, hpath₀⟩ := hrooted.linked r hr
    have hidAt := hrecorded.entries_extends.idAt (Entries.idAt_of_rowAt hpath₀)
    have hidAt' := Entries.idAt_of_rowAt hs'
    rw [hs'id] at hidAt'
    rw [Entries.idAt_injective hidAt' hidAt]
    exact hpath₀
  · intro hvisits r hr
    obtain ⟨s, hs, hmarked, rfl⟩ := Tables.mem_sweep.mp hr
    refine ⟨rfl, ?_⟩
    rcases hrecorded.row_cases hs with ⟨rec, hrec, hrow⟩ | hold
    · exact ⟨rec.path, x.visitsPath_of_record hrec, hafter.rowAt_sweep hrow hmarked⟩
    · obtain ⟨path, hpath, hrow⟩ := hvisits s hold hmarked
      refine ⟨path, hpath, hafter.rowAt_sweep ?_ hmarked⟩
      exact hrecorded.entries_extends.rowAt_of_mem hrow hs rfl

/-- After any history of runs, a run that completes leaves rows of visited paths only, all reset, if
and only if every row left marked before it is of a path that it visits. -/
theorem history_recovers_iff {xs : List Run} {db : Db}
    (h : History (fun x _ => x.env.sql.Throws) xs db.tables) (hdb : db.snapshot = none) {x : Run}
    (hsql : x.env.sql.Throws) (hrun : ∀ i, x.env.shutdown i = false) {db' : Db}
    (hresult : Reindexes x.env x.tree x.path x.win db (.ok () db')) :
    x.Recovers db'.committed.entries ↔ x.MarksVisited db.tables.entries := by
  have hrooted := h.rooted (fun _ _ hthrows => hthrows)
  obtain ⟨idx, hvisited, htables⟩ := (hresult.outcome hsql hdb).visited hrun
  rw [htables]
  exact Run.recovers_iff hrooted hvisited

theorem history_recovers_iff_plainRun :
    ∃ db db', History (fun x _ => x.env.sql.Throws) [failedRun] db.tables ∧
      db.tables.entries.rows.map EntryRow.isAlive = [0, 0] ∧
      Reindexes (.plain true) plainTree ['r'] ⟨[], 0⟩ db (.ok () db') ∧
      ((plainRun true).Recovers db'.committed.entries ↔ (plainRun true).MarksVisited db.tables.entries) := by
  have hsql : (Env.plain true).sql.Throws := (Sqlite.working_noFault _).throws
  obtain ⟨t, hhistory, hmarks⟩ := failedRun_history (fun x _ => x.env.sql.Throws) (fun _ => hsql)
  obtain ⟨db', hresult⟩ := plainTree_returns true t
  exact ⟨Db.connect t, db', hhistory, hmarks, hresult,
    history_recovers_iff hhistory rfl (x := plainRun true) hsql (fun _ => rfl) hresult⟩

/-- The run that completes, when the file has been replaced by another. -/
def replacedRun : Run where
  env := .plain true
  tree := fileTree ['g'] (by decide) ERROR_NO_MORE_FILES
  path := ['r']
  win := ⟨[], 0⟩

/-- The row of the file that the failed run has marked remains. -/
theorem history_not_recovered :
    ∃ db db', History (fun x _ => x.env.sql.Throws) [failedRun] db.tables ∧ db.snapshot = none ∧
      Reindexes replacedRun.env replacedRun.tree replacedRun.path replacedRun.win db (.ok () db') ∧
      (∃ r, db'.committed.entries.rowAt [['r'], ['f']] = some r) ∧
      ¬replacedRun.VisitsPath [['r'], ['f']] := by
  have heval : (reindex (.plain true) (failedRun.tree.disk ['r']) 20 ['r'] ⟨[], 0⟩ (Db.connect .empty)).bind
      (fun r₁ => (reindex (.plain true) (replacedRun.tree.disk ['r']) 20 ['r'] ⟨[], 0⟩
          (Db.connect (resultDb r₁).committed)).bind fun r₂ => (resultOk r₂).bind fun db =>
            (db.committed.entries.rowAt [['r'], ['f']]).map EntryRow.isAlive) = some 1 := by
    decide +kernel
  obtain ⟨r₁, hfirst, heval⟩ := Option.bind_eq_some_iff.mp heval
  obtain ⟨r₂, hsecond, heval⟩ := Option.bind_eq_some_iff.mp heval
  cases r₂ with
  | error e db' => cases heval
  | ok _ db' =>
      obtain ⟨row, hrow, -⟩ := Option.map_eq_some_iff.mp heval
      have hstart : History (fun x _ => x.env.sql.Throws) [] (Db.connect .empty).tables := .start
      have hhistory := History.run failedRun hstart rfl ⟨20, hfirst⟩ (Sqlite.working_noFault _).throws
      refine ⟨Db.connect (resultDb r₁).committed, db', hhistory, rfl, ⟨20, hsecond⟩, ⟨row, hrow⟩, ?_⟩
      have hpaths : ∀ path ∈ replacedRun.visits.map Call.path, path ≠ [(['r'] : WString), ['f']] := by
        decide +kernel
      rintro ⟨c, hc, -, heq | heq⟩
      · exact hpaths _ (List.mem_map_of_mem hc) heq.symm
      · cases heq

end Spacenet
