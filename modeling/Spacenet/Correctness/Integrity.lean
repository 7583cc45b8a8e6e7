-- SUMMARY: The references between the rows hold in every state of the database, between any two statements of any history of runs.
import Spacenet.Effect.States

/-!
# Integrity over histories

The statements of a run are in the log of its connection, so the states between
them are those of a replay of the log. In all of them parents and the entries of
blocks exist, however the runs before and the run itself have ended.
-/

namespace Spacenet

/-- The failing statements of the run throw, and new rowids are one more than the largest. -/
def Run.Throws (x : Run) : Prop :=
  x.env.sql.Throws ∧ x.env.sql.policy = .maxPlusOne

/-- The tables that the connection sees, and those on disk. -/
def Content.Shows (c : Content) (t : Tables) : Prop := t = c.1 ∨ t = c.committed

/-- No chain of parents is infinite, and no block waits for the row that is inserted next. -/
structure Tables.Sound (t : Tables) : Prop extends t.Integral where
  linked : ∀ r ∈ t.entries.rows, ∃ path, t.entries.rowAt path = some r
  fresh : ∀ b ∈ t.blocksDigests.rows, b.entryId ≠ RowidPolicy.maxPlusOne.next t.entries.rowids

theorem Tables.Integral.sound {t : Tables} (h : t.Integral) : t.Sound where
  toIntegral := h
  linked := fun _ hr => h.linked hr
  fresh := fun _ hb => h.fresh _ hb

theorem Content.Coherent.sound {c : Content} (h : c.Coherent) {t : Tables} (ht : c.Shows t) : t.Sound := by
  rcases ht with rfl | rfl
  · exact h.1.toIntegral.sound
  · exact h.committed.toIntegral.sound

variable {x : Run} {db : Db} {r : EStateM.Result Error Db Unit}

/-- A run from coherent tables goes through coherent states. -/
theorem Reindexes.stops (hresult : Reindexes x.env x.tree x.path x.win db r) (hx : x.Throws)
    (hcoherent : db.tables.Coherent) (hdb : db.snapshot = none) :
    ∃ log, (resultDb r).log = db.log ++ log ∧
      db.content.Always x.env.sql.policy Content.Coherent log ∧
      (db.content.replay x.env.sql.policy log).committed = (resultDb r).committed := by
  have hready : db.Ready fun _ => False := ⟨hdb, hcoherent, fun _ hid => hid.elim⟩
  have hguards := guards_reindexed hx.2 hx.1 x.tree (rootPath x.path) x.win.lastError hready
  have hreindexed := reindexes_iff.mp hresult
  cases r with
  | ok u db' =>
      obtain ⟨log, hlog, halways, hcommitted, -⟩ :=
        (hguards.returned hreindexed.symm).1.stops .killed
      exact ⟨log, hlog, halways, hcommitted⟩
  | error e db' =>
      obtain ⟨log, hlog, halways, hcommitted, -⟩ := hguards.threw hreindexed.symm
      exact ⟨log, hlog, halways, hcommitted⟩

/-- What a history leaves on disk is coherent. -/
theorem History.coherent {xs : List Run} {t : Tables} (h : History (fun x _ => x.Throws) xs t) :
    t.Coherent := by
  refine h.invariant (I := fun _ t => t.Coherent) .empty ?_
  intro xs x db r hcoherent hdb hresult hx
  obtain ⟨log, -, halways, hcommitted⟩ := hresult.stops hx hcoherent hdb
  rw [← hcommitted]
  exact halways.last.committed

/-- In every state of a run, and so in every state of a history, the references between the rows hold. -/
theorem history_integral {xs : List Run} (h : History (fun x _ => x.Throws) xs db.tables)
    (hdb : db.snapshot = none) (hx : x.Throws) (hresult : Reindexes x.env x.tree x.path x.win db r) :
    ∃ log, (resultDb r).log = db.log ++ log ∧
      (∀ k t, (db.content.replay x.env.sql.policy (log.take k)).Shows t → t.Sound) ∧
      (db.content.replay x.env.sql.policy log).committed = (resultDb r).committed := by
  obtain ⟨log, hlog, halways, hcommitted⟩ := hresult.stops hx h.coherent hdb
  exact ⟨log, hlog, fun k t ht => (halways k).sound ht, hcommitted⟩

/-- A run behind one that has failed and left its marks. -/
theorem history_integral_plainRun : ∃ t r log, t.entries.rows.map EntryRow.isAlive = [0, 0] ∧
    Reindexes (plainRun true).env (plainRun true).tree (plainRun true).path (plainRun true).win
      (Db.connect t) r ∧ (resultDb r).log = log ∧
    (∀ k t', ((Db.connect t).content.replay .maxPlusOne (log.take k)).Shows t' → t'.Sound) ∧
    ((Db.connect t).content.replay .maxPlusOne log).committed = (resultDb r).committed := by
  have hthrows : failedRun.Throws ∧ (plainRun true).Throws := by
    constructor <;>
    · exact ⟨(Sqlite.working_noFault _).throws, rfl⟩
  obtain ⟨t, hfailed, hmarks⟩ := failedRun_history (fun x _ => x.Throws) fun _ => hthrows.1
  obtain ⟨r, hresult⟩ := reindex_total (plainRun true).env (plainRun true).tree (plainRun true).path
    (plainRun true).win (Db.connect t)
  have hbefore : History (fun x _ => x.Throws) [failedRun] (Db.connect t).tables := hfailed
  obtain ⟨log, hlog, hstates, hcommitted⟩ := history_integral hbefore rfl hthrows.2 hresult
  exact ⟨t, r, log, hmarks, hresult, hlog, hstates, hcommitted⟩

end Spacenet
