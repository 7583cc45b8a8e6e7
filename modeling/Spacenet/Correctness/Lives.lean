-- SUMMARY: Every life of the worker is a history of runs, and two undisturbed rounds bring any life back to the mirror of the tree.
import Spacenet.Correctness.Connecting
import Spacenet.Correctness.Mirror
import Spacenet.Correctness.Recovery
import Spacenet.Correctness.Unchanged
import Spacenet.Tracker.Idle

/-!
# Lives of the worker

Between two rounds the worker has either no connection or one that is idle and
sees what is on disk. So each round is a run from the content on disk, and a life
is a history. Two rounds in which nothing goes wrong forget what was before.
-/

namespace Spacenet

/-- The run of a round. -/
def Round.run (dirPathName : WString) (x : Round) : Run where
  env := x.env
  tree := x.tree
  path := dirPathName
  win := x.win

/-- Between two rounds the connection is idle and sees what is on disk. -/
def Worker.Ready (w : Worker) : Prop := ∀ db, w.conn = some db → db.Idle ∧ db.tables = w.disk

theorem Worker.ready_of_closed {w : Worker} (h : w.conn = none) : w.Ready := by
  intro db hdb
  rw [h] at hdb
  cases hdb

/-- The connection of a round is idle and sees what is on disk. -/
theorem connectDb_idle {x : Round} {w : Worker} {db : Db} (hw : w.Ready) (h : connectDb x w = some (some db)) :
    db.Idle ∧ db.tables = w.disk := by
  cases hconn : w.conn with
  | some db' =>
      rw [connectDb, hconn] at h
      cases h
      exact hw _ hconn
  | none =>
      have hconnects := connects_of_connectDb hconn h
      rw [connectDb_of_connects hconn hconnects] at h
      cases h
      exact ⟨⟨rfl, rfl⟩, rfl⟩

/-- The step lemma: a round leaves the disk alone, or runs from what is on disk. -/
theorem Worker.round_cases {fuel : Nat} {dirPathName : WString} {x : Round} {w : Worker} {e : RoundEnd} (hw : w.Ready)
    (h : w.round fuel dirPathName x = some e) :
    e.worker.Ready ∧ (e.worker.disk = w.disk ∨ ∃ db r, db.Idle ∧ db.tables = w.disk ∧
      Reindexes x.env x.tree dirPathName x.win db r ∧ e.worker.disk = (resultDb r).committed) := by
  unfold Worker.round at h
  cases hconnect : connectDb x w with
  | none =>
      rw [hconnect] at h
      cases h
      exact ⟨Worker.ready_of_closed rfl, .inl rfl⟩
  | some conn =>
      rw [hconnect] at h
      cases conn with
      | none =>
          cases h
          exact ⟨Worker.ready_of_closed rfl, .inl rfl⟩
      | some db =>
          obtain ⟨hidle, htables⟩ := connectDb_idle hw hconnect
          dsimp only at h
          cases hrun : reindex x.env (x.tree.disk (rootPath dirPathName)) fuel dirPathName x.win db with
          | none =>
              rw [hrun] at h
              cases h
          | some r =>
              have hresult : Reindexes x.env x.tree dirPathName x.win db r := ⟨fuel, hrun⟩
              rw [hrun] at h
              cases r with
              | ok _ db' =>
                  cases h
                  have hidle' : db'.Idle := reindexed_idle hidle (reindexes_iff.mp hresult).symm
                  have hcommitted : db'.tables = db'.committed := by
                    rw [Db.committed, hidle'.closed]
                    rfl
                  refine ⟨?_, .inr ⟨db, _, hidle, htables, hresult, rfl⟩⟩
                  rintro db'' ⟨⟩
                  exact ⟨hidle', hcommitted⟩
              | error e db' =>
                  cases e with
                  | killed =>
                      cases h
                      exact ⟨Worker.ready_of_closed rfl, .inr ⟨db, _, hidle, htables, hresult, rfl⟩⟩
                  | runtimeError what =>
                      cases h
                      exact ⟨Worker.ready_of_closed rfl, .inr ⟨db, _, hidle, htables, hresult, rfl⟩⟩
                  | rangeError what =>
                      cases h
                      exact ⟨Worker.ready_of_closed rfl, .inr ⟨db, _, hidle, htables, hresult, rfl⟩⟩
                  | databaseError code =>
                      cases h
                      exact ⟨Worker.ready_of_closed rfl, .inr ⟨db, _, hidle, htables, hresult, rfl⟩⟩

/-- A life keeps the connection idle, and is a history of the runs of some of its rounds. -/
theorem Life.history {dirPathName : WString} {xs : List Round} {w : Worker} (h : Life dirPathName .empty xs w) :
    w.Ready ∧ ∃ ys : List Round, ys.Sublist xs ∧ History (fun _ _ => True) (ys.map (Round.run dirPathName)) w.disk := by
  induction h with
  | start => exact ⟨Worker.ready_of_closed rfl, [], .slnil, .start⟩
  | disconnect before ih => exact ⟨Worker.ready_of_closed rfl, ih.2⟩
  | @round xs w e x before fuel result ih =>
      obtain ⟨hready, ys, hsub, hhistory⟩ := ih
      obtain ⟨hready', hdisk | ⟨db, r, hidle, htables, hresult, hdisk⟩⟩ := Worker.round_cases hready result
      · rw [hdisk]
        exact ⟨hready', ys, hsub.trans (List.sublist_append_left _ _), hhistory⟩
      · refine ⟨hready', ys ++ [x], hsub.append (.refl _), ?_⟩
        rw [List.map_append, hdisk]
        rw [← htables] at hhistory
        exact .run (x.run dirPathName) hhistory hidle.closed hresult trivial

/-- So does a life on any content on disk. -/
theorem Life.ready {dirPathName : WString} {t₀ : Tables} {xs : List Round} {w : Worker} (h : Life dirPathName t₀ xs w) :
    w.Ready := by
  induction h with
  | start => exact Worker.ready_of_closed rfl
  | round x before fuel result ih => exact (Worker.round_cases ih result).1
  | disconnect before ih => exact Worker.ready_of_closed rfl

/-! ## Convergence -/

/-- Nothing goes wrong in the round. -/
structure Round.Undisturbed (x : Round) : Prop where
  connects : x.Connects
  sql : x.sql.NoFault
  running : ∀ i, x.shutdown i = false

/-- A round with enough fuel. -/
def Worker.Rounds (dirPathName : WString) (x : Round) (w w' : Worker) : Prop :=
  ∃ fuel, w.round fuel dirPathName x = some (.behind w')

section

variable {dirPathName : WString} {x : Round} {w : Worker}

/-- In an undisturbed round the worker has a connection. -/
theorem Round.Undisturbed.connected (hx : x.Undisturbed) (hw : w.Ready) :
    ∃ db, connectDb x w = some (some db) ∧ db.Idle ∧ db.tables = w.disk := by
  cases hconn : w.conn with
  | some db =>
      refine ⟨db, ?_, hw db hconn⟩
      rw [connectDb, hconn]
  | none => exact ⟨_, connectDb_of_connects hconn hx.connects, ⟨rfl, rfl⟩, rfl⟩

/-- An undisturbed round has one result: that of a run which returns. -/
theorem Worker.round_undisturbed (hx : x.Undisturbed) (ht : x.tree.Searchable)
    (hnames : x.tree.Indexable (rootPath dirPathName)) (hw : w.Ready) :
    ∃ w', (∀ w'', w.Rounds dirPathName x w'' ↔ w'' = w') ∧ w'.Ready ∧ ∃ db db', db.Idle ∧ db.tables = w.disk ∧
      Reindexes x.env x.tree dirPathName x.win db (.ok () db') ∧ w'.disk = db'.committed := by
  obtain ⟨db, hconnect, hidle, htables⟩ := hx.connected hw
  obtain ⟨db', hreturns⟩ : ∃ db', reindexed x.env x.tree (rootPath dirPathName) x.win.lastError db = .ok () db' :=
    ht.returns hnames hx.sql hx.running _ hidle.closed
  have hunique : ∀ r, Reindexes x.env x.tree dirPathName x.win db r ↔ r = .ok () db' := by
    intro r
    rw [reindexes_iff, hreturns]
  have hround : ∀ w'', w.Rounds dirPathName x w'' ↔ w'' = ⟨db'.committed, some db', w.error⟩ := by
    intro w''
    constructor
    · rintro ⟨fuel, h⟩
      rw [Worker.round, hconnect] at h
      cases hrun : reindex x.env (x.tree.disk (rootPath dirPathName)) fuel dirPathName x.win db with
      | none =>
          simp only [hrun] at h
          cases h
      | some r =>
          obtain rfl := (hunique r).mp ⟨fuel, hrun⟩
          simp only [hrun, Option.some.injEq, RoundEnd.behind.injEq] at h
          exact h.symm
    · rintro rfl
      obtain ⟨fuel, hrun⟩ := (hunique _).mpr rfl
      refine ⟨fuel, ?_⟩
      rw [Worker.round, hconnect]
      simp only [hrun]
  have hresult := (hunique _).mpr rfl
  obtain ⟨fuel, hself⟩ := (hround _).mpr rfl
  exact ⟨_, hround, (Worker.round_cases hw hself).1, db, db', hidle, htables, hresult, rfl⟩

/-- Behind a run that has swept no row is marked. -/
theorem Tables.alive_of_sweep {t : Tables} : ∀ r ∈ t.sweep.entries.rows, r.isAlive = 1 := by
  intro r hr
  obtain ⟨s, -, -, rfl⟩ := Tables.mem_sweep.mp hr
  rfl

end

theorem Round.plain_undisturbed (pragma : ResultCode) : (Round.plain pragma).Undisturbed :=
  ⟨plain_connects pragma, Sqlite.working_noFault _, fun _ => rfl⟩

/-- A round that ends by an exception behind its only callback. -/
def Round.failing : Round := { Round.plain .done with tree := failedRun.tree }

end Spacenet
