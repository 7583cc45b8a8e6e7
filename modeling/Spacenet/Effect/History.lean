-- SUMMARY: Histories of runs on one database, and the rules that carry an invariant through a run and through a history.
import Spacenet.Effect.Accessible

/-!
# Histories

A history is a sequence of runs on one database that begins empty. A run may end
in any way, also killed at any statement: the next run starts from the content on
disk. An invariant of the tables has to be kept by the records, by the tables
inside of a callback and by the sweep.
-/

namespace Spacenet

/-- What a run of `reindex` is given. -/
structure Run where
  env : Env
  tree : Tree
  path : WString
  win : Win32

/-- The events of the walk of a run. -/
def Run.events (x : Run) : List Event := x.tree.events indexReader (rootPath x.path)

/-- A run over the plain tree. -/
def plainRun (modifiedOnly : Bool) : Run where
  env := .plain modifiedOnly
  tree := plainTree
  path := ['r']
  win := ⟨[], 0⟩

/-- A directory with one file, that is left with the error `endError`. -/
def fileTree (name : WString) (valid : ValidName name) (endError : U32) : Tree where
  info := { DirInfo.plain with endError := endError }
  entries := .file name (.plain ⟨0, 1⟩ [7]) .nil
  wf := ⟨valid, List.not_mem_nil, trivial⟩

/-- A run over the directory that ends by the exception of ERROR_ACCESS_DENIED. -/
def failedRun : Run where
  env := .plain true
  tree := fileTree ['f'] (by decide) 5
  path := ['r']
  win := ⟨[], 0⟩

/-- The record of a callback that the run may make. -/
def Run.Records (x : Run) (rec : Record) : Prop :=
  ∃ c ∈ callsOf x.events, c.node.accessible = true ∧ rec = c.record

/-- The content on disk behind a sequence of runs, each of them with an admitted result. -/
inductive History (admits : Run → EStateM.Result Error Db Unit → Prop) : List Run → Tables → Prop where
  | start : History admits [] .empty
  | run {xs : List Run} (x : Run) {db : Db} {r : EStateM.Result Error Db Unit}
      (before : History admits xs db.tables) (closed : db.snapshot = none)
      (result : Reindexes x.env x.tree x.path x.win db r) (admitted : admits x r) :
      History admits (xs ++ [x]) (resultDb r).committed

/-- The failed run leaves its rows marked. -/
theorem failedRun_history (admits : Run → EStateM.Result Error Db Unit → Prop) (h : ∀ r, admits failedRun r) :
    ∃ t, History admits [failedRun] t ∧ t.entries.rows.map EntryRow.isAlive = [0, 0] := by
  have heval : (reindex failedRun.env (failedRun.tree.disk ['r']) 20 ['r'] ⟨[], 0⟩ (Db.connect .empty)).map
      (fun r => (resultDb r).committed.entries.rows.map EntryRow.isAlive) = some [0, 0] := by
    decide +kernel
  obtain ⟨r, hresult, hmarks⟩ := Option.map_eq_some_iff.mp heval
  have hstart : History admits [] (Db.connect .empty).tables := .start
  exact ⟨_, .run failedRun hstart rfl ⟨20, hresult⟩ (h r), hmarks⟩

/-- The run lemma of a history. -/
theorem History.invariant {admits : Run → EStateM.Result Error Db Unit → Prop}
    {I : List Run → Tables → Prop} (hstart : I [] .empty)
    (hrun : ∀ xs x db r, I xs db.tables → db.snapshot = none →
      Reindexes x.env x.tree x.path x.win db r → admits x r → I (xs ++ [x]) (resultDb r).committed)
    {xs : List Run} {t : Tables} (h : History admits xs t) : I xs t := by
  induction h with
  | start => exact hstart
  | run x before closed result admitted ih => exact hrun _ x _ _ ih closed result admitted

theorem Reindexes.outcome {x : Run} {db : Db} {r : EStateM.Result Error Db Unit}
    (h : Reindexes x.env x.tree x.path x.win db r) (hsql : x.env.sql.Throws)
    (hdb : db.snapshot = none) : Outcome x.env x.events db.tables r := by
  obtain rfl := reindexes_iff.mp h
  exact reindexed_outcome hsql x.tree (rootPath x.path) x.win.lastError hdb

/-! ## Invariants of a run -/

/-- The run lemma of a walk: an invariant that every callback keeps. -/
theorem Index.visitAll_keeps {policy : RowidPolicy} {modifiedOnly : Bool} {J : Index → Prop} {cs : List Call}
    {idx idx' : Index}
    (hcall : ∀ c ∈ cs, ∀ idx idx', J idx → idx.visit policy modifiedOnly c = some idx' → J idx') (h : J idx)
    (hvisit : idx.visitAll policy modifiedOnly cs = some idx') : J idx' := by
  induction cs generalizing idx with
  | nil =>
      obtain rfl := Option.some.inj hvisit
      exact h
  | cons c cs ih =>
      obtain ⟨idx₁, hfirst, hrest⟩ := Option.bind_eq_some_iff.mp hvisit
      refine ih (fun c' hc' => hcall c' (List.mem_cons_of_mem _ hc')) ?_ hrest
      exact hcall c List.mem_cons_self _ _ h hfirst

/-! ## Attempts -/

/-- A run, and the connection on which it runs. -/
structure Attempt where
  run : Run
  db : Db

namespace Attempt

variable (s : Attempt)

/-- The walk of the attempt over a beginning of its events, `none` when the schema fails. -/
def walk (es : List Event) : Option (WalkEnd World) :=
  match s.run.env.sql.executeAll schemaStatements s.db with
  | .error _ _ => none
  | .ok _ db => some (runEvents indexReader (manipulator s.run.env (s.run.tree.disk (rootPath s.run.path))) es
      s.run.win.lastError ⟨db, [], 0⟩)

variable {s} in
theorem walk_of_schema {u : Unit} {db : Db} (h : s.run.env.sql.executeAll schemaStatements s.db = .ok u db)
    (es : List Event) : s.walk es = some (runEvents indexReader
      (manipulator s.run.env (s.run.tree.disk (rootPath s.run.path))) es s.run.win.lastError ⟨db, [], 0⟩) := by
  rw [walk, h]

theorem walk_snoc (es : List Event) (e : Event) : s.walk (es ++ [e]) = (s.walk es).map fun out =>
    out.bind fun lastError w => e.run indexReader (manipulator s.run.env (s.run.tree.disk (rootPath s.run.path)))
      lastError w := by
  unfold walk
  cases s.run.env.sql.executeAll schemaStatements s.db with
  | error _ _ => rfl
  | ok _ db => simp only [runEvents_snoc, Option.map_some]

/-- The attempt makes the callback `c` in the world `w`, and its walk goes on behind it. -/
def Makes (c : Call) (w : World) : Prop :=
  ∃ pre post lastError lastError' w', s.run.events = pre ++ .call c :: post ∧
    s.walk pre = some (.through lastError w) ∧ s.walk (pre ++ [.call c]) = some (.through lastError' w')

variable {s} in
theorem Makes.mem {c : Call} {w : World} (h : s.Makes c w) : c ∈ callsOf s.run.events := by
  obtain ⟨pre, post, -, -, -, hevents, -, -⟩ := h
  rw [hevents, callsOf_append, callsOf_call]
  exact List.mem_append_right _ List.mem_cons_self

/-- `J` holds of the index while the walk goes on, and `I` of the tables where it ends. -/
def Kept (I : Tables → Prop) (J : Index → Prop) : WalkEnd World → Prop
  | .through _ w => J w.index ∧ w.db.snapshot = none
  | .returned w => I w.db.tables ∧ w.db.snapshot = none
  | .threw _ w => I w.db.committed

section

variable {s : Attempt} {I : Tables → Prop} {J : Index → Prop} (hsql : s.run.env.sql.Throws)
  (htables : ∀ idx, J idx → I idx.tables)
  (hcall : ∀ c w idx', s.Makes c w → J w.index →
    w.index.visit s.run.env.sql.policy s.run.env.modifiedOnly c = some idx' → J idx')
  (hinside : ∀ c ∈ callsOf s.run.events, ∀ idx t, J idx →
    idx.Inside s.run.env.sql.policy s.run.env.modifiedOnly c t → I t)

include hsql htables hcall hinside

/-- The run lemma of the walk, by induction on the events that it has performed. -/
theorem walk_kept (h₀ : J ⟨s.db.tables, []⟩) (hdb : s.db.snapshot = none) {es post : List Event}
    (hevents : s.run.events = es ++ post) {out : WalkEnd World} (hwalk : s.walk es = some out) : Kept I J out := by
  induction es using List.reverseRecOn generalizing post out with
  | nil =>
      have hschema := wp_schema hsql.losesNothing hdb
      unfold walk at hwalk
      cases hrun : s.run.env.sql.executeAll schemaStatements s.db with
      | error e db =>
          rw [hrun] at hwalk
          cases hwalk
      | ok _ db =>
          obtain ⟨log, rfl⟩ := Prog.wp_of_ok hschema hrun
          simp only [hrun, runEvents, Option.some.injEq] at hwalk
          subst hwalk
          exact ⟨h₀, hdb⟩
  | append_singleton es event ih =>
      have hpre : s.run.events = es ++ event :: post := by
        rw [hevents, List.append_assoc]
        rfl
      have hpassed := hwalk
      rw [walk_snoc] at hwalk
      obtain ⟨before, hbefore, rfl⟩ := Option.map_eq_some_iff.mp hwalk
      have hkept := ih hpre hbefore
      cases before with
      | returned w => exact hkept
      | threw e w => exact hkept
      | through lastError w =>
          obtain ⟨hindex, hclosed⟩ := hkept
          have hmem : ∀ c, event = .call c → c ∈ callsOf s.run.events := by
            rintro c rfl
            rw [hpre, callsOf_append, callsOf_call]
            exact List.mem_append_right _ List.mem_cons_self
          have hbelow : ∀ c ∈ callsOf [event],
              c.Below (s.run.tree.disk (rootPath s.run.path)) [rootPath s.run.path] := by
            intro c hc
            refine s.run.tree.calls_below indexReader (rootPath s.run.path) c (hmem c ?_)
            cases event with
            | call c' => rw [List.mem_singleton.mp hc]
            | openFailed path err => cases hc
            | endOfDirectory path err => cases hc
          have hstep := Event.run_steps hsql hbelow lastError hclosed
          simp only [WalkEnd.bind] at hpassed ⊢
          cases hrun : event.run indexReader (manipulator s.run.env (s.run.tree.disk (rootPath s.run.path)))
              lastError w with
          | through lastError' w' =>
              rw [hrun] at hstep hpassed
              cases hstep with
              | visited shutdown visit =>
                  exact ⟨hcall _ w _ ⟨es, post, _, _, _, hpre, hbefore, hpassed⟩ hindex visit, hclosed⟩
              | left err_eq => exact ⟨hindex, hclosed⟩
          | returned w' =>
              rw [hrun] at hstep
              have htables' := htables _ hindex
              cases hstep with
              | vanished => exact ⟨htables', hclosed⟩
              | aborted shutdown => exact ⟨htables', hclosed⟩
          | threw e w' =>
              rw [hrun] at hstep
              cases hstep with
              | @threw _ _ _ t _ tables cause world =>
                  have hcommitted : w'.db.committed = t := by
                    rw [world]
                    simp [Db.committed, hclosed]
                  simp only [Kept, hcommitted]
                  rcases tables with rfl | ⟨c, rfl, hin⟩
                  · exact htables _ hindex
                  · exact hinside c (hmem c rfl) _ _ hindex hin

/-- The run lemma: an invariant `J` of the callbacks carries an invariant `I` of the tables, which the
sweep keeps, through an attempt. -/
theorem keeps (h₀ : J ⟨s.db.tables, []⟩) (hdb : s.db.snapshot = none)
    (hsweep : ∀ db, db.snapshot = none → I db.tables → I (resultDb (cleanupEntries s.run.env.sql db)).committed)
    {r : EStateM.Result Error Db Unit} (hresult : Reindexes s.run.env s.run.tree s.run.path s.run.win s.db r) :
    I (resultDb r).committed := by
  obtain rfl := reindexes_iff.mp hresult
  have hschema := wp_schema hsql.losesNothing hdb
  unfold reindexed
  cases hrun : s.run.env.sql.executeAll schemaStatements s.db with
  | error e db =>
      obtain ⟨-, log, rfl⟩ := Prog.wp_of_error hschema hrun
      have htables' := htables _ h₀
      simpa [resultDb, Db.committed, hdb] using htables'
  | ok _ db =>
      have hkept := walk_kept hsql htables hcall hinside h₀ hdb (List.append_nil _).symm
        (walk_of_schema hrun s.run.events)
      simp only
      unfold Run.events at hkept
      cases hout : runEvents indexReader (manipulator s.run.env (s.run.tree.disk (rootPath s.run.path)))
          (s.run.tree.events indexReader (rootPath s.run.path)) s.run.win.lastError ⟨db, [], 0⟩ with
      | through lastError w =>
          rw [hout] at hkept
          exact hsweep w.db hkept.2 (htables _ hkept.1)
      | returned w =>
          rw [hout] at hkept
          exact hsweep w.db hkept.2 hkept.1
      | threw e w =>
          rw [hout] at hkept
          exact hkept

end

end Attempt

/-- The attempts of a history, each on the content that those before have left on disk. -/
inductive Attempts (admits : Run → EStateM.Result Error Db Unit → Prop) : List Attempt → Tables → Prop where
  | start : Attempts admits [] .empty
  | run {ss : List Attempt} (s : Attempt) {r : EStateM.Result Error Db Unit}
      (before : Attempts admits ss s.db.tables) (closed : s.db.snapshot = none)
      (result : Reindexes s.run.env s.run.tree s.run.path s.run.win s.db r) (admitted : admits s.run r) :
      Attempts admits (ss ++ [s]) (resultDb r).committed

/-- Histories are what attempts leave. -/
theorem history_iff_attempts {admits : Run → EStateM.Result Error Db Unit → Prop} {xs : List Run} {t : Tables} :
    History admits xs t ↔ ∃ ss : List Attempt, ss.map Attempt.run = xs ∧ Attempts admits ss t := by
  constructor
  · intro h
    induction h with
    | start => exact ⟨[], rfl, .start⟩
    | @run xs x db r before closed result admitted ih =>
        obtain ⟨ss, hmap, hss⟩ := ih
        have hattempt : Attempts admits ss (Attempt.mk x db).db.tables := hss
        refine ⟨ss ++ [⟨x, db⟩], ?_, .run ⟨x, db⟩ hattempt closed result admitted⟩
        rw [List.map_append, hmap]
        rfl
  · rintro ⟨ss, rfl, h⟩
    induction h with
    | start => exact .start
    | @run ss s r before closed result admitted ih =>
        rw [List.map_append]
        exact .run s.run ih closed result admitted

end Spacenet
