-- SUMMARY: The failures of a log that lose nothing, and the rules by which a program does the same without the others.
import Spacenet.Library.Simulation
import Spacenet.Sqlite.Trace

/-!
# Failures that are not thrown

A statement that fails while the exceptions are off leaves its code in the log.
`careful` is the SQLite in which such a failure happens only where the statement
finds stored what it would write. A program that returns does the same on it, when
its own log has no other failure.
-/

namespace Spacenet

open Prog

/-- The statement has not failed, or it found stored what it would have written. -/
def Content.Finds (c : Content) (e : Stmt × ResultCode) : Prop :=
  match e.2 with
  | .error _ => e.1.Stored c.1
  | _ => True

instance (c : Content) (e : Stmt × ResultCode) : Decidable (c.Finds e) := by
  unfold Content.Finds
  split <;> infer_instance

/-- Every statement of the log that failed, from `c` on, found stored what it would have written. -/
def Content.LosesNothing (policy : RowidPolicy) : (c : Content) → (log : List (Stmt × ResultCode)) → Prop
  | _, [] => True
  | c, e :: log => c.Finds e ∧ Content.LosesNothing policy (c.behind policy e) log

instance Content.decidableLosesNothing (policy : RowidPolicy) :
    (c : Content) → (log : List (Stmt × ResultCode)) → Decidable (c.LosesNothing policy log)
  | _, [] => inferInstanceAs (Decidable True)
  | c, e :: log =>
      have := decidableLosesNothing policy (c.behind policy e) log
      inferInstanceAs (Decidable (_ ∧ _))

theorem Content.losesNothing_append {policy : RowidPolicy} {c : Content} {log log' : List (Stmt × ResultCode)} :
    c.LosesNothing policy (log ++ log') ↔
      c.LosesNothing policy log ∧ (c.replay policy log).LosesNothing policy log' := by
  induction log generalizing c with
  | nil => exact (iff_of_eq (true_and _)).symm
  | cons e log ih =>
      have hbehind := @ih (c.behind policy e)
      simp only [List.cons_append, LosesNothing, hbehind, and_assoc]
      rfl

/-- The failures that are thrown, and those that lose nothing. -/
def Sqlite.careful (sql : Sqlite) : Sqlite where
  policy := sql.policy
  fault := fun db s =>
    match sql.fault db s with
    | some (.error code) => if db.exceptions = true ∨ s.Stored db.tables then some (.error code) else none
    | f => f

theorem Sqlite.careful_losesNothing (sql : Sqlite) : sql.careful.LosesNothing := by
  intro db s code hfault
  simp only [careful] at hfault
  split at hfault
  · split at hfault
    · next hkept => exact hkept
    · cases hfault
  · next hother => exact absurd hfault (hother code)

/-- From `db` the connection has got to `db'`, and `same` holds when nothing was lost on the way. -/
def Db.Reaches (policy : RowidPolicy) (db db' : Db) (same : Prop) : Prop :=
  ∃ log, db'.log = db.log ++ log ∧ db.content.replay policy log = db'.content ∧
    (db.content.LosesNothing policy log → same)

namespace Db.Reaches

variable {policy : RowidPolicy} {db db' db'' : Db} {same same' : Prop}

/-- A change of the connection that is no statement. -/
theorem of_eq (hcontent : db'.content = db.content) (hlog : db'.log = db.log) (h : same) :
    db.Reaches policy db' same := by
  refine ⟨[], ?_, hcontent.symm, fun _ => h⟩
  rw [hlog, List.append_nil]

/-- A statement that has ended with `rc`. -/
theorem finished {s : Stmt} {rc : ResultCode} {t : Tables} {snapshot : Option Tables}
    (hbehind : db.content.behind policy (s, rc) = (t, snapshot)) (h : db.content.Finds (s, rc) → same) :
    db.Reaches policy { db with tables := t, snapshot := snapshot, log := db.log ++ [(s, rc)] } same :=
  ⟨[(s, rc)], rfl, hbehind, fun hloses => h hloses.1⟩

theorem trans (h : db.Reaches policy db' same) (h' : db'.Reaches policy db'' same') :
    db.Reaches policy db'' (same ∧ same') := by
  obtain ⟨log, hlog, hcontent, hsame⟩ := h
  obtain ⟨log', hlog', hcontent', hsame'⟩ := h'
  refine ⟨log ++ log', ?_, ?_, ?_⟩
  · rw [hlog', hlog, List.append_assoc]
  · rw [Content.replay_append, hcontent, hcontent']
  · intro hloses
    obtain ⟨hfirst, hrest⟩ := Content.losesNothing_append.mp hloses
    rw [hcontent] at hrest
    exact ⟨hsame hfirst, hsame' hrest⟩

theorem mono (h : db.Reaches policy db' same) (hsame : same → same') : db.Reaches policy db' same' := by
  obtain ⟨log, hlog, hcontent, hthen⟩ := h
  exact ⟨log, hlog, hcontent, fun hloses => hsame (hthen hloses)⟩

theorem eq_right (h : db.Reaches policy db' same) (hcontent : db''.content = db'.content)
    (hlog : db''.log = db'.log) : db.Reaches policy db'' same := by
  unfold Reaches
  rw [hcontent, hlog]
  exact h

end Db.Reaches

/-- Where `m` returns, `m'` does the same when nothing was lost on the way. -/
def Repeats (policy : RowidPolicy) {σ α : Type} (view : σ → Db) (m m' : EStateM Error σ α) : Prop :=
  ∀ s, wp m (fun a s' => (view s).Reaches policy (view s') (m' s = .ok a s')) (fun _ _ => True) s

namespace Repeats

variable {policy : RowidPolicy} {σ α β : Type} {view : σ → Db} {m m' : EStateM Error σ α}

/-- A program that executes no statement. -/
theorem quiet (h : ∀ s, wp m (fun _ s' => (view s').content = (view s).content ∧ (view s').log = (view s).log)
    (fun _ _ => True) s) : Repeats policy view m m := by
  intro s
  have hs := h s
  unfold wp at hs ⊢
  cases hm : m s with
  | ok a s' =>
      rw [hm] at hs
      exact .of_eq hs.1 hs.2 rfl
  | error e s' => trivial

theorem pure (a : α) : Repeats policy view (pure a : EStateM Error σ α) (pure a) := quiet fun _ => ⟨rfl, rfl⟩

theorem get : Repeats policy view (get : EStateM Error σ σ) get := quiet fun _ => ⟨rfl, rfl⟩

theorem throw (e : Error) : Repeats policy view (throw e : EStateM Error σ α) (throw e) :=
  quiet fun _ => trivial

theorem modify {f : σ → σ} (hcontent : ∀ s, (view (f s)).content = (view s).content)
    (hlog : ∀ s, (view (f s)).log = (view s).log) :
    Repeats policy view (modify f : EStateM Error σ PUnit) (modify f) := quiet fun s => ⟨hcontent s, hlog s⟩

theorem bind {f f' : α → EStateM Error σ β} (h : Repeats policy view m m')
    (h' : ∀ a, Repeats policy view (f a) (f' a)) : Repeats policy view (m >>= f) (m' >>= f') := by
  intro s
  rw [wp_bind]
  refine (h s).mono ?_ (fun _ _ _ => trivial)
  intro a s₁ hfirst
  refine (h' a s₁).mono ?_ (fun _ _ _ => trivial)
  intro b s₂ hrest
  refine (hfirst.trans hrest).mono ?_
  rintro ⟨hm, hf⟩
  rw [bind_of_ok hm, hf]

theorem ite {c : Prop} [Decidable c] {n n' : EStateM Error σ α} (h : Repeats policy view m m')
    (h' : Repeats policy view n n') : Repeats policy view (if c then m else n) (if c then m' else n') := by
  split
  · exact h
  · exact h'

theorem keepingExceptions {m m' : DbM α} (h : Repeats policy id m m') :
    Repeats policy id (Db.keepingExceptions m) (Db.keepingExceptions m') := by
  refine get.bind fun db => ?_
  intro db₁
  rw [wp_atScopeExit]
  refine (h db₁).mono ?_ (fun _ _ _ => trivial)
  intro a db₂ hreaches
  refine (hreaches.eq_right rfl rfl).mono ?_
  intro hm
  simp only [atScopeExit, hm]

/-- A program of the part of the state that has the connection. -/
theorem onPart {τ : Type} {get : τ → σ} {put : σ → τ → τ} {view' : τ → Db} (hget : ∀ t, view' t = view (get t))
    (hput : ∀ s t, view' (put s t) = view s) (h : Repeats policy view m m') :
    Repeats policy view' (onPart get put m) (onPart get put m') := by
  intro t
  rw [wp_onPart]
  refine (h (get t)).mono ?_ (fun _ _ _ => trivial)
  intro a s hreaches
  rw [hget, hput]
  refine hreaches.mono ?_
  intro hm
  simp only [Prog.onPart, hm]

variable {sql : Sqlite}

/-- The rule of `command::execute`. -/
theorem execute (s : Stmt) : Repeats sql.policy id (sql.execute s) (sql.careful.execute s) := by
  intro db
  unfold wp Sqlite.execute
  cases hfault : sql.fault db s with
  | none =>
      have hcareful : sql.careful.fault db s = none := by
        simp only [Sqlite.careful, hfault]
      have hbehind := Content.behind_run sql.policy s db.content
      simp only [hcareful, Db.finish]
      split
      · next heq =>
          split at heq
          · cases heq
          · next hquiet =>
              cases heq
              refine .finished hbehind fun _ => ?_
              exact if_neg hquiet
      · trivial
  | some f =>
      cases f with
      | kill => trivial
      | error code =>
          simp only [Db.finish]
          split
          · next heq =>
              split at heq
              · cases heq
              · next hquiet =>
                  cases heq
                  refine .finished rfl fun hstored => ?_
                  have hcareful : sql.careful.fault db s = some (.error code) := by
                    simp only [Sqlite.careful, hfault]
                    exact if_pos (.inr hstored)
                  simp only [hcareful]
                  exact if_neg hquiet
          · trivial

theorem executeAll (statements : List Stmt) :
    Repeats sql.policy id (sql.executeAll statements) (sql.careful.executeAll statements) := by
  induction statements with
  | nil => exact pure ()
  | cons s statements ih => exact (execute s).bind fun _ => ih

/-- A transaction that returns has executed its body and the COMMIT. -/
theorem transaction {freserve frollback : Bool} {body body' : DbM Unit} (h : Repeats sql.policy id body body') :
    Repeats sql.policy id (sql.transaction freserve frollback body)
      (sql.careful.transaction freserve frollback body') := by
  refine (execute (.begin freserve)).bind fun _ => ?_
  have hcommit : Repeats sql.policy id (do let _ ← sql.execute .commit) (do let _ ← sql.careful.execute .commit) :=
    (execute .commit).bind fun _ => pure ()
  intro db
  have hbody := h db
  unfold wp Sqlite.transactionScope
  cases hb : body db with
  | error e db' =>
      by_cases hkilled : e = .killed
      · simp only [if_pos hkilled]
      · simp only [if_neg hkilled]
        cases sql.execute (if frollback then .rollback else .commit) db' <;> trivial
  | ok a db' =>
      have hfirst := wp_of_ok hbody hb
      have hrest := hcommit db'
      unfold wp at hrest
      cases hc : (do let _ ← sql.execute .commit : DbM Unit) db' with
      | error e db'' => simp only [hc]
      | ok _ db'' =>
          rw [hc] at hrest
          simp only [hc]
          refine (hfirst.trans hrest).mono ?_
          rintro ⟨hbody', hcommit'⟩
          simp only [hbody']
          exact hcommit'

end Repeats

end Spacenet
