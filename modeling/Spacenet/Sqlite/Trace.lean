-- SUMMARY: The states of the database between the statements of a log, and the rules for programs that keep an invariant in all of them.
import Spacenet.Sqlite.Execution

/-!
# The states between the statements

The log of a connection says what its statements did: executing them once more
passes the same states. `Guards` says of a program that an invariant holds in all
of them, from the first statement to the last, also when it ends by an exception.
-/

namespace Spacenet

open Prog

/-! ## Replaying a log -/

/-- The content that the connection sees, and the content to go back to. -/
abbrev Content := Tables × Option Tables

def Db.content (db : Db) : Content := (db.tables, db.snapshot)

/-- The content on disk. -/
def Content.committed (c : Content) : Tables := c.2.getD c.1

/-- The content behind a statement that ended with a code: a failure leaves it as it was. -/
def Content.behind (policy : RowidPolicy) (c : Content) (e : Stmt × ResultCode) : Content :=
  match e.2 with
  | .error _ => c
  | _ => (e.1.run policy c.1 c.2).2

/-- The content behind the statements of a log. -/
def Content.replay (policy : RowidPolicy) (c : Content) (log : List (Stmt × ResultCode)) : Content :=
  log.foldl (behind policy) c

namespace Content

variable {policy : RowidPolicy} {c : Content} {log log' : List (Stmt × ResultCode)}

/-- A statement that nothing fails has its effect. -/
theorem behind_run (policy : RowidPolicy) (s : Stmt) (c : Content) :
    c.behind policy (s, (s.run policy c.1 c.2).1) = (s.run policy c.1 c.2).2 := by
  have hkept : ∀ code, (s.run policy c.1 c.2).1 = .error code → (s.run policy c.1 c.2).2 = c := by
    intro code hcode
    obtain ⟨t, snapshot⟩ := c
    cases hs : s.autocommits with
    | true =>
        rw [Stmt.run_autocommits hs] at hcode
        exact absurd hcode (Stmt.exec_ne_error s t code)
    | false =>
        cases s <;> cases snapshot <;>
          first | rfl | (simp only [Stmt.run, reduceCtorEq] at hcode; done) | cases hs
  unfold behind
  split
  · next code hcode => exact (hkept code hcode).symm
  · rfl

theorem replay_append (policy : RowidPolicy) (c : Content) (log log' : List (Stmt × ResultCode)) :
    c.replay policy (log ++ log') = (c.replay policy log).replay policy log' :=
  List.foldl_append

/-- The invariant holds behind every beginning of the log. -/
def Always (policy : RowidPolicy) (J : Content → Prop) (c : Content)
    (log : List (Stmt × ResultCode)) : Prop :=
  ∀ k, J (c.replay policy (log.take k))

theorem Always.nil {J : Content → Prop} (h : J c) : c.Always policy J [] := by
  intro k
  rw [List.take_nil]
  exact h

theorem Always.last {J : Content → Prop} (h : c.Always policy J log) : J (c.replay policy log) := by
  have hlast := h log.length
  rwa [List.take_length] at hlast

theorem Always.append {J : Content → Prop} (h : c.Always policy J log)
    (h' : (c.replay policy log).Always policy J log') : c.Always policy J (log ++ log') := by
  intro k
  rcases Nat.le_total k log.length with hle | hle
  · rw [List.take_append_of_le_length hle]
    exact h k
  · obtain ⟨j, rfl⟩ := Nat.exists_eq_add_of_le hle
    rw [List.take_length_add_append, replay_append]
    exact h' j

theorem Always.singleton {J : Content → Prop} {e : Stmt × ResultCode} (h : J c)
    (h' : J (c.behind policy e)) : c.Always policy J [e] := by
  intro k
  cases k with
  | zero => exact h
  | succ k =>
      rw [List.take_succ_cons, List.take_nil]
      exact h'

end Content

namespace Db

variable (policy : RowidPolicy) (J : Content → Prop)

/-- From `db` the connection has got to `db'` through states with the invariant. -/
def Through (db db' : Db) : Prop :=
  ∃ log, db'.log = db.log ++ log ∧ db.content.Always policy J log ∧
    db.content.replay policy log = db'.content

/-- The same for a program that ends by `e`. When the process ends SQLite goes back to the content
on disk. -/
def Stops (e : Error) (db db' : Db) : Prop :=
  ∃ log, db'.log = db.log ++ log ∧ db.content.Always policy J log ∧
    (db.content.replay policy log).committed = db'.committed ∧
      (e ≠ .killed → db.content.replay policy log = db'.content)

variable {policy : RowidPolicy} {J : Content → Prop} {e : Error} {db db' db'' : Db}

/-- A change of the connection that does not touch its content. -/
theorem Through.of_eq (h : J db.content) (hcontent : db'.content = db.content) (hlog : db'.log = db.log) :
    db.Through policy J db' := by
  refine ⟨[], ?_, .nil h, ?_⟩
  · rw [hlog, List.append_nil]
  · rw [hcontent]
    rfl

theorem Through.refl (h : J db.content) : db.Through policy J db := .of_eq h rfl rfl

/-- A statement that has ended with `rc`. -/
theorem Through.finished {s : Stmt} {rc : ResultCode} {t : Tables} {snapshot : Option Tables}
    (h : J db.content) (h' : J (t, snapshot)) (hbehind : db.content.behind policy (s, rc) = (t, snapshot)) :
    db.Through policy J { db with tables := t, snapshot := snapshot, log := db.log ++ [(s, rc)] } :=
  ⟨[(s, rc)], rfl, .singleton h (hbehind ▸ h'), hbehind⟩

theorem Through.trans (h : db.Through policy J db') (h' : db'.Through policy J db'') :
    db.Through policy J db'' := by
  obtain ⟨log, hlog, halways, hcontent⟩ := h
  obtain ⟨log', hlog', halways', hcontent'⟩ := h'
  refine ⟨log ++ log', ?_, halways.append ?_, ?_⟩
  · rw [hlog', hlog, List.append_assoc]
  · rw [hcontent]
    exact halways'
  · rw [Content.replay_append, hcontent]
    exact hcontent'

theorem Through.stops (h : db.Through policy J db') (e : Error) : db.Stops policy J e db' := by
  obtain ⟨log, hlog, halways, hcontent⟩ := h
  refine ⟨log, hlog, halways, ?_, fun _ => hcontent⟩
  rw [hcontent]
  rfl

theorem Through.stops_trans (h : db.Through policy J db') (h' : db'.Stops policy J e db'') :
    db.Stops policy J e db'' := by
  obtain ⟨log, hlog, halways, hcontent⟩ := h
  obtain ⟨log', hlog', halways', hcommitted, hthrown⟩ := h'
  refine ⟨log ++ log', ?_, halways.append ?_, ?_, ?_⟩
  · rw [hlog', hlog, List.append_assoc]
  · rw [hcontent]
    exact halways'
  · rw [Content.replay_append, hcontent]
    exact hcommitted
  · intro hne
    rw [Content.replay_append, hcontent]
    exact hthrown hne

/-- An exception of the program leaves the connection behind its last statement. -/
theorem Stops.through (h : db.Stops policy J e db') (hne : e ≠ .killed) : db.Through policy J db' := by
  obtain ⟨log, hlog, halways, -, hthrown⟩ := h
  exact ⟨log, hlog, halways, hthrown hne⟩

/-- The end of the process. -/
theorem Through.killed (h : db.Through policy J db') : db.Stops policy J .killed db'.crash := by
  obtain ⟨log, hlog, halways, hcommitted, -⟩ := h.stops .killed
  exact ⟨log, hlog, halways, hcommitted, fun hne => absurd rfl hne⟩

theorem Stops.killed (h : db.Stops policy J e db') : db.Stops policy J .killed db'.crash := by
  obtain ⟨log, hlog, halways, hcommitted, -⟩ := h
  exact ⟨log, hlog, halways, hcommitted, fun hne => absurd rfl hne⟩

theorem Stops.of_eq (h : db.Stops policy J e db') (hcontent : db''.content = db'.content)
    (hlog : db''.log = db'.log) : db.Stops policy J e db'' := by
  obtain ⟨log, hlog', halways, hcommitted, hthrown⟩ := h
  obtain ⟨htables, hsnapshot⟩ := Prod.mk.inj hcontent
  refine ⟨log, hlog.trans hlog', halways, ?_, ?_⟩
  · rw [hcommitted, committed, committed, htables, hsnapshot]
  · intro hne
    rw [hcontent]
    exact hthrown hne

theorem Through.last (h : db.Through policy J db') : J db'.content := by
  obtain ⟨log, -, halways, hcontent⟩ := h
  rw [← hcontent]
  exact halways.last

end Db

/-! ## Programs that keep an invariant -/

/-- From `s` the program goes through states with the invariant, and returns with `Q` or throws. -/
def Guards (policy : RowidPolicy) (J : Content → Prop) {σ α : Type} (view : σ → Db)
    (m : EStateM Error σ α) (Q : α → σ → Prop) (s : σ) : Prop :=
  wp m (fun a s' => (view s).Through policy J (view s') ∧ Q a s')
    (fun e s' => (view s).Stops policy J e (view s')) s

namespace Guards

variable {policy : RowidPolicy} {J : Content → Prop} {σ α β : Type} {view : σ → Db} {s s' : σ}

theorem mono {m : EStateM Error σ α} {Q Q' : α → σ → Prop} (h : Guards policy J view m Q s)
    (hQ : ∀ a s', Q a s' → Q' a s') : Guards policy J view m Q' s :=
  wp.mono h (fun a s' h => ⟨h.1, hQ a s' h.2⟩) (fun _ _ h => h)

theorem returned {m : EStateM Error σ α} {Q : α → σ → Prop} {a : α} (h : Guards policy J view m Q s)
    (hm : m s = .ok a s') : (view s).Through policy J (view s') ∧ Q a s' := by
  unfold Guards wp at h
  rwa [hm] at h

theorem threw {m : EStateM Error σ α} {Q : α → σ → Prop} {e : Error} (h : Guards policy J view m Q s)
    (hm : m s = .error e s') : (view s).Stops policy J e (view s') := by
  unfold Guards wp at h
  rwa [hm] at h

/-- What is known of the state in which the program returns. -/
theorem and {m : EStateM Error σ α} {Q Q' : α → σ → Prop} {E : Error → σ → Prop}
    (h : Guards policy J view m Q s) (h' : wp m Q' E s) :
    Guards policy J view m (fun a s' => Q a s' ∧ Q' a s') s :=
  (wp.and h h').mono (fun _ _ h => ⟨h.1.1, h.1.2, h.2⟩) (fun _ _ h => h.1)

theorem pure {a : α} {Q : α → σ → Prop} (hJ : J (view s).content) (h : Q a s) :
    Guards policy J view (pure a) Q s :=
  ⟨.refl hJ, h⟩

theorem throw {e : Error} {Q : α → σ → Prop} (hJ : J (view s).content) :
    Guards policy J view (throw e) Q s :=
  (Db.Through.refl hJ).stops e

theorem get {Q : σ → σ → Prop} (hJ : J (view s).content) (h : Q s s) :
    Guards policy J view get Q s :=
  ⟨.refl hJ, h⟩

theorem modify {f : σ → σ} {Q : PUnit → σ → Prop} (hJ : J (view s).content)
    (hcontent : (view (f s)).content = (view s).content) (hlog : (view (f s)).log = (view s).log)
    (h : Q ⟨⟩ (f s)) : Guards policy J view (modify f) Q s :=
  ⟨.of_eq hJ hcontent hlog, h⟩

theorem bind {m : EStateM Error σ α} {f : α → EStateM Error σ β} {Q : β → σ → Prop}
    (h : Guards policy J view m (fun a s' => Guards policy J view (f a) Q s') s) :
    Guards policy J view (m >>= f) Q s := by
  unfold Guards
  rw [wp_bind]
  refine wp.mono h ?_ (fun _ _ h => h)
  rintro a s₁ ⟨hthrough, hrest⟩
  refine wp.mono hrest ?_ ?_
  · rintro b s₂ ⟨hthrough', hQ⟩
    exact ⟨hthrough.trans hthrough', hQ⟩
  · exact fun _ _ hstops => hthrough.stops_trans hstops

theorem ite {c : Prop} [Decidable c] {m m' : EStateM Error σ α} {Q : α → σ → Prop}
    (h : c → Guards policy J view m Q s) (h' : ¬c → Guards policy J view m' Q s) :
    Guards policy J view (if c then m else m') Q s := by
  split
  · next hc => exact h hc
  · next hc => exact h' hc

theorem keepingExceptions {m : DbM α} {Q : α → Db → Prop} {db : Db}
    (h : Guards policy J id m (fun a db' => Q a (db'.withExceptions db.exceptions)) db) :
    Guards policy J id (Db.keepingExceptions m) Q db := by
  unfold Guards Db.keepingExceptions
  rw [wp_bind, wp_get, wp_atScopeExit]
  refine wp.mono h ?_ ?_
  · rintro a db' ⟨hthrough, hQ⟩
    exact ⟨hthrough.trans (.of_eq hthrough.last rfl rfl), hQ⟩
  · exact fun e db' hstops => hstops.of_eq rfl rfl

/-- A program of the part of the state that has the connection. -/
theorem onPart {τ : Type} {get : τ → σ} {put : σ → τ → τ} {view' : τ → Db} {m : EStateM Error σ α}
    {Q : α → τ → Prop} {t : τ} (hget : view' t = view (get t))
    (hput : ∀ s, view' (put s t) = view s)
    (h : Guards policy J view m (fun a s => Q a (put s t)) (get t)) :
    Guards policy J view' (onPart get put m) Q t := by
  unfold Guards
  rw [wp_onPart]
  simp only [hget, hput]
  exact h

/-- A statement that ends with `rc`: the code is returned or thrown. -/
theorem finish {st : Stmt} {rc : ResultCode} {t : Tables} {snapshot : Option Tables} {db : Db}
    (h : db.Through policy J
      { db with tables := t, snapshot := snapshot, log := db.log ++ [(st, rc)] }) :
    Guards policy J id (fun db => db.finish st rc t snapshot) (fun _ db' => J db'.content) db := by
  unfold Guards wp Db.finish
  by_cases hthrows : rc.failed = true ∧ db.exceptions = true
  · simp only [if_pos hthrows]
    exact h.stops _
  · simp only [if_neg hthrows]
    exact ⟨h, h.last⟩

/-- The rule of `command::execute`: the statement keeps the invariant. -/
theorem execute {sql : Sqlite} {st : Stmt} {db : Db} (hJ : J db.content)
    (hkeeps : J (st.run sql.policy db.tables db.snapshot).2) :
    Guards sql.policy J id (sql.execute st) (fun _ db' => J db'.content) db := by
  have herror : ∀ code, Guards sql.policy J id
      (fun db' => db'.finish st (.error code) db.tables db.snapshot) (fun _ db' => J db'.content) db :=
    fun _ => finish (.finished hJ hJ rfl)
  have hrun : Guards sql.policy J id (fun db' => db'.finish st (st.run sql.policy db.tables db.snapshot).1
      (st.run sql.policy db.tables db.snapshot).2.1 (st.run sql.policy db.tables db.snapshot).2.2)
      (fun _ db' => J db'.content) db :=
    finish (.finished hJ hkeeps (Content.behind_run sql.policy st db.content))
  unfold Guards wp Sqlite.execute
  cases sql.fault db st with
  | some f =>
      cases f with
      | kill => exact (Db.Through.refl hJ).killed
      | error code => exact herror code
  | none => exact hrun

section

variable {sql : Sqlite} {freserve frollback : Bool} {body : DbM Unit} {db : Db}

/-- The rule of a transaction that is open: COMMIT and ROLLBACK keep the invariant. -/
theorem transactionScope
    (hkeeps : ∀ (st : Stmt) (c : Content), st.autocommits = false → J c →
      J (st.run sql.policy c.1 c.2).2)
    (hbody : Guards sql.policy J id body (fun _ _ => True) db) :
    Guards sql.policy J id (sql.transactionScope frollback body) (fun _ _ => True) db := by
  have hcommit : ∀ db : Db, J db.content →
      Guards sql.policy J id (do let _ ← sql.execute .commit) (fun _ _ => True) db := by
    intro db hJ
    apply bind
    refine mono (execute hJ (hkeeps .commit db.content rfl hJ)) ?_
    exact fun _ _ hJ' => pure hJ' trivial
  unfold Guards wp Sqlite.transactionScope
  cases hm : body db with
  | ok _ db₂ =>
      obtain ⟨hdone, -⟩ := hbody.returned hm
      refine wp.mono (hcommit db₂ hdone.last) ?_ ?_
      · rintro _ db₃ ⟨hcommitted, -⟩
        exact ⟨hdone.trans hcommitted, trivial⟩
      · exact fun _ _ hstops => hdone.stops_trans hstops
  | error e db₂ =>
      have hstops := hbody.threw hm
      by_cases hkilled : e = .killed
      · simp only [if_pos hkilled]
        exact hstops
      · simp only [if_neg hkilled]
        -- the destructor executes one more statement
        have hthrown := hstops.through hkilled
        have hunwind : Guards sql.policy J id (sql.execute (if frollback then .rollback else .commit))
            (fun _ _ => True) db₂ := by
          refine mono (execute hthrown.last ?_) (fun _ _ _ => trivial)
          apply hkeeps _ db₂.content _ hthrown.last
          cases frollback <;> rfl
        cases hc : sql.execute (if frollback then .rollback else .commit) db₂ with
        | ok _ db₃ =>
            obtain ⟨hclosed, -⟩ := hunwind.returned hc
            exact (hthrown.trans hclosed).stops e
        | error e' db₃ =>
            exact (hthrown.stops_trans (hunwind.threw hc)).killed

/-- The rule of `transaction`: BEGIN, COMMIT and ROLLBACK keep the invariant, and so does the body. -/
theorem transaction
    (hkeeps : ∀ (st : Stmt) (c : Content), st.autocommits = false → J c →
      J (st.run sql.policy c.1 c.2).2)
    (hbody : ∀ db : Db, J db.content → Guards sql.policy J id body (fun _ _ => True) db)
    (hJ : J db.content) :
    Guards sql.policy J id (sql.transaction freserve frollback body) (fun _ _ => True) db := by
  apply bind
  refine mono (execute hJ (hkeeps (.begin freserve) db.content rfl hJ)) ?_
  exact fun _ db' hJ' => transactionScope hkeeps (hbody db' hJ')

end

end Guards

end Spacenet
