-- SUMMARY: What a run of `reindex` can do to the tables: the callbacks it makes, and where an abort, an exception or a vanished directory ends it.
import Spacenet.Effect.Visits

/-!
# Runs

The walk of a run makes the callbacks of a beginning of its events. It goes
through, is left by an abort or at a directory that has vanished, or ends by an
exception, then perhaps in the middle of a record. The sweep follows when the
walk ended without an exception.
-/

namespace Spacenet

open Prog Machine

/-! ## The walk -/

/-- Why the walk throws before or inside of the first event of `post`, behind `calls` callbacks. -/
inductive WalkThrows (env : Env) (idx : Index) (calls : Nat) : (post : List Event) → Prop where
  | fault {post : List Event} (fault : ¬env.sql.NoFault) : WalkThrows env idx calls post
  | unknown (c : Call) (post : List Event) (visit : idx.visit env.sql.policy env.modifiedOnly c = none) :
      WalkThrows env idx calls (.call c :: post)
  | aborted (c : Call) (post : List Event) (shutdown : env.shutdown calls = true) :
      WalkThrows env idx calls (.call c :: post)
  | notOpened (path : WString) {err : U32} (post : List Event) (err_ne : err ≠ ERROR_PATH_NOT_FOUND) :
      WalkThrows env idx calls (.openFailed path err :: post)
  | notRead (path : WString) {err : U32} (post : List Event) (err_ne : err ≠ ERROR_NO_MORE_FILES) :
      WalkThrows env idx calls (.endOfDirectory path err :: post)

/-- An event behind which the walk goes on, when its callback does. -/
def Event.Passes : Event → Prop
  | .call _ => True
  | .openFailed _ _ => False
  | .endOfDirectory _ err => err = ERROR_NO_MORE_FILES

/-- From `start`, behind `calls` callbacks, the walk passes the events `pre`: their callbacks are made
and none sees the shutdown. -/
structure Visited (env : Env) (start : Index) (calls : Nat) (pre : List Event) (idx : Index) :
    Prop where
  visit : start.visitAll env.sql.policy env.modifiedOnly (callsOf pre) = some idx
  run : ∀ i < (callsOf pre).length, env.shutdown (calls + i) = false
  passes : ∀ e ∈ pre, e.Passes

namespace Visited

variable {env : Env} {start idx idx' : Index} {calls : Nat} {pre : List Event}

theorem nil (env : Env) (start : Index) (calls : Nat) : Visited env start calls [] start where
  visit := rfl
  run := fun _ h => absurd h (Nat.not_lt_zero _)
  passes := fun _ h => absurd h List.not_mem_nil

theorem call {c : Call} (hvisit : start.visit env.sql.policy env.modifiedOnly c = some idx')
    (hrun : env.shutdown calls = false) (h : Visited env idx' (calls + 1) pre idx) :
    Visited env start calls (.call c :: pre) idx where
  visit := by
    rw [callsOf_call, Index.visitAll_cons hvisit]
    exact h.visit
  run := by
    intro i hi
    cases i with
    | zero => exact hrun
    | succ i =>
        have hlt : i < (callsOf pre).length := Nat.lt_of_succ_lt_succ hi
        have := h.run i hlt
        rwa [Nat.add_assoc, Nat.add_comm 1 i] at this
  passes := by
    intro e he
    rcases List.mem_cons.mp he with rfl | he
    · trivial
    · exact h.passes e he

theorem endOfDirectory {path : WString} {err : U32} (herr : err = ERROR_NO_MORE_FILES)
    (h : Visited env start calls pre idx) :
    Visited env start calls (.endOfDirectory path err :: pre) idx where
  visit := h.visit
  run := h.run
  passes := by
    intro e he
    rcases List.mem_cons.mp he with rfl | he
    · exact herr
    · exact h.passes e he

end Visited

/-- The end of the walk from the world `w` over the events `es`. -/
inductive Walks (env : Env) (w : World) (es : List Event) : WalkEnd World → Prop where
  | through {idx : Index} {log : List (Stmt × ResultCode)} {lastError : U32}
      (visited : Visited env w.index w.calls es idx) :
      Walks env w es (.through lastError
        ⟨w.db.put idx.tables log, idx.parents, w.calls + (callsOf es).length⟩)
  | vanished (pre post : List Event) {path : WString} {idx : Index} {log : List (Stmt × ResultCode)}
      (events : es = pre ++ .openFailed path ERROR_PATH_NOT_FOUND :: post)
      (visited : Visited env w.index w.calls pre idx) :
      Walks env w es (.returned
        ⟨w.db.put idx.tables log, idx.parents, w.calls + (callsOf pre).length⟩)
  | aborted (pre post : List Event) {c : Call} {idx : Index} {log : List (Stmt × ResultCode)}
      (events : es = pre ++ .call c :: post)
      (visited : Visited env w.index w.calls pre idx)
      (shutdown : env.shutdown (w.calls + (callsOf pre).length) = true) :
      Walks env w es (.returned
        ⟨w.db.put idx.tables log, idx.parents, w.calls + (callsOf pre).length + 1⟩)
  | threw (pre post : List Event) {e : Error} {w' : World} {idx : Index} {t : Tables}
      {log : List (Stmt × ResultCode)} (events : es = pre ++ post)
      (visited : Visited env w.index w.calls pre idx)
      (tables : t = idx.tables ∨ ∃ c post', post = .call c :: post' ∧
        idx.Inside env.sql.policy env.modifiedOnly c t)
      (cause : WalkThrows env idx (w.calls + (callsOf pre).length) post)
      (world : w'.db = w.db.put t log) : Walks env w es (.threw e w')

namespace Walks

variable {env : Env} {w : World} {es : List Event} {out : WalkEnd World}

/-- A callback and the rest of the walk. -/
theorem call {c : Call} {idx : Index} {log : List (Stmt × ResultCode)}
    (hvisit : w.index.visit env.sql.policy env.modifiedOnly c = some idx)
    (hrun : env.shutdown w.calls = false) (h : Walks env (w.behind idx log) es out) :
    Walks env w (.call c :: es) out := by
  have hcalls : ∀ n, (w.behind idx log).calls + n = w.calls + (n + 1) := by
    intro n
    simp only [World.behind]
    omega
  cases h with
  | through visited =>
      rw [hcalls]
      exact .through (visited.call hvisit hrun)
  | vanished pre post events visited =>
      rw [hcalls]
      subst events
      exact .vanished (.call c :: pre) post rfl (visited.call hvisit hrun)
  | aborted pre post events visited shutdown =>
      rw [hcalls] at shutdown ⊢
      subst events
      exact .aborted (.call c :: pre) post rfl (visited.call hvisit hrun) shutdown
  | threw pre post events visited tables cause world =>
      rw [hcalls] at cause
      subst events
      exact .threw (.call c :: pre) post rfl (visited.call hvisit hrun) tables cause world

/-- The end of a directory and the rest of the walk. -/
theorem endOfDirectory {path : WString} {err : U32} (herr : err = ERROR_NO_MORE_FILES)
    (h : Walks env w es out) : Walks env w (.endOfDirectory path err :: es) out := by
  cases h with
  | through visited => exact .through (visited.endOfDirectory herr)
  | vanished pre post events visited =>
      subst events
      exact .vanished (.endOfDirectory path err :: pre) post rfl (visited.endOfDirectory herr)
  | aborted pre post events visited shutdown =>
      subst events
      exact .aborted (.endOfDirectory path err :: pre) post rfl (visited.endOfDirectory herr) shutdown
  | threw pre post events visited tables cause world =>
      subst events
      exact .threw (.endOfDirectory path err :: pre) post rfl (visited.endOfDirectory herr) tables
        cause world

end Walks

variable {env : Env} {disk : Disk}

/-- A callback that sees the shutdown sets `abort_` and does nothing else. -/
theorem manipulator_shutdown {dr : DirectoryReader} {sh : Shared World}
    (h : env.shutdown sh.user.calls = true) :
    manipulator env disk dr sh =
      .ok () ⟨true, sh.lastError, { sh.user with calls := sh.user.calls + 1 }⟩ := by
  have hwp : wp (manipulator env disk dr)
      (fun _ sh' => sh' = ⟨true, sh.lastError, { sh.user with calls := sh.user.calls + 1 }⟩)
      (fun _ _ => False) sh := by
    simp only [manipulator, wp_bind, wp_get, wp_set, h, if_true, wp_modify]
  obtain ⟨_, sh', hrun, rfl⟩ := hwp.returns
  exact hrun

/-- A callback that sees no shutdown makes its visit, or throws inside of it. -/
theorem manipulator_visits (h : env.sql.Throws) {root : WString} {c : Call} (hc : c.Below disk [root])
    (lastError : U32) {w : World} (hdb : w.db.snapshot = none) (hshut : env.shutdown w.calls = false) :
    wp (manipulator env disk (c.reader indexReader))
      (fun _ sh => ∃ idx log, w.index.visit env.sql.policy env.modifiedOnly c = some idx ∧
        sh = ⟨false, env.register w.calls lastError, w.behind idx log⟩)
      (fun _ sh => ∃ t log, (∀ es, WalkThrows env w.index w.calls (.call c :: es)) ∧
        w.index.Inside env.sql.policy env.modifiedOnly c t ∧
        sh.user.db = w.db.put t log) ⟨false, lastError, w⟩ := by
  refine wp_manipulator h hc.has hc.parts_ne_nil hdb hshut ?_ ?_ ?_
  · intro idx log hvisit
    exact ⟨idx, log, hvisit, rfl⟩
  · intro e sh log hvisit hworld
    exact ⟨_, log, fun es => .unknown c es hvisit, .inl rfl, hworld⟩
  · intro e sh t log hfault hinside hworld
    exact ⟨t, log, fun _ => .fault hfault, hinside, hworld⟩

/-- What an event of the walk does to the world `w`. -/
inductive Steps (env : Env) (w : World) : Event → WalkEnd World → Prop where
  | visited {c : Call} {idx : Index} {log : List (Stmt × ResultCode)} {lastError : U32}
      (shutdown : env.shutdown w.calls = false) (visit : w.index.visit env.sql.policy env.modifiedOnly c = some idx) :
      Steps env w (.call c) (.through lastError (w.behind idx log))
  | left {path : WString} {err : U32} (err_eq : err = ERROR_NO_MORE_FILES) :
      Steps env w (.endOfDirectory path err) (.through err w)
  | vanished {path : WString} : Steps env w (.openFailed path ERROR_PATH_NOT_FOUND) (.returned w)
  | aborted {c : Call} (shutdown : env.shutdown w.calls = true) :
      Steps env w (.call c) (.returned { w with calls := w.calls + 1 })
  | threw {event : Event} {e : Error} {w' : World} {t : Tables} {log : List (Stmt × ResultCode)}
      (tables : t = w.db.tables ∨ ∃ c, event = .call c ∧ w.index.Inside env.sql.policy env.modifiedOnly c t)
      (cause : ∀ es, WalkThrows env w.index w.calls (event :: es)) (world : w'.db = w.db.put t log) :
      Steps env w event (.threw e w')

/-- The step lemma of the walk. -/
theorem Event.run_steps (h : env.sql.Throws) {root : WString} {event : Event}
    (hbelow : ∀ c ∈ callsOf [event], c.Below disk [root]) (lastError : U32) {w : World} (hdb : w.db.snapshot = none) :
    Steps env w event (event.run indexReader (manipulator env disk) lastError w) := by
  cases event with
  | call c =>
      have hc : c.Below disk [root] := hbelow c List.mem_cons_self
      simp only [Event.run]
      cases hshut : env.shutdown w.calls with
      | true =>
          rw [manipulator_shutdown hshut]
          simp only [if_true]
          rcases c.stop_cases lastError { w with calls := w.calls + 1 } with hstop | ⟨e, hstop⟩
          · rw [hstop]
            exact .aborted hshut
          · rw [hstop]
            exact .threw (.inl rfl) (fun es => .aborted c es hshut) (Db.put_self _).symm
      | false =>
          have hwp := manipulator_visits h hc lastError hdb hshut
          cases hm : manipulator env disk (c.reader indexReader) ⟨false, lastError, w⟩ with
          | ok _ sh =>
              obtain ⟨idx, log, hvisit, rfl⟩ := wp_of_ok hwp hm
              exact .visited hshut hvisit
          | error e sh =>
              obtain ⟨t, log, hcause, hinside, hworld⟩ := wp_of_error hwp hm
              exact .threw (.inr ⟨c, rfl, hinside⟩) hcause hworld
  | openFailed path err =>
      simp only [Event.run]
      split
      · next herr =>
          rw [herr]
          exact .vanished
      · next herr => exact .threw (.inl rfl) (fun es => .notOpened path es herr) (Db.put_self _).symm
  | endOfDirectory path err =>
      simp only [Event.run]
      split
      · next herr => exact .left herr
      · next herr => exact .threw (.inl rfl) (fun es => .notRead path es herr) (Db.put_self _).symm

/-- The run lemma: what the events of the walk do, by induction on the events. -/
theorem runEvents_walks (h : env.sql.Throws) {root : WString} (es : List Event)
    (hbelow : ∀ c ∈ callsOf es, c.Below disk [root]) (lastError : U32) (w : World)
    (hdb : w.db.snapshot = none) :
    Walks env w es (runEvents indexReader (manipulator env disk) es lastError w) := by
  induction es generalizing lastError w with
  | nil =>
      have : Walks env w [] (.through lastError ⟨w.db.put w.index.tables w.db.log, w.index.parents,
          w.calls + 0⟩) := .through (.nil env w.index w.calls)
      exact this
  | cons event es ih =>
      have hfirst : ∀ c ∈ callsOf [event], c.Below disk [root] := by
        intro c hc
        refine hbelow c ?_
        rw [← List.singleton_append, callsOf_append]
        exact List.mem_append_left _ hc
      have hrest : ∀ c ∈ callsOf es, c.Below disk [root] := by
        intro c hc
        refine hbelow c ?_
        rw [← List.singleton_append, callsOf_append]
        exact List.mem_append_right _ hc
      have hstep := Event.run_steps h hfirst lastError hdb
      simp only [runEvents]
      cases hrun : event.run indexReader (manipulator env disk) lastError w with
      | through lastError' w' =>
          rw [hrun] at hstep
          cases hstep with
          | @visited c idx log _ shutdown visit =>
              exact (ih hrest lastError' (w.behind idx log) hdb).call visit shutdown
          | left err_eq => exact (ih hrest _ w hdb).endOfDirectory err_eq
      | returned w' =>
          rw [hrun] at hstep
          cases hstep with
          | @vanished path =>
              have : Walks env w (.openFailed path ERROR_PATH_NOT_FOUND :: es) (.returned
                  ⟨w.db.put w.index.tables w.db.log, w.index.parents, w.calls + 0⟩) :=
                .vanished [] es rfl (.nil env w.index w.calls)
              exact this
          | @aborted c shutdown =>
              have : Walks env w (.call c :: es) (.returned
                  ⟨w.db.put w.index.tables w.db.log, w.index.parents, w.calls + 0 + 1⟩) :=
                .aborted [] es rfl (.nil env w.index w.calls) shutdown
              exact this
      | threw e w' =>
          rw [hrun] at hstep
          cases hstep with
          | threw tables cause world =>
              refine .threw [] _ rfl (.nil env w.index w.calls) ?_ (cause es) world
              rcases tables with htables | ⟨c, rfl, hinside⟩
              · exact .inl htables
              · exact .inr ⟨c, es, rfl, hinside⟩

end Spacenet
