-- SUMMARY: A run that sees the shutdown at a callback: when `read` throws then, and the tables that the run leaves.
import Spacenet.Effect.Completed

/-!
# Interrupted runs

The callback that sees the shutdown sets `abort_`. Behind it `read` returns or
throws, by where the entry stands in its listing and by the last error. When it
returns the sweep follows, over the records made so far.
-/

namespace Spacenet

open Prog

/-- The last error behind events that are passed: callbacks leave what their API calls leave, and the
end of a listing leaves its error. -/
def lastErrorBehind (register : Nat → U32 → U32) : List Event → (calls : Nat) → U32 → U32
  | [], _, lastError => lastError
  | .call _ :: es, calls, lastError =>
      lastErrorBehind register es (calls + 1) (register calls lastError)
  | .openFailed _ _ :: es, calls, lastError => lastErrorBehind register es calls lastError
  | .endOfDirectory _ err :: es, calls, _ => lastErrorBehind register es calls err

/-- `read` throws when the callback for `c` has set `abort_`. -/
def Call.StopThrows (c : Call) (lastError : U32) : Prop :=
  match c.after with
  | .descend => False
  | .next => lastError ≠ ERROR_NO_MORE_FILES
  | .last err => err ≠ ERROR_NO_MORE_FILES

instance (c : Call) (lastError : U32) : Decidable (c.StopThrows lastError) := by
  unfold Call.StopThrows
  split <;> infer_instance

theorem Call.stop_of_throws {σ : Type} {c : Call} {lastError : U32} (h : c.StopThrows lastError)
    (user : σ) : ∃ e, c.stop lastError user = .threw e user := by
  cases hafter : c.after with
  | descend =>
      simp only [StopThrows, hafter] at h
  | next =>
      simp only [StopThrows, hafter] at h
      simp only [stop, hafter, if_neg h]
      exact ⟨_, rfl⟩
  | last err =>
      simp only [StopThrows, hafter] at h
      simp only [stop, hafter, if_neg h]
      exact ⟨_, rfl⟩

theorem Call.stop_of_not_throws {σ : Type} {c : Call} {lastError : U32} (h : ¬c.StopThrows lastError)
    (user : σ) : c.stop lastError user = .returned user := by
  cases hafter : c.after with
  | descend => simp only [stop, hafter]
  | next =>
      simp only [StopThrows, hafter, not_not] at h
      simp only [stop, hafter, if_pos h]
  | last err =>
      simp only [StopThrows, hafter, not_not] at h
      simp only [stop, hafter, if_pos h]

variable {env : Env} {disk : Disk}

/-- The run lemma: events whose callbacks all make their visits are passed. -/
theorem runEvents_visited (h : env.sql.NoFault) {root : WString} {es : List Event}
    (hbelow : ∀ c ∈ callsOf es, c.Below disk [root]) (lastError : U32) {w : World}
    (hdb : w.db.snapshot = none) {idx : Index} (hvisited : Visited env w.index w.calls es idx) :
    ∃ w', runEvents indexReader (manipulator env disk) es lastError w =
        .through (lastErrorBehind env.register es w.calls lastError) w' ∧
      w'.index = idx ∧ w'.calls = w.calls + (callsOf es).length ∧ w'.db.snapshot = none := by
  induction es generalizing lastError w with
  | nil =>
      obtain rfl := Option.some.inj hvisited.visit
      exact ⟨w, rfl, rfl, rfl, hdb⟩
  | cons e es ih =>
      have hpasses := hvisited.passes e List.mem_cons_self
      have hrest : ∀ e' ∈ es, e'.Passes := fun e' he' => hvisited.passes e' (List.mem_cons_of_mem _ he')
      cases e with
      | call c =>
          have hc : c.Below disk [root] := hbelow c (by simp)
          have hes : ∀ c ∈ callsOf es, c.Below disk [root] :=
            fun c' hc' => hbelow c' (List.mem_cons_of_mem _ hc')
          have hshut : env.shutdown w.calls = false := hvisited.run 0 (by simp)
          obtain ⟨idx₁, hvisit, hvisits⟩ := Option.bind_eq_some_iff.mp hvisited.visit
          have hwp : wp (manipulator env disk (c.reader indexReader))
              (fun _ sh => ∃ log, sh = ⟨false, env.register w.calls lastError, w.behind idx₁ log⟩)
              (fun _ _ => False) ⟨false, lastError, w⟩ := by
            refine wp_manipulator h.throws hc.has hc.parts_ne_nil hdb hshut ?_ ?_ ?_
            · intro idx' log hvisit'
              obtain rfl := Option.some.inj (hvisit.symm.trans hvisit')
              exact ⟨log, rfl⟩
            · intro e sh log hnone _
              cases hvisit.symm.trans hnone
            · intro e sh t log hfault
              exact absurd h hfault
          simp only [runEvents, Event.run]
          cases hm : manipulator env disk (c.reader indexReader) ⟨false, lastError, w⟩ with
          | error e sh => exact (wp_of_error hwp hm).elim
          | ok _ sh =>
              obtain ⟨log, rfl⟩ := wp_of_ok hwp hm
              have hvisited' : Visited env (w.behind idx₁ log).index (w.behind idx₁ log).calls es idx := by
                refine ⟨hvisits, fun i hi => ?_, hrest⟩
                have := hvisited.run (i + 1) (by simpa using hi)
                rw [Nat.add_comm i 1, ← Nat.add_assoc] at this
                exact this
              obtain ⟨w', hrun, hidx, hcalls, hdb'⟩ :=
                ih hes (env.register w.calls lastError) (w := w.behind idx₁ log) hdb hvisited'
              refine ⟨w', hrun, hidx, ?_, hdb'⟩
              rw [hcalls, callsOf_call, List.length_cons]
              simp only [World.behind]
              omega
      | openFailed path err => exact hpasses.elim
      | endOfDirectory path err =>
          have herr : err = ERROR_NO_MORE_FILES := hpasses
          obtain ⟨w', hrun, hw'⟩ := ih hbelow err hdb ⟨hvisited.visit, hvisited.run, hrest⟩
          refine ⟨w', ?_, hw'⟩
          simp only [runEvents, Event.run, if_pos herr]
          exact hrun

/-- The walk comes to the callback for `c`, behind the events `pre`, and sees the shutdown there first. -/
structure Interrupted (env : Env) (t : Tree) (root : WString) (t₀ : Tables) (pre : List Event) (c : Call)
    (idx : Index) : Prop where
  events : ∃ post, t.events indexReader root = pre ++ .call c :: post
  visited : Visited env ⟨t₀, []⟩ 0 pre idx
  shutdown : env.shutdown (callsOf pre).length = true

/-- What an interrupted run leaves: the records made so far when `read` throws, and otherwise what the
sweep leaves of them. -/
theorem Interrupted.committed {t : Tree} {path : WString} {win : Win32} {db : Db} {pre : List Event}
    {c : Call} {idx : Index} {r : EStateM.Result Error Db Unit} (hsql : env.sql.NoFault)
    (h : Interrupted env t (rootPath path) db.tables pre c idx) (hdb : db.snapshot = none)
    (hresult : Reindexes env t path win db r) :
    (resultDb r).committed =
      if c.StopThrows (lastErrorBehind env.register pre 0 win.lastError) then idx.tables
      else idx.tables.sweep := by
  obtain ⟨post, hevents⟩ := h.events
  have hbelow := t.calls_below indexReader (rootPath path)
  rw [hevents, callsOf_append] at hbelow
  have hschema := wp_schema hsql.throws.losesNothing hdb
  rw [reindexes_iff.mp hresult, reindexed, hevents]
  cases hexec : env.sql.executeAll schemaStatements db with
  | error e db' => exact absurd hsql (wp_of_error hschema hexec).1
  | ok _ db' =>
      obtain ⟨log, rfl⟩ := wp_of_ok hschema hexec
      obtain ⟨w, hrun, hidx, hcalls, hw⟩ := runEvents_visited hsql
        (fun c hc => hbelow c (List.mem_append_left _ hc)) win.lastError
        (w := ⟨db.put db.tables log, [], 0⟩) hdb h.visited
      have hshut : env.shutdown w.calls = true := by
        rw [hcalls, Nat.zero_add]
        exact h.shutdown
      have htables : w.db.tables = idx.tables := congrArg Index.tables hidx
      have hstop : runEvents indexReader (manipulator env (t.disk (rootPath path)))
          (pre ++ .call c :: post) win.lastError ⟨db.put db.tables log, [], 0⟩ =
          c.stop (lastErrorBehind env.register pre 0 win.lastError) { w with calls := w.calls + 1 } := by
        rw [runEvents_append, hrun]
        simp only [WalkEnd.bind, runEvents, Event.run]
        rw [manipulator_shutdown hshut]
        exact c.stop_bind _ _ _
      simp only [hstop]
      by_cases hthrows : c.StopThrows (lastErrorBehind env.register pre 0 win.lastError)
      · obtain ⟨e, he⟩ := Call.stop_of_throws hthrows { w with calls := w.calls + 1 }
        rw [if_pos hthrows, he]
        simp [resultDb, Db.committed, hw, htables]
      · rw [if_neg hthrows, Call.stop_of_not_throws hthrows]
        have hsweep := wp_cleanupEntries hsql.throws.losesNothing hw
        simp only []
        cases hclean : cleanupEntries env.sql w.db with
        | error e db'' => exact absurd hsql (wp_of_error hsweep hclean).1
        | ok _ db'' =>
            obtain ⟨log', rfl⟩ := wp_of_ok hsweep hclean
            simp [resultDb, Db.committed, hw, htables]

end Spacenet
