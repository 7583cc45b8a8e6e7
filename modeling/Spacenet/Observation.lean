-- SUMMARY: What the callbacks of a walk see: a callback that keeps a list, and the run lemma for events that do not end the walk.
import Spacenet.Effect.Accessible

/-!
# Observed callbacks

A callback is observed by adding to its state a list of what it finds in the
members of the reader. Where every directory can be searched to its end, only the
callback can end the walk, and what it has been invoked for is a prefix of the
callbacks among the events.
-/

namespace Spacenet

variable {σ α : Type}

/-- The callback, with what `f` reads in the members of the reader at each invocation. -/
def observing (f : DirectoryReader → α) (m : Manipulator σ) : Manipulator (σ × List α) := fun dr sh =>
  match m dr ⟨sh.abort, sh.lastError, sh.user.1⟩ with
  | .ok _ sh' => .ok () ⟨sh'.abort, sh'.lastError, sh'.user, sh.user.2 ++ [f dr]⟩
  | .error e sh' => .error e ⟨sh'.abort, sh'.lastError, sh'.user, sh.user.2 ++ [f dr]⟩

/-- What is observed at the callbacks. -/
def observations (f : DirectoryReader → α) (o : DirectoryReader) (calls : List Call) : List α :=
  calls.map fun c => f (c.reader o)

/-- How a walk ends in which only the callback can end it, and what has been observed. -/
inductive Observed (f : DirectoryReader → α) (m : Manipulator σ) (o : DirectoryReader)
    (calls : List Call) (before : List α) : WalkEnd (σ × List α) → Prop where
  | through {lastError : U32} {user : σ} :
      Observed f m o calls before (.through lastError (user, before ++ observations f o calls))
  | aborted {pre post : List Call} {c : Call} {lastError : U32} {user : σ} {sh : Shared σ}
      (split : calls = pre ++ c :: post) (call : m (c.reader o) ⟨false, lastError, user⟩ = .ok () sh)
      (abort : sh.abort = true) :
      Observed f m o calls before
        (c.stop sh.lastError (sh.user, before ++ observations f o (pre ++ [c])))
  | threw {pre post : List Call} {c : Call} {lastError : U32} {user : σ} {e : Error} {sh : Shared σ}
      (split : calls = pre ++ c :: post)
      (call : m (c.reader o) ⟨false, lastError, user⟩ = .error e sh) :
      Observed f m o calls before (.threw e (sh.user, before ++ observations f o (pre ++ [c])))

variable {f : DirectoryReader → α} {m : Manipulator σ} {o : DirectoryReader}

/-- A callback behind which the walk has gone on. -/
theorem Observed.cons {c : Call} {calls : List Call} {before : List α} {out : WalkEnd (σ × List α)}
    (h : Observed f m o calls (before ++ [f (c.reader o)]) out) : Observed f m o (c :: calls) before out := by
  have hbefore : ∀ calls', before ++ [f (c.reader o)] ++ observations f o calls' =
      before ++ observations f o (c :: calls') := by
    intro calls'
    rw [List.append_assoc]
    rfl
  cases h with
  | through =>
      rw [hbefore]
      exact .through
  | @aborted pre post c' lastError user sh split call abort =>
      rw [hbefore]
      have hsplit : c :: calls = (c :: pre) ++ c' :: post := by
        rw [split]
        rfl
      exact .aborted hsplit call abort
  | @threw pre post c' lastError user e sh split call =>
      rw [hbefore]
      have hsplit : c :: calls = (c :: pre) ++ c' :: post := by
        rw [split]
        rfl
      exact .threw hsplit call

/-- The run lemma of an observed walk, by induction on the events. -/
theorem runEvents_observed {es : List Event} (hpasses : ∀ e ∈ es, e.Passes) (lastError : U32) (user : σ)
    (before : List α) :
    Observed f m o (callsOf es) before (runEvents o (observing f m) es lastError (user, before)) := by
  induction es generalizing lastError user before with
  | nil =>
      have hthrough : Observed f m o [] before (.through lastError (user, before ++ observations f o [])) :=
        .through
      rw [observations, List.map_nil, List.append_nil] at hthrough
      exact hthrough
  | cons e es ih =>
      have hrest : ∀ e ∈ es, e.Passes := fun e' he' => hpasses e' (List.mem_cons_of_mem _ he')
      cases e with
      | call c =>
          have hsplit : c :: callsOf es = [] ++ c :: callsOf es := rfl
          simp only [callsOf_call, runEvents, Event.run, observing]
          cases hcall : m (c.reader o) ⟨false, lastError, user⟩ with
          | error e sh => exact .threw hsplit hcall
          | ok _ sh =>
              cases habort : sh.abort with
              | false =>
                  simp only [habort, Bool.false_eq_true, if_false, WalkEnd.bind]
                  exact (ih hrest sh.lastError sh.user _).cons
              | true =>
                  simp only [habort, if_true, Call.stop_bind]
                  exact .aborted hsplit hcall habort
      | openFailed path err => exact (hpasses _ List.mem_cons_self).elim
      | endOfDirectory path err =>
          have herr : err = ERROR_NO_MORE_FILES := hpasses _ List.mem_cons_self
          simp only [callsOf_endOfDirectory, runEvents, Event.run, herr, if_true, WalkEnd.bind]
          exact ih hrest _ user before

/-- The state of the callback where a piece of the walk ends. -/
def WalkEnd.user : WalkEnd σ → σ
  | .through _ user | .returned user | .threw _ user => user

theorem Call.stop_user (c : Call) (lastError : U32) (user : σ) : (c.stop lastError user).user = user := by
  rcases c.stop_cases lastError user with h | ⟨e, h⟩
  · rw [h]
    rfl
  · rw [h]
    rfl

/-- Whatever ends a walk, what has been observed is among the observations at its callbacks. -/
theorem runEvents_observing_mem (es : List Event) (lastError : U32) (user : σ) (before : List α) :
    ∀ a ∈ (runEvents o (observing f m) es lastError (user, before)).user.2,
      a ∈ before ∨ a ∈ observations f o (callsOf es) := by
  induction es generalizing lastError user before with
  | nil => exact fun a ha => .inl ha
  | cons e es ih =>
      intro a
      cases e with
      | call c =>
          have hcons : a ∈ before ++ [f (c.reader o)] ∨ a ∈ observations f o (callsOf es) →
              a ∈ before ∨ a ∈ observations f o (callsOf (.call c :: es)) := by
            simp only [observations, callsOf_call, List.map_cons, List.mem_append, List.mem_cons,
              List.not_mem_nil, or_false]
            exact fun h => h.elim (fun h => h.imp_right .inl) fun h => .inr (.inr h)
          simp only [runEvents, Event.run, observing]
          cases hcall : m (c.reader o) ⟨false, lastError, user⟩ with
          | error e sh => exact fun ha => hcons (.inl ha)
          | ok _ sh =>
              cases habort : sh.abort with
              | false =>
                  simp only [habort, Bool.false_eq_true, if_false, WalkEnd.bind]
                  exact fun ha => hcons (ih sh.lastError sh.user _ a ha)
              | true =>
                  simp only [habort, if_true, Call.stop_bind, Call.stop_user]
                  exact fun ha => hcons (.inl ha)
      | openFailed path err =>
          simp only [runEvents, Event.run]
          split
          · exact fun ha => .inl ha
          · exact fun ha => .inl ha
      | endOfDirectory path err =>
          simp only [runEvents, Event.run]
          split
          · exact ih err user before a
          · exact fun ha => .inl ha

/-! ## Trees without errors -/

/-- Every directory of the tree can be searched to its end. -/
structure Tree.Readable (t : Tree) : Prop where
  root : t.info.Readable
  dirs : t.entries.Dirs DirInfo.Readable

theorem Tree.Readable.events_pass {t : Tree} (h : t.Readable) (o : DirectoryReader) (root : WString) :
    ∀ e ∈ t.events o root, e.Passes :=
  h.root.events_forall (h.dirs.events_forall (fun _ => trivial) fun _ _ _ hreadable hinside =>
    hreadable.events_forall hinside hreadable.ends) h.root.ends

/-- Where every directory can be searched to its end, `read` ends, and unless the callback throws or
sets `abort_`, it has been invoked for every callback among the events. -/
theorem DirectoryReader.read_observed {t : Tree} (ht : t.Readable) (hdot : o.listDot = false)
    (hdotdot : o.listDotdot = false) (path : WString) (win : Win32) (user : σ) :
    ∃ fuel r out, o.read fuel (t.disk (rootPath path)) (some (observing f m)) path win (user, []) = some r ∧
      Observed f m o (callsOf (t.events o (rootPath path))) [] out ∧ out.Gives r := by
  obtain ⟨r, hhalts, hgives⟩ :=
    DirectoryReader.read_follows t o (observing f m) path win (user, []) hdot hdotdot
  obtain ⟨fuel, hrun⟩ := Machine.halts_iff.mp hhalts
  exact ⟨fuel, r, _, hrun, runEvents_observed (ht.events_pass o _) win.lastError user [], hgives⟩

end Spacenet
