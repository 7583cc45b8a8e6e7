-- SUMMARY: Whatever the threads of a process do, what becomes of the database is a life of the worker.
import Spacenet.Correctness.Lives
import Spacenet.Correctness.Stopping
import Spacenet.Tracker.Process

/-!
# Tracking

Unless `run` is called twice, the interleavings of a process come down to rounds
in sequence. So what holds of every history of runs holds of the database behind
every process, and `shutdown` leaves no connection.
-/

namespace Spacenet

open Transitions

namespace Process

variable {dirPathName : WString} {p p' : Process} {a : Action} {as : List Action}

theorem Step.threads (h : Step dirPathName p a p') : enabled Threads.step p.threads a p'.threads := by
  cases h with
  | control step inside stays => exact step
  | finish x step entered sees result => exact step
  | crash x step entered sees result => exact step
  | leave step => exact step
  | crowded crowd step => exact step

/-- The threads of a process behave as threads do. -/
theorem behaves {set : Bool} {w : Worker} (h : Runs (Step dirPathName) (start set w) as p) :
    Threads.Behaves set as p.threads :=
  h.map Process.threads fun _ _ _ hstep => hstep.threads

/-- No worker is in its loop. -/
def Resting (s : Threads) : Prop := ∀ pc ∈ s.workers, pc = .finished

/-- A worker that is at rest has left its loop before. -/
theorem Resting.before {s s' : Threads} (h : Resting s') (hinv : s.Inv) (hstep : s.step a = some s')
    (hinside : a.endsRound = false) (hstays : a.leaves = false) : Resting s := by
  obtain ⟨-, hsteps⟩ := Threads.step_cases hstep
  cases hsteps with
  | run idle => exact h
  | spawn starting =>
      have htop := h .top (List.mem_append_right _ List.mem_cons_self)
      cases htop
  | terminate resetting thread => exact h
  | reset resetting null => exact h
  | shutdown idle thread => exact h
  | noThread idle null => exact h
  | notify notifying =>
      obtain ⟨pc, hworkers⟩ := hinv.closing_worker (.inl notifying)
      unfold Resting at h ⊢
      rw [hworkers] at h ⊢
      rw [Threads.notifyOne_singleton] at h
      intro pc' hpc'
      obtain rfl := List.mem_singleton.mp hpc'
      have hwoken := h _ List.mem_cons_self
      cases pc' <;> cases hwoken
      rfl
  | join joining finished =>
      intro pc hpc
      rw [finished] at hpc
      rcases List.mem_cons.mp hpc with rfl | hpc
      · rfl
      · exact h pc hpc
  | @worker i move pc pc' at_pc moves =>
      have hpc' : pc' = .finished := by
        obtain ⟨hi, -⟩ := List.getElem?_eq_some_iff.mp at_pc
        exact h pc' (List.mem_set hi _)
      subst hpc'
      rw [Pc.move_finished moves] at hstays
      cases hstays
  | crash at_pc => cases hinside

theorem Resting.leaves {s s' : Threads} {i : Nat} {move : Move} (h : Resting s')
    (hstep : s.step (.worker i move) = some s') : move = .leave := by
  obtain ⟨-, hsteps⟩ := Threads.step_cases hstep
  cases hsteps with
  | worker at_pc moves =>
      obtain ⟨hi, -⟩ := List.getElem?_eq_some_iff.mp at_pc
      rw [h _ (List.mem_set hi _)] at moves
      exact Pc.move_finished moves

/-- The life goes on with a round for each round that has come to its end. Where no worker is in its loop there is
no connection. -/
def GoesOn (dirPathName : WString) (t₀ : Tables) (xs : List Round) (as : List Action) (p : Process) : Prop :=
  ∃ ys, Life dirPathName t₀ (xs ++ ys) p.worker ∧ ys.length = as.countP Action.endsRound ∧
    (Resting p.threads → p.worker.conn = none)

variable {t₀ : Tables} {xs : List Round}

/-- The step lemma. -/
theorem GoesOn.step (h : GoesOn dirPathName t₀ xs as p) (hinv : p.threads.Inv) (hone : p.threads.workers.length ≤ 1)
    (hstep : Step dirPathName p a p') : GoesOn dirPathName t₀ xs (as ++ [a]) p' := by
  obtain ⟨ys, hys, hlength, hrest⟩ := h
  unfold GoesOn
  rw [List.countP_append, List.countP_singleton]
  cases hstep with
  | control step inside stays =>
      refine ⟨ys, hys, by simp [hlength, inside], fun hresting => hrest ?_⟩
      exact hresting.before hinv step inside stays
  | finish x step entered sees result =>
      refine ⟨ys ++ [x], ?_, by simp [hlength, Action.endsRound], fun hresting => ?_⟩
      · rw [← List.append_assoc]
        exact .round x hys _ result
      · cases hresting.leaves step
  | crash x step entered sees result =>
      refine ⟨ys ++ [x], ?_, by simp [hlength, Action.endsRound], fun _ => rfl⟩
      rw [← List.append_assoc]
      exact .round x hys _ result
  | leave step => exact ⟨ys, .disconnect hys, by simp [hlength, Action.endsRound], fun _ => rfl⟩
  | crowded crowd step => exact absurd crowd (Nat.not_le.mpr (Nat.lt_succ_of_le hone))

/-- Whatever the order of the steps, what becomes of the database is a life of the worker, unless `run` is called
twice without a `shutdown` in between. -/
theorem goes_on {set : Bool} {w : Worker} (hlife : Life dirPathName t₀ xs w) (hconn : w.conn = none)
    (h : Runs (Step dirPathName) (start set w) as p) (hcalls : ¬Threads.Restarts as) :
    GoesOn dirPathName t₀ xs as p := by
  have hstart : Threads.Behaves set [] (start set w).threads ∧
      (¬Threads.Restarts [] → GoesOn dirPathName t₀ xs [] (start set w)) := by
    refine ⟨Runs.refl, fun _ => ⟨[], ?_, rfl, fun _ => hconn⟩⟩
    rw [List.append_nil]
    exact hlife
  refine (h.invariant (I := fun as p => Threads.Behaves set as p.threads ∧
    (¬Threads.Restarts as → GoesOn dirPathName t₀ xs as p)) hstart ?_).2 hcalls
  rintro as p a p' ⟨hbehaves, hbefore⟩ hstep
  refine ⟨Runs.snoc hbehaves hstep.threads, fun hcalls => ?_⟩
  have hcalls' : ¬Threads.Restarts as := fun hrestarts => hcalls (Threads.restarts_snoc.mpr (.inl hrestarts))
  exact (hbefore hcalls').step hbehaves.inv (hbehaves.one_of_not_restarts hcalls') hstep

/-- Whatever the order of the steps, and whatever has become of the processes before: unless `run` is called twice
without a `shutdown` in between, what is on disk is the content behind a history of runs of `reindex`. Behind a
`shutdown` there is no worker and no connection. -/
theorem tracks {set : Bool} {w : Worker} (hlife : Life dirPathName .empty xs w) (hconn : w.conn = none)
    (h : Runs (Step dirPathName) (start set w) as p) (hcalls : ¬Threads.Restarts as) :
    (∃ zs : List Round, zs.length ≤ xs.length + as.countP Action.endsRound ∧
      History (fun _ _ => True) (zs.map (Round.run dirPathName)) p.worker.disk) ∧
    (p.threads.caller = .idle → ¬Threads.Pending as → p.threads.workers = [] ∧ p.worker.conn = none) := by
  obtain ⟨ys, hys, hlength, hrest⟩ := goes_on hlife hconn h hcalls
  obtain ⟨-, zs, hsub, hhistory⟩ := hys.history
  refine ⟨⟨zs, ?_, hhistory⟩, fun hidle hpending => ?_⟩
  · rw [← hlength, ← List.length_append]
    exact hsub.length_le
  · have hbehaves := behaves h
    have hnone : p.threads.workers = [] := by
      have hthread := (hbehaves.called.idle hidle).not.mpr hpending
      rw [← List.length_eq_zero_iff, hbehaves.inv.count, hidle]
      simp [hthread]
    refine ⟨hnone, hrest ?_⟩
    unfold Resting
    rw [hnone]
    exact fun _ h => absurd h List.not_mem_nil

/-- A worker that has finished its first round over the plain tree. -/
theorem tracks_plain :
    let as : List Action := [.run, .spawn, .reset, .worker 0 .enter, .worker 0 .finish]
    ∃ p, Runs (Step ['r']) (start false (.start .empty)) as p ∧
      (∃ zs : List Round, zs.length ≤ 0 + as.countP Action.endsRound ∧
        History (fun _ _ => True) (zs.map (Round.run ['r'])) p.worker.disk) ∧
      (p.threads.caller = .idle → ¬Threads.Pending as → p.threads.workers = [] ∧ p.worker.conn = none) := by
  obtain ⟨w, hround, -, -⟩ := @Worker.round_undisturbed ['r'] _ (.start .empty) (Round.plain_undisturbed .done)
    plainTree_accessible.searchable plainTree_indexable nofun
  obtain ⟨fuel, hresult⟩ := (hround w).mpr rfl
  have hsees : (Round.plain .done).Sees false false := ⟨nofun, nofun, fun _ _ => rfl⟩
  have hrun : Runs (Step ['r']) (start false (.start .empty))
      [.run, .spawn, .reset, .worker 0 .enter, .worker 0 .finish] ⟨⟨false, true, [.testing], .idle, none⟩, w⟩ := by
    have hcalled : Runs (Step ['r']) (start false (.start .empty)) [.run]
        ⟨⟨false, false, [], .starting, none⟩, .start .empty⟩ := .single (.control rfl rfl rfl)
    have hspawned : Step ['r'] ⟨⟨false, false, [], .starting, none⟩, .start .empty⟩ .spawn
        ⟨⟨false, false, [.top], .resetting, none⟩, .start .empty⟩ := .control rfl rfl rfl
    have hreset : Step ['r'] ⟨⟨false, false, [.top], .resetting, none⟩, .start .empty⟩ .reset
        ⟨⟨false, true, [.top], .idle, none⟩, .start .empty⟩ := .control rfl rfl rfl
    have hentered : Step ['r'] ⟨⟨false, true, [.top], .idle, none⟩, .start .empty⟩ (.worker 0 .enter)
        ⟨⟨false, true, [.reindexing false], .idle, none⟩, .start .empty⟩ := .control rfl rfl rfl
    exact (((hcalled.snoc hspawned).snoc hreset).snoc hentered).snoc (.finish _ rfl rfl hsees hresult)
  have hcalls := (behaves hrun).called.restarts.not.mpr (by simp [Threads.Doomed])
  exact ⟨_, hrun, tracks .start rfl hrun hcalls⟩

end Process

end Spacenet
