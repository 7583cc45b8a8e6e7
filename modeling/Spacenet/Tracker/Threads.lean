-- SUMMARY: The two threads of a `directory_tracker`: `run` and `shutdown` on the one side, the loop of `worker` on the other.
import Spacenet.Library.Transitions

/-!
# The threads of the tracker

One thread calls `run` and `shutdown`, and the worker goes through its loop. They
share `shutdown_`, which is taken to be read and written in one order, and
`cv_`. The mutex is taken by the worker alone: `shutdown` sets the flag and
notifies without it.
-/

namespace Spacenet

/-! ## The worker -/

/-- Where a worker is in its `for(;;)`. -/
inductive Pc where
  | top
  /-- Inside of the `try`. `set` is `shutdown_` when the worker came here. -/
  | reindexing (set : Bool)
  /-- About to evaluate the predicate of `wait_until`. -/
  | testing
  /-- The predicate was false. -/
  | blocking
  | asleep
  /-- The deadline has passed: the predicate is evaluated once more. -/
  | expired
  /-- Behind the loop. -/
  | leaving
  | finished
deriving DecidableEq

/-- What a worker does next. `wake` is a spurious wakeup. -/
inductive Move where
  | enter | finish | test | block | wake | expire | leave
deriving DecidableEq

/-- A step of a worker that finds `shutdown_` at `set`. -/
def Pc.move (set : Bool) : Pc → Move → Option Pc
  | .top, .enter => some (.reindexing set)
  | .reindexing _, .finish => some .testing
  | .testing, .test => some (if set then .leaving else .blocking)
  | .blocking, .block => some .asleep
  | .asleep, .wake => some .testing
  | .asleep, .expire => some .expired
  | .expired, .test => some (if set then .leaving else .top)
  | .leaving, .leave => some .finished
  | _, _ => none

/-- `notify_one` wakes one of the workers that are asleep. -/
def notifyOne : List Pc → List Pc
  | [] => []
  | .asleep :: pcs => .testing :: pcs
  | pc :: pcs => pc :: notifyOne pcs

/-! ## The calls -/

/-- Where the calling thread is. -/
inductive Caller where
  | idle
  /-- In `run`: `shutdown_` is cleared. -/
  | starting
  /-- In `run`: the new thread is not in `thread_` yet. -/
  | resetting
  /-- In `shutdown`: `shutdown_` is set. -/
  | notifying
  | joining
deriving DecidableEq

/-- How the process has ended: by `std::terminate`, or inside of a round. -/
inductive Ending where
  | terminate | crash
deriving DecidableEq

/-- The members that the threads share, the workers that are not joined, and the calling thread. `thread`
is whether `thread_` is not null. -/
structure Threads where
  shutdown : Bool
  thread : Bool
  workers : List Pc
  caller : Caller
  ended : Option Ending
deriving DecidableEq

inductive Action where
  | run | spawn | reset
  | shutdown | notify | join
  | worker (i : Nat) (move : Move)
  | crash (i : Nat)
deriving DecidableEq

/-- A round comes to its end, or the process ends in it. -/
def Action.endsRound : Action → Bool
  | .worker _ .finish | .crash _ => true
  | _ => false

/-- A worker leaves its loop. -/
def Action.leaves : Action → Bool
  | .worker _ .leave => true
  | _ => false

namespace Threads

/-- A tracker that was just constructed. Its `shutdown_` is not initialised. -/
def start (shutdown : Bool) : Threads where
  shutdown := shutdown
  thread := false
  workers := []
  caller := .idle
  ended := none

/-- A step of the calling thread. -/
def call (s : Threads) : Action → Option Threads
  | .run => if s.caller = .idle then some { s with shutdown := false, caller := .starting } else none
  | .spawn => if s.caller = .starting then some { s with workers := s.workers ++ [.top], caller := .resetting } else none
  | .reset =>
      if s.caller = .resetting then
        -- `~thread` of the old thread, which is joinable, calls `std::terminate`.
        if s.thread then some { s with ended := some .terminate }
        else some { s with thread := true, caller := .idle }
      else none
  | .shutdown =>
      if s.caller = .idle then
        if s.thread then some { s with shutdown := true, caller := .notifying } else some s
      else none
  | .notify => if s.caller = .notifying then some { s with workers := notifyOne s.workers, caller := .joining } else none
  | .join =>
      match s.caller, s.workers with
      | .joining, .finished :: rest => some { s with thread := false, workers := rest, caller := .idle }
      | _, _ => none
  | _ => none

/-- A step of a thread. -/
def step (s : Threads) (a : Action) : Option Threads :=
  if s.ended ≠ none then none
  else
    match a with
    | .worker i move => do
        let pc ← s.workers[i]?
        let pc ← pc.move s.shutdown move
        return { s with workers := s.workers.set i pc }
    | .crash i =>
        match s.workers[i]? with
        | some (.reindexing _) => some { s with ended := some .crash }
        | _ => none
    | a => s.call a

/-! ## What a step can do -/

/-- The steps, one by one. -/
inductive Steps (s : Threads) : Action → Threads → Prop where
  | run (idle : s.caller = .idle) : Steps s .run { s with shutdown := false, caller := .starting }
  | spawn (starting : s.caller = .starting) :
      Steps s .spawn { s with workers := s.workers ++ [.top], caller := .resetting }
  | terminate (resetting : s.caller = .resetting) (thread : s.thread = true) :
      Steps s .reset { s with ended := some .terminate }
  | reset (resetting : s.caller = .resetting) (null : s.thread = false) :
      Steps s .reset { s with thread := true, caller := .idle }
  | shutdown (idle : s.caller = .idle) (thread : s.thread = true) :
      Steps s .shutdown { s with shutdown := true, caller := .notifying }
  | noThread (idle : s.caller = .idle) (null : s.thread = false) : Steps s .shutdown s
  | notify (notifying : s.caller = .notifying) :
      Steps s .notify { s with workers := notifyOne s.workers, caller := .joining }
  | join {rest : List Pc} (joining : s.caller = .joining) (finished : s.workers = .finished :: rest) :
      Steps s .join { s with thread := false, workers := rest, caller := .idle }
  | worker {i : Nat} {move : Move} {pc pc' : Pc} (at_pc : s.workers[i]? = some pc)
      (moves : pc.move s.shutdown move = some pc') :
      Steps s (.worker i move) { s with workers := s.workers.set i pc' }
  | crash {i : Nat} {set : Bool} (at_pc : s.workers[i]? = some (.reindexing set)) :
      Steps s (.crash i) { s with ended := some .crash }

theorem call_cases {s s' : Threads} {a : Action} (h : s.call a = some s') : Steps s a s' := by
  cases a with
  | run =>
      obtain ⟨hidle, hs'⟩ := Option.ite_none_right_eq_some.mp h
      cases hs'
      exact .run hidle
  | spawn =>
      obtain ⟨hstarting, hs'⟩ := Option.ite_none_right_eq_some.mp h
      cases hs'
      exact .spawn hstarting
  | reset =>
      obtain ⟨hresetting, hs'⟩ := Option.ite_none_right_eq_some.mp h
      cases hthread : s.thread with
      | true =>
          rw [if_pos hthread] at hs'
          cases hs'
          exact .terminate hresetting hthread
      | false =>
          rw [if_neg (Bool.eq_false_iff.mp hthread)] at hs'
          cases hs'
          exact .reset hresetting hthread
  | shutdown =>
      obtain ⟨hidle, hs'⟩ := Option.ite_none_right_eq_some.mp h
      cases hthread : s.thread with
      | true =>
          rw [if_pos hthread] at hs'
          cases hs'
          exact .shutdown hidle hthread
      | false =>
          rw [if_neg (Bool.eq_false_iff.mp hthread)] at hs'
          cases hs'
          exact .noThread hidle hthread
  | notify =>
      obtain ⟨hnotifying, hs'⟩ := Option.ite_none_right_eq_some.mp h
      cases hs'
      exact .notify hnotifying
  | join =>
      simp only [call] at h
      split at h
      · next hjoining hfinished =>
          cases h
          exact .join hjoining hfinished
      · cases h
  | worker i move => cases h
  | crash i => cases h

theorem step_cases {s s' : Threads} {a : Action} (h : s.step a = some s') : s.ended = none ∧ Steps s a s' := by
  unfold step at h
  by_cases hended : s.ended = none
  · rw [if_neg (not_not.mpr hended)] at h
    refine ⟨hended, ?_⟩
    cases a with
    | worker i move =>
        obtain ⟨pc, hpc, hrest⟩ := Option.bind_eq_some_iff.mp h
        obtain ⟨pc', hmove, hs'⟩ := Option.bind_eq_some_iff.mp hrest
        cases hs'
        exact .worker hpc hmove
    | crash i =>
        dsimp only at h
        split at h
        · next hpc =>
            cases h
            exact .crash hpc
        · cases h
    | _ => exact call_cases h
  · rw [if_pos hended] at h
    cases h

end Threads

end Spacenet
