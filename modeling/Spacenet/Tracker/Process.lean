-- SUMMARY: A process with a tracker: the threads, and what their steps do to the database.
import Spacenet.Tracker.Threads
import Spacenet.Tracker.Worker

/-!
# The process

The steps of the threads are joined to the rounds of the worker. What a round
reads of `shutdown_` fits the moments at which the calling thread sets it. Of two
workers at a time nothing is said but that they go on.
-/

namespace Spacenet

/-- What the callbacks of a round read of `shutdown_`, which was `before` when the round was entered and is
`after` when it is left. -/
structure Round.Sees (x : Round) (before after : Bool) : Prop where
  stays : ∀ i j, i ≤ j → x.shutdown i = true → x.shutdown j = true
  entered : before = true → ∀ i, x.shutdown i = true
  left : after = false → ∀ i, x.shutdown i = false

/-- The threads of a process, and the worker's part of the tracker. -/
structure Process where
  threads : Threads
  worker : Worker

namespace Process

/-- The process in which a tracker is constructed. -/
def start (set : Bool) (w : Worker) : Process where
  threads := .start set
  worker := w

/-- The steps of a process with a tracker for the directory. -/
inductive Step (dirPathName : WString) : Process → Action → Process → Prop where
  | control {s s' : Threads} {w : Worker} {a : Action} (step : s.step a = some s') (inside : a.endsRound = false)
      (stays : a.leaves = false) :
      Step dirPathName ⟨s, w⟩ a ⟨s', w⟩
  | finish {s s' : Threads} {w w' : Worker} {i : Nat} {set : Bool} {fuel : Nat} (x : Round)
      (step : s.step (.worker i .finish) = some s') (entered : s.workers[i]? = some (.reindexing set))
      (sees : x.Sees set s.shutdown) (result : w.round fuel dirPathName x = some (.behind w')) :
      Step dirPathName ⟨s, w⟩ (.worker i .finish) ⟨s', w'⟩
  | crash {s s' : Threads} {w : Worker} {i : Nat} {set : Bool} {disk : Tables} {fuel : Nat} (x : Round)
      (step : s.step (.crash i) = some s') (entered : s.workers[i]? = some (.reindexing set))
      (sees : x.Sees set s.shutdown) (result : w.round fuel dirPathName x = some (.ended disk)) :
      Step dirPathName ⟨s, w⟩ (.crash i) ⟨s', .start disk⟩
  | leave {s s' : Threads} {w : Worker} {i : Nat} (step : s.step (.worker i .leave) = some s') :
      Step dirPathName ⟨s, w⟩ (.worker i .leave) ⟨s', w.disconnect⟩
  | crowded {s s' : Threads} {w w' : Worker} {a : Action} (crowd : 2 ≤ s.workers.length) (step : s.step a = some s') :
      Step dirPathName ⟨s, w⟩ a ⟨s', w'⟩

end Process

end Spacenet
