-- SUMMARY: Calls and interleavings of the tracker: when `std::terminate` is called, that there is one worker, and that `shutdown` returns.
import Mathlib.Algebra.GroupWithZero.Nat
import Mathlib.Data.List.Induction
import Spacenet.Tracker.Threads

/-!
# Stopping the worker

Whatever the order of the steps, the calling thread and the worker agree on what
`thread_` and `shutdown_` say. `run` on a tracker that has a thread never
returns. `shutdown` always does: from the moment it sets the flag the worker
makes a bounded number of steps, of which one at most is a round and one at most
waits for the deadline.
-/

namespace Spacenet

open Transitions

namespace Pc

/-- A worker leaves its loop only when it finds the flag set. -/
theorem move_stays {pc pc' : Pc} {move : Move} (h : pc.move false move = some pc')
    (hpc : pc ≠ .leaving ∧ pc ≠ .finished) : pc' ≠ .leaving ∧ pc' ≠ .finished := by
  cases pc <;> cases move <;> simp_all [Pc.move] <;> subst h <;> decide

theorem move_finished {pc : Pc} {move : Move} {set : Bool} (h : pc.move set move = some .finished) : move = .leave := by
  cases pc <;> cases move <;> cases set <;> cases h
  all_goals rfl

/-- How many steps a worker has in front of it once the flag is set. -/
def rank : Pc → Nat
  | .top | .blocking => 4
  | .reindexing _ | .asleep => 3
  | .testing | .expired => 2
  | .leaving => 1
  | .finished => 0

theorem rank_move {pc pc' : Pc} {move : Move} (h : pc.move true move = some pc') : pc'.rank < pc.rank := by
  cases pc <;> cases move <;> cases h <;> simp [rank]

/-- How often a worker can finish a round, and how often it can wait for the deadline, once the flag is set. -/
def rounds : Pc → Nat
  | .top | .reindexing _ => 1
  | _ => 0

def waits : Pc → Nat
  | .blocking | .asleep => 1
  | _ => 0

theorem rounds_move {pc pc' : Pc} {move : Move} (h : pc.move true move = some pc') :
    pc'.rounds + (if move = .finish then 1 else 0) ≤ pc.rounds := by
  cases pc <;> cases move <;> cases h <;> simp [rounds]

theorem waits_move {pc pc' : Pc} {move : Move} (h : pc.move true move = some pc') :
    pc'.waits + (if move = .expire then 1 else 0) ≤ pc.waits := by
  cases pc <;> cases move <;> cases h <;> simp [waits]

/-- A worker behind a notification. -/
def woken : Pc → Pc
  | .asleep => .testing
  | pc => pc

theorem rank_woken (pc : Pc) : pc.woken.rank ≤ pc.rank := by
  cases pc <;> simp [woken, rank]

theorem rounds_woken (pc : Pc) : pc.woken.rounds ≤ pc.rounds := by
  cases pc <;> simp [woken, rounds]

theorem waits_woken (pc : Pc) : pc.woken.waits ≤ pc.waits := by
  cases pc <;> simp [woken, waits]

theorem rounds_le (pc : Pc) : pc.rounds ≤ 1 := by
  cases pc <;> simp [rounds]

theorem waits_le (pc : Pc) : pc.waits ≤ 1 := by
  cases pc <;> simp [waits]

/-- A worker goes on without a spurious wakeup. -/
theorem goes_on (pc : Pc) (set : Bool) (h : pc ≠ .finished) : ∃ move pc', pc.move set move = some pc' ∧ move ≠ .wake := by
  cases pc with
  | top => exact ⟨.enter, _, rfl, nofun⟩
  | reindexing _ => exact ⟨.finish, _, rfl, nofun⟩
  | testing => exact ⟨.test, _, rfl, nofun⟩
  | blocking => exact ⟨.block, _, rfl, nofun⟩
  | asleep => exact ⟨.expire, _, rfl, nofun⟩
  | expired => exact ⟨.test, _, rfl, nofun⟩
  | leaving => exact ⟨.leave, _, rfl, nofun⟩
  | finished => exact absurd rfl h

end Pc

/-- The action is a move of this kind. -/
def Action.moves (move : Move) : Action → Bool
  | .worker _ move' => move' = move
  | _ => false

namespace Threads

/-- The runs of a tracker from its construction. -/
def Behaves (set : Bool) (as : List Action) (s : Threads) : Prop := Runs (enabled step) (start set) as s

/-! ## The invariant -/

/-- The calling thread is in `shutdown`, and there is a thread to be joined. -/
def Closing (s : Threads) : Prop := s.caller = .notifying ∨ s.caller = .joining

/-- The calling thread is in a `run` that finds a thread in `thread_`. -/
def Doomed (s : Threads) : Prop := s.thread = true ∧ (s.caller = .starting ∨ s.caller = .resetting)

/-- What holds between the steps, whatever their order. -/
structure Inv (s : Threads) : Prop where
  count : s.workers.length = (if s.thread then 1 else 0) + (if s.caller = .resetting then 1 else 0)
  closing : s.Closing → s.thread = true ∧ s.shutdown = true
  cleared : ¬s.Closing → s.thread = true ∨ s.caller ≠ .idle → s.shutdown = false
  stays : s.shutdown = false → ∀ pc ∈ s.workers, pc ≠ .leaving ∧ pc ≠ .finished
  terminated : s.ended = some .terminate → s.Doomed

theorem start_inv (set : Bool) : (start set).Inv where
  count := rfl
  closing := by
    rintro (h | h)
    · cases h
    · cases h
  cleared := by
    rintro - (h | h)
    · cases h
    · exact absurd rfl h
  stays := fun _ _ h => absurd h List.not_mem_nil
  terminated := nofun

theorem length_notifyOne (pcs : List Pc) : (notifyOne pcs).length = pcs.length := by
  fun_induction notifyOne pcs with
  | case1 => rfl
  | case2 => rfl
  | case3 pc pcs _ ih => rw [List.length_cons, ih, List.length_cons]

theorem notifyOne_singleton (pc : Pc) : notifyOne [pc] = [pc.woken] := by
  cases pc <;> rfl

/-- The step lemma. -/
theorem Inv.step {s s' : Threads} {a : Action} (h : s.Inv) (hstep : s.step a = some s') : s'.Inv := by
  obtain ⟨hended, hsteps⟩ := step_cases hstep
  obtain ⟨hcount, hclosing, hcleared, hstays, -⟩ := h
  cases hsteps with
  | run idle =>
      have hopen : ¬s.Closing := by simp [Closing, idle]
      refine ⟨by simpa [idle] using hcount, by simp [Closing], by simp, fun _ => ?_, by simp [hended]⟩
      cases hthread : s.thread with
      | true => exact hstays (hcleared hopen (.inl hthread))
      | false =>
          rw [hthread, idle] at hcount
          rw [List.length_eq_zero_iff.mp hcount]
          exact fun _ h => absurd h List.not_mem_nil
  | spawn starting =>
      have hopen : ¬s.Closing := by simp [Closing, starting]
      have hset := hcleared hopen (.inr (by simp [starting]))
      refine ⟨by simp [hcount, starting], by simp [Closing], fun _ _ => hset, fun _ pc hpc => ?_, by simp [hended]⟩
      rcases List.mem_append.mp hpc with hpc | hpc
      · exact hstays hset pc hpc
      · obtain rfl := List.mem_singleton.mp hpc
        exact ⟨nofun, nofun⟩
  | terminate resetting thread =>
      exact ⟨hcount, hclosing, hcleared, hstays, fun _ => ⟨thread, .inr resetting⟩⟩
  | reset resetting null =>
      have hopen : ¬s.Closing := by simp [Closing, resetting]
      have hset := hcleared hopen (.inr (by simp [resetting]))
      exact ⟨by simp [hcount, resetting, null], by simp [Closing], fun _ _ => hset, hstays, by simp [hended]⟩
  | shutdown idle thread =>
      exact ⟨by simp [hcount, idle], fun _ => ⟨thread, rfl⟩, by simp [Closing], nofun, by simp [hended]⟩
  | noThread idle null => exact ⟨hcount, hclosing, hcleared, hstays, by simp [hended]⟩
  | notify notifying =>
      obtain ⟨hthread, hset⟩ := hclosing (.inl notifying)
      refine ⟨by simp [length_notifyOne, hcount, notifying], fun _ => ⟨hthread, hset⟩, by simp [Closing], ?_, by simp [hended]⟩
      intro hclear
      rw [hset] at hclear
      cases hclear
  | join joining finished =>
      obtain ⟨hthread, hset⟩ := hclosing (.inr joining)
      refine ⟨by simpa [finished, hthread, joining] using hcount, by simp [Closing], by simp, ?_, by simp [hended]⟩
      intro hclear
      rw [hset] at hclear
      cases hclear
  | @worker i move pc pc' at_pc moves =>
      refine ⟨by simpa using hcount, hclosing, hcleared, fun hclear q hq => ?_, by simp [hended]⟩
      rcases List.mem_or_eq_of_mem_set hq with hq | rfl
      · exact hstays hclear q hq
      · rw [hclear] at moves
        exact Pc.move_stays moves (hstays hclear pc (List.mem_of_getElem? at_pc))
  | crash at_pc => exact ⟨hcount, hclosing, hcleared, hstays, nofun⟩

theorem Behaves.inv {set : Bool} {as : List Action} {s : Threads} (h : Behaves set as s) : s.Inv :=
  h.invariant (I := fun _ s => s.Inv) (start_inv set) fun _ _ _ _ hinv hstep => hinv.step hstep

/-! ## Calls of run -/

/-- There is a call of `run` behind which `shutdown` was not called. -/
def Pending (as : List Action) : Prop := ∃ pre post, as = pre ++ .run :: post ∧ .shutdown ∉ post

/-- There are two calls of `run` between which `shutdown` was not called. -/
def Restarts (as : List Action) : Prop := ∃ pre mid post, as = pre ++ .run :: (mid ++ .run :: post) ∧ .shutdown ∉ mid

variable {as : List Action} {a : Action} {s s' : Threads}

theorem pending_snoc : Pending (as ++ [a]) ↔ a = .run ∨ a ≠ .shutdown ∧ Pending as := by
  constructor
  · rintro ⟨pre, post, heq, hpost⟩
    cases post using List.reverseRecOn with
    | nil =>
        obtain ⟨-, h⟩ := List.append_inj' heq rfl
        exact .inl (List.singleton_inj.mp h)
    | append_singleton post b =>
        rw [← List.cons_append, ← List.append_assoc] at heq
        obtain ⟨hpre, hlast⟩ := List.append_inj' heq rfl
        obtain rfl := List.singleton_inj.mp hlast
        refine .inr ⟨?_, pre, post, hpre, fun h => hpost (List.mem_append_left _ h)⟩
        rintro rfl
        exact hpost (List.mem_append_right _ List.mem_cons_self)
  · rintro (rfl | ⟨hne, pre, post, rfl, hpost⟩)
    · exact ⟨as, [], rfl, List.not_mem_nil⟩
    · refine ⟨pre, post ++ [a], by simp, ?_⟩
      intro h
      rcases List.mem_append.mp h with h | h
      · exact hpost h
      · exact hne (List.mem_singleton.mp h).symm

theorem restarts_snoc : Restarts (as ++ [a]) ↔ Restarts as ∨ a = .run ∧ Pending as := by
  constructor
  · rintro ⟨pre, mid, post, heq, hmid⟩
    cases post using List.reverseRecOn with
    | nil =>
        rw [← List.cons_append, ← List.append_assoc] at heq
        obtain ⟨hpre, hlast⟩ := List.append_inj' heq rfl
        exact .inr ⟨List.singleton_inj.mp hlast, pre, mid, hpre, hmid⟩
    | append_singleton post b =>
        have heq' : as ++ [a] = (pre ++ .run :: (mid ++ .run :: post)) ++ [b] := by
          rw [heq]
          simp
        exact .inl ⟨pre, mid, post, (List.append_inj' heq' rfl).1, hmid⟩
  · rintro (⟨pre, mid, post, rfl, hmid⟩ | ⟨rfl, pre, mid, rfl, hmid⟩)
    · exact ⟨pre, mid, post ++ [a], by simp, hmid⟩
    · exact ⟨pre, mid, [], by simp, hmid⟩

theorem pending_snoc_of (hrun : a ≠ .run) (hshutdown : a ≠ .shutdown) : Pending (as ++ [a]) ↔ Pending as := by
  simp [pending_snoc, hrun, hshutdown]

theorem restarts_snoc_of (hrun : a ≠ .run) : Restarts (as ++ [a]) ↔ Restarts as := by
  simp [restarts_snoc, hrun]

/-- What the calls so far say about the members. -/
structure Called (as : List Action) (s : Threads) : Prop where
  idle : s.caller = .idle → (s.thread = true ↔ Pending as)
  closing : s.Closing → ¬Pending as
  running : s.caller = .starting ∨ s.caller = .resetting → Pending as
  restarts : Restarts as ↔ s.Doomed

theorem start_called (set : Bool) : Called [] (start set) where
  idle _ := by simp [start, Pending]
  closing := by simp [start, Closing]
  running := by simp [start]
  restarts := by simp [start, Restarts, Doomed]

theorem Called.step (h : Called as s) (hstep : s.step a = some s') : Called (as ++ [a]) s' := by
  obtain ⟨-, hsteps⟩ := step_cases hstep
  obtain ⟨hidle, hclosing, hrunning, hrestarts⟩ := h
  cases hsteps with
  | run idle =>
      have hpending := hidle idle
      exact ⟨by simp, by simp [Closing], fun _ => pending_snoc.mpr (.inl rfl), by
        simp [restarts_snoc, hrestarts, Doomed, idle, hpending]⟩
  | spawn starting =>
      have hpending := hrunning (.inl starting)
      exact ⟨by simp, by simp [Closing], fun _ => pending_snoc.mpr (.inr ⟨nofun, hpending⟩), by
        simp [restarts_snoc, hrestarts, Doomed, starting]⟩
  | terminate resetting thread =>
      have hpending := hrunning (.inr resetting)
      exact ⟨by simp [resetting], by simp [Closing, resetting], fun _ => pending_snoc.mpr (.inr ⟨nofun, hpending⟩), by
        simp [restarts_snoc, hrestarts, Doomed]⟩
  | reset resetting null =>
      have hpending := hrunning (.inr resetting)
      exact ⟨by simp [pending_snoc, hpending], by simp [Closing], by simp, by
        simp [restarts_snoc, hrestarts, Doomed, null]⟩
  | shutdown idle thread =>
      exact ⟨by simp, by simp [pending_snoc], by simp, by simp [restarts_snoc, hrestarts, Doomed, idle]⟩
  | noThread idle null =>
      exact ⟨by simp [pending_snoc, null], by simp [pending_snoc], by simp [idle], by
        simp [restarts_snoc, hrestarts]⟩
  | notify notifying =>
      have hpending := hclosing (.inl notifying)
      exact ⟨by simp, by simp [pending_snoc, hpending], by simp, by
        simp [restarts_snoc, hrestarts, Doomed, notifying]⟩
  | join joining finished =>
      have hpending := hclosing (.inr joining)
      exact ⟨by simp [pending_snoc, hpending], by simp [Closing], by simp, by
        simp [restarts_snoc, hrestarts, Doomed, joining]⟩
  | @worker i move pc pc' at_pc moves =>
      have hsame : Pending (as ++ [.worker i move]) ↔ Pending as := pending_snoc_of nofun nofun
      exact ⟨fun h => (hidle h).trans hsame.symm, fun h => hsame.not.mpr (hclosing h), fun h => hsame.mpr (hrunning h),
        (restarts_snoc_of (a := .worker i move) nofun).trans hrestarts⟩
  | @crash i set at_pc =>
      have hsame : Pending (as ++ [.crash i]) ↔ Pending as := pending_snoc_of nofun nofun
      exact ⟨fun h => (hidle h).trans hsame.symm, fun h => hsame.not.mpr (hclosing h), fun h => hsame.mpr (hrunning h),
        (restarts_snoc_of (a := .crash i) nofun).trans hrestarts⟩

theorem Behaves.called {set : Bool} (h : Behaves set as s) : Called as s :=
  h.invariant (start_called set) fun _ _ _ _ hcalled hstep => hcalled.step hstep

/-- One worker at most, unless `run` is called twice. -/
theorem Behaves.one_of_not_restarts {set : Bool} (h : Behaves set as s) (hcalls : ¬Restarts as) : s.workers.length ≤ 1 := by
  rw [h.inv.count]
  by_cases hresetting : s.caller = .resetting
  · cases hthread : s.thread with
    | true => exact absurd (h.called.restarts.mpr ⟨hthread, .inr hresetting⟩) hcalls
    | false => simp [hresetting]
  · rw [if_neg hresetting]
    split <;> simp

/-- The calls decide about the threads, whatever the order of the steps. Unless `run` is called twice without
a `shutdown` in between there is one worker at most, and none where nothing is pending. The second `run`
does not return: it is in front of its last step, which is `std::terminate`. -/
theorem one_worker {set : Bool} (h : Behaves set as s) :
    (¬Restarts as → s.ended ≠ some .terminate ∧ s.workers.length ≤ 1 ∧
      (s.caller = .idle → (s.workers ≠ [] ↔ Pending as))) ∧
    (Restarts as → (s.caller = .starting ∨ s.caller = .resetting) ∧
      ∀ s', s.step .reset = some s' → s'.ended = some .terminate) := by
  have hinv := h.inv
  have hcalled := h.called
  have hcount := hinv.count
  refine ⟨fun hnot => ⟨?_, ?_, ?_⟩, fun hrestarts => ⟨(hcalled.restarts.mp hrestarts).2, ?_⟩⟩
  · intro hended
    exact hnot (hcalled.restarts.mpr (hinv.terminated hended))
  · exact h.one_of_not_restarts hnot
  · intro hidle
    rw [← hcalled.idle hidle, ← List.length_pos_iff, hcount]
    cases s.thread <;> simp [hidle]
  · intro s' hreset
    obtain ⟨-, hsteps⟩ := step_cases hreset
    cases hsteps with
    | terminate resetting thread => rfl
    | reset resetting null =>
        obtain ⟨hthread, -⟩ := hcalled.restarts.mp hrestarts
        rw [null] at hthread
        cases hthread

/-- A second `run`, in front of its last step. -/
theorem one_worker_restarted :
    let as : List Action := [.run, .spawn, .reset, .run, .spawn]
    let s : Threads := ⟨false, true, [.top, .top], .resetting, none⟩
    (¬Restarts as → s.ended ≠ some .terminate ∧ s.workers.length ≤ 1 ∧
      (s.caller = .idle → (s.workers ≠ [] ↔ Pending as))) ∧
    (Restarts as → (s.caller = .starting ∨ s.caller = .resetting) ∧
      ∀ s', s.step .reset = some s' → s'.ended = some .terminate) :=
  one_worker (runs_of_foldlM (by decide) : Behaves false _ _)

/-! ## Shutdown returns -/

/-- What a closing tracker can do but join its worker. -/
inductive Closes (s : Threads) (pc : Pc) : Action → Threads → Prop where
  | notify (notifying : s.caller = .notifying) :
      Closes s pc .notify { s with workers := [pc.woken], caller := .joining }
  | worker {move : Move} {pc' : Pc} (moves : pc.move true move = some pc') :
      Closes s pc (.worker 0 move) { s with workers := [pc'] }
  | crash {set : Bool} (at_pc : pc = .reindexing set) : Closes s pc (.crash 0) { s with ended := some .crash }

theorem Inv.closing_worker (h : s.Inv) (hclosing : s.Closing) : ∃ pc, s.workers = [pc] := by
  rw [← List.length_eq_one_iff, h.count, (h.closing hclosing).1]
  rcases hclosing with hcaller | hcaller
  · simp [hcaller]
  · simp [hcaller]

theorem closing_cases (h : s.Inv) (hclosing : s.Closing) {pc : Pc} (hworkers : s.workers = [pc])
    (hjoin : a ≠ .join) (hstep : s.step a = some s') : s.ended = none ∧ Closes s pc a s' := by
  obtain ⟨hended, hsteps⟩ := step_cases hstep
  refine ⟨hended, ?_⟩
  obtain ⟨-, hset⟩ := h.closing hclosing
  have hcaller : s.caller = .notifying ∨ s.caller = .joining := hclosing
  cases hsteps with
  | run idle => simp [idle] at hcaller
  | spawn starting => simp [starting] at hcaller
  | terminate resetting thread => simp [resetting] at hcaller
  | reset resetting null => simp [resetting] at hcaller
  | shutdown idle thread => simp [idle] at hcaller
  | noThread idle null => simp [idle] at hcaller
  | notify notifying =>
      rw [hworkers, notifyOne_singleton]
      exact .notify notifying
  | join joining finished => exact absurd rfl hjoin
  | @worker i move pc₁ pc' at_pc moves =>
      rw [hworkers, List.getElem?_singleton] at at_pc
      obtain ⟨hi, hpc⟩ := Option.ite_none_right_eq_some.mp at_pc
      obtain rfl := Option.some.inj hpc
      rw [hset] at moves
      rw [hi, hworkers]
      exact .worker moves
  | @crash i set at_pc =>
      rw [hworkers, List.getElem?_singleton] at at_pc
      obtain ⟨hi, hpc⟩ := Option.ite_none_right_eq_some.mp at_pc
      rw [hi]
      exact .crash (Option.some.inj hpc)

/-- The steps in front of a closing tracker. -/
def rank (s : Threads) : Nat :=
  if s.ended ≠ none then 0
  else (if s.caller = .notifying then 1 else 0) + (s.workers.map Pc.rank).sum

/-- While it is closing, a tracker goes on until it joins its worker. -/
theorem Inv.closes (h : s.Inv) (hclosing : s.Closing) (hjoin : a ≠ .join) (hstep : s.step a = some s') :
    s'.Inv ∧ s'.Closing ∧ s'.rank < s.rank ∧
      (s'.workers.map Pc.rounds).sum + (if a.moves .finish then 1 else 0) ≤ (s.workers.map Pc.rounds).sum ∧
      (s'.workers.map Pc.waits).sum + (if a.moves .expire then 1 else 0) ≤ (s.workers.map Pc.waits).sum := by
  obtain ⟨pc, hworkers⟩ := h.closing_worker hclosing
  obtain ⟨hended, hcloses⟩ := closing_cases h hclosing hworkers hjoin hstep
  refine ⟨h.step hstep, ?_⟩
  cases hcloses with
  | notify notifying =>
      refine ⟨.inr rfl, ?_, ?_, ?_⟩
      · have hrank := pc.rank_woken
        simp only [rank, hended, hworkers, notifying]
        simp
        omega
      · simpa [hworkers, Action.moves] using pc.rounds_woken
      · simpa [hworkers, Action.moves] using pc.waits_woken
  | worker moves =>
      refine ⟨hclosing, ?_, ?_, ?_⟩
      · simpa [rank, hended, hworkers] using Pc.rank_move moves
      · simpa [hworkers, Action.moves] using Pc.rounds_move moves
      · simpa [hworkers, Action.moves] using Pc.waits_move moves
  | crash at_pc =>
      refine ⟨hclosing, ?_, ?_, ?_⟩
      · simp [rank, hended, hworkers, at_pc, Pc.rank]
      · simp [Action.moves]
      · simp [Action.moves]

theorem rank_le (h : s.Inv) (hclosing : s.Closing) : s.rank ≤ 5 := by
  obtain ⟨pc, hworkers⟩ := h.closing_worker hclosing
  have hpc : pc.rank ≤ 4 := by
    cases pc <;> simp [Pc.rank]
  rw [rank]
  split
  · exact Nat.zero_le _
  · simp only [hworkers, List.map_cons, List.map_nil, List.sum_singleton]
    split
    · omega
    · omega

theorem step_worker (hended : s.ended = none) {pc pc' : Pc} {move : Move} (hworkers : s.workers = [pc])
    (h : pc.move s.shutdown move = some pc') : s.step (.worker 0 move) = some { s with workers := [pc'] } := by
  unfold step
  simp [hended, hworkers, h]

/-- A closing tracker of a process that goes on has a next step, without a spurious wakeup. -/
theorem Inv.goes_on (h : s.Inv) (hclosing : s.Closing) (hended : s.ended = none) :
    ∃ a s', s.step a = some s' ∧ a ≠ .worker 0 .wake ∧ ∀ i, a ≠ .crash i := by
  obtain ⟨pc, hworkers⟩ := h.closing_worker hclosing
  rcases hclosing with hcaller | hcaller
  · refine ⟨.notify, { s with workers := notifyOne s.workers, caller := .joining }, ?_, by simp, by simp⟩
    unfold Threads.step
    simp [hended, call, hcaller]
  · by_cases hfinished : pc = .finished
    · refine ⟨.join, { s with thread := false, workers := [], caller := .idle }, ?_, by simp, by simp⟩
      unfold Threads.step
      simp [hended, call, hcaller, hworkers, hfinished]
    · obtain ⟨move, pc', hmove, hwake⟩ := pc.goes_on s.shutdown hfinished
      refine ⟨_, _, step_worker hended hworkers hmove, ?_, by simp⟩
      rintro ⟨⟩
      exact hwake rfl

/-- `shutdown` returns, whatever the order of the steps. Behind the moment when it sets the flag the process
makes five steps at most before the worker is joined, and always has a next one. The worker finishes one
round at most and waits for the deadline once at most. -/
theorem shutdown_returns {set : Bool} (h : Behaves set as s) (hclosing : s.Closing) {bs : List Action}
    (hmore : Runs (enabled step) s bs s') (hjoin : .join ∉ bs) :
    bs.length ≤ 5 ∧ bs.countP (Action.moves .finish) ≤ 1 ∧ bs.countP (Action.moves .expire) ≤ 1 ∧
      (s'.ended = none → ∃ a s'', s'.step a = some s'' ∧ a ≠ .worker 0 .wake ∧ ∀ i, a ≠ .crash i) := by
  have hok : ∀ a ∈ bs, a ≠ .join := by
    rintro a ha rfl
    exact hjoin ha
  have hstart : s.Inv ∧ s.Closing := ⟨h.inv, hclosing⟩
  obtain ⟨⟨hinv', hclosing'⟩, hlength⟩ := hmore.count_le (fun s => s.Inv ∧ s.Closing) (· ≠ .join) (fun _ => true) rank
    (fun s a s' hs ha hstep => by
      obtain ⟨hinv, hclosing, hrank, -, -⟩ := hs.1.closes hs.2 ha hstep
      exact ⟨⟨hinv, hclosing⟩, hrank⟩) hstart hok
  obtain ⟨-, hrounds⟩ := hmore.count_le (fun s => s.Inv ∧ s.Closing) (· ≠ .join) (Action.moves .finish)
    (fun s => (s.workers.map Pc.rounds).sum)
    (fun s a s' hs ha hstep => by
      obtain ⟨hinv, hclosing, -, hrounds, -⟩ := hs.1.closes hs.2 ha hstep
      exact ⟨⟨hinv, hclosing⟩, hrounds⟩) hstart hok
  obtain ⟨-, hwaits⟩ := hmore.count_le (fun s => s.Inv ∧ s.Closing) (· ≠ .join) (Action.moves .expire)
    (fun s => (s.workers.map Pc.waits).sum)
    (fun s a s' hs ha hstep => by
      obtain ⟨hinv, hclosing, -, -, hwaits⟩ := hs.1.closes hs.2 ha hstep
      exact ⟨⟨hinv, hclosing⟩, hwaits⟩) hstart hok
  obtain ⟨pc, hworkers⟩ := h.inv.closing_worker hclosing
  simp only [hworkers, List.map_cons, List.map_nil, List.sum_singleton] at hrounds hwaits
  rw [List.countP_true] at hlength
  have hrank := rank_le h.inv hclosing
  have hpc := pc.rounds_le
  have hpc' := pc.waits_le
  exact ⟨by omega, by omega, by omega, hinv'.goes_on hclosing'⟩

/-- A worker that makes its first round behind the flag, and one that loses the notification and waits for
the deadline. Both make five steps, and then the worker is joined. -/
theorem shutdown_returns_start :
    let bs : List Action := [.notify, .worker 0 .enter, .worker 0 .finish, .worker 0 .test, .worker 0 .leave]
    let bs' : List Action := [.notify, .worker 0 .block, .worker 0 .expire, .worker 0 .test, .worker 0 .leave]
    let s' : Threads := ⟨true, true, [.finished], .joining, none⟩
    (bs.length ≤ 5 ∧ bs.countP (Action.moves .finish) ≤ 1 ∧ bs.countP (Action.moves .expire) ≤ 1 ∧
      (s'.ended = none → ∃ a s'', s'.step a = some s'' ∧ a ≠ .worker 0 .wake ∧ ∀ i, a ≠ .crash i)) ∧
    (bs'.length ≤ 5 ∧ bs'.countP (Action.moves .finish) ≤ 1 ∧ bs'.countP (Action.moves .expire) ≤ 1 ∧
      (s'.ended = none → ∃ a s'', s'.step a = some s'' ∧ a ≠ .worker 0 .wake ∧ ∀ i, a ≠ .crash i)) := by
  intro bs bs' s'
  have hflag : Behaves false [.run, .spawn, .reset, .shutdown] ⟨true, true, [.top], .notifying, none⟩ :=
    runs_of_foldlM (by decide)
  have hround : Runs (enabled step) ⟨true, true, [.top], .notifying, none⟩ bs s' := runs_of_foldlM (by decide)
  have hflag' : Behaves false
      [.run, .spawn, .reset, .worker 0 .enter, .worker 0 .finish, .worker 0 .test, .shutdown]
      ⟨true, true, [.blocking], .notifying, none⟩ := runs_of_foldlM (by decide)
  have hwait : Runs (enabled step) ⟨true, true, [.blocking], .notifying, none⟩ bs' s' := runs_of_foldlM (by decide)
  exact ⟨shutdown_returns hflag (.inl rfl) hround (by decide), shutdown_returns hflag' (.inl rfl) hwait (by decide)⟩

/-! ## The lost notification -/

theorem Behaves.snoc {set : Bool} (h : Behaves set (as ++ [a]) s') : ∃ s, Behaves set as s ∧ s.step a = some s' := Runs.of_snoc h

/-- A worker that the caller waits for came there by its own move, or by the notification. -/
theorem Behaves.joining_cases {set : Bool} {pc : Pc} (h : Behaves set as s) (hjoining : s.caller = .joining)
    (hended : s.ended = none) (hworkers : s.workers = [pc]) :
    ∃ as' a s₁ pc₁, as = as' ++ [a] ∧ Behaves set as' s₁ ∧ s₁.workers = [pc₁] ∧
      ((a = .notify ∧ s₁.caller = .notifying ∧ pc = pc₁.woken) ∨
        s₁.caller = .joining ∧ s₁.ended = none ∧ ∃ move, a = .worker 0 move ∧ pc₁.move true move = some pc) := by
  cases as using List.reverseRecOn with
  | nil =>
      obtain rfl := Runs.unique h .refl
      cases hjoining
  | append_singleton as' a =>
      obtain ⟨s₁, hbefore, hstep⟩ := h.snoc
      obtain ⟨hended₁, hsteps⟩ := step_cases hstep
      have hclosing : s₁.Closing := by
        cases hsteps with
        | notify notifying => exact .inl notifying
        | worker at_pc moves => exact .inr hjoining
        | noThread idle null => exact .inr hjoining
        | terminate resetting thread => exact .inr hjoining
        | crash at_pc => cases hended
        | _ => cases hjoining
      have hjoin : a ≠ .join := by
        rintro rfl
        cases hsteps
        cases hjoining
      obtain ⟨pc₁, hworkers₁⟩ := hbefore.inv.closing_worker hclosing
      obtain ⟨-, hcloses⟩ := closing_cases hbefore.inv hclosing hworkers₁ hjoin hstep
      refine ⟨as', a, s₁, pc₁, rfl, hbefore, hworkers₁, ?_⟩
      cases hcloses with
      | notify notifying => exact .inl ⟨rfl, notifying, (List.singleton_inj.mp hworkers).symm⟩
      | worker moves =>
          obtain rfl := List.singleton_inj.mp hworkers
          exact .inr ⟨hjoining, hended₁, _, rfl, moves⟩
      | crash at_pc => cases hended

/-- A worker that sleeps while the caller waits has just gone to sleep, and was about to when it was notified. -/
theorem Behaves.lost_of_asleep {set : Bool} (h : Behaves set as s) (hjoining : s.caller = .joining)
    (hended : s.ended = none) (hasleep : s.workers = [.asleep]) :
    ∃ as' s₁, as = as' ++ [.notify, .worker 0 .block] ∧ Behaves set as' s₁ ∧ s₁.caller = .notifying ∧
      s₁.workers = [.blocking] := by
  obtain ⟨as₁, a₁, s₁, pc₁, rfl, h₁, hworkers₁, ⟨-, -, hwoken⟩ | ⟨hjoining₁, hended₁, move, rfl, hmove⟩⟩ :=
    h.joining_cases hjoining hended hasleep
  · cases pc₁ <;> cases hwoken
  · obtain ⟨rfl, rfl⟩ : pc₁ = .blocking ∧ move = .block := by
      cases pc₁ <;> cases move <;> cases hmove
      exact ⟨rfl, rfl⟩
    -- so the worker had tested the flag before the notification
    obtain ⟨as₂, a₂, s₂, pc₂, rfl, h₂, hworkers₂, ⟨rfl, hnotifying, hwoken⟩ | ⟨-, -, move, -, hmove⟩⟩ :=
      h₁.joining_cases hjoining₁ hended₁ hworkers₁
    · obtain rfl : pc₂ = .blocking := by
        cases pc₂ <;> cases hwoken
        rfl
      exact ⟨as₂, s₂, by simp, h₂, hnotifying, hworkers₂⟩
    · cases pc₂ <;> cases move <;> cases hmove

/-- A worker that is notified when it is about to sleep goes to sleep. -/
theorem Behaves.asleep_of_lost {set : Bool} {s₁ : Threads} (h : Behaves set (as ++ [.notify, .worker 0 .block]) s)
    (h₁ : Behaves set as s₁) (hnotifying : s₁.caller = .notifying) (hworkers₁ : s₁.workers = [.blocking]) :
    s.workers = [.asleep] := by
  rw [List.append_cons] at h
  obtain ⟨s₂, h₂, hblock⟩ := h.snoc
  obtain ⟨s₁', h₁', hnotify⟩ := h₂.snoc
  obtain rfl := Runs.unique h₁ h₁'
  have hnotified : (Action.notify : Action) ≠ .join := nofun
  obtain ⟨-, hcloses⟩ := closing_cases h₁.inv (.inl hnotifying) hworkers₁ hnotified hnotify
  cases hcloses
  have hblocked : Action.worker 0 .block ≠ .join := nofun
  obtain ⟨-, hcloses⟩ := closing_cases h₂.inv (.inr rfl) rfl hblocked hblock
  cases hcloses with
  | worker moves =>
      cases moves
      rfl

/-- Nothing is notified behind the `join`: only the clock or a spurious wakeup ends the sleep. -/
theorem Behaves.step_of_asleep {set : Bool} {s' : Threads} {a : Action} (h : Behaves set as s)
    (hjoining : s.caller = .joining) (hasleep : s.workers = [.asleep]) (hstep : s.step a = some s') :
    a = .worker 0 .wake ∨ a = .worker 0 .expire := by
  have hjoin : a ≠ .join := by
    rintro rfl
    obtain ⟨-, hsteps⟩ := step_cases hstep
    cases hsteps with
    | join joining finished =>
        rw [hasleep] at finished
        cases finished
  obtain ⟨-, hcloses⟩ := closing_cases h.inv (.inr hjoining) hasleep hjoin hstep
  cases hcloses with
  | notify notifying =>
      rw [hjoining] at notifying
      cases notifying
  | @worker move pc' moves =>
      cases move <;> cases moves
      · exact .inl rfl
      · exact .inr rfl
  | crash at_pc => cases at_pc

/-- The notification of `shutdown` is lost exactly when it comes between the test of the flag and the sleep of
the worker. Then the caller waits for the deadline, or for a spurious wakeup. -/
theorem notification_lost_iff {set : Bool} (h : Behaves set as s) (hjoining : s.caller = .joining)
    (hended : s.ended = none) :
    (s.workers = [.asleep] ↔ ∃ as' s₁, as = as' ++ [.notify, .worker 0 .block] ∧ Behaves set as' s₁ ∧
      s₁.caller = .notifying ∧ s₁.workers = [.blocking]) ∧
    (s.workers = [.asleep] → ∀ a s', s.step a = some s' → a = .worker 0 .wake ∨ a = .worker 0 .expire) := by
  refine ⟨⟨h.lost_of_asleep hjoining hended, ?_⟩, fun hasleep _ _ => h.step_of_asleep hjoining hasleep⟩
  rintro ⟨as', s₁, rfl, h₁, hnotifying, hworkers₁⟩
  exact h.asleep_of_lost h₁ hnotifying hworkers₁

/-- Behind a round the worker tests the flag, `shutdown` sets it and notifies, and the worker goes to sleep. -/
def lostNotification : List Action :=
  [.run, .spawn, .reset, .worker 0 .enter, .worker 0 .finish, .worker 0 .test, .shutdown, .notify, .worker 0 .block]

theorem behaves_lostNotification :
    Behaves false lostNotification ⟨true, true, [.asleep], .joining, none⟩ := runs_of_foldlM (by decide)

theorem notification_lost_iff_lostNotification :
    let s : Threads := ⟨true, true, [.asleep], .joining, none⟩
    (s.workers = [.asleep] ↔ ∃ as' s₁, lostNotification = as' ++ [.notify, .worker 0 .block] ∧ Behaves false as' s₁ ∧
      s₁.caller = .notifying ∧ s₁.workers = [.blocking]) ∧
    (s.workers = [.asleep] → ∀ a s', s.step a = some s' → a = .worker 0 .wake ∨ a = .worker 0 .expire) :=
  notification_lost_iff behaves_lostNotification rfl rfl

end Threads

end Spacenet
