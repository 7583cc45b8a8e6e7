-- SUMMARY: Who owns the search handles of `read`: the loop variable and the stack, in every reachable state.
import Spacenet.DirectoryReader

/-!
# The owners of the search handles

In the body of the `do ... while` the handle of the iteration is owned by the loop
variable, and the handles of the half-read directories by the stack. At the head of
the `for(;;)` only the stack owns handles: what the loop variable still holds has
been closed. Every search that `read` has opened either has one owner or has been
closed once.
-/

namespace Spacenet

open Machine

/-- A search that is open and has never been used after it was closed. -/
def Search.Open (s : Search) : Prop := s.closes = 0 ∧ s.usedAfterClose = false

/-- A search that has been closed once and not been used since. -/
def Search.ClosedOnce (s : Search) : Prop := s.closes = 1 ∧ s.usedAfterClose = false

/-- The searches since `start` are owned: those of `owners` are open, and the others are closed. -/
structure Win32.Owned (w start : Win32) (owners : List Nat) : Prop where
  longer : start.searches.length ≤ w.searches.length
  kept : ∀ h < start.searches.length, w.searches[h]? = start.searches[h]?
  nodup : owners.Nodup
  new : ∀ h ∈ owners, start.searches.length ≤ h
  opened : ∀ h ∈ owners, ∃ s, w.searches[h]? = some s ∧ s.Open
  closed : ∀ h s, start.searches.length ≤ h → h ∉ owners → w.searches[h]? = some s → s.ClosedOnce

namespace Win32.Owned

variable {start w : Win32} {owners : List Nat}

theorem lt_length (h : w.Owned start owners) {handle : Nat} (hmem : handle ∈ owners) :
    handle < w.searches.length := by
  obtain ⟨s, hs, -⟩ := h.opened handle hmem
  exact (List.getElem?_eq_some_iff.mp hs).1

/-- Every search since `start` has never been used after it was closed. -/
theorem usedAfterClose (h : w.Owned start owners) {handle : Nat} {s : Search}
    (hnew : start.searches.length ≤ handle) (hs : w.searches[handle]? = some s) :
    s.usedAfterClose = false := by
  by_cases hmem : handle ∈ owners
  · obtain ⟨s', hs', hopen⟩ := h.opened handle hmem
    obtain rfl := Option.some.inj (hs.symm.trans hs')
    exact hopen.2
  · exact (h.closed handle s hnew hmem hs).2

/-- The last error belongs to no search. -/
theorem setLastError (h : w.Owned start owners) (err : U32) :
    Owned { w with lastError := err } start owners :=
  ⟨h.longer, h.kept, h.nodup, h.new, h.opened, h.closed⟩

/-- An owned search that stays open may change. -/
theorem set (h : w.Owned start owners) {handle : Nat} (hmem : handle ∈ owners) {s : Search}
    (hs : s.Open) : Owned { w with searches := w.searches.set handle s } start owners where
  longer := by
    rw [List.length_set]
    exact h.longer
  kept := by
    intro i hi
    have hne : handle ≠ i := Nat.ne_of_gt (Nat.lt_of_lt_of_le hi (h.new handle hmem))
    rw [← h.kept i hi]
    exact List.getElem?_set_ne hne
  nodup := h.nodup
  new := h.new
  opened := by
    intro i hi
    by_cases heq : handle = i
    · subst heq
      exact ⟨s, List.getElem?_set_self (h.lt_length hmem), hs⟩
    · obtain ⟨s', hs', hopen⟩ := h.opened i hi
      exact ⟨s', (List.getElem?_set_ne heq).trans hs', hopen⟩
  closed := by
    intro i s' hnew hnot hs'
    have hne : handle ≠ i := fun heq => hnot (heq ▸ hmem)
    exact h.closed i s' hnew hnot ((List.getElem?_set_ne hne).symm.trans hs')

/-- `FindFirstFileW`. The handle is owned by who called it. -/
theorem findFirstFile (h : w.Owned start owners) (disk : Disk) (path : WString) :
    match w.findFirstFile disk path with
    | (none, w') => w'.Owned start owners
    | (some (handle, _), w') => w'.Owned start (handle :: owners) := by
  unfold Win32.findFirstFile
  cases disk.findFirst path with
  | error err => exact h.setLastError err
  | ok l =>
      have hfresh : w.searches.length ∉ owners := fun hmem => Nat.lt_irrefl _ (h.lt_length hmem)
      have hold : ∀ i, i < w.searches.length →
          (w.searches ++ [(⟨l.rest, l.endError, 0, false⟩ : Search)])[i]? = w.searches[i]? :=
        fun i hi => List.getElem?_append_left hi
      exact {
        longer := by
          rw [List.length_append]
          exact Nat.le_add_right_of_le h.longer
        kept := fun i hi => (hold i (Nat.lt_of_lt_of_le hi h.longer)).trans (h.kept i hi)
        nodup := List.nodup_cons.mpr ⟨hfresh, h.nodup⟩
        new := by
          intro i hi
          rcases List.mem_cons.mp hi with rfl | hi
          · exact h.longer
          · exact h.new i hi
        opened := by
          intro i hi
          rcases List.mem_cons.mp hi with rfl | hi
          · exact ⟨⟨l.rest, l.endError, 0, false⟩, List.getElem?_concat_length, rfl, rfl⟩
          · obtain ⟨s, hs, hopen⟩ := h.opened i hi
            exact ⟨s, (hold i (h.lt_length hi)).trans hs, hopen⟩
        closed := by
          intro i s hnew hnot hs
          have hne : i ≠ w.searches.length := fun heq => hnot (heq ▸ List.mem_cons_self)
          have hlt : i < (w.searches ++ [(⟨l.rest, l.endError, 0, false⟩ : Search)]).length :=
            (List.getElem?_eq_some_iff.mp hs).1
          rw [List.length_append, List.length_singleton] at hlt
          refine h.closed i s hnew (fun hmem => hnot (List.mem_cons_of_mem _ hmem)) ?_
          rwa [hold i (by omega)] at hs }

/-- `FindNextFileW` on a handle that has an owner. -/
theorem findNextFile (h : w.Owned start owners) {handle : Nat} (hmem : handle ∈ owners) :
    (w.findNextFile handle).2.Owned start owners := by
  obtain ⟨s, hs, hopen⟩ := h.opened handle hmem
  simp only [Win32.findNextFile, hs, hopen.1, if_true]
  cases s.rest with
  | nil => exact h.setLastError s.endError
  | cons fdw rest => exact h.set hmem ⟨rfl, hopen.2⟩

/-- `FindClose` on a handle by its owner. -/
theorem findClose {handle : Nat} (h : w.Owned start (handle :: owners)) :
    (w.findClose handle).Owned start owners := by
  obtain ⟨hnot, hnodup⟩ := List.nodup_cons.mp h.nodup
  obtain ⟨s, hs, hclosed, hused⟩ := h.opened handle List.mem_cons_self
  have hlt : handle < w.searches.length := h.lt_length List.mem_cons_self
  simp only [Win32.findClose, hs]
  exact {
    longer := by
      rw [List.length_set]
      exact h.longer
    kept := by
      intro i hi
      have hne : handle ≠ i := Nat.ne_of_gt (Nat.lt_of_lt_of_le hi (h.new handle List.mem_cons_self))
      rw [← h.kept i hi]
      exact List.getElem?_set_ne hne
    nodup := hnodup
    new := fun i hi => h.new i (List.mem_cons_of_mem _ hi)
    opened := by
      intro i hi
      have hne : handle ≠ i := fun heq => hnot (heq ▸ hi)
      obtain ⟨s', hs', hopen⟩ := h.opened i (List.mem_cons_of_mem _ hi)
      exact ⟨s', (List.getElem?_set_ne hne).trans hs', hopen⟩
    closed := by
      intro i s' hnew hi hs'
      by_cases heq : handle = i
      · subst heq
        rw [List.getElem?_set_self hlt] at hs'
        obtain rfl := Option.some.inj hs'
        exact ⟨by simp [hclosed], by simp [hclosed, hused]⟩
      · rw [List.getElem?_set_ne heq] at hs'
        refine h.closed i s' hnew ?_ hs'
        intro hmem
        rcases List.mem_cons.mp hmem with rfl | hmem
        · exact heq rfl
        · exact hi hmem }

end Win32.Owned

/-! ## The states of `read` -/

variable {σ : Type}

/-- The state in which `read` has been left. -/
def ReadResult.state : ReadResult σ → ReaderState σ
  | .ok _ st => st
  | .error _ st => st

namespace ReaderState

/-- The handles on the stack. -/
def handles (st : ReaderState σ) : List Nat := st.stack.map StackEntry.handle

/-- At the head of the `for(;;)` the stack owns the open searches, and in the body of the
`do ... while` the loop variable owns one, too. -/
def Owned (start : Win32) : Point × ReaderState σ → Prop
  | (.outer, st) => st.win.Owned start st.handles
  | (.inner _, st) => ∃ handle, st.handle = some handle ∧ st.win.Owned start (handle :: st.handles)

/-- The outcome of a step: where `read` has been left, nobody owns an open search. -/
def OwnedOutcome (start : Win32) : (Point × ReaderState σ) ⊕ ReadResult σ → Prop
  | .inl x => Owned start x
  | .inr r => r.state.win.Owned start []

theorem Owned.exists_owners {start : Win32} {x : Point × ReaderState σ} (h : Owned start x) :
    ∃ owners, x.2.win.Owned start owners := by
  obtain ⟨point, st⟩ := x
  cases point with
  | outer => exact ⟨_, h⟩
  | inner fdw =>
      obtain ⟨handle, -, howned⟩ := h
      exact ⟨_, howned⟩

variable {start : Win32} {st : ReaderState σ} {handle : Nat} {disk : Disk}
  {manipulator : Option (Manipulator σ)}

theorem closeStack_owned (h : st.win.Owned start st.handles) : st.closeStack.win.Owned start [] := by
  unfold closeStack
  unfold handles at h
  generalize st.stack = stack at h
  generalize st.win = w at h
  induction stack generalizing w with
  | nil => exact h
  | cons e stack ih => exact ih _ h.findClose

theorem closeHandle_owned (hh : st.handle = some handle)
    (h : st.win.Owned start (handle :: st.handles)) :
    st.closeHandle.win.Owned start st.closeHandle.handles := by
  unfold closeHandle
  rw [hh]
  exact h.findClose

theorem unwind_owned (hh : st.handle = some handle) (h : st.win.Owned start (handle :: st.handles))
    (e : Error) : OwnedOutcome start (st.unwind e) :=
  closeStack_owned (closeHandle_owned hh h)

theorem endOfLoop_owned (hh : st.handle = some handle)
    (h : st.win.Owned start (handle :: st.handles)) : OwnedOutcome start st.endOfLoop := by
  unfold endOfLoop
  split
  · exact unwind_owned hh h _
  · exact closeHandle_owned hh h

theorem next_owned (hh : st.handle = some handle) (h : st.win.Owned start (handle :: st.handles)) :
    OwnedOutcome start st.next := by
  have hnext := h.findNextFile List.mem_cons_self
  unfold next
  rw [hh]
  simp only
  split
  · next fdw win heq =>
      rw [heq] at hnext
      exact ⟨handle, rfl, hnext⟩
  · next win heq =>
      rw [heq] at hnext
      exact endOfLoop_owned rfl hnext

/-- The handle of the iteration moves to the stack. -/
theorem descend_owned (hh : st.handle = some handle)
    (h : st.win.Owned start (handle :: st.handles)) : OwnedOutcome start st.descend := by
  unfold descend
  split
  · rw [hh]
    exact h
  · exact next_owned hh h

/-- A callback leaves the handles alone. -/
theorem callManipulator_owned {k : ReaderState σ → (Point × ReaderState σ) ⊕ ReadResult σ}
    (hk : ∀ st' : ReaderState σ, st'.handle = some handle →
      st'.win.Owned start (handle :: st'.handles) → OwnedOutcome start (k st'))
    (hh : st.handle = some handle) (h : st.win.Owned start (handle :: st.handles)) :
    OwnedOutcome start (callManipulator manipulator st k) := by
  unfold callManipulator
  split
  · exact hk st hh h
  · split
    · next sh _ => exact hk (st.afterCall sh) hh (h.setLastError sh.lastError)
    · next e sh _ =>
        have hh' : (st.afterCall sh).handle = some handle := hh
        exact unwind_owned hh' (h.setLastError sh.lastError) e

theorem inner_owned {fdw : FindData} (hh : st.handle = some handle)
    (h : st.win.Owned start (handle :: st.handles)) :
    OwnedOutcome start (st.inner manipulator fdw) := by
  have hdescend : ∀ st' : ReaderState σ, st'.handle = some handle →
      st'.win.Owned start (handle :: st'.handles) → OwnedOutcome start st'.descend :=
    fun st' => descend_owned
  have hnext : ∀ st' : ReaderState σ, st'.handle = some handle →
      st'.win.Owned start (handle :: st'.handles) → OwnedOutcome start st'.next :=
    fun st' => next_owned
  unfold inner
  split
  · exact endOfLoop_owned hh h
  · split
    · exact next_owned hh h
    · split
      · exact next_owned hh h
      · split
        · exact next_owned hh h
        · simp only
          split
          · split
            · exact callManipulator_owned hdescend hh h
            · exact hdescend _ hh h
          · split
            · exact callManipulator_owned hnext hh h
            · exact hnext _ hh h

theorem outer_owned (h : st.win.Owned start st.handles) : OwnedOutcome start (st.outer disk) := by
  have hfind := h.findFirstFile disk st.dr.path
  unfold outer
  split
  · exact closeStack_owned h
  · split
    · generalize st.win.findFirstFile disk st.dr.path = found at hfind
      obtain ⟨opened, win⟩ := found
      simp only
      cases opened with
      | none =>
          simp only
          split
          · exact closeStack_owned hfind
          · exact closeStack_owned hfind
      | some found =>
          obtain ⟨handle, fdw⟩ := found
          exact ⟨handle, rfl, hfind⟩
    · split
      · next hstack => exact closeStack_owned h
      · next e stack hstack =>
          refine ⟨e.handle, rfl, ?_⟩
          simp only [handles, hstack, List.map_cons] at h
          exact h

/-- The step lemma of the ownership. -/
theorem step_owned (disk : Disk) (manipulator : Option (Manipulator σ)) {x : Point × ReaderState σ}
    (h : Owned start x) :
    OwnedOutcome start (step disk manipulator x) := by
  obtain ⟨point, st⟩ := x
  cases point with
  | outer => exact outer_owned h
  | inner fdw =>
      obtain ⟨handle, hh, howned⟩ := h
      exact inner_owned hh howned

end ReaderState

theorem Win32.owned_self (w : Win32) : w.Owned w [] where
  longer := Nat.le_refl _
  kept := fun _ _ => rfl
  nodup := List.nodup_nil
  new := fun _ h => absurd h List.not_mem_nil
  opened := fun _ h => absurd h List.not_mem_nil
  closed := by
    intro h s hnew _ hs
    exact absurd (List.getElem?_eq_some_iff.mp hs).1 (Nat.not_lt_of_le hnew)

/-- The ownership holds in every reachable state of `read`. -/
theorem DirectoryReader.reaches_owned {disk : Disk} {manipulator : Option (Manipulator σ)}
    {o : DirectoryReader} {path : WString} {win : Win32} {user : σ} {x : Point × ReaderState σ}
    (h : Reaches (ReaderState.step disk manipulator) (.outer, o.start path win user) x) :
    ReaderState.Owned win x := by
  refine Reaches.invariant ?_ h (by exact win.owned_self)
  intro y y' hy hstep
  have := ReaderState.step_owned disk manipulator hy
  rw [hstep] at this
  exact this

/-- Where `read` has been left, nobody owns an open search. -/
theorem DirectoryReader.read_owned {fuel : Nat} {disk : Disk} {manipulator : Option (Manipulator σ)}
    {o : DirectoryReader} {path : WString} {win : Win32} {user : σ} {r : ReadResult σ}
    (h : o.read fuel disk manipulator path win user = some r) : r.state.win.Owned win [] := by
  obtain ⟨x, hreach, hstep⟩ := exists_reaches_of_run h
  have := ReaderState.step_owned disk manipulator (DirectoryReader.reaches_owned hreach)
  rw [hstep] at this
  exact this

/-- Whatever the disk answers and the callback does, `read` never uses a handle that it has closed, and
where it returns or throws it has closed every handle once that it has opened. -/
theorem read_closes_once (disk : Disk) (manipulator : Option (Manipulator σ)) (o : DirectoryReader)
    (path : WString) (win : Win32) (user : σ) :
    (∀ x, Reaches (ReaderState.step disk manipulator) (.outer, o.start path win user) x →
      ∀ handle s, win.searches.length ≤ handle → x.2.win.searches[handle]? = some s →
        s.usedAfterClose = false) ∧
    ∀ fuel r, o.read fuel disk manipulator path win user = some r →
      (∀ handle s, win.searches.length ≤ handle → r.state.win.searches[handle]? = some s →
        s.closes = 1 ∧ s.usedAfterClose = false) ∧
      ∀ handle < win.searches.length, r.state.win.searches[handle]? = win.searches[handle]? := by
  constructor
  · intro x hreach handle s hnew hs
    obtain ⟨owners, howned⟩ := (DirectoryReader.reaches_owned hreach).exists_owners
    exact howned.usedAfterClose hnew hs
  · intro fuel r hread
    have howned := DirectoryReader.read_owned hread
    exact ⟨fun handle s hnew hs => howned.closed handle s hnew List.not_mem_nil hs, howned.kept⟩

end Spacenet
