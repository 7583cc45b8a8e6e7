-- SUMMARY: The walk of a directory tree as a list of events: callbacks, and the errors at which directories open and end.
import Spacenet.DirectoryReader

/-!
# The walk as a list of events

What `directory_reader::read` does on a finite tree is a list of events that the
tree and the options determine: callbacks, and the errors at which directories
are opened and left. The recursion over the tree is in the list; running the list
needs neither stack nor handles.
-/

namespace Spacenet

open Machine

/-! ## Events -/

/-- What `read` does behind a callback: it goes into the directory, goes on to the next entry of the
listing, or ends the listing with an error code. -/
inductive After where
  | descend
  | next
  | last (err : U32)
deriving DecidableEq

/-- A callback: for the entry `name` of the directory whose path has the components `parts`.
`orphan` says that a directory between the root and the entry is not accessible. -/
structure Call where
  parts : List WString
  name : WString
  node : Node
  orphan : Bool
  after : After

inductive Event where
  | call (c : Call)
  | openFailed (path : WString) (err : U32)
  | endOfDirectory (path : WString) (err : U32)

def Node.findData (name : WString) : Node → FindData
  | .file info => ⟨name, false, info.stat⟩
  | .dir info _ => ⟨name, true, info.stat⟩

namespace Call

/-- The path of the entry. -/
def path (c : Call) : List WString := c.parts ++ [c.name]

/-- The members of the reader at the callback. -/
def reader (c : Call) (o : DirectoryReader) : DirectoryReader :=
  { o with path := joinPath c.parts, level := c.parts.length, abort := false }.publish
    (c.node.findData c.name)

end Call

/-- Whether `read` goes into the directories that it lists in `parts`. -/
def DirectoryReader.descends (o : DirectoryReader) (parts : List WString) : Bool :=
  o.recursive ∧ (o.maxLevel = 0 ∨ parts.length - 1 < o.maxLevel)

/-- What follows an entry that `rest` follows in its listing. -/
def Forest.after (endError : U32) : Forest → After
  | nil => .last endError
  | _ => .next

/-- The events of going into the directory `parts`, with the events `inside` for its entries. -/
def DirInfo.events (info : DirInfo) (parts : List WString) (inside : List Event) : List Event :=
  match info.openError with
  | some err => [.openFailed (joinPath parts) err]
  | none => inside ++ [.endOfDirectory (joinPath parts) info.endError]

theorem DirInfo.events_of_open {info : DirInfo} (h : info.openError = none) (parts : List WString)
    (inside : List Event) :
    info.events parts inside = inside ++ [.endOfDirectory (joinPath parts) info.endError] := by
  simp only [events, h]

theorem DirInfo.events_of_openError {info : DirInfo} {err : U32} (h : info.openError = some err)
    (parts : List WString) (inside : List Event) :
    info.events parts inside = [.openFailed (joinPath parts) err] := by
  simp only [events, h]

/-- The events for the entries of the directory whose path has the components `parts`. -/
def Forest.events (o : DirectoryReader) :
    Forest → (endError : U32) → (parts : List WString) → (orphan : Bool) → List Event
  | .nil, _, _, _ => []
  | .file name info rest, endError, parts, orphan =>
      (if o.matchName name then [.call ⟨parts, name, .file info, orphan, rest.after endError⟩]
      else [])
        ++ rest.events o endError parts orphan
  | .dir name info sub rest, endError, parts, orphan =>
      (if o.listDirectories ∧ o.matchName name then
        [.call ⟨parts, name, .dir info sub, orphan,
          if o.descends parts then .descend else rest.after endError⟩]
      else [])
        ++ (if o.descends parts then
          info.events (parts ++ [name])
            (sub.events o info.endError (parts ++ [name]) (orphan || !info.accessible))
        else [])
        ++ rest.events o endError parts orphan

/-- The events of a whole walk. -/
def Tree.events (o : DirectoryReader) (root : WString) (t : Tree) : List Event :=
  t.info.events [root] (t.entries.events o t.info.endError [root] false)

/-! ## Running events -/

/-- How a piece of the walk ends: it is through, with a last error and the callback's state, `read`
has returned, or it has thrown. -/
inductive WalkEnd (σ : Type) where
  | through (lastError : U32) (user : σ)
  | returned (user : σ)
  | threw (e : Error) (user : σ)

variable {σ : Type}

def WalkEnd.bind (w : WalkEnd σ) (f : U32 → σ → WalkEnd σ) : WalkEnd σ :=
  match w with
  | .through lastError user => f lastError user
  | .returned user => .returned user
  | .threw e user => .threw e user

/-- `read` is left behind an abort. It tests the last error only when a handle is open. -/
def Call.stop (c : Call) (lastError : U32) (user : σ) : WalkEnd σ :=
  match c.after with
  | .descend => .returned user
  | .next =>
      if lastError = ERROR_NO_MORE_FILES then .returned user
      else .threw (failedToRead (joinPath c.parts) lastError) user
  | .last err =>
      if err = ERROR_NO_MORE_FILES then .returned user
      else .threw (failedToRead (joinPath c.parts) err) user

theorem Call.stop_cases (c : Call) (lastError : U32) (user : σ) :
    c.stop lastError user = .returned user ∨ ∃ e, c.stop lastError user = .threw e user := by
  unfold stop
  split
  · exact .inl rfl
  · split
    · exact .inl rfl
    · exact .inr ⟨_, rfl⟩
  · split
    · exact .inl rfl
    · exact .inr ⟨_, rfl⟩

theorem Call.stop_bind (c : Call) (lastError : U32) (user : σ) (f : U32 → σ → WalkEnd σ) :
    (c.stop lastError user).bind f = c.stop lastError user := by
  rcases c.stop_cases lastError user with h | ⟨e, h⟩
  · rw [h]
    rfl
  · rw [h]
    rfl

def Event.run (o : DirectoryReader) (m : Manipulator σ) (lastError : U32) (user : σ) :
    Event → WalkEnd σ
  | .call c =>
      match m (c.reader o) ⟨false, lastError, user⟩ with
      | .ok _ sh => if sh.abort then c.stop sh.lastError sh.user else .through sh.lastError sh.user
      | .error e sh => .threw e sh.user
  | .openFailed path err =>
      if err = ERROR_PATH_NOT_FOUND then .returned user else .threw (failedToOpen path err) user
  | .endOfDirectory path err =>
      if err = ERROR_NO_MORE_FILES then .through err user else .threw (failedToRead path err) user

/-- Run a list of events in order. -/
def runEvents (o : DirectoryReader) (m : Manipulator σ) : List Event → U32 → σ → WalkEnd σ
  | [], lastError, user => .through lastError user
  | e :: es, lastError, user => (e.run o m lastError user).bind (runEvents o m es)

theorem runEvents_append (o : DirectoryReader) (m : Manipulator σ) (es es' : List Event)
    (lastError : U32) (user : σ) :
    runEvents o m (es ++ es') lastError user =
      (runEvents o m es lastError user).bind (runEvents o m es') := by
  induction es generalizing lastError user with
  | nil => rfl
  | cons e es ih =>
      simp only [List.cons_append, runEvents]
      cases e.run o m lastError user with
      | through lastError user => exact ih lastError user
      | returned user => rfl
      | threw e user => rfl

theorem runEvents_snoc (o : DirectoryReader) (m : Manipulator σ) (es : List Event) (e : Event)
    (lastError : U32) (user : σ) :
    runEvents o m (es ++ [e]) lastError user = (runEvents o m es lastError user).bind fun lastError user =>
      e.run o m lastError user := by
  rw [runEvents_append]
  cases runEvents o m es lastError user with
  | through lastError user =>
      simp only [WalkEnd.bind, runEvents]
      cases e.run o m lastError user with
      | through lastError user => rfl
      | returned user => rfl
      | threw e user => rfl
  | returned user => rfl
  | threw e user => rfl

end Spacenet
