-- SUMMARY: `directory_reader::read` with two callbacks that do the same to related states: the walk goes the same way with both.
import Spacenet.DirectoryReader
import Spacenet.Library.Simulation

/-!
# Two walks in lockstep

`read` does not look at the state that its callback has captured. So two callbacks
that keep their states related, and throw alike, have walks that go the same way.
The callbacks see only texts that are made of the names that the disk lists.
-/

namespace Spacenet

open Prog Machine

variable {σ τ : Type}

/-- The texts of the disk: what it lists has the property, and so has every path joined from that. -/
structure Disk.Lists (disk : Disk) (P : WString → Prop) : Prop where
  join : ∀ path name, P path → P name → P (path ++ pathDelimiter ++ name)
  listed : ∀ path l, disk.findFirst path = .ok l → P l.first.cFileName ∧ ∀ fdw ∈ l.rest, P fdw.cFileName

/-- The texts of the walk. -/
structure ReaderState.Texts (P : WString → Prop) (st : ReaderState σ) : Prop where
  path : P st.dr.path
  name : P st.dr.name
  stack : ∀ e ∈ st.stack, P e.path
  searches : ∀ s ∈ st.win.searches, ∀ fdw ∈ s.rest, P fdw.cFileName

/-- The texts that the callback reads. -/
structure DirectoryReader.Texts (P : WString → Prop) (dr : DirectoryReader) : Prop where
  path : P dr.path
  name : P dr.name
  pathName : P dr.pathName

/-- The callbacks end alike and leave related states. -/
def SharedRel (R : σ → τ → Prop) (sh : Shared σ) (sh' : Shared τ) : Prop :=
  sh'.abort = sh.abort ∧ sh'.lastError = sh.lastError ∧ R sh.user sh'.user

/-- The walks are at one place, and the captured states are related. -/
structure Lockstep (P : WString → Prop) (R : σ → τ → Prop) (st : ReaderState σ) (st' : ReaderState τ) : Prop where
  dr : st'.dr = st.dr
  win : st'.win = st.win
  stack : st'.stack = st.stack
  handle : st'.handle = st.handle
  user : R st.user st'.user
  texts : st.Texts P

def Point.Texts (P : WString → Prop) : Point → Prop
  | .outer => True
  | .inner fdw => fdw.cFileName = [] ∨ P fdw.cFileName

/-- The machines are at one place. -/
def LockstepAt (P : WString → Prop) (R : σ → τ → Prop) (x : Point × ReaderState σ) (x' : Point × ReaderState τ) :
    Prop :=
  x'.1 = x.1 ∧ x.1.Texts P ∧ Lockstep P R x.2 x'.2

/-- `read` returns in both walks, or throws the same exception. -/
def LockstepEnd (R : σ → τ → Prop) (r : ReadResult σ) (r' : ReadResult τ) : Prop :=
  Related (fun _ st _ st' => R st.user st'.user) (fun st st' => R st.user st'.user) r r'

namespace ReaderState

variable {P : WString → Prop} {R : σ → τ → Prop} {st : ReaderState σ} {st' : ReaderState τ}

theorem closeStack_user (st : ReaderState σ) : st.closeStack.user = st.user := rfl

theorem leave_lockstep (h : Lockstep P R st st') :
    Sum.LiftRel (LockstepAt P R) (LockstepEnd R) st.leave st'.leave := .inr h.user

theorem unwind_lockstep (h : Lockstep P R st st') (e : Error) :
    Sum.LiftRel (LockstepAt P R) (LockstepEnd R) (st.unwind e) (st'.unwind e) := by
  refine .inr ⟨rfl, ?_⟩
  simp only [closeStack_user, closeHandle_user]
  exact h.user

theorem findClose_texts {handle : Nat} {w : Win32} (h : ∀ s ∈ w.searches, ∀ fdw ∈ s.rest, P fdw.cFileName) :
    ∀ s ∈ (w.findClose handle).searches, ∀ fdw ∈ s.rest, P fdw.cFileName := by
  unfold Win32.findClose
  cases hs : w.searches[handle]? with
  | none => exact h
  | some s =>
      intro s' hs'
      rcases List.mem_or_eq_of_mem_set hs' with hmem | rfl
      · exact h s' hmem
      · exact h s (List.mem_of_getElem? hs)

theorem endOfLoop_lockstep (h : Lockstep P R st st') :
    Sum.LiftRel (LockstepAt P R) (LockstepEnd R) st.endOfLoop st'.endOfLoop := by
  unfold endOfLoop
  rw [h.handle, h.win, h.dr]
  split
  · exact unwind_lockstep h _
  · refine .inl ⟨rfl, trivial, ?_⟩
    unfold closeHandle
    rw [h.handle, h.win]
    cases st.handle with
    | none => exact h
    | some handle =>
        exact ⟨h.dr, rfl, h.stack, rfl, h.user, { h.texts with searches := findClose_texts h.texts.searches }⟩

theorem findNextFile_texts (handle : Nat) {w : Win32} (h : ∀ s ∈ w.searches, ∀ fdw ∈ s.rest, P fdw.cFileName) :
    (∀ s ∈ (w.findNextFile handle).2.searches, ∀ fdw ∈ s.rest, P fdw.cFileName) ∧
      ∀ fdw, (w.findNextFile handle).1 = some fdw → P fdw.cFileName := by
  unfold Win32.findNextFile
  cases hs : w.searches[handle]? with
  | none => exact ⟨h, nofun⟩
  | some s =>
      have hmem := List.mem_of_getElem? hs
      have hset : ∀ s', (∀ fdw ∈ s'.rest, P fdw.cFileName) →
          ∀ s₁ ∈ w.searches.set handle s', ∀ fdw ∈ s₁.rest, P fdw.cFileName := by
        intro s' hs' s₁ hs₁
        rcases List.mem_or_eq_of_mem_set hs₁ with hold | rfl
        · exact h s₁ hold
        · exact hs'
      by_cases hcloses : s.closes = 0
      · cases hrest : s.rest with
        | nil =>
            simp only [hcloses, hrest, if_true]
            exact ⟨h, nofun⟩
        | cons fdw rest =>
            have hboth := h s hmem
            rw [hrest, List.forall_mem_cons] at hboth
            simp only [hcloses, hrest, if_true]
            refine ⟨hset _ hboth.2, ?_⟩
            rintro _ ⟨⟩
            exact hboth.1
      · simp only [hcloses, if_false]
        exact ⟨hset _ (h s hmem), nofun⟩

theorem next_lockstep (h : Lockstep P R st st') :
    Sum.LiftRel (LockstepAt P R) (LockstepEnd R) st.next st'.next := by
  unfold next
  rw [h.handle, h.win]
  cases hh : st.handle with
  | none => exact endOfLoop_lockstep ⟨h.dr, rfl, h.stack, rfl, h.user, { h.texts with }⟩
  | some handle =>
      have htexts := findNextFile_texts handle h.texts.searches
      simp only
      generalize st.win.findNextFile handle = x at htexts ⊢
      obtain ⟨found, win⟩ := x
      have hlock : Lockstep P R { st with win := win, handle := some handle }
          { st' with win := win, handle := some handle } :=
        ⟨h.dr, rfl, h.stack, rfl, h.user, { h.texts with searches := htexts.1 }⟩
      cases found with
      | none => exact endOfLoop_lockstep hlock
      | some fdw => exact .inl ⟨rfl, .inr (htexts.2 fdw rfl), hlock⟩

variable {disk : Disk} {m : Manipulator σ} {m' : Manipulator τ}

theorem descend_lockstep (hdisk : disk.Lists P) (h : Lockstep P R st st') :
    Sum.LiftRel (LockstepAt P R) (LockstepEnd R) st.descend st'.descend := by
  unfold descend
  rw [h.dr, h.stack]
  split
  · rw [h.handle]
    cases hh : st.handle with
    | none => exact next_lockstep h
    | some handle =>
        refine endOfLoop_lockstep ⟨rfl, h.win, rfl, rfl, h.user, ?_⟩
        refine ⟨hdisk.join _ _ h.texts.path h.texts.name, h.texts.name, ?_, h.texts.searches⟩
        exact List.forall_mem_cons.mpr ⟨h.texts.path, h.texts.stack⟩
  · exact next_lockstep h

/-- The callbacks do the same for a reader whose texts have the property. -/
def Alike (P : WString → Prop) (R : σ → τ → Prop) (m : Manipulator σ) (m' : Manipulator τ) : Prop :=
  ∀ dr : DirectoryReader, dr.Texts P → ∀ sh sh', SharedRel R sh sh' →
    rwp (m dr) (m' dr) (fun _ sh _ sh' => SharedRel R sh sh') (SharedRel R) sh sh'

theorem afterCall_lockstep {sh : Shared σ} {sh' : Shared τ} (h : Lockstep P R st st') (hsh : SharedRel R sh sh') :
    Lockstep P R (st.afterCall sh) (st'.afterCall sh') := by
  obtain ⟨habort, hlast, huser⟩ := hsh
  refine ⟨?_, ?_, h.stack, h.handle, huser, { h.texts with }⟩
  · simp only [afterCall, h.dr, habort]
  · simp only [afterCall, h.win, hlast]

theorem callManipulator_lockstep (hm : Alike P R m m') (h : Lockstep P R st st') (htexts : st.dr.Texts P)
    {k : ReaderState σ → (Point × ReaderState σ) ⊕ ReadResult σ}
    {k' : ReaderState τ → (Point × ReaderState τ) ⊕ ReadResult τ}
    (hk : ∀ st st', Lockstep P R st st' → Sum.LiftRel (LockstepAt P R) (LockstepEnd R) (k st) (k' st')) :
    Sum.LiftRel (LockstepAt P R) (LockstepEnd R) (callManipulator (some m) st k) (callManipulator (some m') st' k') := by
  have hstart : SharedRel R ⟨st.dr.abort, st.win.lastError, st.user⟩ ⟨st.dr.abort, st.win.lastError, st'.user⟩ :=
    ⟨rfl, rfl, h.user⟩
  unfold callManipulator
  rw [h.dr, h.win]
  rcases related_iff.mp (hm st.dr htexts _ _ hstart) with ⟨_, sh, _, sh', hrun, hrun', hsh⟩ | ⟨e, sh, sh', hrun, hrun', hsh⟩
  · simp only [hrun, hrun']
    exact hk _ _ (afterCall_lockstep h hsh)
  · simp only [hrun, hrun']
    exact unwind_lockstep (afterCall_lockstep h hsh) e

theorem inner_lockstep (hdisk : disk.Lists P) (hm : Alike P R m m') {fdw : FindData}
    (hfdw : fdw.cFileName = [] ∨ P fdw.cFileName) (h : Lockstep P R st st') :
    Sum.LiftRel (LockstepAt P R) (LockstepEnd R) (st.inner (some m) fdw) (st'.inner (some m') fdw) := by
  unfold inner
  rw [h.dr]
  split
  · exact endOfLoop_lockstep h
  split
  · exact next_lockstep h
  split
  · exact next_lockstep h
  split
  · exact next_lockstep h
  · have hname := hfdw.resolve_left ‹_›
    have hpublish : (st.dr.publish fdw).Texts P :=
      ⟨h.texts.path, hname, hdisk.join _ _ h.texts.path hname⟩
    have hlock : Lockstep P R { st with dr := st.dr.publish fdw } { st' with dr := st.dr.publish fdw } :=
      ⟨rfl, h.win, h.stack, h.handle, h.user, { h.texts with path := h.texts.path, name := hname }⟩
    dsimp only
    split
    · split
      · exact callManipulator_lockstep hm hlock hpublish fun _ _ => descend_lockstep hdisk
      · exact descend_lockstep hdisk hlock
    · split
      · exact callManipulator_lockstep hm hlock hpublish fun _ _ => next_lockstep
      · exact next_lockstep hlock

theorem outer_lockstep (hdisk : disk.Lists P) (h : Lockstep P R st st') :
    Sum.LiftRel (LockstepAt P R) (LockstepEnd R) (st.outer disk) (st'.outer disk) := by
  unfold outer
  rw [h.dr, h.handle, h.stack, h.win]
  split
  · exact leave_lockstep h
  cases hh : st.handle with
  | some handle =>
      cases hstack : st.stack with
      | nil => exact leave_lockstep h
      | cons e stack =>
          have hentries := h.texts.stack
          rw [hstack, List.forall_mem_cons] at hentries
          refine .inl ⟨rfl, .inl rfl, rfl, rfl, rfl, rfl, h.user, ?_⟩
          exact ⟨hentries.1, h.texts.name, hentries.2, h.texts.searches⟩
  | none =>
      unfold Win32.findFirstFile
      cases hfirst : disk.findFirst st.dr.path with
      | error err =>
          dsimp only
          split
          · exact .inr h.user
          · exact .inr ⟨rfl, h.user⟩
      | ok l =>
          obtain ⟨hname, hrest⟩ := hdisk.listed _ _ hfirst
          refine .inl ⟨rfl, .inr hname, rfl, rfl, rfl, rfl, h.user, ?_⟩
          refine ⟨h.texts.path, h.texts.name, h.texts.stack, ?_⟩
          intro s hs
          rcases List.mem_append.mp hs with hs | hs
          · exact h.texts.searches s hs
          · rw [List.mem_singleton.mp hs]
            exact hrest

end ReaderState

/-- Two walks whose callbacks do the same end alike. -/
theorem DirectoryReader.read_lockstep {P : WString → Prop} {R : σ → τ → Prop} {disk : Disk} {m : Manipulator σ}
    {m' : Manipulator τ} (hdisk : disk.Lists P) (hm : ReaderState.Alike P R m m') (dr : DirectoryReader)
    {path : WString}
    (hpath : P (rootPath path)) (hname : P dr.name) {win : Win32}
    (hwin : ∀ s ∈ win.searches, ∀ fdw ∈ s.rest, P fdw.cFileName) {user : σ} {user' : τ} (huser : R user user')
    (fuel : Nat) :
    Option.Rel (LockstepEnd R) (dr.read fuel disk (some m) path win user) (dr.read fuel disk (some m') path win user') := by
  refine run_liftRel (I := LockstepAt P R) ?_ fuel ?_
  · rintro ⟨p, st⟩ ⟨p', st'⟩ ⟨hp, htexts, h⟩
    obtain rfl : p' = p := hp
    cases p' with
    | outer => exact ReaderState.outer_lockstep hdisk h
    | inner fdw => exact ReaderState.inner_lockstep hdisk hm htexts h
  · exact ⟨rfl, trivial, rfl, rfl, rfl, rfl, huser, hpath, hname, nofun, hwin⟩

/-! ## The names of a tree -/

/-- Every name in the forest has the property. -/
def Forest.Named (P : WString → Prop) : Forest → Prop
  | nil => True
  | file name _ rest => P name ∧ rest.Named P
  | dir name _ sub rest => P name ∧ sub.Named P ∧ rest.Named P

theorem Forest.Named.listing {P : WString → Prop} {f : Forest} (h : f.Named P) :
    ∀ fdw ∈ f.listing, P fdw.cFileName := by
  induction f with
  | nil => exact nofun
  | file name info rest ih => exact List.forall_mem_cons.mpr ⟨h.1, ih h.2⟩
  | dir name info sub rest _ ih => exact List.forall_mem_cons.mpr ⟨h.1, ih h.2.2⟩

theorem Forest.Named.find {P : WString → Prop} {f entries : Forest} {info : DirInfo} {name : WString} (h : f.Named P)
    (hfind : f.find name = some (.dir info entries)) : entries.Named P := by
  induction f with
  | nil => cases hfind
  | file name' info' rest ih =>
      rw [Forest.find] at hfind
      split at hfind
      · cases hfind
      · exact ih h.2 hfind
  | dir name' info' sub rest _ ih =>
      rw [Forest.find] at hfind
      split at hfind
      · cases hfind
        exact h.2.1
      · exact ih h.2.2 hfind

theorem Forest.Named.descend {P : WString → Prop} {names : List WString} :
    ∀ {f entries : Forest} {info info' : DirInfo}, f.Named P →
      (Node.dir info' f).descend names = some (.dir info entries) → entries.Named P := by
  induction names with
  | nil =>
      rintro f entries info info' h ⟨⟩
      exact h
  | cons name names ih =>
      intro f entries info info' h hdescend
      obtain ⟨node, hfind, hrest⟩ := Option.bind_eq_some_iff.mp hdescend
      cases node with
      | file _ => cases names <;> cases hrest
      | dir info'' sub => exact ih (h.find hfind) hrest

/-- The disk of a tree lists the names of the tree. -/
theorem Tree.findFirst_named {P : WString → Prop} {t : Tree} (h : t.entries.Named P) (hdot : P ['.'])
    (hdotdot : P ['.', '.'])
    (root path : WString) (l : Listing) (hl : (t.disk root).findFirst path = .ok l) :
    P l.first.cFileName ∧ ∀ fdw ∈ l.rest, P fdw.cFileName := by
  change t.findFirst root path = .ok l at hl
  unfold Tree.findFirst at hl
  cases hnode : t.resolve root path with
  | none =>
      rw [hnode] at hl
      cases hl
  | some node =>
      rw [hnode] at hl
      cases node with
      | file info => cases hl
      | dir info entries =>
          have hentries : entries.Named P := by
            unfold Tree.resolve at hnode
            split at hnode
            · split at hnode
              · cases hnode
                exact h
              · split at hnode
                · exact h.descend hnode
                · cases hnode
            · cases hnode
          dsimp only at hl
          split at hl
          · cases hl
          · cases hl
            exact ⟨hdot, List.forall_mem_cons.mpr ⟨hdotdot, hentries.listing⟩⟩

end Spacenet
