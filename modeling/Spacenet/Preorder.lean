-- SUMMARY: The pre-order of a tree's entries, and which of them the walk invokes its callback for.
import Spacenet.Observation

/-!
# The pre-order of a tree

The entries of a tree in pre-order: a directory before its contents, siblings in
listing order. The callbacks among the events of a tree are for these entries, in
this order, filtered by the test of the name and by the depth.
-/

namespace Spacenet

/-- An entry of a tree: the components of its directory's path, its name, and what it is. -/
structure TreeEntry where
  dir : List WString
  name : WString
  node : Node

def Node.isDir : Node → Bool
  | .file _ => false
  | .dir _ _ => true

/-- The depth of an entry, where the entries of the root have depth 1. -/
def TreeEntry.depth (e : TreeEntry) : Nat := e.dir.length

def TreeEntry.path (e : TreeEntry) : List WString := e.dir ++ [e.name]

/-- The entries below the directory `parts`. -/
def Forest.preorder : Forest → (parts : List WString) → List TreeEntry
  | .nil, _ => []
  | .file name info rest, parts => ⟨parts, name, .file info⟩ :: rest.preorder parts
  | .dir name info sub rest, parts =>
      ⟨parts, name, .dir info sub⟩ :: (sub.preorder (parts ++ [name]) ++ rest.preorder parts)

/-- The entries of the tree below its root. -/
def Tree.preorder (root : WString) (t : Tree) : List TreeEntry := t.entries.preorder [root]

theorem Forest.preorder_depth {f : Forest} {parts : List WString} :
    ∀ e ∈ f.preorder parts, parts.length ≤ e.depth := by
  induction f generalizing parts with
  | nil => simp [preorder]
  | file name info rest ih =>
      intro e he
      rcases List.mem_cons.mp he with rfl | he
      · exact Nat.le_refl _
      · exact ih e he
  | dir name info sub rest ihs ihr =>
      intro e he
      rcases List.mem_cons.mp he with rfl | he
      · exact Nat.le_refl _
      · rcases List.mem_append.mp he with he | he
        · have hlen := ihs e he
          rw [List.length_append, List.length_singleton] at hlen
          omega
        · exact ihr e he

/-! ## The callbacks are for entries of the pre-order -/

def Call.entry (c : Call) : TreeEntry := ⟨c.parts, c.name, c.node⟩

/-- Whether `read` invokes the callback for an entry, with `recursive_` and `list_directories_` set. -/
def DirectoryReader.visits (o : DirectoryReader) (e : TreeEntry) : Bool :=
  o.matchName e.name && (o.maxLevel = 0 || e.depth ≤ o.maxLevel + 1)

variable {o : DirectoryReader}

theorem DirectoryReader.visits_of_depth {e : TreeEntry}
    (h : o.maxLevel = 0 ∨ e.depth ≤ o.maxLevel + 1) : o.visits e = o.matchName e.name := by
  simp [visits, h]

/-- Below a directory that `read` does not go into, no entry is visited. -/
theorem Forest.filter_visits_eq_nil {f : Forest} {parts : List WString} (hmax : o.maxLevel ≠ 0)
    (hdepth : o.maxLevel + 1 < parts.length) : (f.preorder parts).filter o.visits = [] := by
  apply List.filter_eq_nil_iff.mpr
  intro e he
  have hle := preorder_depth e he
  have hnot : ¬e.depth ≤ o.maxLevel + 1 := by omega
  simp [DirectoryReader.visits, hmax, hnot]

theorem DirInfo.callsOf_events_of_open {info : DirInfo} (hopen : info.openError = none)
    (parts : List WString) (inside : List Event) :
    callsOf (info.events parts inside) = callsOf inside := by
  rw [events_of_open hopen, callsOf_append, callsOf_endOfDirectory, callsOf_nil, List.append_nil]

theorem Forest.calls_entries (hrec : o.recursive = true) (hlist : o.listDirectories = true) {f : Forest}
    (hopens : f.Opens) {endError : U32} {parts : List WString} {orphan : Bool}
    (hdepth : o.maxLevel = 0 ∨ parts.length ≤ o.maxLevel + 1) :
    (callsOf (f.events o endError parts orphan)).map Call.entry = (f.preorder parts).filter o.visits := by
  induction f generalizing endError parts orphan with
  | nil => rfl
  | file name info rest ih =>
      have hvisits : o.visits ⟨parts, name, .file info⟩ = o.matchName name :=
        DirectoryReader.visits_of_depth hdepth
      simp only [events, preorder, callsOf_append, callsOf_ite, List.map_append, List.filter_cons,
        hvisits, ih hopens hdepth]
      split <;> rfl
  | dir name info sub rest ihs ihr =>
      obtain ⟨hopen, hsub, hrest⟩ := hopens
      have hvisits : o.visits ⟨parts, name, .dir info sub⟩ = o.matchName name :=
        DirectoryReader.visits_of_depth hdepth
      have hinside : (callsOf (if o.descends parts then
          info.events (parts ++ [name])
            (sub.events o info.endError (parts ++ [name]) (orphan || !info.accessible)) else [])).map
            Call.entry = (sub.preorder (parts ++ [name])).filter o.visits := by
        have hlen : (parts ++ [name]).length = parts.length + 1 := List.length_append
        by_cases hd : o.descends parts = true
        · have hinto : o.maxLevel = 0 ∨ parts.length - 1 < o.maxLevel := by
            simpa [DirectoryReader.descends, hrec] using hd
          rw [if_pos hd, DirInfo.callsOf_events_of_open hopen]
          exact ihs hsub (by omega)
        · have hnot : ¬(o.maxLevel = 0 ∨ parts.length - 1 < o.maxLevel) := by
            simpa [DirectoryReader.descends, hrec] using hd
          rw [if_neg hd, filter_visits_eq_nil (by omega) (by omega)]
          rfl
      simp only [events, preorder, callsOf_append, callsOf_ite, List.map_append, List.filter_cons,
        List.filter_append, hvisits, hlist, hinside, ihr hrest hdepth, true_and]
      split <;> rfl

theorem Forest.Dirs.opens_of_readable {f : Forest} (h : f.Dirs DirInfo.Readable) : f.Opens := by
  induction f with
  | nil => trivial
  | file name info rest ih => exact ih h
  | dir name info sub rest ihs ihr =>
      obtain ⟨hreadable, hsub, hrest⟩ := h
      exact ⟨hreadable.opens, ihs hsub, ihr hrest⟩

/-- The callbacks of a walk without errors. -/
theorem Tree.calls_entries {t : Tree} (ht : t.Readable) (hrec : o.recursive = true)
    (hlist : o.listDirectories = true) (root : WString) :
    (callsOf (t.events o root)).map Call.entry = (t.preorder root).filter o.visits := by
  rw [events, DirInfo.callsOf_events_of_open ht.root.opens]
  refine Forest.calls_entries hrec hlist ht.dirs.opens_of_readable ?_
  rw [List.length_singleton]
  omega

/-! ## What the callback sees -/

/-- The members of the reader that tell the callback which entry it is invoked for. -/
structure Seen where
  path : WString
  name : WString
  pathName : WString
  isDir : Bool
  isReg : Bool
  level : Nat
deriving DecidableEq

def DirectoryReader.seen (dr : DirectoryReader) : Seen where
  path := dr.path
  name := dr.name
  pathName := dr.pathName
  isDir := dr.isDir
  isReg := dr.isReg
  level := dr.level

/-- What the callback for an entry is to see. -/
def TreeEntry.seen (e : TreeEntry) : Seen where
  path := joinPath e.dir
  name := e.name
  pathName := joinPath e.path
  isDir := e.node.isDir
  isReg := !e.node.isDir
  level := e.depth

theorem Call.reader_seen {c : Call} (hparts : c.parts ≠ []) : (c.reader o).seen = c.entry.seen := by
  have hpathName : (c.reader o).pathName = joinPath c.entry.path := c.reader_pathName hparts o
  have hfind : (c.reader o).name = c.name ∧ (c.reader o).isDir = c.node.isDir ∧
      (c.reader o).isReg = !c.node.isDir := by
    unfold reader
    cases c.node with
    | file info => exact ⟨rfl, rfl, rfl⟩
    | dir info entries => exact ⟨rfl, rfl, rfl⟩
  obtain ⟨hname, hisDir, hisReg⟩ := hfind
  rw [DirectoryReader.seen, hpathName, hname, hisDir, hisReg]
  rfl

/-- What is seen at the callbacks of a walk without errors. -/
theorem Tree.observations_seen {t : Tree} (ht : t.Readable) (hrec : o.recursive = true)
    (hlist : o.listDirectories = true) (root : WString) :
    observations DirectoryReader.seen o (callsOf (t.events o root)) =
      ((t.preorder root).filter o.visits).map TreeEntry.seen := by
  rw [← calls_entries ht hrec hlist root, List.map_map]
  apply List.map_congr_left
  intro c hc
  exact Call.reader_seen (t.calls_below o root c hc).parts_ne_nil

/-! ## Each entry once -/

/-- A reader that lists every entry, whatever its name. -/
def everyReader : DirectoryReader where
  recursive := true
  listDirectories := true
  mask := some fun _ => true

theorem everyReader_deep : everyReader.Deep := ⟨rfl, rfl, rfl⟩

/-- The pre-order is what a walk that lists every entry is invoked for. -/
theorem Tree.calls_preorder {t : Tree} (ht : t.Readable) (root : WString) :
    (callsOf (t.events everyReader root)).map Call.entry = t.preorder root := by
  have hvisits : ∀ e ∈ t.preorder root, everyReader.visits e = true := by
    intro e _
    rw [DirectoryReader.visits_of_depth (.inl rfl)]
    rfl
  rw [calls_entries ht rfl rfl root, List.filter_eq_self.mpr hvisits]

/-- No entry of a tree is twice in its pre-order. -/
theorem Tree.preorder_pairwise {t : Tree} (ht : t.Readable) (root : WString) :
    (t.preorder root).Pairwise fun e e' => e.path ≠ e'.path := by
  rw [← calls_preorder ht root, List.pairwise_map]
  exact t.calls_pairwise everyReader root

/-- The pre-order has every entry of the tree below its root, and no other. -/
theorem Tree.exists_preorder_iff {t : Tree} (ht : t.Readable) (root : WString) {names : List WString} {node : Node}
    (hne : names ≠ []) :
    (∃ e ∈ t.preorder root, e.path = root :: names ∧ e.node = node) ↔ t.node.descend names = some node := by
  rw [← calls_preorder ht root]
  constructor
  · rintro ⟨e, he, hpath, hnode⟩
    obtain ⟨c, hc, rfl⟩ := List.mem_map.mp he
    obtain ⟨names', hpath', hdescend⟩ := t.calls_descend everyReader root c hc
    obtain ⟨-, rfl⟩ := List.cons.inj (hpath.symm.trans hpath')
    rw [hdescend]
    exact congrArg some hnode
  · intro hdescend
    cases names with
    | nil => exact absurd rfl hne
    | cons name names =>
        obtain ⟨c, hc, hpath, hnode⟩ := t.calls_complete everyReader_deep ht.root.opens
          ht.dirs.opens_of_readable root hdescend fun _ _ => rfl
        exact ⟨c.entry, List.mem_map_of_mem hc, hpath, hnode⟩

end Spacenet
