-- SUMMARY: The callbacks of a walk: their paths differ, and each is for the entry of the disk that its path leads to.
import Spacenet.WalkRefinement

/-!
# The callbacks of a walk

The callbacks among the events of a tree, in order. Every callback is for an
entry below the root, no entry has two, and a directory has its callback before
its entries.
-/

namespace Spacenet

/-- The callbacks among events. -/
def callsOf (es : List Event) : List Call :=
  es.filterMap fun
    | .call c => some c
    | _ => none

@[simp] theorem callsOf_nil : callsOf [] = [] := rfl

@[simp] theorem callsOf_append (es es' : List Event) :
    callsOf (es ++ es') = callsOf es ++ callsOf es' :=
  List.filterMap_append

@[simp] theorem callsOf_call (c : Call) (es : List Event) :
    callsOf (.call c :: es) = c :: callsOf es := rfl

@[simp] theorem callsOf_openFailed (path : WString) (err : U32) (es : List Event) :
    callsOf (.openFailed path err :: es) = callsOf es := rfl

@[simp] theorem callsOf_endOfDirectory (path : WString) (err : U32) (es : List Event) :
    callsOf (.endOfDirectory path err :: es) = callsOf es := rfl

theorem callsOf_ite (p : Prop) [Decidable p] (c : Call) :
    callsOf (if p then [.call c] else []) = if p then [c] else [] := by
  split <;> rfl

theorem mem_callsOf {es : List Event} {c : Call} : c ∈ callsOf es ↔ .call c ∈ es := by
  simp only [callsOf, List.mem_filterMap]
  constructor
  · rintro ⟨e, he, hc⟩
    cases e with
    | call c' =>
        cases hc
        exact he
    | openFailed path err => cases hc
    | endOfDirectory path err => cases hc
  · intro h
    exact ⟨_, h, rfl⟩

theorem callsOf_dir_open {info : DirInfo} {parts : List WString} {inside : List Event} {c : Call}
    (h : c ∈ callsOf (info.events parts inside)) : info.openError = none ∧ c ∈ callsOf inside := by
  unfold DirInfo.events at h
  split at h
  · simp at h
  · next hopen => exact ⟨hopen, by simpa using h⟩

theorem callsOf_dir {info : DirInfo} {parts : List WString} {inside : List Event} {c : Call}
    (h : c ∈ callsOf (info.events parts inside)) : c ∈ callsOf inside :=
  (callsOf_dir_open h).2

theorem callsOf_dir_sublist (info : DirInfo) (parts : List WString) (inside : List Event) :
    (callsOf (info.events parts inside)).Sublist (callsOf inside) := by
  unfold DirInfo.events
  split
  · simp
  · simp

theorem forall_mem_call {P : Event → Prop} {p : Prop} [Decidable p] {c : Call} (h : P (.call c)) :
    ∀ e ∈ (if p then [Event.call c] else []), P e := by
  intro e he
  split at he
  · obtain rfl := List.mem_singleton.mp he
    exact h
  · cases he

/-- What the callbacks for the entries of a listing have, and the events of each directory when those
inside have it, all events have, as long as what is known of the listing is handed on to its parts. -/
theorem Forest.events_forall {Q : Forest → Prop} {P : Event → Prop}
    (hfile : ∀ name info rest, Q (.file name info rest) →
      (∀ parts orphan after, P (.call ⟨parts, name, .file info, orphan, after⟩)) ∧ Q rest)
    (hdir : ∀ name info sub rest, Q (.dir name info sub rest) →
      (∀ parts orphan after, P (.call ⟨parts, name, .dir info sub, orphan, after⟩)) ∧
        (∀ parts inside, (∀ e ∈ inside, P e) → ∀ e ∈ DirInfo.events info parts inside, P e) ∧ Q sub ∧ Q rest)
    {o : DirectoryReader} {f : Forest} (h : Q f) {endError : U32} {parts : List WString} {orphan : Bool} :
    ∀ e ∈ f.events o endError parts orphan, P e := by
  induction f generalizing endError parts orphan with
  | nil =>
      intro e he
      cases he
  | file name info rest ih =>
      obtain ⟨hcall, hrest⟩ := hfile _ _ _ h
      intro e he
      simp only [Forest.events, List.mem_append] at he
      rcases he with he | he
      · exact forall_mem_call (hcall _ _ _) e he
      · exact ih hrest e he
  | dir name info sub rest ihs ihr =>
      obtain ⟨hcall, hinside, hsub, hrest⟩ := hdir _ _ _ _ h
      intro e he
      simp only [Forest.events, List.mem_append] at he
      rcases he with (he | he) | he
      · exact forall_mem_call (hcall _ _ _) e he
      · split at he
        · exact hinside _ _ (ihs hsub) e he
        · cases he
      · exact ihr hrest e he

/-- The member `path_name` at a callback. -/
theorem Call.reader_pathName {c : Call} (hparts : c.parts ≠ []) (o : DirectoryReader) :
    (c.reader o).pathName = joinPath c.path := by
  cases hnode : c.node <;>
    simp [Call.reader, DirectoryReader.publish, Node.findData, hnode, Call.path,
      joinPath_append_name hparts]

/-! ## Where the callbacks are -/

section

variable {o : DirectoryReader} {name : WString} {rest sub : Forest} {endError : U32} {parts : List WString}
  {orphan : Bool}
  {c : Call}

/-- A callback among the events of a listing that a file is the first entry of. -/
theorem Forest.calls_file {info : FileInfo}
    (h : c ∈ callsOf ((Forest.file name info rest).events o endError parts orphan)) :
    c = ⟨parts, name, .file info, orphan, rest.after endError⟩ ∨ c ∈ callsOf (rest.events o endError parts orphan) := by
  simp only [Forest.events, callsOf_append, callsOf_ite, List.mem_append] at h
  rcases h with h | h
  · split at h
    · exact .inl (List.mem_singleton.mp h)
    · cases h
  · exact .inr h

/-- A callback among the events of a listing that a directory is the first entry of. -/
theorem Forest.calls_dir {info : DirInfo}
    (h : c ∈ callsOf ((Forest.dir name info sub rest).events o endError parts orphan)) :
    (∃ after, c = ⟨parts, name, .dir info sub, orphan, after⟩) ∨
      (info.openError = none ∧
        c ∈ callsOf (sub.events o info.endError (parts ++ [name]) (orphan || !info.accessible))) ∨
      c ∈ callsOf (rest.events o endError parts orphan) := by
  simp only [Forest.events, callsOf_append, callsOf_ite, List.mem_append] at h
  rcases h with (h | h) | h
  · split at h
    · exact .inl ⟨_, List.mem_singleton.mp h⟩
    · cases h
  · split at h
    · exact .inr (.inl (callsOf_dir_open h))
    · cases h
  · exact .inr (.inr h)

end

/-- The callback is for an entry of the disk below the directory `parts`. -/
structure Call.Below (disk : Disk) (parts : List WString) (c : Call) : Prop where
  parts : ∃ names, c.parts = parts ++ names ∧ ∀ n ∈ names, ValidName n
  name : ValidName c.name
  has : disk.Has c.path c.node

variable {disk : Disk} {o : DirectoryReader}

theorem Forest.calls_below {f : Forest} {endError : U32} {parts : List WString} {orphan : Bool}
    (hmounted : f.Mounted disk parts) :
    ∀ c ∈ callsOf (f.events o endError parts orphan), c.Below disk parts := by
  induction f generalizing endError parts orphan with
  | nil =>
      intro c hc
      cases hc
  | file name info rest ih =>
      obtain ⟨hname, hhas, hrest⟩ := hmounted
      intro c hc
      rcases calls_file hc with rfl | hc
      · exact ⟨⟨[], by simp, by simp⟩, hname, hhas⟩
      · exact ih hrest c hc
  | dir name info sub rest ihs ihr =>
      obtain ⟨hname, hhas, hsub, hrest⟩ := hmounted
      intro c hc
      rcases calls_dir hc with ⟨after, rfl⟩ | ⟨-, hc⟩ | hc
      · exact ⟨⟨[], by simp, by simp⟩, hname, hhas⟩
      · obtain ⟨⟨names, hparts, hvalid⟩, hcname, hchas⟩ := ihs hsub c hc
        refine ⟨⟨name :: names, ?_, ?_⟩, hcname, hchas⟩
        · rw [hparts, List.append_assoc, List.singleton_append]
        · intro n hn
          rcases List.mem_cons.mp hn with rfl | hn
          · exact hname
          · exact hvalid n hn
      · exact ihr hrest c hc

/-- A callback is for an entry whose name matches. -/
theorem Forest.calls_match {f : Forest} {endError : U32} {parts : List WString} {orphan : Bool} :
    ∀ c ∈ callsOf (f.events o endError parts orphan), o.matchName c.name = true := by
  induction f generalizing endError parts orphan with
  | nil =>
      intro c hc
      cases hc
  | file name info rest ih =>
      intro c hc
      simp only [Forest.events, callsOf_append, callsOf_ite, List.mem_append] at hc
      rcases hc with hc | hc
      · split at hc
        · next hmatch => exact List.mem_singleton.mp hc ▸ hmatch
        · cases hc
      · exact ih c hc
  | dir name info sub rest ihs ihr =>
      intro c hc
      simp only [Forest.events, callsOf_append, callsOf_ite, List.mem_append] at hc
      rcases hc with (hc | hc) | hc
      · split at hc
        · next hmatch => exact List.mem_singleton.mp hc ▸ hmatch.2
        · cases hc
      · split at hc
        · exact ihs c (callsOf_dir hc)
        · cases hc
      · exact ihr c hc

/-- The path of a callback goes through an entry of the forest. -/
theorem Forest.calls_path {f : Forest} {endError : U32} {parts : List WString} {orphan : Bool} :
    ∀ c ∈ callsOf (f.events o endError parts orphan), ∃ name ∈ f.names, ∃ more,
      c.path = parts ++ name :: more := by
  induction f generalizing endError parts orphan with
  | nil =>
      intro c hc
      cases hc
  | file name info rest ih =>
      intro c hc
      rcases calls_file hc with rfl | hc
      · exact ⟨name, List.mem_cons_self, [], rfl⟩
      · obtain ⟨name', hname', more, hpath⟩ := ih c hc
        exact ⟨name', List.mem_cons_of_mem _ hname', more, hpath⟩
  | dir name info sub rest ihs ihr =>
      intro c hc
      rcases calls_dir hc with ⟨after, rfl⟩ | ⟨-, hc⟩ | hc
      · exact ⟨name, List.mem_cons_self, [], rfl⟩
      · obtain ⟨name', -, more, hpath⟩ := ihs c hc
        refine ⟨name, List.mem_cons_self, name' :: more, ?_⟩
        rw [hpath, List.append_assoc, List.singleton_append]
      · obtain ⟨name', hname', more, hpath⟩ := ihr c hc
        exact ⟨name', List.mem_cons_of_mem _ hname', more, hpath⟩

/-- Paths through entries of different names differ. -/
theorem path_ne_of_names {parts : List WString} {name name' : WString} {more more' path path' : List WString}
    (hpath : path = parts ++ name :: more) (hpath' : path' = parts ++ name' :: more')
    (hne : name ≠ name') : path ≠ path' := by
  rintro rfl
  have := List.append_cancel_left (hpath.symm.trans hpath')
  exact hne (List.cons.inj this).1

/-- No entry has two callbacks. -/
theorem Forest.calls_pairwise {f : Forest} {endError : U32} {parts : List WString} {orphan : Bool}
    (hwf : f.Wf) :
    (callsOf (f.events o endError parts orphan)).Pairwise (fun c c' => c.path ≠ c'.path) := by
  induction f generalizing endError parts orphan with
  | nil => exact List.Pairwise.nil
  | file name info rest ih =>
      obtain ⟨-, hnotin, hrest⟩ := hwf
      simp only [Forest.events, callsOf_append, callsOf_ite]
      refine List.pairwise_append.mpr ⟨by split <;> simp, ih hrest, ?_⟩
      intro c hc c' hc'
      split at hc
      · obtain rfl := List.mem_singleton.mp hc
        obtain ⟨name', hname', more, hpath⟩ := Forest.calls_path c' hc'
        have hne : name ≠ name' := fun h => hnotin (h ▸ hname')
        exact path_ne_of_names rfl hpath hne
      · cases hc
  | dir name info sub rest ihs ihr =>
      obtain ⟨-, hnotin, hsub, hrest⟩ := hwf
      simp only [Forest.events, callsOf_append, callsOf_ite]
      -- the path of the directory, and of everything in it, goes through its name
      have hinside : ∀ c ∈ callsOf (if o.descends parts = true then
          info.events (parts ++ [name])
            (sub.events o info.endError (parts ++ [name]) (orphan || !info.accessible)) else []),
          ∃ name' more, c.path = parts ++ name :: name' :: more := by
        intro c hc
        split at hc
        · obtain ⟨name', -, more, hpath⟩ := Forest.calls_path c (callsOf_dir hc)
          exact ⟨name', more, by rw [hpath, List.append_assoc, List.singleton_append]⟩
        · cases hc
      refine List.pairwise_append.mpr ⟨List.pairwise_append.mpr ⟨by split <;> simp, ?_, ?_⟩,
        ihr hrest, ?_⟩
      · split
        · exact (ihs hsub).sublist (callsOf_dir_sublist _ _ _)
        · exact List.Pairwise.nil
      · intro c hc c' hc'
        split at hc
        · obtain rfl := List.mem_singleton.mp hc
          obtain ⟨name', more, hpath⟩ := hinside c' hc'
          intro heq
          rw [hpath] at heq
          simp [Call.path] at heq
        · cases hc
      · intro c hc c' hc'
        obtain ⟨name', hname', more', hpath'⟩ := Forest.calls_path c' hc'
        have hthrough : ∃ more, c.path = parts ++ name :: more := by
          rcases List.mem_append.mp hc with hc | hc
          · split at hc
            · obtain rfl := List.mem_singleton.mp hc
              exact ⟨[], rfl⟩
            · cases hc
          · obtain ⟨name'', more, hpath⟩ := hinside c hc
            exact ⟨_, hpath⟩
        obtain ⟨more, hpath⟩ := hthrough
        exact path_ne_of_names hpath hpath' (fun h => hnotin (h ▸ hname'))

/-! ## The entries that have a callback -/

/-- What a path below a directory with these entries leads to. -/
def Forest.descend (f : Forest) : List WString → Option Node
  | [] => none
  | name :: names => (f.find name).bind (·.descend names)

theorem Forest.descend_of_find {f : Forest} {name : WString} {node : Node} (hfind : f.find name = some node) :
    f.descend [name] = some node := by
  rw [descend, hfind]
  rfl

theorem Forest.descend_dir {name n : WString} {info : DirInfo} {sub rest : Forest} {names : List WString} :
    (Forest.dir name info sub rest).descend (name :: n :: names) = sub.descend (n :: names) := by
  simp [Forest.descend, Forest.find, Node.descend]

/-- A path that starts behind the first entry. -/
theorem Forest.descend_rest {f rest : Forest} {first : WString} {names : List WString} {node : Node}
    (hfind : ∀ name, first ≠ name → f.find name = rest.find name) (hnotin : first ∉ rest.names)
    (h : rest.descend names = some node) : f.descend names = some node := by
  cases names with
  | nil => cases h
  | cons name names =>
      obtain ⟨node', hname, -⟩ := Option.bind_eq_some_iff.mp h
      have hne : first ≠ name := fun heq => hnotin (heq ▸ mem_names_of_find hname)
      rw [descend, hfind name hne]
      exact h

theorem Forest.Wf.of_find {f : Forest} (h : f.Wf) {name : WString} {node : Node} (hfind : f.find name = some node) :
    ValidName name ∧ ∀ info sub, node = .dir info sub → sub.Wf := by
  induction f with
  | nil => cases hfind
  | file first info rest ih =>
      obtain ⟨hname, -, hrest⟩ := h
      simp only [find] at hfind
      split at hfind
      · next heq =>
          cases hfind
          exact ⟨heq ▸ hname, fun _ _ hdir => by cases hdir⟩
      · exact ih hrest hfind
  | dir first info sub rest _ ih =>
      obtain ⟨hname, -, hsub, hrest⟩ := h
      simp only [find] at hfind
      split at hfind
      · next heq =>
          cases hfind
          refine ⟨heq ▸ hname, ?_⟩
          rintro info' sub' heq'
          exact (Node.dir.inj heq').2 ▸ hsub
      · exact ih hrest hfind

/-- The names on a path are valid. -/
theorem Forest.Wf.valid_of_descend {f : Forest} (h : f.Wf) {names : List WString} {node : Node}
    (hdescend : f.descend names = some node) : ∀ n ∈ names, ValidName n := by
  induction names generalizing f with
  | nil => exact fun n hn => absurd hn List.not_mem_nil
  | cons name names ih =>
      obtain ⟨first, hfind, hrest⟩ := Option.bind_eq_some_iff.mp hdescend
      obtain ⟨hname, hsub⟩ := h.of_find hfind
      refine List.forall_mem_cons.mpr ⟨hname, ?_⟩
      cases names with
      | nil => exact fun n hn => absurd hn List.not_mem_nil
      | cons name' names =>
          cases first with
          | file info => cases hrest
          | dir info sub => exact ih (hsub info sub rfl) hrest

/-- The path does not lead through a directory that has vanished. -/
def Forest.Outside (f : Forest) (names : List WString) : Prop :=
  ∀ names' more info entries, names = names' ++ more → more ≠ [] →
    f.descend names' = some (.dir info entries) → info.openError ≠ some ERROR_PATH_NOT_FOUND

theorem Forest.outside_rest_iff {f rest : Forest} {first name : WString} {names : List WString}
    (hne : first ≠ name) (hfind : ∀ name, first ≠ name → f.find name = rest.find name) :
    f.Outside (name :: names) ↔ rest.Outside (name :: names) := by
  refine forall_congr' fun names' => forall_congr' fun more => forall_congr' fun info =>
    forall_congr' fun entries => imp_congr_right fun heq => imp_congr_right fun _ => ?_
  cases names' with
  | nil => exact Iff.rfl
  | cons name' names' =>
      obtain ⟨rfl, -⟩ := List.cons.inj heq
      rw [descend, descend, hfind name hne]

theorem Forest.Outside.sub {f sub : Forest} {name : WString} {info : DirInfo} {names : List WString}
    (h : f.Outside (name :: names)) (hfind : f.find name = some (.dir info sub)) :
    sub.Outside names := by
  intro names' more info' entries heq hmore hdescend
  refine h (name :: names') more info' entries (by rw [heq, List.cons_append]) hmore ?_
  rw [descend, hfind, Option.bind_some]
  cases names' with
  | nil => cases hdescend
  | cons name' names' => exact hdescend

/-- A path into a directory that has not vanished. -/
theorem Forest.Outside.of_sub {f sub : Forest} {name : WString} {info : DirInfo} {names : List WString}
    (h : sub.Outside names) (hfind : f.find name = some (.dir info sub))
    (hthere : info.openError ≠ some ERROR_PATH_NOT_FOUND) :
    f.Outside (name :: names) := by
  intro names' more info' entries heq hmore hdescend
  cases names' with
  | nil => cases hdescend
  | cons name' names' =>
      obtain ⟨rfl, hnames⟩ := List.cons.inj heq
      rw [descend, hfind, Option.bind_some] at hdescend
      cases names' with
      | nil =>
          obtain ⟨rfl, rfl⟩ := Node.dir.inj (Option.some.inj hdescend)
          exact hthere
      | cons name'' names' => exact h (name'' :: names') more info' entries hnames hmore hdescend

theorem Forest.outside_singleton (f : Forest) (name : WString) : f.Outside [name] := by
  intro names' more info entries heq hmore hdescend
  cases names' with
  | nil => cases hdescend
  | cons name' names' =>
      obtain ⟨-, hnil⟩ := List.cons.inj heq
      exact absurd (List.append_eq_nil_iff.mp hnil.symm).2 hmore

theorem Forest.outside_rest {f rest : Forest} {first : WString} {names : List WString} {node : Node}
    (hfind : ∀ name, first ≠ name → f.find name = rest.find name) (hnotin : first ∉ rest.names)
    (h : rest.descend names = some node) (hout : rest.Outside names) : f.Outside names := by
  cases names with
  | nil => cases h
  | cons name names =>
      obtain ⟨node', hname, -⟩ := Option.bind_eq_some_iff.mp h
      have hne : first ≠ name := fun heq => hnotin (heq ▸ mem_names_of_find hname)
      exact (outside_rest_iff hne hfind).mpr hout

/-- The entry of a callback is what its path leads to, through directories that open. -/
theorem Forest.calls_descend {f : Forest} (hwf : f.Wf) {endError : U32} {parts : List WString}
    {orphan : Bool} : ∀ c ∈ callsOf (f.events o endError parts orphan), ∃ names,
      c.path = parts ++ names ∧ f.descend names = some c.node ∧ f.Outside names := by
  induction f generalizing endError parts orphan with
  | nil =>
      intro c hc
      cases hc
  | file name info rest ih =>
      obtain ⟨-, hnotin, hrest⟩ := hwf
      intro c hc
      rcases calls_file hc with rfl | hc
      · exact ⟨[name], rfl, Forest.descend_of_find (if_pos rfl), outside_singleton _ _⟩
      · obtain ⟨names, hpath, hdescend, hout⟩ := ih hrest c hc
        exact ⟨names, hpath, descend_rest (fun _ hne => if_neg hne) hnotin hdescend,
          outside_rest (fun _ hne => if_neg hne) hnotin hdescend hout⟩
  | dir name info sub rest ihs ihr =>
      obtain ⟨-, hnotin, hsub, hrest⟩ := hwf
      intro c hc
      rcases calls_dir hc with ⟨after, rfl⟩ | ⟨hopen, hc⟩ | hc
      · exact ⟨[name], rfl, Forest.descend_of_find (if_pos rfl), outside_singleton _ _⟩
      · obtain ⟨names, hpath, hdescend, hout⟩ := ihs hsub c hc
        refine ⟨name :: names, ?_, ?_, hout.of_sub (if_pos rfl) (by simp [hopen])⟩
        · rw [hpath, List.append_assoc, List.singleton_append]
        · cases names with
          | nil => cases hdescend
          | cons name' names => exact Forest.descend_dir.trans hdescend
      · obtain ⟨names, hpath, hdescend, hout⟩ := ihr hrest c hc
        exact ⟨names, hpath, descend_rest (fun _ hne => if_neg hne) hnotin hdescend,
          outside_rest (fun _ hne => if_neg hne) hnotin hdescend hout⟩

/-- Every entry satisfies `P` with its name. -/
def Forest.Each (P : WString → Node → Prop) : Forest → Prop
  | .nil => True
  | .file name info rest => P name (.file info) ∧ rest.Each P
  | .dir name info sub rest => P name (.dir info sub) ∧ sub.Each P ∧ rest.Each P

theorem Forest.each_of_descend {P : WString → Node → Prop} {f : Forest} (hwf : f.Wf)
    (h : ∀ names node, f.descend names = some node → ∀ name ∈ names.getLast?, P name node) : f.Each P := by
  induction f with
  | nil => trivial
  | file name info rest ih =>
      obtain ⟨-, hnotin, hrest⟩ := hwf
      refine ⟨h [name] _ (descend_of_find (if_pos rfl)) name rfl, ih hrest fun names node hdescend => ?_⟩
      exact h names node (descend_rest (fun _ hne => if_neg hne) hnotin hdescend)
  | dir name info sub rest ihs ihr =>
      obtain ⟨-, hnotin, hsub, hrest⟩ := hwf
      refine ⟨h [name] _ (descend_of_find (if_pos rfl)) name rfl, ihs hsub fun names node hdescend => ?_,
        ihr hrest fun names node hdescend => ?_⟩
      · cases names with
        | nil => cases hdescend
        | cons n names =>
            intro last hlast
            exact h (name :: n :: names) node (descend_dir.trans hdescend) last (List.getLast?_cons_cons.trans hlast)
      · exact h names node (descend_rest (fun _ hne => if_neg hne) hnotin hdescend)

theorem Forest.Each.of_descend {P : WString → Node → Prop} {f : Forest} (h : f.Each P) {names : List WString}
    {node : Node} (hdescend : f.descend names = some node) {name : WString} (hname : name ∈ names.getLast?) :
    P name node := by
  cases names with
  | nil => cases hname
  | cons n names =>
      simp only [descend] at hdescend
      induction f generalizing n names with
      | nil => cases hdescend
      | file first info rest ih =>
          simp only [find] at hdescend
          split at hdescend
          · next heq =>
              cases names with
              | nil =>
                  cases hdescend
                  cases hname
                  exact heq ▸ h.1
              | cons n' names => cases hdescend
          · exact ih h.2 n names hdescend hname
      | dir first info sub rest ihs ihr =>
          simp only [find] at hdescend
          split at hdescend
          · next heq =>
              cases names with
              | nil =>
                  cases hdescend
                  cases hname
                  exact heq ▸ h.1
              | cons n' names => exact ihs h.2.1 n' names hdescend (List.getLast?_cons_cons.symm.trans hname)
          · exact ihr h.2.2 n names hdescend hname

/-- What holds of a listing, and with it of its first entry and of what it hands on to the entries in
and behind that one, holds of the entry that a path leads to. -/
theorem Forest.of_descend {Q : Forest → Prop} {P : Node → Prop}
    (hfile : ∀ name info rest, Q (.file name info rest) → P (.file info) ∧ Q rest)
    (hdir : ∀ name info sub rest, Q (.dir name info sub rest) → P (.dir info sub) ∧ Q sub ∧ Q rest)
    {f : Forest} (h : Q f) {names : List WString} {node : Node} (hdescend : f.descend names = some node) :
    P node := by
  have heach : f.Each fun _ => P := by
    clear hdescend
    induction f with
    | nil => trivial
    | file name info rest ih =>
        obtain ⟨hfirst, hrest⟩ := hfile _ _ _ h
        exact ⟨hfirst, ih hrest⟩
    | dir name info sub rest ihs ihr =>
        obtain ⟨hfirst, hsub, hrest⟩ := hdir _ _ _ _ h
        exact ⟨hfirst, ihs hsub, ihr hrest⟩
  cases names with
  | nil => cases hdescend
  | cons n names => exact heach.of_descend hdescend (List.getLast?_eq_some_getLast (by simp))

/-- Every file satisfies `P`. -/
def Forest.Files (P : FileInfo → Prop) : Forest → Prop
  | .nil => True
  | .file _ info rest => P info ∧ rest.Files P
  | .dir _ _ sub rest => sub.Files P ∧ rest.Files P

theorem Forest.Files.of_descend {P : FileInfo → Prop} {f : Forest} (h : f.Files P)
    {names : List WString} {info : FileInfo} (hdescend : f.descend names = some (.file info)) :
    P info := by
  have key : ∀ info', Node.file info = .file info' → P info' := by
    refine Forest.of_descend (Q := Forest.Files P) (P := fun node => ∀ info', node = .file info' → P info')
      ?_ ?_ h hdescend
    · rintro name info rest ⟨hinfo, hrest⟩
      refine ⟨?_, hrest⟩
      rintro info' heq
      exact Node.file.inj heq ▸ hinfo
    · rintro name info sub rest ⟨hsub, hrest⟩
      exact ⟨nofun, hsub, hrest⟩
  exact key info rfl

/-- The options with which `read` goes into every directory, and lists every entry whose name matches. -/
structure DirectoryReader.Deep (o : DirectoryReader) : Prop where
  recursive : o.recursive = true
  listDirectories : o.listDirectories = true
  maxLevel : o.maxLevel = 0

theorem DirectoryReader.Deep.descends (h : o.Deep) (parts : List WString) : o.descends parts = true := by
  simp [DirectoryReader.descends, h.recursive, h.maxLevel]

/-- The options with which the names have to match `.*` only. -/
structure DirectoryReader.ListsAll (o : DirectoryReader) : Prop extends o.Deep where
  mask : o.mask = none
  exclude : o.exclude = none

theorem DirectoryReader.ListsAll.matchName (h : o.ListsAll) (name : WString) :
    o.matchName name = matchesDotStar name := by
  simp [DirectoryReader.matchName, h.mask, h.exclude]

/-- Every directory can be opened. -/
def Forest.Opens : Forest → Prop
  | .nil => True
  | .file _ _ rest => rest.Opens
  | .dir _ info sub rest => info.openError = none ∧ sub.Opens ∧ rest.Opens

/-- A directory on the path can be opened, where it fails to open in no other way than by vanishing. -/
theorem Forest.Outside.opens {f sub : Forest} {name : WString} {info : DirInfo} {names : List WString}
    (h : f.Outside (name :: names)) (hne : names ≠ []) (hfind : f.find name = some (.dir info sub))
    {parts : List WString} {inside : List Event}
    (hfailed : ∀ path err, .openFailed path err ∈ info.events parts inside → err = ERROR_PATH_NOT_FOUND) :
    info.openError = none := by
  cases herr : info.openError with
  | none => rfl
  | some err =>
      rw [DirInfo.events_of_openError herr] at hfailed
      obtain rfl := hfailed _ err List.mem_cons_self
      have hdescend : f.descend [name] = some (.dir info sub) := by
        rw [descend, hfind]
        rfl
      exact absurd herr (h [name] names info sub rfl hne hdescend)

/-- An entry outside of the vanished directories has a callback when its name matches, where no directory
fails to open in another way. -/
theorem Forest.calls_outside (ho : o.Deep) {f : Forest} {endError : U32} {parts : List WString}
    {orphan : Bool} (hfailed : ∀ path err, .openFailed path err ∈ f.events o endError parts orphan →
      err = ERROR_PATH_NOT_FOUND) {names : List WString} {node : Node} (h : f.descend names = some node)
    (hout : f.Outside names) (hmatch : ∀ name ∈ names.getLast?, o.matchName name = true) :
    ∃ c ∈ callsOf (f.events o endError parts orphan), c.path = parts ++ names ∧ c.node = node := by
  cases names with
  | nil => cases h
  | cons n names =>
      simp only [descend] at h
      induction f generalizing endError parts orphan n names with
      | nil => cases h
      | file name info rest ih =>
          simp only [Forest.events, callsOf_append] at hfailed ⊢
          by_cases hname : name = n
          · simp only [Forest.find, if_pos hname, Option.bind_some] at h
            cases names with
            | nil =>
                obtain rfl := Option.some.inj h
                subst hname
                rw [if_pos (hmatch name rfl)]
                exact ⟨_, List.mem_append_left _ List.mem_cons_self, rfl, rfl⟩
            | cons n' names => cases h
          · simp only [Forest.find, if_neg hname] at h
            have hfind : ∀ n, name ≠ n → (Forest.file name info rest).find n = rest.find n :=
              fun _ hne => if_neg hne
            have hrest := (outside_rest_iff hname hfind).mp hout
            obtain ⟨c, hc, hpath, hnode⟩ :=
              ih (fun path err hmem => hfailed path err (List.mem_append_right _ hmem)) n names h hrest hmatch
            exact ⟨c, List.mem_append_right _ hc, hpath, hnode⟩
      | dir name info sub rest ihs ihr =>
          simp only [Forest.events, ho.listDirectories, ho.descends, if_true, true_and,
            callsOf_append] at hfailed ⊢
          by_cases hname : name = n
          · simp only [Forest.find, if_pos hname, Option.bind_some] at h
            subst hname
            cases names with
            | nil =>
                obtain rfl := Option.some.inj h
                rw [if_pos (hmatch name rfl)]
                exact ⟨_, List.mem_append_left _ (List.mem_append_left _ List.mem_cons_self), rfl, rfl⟩
            | cons n' names =>
                have hfind : (Forest.dir name info sub rest).find name = some (.dir info sub) := by
                  simp [Forest.find]
                have hopen : info.openError = none :=
                  hout.opens (List.cons_ne_nil _ _) hfind (fun path err hmem =>
                    hfailed path err (List.mem_append_left _ (List.mem_append_right _ hmem)))
                rw [DirInfo.events_of_open hopen] at hfailed ⊢
                obtain ⟨c, hc, hpath, hnode⟩ := ihs (fun path err hmem => hfailed path err
                  (List.mem_append_left _ (List.mem_append_right _ (List.mem_append_left _ hmem))))
                  n' names h (hout.sub hfind) (by rwa [List.getLast?_cons_cons] at hmatch)
                refine ⟨c, List.mem_append_left _ (List.mem_append_right _ ?_), ?_, hnode⟩
                · rw [callsOf_append]
                  exact List.mem_append_left _ hc
                · rw [hpath, List.append_assoc, List.singleton_append]
          · simp only [Forest.find, if_neg hname] at h
            have hfind : ∀ n, name ≠ n → (Forest.dir name info sub rest).find n = rest.find n :=
              fun _ hne => if_neg hne
            have hrest := (outside_rest_iff hname hfind).mp hout
            obtain ⟨c, hc, hpath, hnode⟩ :=
              ihr (fun path err hmem => hfailed path err (List.mem_append_right _ hmem)) n names h hrest hmatch
            exact ⟨c, List.mem_append_right _ hc, hpath, hnode⟩

/-- No directory of the walk fails to open. -/
theorem Forest.Opens.openFailed_not_mem {f : Forest} (h : f.Opens) {endError : U32}
    {parts : List WString} {orphan : Bool} (path : WString) (err : U32) :
    .openFailed path err ∉ f.events o endError parts orphan := by
  have hne : ∀ e ∈ f.events o endError parts orphan, e ≠ .openFailed path err := by
    refine Forest.events_forall ?_ ?_ h
    · intro name info rest hrest
      exact ⟨nofun, hrest⟩
    · rintro name info sub rest ⟨hopen, hsub, hrest⟩
      refine ⟨nofun, ?_, hsub, hrest⟩
      intro parts inside hinside e he
      rw [DirInfo.events_of_open hopen] at he
      rcases List.mem_append.mp he with he | he
      · exact hinside e he
      · rw [List.mem_singleton.mp he]
        exact nofun
  intro hmem
  exact hne _ hmem rfl

theorem Forest.Opens.of_descend {f : Forest} (h : f.Opens) {names : List WString} {info : DirInfo}
    {entries : Forest} (hdescend : f.descend names = some (.dir info entries)) :
    info.openError = none := by
  have key : ∀ info' sub, Node.dir info entries = .dir info' sub → info'.openError = none := by
    refine Forest.of_descend (Q := Forest.Opens) (P := fun node => ∀ info' sub, node = .dir info' sub →
      info'.openError = none) ?_ ?_ h hdescend
    · intro name info rest hrest
      exact ⟨nofun, hrest⟩
    · rintro name info sub rest ⟨hopen, hsub, hrest⟩
      refine ⟨?_, hsub, hrest⟩
      rintro info' sub' heq
      exact (Node.dir.inj heq).1 ▸ hopen
  exact key info entries rfl

/-- Every entry whose name matches has a callback where every directory can be opened. -/
theorem Forest.calls_complete (ho : o.Deep) {f : Forest} (hopens : f.Opens) (endError : U32)
    (parts : List WString) (orphan : Bool) {names : List WString} {node : Node}
    (h : f.descend names = some node) (hmatch : ∀ name ∈ names.getLast?, o.matchName name = true) :
    ∃ c ∈ callsOf (f.events o endError parts orphan), c.path = parts ++ names ∧ c.node = node := by
  refine calls_outside ho ?_ h ?_ hmatch
  · intro path err hmem
    exact absurd hmem (hopens.openFailed_not_mem path err)
  · intro names' more info entries _ _ hdescend
    rw [hopens.of_descend hdescend]
    exact nofun

theorem Tree.calls_below (t : Tree) (o : DirectoryReader) (root : WString) :
    ∀ c ∈ callsOf (t.events o root), c.Below (t.disk root) [root] := by
  intro c hc
  exact Forest.calls_below (Tree.mounted root t) c (callsOf_dir hc)

theorem Tree.calls_pairwise (t : Tree) (o : DirectoryReader) (root : WString) :
    (callsOf (t.events o root)).Pairwise (fun c c' => c.path ≠ c'.path) :=
  (Forest.calls_pairwise t.wf).sublist (callsOf_dir_sublist _ _ _)

theorem Tree.calls_match (t : Tree) (o : DirectoryReader) (root : WString) :
    ∀ c ∈ callsOf (t.events o root), o.matchName c.name = true := by
  intro c hc
  exact Forest.calls_match c (callsOf_dir hc)

theorem Tree.calls_descend (t : Tree) (o : DirectoryReader) (root : WString) :
    ∀ c ∈ callsOf (t.events o root), ∃ names, c.path = root :: names ∧
      t.node.descend names = some c.node := by
  intro c hc
  obtain ⟨names, hpath, hdescend, -⟩ := Forest.calls_descend t.wf c (callsOf_dir hc)
  cases names with
  | nil => cases hdescend
  | cons name names => exact ⟨name :: names, hpath, hdescend⟩

theorem Tree.descend_cons {t : Tree} {name : WString} {names : List WString} :
    t.node.descend (name :: names) = t.entries.descend (name :: names) := rfl

theorem Tree.calls_complete {t : Tree} (ho : o.Deep) (hopen : t.info.openError = none)
    (hopens : t.entries.Opens) (root : WString) {name : WString} {names : List WString} {node : Node}
    (h : t.node.descend (name :: names) = some node)
    (hmatch : ∀ last ∈ (name :: names).getLast?, o.matchName last = true) :
    ∃ c ∈ callsOf (t.events o root), c.path = root :: name :: names ∧ c.node = node := by
  obtain ⟨c, hc, hpath, hnode⟩ := Forest.calls_complete ho hopens t.info.endError [root] false
    (descend_cons.symm.trans h) hmatch
  refine ⟨c, ?_, hpath, hnode⟩
  simpa [Tree.events, DirInfo.events, hopen] using hc

end Spacenet
