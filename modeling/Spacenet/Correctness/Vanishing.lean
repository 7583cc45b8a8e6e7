-- SUMMARY: When the walk misses entries in silence: `read` returns at the first directory that has vanished.
import Spacenet.Effect.Accessible

/-!
# Vanished directories

A directory may vanish between its listing and its opening. `read` then returns,
also when it is not the root that has vanished, and leaves the entries behind the
directory and the rest of the directories on the stack.
-/

namespace Spacenet

variable {σ : Type}

/-! ## The invocations -/

/-- The callback never sets `abort_`. -/
def NeverAborts (m : Manipulator σ) : Prop :=
  ∀ dr lastError user sh, m dr ⟨false, lastError, user⟩ = .ok () sh → sh.abort = false

/-- The callback, with the list of the paths for which it has been invoked. -/
def recording (m : Manipulator σ) : Manipulator (σ × List WString) := fun dr sh =>
  match m dr ⟨sh.abort, sh.lastError, sh.user.1⟩ with
  | .ok _ sh' => .ok () ⟨sh'.abort, sh'.lastError, sh'.user, sh.user.2 ++ [dr.pathName]⟩
  | .error e sh' => .error e ⟨sh'.abort, sh'.lastError, sh'.user, sh.user.2 ++ [dr.pathName]⟩

/-- The paths that the callback finds in `path_name`. -/
def pathNames (o : DirectoryReader) (es : List Event) : List WString :=
  (callsOf es).map fun c => (c.reader o).pathName

theorem pathNames_nil (o : DirectoryReader) : pathNames o [] = [] := rfl

/-- How a walk with a callback that never aborts ends, and for which paths it has invoked the callback. -/
inductive Invoked (o : DirectoryReader) (es : List Event) (before : List WString) :
    WalkEnd (σ × List WString) → Prop where
  | through {lastError : U32} {user : σ} (passes : ∀ e ∈ es, e.Passes) :
      Invoked o es before (.through lastError (user, before ++ pathNames o es))
  | vanished {pre post : List Event} {path : WString} {user : σ}
      (events : es = pre ++ .openFailed path ERROR_PATH_NOT_FOUND :: post)
      (passes : ∀ e ∈ pre, e.Passes) :
      Invoked o es before (.returned (user, before ++ pathNames o pre))
  | threw {e : Error} {user : σ × List WString} : Invoked o es before (.threw e user)

theorem Invoked.pass {o : DirectoryReader} {es : List Event} {before : List WString} {e : Event}
    {out : WalkEnd (σ × List WString)} (hpasses : e.Passes)
    (h : Invoked o es (before ++ pathNames o [e]) out) : Invoked o (e :: es) before out := by
  have hnames : ∀ es', before ++ pathNames o [e] ++ pathNames o es' = before ++ pathNames o (e :: es') := by
    intro es'
    rw [List.append_assoc, pathNames, pathNames, pathNames, ← List.map_append, ← callsOf_append,
      List.singleton_append]
  have hcons : ∀ es' : List Event, (∀ e' ∈ es', e'.Passes) → ∀ e' ∈ e :: es', e'.Passes := by
    intro es' hes e' he'
    rcases List.mem_cons.mp he' with rfl | he'
    · exact hpasses
    · exact hes e' he'
  cases h with
  | through passes =>
      rw [hnames]
      exact .through (hcons es passes)
  | @vanished pre post path user events passes =>
      rw [hnames]
      exact .vanished (by rw [events, List.cons_append]) (hcons pre passes)
  | threw => exact .threw

/-- The run lemma of a walk, by induction on the events. -/
theorem runEvents_invoked {o : DirectoryReader} {m : Manipulator σ} (hm : NeverAborts m)
    (es : List Event) (lastError : U32) (user : σ) (before : List WString) :
    Invoked o es before (runEvents o (recording m) es lastError (user, before)) := by
  induction es generalizing lastError user before with
  | nil =>
      have hthrough : Invoked o [] before (.through lastError (user, before ++ pathNames o [])) :=
        .through (fun _ he => absurd he List.not_mem_nil)
      rw [pathNames_nil, List.append_nil] at hthrough
      exact hthrough
  | cons e es ih =>
      cases e with
      | call c =>
          simp only [runEvents, Event.run, recording]
          cases hcall : m (c.reader o) ⟨false, lastError, user⟩ with
          | error e sh => exact .threw
          | ok _ sh =>
              have habort := hm _ _ _ _ hcall
              simp only [habort, Bool.false_eq_true, if_false, WalkEnd.bind]
              have hpasses : (Event.call c).Passes := trivial
              exact (ih sh.lastError sh.user (before ++ [(c.reader o).pathName])).pass hpasses
      | openFailed path err =>
          simp only [runEvents, Event.run]
          split
          · next herr =>
              subst herr
              have hvanished : Invoked o (.openFailed path ERROR_PATH_NOT_FOUND :: es) before
                  (.returned (user, before ++ pathNames o [])) :=
                .vanished (List.nil_append _).symm (fun _ he => absurd he List.not_mem_nil)
              rw [pathNames_nil, List.append_nil] at hvanished
              exact hvanished
          · exact .threw
      | endOfDirectory path err =>
          simp only [runEvents, Event.run]
          split
          · next herr =>
              have hpasses : (Event.endOfDirectory path err).Passes := herr
              refine Invoked.pass hpasses ?_
              have hnil : pathNames o [.endOfDirectory path err] = [] := rfl
              rw [hnil, List.append_nil]
              exact ih err user before
          · exact .threw

/-! ## Vanished directories -/

/-- `read` comes to a directory that has vanished. -/
def Forest.HasVanished : Forest → Prop
  | .nil => False
  | .file _ _ rest => rest.HasVanished
  | .dir _ info sub rest =>
      info.openError = some ERROR_PATH_NOT_FOUND ∨ (info.openError = none ∧ sub.HasVanished) ∨
        rest.HasVanished

/-- Nothing is listed behind a directory that has vanished or has a vanished one in it. -/
def Forest.VanishedLast : Forest → Prop
  | .nil => True
  | .file _ _ rest => rest.VanishedLast
  | .dir _ info sub rest =>
      (info.openError = some ERROR_PATH_NOT_FOUND ∨ (info.openError = none ∧ sub.HasVanished) →
        rest = .nil) ∧
      (info.openError = none → sub.VanishedLast) ∧ rest.VanishedLast

def Tree.VanishedLast (t : Tree) : Prop := t.info.openError = none → t.entries.VanishedLast

/-- `.*` matches the name of every entry that is not in a vanished directory. -/
def Forest.Shown : Forest → Prop
  | .nil => True
  | .file name _ rest => matchesDotStar name = true ∧ rest.Shown
  | .dir name info sub rest =>
      matchesDotStar name = true ∧ (info.openError ≠ some ERROR_PATH_NOT_FOUND → sub.Shown) ∧ rest.Shown

def Tree.Shown (t : Tree) : Prop := t.info.openError ≠ some ERROR_PATH_NOT_FOUND → t.entries.Shown

variable {o : DirectoryReader}

theorem Forest.callsOf_eq_nil_iff (ho : o.ListsAll) {f : Forest} (hshown : f.Shown) {endError : U32}
    {parts : List WString} {orphan : Bool} : callsOf (f.events o endError parts orphan) = [] ↔ f = .nil := by
  cases f with
  | nil => simp [Forest.events]
  | file name info rest => simp [Forest.events, ho.matchName, hshown.1]
  | dir name info sub rest => simp [Forest.events, ho.matchName, hshown.1, ho.listDirectories]

/-- Where all events are passed, no directory has vanished. -/
theorem Forest.not_hasVanished (ho : o.ListsAll) {f : Forest} {endError : U32} {parts : List WString}
    {orphan : Bool} (h : ∀ e ∈ f.events o endError parts orphan, e.Passes) : ¬f.HasVanished := by
  induction f generalizing endError parts orphan with
  | nil => exact fun hv => hv
  | file name info rest ih => exact ih fun e he => h e (List.mem_append_right _ he)
  | dir name info sub rest ihs ihr =>
      have hdir : ∀ e ∈ info.events (parts ++ [name])
          (sub.events o info.endError (parts ++ [name]) (orphan || !info.accessible)), e.Passes := by
        intro e he
        refine h e (List.mem_append_left _ (List.mem_append_right _ ?_))
        rw [if_pos (ho.toDeep.descends parts)]
        exact he
      rintro (hvanished | ⟨hopen, hsub⟩ | hrest)
      · refine hdir (.openFailed (joinPath (parts ++ [name])) ERROR_PATH_NOT_FOUND) ?_
        rw [DirInfo.events_of_openError hvanished, List.mem_singleton]
      · have hinside : ∀ e ∈ sub.events o info.endError (parts ++ [name]) (orphan || !info.accessible),
            e.Passes := by
          intro e he
          refine hdir e ?_
          rw [DirInfo.events_of_open hopen]
          exact List.mem_append_left _ he
        exact ihs hinside hsub
      · exact ihr (fun e he => h e (List.mem_append_right _ he)) hrest

theorem Forest.vanishedLast_of_not {f : Forest} (h : ¬f.HasVanished) : f.VanishedLast := by
  induction f with
  | nil => trivial
  | file name info rest ih => exact ih h
  | dir name info sub rest ihs ihr =>
      refine ⟨fun hv => ?_, fun hopen => ihs fun hv => h (.inr (.inl ⟨hopen, hv⟩)),
        ihr fun hv => h (.inr (.inr hv))⟩
      rcases hv with hv | hv
      · exact absurd (.inl hv) h
      · exact absurd (.inr (.inl hv)) h

section

variable {name : WString} {info : DirInfo} {sub rest : Forest}

/-- The directory itself has vanished. -/
theorem Forest.vanishedLast_dir_vanished (h : info.openError = some ERROR_PATH_NOT_FOUND) :
    (Forest.dir name info sub rest).VanishedLast ↔ rest = .nil := by
  constructor
  · exact fun hlast => hlast.1 (.inl h)
  · rintro rfl
    refine ⟨fun _ => rfl, fun hnone => ?_, trivial⟩
    rw [h] at hnone
    cases hnone

/-- A vanished directory is below the directory. -/
theorem Forest.vanishedLast_dir_below (hopen : info.openError = none) (h : sub.HasVanished) :
    (Forest.dir name info sub rest).VanishedLast ↔ sub.VanishedLast ∧ rest = .nil := by
  constructor
  · exact fun hlast => ⟨hlast.2.1 hopen, hlast.1 (.inr ⟨hopen, h⟩)⟩
  · rintro ⟨hlast, rfl⟩
    exact ⟨fun _ => rfl, fun _ => hlast, trivial⟩

/-- No directory has vanished in the directory. -/
theorem Forest.vanishedLast_dir_behind (hopen : info.openError = none) (h : ¬sub.HasVanished) :
    (Forest.dir name info sub rest).VanishedLast ↔ rest.VanishedLast := by
  constructor
  · exact fun hlast => hlast.2.2
  · intro hlast
    refine ⟨?_, fun _ => vanishedLast_of_not h, hlast⟩
    rintro (herr | ⟨-, hsub⟩)
    · rw [hopen] at herr
      cases herr
    · exact absurd hsub h

end

/-- Where the walk returns at a vanished directory, that is one of these entries, and it is the last
if and only if no callback is left. -/
theorem Forest.vanishedLast_iff (ho : o.ListsAll) {f : Forest} (hshown : f.Shown) {endError : U32}
    {parts : List WString} {orphan : Bool} {pre post : List Event} {path : WString}
    (hevents : f.events o endError parts orphan = pre ++ .openFailed path ERROR_PATH_NOT_FOUND :: post)
    (hpasses : ∀ e ∈ pre, e.Passes) :
    f.HasVanished ∧ (f.VanishedLast ↔ callsOf post = []) ∧
      (callsOf post = [] → ∀ path err, .openFailed path err ∉ post) := by
  have hnot : ∀ path err, ¬(Event.openFailed path err).Passes := fun _ _ h => h
  induction f generalizing endError parts orphan pre post with
  | nil => simp [Forest.events] at hevents
  | file name info rest ih =>
      obtain ⟨hmatch, hshown⟩ := hshown
      simp only [Forest.events, ho.matchName, hmatch, if_true, List.singleton_append] at hevents
      cases pre with
      | nil => cases hevents
      | cons e pre =>
          obtain ⟨-, hrest⟩ := List.cons.inj hevents
          exact ih hshown hrest (fun e' he' => hpasses e' (List.mem_cons_of_mem _ he'))
  | dir name info sub rest ihs ihr =>
      obtain ⟨hmatch, hshownSub, hshownRest⟩ := hshown
      simp only [Forest.events, ho.matchName, hmatch, ho.listDirectories, ho.toDeep.descends, if_true, and_self,
        List.cons_append, List.nil_append] at hevents
      cases pre with
      | nil => cases hevents
      | cons e pre =>
          obtain ⟨-, hevents⟩ := List.cons.inj hevents
          have hpre : ∀ e ∈ pre, e.Passes := fun e' he' => hpasses e' (List.mem_cons_of_mem _ he')
          cases hopen : info.openError with
          | some err =>
              rw [DirInfo.events_of_openError hopen, List.singleton_append] at hevents
              cases pre with
              | cons e' pre =>
                  obtain ⟨rfl, -⟩ := List.cons.inj hevents
                  exact absurd (hpre _ List.mem_cons_self) (hnot _ _)
              | nil =>
                  obtain ⟨heq, hpost⟩ := List.cons.inj hevents
                  obtain ⟨-, rfl⟩ := Event.openFailed.inj heq
                  obtain rfl : rest.events o endError parts orphan = post := hpost
                  rw [callsOf_eq_nil_iff ho hshownRest]
                  refine ⟨.inl hopen, vanishedLast_dir_vanished hopen, ?_⟩
                  rintro rfl path err
                  exact List.not_mem_nil
          | none =>
              simp only [DirInfo.events_of_open hopen, List.append_assoc, List.singleton_append] at hevents
              rcases List.append_eq_append_iff.mp hevents with ⟨more, rfl, hrest⟩ | ⟨more, hsub, hpost⟩
              · -- the walk passes the directory
                cases more with
                | nil => cases hrest
                | cons e' more =>
                    obtain ⟨rfl, hbehind⟩ := List.cons.inj hrest
                    have hinside := not_hasVanished ho fun e he => hpre e (List.mem_append_left _ he)
                    obtain ⟨hvanished, hiff, hfailed⟩ := ihr hshownRest hbehind fun e he =>
                      hpre e (List.mem_append_right _ (List.mem_cons_of_mem _ he))
                    exact ⟨.inr (.inr hvanished), (vanishedLast_dir_behind hopen hinside).trans hiff, hfailed⟩
              · -- the vanished directory is below this one
                cases more with
                | nil => cases hpost
                | cons e' more =>
                    obtain ⟨rfl, hbehind⟩ := List.cons.inj hpost
                    obtain rfl : post = more ++ .endOfDirectory (joinPath (parts ++ [name]))
                      info.endError :: rest.events o endError parts orphan := hbehind
                    obtain ⟨hvanished, hiff, hfailed⟩ := ihs (hshownSub (by simp [hopen])) hsub hpre
                    have hcalls : callsOf (more ++ .endOfDirectory (joinPath (parts ++ [name]))
                        info.endError :: rest.events o endError parts orphan) = [] ↔
                        callsOf more = [] ∧ rest = .nil := by
                      rw [callsOf_append, callsOf_endOfDirectory, List.append_eq_nil_iff,
                        callsOf_eq_nil_iff ho hshownRest]
                    refine ⟨.inr (.inl ⟨hopen, hvanished⟩), ?_, ?_⟩
                    · rw [hcalls, ← hiff]
                      exact vanishedLast_dir_below hopen hvanished
                    · rw [hcalls]
                      rintro ⟨hmore, rfl⟩ path err hmem
                      rcases List.mem_append.mp hmem with hmem | hmem
                      · exact hfailed hmore path err hmem
                      · simp [Forest.events] at hmem

/-! ## The walk -/

/-- The path does not lead through the root or another directory that has vanished. -/
def Tree.Outside (t : Tree) (names : List WString) : Prop :=
  t.info.openError ≠ some ERROR_PATH_NOT_FOUND ∧ t.entries.Outside names

/-- The events of a root that opens. -/
theorem Tree.events_open {t : Tree} (hopen : t.info.openError = none) (root : WString) :
    t.events o root = t.entries.events o t.info.endError [root] false ++
      [.endOfDirectory (joinPath [root]) t.info.endError] := by
  rw [Tree.events, DirInfo.events_of_open hopen]

theorem mem_pathNames {t : Tree} {root : WString} {c : Call} {es : List Event}
    (hc : c ∈ callsOf es) (hes : ∀ c ∈ callsOf es, c ∈ callsOf (t.events o root)) :
    joinPath c.path ∈ pathNames o es := by
  have hbelow := t.calls_below o root c (hes c hc)
  rw [← Call.reader_pathName hbelow.parts_ne_nil o]
  exact List.mem_map_of_mem hc

theorem Forest.Shown.matches_last {f : Forest} (h : f.Shown) {names : List WString} {node : Node}
    (hdescend : f.descend names = some node) (hout : f.Outside names) :
    ∀ name ∈ names.getLast?, matchesDotStar name = true := by
  cases names with
  | nil => cases hdescend
  | cons n names =>
      simp only [Forest.descend] at hdescend
      induction f generalizing n names with
      | nil => cases hdescend
      | file name info rest ih =>
          by_cases hname : name = n
          · simp only [Forest.find, if_pos hname, Option.bind_some] at hdescend
            cases names with
            | nil => simpa [← hname] using h.1
            | cons n' names => cases hdescend
          · simp only [Forest.find, if_neg hname] at hdescend
            have hfind : ∀ n, name ≠ n → (Forest.file name info rest).find n = rest.find n :=
              fun _ hne => if_neg hne
            exact ih h.2 n names hdescend ((Forest.outside_rest_iff hname hfind).mp hout)
      | dir name info sub rest ihs ihr =>
          by_cases hname : name = n
          · have hfind : (Forest.dir name info sub rest).find n = some (.dir info sub) := if_pos hname
            simp only [hfind, Option.bind_some] at hdescend
            cases names with
            | nil => simpa [← hname] using h.1
            | cons n' names =>
                have hthere : info.openError ≠ some ERROR_PATH_NOT_FOUND := by
                  refine hout [n] (n' :: names) info sub rfl (List.cons_ne_nil _ _) ?_
                  rw [Forest.descend, hfind]
                  rfl
                rw [List.getLast?_cons_cons]
                exact ihs (h.2.1 hthere) n' names hdescend (hout.sub hfind)
          · simp only [Forest.find, if_neg hname] at hdescend
            have hfind : ∀ n, name ≠ n → (Forest.dir name info sub rest).find n = rest.find n :=
              fun _ hne => if_neg hne
            exact ihr h.2.2 n names hdescend ((Forest.outside_rest_iff hname hfind).mp hout)

theorem Forest.shown_of_descend {f : Forest} (hwf : f.Wf)
    (h : ∀ names node, f.descend names = some node → f.Outside names →
      ∀ name ∈ names.getLast?, matchesDotStar name = true) : f.Shown := by
  induction f with
  | nil => trivial
  | file name info rest ih =>
      obtain ⟨-, hnotin, hrest⟩ := hwf
      refine ⟨h [name] _ (descend_of_find (if_pos rfl)) (outside_singleton _ _) name rfl, ih hrest ?_⟩
      intro names node hdescend hout
      exact h names node (descend_rest (fun _ hne => if_neg hne) hnotin hdescend)
        (outside_rest (fun _ hne => if_neg hne) hnotin hdescend hout)
  | dir name info sub rest ihs ihr =>
      obtain ⟨-, hnotin, hsub, hrest⟩ := hwf
      refine ⟨h [name] _ (descend_of_find (if_pos rfl)) (outside_singleton _ _) name rfl,
        fun hthere => ihs hsub ?_, ihr hrest ?_⟩
      · intro names node hdescend hout last hlast
        cases names with
        | nil => cases hdescend
        | cons n names =>
            exact h (name :: n :: names) node (descend_dir.trans hdescend) (hout.of_sub (if_pos rfl) hthere) last
              (List.getLast?_cons_cons.trans hlast)
      · intro names node hdescend hout
        exact h names node (descend_rest (fun _ hne => if_neg hne) hnotin hdescend)
          (outside_rest (fun _ hne => if_neg hne) hnotin hdescend hout)

/-- Where every entry has its callback, the names match. -/
theorem Tree.shown_of_complete (ho : o.ListsAll) {t : Tree} {root : WString} {es : List Event}
    (hes : ∀ c ∈ callsOf es, c ∈ callsOf (t.events o root))
    (hall : ∀ names node, t.entries.descend names = some node → t.Outside names →
      joinPath (root :: names) ∈ pathNames o es) : t.Shown := by
  intro hthere
  apply Forest.shown_of_descend t.wf
  intro names node hdescend hout name hname
  obtain ⟨c, hc, hpathName⟩ := List.mem_map.mp (hall names node hdescend ⟨hthere, hout⟩)
  have hbelow := t.calls_below o root c (hes c hc)
  have hpath : c.path = root :: names := by
    apply hbelow.inTree_path.joinPath_injective ⟨⟨names, rfl, t.wf.valid_of_descend hdescend⟩⟩
    rw [← Call.reader_pathName hbelow.parts_ne_nil o]
    exact hpathName
  obtain ⟨dir, rfl⟩ := List.getLast?_eq_some_iff.mp hname
  rw [Call.path, ← List.cons_append] at hpath
  rw [← (List.cons.inj (List.append_inj_right' hpath rfl)).1, ← ho.matchName]
  exact t.calls_match o root c (hes c hc)

/-- Every entry outside of the vanished directories has its callback among events that have all
callbacks, when `read` can open every other directory. -/
theorem Tree.mem_pathNames_of_descend (ho : o.ListsAll) {t : Tree} {root : WString} {es : List Event}
    (hes : ∀ c ∈ callsOf es, c ∈ callsOf (t.events o root))
    (hentries : ∀ c ∈ callsOf (t.entries.events o t.info.endError [root] false), c ∈ callsOf es)
    (hfailed : ∀ path err, .openFailed path err ∈ t.entries.events o t.info.endError [root] false →
      err = ERROR_PATH_NOT_FOUND) {names : List WString} {node : Node}
    (hshown : t.Shown) (hdescend : t.entries.descend names = some node) (hout : t.Outside names) :
    joinPath (root :: names) ∈ pathNames o es := by
  obtain ⟨c, hc, hpath, -⟩ := Forest.calls_outside ho.toDeep hfailed hdescend hout.2 fun name hname =>
    (ho.matchName name).trans ((hshown hout.1).matches_last hdescend hout.2 name hname)
  have hmem := mem_pathNames (o := o) (hentries c hc) hes
  rw [hpath] at hmem
  exact hmem

/-- No callback behind is for a path of the callbacks before. -/
theorem Tree.not_mem_pathNames {t : Tree} {root : WString} {pre post : List Event} {c : Call}
    (hevents : t.events o root = pre ++ post) (hc : c ∈ callsOf post) :
    joinPath c.path ∉ pathNames o pre := by
  intro hmem
  obtain ⟨c', hc', hname⟩ := List.mem_map.mp hmem
  have hbelow := t.calls_below o root
  have hpairwise := t.calls_pairwise o root
  rw [hevents, callsOf_append] at hbelow hpairwise
  have hc₁ := hbelow c' (List.mem_append_left _ hc')
  have hc₂ := hbelow c (List.mem_append_right _ hc)
  apply (List.pairwise_append.mp hpairwise).2.2 c' hc' c hc
  apply hc₁.inTree_path.joinPath_injective hc₂.inTree_path
  rw [← Call.reader_pathName hc₁.parts_ne_nil o]
  exact hname

/-- A root behind whose events the walk goes on is open. -/
theorem Tree.open_of_passes {t : Tree} {root : WString} (h : ∀ e ∈ t.events o root, e.Passes) :
    t.info.openError = none := by
  cases herr : t.info.openError with
  | none => rfl
  | some err =>
      refine (h (.openFailed (joinPath [root]) err) ?_).elim
      rw [Tree.events, DirInfo.events_of_openError herr, List.mem_singleton]

/-- A directory that the walk finds vanished is the root or below it. -/
theorem Tree.vanished_cases {t : Tree} {root path : WString} {pre post : List Event}
    (hevents : t.events o root = pre ++ .openFailed path ERROR_PATH_NOT_FOUND :: post)
    (hpasses : ∀ e ∈ pre, e.Passes) :
    t.info.openError = some ERROR_PATH_NOT_FOUND ∨ t.info.openError = none ∧ ∃ behind,
      t.entries.events o t.info.endError [root] false =
        pre ++ .openFailed path ERROR_PATH_NOT_FOUND :: behind := by
  cases hopen : t.info.openError with
  | some err =>
      left
      rw [Tree.events, DirInfo.events_of_openError hopen] at hevents
      cases pre with
      | nil =>
          obtain ⟨-, rfl⟩ := Event.openFailed.inj (List.cons.inj hevents).1
          rfl
      | cons e pre =>
          obtain ⟨rfl, -⟩ := List.cons.inj hevents
          exact (hpasses _ List.mem_cons_self).elim
  | none =>
      refine .inr ⟨rfl, ?_⟩
      rw [Tree.events_open hopen] at hevents
      rcases List.append_eq_append_iff.mp hevents.symm with ⟨more, hinside, hmore⟩ | ⟨more, -, hmore⟩
      · cases more with
        | nil => cases hmore
        | cons e more =>
            obtain ⟨rfl, -⟩ := List.cons.inj hmore
            exact ⟨more, hinside⟩
      · cases more with
        | nil => cases hmore
        | cons e more => simp at hmore

/-- Where the walk returns at a directory below the root, it has invoked the callback for every entry if
and only if nothing is listed behind. -/
theorem Tree.complete_iff_behind (ho : o.ListsAll) {t : Tree} (hshown : t.Shown) {root path : WString}
    {pre behind : List Event} (hopen : t.info.openError = none)
    (hinside : t.entries.events o t.info.endError [root] false =
      pre ++ .openFailed path ERROR_PATH_NOT_FOUND :: behind)
    (hpasses : ∀ e ∈ pre, e.Passes)
    (hfailed : callsOf behind = [] → ∀ path err, .openFailed path err ∉ behind) :
    (∀ names node, t.entries.descend names = some node → t.Outside names →
      joinPath (root :: names) ∈ pathNames o pre) ↔ callsOf behind = [] := by
  have hevents := Tree.events_open (o := o) hopen root
  rw [hinside, List.append_assoc] at hevents
  constructor
  · intro hall
    apply List.eq_nil_iff_forall_not_mem.mpr
    intro c hc
    have hmem : c ∈ callsOf (t.entries.events o t.info.endError [root] false) := by
      rw [hinside, callsOf_append]
      exact List.mem_append_right _ hc
    obtain ⟨names, hpath, hdescend, hout⟩ := Forest.calls_descend t.wf c hmem
    have hnot : t.info.openError ≠ some ERROR_PATH_NOT_FOUND := by
      rw [hopen]
      exact nofun
    -- the callback has been made before, although no path has two
    have hcall : c ∈ callsOf (.openFailed path ERROR_PATH_NOT_FOUND :: behind ++
        [.endOfDirectory (joinPath [root]) t.info.endError]) := by
      rw [callsOf_append]
      exact List.mem_append_left _ hc
    apply Tree.not_mem_pathNames hevents hcall
    rw [hpath]
    exact hall names c.node hdescend ⟨hnot, hout⟩
  · intro hbehind names node hdescend hout
    refine Tree.mem_pathNames_of_descend ho ?_ ?_ ?_ hshown hdescend hout
    · intro c hc
      rw [hevents, callsOf_append]
      exact List.mem_append_left _ hc
    · rw [hinside, callsOf_append, callsOf_openFailed, hbehind, List.append_nil]
      exact fun c hc => hc
    · rw [hinside]
      intro p err hmem
      rcases List.mem_append.mp hmem with hmem | hmem
      · exact (hpasses _ hmem).elim
      · rcases List.mem_cons.mp hmem with heq | hmem
        · exact (Event.openFailed.inj heq).2
        · exact absurd hmem (hfailed hbehind p err)

/-- The callback that does nothing. -/
def idle : Manipulator Unit := fun _ => pure ()

theorem idle_neverAborts : NeverAborts idle := by
  intro dr lastError user sh h
  obtain rfl := (EStateM.Result.ok.inj h).2
  rfl

/-- A directory that has vanished when it is opened. -/
def DirInfo.vanished : DirInfo := { DirInfo.plain with openError := some ERROR_PATH_NOT_FOUND }

/-- A file in front of a vanished directory. -/
def vanishedLastTree : Tree where
  info := .plain
  entries := .file ['f'] (.plain ⟨0, 1⟩ [7]) (.dir ['d'] .vanished .nil .nil)
  wf := by decide

/-- A vanished directory in front of a file. -/
def vanishedFirstTree : Tree where
  info := .plain
  entries := .dir ['d'] .vanished .nil (.file ['f'] (.plain ⟨0, 1⟩ [7]) .nil)
  wf := by decide

end Spacenet
