-- SUMMARY: The callbacks of a run as records: `parents` leads to the rows that the paths lead to.
import Spacenet.Effect.Records
import Spacenet.WalkCalls

/-!
# Callbacks as records

The callback finds the directory of its entry in `parents`, by the text of its
path. What it finds there is the rowid that the path leads to in the table, so
that the callbacks of a run make records, each in the directory of its path.
-/

namespace Spacenet

/-- The records that callbacks make: the root before the first entry that is accessible. -/
def recordsOf (root : WString) (cs : List Call) : List Record :=
  match cs.filter (fun c => c.node.accessible) with
  | [] => []
  | c :: cs => .root root :: (c :: cs).map Call.record

theorem recordsOf_snoc (root : WString) (cs : List Call) (c : Call) :
    recordsOf root (cs ++ [c]) =
      if c.node.accessible then
        (if recordsOf root cs = [] then [.root root] else recordsOf root cs) ++ [c.record]
      else recordsOf root cs := by
  unfold recordsOf
  rw [List.filter_append]
  by_cases hacc : c.node.accessible = true
  · cases cs.filter (fun c => c.node.accessible) <;> simp [hacc]
  · simp [hacc]

theorem mem_recordsOf {root : WString} {cs : List Call} {rec : Record} (h : rec ∈ recordsOf root cs) :
    rec = .root root ∨ ∃ c ∈ cs, c.node.accessible = true ∧ rec = c.record := by
  unfold recordsOf at h
  split at h
  · cases h
  · next c cs' hfilter =>
      rcases List.mem_cons.mp h with rfl | h
      · exact .inl rfl
      · obtain ⟨c', hc', rfl⟩ := List.mem_map.mp h
        rw [← hfilter] at hc'
        obtain ⟨hmem, hacc⟩ := List.mem_filter.mp hc'
        exact .inr ⟨c', hmem, hacc, rfl⟩

/-- Without an accessible entry nothing is recorded, not even the root. -/
theorem accessible_of_mem_recordsOf {root : WString} {cs : List Call} {rec : Record} (h : rec ∈ recordsOf root cs) :
    ∃ c ∈ cs, c.node.accessible = true := by
  unfold recordsOf at h
  split at h
  · cases h
  · next c cs' hfilter =>
      have hmem : c ∈ cs.filter (fun c => c.node.accessible) := by
        rw [hfilter]
        exact List.mem_cons_self
      obtain ⟨hc, hacc⟩ := List.mem_filter.mp hmem
      exact ⟨c, hc, hacc⟩

theorem record_mem_recordsOf {root : WString} {cs : List Call} {c : Call} (hc : c ∈ cs)
    (hacc : c.node.accessible = true) : c.record ∈ recordsOf root cs := by
  have hmem : c ∈ cs.filter (fun c => c.node.accessible) := List.mem_filter.mpr ⟨hc, hacc⟩
  unfold recordsOf
  split
  · next hnil =>
      rw [hnil] at hmem
      cases hmem
  · next c' cs' hfilter =>
      rw [hfilter] at hmem
      exact List.mem_cons_of_mem _ (List.mem_map_of_mem hmem)

theorem root_mem_recordsOf {root : WString} {cs : List Call} (h : recordsOf root cs ≠ []) :
    Record.root root ∈ recordsOf root cs := by
  unfold recordsOf at h ⊢
  split
  · next hnil =>
      simp only [hnil] at h
      exact absurd rfl h
  · exact List.mem_cons_self

/-! ## parents -/

theorem lookup_emplace {path path' : WString} {id : Nat} {parents : List (WString × Nat)} :
    (emplace path id parents).lookup path' =
      if path = path' then some ((parents.lookup path').getD id) else parents.lookup path' := by
  unfold emplace
  split
  · next hsome =>
      split
      · next heq =>
          subst heq
          obtain ⟨i, hi⟩ := Option.isSome_iff_exists.mp hsome
          rw [hi, Option.getD_some]
      · rfl
  · next hnone =>
      rw [Option.not_isSome_iff_eq_none] at hnone
      rw [List.lookup_cons]
      by_cases heq : path = path'
      · subst heq
        simp [hnone]
      · have : (path' == path) = false := by
          rw [beq_eq_false_iff_ne]
          exact fun h => heq h.symm
        simp [this, heq]

/-- What `parents` has behind `emplace` it had before, or it is the element added. -/
theorem lookup_emplace_cases {path path' : WString} {id id' : Nat} {parents : List (WString × Nat)}
    (h : (emplace path id parents).lookup path' = some id') :
    parents.lookup path' = some id' ∨ path = path' ∧ id = id' := by
  rw [lookup_emplace] at h
  split at h
  · next heq =>
      cases hold : parents.lookup path' with
      | some id'' =>
          rw [hold, Option.getD_some] at h
          exact .inl h
      | none =>
          rw [hold, Option.getD_none] at h
          exact .inr ⟨heq, Option.some.inj h⟩
  · exact .inl h

/-- The path of a directory below the root. -/
structure InTree (root : WString) (path : List WString) : Prop where
  below : ∃ names, path = root :: names ∧ ∀ n ∈ names, ValidName n

theorem InTree.joinPath_injective {root : WString} {path path' : List WString} (h : InTree root path)
    (h' : InTree root path') (heq : joinPath path = joinPath path') : path = path' := by
  obtain ⟨names, rfl, hnames⟩ := h.below
  obtain ⟨names', rfl, hnames'⟩ := h'.below
  rw [Spacenet.joinPath_injective (fun n hn => (hnames n hn).2.1) (fun n hn => (hnames' n hn).2.1) heq]

theorem Call.Below.inTree_parts {disk : Disk} {root : WString} {c : Call} (h : c.Below disk [root]) :
    InTree root c.parts := by
  obtain ⟨names, hparts, hvalid⟩ := h.parts
  exact ⟨⟨names, hparts, hvalid⟩⟩

theorem Call.Below.inTree_path {disk : Disk} {root : WString} {c : Call} (h : c.Below disk [root]) :
    InTree root c.path := by
  obtain ⟨names, hparts, hvalid⟩ := h.parts
  refine ⟨⟨names ++ [c.name], by rw [Call.path, hparts]; rfl, ?_⟩⟩
  intro n hn
  rcases List.mem_append.mp hn with hn | hn
  · exact hvalid n hn
  · rw [List.mem_singleton.mp hn]
    exact h.name

theorem Call.Below.parts_ne_nil {disk : Disk} {root : WString} {c : Call} (h : c.Below disk [root]) :
    c.parts ≠ [] := by
  obtain ⟨names, hparts, -⟩ := h.parts
  simp [hparts]

theorem Call.Below.path_ne_root {disk : Disk} {root : WString} {c : Call} (h : c.Below disk [root]) :
    c.path ≠ [root] := by
  obtain ⟨names, hparts, -⟩ := h.parts
  simp [Call.path, hparts]

theorem Call.Below.parts_of_level {disk : Disk} {root : WString} {c : Call} (h : c.Below disk [root])
    (hlevel : ¬c.parts.length > 1) : c.parts = [root] := by
  obtain ⟨names, hparts, -⟩ := h.parts
  rw [hparts] at hlevel ⊢
  cases names with
  | nil => rfl
  | cons n names => simp at hlevel

/-- `parents` leads to the rowids that the paths of the tree lead to. -/
def Index.Located (root : WString) (idx : Index) : Prop :=
  ∀ path, InTree root path → ∀ id, idx.parents.lookup (joinPath path) = some id →
    idx.tables.entries.idAt path = some id

namespace Index.Located

variable {policy : RowidPolicy} {modifiedOnly : Bool} {root : WString} {t t' : Tables} {parents : List (WString × Nat)}

theorem start (root : WString) (t : Tables) : Index.Located root ⟨t, []⟩ := by
  intro path _ id hlookup
  cases hlookup

/-- Tables in which the paths lead where they led. -/
theorem extend (h : Index.Located root ⟨t, parents⟩) (hextends : t.entries.Extends t'.entries) :
    Index.Located root ⟨t', parents⟩ :=
  fun path hpath id hlookup => hextends.idAt (h path hpath id hlookup)

/-- The directory at `path` gets into `parents`. -/
theorem emplace (h : Index.Located root ⟨t, parents⟩) {path : List WString} (hpath : InTree root path) {id : Nat}
    (hid : t.entries.idAt path = some id) : Index.Located root ⟨t, emplace (joinPath path) id parents⟩ := by
  intro path' hpath' id' hlookup
  rcases lookup_emplace_cases hlookup with hknown | ⟨heq, rfl⟩
  · exact h path' hpath' id' hknown
  · obtain rfl := hpath.joinPath_injective hpath' heq
    exact hid

/-- A record in the directory that its path leads to. `parents` may get the path of the entry. -/
theorem record {idx : Index} (h : idx.Located root) {rec : Record} {parentId : Nat}
    (hparent : idx.tables.entries.idAt rec.parts = some parentId) (htree : InTree root rec.path)
    (hparents : parents = idx.parents ∨ parents = Spacenet.emplace (joinPath rec.path)
      (idx.tables.entryId policy modifiedOnly (rec.params parentId) rec.fmtim) idx.parents) :
    Index.Located root ⟨idx.tables.recordAt policy modifiedOnly parentId rec, parents⟩ := by
  have hold : Index.Located root ⟨idx.tables.recordAt policy modifiedOnly parentId rec, idx.parents⟩ :=
    Index.Located.extend h Tables.extends_recordAt
  rcases hparents with rfl | rfl
  · exact hold
  · exact hold.emplace htree (Tables.idAt_recordAt hparent)

end Index.Located

/-- A callback puts the directory of its entry into `parents`, if it puts anything. -/
theorem Record.parentsBehind_cases (rec : Record) (path : WString) (id : Nat) (parents : List (WString × Nat)) :
    rec.parentsBehind path id parents = parents ∨ rec.parentsBehind path id parents = emplace path id parents := by
  unfold Record.parentsBehind
  split
  · exact .inr rfl
  · exact .inl rfl

/-- The index behind records in order, with the directories of the tree that `parents` has. -/
structure Index.Sound (policy : RowidPolicy) (modifiedOnly : Bool) (root : WString)
    (recs : List Record) (t₀ : Tables) (idx : Index) : Prop where
  preorder : Preorder recs
  tables : idx.tables = t₀.recordAll policy modifiedOnly recs
  located : idx.Located root
  known : ∀ path, InTree root path → ∀ id, idx.parents.lookup (joinPath path) = some id →
    ∃ rec ∈ recs, rec.path = path
  rootKnown : recs ≠ [] → (idx.parents.lookup (joinPath [root])).isSome

namespace Index.Sound

variable {policy : RowidPolicy} {modifiedOnly : Bool} {root : WString} {recs : List Record}
  {t₀ : Tables} {idx : Index}

theorem nil (t₀ : Tables) : Index.Sound policy modifiedOnly root [] t₀ ⟨t₀, []⟩ where
  preorder := .nil
  tables := rfl
  located := .start root t₀
  known := fun _ _ _ h => by cases h
  rootKnown := fun h => absurd rfl h

theorem recorded (h : idx.Sound policy modifiedOnly root recs t₀) :
    Recorded modifiedOnly recs t₀ idx.tables :=
  h.tables ▸ Recorded.recordAll h.preorder t₀

/-- A record in the directory that its path leads to. `parents` may get the path of the entry. -/
theorem snoc (h : idx.Sound policy modifiedOnly root recs t₀) (rec : Record) {parentId : Nat}
    (hnew : ∀ rec' ∈ recs, rec'.path ≠ rec.path)
    (hdir : rec.parts = [] ∨ ∃ rec' ∈ recs, rec'.path = rec.parts)
    (hparent : idx.tables.entries.idAt rec.parts = some parentId) (htree : InTree root rec.path)
    {parents : List (WString × Nat)}
    (hparents : parents = idx.parents ∨ parents = emplace (joinPath rec.path)
      (idx.tables.entryId policy modifiedOnly (rec.params parentId) rec.fmtim) idx.parents)
    (hroot : (parents.lookup (joinPath [root])).isSome) :
    Index.Sound policy modifiedOnly root (recs ++ [rec]) t₀
      ⟨idx.tables.recordAt policy modifiedOnly parentId rec, parents⟩ where
  preorder := .snoc h.preorder hnew hdir
  tables := by
    rw [Tables.recordAll_append, ← h.tables]
    simp only [Tables.recordAll, List.foldl_cons, List.foldl_nil, Tables.record, hparent,
      Option.getD_some]
  located := h.located.record hparent htree hparents
  known := by
    intro path hpath id hlookup
    have hold : idx.parents.lookup (joinPath path) = some id → ∃ rec' ∈ recs ++ [rec], rec'.path = path := by
      intro hl
      obtain ⟨rec', hmem, hp⟩ := h.known path hpath id hl
      exact ⟨rec', List.mem_append_left _ hmem, hp⟩
    rcases hparents with rfl | rfl
    · exact hold hlookup
    · rcases lookup_emplace_cases hlookup with hknown | ⟨heq, rfl⟩
      · exact hold hknown
      · obtain rfl := htree.joinPath_injective hpath heq
        exact ⟨rec, List.mem_append_right _ List.mem_cons_self, rfl⟩
  rootKnown := fun _ => hroot

/-- A callback whose directory is in `parents`. -/
theorem enter (h : idx.Sound policy modifiedOnly root recs t₀) {disk : Disk} {c : Call}
    (hbelow : c.Below disk [root]) (hnew : ∀ rec ∈ recs, rec.path ≠ c.path) {parentId : Nat}
    (hlookup : idx.parents.lookup (joinPath c.parts) = some parentId) :
    (idx.enter policy modifiedOnly c parentId).Sound policy modifiedOnly root (recs ++ [c.record])
      t₀ := by
  have hid := h.located c.parts hbelow.inTree_parts parentId hlookup
  obtain ⟨rec, hmem, hpath⟩ := h.known c.parts hbelow.inTree_parts parentId hlookup
  have hroot := h.rootKnown (List.ne_nil_of_mem hmem)
  refine h.snoc c.record hnew (.inr ⟨rec, hmem, hpath⟩) hid hbelow.inTree_path (Record.parentsBehind_cases ..) ?_
  · unfold Record.parentsBehind
    split
    · rw [lookup_emplace]
      split
      · rfl
      · exact hroot
    · exact hroot

/-- The first callback records the root before its entry. -/
theorem enterRoot (h : idx.Sound policy modifiedOnly root [] t₀) :
    (idx.enterRoot policy modifiedOnly root).Sound policy modifiedOnly root [.root root] t₀ := by
  have hjoin : joinPath (Record.root root).path = root := by
    simp [Record.root, Record.path, joinPath, List.intercalate]
  refine h.snoc (.root root) (fun _ h => absurd h List.not_mem_nil) (.inl rfl) rfl
    ⟨⟨[], rfl, by simp⟩⟩ (.inr ?_) ?_
  · rw [hjoin]
    rfl
  · have hjoin' : joinPath [root] = root := hjoin
    rw [hjoin', lookup_emplace, if_pos rfl]
    rfl

/-- The step lemma: a callback that does not throw makes its record. -/
theorem visit {cs : List Call} {c : Call} {idx' : Index} {disk : Disk}
    (h : idx.Sound policy modifiedOnly root (recordsOf root cs) t₀) (hbelow : c.Below disk [root])
    (hnew : ∀ c' ∈ cs, c'.path ≠ c.path) (hvisit : idx.visit policy modifiedOnly c = some idx') :
    idx'.Sound policy modifiedOnly root (recordsOf root (cs ++ [c])) t₀ := by
  have hnewRoot : (Record.root root).path ≠ c.path := hbelow.path_ne_root.symm
  have hnewRec : ∀ rec ∈ recordsOf root cs, rec.path ≠ c.path := by
    intro rec hrec
    rcases mem_recordsOf hrec with rfl | ⟨c', hc', -, rfl⟩
    · exact hnewRoot
    · exact hnew c' hc'
  rw [recordsOf_snoc]
  cases Index.visit_cases hvisit with
  | skipped inaccessible =>
      rw [if_neg inaccessible]
      exact h
  | below accessible converts known =>
      rw [if_pos accessible]
      obtain ⟨rec, hmem, -⟩ := h.known c.parts hbelow.inTree_parts _ known
      rw [if_neg (List.ne_nil_of_mem hmem)]
      exact h.enter hbelow hnewRec known
  | first accessible converts unknown level =>
      rw [if_pos accessible]
      -- the root is not in `parents`, so nothing is recorded yet
      have hparts : c.parts = [root] := hbelow.parts_of_level level
      rw [hparts] at unknown
      have hnil : recordsOf root cs = [] := by
        by_contra hne
        have := h.rootKnown hne
        rw [unknown] at this
        cases this
      rw [hnil] at h ⊢
      rw [if_pos rfl]
      have hjoin : joinPath c.parts = root := by
        simp [hparts, joinPath, List.intercalate]
      rw [hjoin]
      refine h.enterRoot.enter hbelow ?_ ?_
      · intro rec hrec
        rw [List.mem_singleton.mp hrec]
        exact hnewRoot
      · have hjoin' : joinPath [root] = root := joinPath_singleton _
        rw [hjoin'] at unknown
        simp only [Index.enterRoot]
        rw [hjoin, lookup_emplace, if_pos rfl, unknown, Option.getD_none]

end Index.Sound

/-- A callback keeps what `parents` leads to. -/
theorem Index.Located.visit {policy : RowidPolicy} {modifiedOnly : Bool} {root : WString} {disk : Disk} {c : Call}
    {idx idx' : Index} (h : idx.Located root) (hbelow : c.Below disk [root])
    (hvisit : idx.visit policy modifiedOnly c = some idx') : idx'.Located root := by
  cases Index.visit_cases hvisit with
  | skipped inaccessible => exact h
  | below accessible converts known =>
      exact h.record (h _ hbelow.inTree_parts _ known) hbelow.inTree_path (Record.parentsBehind_cases ..)
  | first accessible converts unknown level =>
      have hparts : c.parts = [root] := hbelow.parts_of_level level
      rw [hparts, joinPath_singleton]
      have hroot : (idx.enterRoot policy modifiedOnly root).Located root := by
        refine h.record rfl ⟨⟨[], rfl, by simp⟩⟩ (.inr ?_)
        simp only [Record.root, Record.path, List.nil_append, joinPath_singleton]
      refine hroot.record ?_ hbelow.inTree_path (Record.parentsBehind_cases ..)
      rw [Call.record, hparts]
      exact Tables.idAt_recordAt rfl

/-- The callbacks of a list in order. -/
def Index.visitAll (policy : RowidPolicy) (modifiedOnly : Bool) (cs : List Call) (idx : Index) :
    Option Index :=
  cs.foldlM (fun idx c => idx.visit policy modifiedOnly c) idx

theorem Index.visitAll_cons {policy : RowidPolicy} {modifiedOnly : Bool} {c : Call} {idx idx' : Index}
    (h : idx.visit policy modifiedOnly c = some idx') (cs : List Call) :
    idx.visitAll policy modifiedOnly (c :: cs) = idx'.visitAll policy modifiedOnly cs := by
  simp only [visitAll, List.foldlM_cons, h]
  rfl

theorem Index.visitAll_append (policy : RowidPolicy) (modifiedOnly : Bool) (cs cs' : List Call)
    (idx : Index) :
    idx.visitAll policy modifiedOnly (cs ++ cs') =
      (idx.visitAll policy modifiedOnly cs).bind fun idx' => idx'.visitAll policy modifiedOnly cs' :=
  List.foldlM_append

/-- The run lemma: the callbacks of a run make their records. -/
theorem Index.visitAll_sound {policy : RowidPolicy} {modifiedOnly : Bool} {root : WString} {disk : Disk}
    {cs : List Call} (hbelow : ∀ c ∈ cs, c.Below disk [root])
    (hpaths : cs.Pairwise (fun c c' => c.path ≠ c'.path)) (t₀ : Tables) {idx : Index}
    (hvisit : Index.visitAll policy modifiedOnly cs ⟨t₀, []⟩ = some idx) :
    idx.Sound policy modifiedOnly root (recordsOf root cs) t₀ := by
  induction cs using List.reverseRecOn generalizing idx with
  | nil =>
      obtain rfl := Option.some.inj hvisit
      exact .nil t₀
  | append_singleton cs c ih =>
      rw [Index.visitAll_append] at hvisit
      obtain ⟨idx', hcs, hc⟩ := Option.bind_eq_some_iff.mp hvisit
      obtain ⟨hpaths', -, hnew⟩ := List.pairwise_append.mp hpaths
      have hsound := ih (fun c' hc' => hbelow c' (List.mem_append_left _ hc')) hpaths' hcs
      refine hsound.visit (hbelow c (List.mem_append_right _ List.mem_cons_self))
        (fun c' hc' => hnew c' hc' c List.mem_cons_self) ?_
      simpa [Index.visitAll] using hc

end Spacenet
