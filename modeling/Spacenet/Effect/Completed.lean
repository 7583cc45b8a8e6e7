-- SUMMARY: The tables behind a run that has swept: the rows of the recorded paths, and the marked rows that no record reaches.
import Spacenet.Effect.Outcome

/-!
# Completed runs

The sweep keeps the marked rows. A marked row is the row of a record, or it was
marked when the run began. The path of a record leads to the same row before and
behind the sweep, because the directories of a record are recorded themselves.
-/

namespace Spacenet

open UniqueKey

theorem Preorder.dir {recs : List Record} (h : Preorder recs) :
    ∀ rec ∈ recs, rec.parts = [] ∨ ∃ rec' ∈ recs, rec'.path = rec.parts := by
  induction h with
  | nil =>
      intro rec hrec
      cases hrec
  | @snoc recs rec _ _ hdir ih =>
      intro rec' hrec'
      have hlater : ∀ parts : List WString, (∃ rec'' ∈ recs, rec''.path = parts) →
          ∃ rec'' ∈ recs ++ [rec], rec''.path = parts := by
        rintro parts ⟨rec'', hmem, hpath⟩
        exact ⟨rec'', List.mem_append_left _ hmem, hpath⟩
      rcases List.mem_append.mp hrec' with hmem | hmem
      · exact (ih rec' hmem).imp_right (hlater _)
      · obtain rfl := List.mem_singleton.mp hmem
        exact hdir.imp_right (hlater _)

/-- A row behind the last statement of the sweep. -/
def EntryRow.revived (r : EntryRow) : EntryRow := { r with isAlive := 1 }

namespace Tables

variable {t : Tables} {path : List WString}

theorem mem_sweep {r : EntryRow} :
    r ∈ t.sweep.entries.rows ↔ ∃ s ∈ t.entries.rows, s.isAlive = 0 ∧ r = s.revived :=
  Entries.mem_sweep

theorem find_sweep {parentId : Nat} {name : WString} {s : EntryRow}
    (h : t.entries.find parentId name = some s) (hmarked : s.isAlive = 0) :
    t.sweep.entries.find parentId name = some s.revived := by
  have := @Entries.find_sweep t.entries parentId name
  rw [h, Option.filter_some, if_pos (decide_eq_true hmarked)] at this
  exact this

/-- The block rows of a row that the sweep keeps. -/
theorem mem_sweep_blocks {s : EntryRow} (hs : s ∈ t.entries.rows) (hmarked : s.isAlive = 0)
    {b : BlockRow} (hb : b.entryId = s.rowid) :
    b ∈ t.sweep.blocksDigests.rows ↔ b ∈ t.blocksDigests.rows := by
  have hkept : s.rowid ∉ t.entries.unmarked := by
    intro hid
    obtain ⟨s', hs', halive, hrowid⟩ := Entries.mem_unmarked.mp hid
    obtain rfl := t.entries.rowidUnique.eq_of_key hs' hs hrowid
    exact halive hmarked
  have hmem : b ∈ t.sweep.blocksDigests.rows ↔
      b ∈ t.blocksDigests.rows ∧ b.entryId ∉ t.entries.unmarked := Blocks.mem_deleteEntries
  rw [hmem, hb]
  exact and_iff_left hkept

/-- Every path that leads to a row behind the sweep led to it before. -/
theorem rowAt_of_sweep {r : EntryRow} (h : t.sweep.entries.rowAt path = some r) :
    ∃ s, t.entries.rowAt path = some s ∧ s.isAlive = 0 ∧ r = s.revived := by
  induction path using List.reverseRecOn generalizing r with
  | nil => cases h
  | append_singleton parts name ih =>
      rw [Entries.rowAt_append] at h
      obtain ⟨id, hid, hfind⟩ := Entries.rowIn_eq_some.mp h
      have hparent : t.entries.idAt parts = some id := by
        cases parts using List.reverseRecOn with
        | nil => exact hid
        | append_singleton parts' name' =>
            rw [Entries.idAt_append] at hid
            obtain ⟨p, hp, rfl⟩ := Option.map_eq_some_iff.mp hid
            rw [← Entries.rowAt_append] at hp
            obtain ⟨p', hp', -, rfl⟩ := ih hp
            have hparent := Entries.idAt_of_rowAt hp'
            exact hparent
      obtain ⟨hr, hkey⟩ := Entries.find_eq_some.mp hfind
      obtain ⟨s, hs, hmarked, rfl⟩ := mem_sweep.mp hr
      have hfind' : t.entries.find id name = some s := Entries.find_eq_some.mpr ⟨hs, hkey⟩
      exact ⟨s, Entries.rowAt_of_find hparent hfind', hmarked, rfl⟩

end Tables

namespace Recorded

variable {modifiedOnly : Bool} {recs : List Record} {t₀ t : Tables}

/-- The row of a recorded path is marked. -/
theorem rowAt_marked (h : Recorded modifiedOnly recs t₀ t) {rec : Record} (hrec : rec ∈ recs) :
    ∃ r, t.entries.rowAt rec.path = some r ∧ r.isAlive = 0 := by
  obtain ⟨parentId, rowid, -, hrow⟩ := h.rowAt_path hrec
  exact ⟨_, hrow, Record.row_isAlive⟩

/-- A row that is not of a recorded path is as it was. -/
theorem row_cases (h : Recorded modifiedOnly recs t₀ t) {r : EntryRow} (hr : r ∈ t.entries.rows) :
    (∃ rec ∈ recs, t.entries.rowAt rec.path = some r) ∨ r ∈ t₀.entries.rows := by
  have hfind : t.entries.find r.parentId r.name = some r :=
    Entries.find_eq_some.mpr ⟨hr, rfl, rfl⟩
  by_cases hrec : ∀ rec ∈ recs, t.entries.idAt rec.parts = some r.parentId → rec.name ≠ r.name
  · right
    rw [h.others _ _ hrec] at hfind
    exact (Entries.find_eq_some.mp hfind).1
  · left
    push Not at hrec
    obtain ⟨rec, hmem, hid, hname⟩ := hrec
    refine ⟨rec, hmem, Entries.rowAt_of_find hid ?_⟩
    rw [hname]
    exact hfind

/-- The id of a recorded path is the same behind the sweep. -/
theorem idAt_sweep (h : Recorded modifiedOnly recs t₀ t) (hpre : Preorder recs) {path : List WString}
    (hpath : path = [] ∨ ∃ rec ∈ recs, rec.path = path) :
    t.sweep.entries.idAt path = t.entries.idAt path := by
  induction path using List.reverseRecOn with
  | nil => rfl
  | append_singleton parts name ih =>
      rcases hpath with hnil | ⟨rec, hrec, hpath⟩
      · simp at hnil
      · obtain ⟨rfl, hname⟩ := List.append_inj' hpath rfl
        obtain ⟨parentId, rowid, hid, hfind⟩ := h.recorded rec hrec
        have hparent := ih (hpre.dir rec hrec)
        have hsweep := Tables.find_sweep hfind Record.row_isAlive
        have hrow := Entries.rowAt_of_find hid hfind
        have hrow' := Entries.rowAt_of_find (hparent.trans hid) hsweep
        rw [← hpath, Record.path, Entries.idAt_of_rowAt hrow, Entries.idAt_of_rowAt hrow']
        rfl

/-- The row of a recorded path behind the sweep. -/
theorem rowAt_sweep (h : Recorded modifiedOnly recs t₀ t) (hpre : Preorder recs) {rec : Record}
    (hrec : rec ∈ recs) {r : EntryRow} (hrow : t.entries.rowAt rec.path = some r) :
    t.sweep.entries.rowAt rec.path = some r.revived := by
  obtain ⟨s, hs, hmarked⟩ := h.rowAt_marked hrec
  obtain rfl : r = s := Option.some.inj (hrow.symm.trans hs)
  rw [Record.path, Entries.rowAt_append] at hrow
  obtain ⟨id, hid, hfind⟩ := Entries.rowIn_eq_some.mp hrow
  have hparent := h.idAt_sweep hpre (hpre.dir rec hrec)
  exact Entries.rowAt_of_find (hparent.trans hid) (Tables.find_sweep hfind hmarked)

/-- When no row was marked at the beginning, the sweep leaves the rows of the recorded paths alone. -/
theorem row_of_sweep (h : Recorded modifiedOnly recs t₀ t) (hpre : Preorder recs)
    (halive : ∀ r ∈ t₀.entries.rows, r.isAlive ≠ 0) {r : EntryRow}
    (hr : r ∈ t.sweep.entries.rows) :
    ∃ rec ∈ recs, t.sweep.entries.rowAt rec.path = some r := by
  obtain ⟨s, hs, hmarked, rfl⟩ := Tables.mem_sweep.mp hr
  rcases h.row_cases hs with ⟨rec, hrec, hrow⟩ | hold
  · exact ⟨rec, hrec, h.rowAt_sweep hpre hrec hrow⟩
  · exact absurd hmarked (halive s hold)

/-- A row keeps its rowid when its path is recorded. -/
theorem rowid_sweep (h : Recorded modifiedOnly recs t₀ t) {path : List WString} {r₀ r : EntryRow}
    (hrow₀ : t₀.entries.rowAt path = some r₀) (hrow : t.sweep.entries.rowAt path = some r) :
    r.rowid = r₀.rowid := by
  obtain ⟨s, hs, -, rfl⟩ := Tables.rowAt_of_sweep hrow
  have hid := h.entries_extends.idAt (Entries.idAt_of_rowAt hrow₀)
  exact Option.some.inj ((Entries.idAt_of_rowAt hs).symm.trans hid)

/-- Where every row has a path, the row stored under the key of a record is the one that its path led
to. -/
theorem find_eq_rowAt (h : Recorded modifiedOnly recs t₀ t)
    (hlinked : ∀ r ∈ t₀.entries.rows, ∃ path, t₀.entries.rowAt path = some r) {rec : Record}
    {parentId : Nat} (hid : t.entries.idAt rec.parts = some parentId) :
    t₀.entries.find parentId rec.name = t₀.entries.rowAt rec.path := by
  cases hfind : t₀.entries.find parentId rec.name with
  | some r =>
      obtain ⟨hr, hparent, hname⟩ := Entries.find_eq_some.mp hfind
      obtain ⟨path, hpath⟩ := hlinked r hr
      cases path using List.reverseRecOn with
      | nil => cases hpath
      | append_singleton parts name =>
          have hrow := hpath
          rw [Entries.rowAt_append] at hrow
          obtain ⟨id, hid', hfind'⟩ := Entries.rowIn_eq_some.mp hrow
          obtain ⟨-, hparent', hname'⟩ := Entries.find_eq_some.mp hfind'
          obtain rfl : id = parentId := hparent'.symm.trans hparent
          have hparts := Entries.idAt_injective (h.entries_extends.idAt hid') hid
          rw [Record.path, ← hparts, ← hname, hname', hpath]
  | none =>
      cases hrow : t₀.entries.rowAt rec.path with
      | none => rfl
      | some r =>
          rw [Record.path, Entries.rowAt_append] at hrow
          obtain ⟨id, hid', hfind'⟩ := Entries.rowIn_eq_some.mp hrow
          obtain rfl : id = parentId := Option.some.inj ((h.entries_extends.idAt hid').symm.trans hid)
          rw [hfind] at hfind'
          cases hfind'

/-- The row that a record leaves behind the sweep. -/
theorem swept (h : Recorded modifiedOnly recs t₀ t) (hpre : Preorder recs)
    (hlinked : ∀ r ∈ t₀.entries.rows, ∃ path, t₀.entries.rowAt path = some r) {rec : Record}
    (hrec : rec ∈ recs) : ∃ parentId rowid, t.sweep.entries.rowAt rec.path =
      some (rec.row modifiedOnly parentId rowid (t₀.entries.rowAt rec.path)).revived := by
  obtain ⟨parentId, rowid, hid, hrow⟩ := h.rowAt_path hrec
  have hfind := h.find_eq_rowAt hlinked hid
  refine ⟨parentId, rowid, ?_⟩
  rw [← hfind]
  exact h.rowAt_sweep hpre hrec hrow

end Recorded

/-! ## The visits of a run -/

/-- The events that a walk passes make their records. -/
theorem Visited.sound {env : Env} {t : Tree} {root : WString} {pre post : List Event} {t₀ : Tables}
    {idx : Index} (hevents : t.events indexReader root = pre ++ post)
    (h : Visited env ⟨t₀, []⟩ 0 pre idx) :
    idx.Sound env.sql.policy env.modifiedOnly root (recordsOf root (callsOf pre)) t₀ := by
  have hbelow := t.calls_below indexReader root
  have hpairwise := t.calls_pairwise indexReader root
  rw [hevents, callsOf_append] at hbelow hpairwise
  refine Index.visitAll_sound (fun c hc => hbelow c (List.mem_append_left _ hc)) ?_ t₀ h.visit
  exact (List.pairwise_append.mp hpairwise).1

instance (e : Event) : Decidable e.Passes := by
  unfold Event.Passes
  split <;> infer_instance

/-- The events up to the first that ends the walk. -/
def passedOf (es : List Event) : List Event := es.takeWhile fun e => e.Passes

theorem passedOf_append {pre post : List Event} (hpre : ∀ e ∈ pre, e.Passes)
    (hpost : ∀ e ∈ post.head?, ¬e.Passes) : passedOf (pre ++ post) = pre := by
  induction pre with
  | nil =>
      cases post with
      | nil => rfl
      | cons e post =>
          have hnot := hpost e rfl
          simp [passedOf, hnot]
  | cons e pre ih =>
      have hpasses := hpre e List.mem_cons_self
      have htail := ih (fun e' he' => hpre e' (List.mem_cons_of_mem _ he'))
      simp only [passedOf] at htail
      simp [passedOf, hpasses, htail]

/-- A run that returns and sees no shutdown has visited what its walk passes, and has swept. -/
theorem Outcome.visited {env : Env} {es : List Event} {t₀ : Tables} {db : Db}
    (h : Outcome env es t₀ (.ok () db)) (hrun : ∀ i, env.shutdown i = false) :
    ∃ idx, Visited env ⟨t₀, []⟩ 0 (passedOf es) idx ∧ db.committed = idx.tables.sweep := by
  cases h with
  | @completed pre post idx _ events visited ended swept tables =>
      refine ⟨idx, ?_, tables⟩
      have hpassed : passedOf es = pre := by
        rw [events]
        refine passedOf_append visited.passes ?_
        intro e he
        cases ended with
        | through => cases he
        | vanished path post =>
            obtain rfl := Option.some.inj he
            exact fun hpasses => hpasses
        | aborted c post shutdown =>
            rw [hrun] at shutdown
            cases shutdown
      exact hpassed ▸ visited

theorem passedOf_isPrefix (es : List Event) : es = passedOf es ++ es.dropWhile fun e => e.Passes :=
  List.takeWhile_append_dropWhile.symm

end Spacenet
