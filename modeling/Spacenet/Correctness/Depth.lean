-- SUMMARY: The limit of the depth lets the callbacks of one level through that is deeper than `max_level_`.
import Spacenet.Correctness.Traversal

/-!
# The limit of the depth

`read` tests the height of the stack before it goes into a directory, but
publishes the height and one as the level of the entries. So it invokes the
callback for the entries of the level behind `max_level_`, too.
-/

namespace Spacenet

variable {σ : Type}

/-- The callback always returns, and it never sets `abort_`. -/
def GoesOn (m : Manipulator σ) : Prop :=
  ∀ dr lastError user, ∃ lastError' user',
    m dr ⟨false, lastError, user⟩ = .ok () ⟨false, lastError', user'⟩

theorem GoesOn.neverAborts {m : Manipulator σ} (hm : GoesOn m) : NeverAborts m := by
  intro dr lastError user sh h
  obtain ⟨lastError', user', hok⟩ := hm dr lastError user
  obtain ⟨-, rfl⟩ := EStateM.Result.ok.inj (hok.symm.trans h)
  rfl

/-- Where the callback goes on, the walk returns. -/
theorem GoesOn.visits {m : Manipulator σ} (hm : GoesOn m) {r : ReadResult (σ × List Seen)}
    {entries : List TreeEntry} (h : r.Visits m entries) :
    ∃ st, r = .ok () st ∧ st.user.2 = entries.map TreeEntry.seen := by
  cases r with
  | ok _ st => exact ⟨st, rfl, h⟩
  | error e st =>
      obtain ⟨-, dr, lastError, user, sh, hthrow⟩ := h
      obtain ⟨lastError', user', hok⟩ := hm dr lastError user
      rw [hok] at hthrow
      cases hthrow

variable {o : DirectoryReader} {m : Manipulator σ}

/-- The callbacks of a walk with a limit of the depth, in a tree without errors. -/
theorem read_limited {t : Tree} (ht : t.Readable) (hrec : o.recursive = true)
    (hlist : o.listDirectories = true) (hdot : o.listDot = false) (hdotdot : o.listDotdot = false)
    (hm : GoesOn m) (path : WString) (win : Win32) (user : σ) :
    ∃ fuel st, o.read fuel (t.disk (rootPath path)) (some (observing DirectoryReader.seen m)) path win
        (user, []) = some (.ok () st) ∧
      st.user.2 = ((t.preorder (rootPath path)).filter o.visits).map TreeEntry.seen := by
  obtain ⟨fuel, r, out, hread, hobserved, hgives⟩ :=
    DirectoryReader.read_observed (f := DirectoryReader.seen) (m := m) ht hdot hdotdot path win user
  have hvisits : r.Visits m ((t.preorder (rootPath path)).filter o.visits) :=
    hobserved.visits hm.neverAborts hgives (Tree.observations_seen ht hrec hlist _)
  obtain ⟨st, rfl, huser⟩ := hm.visits hvisits
  exact ⟨fuel, st, hread, huser⟩

/-- The entry is within the limit of the depth. -/
def DirectoryReader.within (o : DirectoryReader) (e : TreeEntry) : Bool := e.depth ≤ o.maxLevel

/-- The names within the limit match, and no entry of a matching name is one level deeper. -/
structure DirectoryReader.Limits (o : DirectoryReader) (entries : List TreeEntry) : Prop where
  shown : ∀ e ∈ entries, e.depth ≤ o.maxLevel → o.matchName e.name = true
  hidden : ∀ e ∈ entries, e.depth = o.maxLevel + 1 → o.matchName e.name = false

theorem DirectoryReader.Limits.visits (hmax : 0 < o.maxLevel) {entries : List TreeEntry} (h : o.Limits entries) :
    entries.filter o.visits = entries.filter o.within := by
  apply List.filter_congr
  intro e he
  have hzero : o.maxLevel ≠ 0 := Nat.ne_of_gt hmax
  by_cases hwithin : e.depth ≤ o.maxLevel
  · have hmatch := h.shown e he hwithin
    have hdepth : e.depth ≤ o.maxLevel + 1 := Nat.le_succ_of_le hwithin
    simp [DirectoryReader.visits, within, hmatch, hwithin, hdepth]
  · by_cases hnext : e.depth = o.maxLevel + 1
    · simp [DirectoryReader.visits, within, h.hidden e he hnext, hwithin]
    · have hdepth : ¬e.depth ≤ o.maxLevel + 1 := by omega
      simp [DirectoryReader.visits, within, hzero, hwithin, hdepth]

/-- The reader of the indexer with a limit of the depth. -/
def limitedReader (maxLevel : Nat) : DirectoryReader := { indexReader with maxLevel := maxLevel }

theorem idle_goesOn : GoesOn idle := fun _ lastError _ => ⟨lastError, (), rfl⟩

end Spacenet
