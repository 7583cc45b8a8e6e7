-- SUMMARY: A recursive walk without errors is a pre-order traversal of the tree.
import Spacenet.Correctness.Vanishing
import Spacenet.Preorder

/-!
# The traversal

With `recursive_` and `list_directories_` set and without a limit of the depth,
the callback is invoked for the entries of the tree whose names match, once each
and in pre-order. Only an exception of the callback itself can cut the walk short.
-/

namespace Spacenet

variable {σ : Type}

/-- The callback has been invoked for these entries, in this order. If it has thrown, the walk ends at
that entry. -/
def ReadResult.Visits (r : ReadResult (σ × List Seen)) (m : Manipulator σ) (entries : List TreeEntry) :
    Prop :=
  match r with
  | .ok _ st => st.user.2 = entries.map TreeEntry.seen
  | .error e st =>
      st.user.2 <+: entries.map TreeEntry.seen ∧
        ∃ dr lastError user sh, m dr ⟨false, lastError, user⟩ = .error e sh

theorem observations_isPrefix {α : Type} {f : DirectoryReader → α} {o : DirectoryReader}
    {calls pre post : List Call} {c : Call} (hsplit : calls = pre ++ c :: post) :
    observations f o (pre ++ [c]) <+: observations f o calls := by
  refine ⟨observations f o post, ?_⟩
  rw [hsplit, List.append_cons pre c post]
  exact List.map_append.symm

/-- The result of an observed walk whose callback never sets `abort_`. -/
theorem Observed.visits {m : Manipulator σ} {o : DirectoryReader} {calls : List Call}
    {entries : List TreeEntry} {out : WalkEnd (σ × List Seen)} {r : ReadResult (σ × List Seen)}
    (hm : NeverAborts m) (h : Observed DirectoryReader.seen m o calls [] out) (hgives : out.Gives r)
    (hentries : observations DirectoryReader.seen o calls = entries.map TreeEntry.seen) :
    r.Visits m entries := by
  cases h with
  | through =>
      obtain ⟨st, rfl, huser⟩ := hgives
      show st.user.2 = _
      rw [huser, List.nil_append, hentries]
  | aborted split call abort =>
      have := hm _ _ _ _ call
      rw [abort] at this
      cases this
  | threw split call =>
      obtain ⟨st, rfl, huser⟩ := hgives
      refine ⟨?_, _, _, _, _, call⟩
      rw [huser, List.nil_append, ← hentries]
      exact observations_isPrefix split

variable {o : DirectoryReader} {m : Manipulator σ}

theorem plainTree_readable : plainTree.Readable :=
  ⟨DirInfo.plain_readable, DirInfo.plain_readable, trivial, trivial⟩

end Spacenet
