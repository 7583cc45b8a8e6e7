-- SUMMARY: Lists of records that are unique in a key: lookup, insertion, update in place and deletion.
import Mathlib.Data.List.Nodup

/-!
# Records unique in a key

A table is a list of records in which no two records have the same key. The
lemmas say what appending, rewriting and deleting records does to the key and
to a lookup by key.
-/

namespace UniqueKey

variable {α κ : Type} (key : α → κ)

/-- No two records of the list have the same key. -/
def Unique (rows : List α) : Prop := (rows.map key).Nodup

instance [DecidableEq κ] (rows : List α) : Decidable (Unique key rows) :=
  inferInstanceAs (Decidable (rows.map key).Nodup)

theorem Unique.nil : Unique key [] := List.nodup_nil

variable {key}

theorem Unique.eq_of_key {rows : List α} (h : Unique key rows) {r s : α}
    (hr : r ∈ rows) (hs : s ∈ rows) (hk : key r = key s) : r = s :=
  List.inj_on_of_nodup_map h hr hs hk

theorem Unique.append {rows : List α} (h : Unique key rows) {a : α}
    (ha : ∀ r ∈ rows, key r ≠ key a) : Unique key (rows ++ [a]) := by
  unfold Unique at h ⊢
  rw [List.map_append, List.nodup_append]
  refine ⟨h, List.nodup_singleton _, ?_⟩
  intro k hk k' hk' heq
  obtain ⟨r, hr, rfl⟩ := List.mem_map.mp hk
  rw [List.map_singleton, List.mem_singleton] at hk'
  exact ha r hr (heq.trans hk')

theorem Unique.map {rows : List α} (h : Unique key rows) {f : α → α}
    (hf : ∀ r, key (f r) = key r) : Unique key (rows.map f) := by
  unfold Unique at h ⊢
  rwa [List.map_map, show key ∘ f = key from funext hf]

theorem Unique.filter {rows : List α} (h : Unique key rows) (p : α → Bool) :
    Unique key (rows.filter p) :=
  List.Nodup.sublist (List.filter_sublist.map key) h

/-! ## Rewriting the records that a test selects -/

/-- Rewrite the records that `p` selects. -/
def modify (p : α → Bool) (f : α → α) (rows : List α) : List α :=
  rows.map (fun r => if p r then f r else r)

theorem mem_modify {p : α → Bool} {f : α → α} {rows : List α} {s : α} :
    s ∈ modify p f rows ↔ ∃ r ∈ rows, (if p r then f r else r) = s :=
  List.mem_map

/-- A record more, whose key `k` no record has. -/
theorem mem_append_new {rows : List α} {k : κ} (hk : ∀ r ∈ rows, key r ≠ k) {a s : α} :
    s ∈ rows ++ [a] ↔ (s ∈ rows ∧ key s ≠ k) ∨ s = a := by
  rw [List.mem_append, List.mem_singleton]
  constructor
  · rintro (hs | ha)
    · exact .inl ⟨hs, hk s hs⟩
    · exact .inr ha
  · rintro (⟨hs, -⟩ | ha)
    · exact .inl hs
    · exact .inr ha

/-- When `p` selects one record, the others are those with another key. -/
theorem Unique.mem_modify_one {rows : List α} (h : Unique key rows) {r : α} (hr : r ∈ rows) {k : κ}
    (hk : key r = k) {p : α → Bool} (hp : ∀ q ∈ rows, p q = true ↔ q = r) {f : α → α} {s : α} :
    s ∈ UniqueKey.modify p f rows ↔ (s ∈ rows ∧ key s ≠ k) ∨ s = f r := by
  rw [mem_modify]
  constructor
  · rintro ⟨q, hq, rfl⟩
    by_cases hqr : q = r
    · rw [if_pos ((hp q hq).mpr hqr), hqr]
      exact .inr rfl
    · rw [if_neg (fun hsel => hqr ((hp q hq).mp hsel))]
      exact .inl ⟨hq, fun hkey => hqr (h.eq_of_key hq hr (hkey.trans hk.symm))⟩
  · rintro (⟨hs, hkey⟩ | rfl)
    · refine ⟨s, hs, if_neg (fun hsel => hkey ?_)⟩
      rw [(hp s hs).mp hsel]
      exact hk
    · exact ⟨r, hr, if_pos ((hp r hr).mpr rfl)⟩

/-- When `p` selects a key, it selects the record with that key. -/
theorem Unique.mem_modify_key {rows : List α} (h : Unique key rows) {r : α} (hr : r ∈ rows) {k : κ}
    (hk : key r = k) {p : α → Bool} (hp : ∀ q, p q = true ↔ key q = k) {f : α → α} {s : α} :
    s ∈ UniqueKey.modify p f rows ↔ (s ∈ rows ∧ key s ≠ k) ∨ s = f r := by
  refine h.mem_modify_one hr hk (fun q hq => (hp q).trans ⟨fun hkey => ?_, fun hqr => ?_⟩)
  · exact h.eq_of_key hq hr (hkey.trans hk.symm)
  · rw [hqr]
    exact hk

theorem Unique.modify {rows : List α} (h : Unique key rows) {p : α → Bool} {f : α → α}
    (hf : ∀ r, p r → key (f r) = key r) : Unique key (modify p f rows) := by
  refine h.map (fun r => ?_)
  split
  · exact hf r ‹_›
  · rfl

/-! ## Lookup by key -/

variable [DecidableEq κ]

/-- The record with a key. -/
def lookup (key : α → κ) (k : κ) (rows : List α) : Option α :=
  rows.find? (fun r => key r = k)

@[simp] theorem lookup_nil (k : κ) : lookup key k [] = none := rfl

theorem lookup_mem {rows : List α} {k : κ} {r : α} (h : lookup key k rows = some r) : r ∈ rows :=
  List.mem_of_find?_eq_some h

theorem lookup_key {rows : List α} {k : κ} {r : α} (h : lookup key k rows = some r) :
    key r = k := by
  simpa using List.find?_some h

theorem lookup_eq_none {rows : List α} {k : κ} :
    lookup key k rows = none ↔ ∀ r ∈ rows, key r ≠ k := by
  simp [lookup, List.find?_eq_none]

theorem Unique.lookup_eq_some {rows : List α} (h : Unique key rows) {k : κ} {r : α} :
    lookup key k rows = some r ↔ r ∈ rows ∧ key r = k := by
  constructor
  · intro hl
    exact ⟨lookup_mem hl, lookup_key hl⟩
  · rintro ⟨hr, hk⟩
    cases hl : lookup key k rows with
    | none => exact absurd hk (lookup_eq_none.mp hl r hr)
    | some r' => rw [h.eq_of_key (lookup_mem hl) hr ((lookup_key hl).trans hk.symm)]

theorem lookup_map {rows : List α} {k : κ} {f : α → α} (hf : ∀ r, key (f r) = key r) :
    lookup key k (rows.map f) = (lookup key k rows).map f := by
  simp only [lookup, List.find?_map, Function.comp_def, hf]

theorem Unique.lookup_filter {rows : List α} (h : Unique key rows) {k : κ} (p : α → Bool) :
    lookup key k (rows.filter p) = (lookup key k rows).filter p := by
  cases hl : lookup key k rows with
  | none =>
      rw [Option.filter_none, lookup_eq_none]
      intro r hr
      exact lookup_eq_none.mp hl r (List.mem_filter.mp hr).1
  | some r =>
      by_cases hp : p r
      · rw [Option.filter_some_pos hp, (h.filter p).lookup_eq_some]
        exact ⟨List.mem_filter.mpr ⟨lookup_mem hl, hp⟩, lookup_key hl⟩
      · rw [Option.filter_some_neg (by simpa using hp), lookup_eq_none]
        intro s hs hk
        obtain ⟨hs, hps⟩ := List.mem_filter.mp hs
        have : s = r := h.eq_of_key hs (lookup_mem hl) (hk.trans (lookup_key hl).symm)
        exact hp (this ▸ hps)

theorem lookup_modify {rows : List α} {k : κ} {p : α → Bool} {f : α → α}
    (hf : ∀ r, p r → key (f r) = key r) :
    lookup key k (modify p f rows) = (lookup key k rows).map (fun r => if p r then f r else r) := by
  refine lookup_map (fun r => ?_)
  split
  · exact hf r ‹_›
  · rfl

end UniqueKey
