/-
# Tables

A table is the list of its rows.  `update` and `upsert` are the statements
`UPDATE … WHERE …` and `INSERT … ON CONFLICT … DO UPDATE … RETURNING …`; the second
may fail, when the updated row violates a constraint.
-/
import Mathlib.Data.List.Nodup

namespace Table

variable {α κ : Type*} {p : α → Bool} {f : α → α} {rows : List α} {r : α}

/-! ## Updates -/

/-- Change the rows that satisfy `p`. -/
def update (p : α → Bool) (f : α → α) (rows : List α) : List α :=
  rows.map fun r => if p r then f r else r

theorem mem_update : r ∈ update p f rows ↔ ∃ r' ∈ rows, (if p r' then f r' else r') = r :=
  List.mem_map

theorem mem_update_of_mem (h : r ∈ rows) : (if p r then f r else r) ∈ update p f rows :=
  mem_update.mpr ⟨r, h, rfl⟩

/-- An update that keeps a column keeps all of its values. -/
theorem map_update {key : α → κ} (h : ∀ r, key (f r) = key r) :
    (update p f rows).map key = rows.map key := by
  rw [update, List.map_map]
  refine List.map_congr_left fun r _ => ?_
  show key (if p r then f r else r) = key r
  split_ifs
  · exact h r
  · rfl

/-- A column with different values tells the rows apart. -/
theorem eq_of_nodup {key : α → κ} (hnodup : (rows.map key).Nodup) {r r' : α} (hr : r ∈ rows)
    (hr' : r' ∈ rows) (h : key r = key r') : r = r' :=
  List.inj_on_of_nodup_map hnodup hr hr' h

/-! ## Inserts that may conflict -/

/-- Insert `new`, or change the row that satisfies `p`; with the resulting row and
whether it was inserted. -/
def upsert (p : α → Bool) (new : α) (f : α → Option α) (rows : List α) :
    Option (List α × α × Bool) :=
  match rows.find? p with
  | none => some (rows ++ [new], new, true)
  | some r => (f r).map fun r' => (update p (fun _ => r') rows, r', false)

/-- An upsert fails when the row cannot be changed. -/
theorem isSome_upsert (p : α → Bool) (new : α) (f : α → Option α) (rows : List α) :
    (upsert p new f rows).isSome = true ↔ ∀ r ∈ rows.find? p, (f r).isSome = true := by
  unfold upsert
  cases rows.find? p with
  | none => exact iff_of_true rfl fun r hr => absurd hr (Option.not_mem_none r)
  | some r =>
    dsimp only
    rw [Option.isSome_map]
    exact ⟨fun h r' hr' => Option.some.inj hr' ▸ h, fun h => h r rfl⟩

/-- What a successful upsert has done. -/
theorem upsert_cases {new row : α} {f : α → Option α} {rows' : List α} {inserted : Bool}
    (h : upsert p new f rows = some (rows', row, inserted)) :
    ((∀ r ∈ rows, ¬ p r = true) ∧ rows' = rows ++ [new] ∧ row = new ∧ inserted = true) ∨
      ∃ r ∈ rows, p r = true ∧ f r = some row ∧ rows' = update p (fun _ => row) rows ∧
        inserted = false := by
  unfold upsert at h
  cases hfind : rows.find? p with
  | none =>
    rw [hfind] at h
    obtain ⟨rfl, rfl, rfl⟩ : rows ++ [new] = rows' ∧ new = row ∧ true = inserted := by
      simpa using h
    exact Or.inl ⟨List.find?_eq_none.mp hfind, rfl, rfl, rfl⟩
  | some r =>
    rw [hfind] at h
    obtain ⟨r', hr', heq⟩ := Option.map_eq_some_iff.mp h
    obtain ⟨rfl, rfl, rfl⟩ : update p (fun _ => r') rows = rows' ∧ r' = row ∧ false = inserted := by
      simpa using heq
    exact Or.inr ⟨r, List.mem_of_find?_eq_some hfind, List.find?_some hfind, hr', rfl, rfl⟩

end Table
