/-
# Positions in a text of lines

`unlines` writes some lines, each with a separator behind it, and `begun` tells which of
them begin before a position.  A reader that stands anywhere in the text gets a whole line,
or the end of a line that has begun before it (`begun_line`).
-/
import ZtMapper.Lib.Lines
import Mathlib.Data.List.Infix

namespace Lines

variable {α : Type*} {sep : α}

/-- The text of some lines. -/
def unlines (sep : α) (ls : List (List α)) : List α := ls.flatMap (· ++ [sep])

/-- The lines that begin before a position. -/
def begun : ℕ → List (List α) → List (List α)
  | _, [] => []
  | p, l :: ls => if p = 0 then [] else l :: begun (p - (l.length + 1)) ls

theorem unlines_append (ls ls' : List (List α)) :
    unlines sep (ls ++ ls') = unlines sep ls ++ unlines sep ls' := List.flatMap_append

theorem unlines_cons (l : List α) (ls : List (List α)) :
    unlines sep (l :: ls) = l ++ sep :: unlines sep ls := by
  simp [unlines]

theorem unlines_singleton (l : List α) : unlines sep [l] = l ++ [sep] := unlines_cons l []

/-- The first line with its separator, and the others. -/
theorem take_unlines_cons (l : List α) (ls : List (List α)) :
    (unlines sep (l :: ls)).take (l.length + 1) = l ++ [sep] := by
  rw [unlines_cons, List.append_cons]
  exact List.take_left' (by rw [List.length_append, List.length_singleton])

theorem drop_unlines_cons (l : List α) (ls : List (List α)) :
    (unlines sep (l :: ls)).drop (l.length + 1) = unlines sep ls := by
  rw [unlines_cons, List.append_cons]
  exact List.drop_left' (by rw [List.length_append, List.length_singleton])

theorem unlines_eq_nil_iff {ls : List (List α)} : unlines sep ls = [] ↔ ls = [] := by
  cases ls with
  | nil => exact iff_of_true rfl rfl
  | cons l ls =>
    rw [unlines_cons]
    exact iff_of_false (by simp) (List.cons_ne_nil l ls)

/-- A text of lines is cut into them. -/
theorem cut_unlines [DecidableEq α] {ls : List (List α)} (h : ∀ l ∈ ls, sep ∉ l) :
    cut sep (unlines sep ls) = (ls, []) := by
  induction ls with
  | nil => rfl
  | cons l ls ih =>
    rw [List.forall_mem_cons] at h
    rw [unlines_cons, cut_line_append h.1, ih h.2]

theorem begun_zero (ls : List (List α)) : begun 0 ls = [] := by
  cases ls with
  | nil => rfl
  | cons l ls => exact if_pos rfl

theorem begun_cons {p : ℕ} (hp : p ≠ 0) (l : List α) (ls : List (List α)) :
    begun p (l :: ls) = l :: begun (p - (l.length + 1)) ls := if_neg hp

theorem begun_isPrefix (p : ℕ) (ls : List (List α)) : begun p ls <+: ls := by
  induction ls generalizing p with
  | nil => exact List.prefix_rfl
  | cons l ls ih =>
    rw [begun]
    split_ifs
    · exact List.nil_prefix
    · exact List.cons_prefix_cons.mpr ⟨rfl, ih _⟩

theorem begun_mono {p q : ℕ} (hpq : p ≤ q) (ls : List (List α)) : begun p ls <+: begun q ls := by
  induction ls generalizing p q with
  | nil => exact List.prefix_rfl
  | cons l ls ih =>
    by_cases hp : p = 0
    · rw [hp, begun_zero]
      exact List.nil_prefix
    · rw [begun_cons hp, begun_cons (by omega)]
      exact List.cons_prefix_cons.mpr ⟨rfl, ih (by omega)⟩

/-- Lines behind the text that the position is in do not begin before it. -/
theorem begun_append {p : ℕ} {ls : List (List α)} (hp : p ≤ (unlines sep ls).length)
    (ls' : List (List α)) : begun p (ls ++ ls') = begun p ls := by
  induction ls generalizing p with
  | nil =>
    rw [Nat.le_zero.mp hp, begun_zero, begun_zero]
  | cons l ls ih =>
    by_cases hzero : p = 0
    · rw [hzero, begun_zero, begun_zero]
    · rw [unlines_cons, List.length_append, List.length_cons] at hp
      rw [List.cons_append, begun_cons hzero, begun_cons hzero, ih (by omega)]

/-- Two texts that agree up to their first separators. -/
theorem eq_of_append_sep_eq {s t x y : List α} (hs : sep ∉ s) (ht : sep ∉ t)
    (h : s ++ sep :: x = t ++ sep :: y) : s = t := by
  rcases List.append_eq_append_iff.mp h with ⟨w, hw, hrest⟩ | ⟨w, hw, hrest⟩
  · cases w with
    | nil => exact (hw.trans (List.append_nil s)).symm
    | cons c w =>
      obtain rfl := (List.cons.inj hrest).1
      exact absurd (hw ▸ List.mem_append_right s List.mem_cons_self) ht
  · cases w with
    | nil => exact hw.trans (List.append_nil t)
    | cons c w =>
      obtain rfl := (List.cons.inj hrest).1
      exact absurd (hw ▸ List.mem_append_right t List.mem_cons_self) hs

/-- **What stands between a position and the next separator** is a whole line, which begins at
the position, or the end of a line that has begun before it. -/
theorem begun_line {ls : List (List α)} {u t v : List α} (hls : ∀ l ∈ ls, sep ∉ l) (ht : sep ∉ t)
    (h : unlines sep ls = u ++ (t ++ sep :: v)) :
    (t ∈ ls ∧ begun (u.length + (t.length + 1)) ls = begun u.length ls ++ [t]) ∨
      ∃ l ∈ ls, ∃ w, w ≠ [] ∧ l = w ++ t := by
  induction ls generalizing u with
  | nil =>
    rw [unlines, List.flatMap_nil] at h
    exact absurd h (by simp)
  | cons l ls ih =>
    rw [List.forall_mem_cons] at hls
    rw [unlines_cons] at h
    -- the position is behind the first line and its separator, or in that line
    have hposition : (∃ u', u = l ++ sep :: u' ∧ unlines sep ls = u' ++ (t ++ sep :: v)) ∨
        ∃ s, l = u ++ s ∧ s ++ sep :: unlines sep ls = t ++ sep :: v := by
      rcases List.append_eq_append_iff.mp h with ⟨w, hu, hrest⟩ | ⟨w, hl, hrest⟩
      · cases w with
        | nil => exact Or.inr ⟨[], by rw [hu]; simp, by simpa using hrest⟩
        | cons c w =>
          obtain ⟨rfl, hrest'⟩ := List.cons.inj hrest
          exact Or.inl ⟨w, hu, hrest'⟩
      · exact Or.inr ⟨w, hl, hrest.symm⟩
    rcases hposition with ⟨u', rfl, hrest⟩ | ⟨s, rfl, hrest⟩
    · rcases ih hls.2 hrest with ⟨hmem, hbegun⟩ | ⟨l', hl', hsuffix⟩
      · refine Or.inl ⟨List.mem_cons_of_mem _ hmem, ?_⟩
        have hlength : (l ++ sep :: u').length = u'.length + (l.length + 1) := by
          rw [List.length_append, List.length_cons]
          omega
        rw [hlength, begun_cons (by omega), begun_cons (by omega), Nat.add_sub_cancel,
          List.cons_append, ← hbegun]
        congr 2
        omega
      · exact Or.inr ⟨l', List.mem_cons_of_mem _ hl', hsuffix⟩
    · have hs : sep ∉ s := fun hmem => hls.1 (List.mem_append_right u hmem)
      obtain rfl := eq_of_append_sep_eq hs ht hrest
      cases u with
      | nil =>
        refine Or.inl ⟨List.mem_cons_self, ?_⟩
        rw [List.length_nil, begun_zero, begun_cons (by omega), List.nil_append, Nat.zero_add,
          Nat.sub_self, begun_zero, List.nil_append]
      | cons c u => exact Or.inr ⟨_, List.mem_cons_self, _, List.cons_ne_nil c u, rfl⟩

end Lines
