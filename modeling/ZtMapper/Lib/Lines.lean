/-
# Lines

A stream of characters is cut into lines at a separator: the complete lines, and
the part after the last separator.  Cutting is done one character at a time, so
that a stream can be cut as it grows.  A whole text is cut into parts by `splitOn`.
-/
import Mathlib.Data.List.TakeWhile

namespace Lines

variable {α : Type*} [DecidableEq α] {sep : α}

/-- One more character. -/
def push (sep : α) (p : List (List α) × List α) (c : α) : List (List α) × List α :=
  if c = sep then (p.1 ++ [p.2], []) else (p.1, p.2 ++ [c])

/-- The complete lines of a stream, and the part after the last separator. -/
def cut (sep : α) (cs : List α) : List (List α) × List α := cs.foldl (push sep) ([], [])

theorem foldl_push (p : List (List α) × List α) (ds : List α) :
    ds.foldl (push sep) p =
      (p.1 ++ (ds.foldl (push sep) ([], p.2)).1, (ds.foldl (push sep) ([], p.2)).2) := by
  induction ds generalizing p with
  | nil => rw [List.foldl_nil, List.foldl_nil, List.append_nil]
  | cons d ds ih =>
    rw [List.foldl_cons, List.foldl_cons, ih, ih (push sep ([], p.2) d)]
    unfold push
    split_ifs <;> simp

/-- After a separator, the rest is cut by itself. -/
theorem cut_append_of_whole {cs : List α} (h : (cut sep cs).2 = []) (ds : List α) :
    cut sep (cs ++ ds) = ((cut sep cs).1 ++ (cut sep ds).1, (cut sep ds).2) := by
  unfold cut at h ⊢
  rw [List.foldl_append, foldl_push, h]

theorem cut_append_part (cs : List α) {ds : List α} (h : sep ∉ ds) :
    cut sep (cs ++ ds) = ((cut sep cs).1, (cut sep cs).2 ++ ds) := by
  unfold cut
  rw [List.foldl_append]
  generalize cs.foldl (push sep) ([], []) = p
  induction ds generalizing p with
  | nil => rw [List.foldl_nil, List.append_nil]
  | cons d ds ih =>
    have hd : d ≠ sep := fun heq => h (heq ▸ List.mem_cons_self)
    rw [List.foldl_cons, ih fun hmem => h (List.mem_cons_of_mem _ hmem)]
    simp [push, hd]

theorem cut_append_line (cs : List α) {ds : List α} (h : sep ∉ ds) :
    cut sep (cs ++ ds ++ [sep]) = ((cut sep cs).1 ++ [(cut sep cs).2 ++ ds], []) := by
  have hpart := cut_append_part cs h
  unfold cut at hpart ⊢
  rw [List.foldl_append, hpart, List.foldl_cons, List.foldl_nil]
  exact if_pos rfl

theorem cut_of_not_mem {cs : List α} (h : sep ∉ cs) : cut sep cs = ([], cs) :=
  cut_append_part [] h

theorem cut_line {ds : List α} (h : sep ∉ ds) : cut sep (ds ++ [sep]) = ([ds], []) :=
  cut_append_line [] h

/-- The first line. -/
theorem cut_line_append {ds : List α} (h : sep ∉ ds) (cs : List α) :
    cut sep (ds ++ sep :: cs) = (ds :: (cut sep cs).1, (cut sep cs).2) := by
  have hwhole : (cut sep (ds ++ [sep])).2 = [] := by rw [cut_line h]
  have heq := cut_append_of_whole hwhole cs
  rw [cut_line h, List.append_assoc] at heq
  exact heq

/-- A stream up to its first separator, and the rest. -/
theorem eq_line_append {cs : List α} (h : sep ∈ cs) :
    sep ∉ cs.takeWhile (· ≠ sep) ∧
      cs = cs.takeWhile (· ≠ sep) ++ sep :: (cs.dropWhile (· ≠ sep)).tail := by
  have hsplit := List.takeWhile_append_dropWhile (p := fun c => decide (c ≠ sep)) (l := cs)
  refine ⟨fun hmem => ?_, ?_⟩
  · have hne := List.mem_takeWhile_imp hmem
    exact of_decide_eq_true hne rfl
  cases hrest : cs.dropWhile (fun c => decide (c ≠ sep)) with
  | nil =>
    have hne := List.dropWhile_eq_nil_iff.mp hrest sep h
    exact absurd rfl (of_decide_eq_true hne)
  | cons c rest =>
    have hc : c = sep := by
      have hhead := List.head?_dropWhile_not (fun c => decide (c ≠ sep)) cs
      rw [hrest] at hhead
      simpa using hhead
    rw [hrest, hc] at hsplit
    exact hsplit.symm

/-! ## Parts -/

theorem notMem_of_mem_splitOn {s t : List α} (h : t ∈ s.splitOn sep) : sep ∉ t := by
  induction s generalizing t with
  | nil =>
    rw [List.splitOn_nil] at h
    rw [List.mem_singleton.mp h]
    exact List.not_mem_nil
  | cons c s ih =>
    obtain ⟨first, rest, hsplit⟩ := List.exists_cons_of_ne_nil (List.splitOn_ne_nil sep s)
    rw [List.splitOn_cons_eq_if_modifyHead] at h
    split_ifs at h with hc
    · rcases List.mem_cons.mp h with rfl | h
      · exact List.not_mem_nil
      · exact ih h
    · rw [hsplit, List.modifyHead_cons] at h
      rw [hsplit] at ih
      rcases List.mem_cons.mp h with rfl | h
      · rw [List.mem_cons, not_or]
        exact ⟨fun heq => hc (beq_iff_eq.mpr heq.symm), ih List.mem_cons_self⟩
      · exact ih (List.mem_cons_of_mem _ h)

/-- What has no separator goes to the first part. -/
theorem splitOn_append_of_notMem {s t : List α} (h : sep ∉ t) :
    (t ++ s).splitOn sep = (s.splitOn sep).modifyHead (t ++ ·) := by
  induction t with
  | nil => exact (congrFun List.modifyHead_id _).symm
  | cons c t ih =>
    rw [List.mem_cons, not_or] at h
    rw [List.cons_append, List.splitOn_cons_eq_if_modifyHead,
      if_neg (fun heq => h.1 (beq_iff_eq.mp heq).symm), ih h.2, List.modifyHead_modifyHead]
    rfl

/-- Texts that are joined with separators are cut one by one. -/
theorem splitOn_intercalate_eq_flatMap {ts : List (List α)} (h : ts ≠ []) :
    ([sep].intercalate ts).splitOn sep = ts.flatMap (·.splitOn sep) := by
  induction ts with
  | nil => exact absurd rfl h
  | cons t ts ih =>
    cases ts with
    | nil => rw [List.intercalate_singleton, List.flatMap_cons, List.flatMap_nil, List.append_nil]
    | cons t' ts =>
      rw [List.intercalate_cons_cons, List.append_assoc, List.singleton_append,
        List.splitOn_append_cons_self, ih (List.cons_ne_nil _ _), ← List.flatMap_cons]

theorem splitOn_eq_one_iff {s a : List α} : s.splitOn sep = [a] ↔ s = a ∧ sep ∉ a := by
  constructor
  · intro h
    have hjoin : [sep].intercalate (s.splitOn sep) = s := List.intercalate_splitOn sep
    rw [h, List.intercalate_singleton] at hjoin
    exact ⟨hjoin.symm, notMem_of_mem_splitOn (h ▸ List.mem_singleton_self a)⟩
  · rintro ⟨rfl, h⟩
    exact List.splitOn_eq_singleton h

/-- The first of several parts, and the text of the others. -/
theorem splitOn_eq_cons_cons_iff {s a b : List α} {parts : List (List α)} :
    s.splitOn sep = a :: b :: parts ↔
      ∃ rest, s = a ++ sep :: rest ∧ sep ∉ a ∧ rest.splitOn sep = b :: parts := by
  constructor
  · intro h
    by_cases hmem : sep ∈ s
    · obtain ⟨pre, rest, rfl, hpre⟩ := List.eq_append_cons_of_mem hmem
      rw [List.splitOn_append_cons_self_of_not_mem hpre] at h
      obtain ⟨rfl, htail⟩ := List.cons.inj h
      exact ⟨rest, rfl, hpre, htail⟩
    · rw [List.splitOn_eq_singleton hmem] at h
      exact absurd (List.cons.inj h).2 (List.cons_ne_nil _ _).symm
  · rintro ⟨rest, rfl, ha, htail⟩
    rw [List.splitOn_append_cons_self_of_not_mem ha, htail]

theorem splitOn_eq_two_iff {s a b : List α} :
    s.splitOn sep = [a, b] ↔ s = a ++ sep :: b ∧ sep ∉ a ∧ sep ∉ b := by
  rw [splitOn_eq_cons_cons_iff]
  constructor
  · rintro ⟨rest, rfl, ha, hlast⟩
    obtain ⟨rfl, hb⟩ := splitOn_eq_one_iff.mp hlast
    exact ⟨rfl, ha, hb⟩
  · rintro ⟨rfl, ha, hb⟩
    exact ⟨b, rfl, ha, splitOn_eq_one_iff.mpr ⟨rfl, hb⟩⟩

theorem splitOn_eq_three_iff {s a b c : List α} :
    s.splitOn sep = [a, b, c] ↔
      s = a ++ sep :: (b ++ sep :: c) ∧ sep ∉ a ∧ sep ∉ b ∧ sep ∉ c := by
  rw [splitOn_eq_cons_cons_iff]
  constructor
  · rintro ⟨rest, rfl, ha, hrest⟩
    obtain ⟨rfl, hb, hc⟩ := splitOn_eq_two_iff.mp hrest
    exact ⟨rfl, ha, hb, hc⟩
  · rintro ⟨rfl, ha, hb, hc⟩
    exact ⟨_, rfl, ha, splitOn_eq_two_iff.mpr ⟨rfl, hb, hc⟩⟩

end Lines
