/-
# Trimming

`trim p s` drops what satisfies `p` at both ends of `s`.  A text that starts and
ends with something else is `Trimmed`, and comes back from between such ends
(`trim_append`).
-/
import ZtMapper.Lib.Scan
import Mathlib.Data.List.DropRight

namespace Scan

variable {α : Type*} {p : α → Bool} {s l r t : List α}

def trim (p : α → Bool) (s : List α) : List α := (s.dropWhile p).rdropWhile p

/-- Nothing is to be dropped at the ends. -/
structure Trimmed (p : α → Bool) (s : List α) : Prop where
  head : ∀ b ∈ s.head?, p b = false
  last : ∀ b ∈ s.getLast?, p b = false

theorem Trimmed.nil : Trimmed p [] := ⟨by simp, by simp⟩

theorem trimmed_iff : Trimmed p s ↔ s.head?.all (!p ·) = true ∧ s.getLast?.all (!p ·) = true := by
  simp only [Option.all_eq_true, Bool.not_eq_true']
  exact ⟨fun h => ⟨h.1, h.2⟩, fun h => ⟨h.1, h.2⟩⟩

instance (p : α → Bool) (s : List α) : Decidable (Trimmed p s) := decidable_of_iff' _ trimmed_iff

theorem rdropWhile_append_of_trimmed (hr : ∀ b ∈ r, p b = true)
    (ht : ∀ b ∈ t.getLast?, p b = false) : (t ++ r).rdropWhile p = t := by
  unfold List.rdropWhile
  rw [List.reverse_append, dropWhile_eq_iff.mpr ⟨r.reverse, rfl, fun b hb =>
    hr b (List.mem_reverse.mp hb), by rwa [List.head?_reverse]⟩, List.reverse_reverse]

/-- **A trimmed text** comes back from between what is dropped. -/
theorem trim_append (hl : ∀ b ∈ l, p b = true) (ht : Trimmed p t) (hr : ∀ b ∈ r, p b = true) :
    trim p (l ++ (t ++ r)) = t := by
  unfold trim
  cases t with
  | nil =>
    rw [List.nil_append, List.dropWhile_append_of_pos hl, List.dropWhile_eq_nil_iff.mpr hr]
    rfl
  | cons b t =>
    rw [dropWhile_eq_iff.mpr ⟨l, rfl, hl, by simpa using ht.head⟩,
      rdropWhile_append_of_trimmed hr ht.last]

theorem trim_of_trimmed (ht : Trimmed p t) : trim p t = t := by
  have h := trim_append (l := []) (r := []) (by simp) ht (by simp)
  rwa [List.nil_append, List.append_nil] at h

theorem trim_eq_nil_iff : trim p s = [] ↔ ∀ b ∈ s, p b = true := by
  unfold trim
  rw [List.rdropWhile_eq_nil_iff]
  constructor
  · intro h
    -- what is not dropped at the front does not start with what is dropped
    have hnil : s.dropWhile p = [] := by
      by_contra hne
      have hhead := List.head_dropWhile_not p hne
      rw [h _ (List.head_mem hne)] at hhead
      exact absurd hhead (by decide)
    exact List.dropWhile_eq_nil_iff.mp hnil
  · intro h
    rw [List.dropWhile_eq_nil_iff.mpr h]
    exact fun b hb => absurd hb List.not_mem_nil

end Scan
