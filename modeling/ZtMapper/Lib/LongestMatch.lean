/-
# Longest-prefix matching

A table assigns values to some words over an alphabet; the longest match of a
word `w` is the value of the longest word of the table that is a prefix of `w`.
`IsLongestMatch` says so for a table given as a function into `Option`, and the
two `cons` rules compute it letter by letter, as a search tree does.
-/
import Mathlib.Data.List.Infix
import Mathlib.Tactic.Common

namespace LongestMatch

variable {β γ : Type*}

/-- `o` is the value of the longest prefix of `w` that the table `get` has a
value for, `none` when there is no such prefix. -/
def IsLongestMatch (get : List β → Option γ) (w : List β) (o : Option γ) : Prop :=
  match o with
  | some v => ∃ k, k <+: w ∧ get k = some v ∧
      ∀ k', k' <+: w → (get k').isSome → k'.length ≤ k.length
  | none => ∀ k, k <+: w → get k = none

/-- The longest match is determined by the table and the word. -/
theorem IsLongestMatch.unique {get : List β → Option γ} {w : List β} {o o' : Option γ}
    (h : IsLongestMatch get w o) (h' : IsLongestMatch get w o') : o = o' := by
  cases o with
  | none =>
    cases o' with
    | none => rfl
    | some v' =>
      obtain ⟨k, hk, hget, -⟩ := h'
      rw [h k hk] at hget
      exact absurd hget (by simp)
  | some v =>
    obtain ⟨k, hk, hget, hmax⟩ := h
    cases o' with
    | none =>
      rw [h' k hk] at hget
      exact absurd hget (by simp)
    | some v' =>
      obtain ⟨k', hk', hget', hmax'⟩ := h'
      -- two prefixes of one length are equal
      have hle := hmax k' hk' (by rw [hget']; rfl)
      have hle' := hmax' k hk (by rw [hget]; rfl)
      have heq : k = k' := (List.prefix_of_prefix_length_le hk hk' hle').eq_of_length_le hle
      rw [← hget, ← hget', heq]

/-- The empty word is matched by the empty word only. -/
theorem isLongestMatch_nil (get : List β → Option γ) : IsLongestMatch get [] (get []) := by
  cases h : get [] with
  | none =>
    intro k hk
    rwa [List.prefix_nil.mp hk]
  | some v =>
    refine ⟨[], List.nil_prefix, h, fun k' hk' _ => ?_⟩
    rw [List.prefix_nil.mp hk']

/-- A match inside the branch of the first letter is longer than one that ends
before it. -/
theorem isLongestMatch_cons {get : List β → Option γ} {b : β} {w : List β} {o : Option γ}
    (h : IsLongestMatch (fun k => get (b :: k)) w o) :
    IsLongestMatch get (b :: w) (o.or (get [])) := by
  cases o with
  | some v =>
    obtain ⟨k, hk, hget, hmax⟩ := h
    refine ⟨b :: k, (List.prefix_cons_inj b).mpr hk, hget, fun k' hk' hsome => ?_⟩
    rcases List.prefix_cons_iff.mp hk' with rfl | ⟨t, rfl, ht⟩
    · exact Nat.zero_le _
    · exact Nat.succ_le_succ (hmax t ht hsome)
  | none =>
    have hnone : ∀ k', k' <+: b :: w → k' ≠ [] → get k' = none := by
      intro k' hk' hne
      rcases List.prefix_cons_iff.mp hk' with rfl | ⟨t, rfl, ht⟩
      · exact absurd rfl hne
      · exact h t ht
    rw [Option.none_or]
    cases hnil : get [] with
    | none =>
      intro k' hk'
      by_cases hne : k' = []
      · rwa [hne]
      · exact hnone k' hk' hne
    | some v =>
      refine ⟨[], List.nil_prefix, hnil, fun k' hk' hsome => ?_⟩
      by_cases hne : k' = []
      · rw [hne]
      · rw [hnone k' hk' hne] at hsome
        exact absurd hsome (by simp)

/-- An empty branch has no match. -/
theorem isLongestMatch_empty (w : List β) :
    IsLongestMatch (fun _ => (none : Option γ)) w none :=
  fun _ _ => rfl

/-- The longest match, found letter by letter. -/
def longest (get : List β → Option γ) : List β → Option γ
  | [] => get []
  | b :: w => (longest (fun k => get (b :: k)) w).or (get [])

theorem isLongestMatch_longest (get : List β → Option γ) (w : List β) :
    IsLongestMatch get w (longest get w) := by
  induction w generalizing get with
  | nil => exact isLongestMatch_nil get
  | cons b w ih => exact isLongestMatch_cons (ih fun k => get (b :: k))

/-- Where no word of the table continues another one, the match is any prefix. -/
theorem longest_eq_some_iff {get : List β → Option γ} {w : List β} {v : γ}
    (hfree : ∀ k k', (get k).isSome → (get k').isSome → k <+: k' → k = k') :
    longest get w = some v ↔ ∃ k, k <+: w ∧ get k = some v := by
  have hmatch := isLongestMatch_longest get w
  constructor
  · intro h
    rw [h] at hmatch
    obtain ⟨k, hk, hget, -⟩ := hmatch
    exact ⟨k, hk, hget⟩
  · rintro ⟨k, hk, hget⟩
    refine hmatch.unique ⟨k, hk, hget, fun k' hk' hsome => ?_⟩
    have hsome' : (get k).isSome := Option.isSome_iff_exists.mpr ⟨v, hget⟩
    -- two prefixes of one word are comparable
    rcases List.prefix_or_prefix_of_prefix hk hk' with hle | hle
    · rw [hfree k k' hsome' hsome hle]
    · exact hle.length_le

end LongestMatch
