/-
# Merges

A record that takes in one item after another may keep the greatest value of a
measure of the items, or the union of what they list.  Both tell nothing of the
order of the items: `GreatestOf.unique` and `UnionOf.congr`.
-/
import Mathlib.Order.Bounds.Basic
import Mathlib.Data.List.Basic

namespace Merge

variable {α β γ : Type*} {items items' : List α} {a : α}

theorem setOf_mem_concat (items : List α) (a : α) :
    {b | b ∈ items ++ [a]} = insert a {b | b ∈ items} := by
  ext b
  rw [Set.mem_insert_iff, Set.mem_ofPred_eq, Set.mem_ofPred_eq, List.mem_append, List.mem_singleton]
  exact or_comm

/-! ## Greatest values -/

section Greatest

variable [LinearOrder β] {f : α → β} {m m' : β}

/-- `m` is the greatest value that `f` takes on the items. -/
def GreatestOf (f : α → β) (items : List α) (m : β) : Prop :=
  IsGreatest (Set.image f {a | a ∈ items}) m

theorem greatestOf_singleton (f : α → β) (a : α) : GreatestOf f [a] (f a) := by
  refine ⟨⟨a, List.mem_singleton_self a, rfl⟩, ?_⟩
  rintro _ ⟨b, hb, rfl⟩
  rw [List.mem_singleton.mp hb]

theorem GreatestOf.concat (h : GreatestOf f items m) (a : α) :
    GreatestOf f (items ++ [a]) (max m (f a)) := by
  unfold GreatestOf
  rw [setOf_mem_concat, Set.image_insert_eq, max_comm]
  exact h.insert (f a)

/-- The greatest value is one of the values. -/
theorem GreatestOf.ne_nil (h : GreatestOf f items m) : items ≠ [] := by
  obtain ⟨⟨a, ha, -⟩, -⟩ := h
  exact List.ne_nil_of_mem ha

theorem GreatestOf.unique (h : GreatestOf f items m) (h' : GreatestOf f items' m')
    (hsame : ∀ a, a ∈ items ↔ a ∈ items') : m = m' := by
  have hset : {a | a ∈ items} = {a | a ∈ items'} := Set.ext hsame
  unfold GreatestOf at h
  rw [hset] at h
  exact IsGreatest.unique h h'

end Greatest

/-! ## Unions -/

section Union

variable {g : α → List γ} {s s' : List γ}

/-- `s` lists what the items list, in some order. -/
def UnionOf (g : α → List γ) (items : List α) (s : List γ) : Prop :=
  ∀ x, x ∈ s ↔ ∃ a ∈ items, x ∈ g a

theorem unionOf_singleton (g : α → List γ) (a : α) : UnionOf g [a] (g a) := by
  intro x
  constructor
  · exact fun hx => ⟨a, List.mem_singleton_self a, hx⟩
  · rintro ⟨b, hb, hx⟩
    rwa [List.mem_singleton.mp hb] at hx

theorem UnionOf.concat (h : UnionOf g items s) (hs' : ∀ x, x ∈ s' ↔ x ∈ s ++ g a) :
    UnionOf g (items ++ [a]) s' := by
  intro x
  rw [hs', List.mem_append, h x]
  constructor
  · rintro (⟨b, hb, hx⟩ | hx)
    · exact ⟨b, List.mem_append_left _ hb, hx⟩
    · exact ⟨a, List.mem_append_right _ (List.mem_singleton_self a), hx⟩
  · rintro ⟨b, hb, hx⟩
    rcases List.mem_append.mp hb with hb | hb
    · exact Or.inl ⟨b, hb, hx⟩
    · rw [List.mem_singleton.mp hb] at hx
      exact Or.inr hx

theorem UnionOf.congr (h : UnionOf g items s) (h' : UnionOf g items' s')
    (hsame : ∀ a, a ∈ items ↔ a ∈ items') (x : γ) : x ∈ s ↔ x ∈ s' := by
  rw [h x, h' x]
  exact exists_congr fun a => and_congr_left fun _ => hsame a

end Union

end Merge
