/-
# The summary of Misra and Gries

A summary of a stream is a multiset: the number of copies of `x` is the counter
of `x`, and the distinct elements are the keys that have a counter.  With at
most `k - 1` counters, an element without a counter that finds no room takes one
copy of every counted element away with it.

* `Bounds k s c` : what a summary `c` of the stream `s` satisfies, with the
  number of such decrements as its only unknown;
* `bounds_summary` : the run lemma;
* `mul_sub_count_le` : the error of a counter is at most `|s| / k`;
* `summary_eq_coe` : below `k` distinct elements nothing is lost;
* `card_summary_add_le` : from `k` distinct elements on, `k` occurrences are.
-/
import Mathlib.Data.Multiset.Dedup
import Mathlib.Data.Multiset.Count
import Mathlib.Data.Finset.Card
import Mathlib.Data.List.Induction
import Mathlib.Tactic.Common

namespace MisraGries

variable {α : Type*} [DecidableEq α]

/-- One element of the stream. -/
def record (k : ℕ) (c : Multiset α) (x : α) : Multiset α :=
  if x ∈ c ∨ c.dedup.card + 1 < k then x ::ₘ c else c - c.dedup

/-- The summary of a stream. -/
def summary (k : ℕ) (s : List α) : Multiset α := s.foldl (record k) 0

/-- Each decrement, and `d` of them took place, loses at most one occurrence of
every key but takes `k` occurrences off the account of the stream.  Only the
multiset of the elements of the stream matters here. -/
structure Bounds (k : ℕ) (s c : Multiset α) (d : ℕ) : Prop where
  counters : c.dedup.card < k
  count_le : ∀ x, c.count x ≤ s.count x
  count_ge : ∀ x, s.count x ≤ c.count x + d
  card_eq : c.card + k * d = s.card

theorem bounds_zero {k : ℕ} (hk : 0 < k) : Bounds k (0 : Multiset α) 0 0 where
  counters := hk
  count_le := fun _ => le_rfl
  count_ge := fun _ => Nat.zero_le _
  card_eq := rfl

/-- An element that is counted. -/
theorem Bounds.cons {k : ℕ} {s c : Multiset α} {d : ℕ} (h : Bounds k s c d) (x : α)
    (hx : x ∈ c ∨ c.dedup.card + 1 < k) : Bounds k (x ::ₘ s) (x ::ₘ c) d where
  counters := by
    by_cases hmem : x ∈ c
    · rw [Multiset.dedup_cons_of_mem hmem]
      exact h.counters
    · rw [Multiset.dedup_cons_of_notMem hmem, Multiset.card_cons]
      exact hx.resolve_left hmem
  count_le := by
    intro y
    have := h.count_le y
    rw [Multiset.count_cons, Multiset.count_cons]
    omega
  count_ge := by
    intro y
    have := h.count_ge y
    rw [Multiset.count_cons, Multiset.count_cons]
    omega
  card_eq := by
    have := h.card_eq
    rw [Multiset.card_cons, Multiset.card_cons]
    omega

/-- The decrement loses one copy of what there is. -/
theorem count_sub_dedup (c : Multiset α) (y : α) : (c - c.dedup).count y = c.count y - 1 := by
  rw [Multiset.count_sub, Multiset.count_dedup]
  split_ifs with h
  · rfl
  · rw [Multiset.count_eq_zero_of_notMem h]

/-- An element that is not counted meets `k - 1` counters. -/
theorem Bounds.decrement {k : ℕ} {s c : Multiset α} {d : ℕ} (h : Bounds k s c d)
    (x : α) (hx : ¬ (x ∈ c ∨ c.dedup.card + 1 < k)) :
    Bounds k (x ::ₘ s) (c - c.dedup) (d + 1) where
  counters := by
    have hle : (c - c.dedup).dedup ≤ c.dedup :=
      Multiset.le_dedup.mpr
        ⟨(Multiset.dedup_le _).trans (Multiset.sub_le_self _ _), Multiset.nodup_dedup _⟩
    exact lt_of_le_of_lt (Multiset.card_le_card hle) h.counters
  count_le := by
    intro y
    have := h.count_le y
    rw [count_sub_dedup, Multiset.count_cons]
    omega
  count_ge := by
    intro y
    have := h.count_ge y
    rw [count_sub_dedup, Multiset.count_cons]
    split_ifs with hxy
    · -- the element itself had no counter
      have hy : c.count y = 0 :=
        Multiset.count_eq_zero_of_notMem fun hm => hx (Or.inl (hxy ▸ hm))
      omega
    · omega
  card_eq := by
    have hlen := h.card_eq
    have hcard := Multiset.card_le_card (Multiset.dedup_le c)
    have hcounters := h.counters
    rw [Multiset.card_sub (Multiset.dedup_le c), Multiset.card_cons, Nat.mul_succ]
    rw [not_or, not_lt] at hx
    omega

/-- **One step** keeps the bounds. -/
theorem Bounds.record {k : ℕ} {s c : Multiset α} {d : ℕ} (h : Bounds k s c d) (x : α) :
    ∃ d', Bounds k (x ::ₘ s) (record k c x) d' := by
  unfold MisraGries.record
  split_ifs with hx
  · exact ⟨d, h.cons x hx⟩
  · exact ⟨d + 1, h.decrement x hx⟩

@[simp] theorem summary_append (k : ℕ) (s : List α) (x : α) :
    summary k (s ++ [x]) = record k (summary k s) x := by
  rw [summary, List.foldl_append]
  rfl

/-- **The whole run**: the summary of any stream is within the bounds. -/
theorem bounds_summary {k : ℕ} (hk : 0 < k) (s : List α) : ∃ d, Bounds k s (summary k s) d := by
  induction s using List.reverseRecOn with
  | nil => exact ⟨0, bounds_zero hk⟩
  | append_singleton s x ih =>
    obtain ⟨d, h⟩ := ih
    have hperm : ((s ++ [x] : List α) : Multiset α) = x ::ₘ (s : Multiset α) :=
      Multiset.coe_eq_coe.mpr (List.perm_append_singleton x s)
    rw [summary_append, hperm]
    exact h.record x

theorem card_dedup_summary_lt {k : ℕ} (hk : 0 < k) (s : List α) :
    (summary k s).dedup.card < k := by
  obtain ⟨d, h⟩ := bounds_summary hk s
  exact h.counters

theorem card_summary_le {k : ℕ} (hk : 0 < k) (s : List α) : (summary k s).card ≤ s.length := by
  obtain ⟨d, h⟩ := bounds_summary hk s
  have := h.card_eq
  rw [Multiset.coe_card] at this
  omega

theorem count_summary_le {k : ℕ} (hk : 0 < k) (s : List α) (x : α) :
    (summary k s).count x ≤ (s : Multiset α).count x := by
  obtain ⟨d, h⟩ := bounds_summary hk s
  exact h.count_le x

/-- A counter underestimates by at most `|s| / k`. -/
theorem mul_sub_count_le {k : ℕ} (hk : 0 < k) (s : List α) (x : α) :
    k * ((s : Multiset α).count x - (summary k s).count x) ≤ s.length := by
  obtain ⟨d, h⟩ := bounds_summary hk s
  have hle : (s : Multiset α).count x - (summary k s).count x ≤ d := by
    have := h.count_ge x
    omega
  have hcard := h.card_eq
  rw [Multiset.coe_card] at hcard
  calc k * ((s : Multiset α).count x - (summary k s).count x) ≤ k * d := Nat.mul_le_mul_left k hle
    _ ≤ s.length := by rw [← hcard]; exact Nat.le_add_left _ _

/-! ## Streams of few elements -/

theorem card_dedup_coe (s : List α) : (s : Multiset α).dedup.card = s.toFinset.card := by
  rw [Multiset.coe_dedup, Multiset.coe_card, List.card_toFinset]

/-- **Room for every element**: the summary is the stream. -/
theorem summary_eq_coe {k : ℕ} {s : List α} (hs : s.toFinset.card < k) : summary k s = s := by
  induction s using List.reverseRecOn with
  | nil => rfl
  | append_singleton s x ih =>
    have hinsert : (s ++ [x]).toFinset = insert x s.toFinset := by
      rw [List.toFinset_append, Finset.union_comm]
      rfl
    rw [hinsert] at hs
    have hroom : x ∈ (s : Multiset α) ∨ (s : Multiset α).dedup.card + 1 < k := by
      by_cases hx : x ∈ s
      · exact Or.inl hx
      · rw [Finset.card_insert_of_notMem (mt List.mem_toFinset.mp hx)] at hs
        exact Or.inr (by rwa [card_dedup_coe])
    rw [summary_append, ih (lt_of_le_of_lt (Finset.card_le_card (Finset.subset_insert x _)) hs),
      record, if_pos hroom]
    exact (Multiset.coe_eq_coe.mpr (List.perm_append_singleton x s)).symm

/-- **No room for some element**: a decrement has taken place, and took `k` occurrences. -/
theorem card_summary_add_le {k : ℕ} (hk : 0 < k) {s : List α} (hs : k ≤ s.toFinset.card) :
    (summary k s).card + k ≤ s.length := by
  obtain ⟨d, h⟩ := bounds_summary hk s
  have hcard := h.card_eq
  rw [Multiset.coe_card] at hcard
  cases d with
  | zero =>
    -- nothing would be lost, but there are not enough counters
    have heq : summary k s = s := Multiset.ext.mpr fun x => le_antisymm (h.count_le x) (h.count_ge x)
    have hcounters := h.counters
    rw [heq, card_dedup_coe] at hcounters
    exact absurd hs (Nat.not_le.mpr hcounters)
  | succ d =>
    rw [Nat.mul_succ] at hcard
    omega

end MisraGries
