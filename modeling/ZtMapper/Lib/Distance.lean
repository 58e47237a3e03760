/-
# Distances along a relation

The number of edges of a shortest walk, over an arbitrary edge relation
`E : V → V → Prop` and from a fixed vertex `s`:

* `Walk E s n v` : a walk of `n` edges leads from `s` to `v`;
* `IsDist E s v n` : the shortest walk from `s` to `v` has `n` edges;
* `IsDist.exists_pred` : a vertex at distance `n + 1` has a predecessor at
  distance `n`;
* `IsDist.mem_of_closed` : a search that follows every edge out of a vertex it
  has met less than `k` away from `s` meets everything within distance `k`;
* `IsDist.exists_frontier` : a shortest walk to a vertex not met yet crosses an
  edge out of the vertices met.
-/
import Mathlib.Data.Nat.Find
import Mathlib.Order.Nat
import Mathlib.Tactic.Common

namespace Distance

variable {V : Type*} {E : V → V → Prop} {s : V}

/-- A walk of `n` edges leads from `s` to the vertex. -/
inductive Walk (E : V → V → Prop) (s : V) : ℕ → V → Prop
  | nil : Walk E s 0 s
  | concat {n : ℕ} {u v : V} (h : Walk E s n u) (e : E u v) : Walk E s (n + 1) v

@[simp] theorem walk_zero_iff {v : V} : Walk E s 0 v ↔ v = s := by
  constructor
  · intro h
    cases h
    rfl
  · rintro rfl
    exact .nil

theorem walk_succ_iff {n : ℕ} {v : V} : Walk E s (n + 1) v ↔ ∃ u, Walk E s n u ∧ E u v := by
  constructor
  · intro h
    cases h with
    | concat h e => exact ⟨_, h, e⟩
  · rintro ⟨u, h, e⟩
    exact h.concat e

/-! ## The length of a shortest walk -/

/-- The shortest walk from `s` to `v` has `n` edges. -/
def IsDist (E : V → V → Prop) (s v : V) (n : ℕ) : Prop :=
  Walk E s n v ∧ ∀ m, Walk E s m v → n ≤ m

theorem IsDist.unique {v : V} {m n : ℕ} (hm : IsDist E s v m) (hn : IsDist E s v n) : m = n :=
  le_antisymm (hm.2 n hn.1) (hn.2 m hm.1)

theorem isDist_self : IsDist E s s 0 := ⟨.nil, fun m _ => Nat.zero_le m⟩

theorem isDist_zero_iff {v : V} : IsDist E s v 0 ↔ v = s := by
  constructor
  · intro h
    exact walk_zero_iff.mp h.1
  · rintro rfl
    exact isDist_self

/-- What a walk leads to has a distance. -/
theorem Walk.exists_isDist {n : ℕ} {v : V} (h : Walk E s n v) : ∃ m ≤ n, IsDist E s v m := by
  classical
  have hex : ∃ m, Walk E s m v := ⟨n, h⟩
  exact ⟨Nat.find hex, Nat.find_min' hex h, Nat.find_spec hex, fun m hm => Nat.find_min' hex hm⟩

/-- An edge leads at most one further away. -/
theorem IsDist.le_succ {u v : V} {m n : ℕ} (hu : IsDist E s u n) (e : E u v)
    (hv : IsDist E s v m) : m ≤ n + 1 :=
  hv.2 _ (hu.1.concat e)

/-- The last edge of a shortest walk comes from one nearer. -/
theorem IsDist.exists_pred {v : V} {n : ℕ} (h : IsDist E s v (n + 1)) :
    ∃ u, IsDist E s u n ∧ E u v := by
  obtain ⟨u, hu, e⟩ := walk_succ_iff.mp h.1
  obtain ⟨m, hmn, hm⟩ := hu.exists_isDist
  have hle : n + 1 ≤ m + 1 := h.2 _ (hm.1.concat e)
  obtain rfl : m = n := by omega
  exact ⟨u, hm, e⟩

/-! ## Searches -/

/-- A search that follows every edge out of a vertex it has met nearer than `k`
meets everything within distance `k`. -/
theorem IsDist.mem_of_closed {S : V → Prop} {k : ℕ} (hs : S s)
    (hS : ∀ u n, S u → IsDist E s u n → n < k → ∀ v, E u v → S v) {n : ℕ} {v : V}
    (h : IsDist E s v n) (hn : n ≤ k) : S v := by
  induction n generalizing v with
  | zero =>
    rw [isDist_zero_iff.mp h]
    exact hs
  | succ n ih =>
    obtain ⟨u, hu, e⟩ := h.exists_pred
    exact hS u n (ih hu (by omega)) hu (by omega) v e

/-- A shortest walk from a vertex met to one that is not crosses an edge out of
the vertices met. -/
theorem IsDist.exists_frontier {S : V → Prop} (hs : S s) {n : ℕ} {v : V} (h : IsDist E s v n)
    (hv : ¬ S v) : ∃ u w m, IsDist E s u m ∧ E u w ∧ S u ∧ ¬ S w ∧ m + 1 ≤ n := by
  induction n generalizing v with
  | zero =>
    rw [isDist_zero_iff.mp h] at hv
    exact absurd hs hv
  | succ n ih =>
    obtain ⟨u, hu, e⟩ := h.exists_pred
    by_cases hSu : S u
    · exact ⟨u, v, n, hu, e, hSu, hv, le_rfl⟩
    · obtain ⟨a, b, m, ha, hab, hSa, hSb, hm⟩ := ih hu hSu
      exact ⟨a, b, m, ha, hab, hSa, hSb, by omega⟩

end Distance
