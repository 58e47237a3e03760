/-
# Finish orders of a depth-first search

The only property of a depth-first post-order that the two-pass component
algorithm needs, for an arbitrary relation.  A list, the vertex finished last at
its head, is a finish order when a vertex that reaches something finished after
it shares its component with something finished after it.  From this,
`IsFinishOrder.reach_of_reach`: reading such a list from its head and discarding
whole components, whatever reaches the next vertex is reached by it.
-/
import ZtMapper.Lib.Scc

namespace Scc

variable {V : Type*} {E : V → V → Prop}

/-- For every vertex `x` of the list, finished when those of `F` had been: a
vertex that `x` reaches is among them, or some vertex mutually reachable with `x`
is not. -/
def IsFinishOrder (E : V → V → Prop) (l : List V) : Prop :=
  ∀ x F, x :: F <:+ l → ∀ y, Reach E x y → y ∈ x :: F ∨ ∃ z, Mutual E x z ∧ z ∉ x :: F

theorem isFinishOrder_nil : IsFinishOrder E [] := by
  intro x F h
  exact absurd (List.suffix_nil.mp h) (List.cons_ne_nil x F)

/-- Finishing one more vertex. -/
theorem IsFinishOrder.cons {l : List V} {u : V} (h : IsFinishOrder E l)
    (hu : ∀ y, Reach E u y → y ∈ u :: l ∨ ∃ z, Mutual E u z ∧ z ∉ u :: l) :
    IsFinishOrder E (u :: l) := by
  intro x F hsuf
  rcases List.suffix_cons_iff.mp hsuf with heq | hsuf
  · obtain ⟨rfl, rfl⟩ := List.cons.inj heq
    exact hu
  · exact h x F hsuf

/-- A list with an element in `p` splits at the first such element. -/
theorem exists_split_first {α : Type*} {p : α → Prop} {l : List α} (h : ∃ a ∈ l, p a) :
    ∃ l₁ a l₂, l = l₁ ++ a :: l₂ ∧ p a ∧ ∀ b ∈ l₁, ¬ p b := by
  induction l with
  | nil => simp at h
  | cons c l ih =>
    by_cases hc : p c
    · exact ⟨[], c, l, rfl, hc, by simp⟩
    · have hl : ∃ a ∈ l, p a := by
        obtain ⟨a, ha, hpa⟩ := h
        rcases List.mem_cons.mp ha with rfl | ha
        · exact absurd hpa hc
        · exact ⟨a, ha, hpa⟩
      obtain ⟨l₁, a, l₂, rfl, hpa, hl₁⟩ := ih hl
      refine ⟨c :: l₁, a, l₂, rfl, hpa, fun b hb => ?_⟩
      rcases List.mem_cons.mp hb with rfl | hb
      · exact hc
      · exact hl₁ b hb

/-- **The leader of a component.**  Let `s` be the next vertex of a finish order
after `done`, and let `w` reach `s`.  Unless a vertex of the component of `w` has
been met in `done`, `s` reaches `w`. -/
theorem IsFinishOrder.reach_of_reach {done rest : List V} {s w : V}
    (h : IsFinishOrder E (done ++ s :: rest)) (hnd : (done ++ s :: rest).Nodup)
    (hall : ∀ z, Mutual E w z → z ∈ done ++ s :: rest) (hws : Reach E w s)
    (hdone : ∀ z, Mutual E w z → z ∉ done) : Reach E s w := by
  have hw : w ∈ s :: rest :=
    (List.mem_append.mp (hall w (.refl w))).resolve_left (hdone w (.refl w))
  -- the vertex of the component of `w` that was finished last
  obtain ⟨l₁, x, l₂, hsplit, hwx, hl₁⟩ :=
    exists_split_first (p := fun z => Mutual E w z) ⟨w, hw, .refl w⟩
  have hsuf : x :: l₂ <:+ done ++ s :: rest := by
    rw [hsplit, ← List.append_assoc]
    exact List.suffix_append _ _
  have hsx : s ∈ x :: l₂ := by
    rcases h x l₂ hsuf s (hwx.2.trans hws) with hs | ⟨z, hxz, hz⟩
    · exact hs
    · exfalso
      have hwz := hwx.trans hxz
      have hzr := (List.mem_append.mp (hall z hwz)).resolve_left (hdone z hwz)
      rw [hsplit, List.mem_append] at hzr
      rcases hzr with hzl | hzr
      · exact hl₁ z hzl hwz
      · exact hz hzr
  cases l₁ with
  | nil =>
    obtain ⟨rfl, -⟩ := List.cons.inj hsplit
    exact hwx.2
  | cons b l₁ =>
    exfalso
    obtain ⟨rfl, hrest⟩ := List.cons.inj hsplit
    have hs : s ∉ rest := (List.nodup_cons.mp (List.nodup_append.mp hnd).2.1).1
    exact hs (hrest ▸ List.mem_append_right _ hsx)

end Scc
