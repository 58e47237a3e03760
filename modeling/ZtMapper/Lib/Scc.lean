/-
# Strongly connected components of a relation

The vocabulary of the component algorithms, over an arbitrary edge relation
`E : V → V → Prop`:

* `Mutual E x y` : each of `x`, `y` is reachable from the other;
* `IsSccPartition verts E comps` : the list `comps` of lists is the partition of
  `verts` into strongly connected components;
* `IsSccPartition.setOf_toFinset` : the components, as a set of sets, do not
  depend on who computed them;
* `IsSccPartition.ncard_isNontrivial` : the number of components with more than
  one vertex.
-/
import Mathlib.Data.Finset.Dedup
import Mathlib.Data.Finset.Card
import Mathlib.Data.List.Nodup
import Mathlib.Data.Set.Card
import Mathlib.Logic.Relation
import Mathlib.Tactic.Common

namespace Scc

open Relation

variable {V : Type*} {E : V → V → Prop}

/-! ## Mutual reachability -/

/-- `y` is reachable from `x` along edges of `E`. -/
abbrev Reach (E : V → V → Prop) : V → V → Prop := ReflTransGen E

/-- Each of `x` and `y` is reachable from the other. -/
def Mutual (E : V → V → Prop) (x y : V) : Prop := Reach E x y ∧ Reach E y x

theorem Mutual.refl (x : V) : Mutual E x x := ⟨.refl, .refl⟩

theorem Mutual.symm {x y : V} (h : Mutual E x y) : Mutual E y x := ⟨h.2, h.1⟩

theorem Mutual.trans {x y z : V} (hxy : Mutual E x y) (hyz : Mutual E y z) : Mutual E x z :=
  ⟨hxy.1.trans hyz.1, hyz.2.trans hxy.2⟩

/-- A set closed under the edges is closed under reachability. -/
theorem mem_of_reach {S : V → Prop} (hS : ∀ x y, S x → E x y → S y) {x y : V} (hx : S x)
    (h : Reach E x y) : S y := by
  induction h with
  | refl => exact hx
  | tail _ he ih => exact hS _ _ ih he

/-- A path that leaves `S` has a first edge out of `S`. -/
theorem exists_exit_edge {S : V → Prop} {x y : V} (hx : S x) (hy : ¬ S y) (h : Reach E x y) :
    ∃ a b, S a ∧ ¬ S b ∧ Reach E x a ∧ E a b ∧ Reach E b y := by
  induction h with
  | refl => exact absurd hx hy
  | @tail b c hxb hbc ih =>
    by_cases hb : S b
    · exact ⟨b, c, hb, hy, hxb, hbc, .refl⟩
    · obtain ⟨a, a', ha, ha', hxa, haa', hab⟩ := ih hb
      exact ⟨a, a', ha, ha', hxa, haa', hab.tail hbc⟩

/-! ## Partitions into components -/

/-- `comps` is the partition of `verts` into the strongly connected components
of `E`: no component is empty, every vertex occurs exactly once over all the
components and nothing else occurs, and two vertices share a component exactly
when each is reachable from the other. -/
structure IsSccPartition (verts : Finset V) (E : V → V → Prop) (comps : List (List V)) :
    Prop where
  ne_nil : ∀ c ∈ comps, c ≠ []
  nodup : comps.flatten.Nodup
  mem_iff : ∀ v, v ∈ comps.flatten ↔ v ∈ verts
  together_iff : ∀ u ∈ verts, ∀ v ∈ verts, (∃ c ∈ comps, u ∈ c ∧ v ∈ c) ↔ Mutual E u v

/-- In a list of lists without repetition, an element determines its list. -/
theorem eq_of_mem_of_nodup_flatten {α : Type*} {comps : List (List α)}
    (h : comps.flatten.Nodup) {c d : List α} (hc : c ∈ comps) (hd : d ∈ comps) {v : α}
    (hvc : v ∈ c) (hvd : v ∈ d) : c = d := by
  induction comps with
  | nil => simp at hc
  | cons e comps ih =>
    rw [List.flatten_cons, List.nodup_append] at h
    obtain ⟨_, hrest, hdisj⟩ := h
    have hflat : ∀ l ∈ comps, v ∈ l → v ∈ comps.flatten := fun l hl hv =>
      List.mem_flatten.mpr ⟨l, hl, hv⟩
    rcases List.mem_cons.mp hc with hce | hct
    · rcases List.mem_cons.mp hd with hde | hdt
      · rw [hce, hde]
      · exact absurd rfl (hdisj v (hce ▸ hvc) v (hflat d hdt hvd))
    · rcases List.mem_cons.mp hd with hde | hdt
      · exact absurd rfl (hdisj v (hde ▸ hvd) v (hflat c hct hvc))
      · exact ih hrest hct hdt

/-- The local form in which an algorithm establishes the partition: each
component it emits is a whole class of mutual reachability. -/
theorem isSccPartition_of_classes {verts : Finset V} {comps : List (List V)}
    (hne : ∀ c ∈ comps, c ≠ []) (hnd : comps.flatten.Nodup)
    (hmem : ∀ v, v ∈ comps.flatten ↔ v ∈ verts)
    (hcls : ∀ c ∈ comps, ∀ x ∈ c, ∀ y, y ∈ c ↔ Mutual E x y) :
    IsSccPartition verts E comps where
  ne_nil := hne
  nodup := hnd
  mem_iff := hmem
  together_iff := by
    intro u hu v _
    constructor
    · rintro ⟨c, hc, huc, hvc⟩
      exact (hcls c hc u huc v).mp hvc
    · intro h
      obtain ⟨c, hc, huc⟩ := List.mem_flatten.mp ((hmem u).mpr hu)
      exact ⟨c, hc, huc, (hcls c hc u huc v).mpr h⟩

namespace IsSccPartition

variable {verts : Finset V} {comps : List (List V)}

/-- Every component is a whole class, provided edges stay inside `verts`. -/
theorem mem_iff_mutual (h : IsSccPartition verts E comps)
    (hE : ∀ x y, x ∈ verts → E x y → y ∈ verts) {c : List V} (hc : c ∈ comps) {x : V}
    (hx : x ∈ c) (y : V) : y ∈ c ↔ Mutual E x y := by
  have hmem : ∀ z ∈ c, z ∈ verts := fun z hz =>
    (h.mem_iff z).mp (List.mem_flatten.mpr ⟨c, hc, hz⟩)
  constructor
  · intro hy
    exact (h.together_iff x (hmem x hx) y (hmem y hy)).mp ⟨c, hc, hx, hy⟩
  · intro hxy
    have hy : y ∈ verts := mem_of_reach (S := (· ∈ verts)) hE (hmem x hx) hxy.1
    obtain ⟨d, hd, hxd, hyd⟩ := (h.together_iff x (hmem x hx) y hy).mpr hxy
    rwa [eq_of_mem_of_nodup_flatten h.nodup hc hd hx hxd]

/-- The set of the components, each as a set, is the set of classes. -/
theorem setOf_toFinset [DecidableEq V] (h : IsSccPartition verts E comps)
    (hE : ∀ x y, x ∈ verts → E x y → y ∈ verts) :
    {C : Finset V | ∃ c ∈ comps, c.toFinset = C}
      = {C : Finset V | ∃ x ∈ verts, ∀ y, y ∈ C ↔ Mutual E x y} := by
  ext C
  constructor
  · rintro ⟨c, hc, rfl⟩
    obtain ⟨x, hx⟩ := List.exists_mem_of_ne_nil c (h.ne_nil c hc)
    refine ⟨x, (h.mem_iff x).mp (List.mem_flatten.mpr ⟨c, hc, hx⟩), fun y => ?_⟩
    rw [List.mem_toFinset]
    exact h.mem_iff_mutual hE hc hx y
  · rintro ⟨x, hx, hC⟩
    obtain ⟨c, hc, hxc⟩ := List.mem_flatten.mp ((h.mem_iff x).mpr hx)
    refine ⟨c, hc, ?_⟩
    ext y
    rw [List.mem_toFinset, h.mem_iff_mutual hE hc hxc y, hC y]

end IsSccPartition

/-! ## Non-trivial components -/

/-- `C` is a component of the vertices `verts`, and it has more than one. -/
def IsNontrivial (verts : Finset V) (E : V → V → Prop) (C : Finset V) : Prop :=
  1 < C.card ∧ ∃ x ∈ verts, ∀ y, y ∈ C ↔ Mutual E x y

theorem IsNontrivial.subset {verts C : Finset V} (h : IsNontrivial verts E C)
    (hE : ∀ x y, x ∈ verts → E x y → y ∈ verts) : C ⊆ verts := by
  obtain ⟨-, x, hx, hC⟩ := h
  intro y hy
  exact mem_of_reach (S := (· ∈ verts)) hE hx ((hC y).mp hy).1

/-- The elements of a list whose neighbours are joined in both directions are
mutually reachable. -/
theorem mutual_of_isChain {c : List V} (h : c.IsChain fun x y => E x y ∧ E y x) :
    ∀ x ∈ c, ∀ y ∈ c, Mutual E x y := by
  induction c with
  | nil => exact fun x hx => absurd hx List.not_mem_nil
  | cons a c ih =>
    have hrest := ih (List.isChain_of_isChain_cons h)
    have hhead : ∀ y ∈ a :: c, Mutual E a y := by
      intro y hy
      rcases List.mem_cons.mp hy with rfl | hy
      · exact .refl _
      · cases c with
        | nil => exact absurd hy List.not_mem_nil
        | cons b c =>
          obtain ⟨hab, hba⟩ := (List.isChain_cons_cons.mp h).1
          exact Mutual.trans ⟨.single hab, .single hba⟩ (hrest b List.mem_cons_self y hy)
    intro x hx y hy
    exact (hhead x hx).symm.trans (hhead y hy)

/-- Lists that no edge leaves, with neighbours joined in both directions, are the
components. -/
theorem isSccPartition_of_isChain {verts : Finset V} {comps : List (List V)}
    (hne : ∀ c ∈ comps, c ≠ []) (hnd : comps.flatten.Nodup)
    (hmem : ∀ v, v ∈ comps.flatten ↔ v ∈ verts)
    (hchain : ∀ c ∈ comps, c.IsChain fun x y => E x y ∧ E y x)
    (hclosed : ∀ c ∈ comps, ∀ x y, x ∈ c → E x y → y ∈ c) : IsSccPartition verts E comps :=
  isSccPartition_of_classes hne hnd hmem fun c hc x hx y =>
    ⟨mutual_of_isChain (hchain c hc) x hx y,
      fun h => mem_of_reach (S := (· ∈ c)) (hclosed c hc) hx h.1⟩

namespace IsSccPartition

variable {verts : Finset V} {comps : List (List V)}

theorem nodup_of_mem (h : IsSccPartition verts E comps) {c : List V} (hc : c ∈ comps) :
    c.Nodup :=
  (List.nodup_flatten.mp h.nodup).1 c hc

/-- The non-trivial components are the lists with more than one element. -/
theorem isNontrivial_iff [DecidableEq V] (h : IsSccPartition verts E comps)
    (hE : ∀ x y, x ∈ verts → E x y → y ∈ verts) {C : Finset V} :
    IsNontrivial verts E C ↔ ∃ c ∈ comps, 1 < c.length ∧ c.toFinset = C := by
  have hset := Set.ext_iff.mp (h.setOf_toFinset hE) C
  simp only [Set.mem_ofPred_eq] at hset
  rw [IsNontrivial, ← hset]
  constructor
  · rintro ⟨hcard, c, hc, rfl⟩
    exact ⟨c, hc, by rwa [List.toFinset_card_of_nodup (h.nodup_of_mem hc)] at hcard, rfl⟩
  · rintro ⟨c, hc, hlen, rfl⟩
    exact ⟨by rwa [List.toFinset_card_of_nodup (h.nodup_of_mem hc)], c, hc, rfl⟩

/-- Counting the long lists counts the non-trivial components. -/
theorem ncard_isNontrivial [DecidableEq V] (h : IsSccPartition verts E comps)
    (hE : ∀ x y, x ∈ verts → E x y → y ∈ verts) :
    {C | IsNontrivial verts E C}.ncard = comps.countP fun c => 1 < c.length := by
  have hset : {C | IsNontrivial verts E C}
      = ((comps.filter fun c => 1 < c.length).map List.toFinset).toFinset := by
    ext C
    simp only [Set.mem_ofPred_eq, h.isNontrivial_iff hE, Finset.mem_coe, List.mem_toFinset,
      List.mem_map, List.mem_filter, decide_eq_true_iff, and_assoc]
  have hnodup : ((comps.filter fun c => 1 < c.length).map List.toFinset).Nodup := by
    have hcomps : comps.Nodup := by
      have hpair := (List.nodup_flatten.mp h.nodup).2
      refine hpair.imp_of_mem fun {c d} hc _ hdisj heq => ?_
      obtain ⟨x, hx⟩ := List.exists_mem_of_ne_nil c (h.ne_nil c hc)
      exact hdisj hx (heq ▸ hx)
    refine (hcomps.filter _).map_on fun c hc d hd heq => ?_
    obtain ⟨x, hx⟩ := List.exists_mem_of_ne_nil c (h.ne_nil c (List.mem_of_mem_filter hc))
    have hx' : x ∈ d := by rwa [← List.mem_toFinset, ← heq, List.mem_toFinset]
    exact eq_of_mem_of_nodup_flatten h.nodup (List.mem_of_mem_filter hc)
      (List.mem_of_mem_filter hd) hx hx'
  rw [hset, Set.ncard_coe_finset, List.toFinset_card_of_nodup hnodup, List.length_map,
    List.countP_eq_length_filter]

end IsSccPartition

end Scc
