/-
# The low-link invariant of the iterative Tarjan search

`Inv nbrs verts P s` says what holds of the state `s` whenever the loop tests its
condition (`P = []`), and in between, while the edge to the one vertex of `P` has
been read from its frame but not yet acted upon (`P = [v]`).  The transitions of
the source are treated one by one:

* `Inv.advance`        : the next neighbour is read;
* `Inv.enter`          : it is new, a tree edge;
* `Inv.backEdge`       : it is on the stack, and lowers the low-link;
* `Inv.skip`           : it already belongs to a component;
* `Inv.returnToParent` : a vertex that is not the root of its component is left;
* `Inv.closeRoot`      : the root of a component is left, the component popped.

Throughout, `discAt` numbers the discovered vertices, the frames name the active
vertices, and a vertex is done once it is discovered and off the stack.
-/
import ZtMapper.Graph.Tarjan
import Mathlib.Algebra.BigOperators.Group.List.Basic
import Mathlib.Algebra.Order.BigOperators.Group.Finset
import Mathlib.Tactic.Linarith

open Scc

namespace Tarjan

variable {nbrs : Vertex → List Vertex} {verts : Finset Vertex} {P : List Vertex} {s : State}

/-! ## Vocabulary -/

/-- The edge relation of a neighbour function. -/
def Adj (nbrs : Vertex → List Vertex) (x y : Vertex) : Prop := y ∈ nbrs x

def State.Discovered (s : State) (x : Vertex) : Prop := (s.disc x).isSome = true

/-- Off the stack again: the component of `x` has been stored. -/
def State.Done (s : State) (x : Vertex) : Prop := s.Discovered x ∧ x ∉ s.stk

/-- The vertices of the frames, the most recent first. -/
def State.active (s : State) : List Vertex := s.callStack.map (·.u)

/-- The edge from `x` to `w` has been read: all edges of a vertex that has no
frame, the ones before the index of a vertex that has. -/
def State.Examined (nbrs : Vertex → List Vertex) (s : State) (x w : Vertex) : Prop :=
  w ∈ nbrs x ∧ ∀ f ∈ s.callStack, f.u = x → w ∈ f.neighbors.take f.idx

instance (s : State) (x : Vertex) : Decidable (s.Discovered x) :=
  inferInstanceAs (Decidable (_ = true))

/-- The loop invariant, up to the pending targets `P`. -/
structure Inv (nbrs : Vertex → List Vertex) (verts : Finset Vertex) (P : List Vertex)
    (s : State) : Prop where
  timer_eq : s.timer = (verts.filter s.Discovered).card
  timer_le : s.timer ≤ intMax
  disc_mem : ∀ x, s.Discovered x → x ∈ verts
  disc_lt : ∀ x, s.Discovered x → s.discAt x < s.timer
  stk_disc : ∀ x ∈ s.stk, s.Discovered x
  stk_sorted : s.stk.Pairwise fun x y => s.discAt y < s.discAt x
  onStack_iff : ∀ x, s.onStack x = true ↔ x ∈ s.stk
  active_sorted : s.active.Pairwise fun x y => s.discAt y < s.discAt x
  active_stk : ∀ u ∈ s.active, u ∈ s.stk
  frame_neighbors : ∀ f ∈ s.callStack, f.neighbors = nbrs f.u
  /-- No edge that was read leads to an unknown vertex. -/
  examined_disc : ∀ x w, s.Discovered x → s.Examined nbrs x w → s.Discovered w ∨ w ∈ P
  done_closed : ∀ x w, s.Done x → w ∈ nbrs x → s.Done w
  /-- An active vertex reaches everything stacked after it. -/
  reach_above : ∀ u ∈ s.active, ∀ x ∈ s.stk, s.discAt u ≤ s.discAt x → Reach (Adj nbrs) u x
  low_le : ∀ x ∈ s.stk, s.low x ≤ s.discAt x
  /-- A low-link is the number of a stacked vertex that is reachable. -/
  low_reach : ∀ x ∈ s.stk, ∃ w ∈ s.stk, s.discAt w = s.low x ∧ Reach (Adj nbrs) x w
  /-- A stacked vertex that was left is not the root of its component. -/
  low_lt : ∀ x ∈ s.stk, x ∉ s.active → s.low x < s.discAt x
  /-- Every edge read above an active vertex is accounted for by the low-link of
  an active vertex from there on. -/
  low_cover : ∀ u ∈ s.active, ∀ x ∈ s.stk, s.discAt u ≤ s.discAt x → ∀ w ∈ s.stk,
    s.Examined nbrs x w → (∃ q ∈ s.active, s.discAt u ≤ s.discAt q ∧ s.low q ≤ s.discAt w) ∨ w ∈ P
  sccs_nodup : s.sccs.flatten.Nodup
  mem_sccs : ∀ x, x ∈ s.sccs.flatten ↔ s.Done x
  sccs_ne_nil : ∀ c ∈ s.sccs, c ≠ []
  sccs_class : ∀ c ∈ s.sccs, ∀ x ∈ c, ∀ y, y ∈ c ↔ Mutual (Adj nbrs) x y

/-- The invariant holds before the first root. -/
theorem inv_init : Inv nbrs verts [] init where
  timer_eq := by
    rw [Finset.filter_false_of_mem (fun x _ => by simp [init, State.Discovered])]
    rfl
  timer_le := by decide
  disc_mem := by simp [init, State.Discovered]
  disc_lt := by simp [init, State.Discovered]
  stk_disc := by simp [init]
  stk_sorted := by simp [init]
  onStack_iff := by simp [init]
  active_sorted := by simp [init, State.active]
  active_stk := by simp [init, State.active]
  frame_neighbors := by simp [init]
  examined_disc := by simp [init, State.Discovered]
  done_closed := by simp [init, State.Done, State.Discovered]
  reach_above := by simp [init]
  low_le := by simp [init]
  low_reach := by simp [init]
  low_lt := by simp [init]
  low_cover := by simp [init]
  sccs_nodup := by simp [init]
  mem_sccs := by simp [init, State.Done, State.Discovered]
  sccs_ne_nil := by simp [init]
  sccs_class := by simp [init]

namespace Inv

/-- Fewer claims are made of more pending targets. -/
theorem weaken (h : Inv nbrs verts [] s) (P : List Vertex) : Inv nbrs verts P s :=
  { h with
    examined_disc := fun x w hx he => (h.examined_disc x w hx he).imp_right (by simp)
    low_cover := fun u hu x hx hux w hw he => (h.low_cover u hu x hx hux w hw he).imp_right (by simp) }

/-- A pending target that belongs to a component needs no action. -/
theorem skip {v : Vertex} (h : Inv nbrs verts [v] s) (hv : s.Done v) : Inv nbrs verts [] s :=
  { h with
    examined_disc := by
      intro x w hx he
      rcases h.examined_disc x w hx he with hw | hw
      · exact Or.inl hw
      · exact Or.inl (List.mem_singleton.mp hw ▸ hv.1)
    low_cover := by
      intro u hu x hx hux w hw he
      rcases h.low_cover u hu x hx hux w hw he with hq | hwv
      · exact Or.inl hq
      · exact absurd (List.mem_singleton.mp hwv ▸ hw) hv.2 }

end Inv

/-! ## A new vertex is entered -/

section Enter

variable {v x w : Vertex}

/-- Entering a vertex discovers it and no other. -/
theorem discovered_enter : (enter nbrs v s).Discovered x ↔ x = v ∨ s.Discovered x := by
  by_cases h : x = v
  · subst h
    simp [State.Discovered, enter]
  · simp [State.Discovered, enter, h]

/-- A vertex is discovered at the time of its entry. -/
theorem discAt_enter_self : (enter nbrs v s).discAt v = s.timer := by
  simp [State.discAt, enter]

/-- Other discovery times stay. -/
theorem discAt_enter_of_ne (h : x ≠ v) : (enter nbrs v s).discAt x = s.discAt x := by
  simp [State.discAt, enter, Function.update_of_ne h]

/-- A vertex starts with its own time as low link. -/
theorem low_enter_self : (enter nbrs v s).low v = s.timer := by
  simp [enter]

/-- Other low links stay. -/
theorem low_enter_of_ne (h : x ≠ v) : (enter nbrs v s).low x = s.low x := by
  simp [enter, Function.update_of_ne h]

/-- No edge out of the new vertex has been read. -/
theorem examined_enter (h : (enter nbrs v s).Examined nbrs x w) :
    x ≠ v ∧ s.Examined nbrs x w := by
  refine ⟨?_, h.1, fun f hf hfx => h.2 f (List.mem_cons_of_mem _ hf) hfx⟩
  rintro rfl
  have := h.2 ⟨x, nbrs x, 0⟩ List.mem_cons_self rfl
  simp at this

/-- The vertices discovered after `v` is entered. -/
theorem card_discovered_enter (hv : ¬ s.Discovered v) (hvm : v ∈ verts) :
    (verts.filter (enter nbrs v s).Discovered).card
      = (verts.filter s.Discovered).card + 1 := by
  have hset : verts.filter (enter nbrs v s).Discovered
      = insert v (verts.filter s.Discovered) := by
    ext x
    rw [Finset.mem_filter, Finset.mem_insert, Finset.mem_filter, discovered_enter]
    constructor
    · rintro ⟨hx, rfl | hd⟩
      · exact Or.inl rfl
      · exact Or.inr ⟨hx, hd⟩
    · rintro (rfl | ⟨hx, hd⟩)
      · exact ⟨hvm, Or.inl rfl⟩
      · exact ⟨hx, Or.inr hd⟩
  rw [hset, Finset.card_insert_of_notMem (fun hm => hv (Finset.mem_filter.mp hm).2)]

/-- A stacked vertex is another one than a new vertex. -/
theorem Inv.ne_of_mem_stk (h : Inv nbrs verts P s) (hv : ¬ s.Discovered v) (hx : x ∈ s.stk) :
    x ≠ v := fun hxv => hv (hxv ▸ h.stk_disc x hx)

/-- The active vertices are discovered, so the entered one is none of them. -/
theorem Inv.ne_of_mem_active (h : Inv nbrs verts P s) (hv : ¬ s.Discovered v) (hx : x ∈ s.active) :
    x ≠ v := h.ne_of_mem_stk hv (h.active_stk x hx)

/-- The new vertex has the greatest number. -/
theorem Inv.discAt_enter_lt (h : Inv nbrs verts P s) (hv : ¬ s.Discovered v) (hx : x ∈ s.stk) :
    (enter nbrs v s).discAt x < (enter nbrs v s).discAt v := by
  rw [discAt_enter_self, discAt_enter_of_ne (h.ne_of_mem_stk hv hx)]
  exact h.disc_lt x (h.stk_disc x hx)

/-- The new vertex is stacked, so no other component is complete. -/
theorem done_enter (hv : ¬ s.Discovered v) : (enter nbrs v s).Done x ↔ s.Done x := by
  show (enter nbrs v s).Discovered x ∧ x ∉ v :: s.stk ↔ s.Discovered x ∧ x ∉ s.stk
  rw [discovered_enter, List.mem_cons]
  constructor
  · rintro ⟨rfl | hd, hx⟩
    · exact absurd (Or.inl rfl) hx
    · exact ⟨hd, fun hm => hx (Or.inr hm)⟩
  · rintro ⟨hd, hx⟩
    refine ⟨Or.inr hd, ?_⟩
    rintro (rfl | hm)
    · exact hv hd
    · exact hx hm

/-- The timer stays ahead of every discovery time. -/
theorem Inv.disc_lt_enter (h : Inv nbrs verts P s) (hv : ¬ s.Discovered v)
    (hx : (enter nbrs v s).Discovered x) : (enter nbrs v s).discAt x < (enter nbrs v s).timer := by
  show _ < s.timer + 1
  rcases discovered_enter.mp hx with rfl | hx
  · rw [discAt_enter_self]
    omega
  · rw [discAt_enter_of_ne (fun hxv : x = v => hv (hxv ▸ hx))]
    have := h.disc_lt x hx
    omega

/-- Numbers that fall along a list of stacked vertices still do. -/
theorem Inv.pairwise_enter (h : Inv nbrs verts P s) (hv : ¬ s.Discovered v) {l : List Vertex}
    (hl : ∀ x ∈ l, x ∈ s.stk) (hsorted : l.Pairwise fun x y => s.discAt y < s.discAt x) :
    (v :: l).Pairwise fun x y => (enter nbrs v s).discAt y < (enter nbrs v s).discAt x := by
  refine List.pairwise_cons.mpr ⟨fun x hx => h.discAt_enter_lt hv (hl x hx),
    hsorted.imp_of_mem fun {a b} ha hb hab => ?_⟩
  rw [discAt_enter_of_ne (h.ne_of_mem_stk hv (hl a ha)),
    discAt_enter_of_ne (h.ne_of_mem_stk hv (hl b hb))]
  exact hab

/-- The flags still mirror the stack. -/
theorem Inv.onStack_enter_iff (h : Inv nbrs verts P s) (x : Vertex) :
    (enter nbrs v s).onStack x = true ↔ x ∈ (enter nbrs v s).stk := by
  show Function.update s.onStack v true x = true ↔ x ∈ v :: s.stk
  by_cases hxv : x = v
  · simp [hxv]
  · rw [Function.update_of_ne hxv, h.onStack_iff, List.mem_cons]
    exact (or_iff_right hxv).symm

/-- What the new vertex reaches is only itself so far. -/
theorem Inv.reach_above_enter (h : Inv nbrs verts P s) (hv : ¬ s.Discovered v)
    (hreach : ∀ u ∈ s.active, Reach (Adj nbrs) u v) {u : Vertex} (hu : u ∈ v :: s.active)
    (hx : x ∈ v :: s.stk) (hux : (enter nbrs v s).discAt u ≤ (enter nbrs v s).discAt x) :
    Reach (Adj nbrs) u x := by
  rcases List.mem_cons.mp hu with huv | hua
  · rcases List.mem_cons.mp hx with hxv | hxs
    · rw [huv, hxv]
    · exact absurd (h.discAt_enter_lt hv hxs) (not_lt.mpr (huv ▸ hux))
  · rcases List.mem_cons.mp hx with hxv | hxs
    · exact hxv ▸ hreach u hua
    · rw [discAt_enter_of_ne (h.ne_of_mem_active hv hua),
        discAt_enter_of_ne (h.ne_of_mem_stk hv hxs)] at hux
      exact h.reach_above u hua x hxs hux

/-- A low link is at most the discovery time. -/
theorem Inv.low_le_enter (h : Inv nbrs verts P s) (hv : ¬ s.Discovered v) (hx : x ∈ v :: s.stk) :
    (enter nbrs v s).low x ≤ (enter nbrs v s).discAt x := by
  rcases List.mem_cons.mp hx with rfl | hx
  · rw [low_enter_self, discAt_enter_self]
  · rw [low_enter_of_ne (h.ne_of_mem_stk hv hx), discAt_enter_of_ne (h.ne_of_mem_stk hv hx)]
    exact h.low_le x hx

/-- A low link is the time of a stacked vertex that is reached. -/
theorem Inv.low_reach_enter (h : Inv nbrs verts P s) (hv : ¬ s.Discovered v)
    (hx : x ∈ v :: s.stk) : ∃ w ∈ v :: s.stk,
      (enter nbrs v s).discAt w = (enter nbrs v s).low x ∧ Reach (Adj nbrs) x w := by
  rcases List.mem_cons.mp hx with rfl | hx
  · exact ⟨x, List.mem_cons_self, by rw [low_enter_self, discAt_enter_self], .refl⟩
  · obtain ⟨w, hw, hwx, hr⟩ := h.low_reach x hx
    refine ⟨w, List.mem_cons_of_mem _ hw, ?_, hr⟩
    rw [low_enter_of_ne (h.ne_of_mem_stk hv hx), discAt_enter_of_ne (h.ne_of_mem_stk hv hw)]
    exact hwx

/-- An edge to the new vertex is accounted for by the new vertex itself. -/
theorem Inv.low_cover_enter (h : Inv nbrs verts [v] s) (hv : ¬ s.Discovered v) {u : Vertex}
    (hu : u ∈ v :: s.active) (hx : x ∈ v :: s.stk)
    (hux : (enter nbrs v s).discAt u ≤ (enter nbrs v s).discAt x) (hw : w ∈ v :: s.stk)
    (he : (enter nbrs v s).Examined nbrs x w) :
    ∃ q ∈ v :: s.active, (enter nbrs v s).discAt u ≤ (enter nbrs v s).discAt q ∧
      (enter nbrs v s).low q ≤ (enter nbrs v s).discAt w := by
  obtain ⟨hxv, he⟩ := examined_enter he
  have hxs := (List.mem_cons.mp hx).resolve_left hxv
  have huv : u ≠ v := fun huv => absurd (h.discAt_enter_lt hv hxs) (not_lt.mpr (huv ▸ hux))
  have hua := (List.mem_cons.mp hu).resolve_left huv
  by_cases hwv : w = v
  · subst hwv
    refine ⟨w, List.mem_cons_self, (h.discAt_enter_lt hv (h.active_stk u hua)).le, ?_⟩
    rw [low_enter_self, discAt_enter_self]
  · rw [discAt_enter_of_ne huv, discAt_enter_of_ne hxv] at hux
    rcases h.low_cover u hua x hxs hux w ((List.mem_cons.mp hw).resolve_left hwv) he with
      ⟨q, hq, huq, hqw⟩ | hwP
    · have hqv := h.ne_of_mem_active hv hq
      refine ⟨q, List.mem_cons_of_mem _ hq, ?_, ?_⟩
      · rw [discAt_enter_of_ne huv, discAt_enter_of_ne hqv]
        exact huq
      · rw [low_enter_of_ne hqv, discAt_enter_of_ne hwv]
        exact hqw
    · exact absurd (List.mem_singleton.mp hwP) hwv

/-- **The step**: the pending target is entered. -/
theorem inv_enter (h : Inv nbrs verts [v] s) (hv : ¬ s.Discovered v) (hvm : v ∈ verts)
    (ht : s.timer < intMax) (hreach : ∀ u ∈ s.active, Reach (Adj nbrs) u v) :
    Inv nbrs verts [] (enter nbrs v s) where
  timer_eq := by
    rw [card_discovered_enter hv hvm, Nat.cast_add, Nat.cast_one, ← h.timer_eq]
    rfl
  timer_le := Int.add_one_le_of_lt ht
  disc_mem := by
    intro x hx
    rcases discovered_enter.mp hx with rfl | hx
    · exact hvm
    · exact h.disc_mem x hx
  disc_lt := fun _ hx => h.disc_lt_enter hv hx
  stk_disc := by
    intro x hx
    rcases List.mem_cons.mp hx with rfl | hx
    · exact discovered_enter.mpr (Or.inl rfl)
    · exact discovered_enter.mpr (Or.inr (h.stk_disc x hx))
  stk_sorted := h.pairwise_enter hv (fun _ hx => hx) h.stk_sorted
  onStack_iff := h.onStack_enter_iff
  active_sorted := h.pairwise_enter hv h.active_stk h.active_sorted
  active_stk := List.forall_mem_cons.mpr
    ⟨List.mem_cons_self, fun u hu => List.mem_cons_of_mem _ (h.active_stk u hu)⟩
  frame_neighbors := List.forall_mem_cons.mpr ⟨rfl, h.frame_neighbors⟩
  examined_disc := by
    intro x w hx he
    obtain ⟨hxv, he⟩ := examined_enter he
    rcases h.examined_disc x w ((discovered_enter.mp hx).resolve_left hxv) he with hw | hw
    · exact Or.inl (discovered_enter.mpr (Or.inr hw))
    · exact Or.inl (discovered_enter.mpr (Or.inl (List.mem_singleton.mp hw)))
  done_closed := fun x w hx hxw =>
    (done_enter hv).mpr (h.done_closed x w ((done_enter hv).mp hx) hxw)
  reach_above := fun _ hu _ hx hux => h.reach_above_enter hv hreach hu hx hux
  low_le := fun _ hx => h.low_le_enter hv hx
  low_reach := fun _ hx => h.low_reach_enter hv hx
  low_lt := by
    intro x hx hxa
    have hxv : x ≠ v := fun hxv => hxa (hxv ▸ List.mem_cons_self)
    rw [low_enter_of_ne hxv, discAt_enter_of_ne hxv]
    exact h.low_lt x ((List.mem_cons.mp hx).resolve_left hxv)
      (fun hm => hxa (List.mem_cons_of_mem _ hm))
  low_cover := fun _ hu _ hx hux _ hw he => Or.inl (h.low_cover_enter hv hu hx hux hw he)
  sccs_nodup := h.sccs_nodup
  mem_sccs := fun x => (h.mem_sccs x).trans (done_enter hv).symm
  sccs_ne_nil := h.sccs_ne_nil
  sccs_class := h.sccs_class

end Enter

/-! ## An edge is read from the top frame -/

section Edge

variable {cur : Frame} {rest : List Frame} {u v x w : Vertex}

/-- Advancing an iterator keeps the active vertices. -/
theorem active_advance (hcs : s.callStack = cur :: rest) :
    (advance cur rest s).active = s.active := by
  simp [State.active, advance, hcs]

/-- Advancing the top frame reads one more edge. -/
theorem examined_advance (hcs : s.callStack = cur :: rest)
    (hidx : cur.idx < cur.neighbors.length) (h : (advance cur rest s).Examined nbrs x w) :
    s.Examined nbrs x w ∨ w = cur.neighbors[cur.idx] := by
  obtain ⟨hw, hf⟩ := h
  by_cases hwv : w = cur.neighbors[cur.idx]
  · exact Or.inr hwv
  · refine Or.inl ⟨hw, fun f hfm hfx => ?_⟩
    rw [hcs] at hfm
    rcases List.mem_cons.mp hfm with rfl | hfm
    · have htake := hf { f with idx := f.idx + 1 } List.mem_cons_self hfx
      rw [List.take_add_one, List.getElem?_eq_getElem hidx, List.mem_append] at htake
      rcases htake with ht | ht
      · exact ht
      · exact absurd (by simpa using ht) hwv
    · exact hf f (List.mem_cons_of_mem _ hfm) hfx

/-- Advancing leaves the neighbour taken as the pending one. -/
theorem inv_advance (h : Inv nbrs verts [] s) (hcs : s.callStack = cur :: rest)
    (hidx : cur.idx < cur.neighbors.length) :
    Inv nbrs verts [cur.neighbors[cur.idx]] (advance cur rest s) :=
  { h with
    active_sorted := by
      rw [active_advance hcs]
      exact h.active_sorted
    active_stk := by
      rw [active_advance hcs]
      exact h.active_stk
    frame_neighbors := by
      intro f hf
      rcases List.mem_cons.mp hf with rfl | hf
      · exact h.frame_neighbors cur (hcs ▸ List.mem_cons_self)
      · exact h.frame_neighbors f (hcs ▸ List.mem_cons_of_mem _ hf)
    examined_disc := by
      intro x w hx he
      rcases examined_advance hcs hidx he with he | he
      · exact Or.inl ((h.examined_disc x w hx he).resolve_right (by simp))
      · exact Or.inr (List.mem_singleton.mpr he)
    reach_above := by
      rw [active_advance hcs]
      exact h.reach_above
    low_lt := by
      rw [active_advance hcs]
      exact h.low_lt
    low_cover := by
      intro u hu x hx hux w hw he
      rw [active_advance hcs] at hu ⊢
      rcases examined_advance hcs hidx he with he | he
      · exact Or.inl ((h.low_cover u hu x hx hux w hw he).resolve_right (by simp))
      · exact Or.inr (List.mem_singleton.mpr he) }

/-- A back edge lowers the low link to the time of its target. -/
theorem low_backEdge_self : (backEdge u v s).low u = min (s.low u) (s.discAt v) := by
  simp [backEdge]

/-- A back edge lowers no other low link. -/
theorem low_backEdge_of_ne (h : x ≠ u) : (backEdge u v s).low x = s.low x := by
  simp [backEdge, Function.update_of_ne h]

/-- Low links only fall. -/
theorem low_backEdge_le (x : Vertex) : (backEdge u v s).low x ≤ s.low x := by
  by_cases h : x = u
  · rw [h, low_backEdge_self]
    exact min_le_left _ _
  · rw [low_backEdge_of_ne h]

/-- The head of the active vertices has the largest number of them. -/
theorem Inv.discAt_le_head {as : List Vertex} (h : Inv nbrs verts P s)
    (hact : s.active = u :: as) {q : Vertex} (hq : q ∈ s.active) : s.discAt q ≤ s.discAt u := by
  have hsorted := h.active_sorted
  rw [hact] at hsorted hq
  rcases List.mem_cons.mp hq with rfl | hq
  · exact le_rfl
  · exact ((List.pairwise_cons.mp hsorted).1 q hq).le

/-- A back edge to a stacked vertex settles the pending neighbour. -/
theorem inv_backEdge {as : List Vertex} (h : Inv nbrs verts [v] s) (hact : s.active = u :: as)
    (hv : v ∈ s.stk) (huv : v ∈ nbrs u) : Inv nbrs verts [] (backEdge u v s) := by
  have hu : u ∈ s.active := hact ▸ List.mem_cons_self
  exact
  { h with
    examined_disc := by
      intro x w hx he
      rcases h.examined_disc x w hx he with hw | hw
      · exact Or.inl hw
      · exact Or.inl (List.mem_singleton.mp hw ▸ h.stk_disc v hv)
    low_le := fun x hx => (low_backEdge_le x).trans (h.low_le x hx)
    low_reach := by
      intro x hx
      obtain ⟨w, hw, hwx, hr⟩ := h.low_reach x hx
      by_cases hxu : x = u
      · subst hxu
        rcases min_choice (s.low x) (s.discAt v) with hm | hm
        · exact ⟨w, hw, by rw [low_backEdge_self, hm]; exact hwx, hr⟩
        · exact ⟨v, hv, by rw [low_backEdge_self, hm]; rfl, .single huv⟩
      · exact ⟨w, hw, by rw [low_backEdge_of_ne hxu]; exact hwx, hr⟩
    low_lt := fun x hx hxa => (low_backEdge_le x).trans_lt (h.low_lt x hx hxa)
    low_cover := by
      intro a ha x hx hax w hw he
      left
      rcases h.low_cover a ha x hx hax w hw he with ⟨q, hq, haq, hqw⟩ | hwv
      · exact ⟨q, hq, haq, (low_backEdge_le q).trans hqw⟩
      · obtain rfl := List.mem_singleton.mp hwv
        refine ⟨u, hu, h.discAt_le_head hact ha, ?_⟩
        rw [low_backEdge_self]
        exact min_le_right _ _ }

end Edge

/-! ## The top frame is left -/

section Leave

variable {cur : Frame} {rest : List Frame} {x w : Vertex}

/-- Once the neighbours of the top frame are exhausted, all its edges have been
read, so dropping the frame exposes no unread edge. -/
theorem examined_of_rest (h : Inv nbrs verts P s) (hcs : s.callStack = cur :: rest)
    (hidx : cur.neighbors.length ≤ cur.idx) (hw : w ∈ nbrs x)
    (hrest : ∀ f ∈ rest, f.u = x → w ∈ f.neighbors.take f.idx) : s.Examined nbrs x w := by
  refine ⟨hw, fun f hf hfx => ?_⟩
  rw [hcs] at hf
  rcases List.mem_cons.mp hf with rfl | hf
  · rw [List.take_of_length_le hidx, h.frame_neighbors f (hcs ▸ List.mem_cons_self), hfx]
    exact hw
  · exact hrest f hf hfx

/-- The top frame is the last active vertex. -/
theorem active_eq_cons (hcs : s.callStack = cur :: rest) :
    s.active = cur.u :: rest.map (·.u) := by
  rw [State.active, hcs, List.map_cons]

/-- The vertices of the lower frames have smaller numbers. -/
theorem Inv.discAt_lt_of_mem_rest (h : Inv nbrs verts P s) (hcs : s.callStack = cur :: rest)
    {a : Vertex} (ha : a ∈ rest.map (·.u)) : s.discAt a < s.discAt cur.u := by
  have hsorted := h.active_sorted
  rw [active_eq_cons hcs] at hsorted
  exact (List.pairwise_cons.mp hsorted).1 a ha

/-- What leaving a frame does: the frame is dropped, and only the low-link of the
parent may sink, to the low-link of the vertex that is left. -/
theorem returnToParent_spec (u : Vertex) (rest : List Frame) (s : State) :
    ∃ low' : Vertex → ℤ,
      returnToParent u rest s = { s with callStack := rest, low := low' } ∧
      (∀ x, low' x ≤ s.low x) ∧
      (∀ x, low' x = s.low x ∨ (low' x = s.low u ∧ x ∈ rest.map (·.u))) ∧
      ∀ parent rest', rest = parent :: rest' → low' parent.u ≤ s.low u := by
  cases rest with
  | nil => exact ⟨s.low, rfl, fun _ => le_rfl, fun _ => Or.inl rfl, by simp⟩
  | cons parent rest =>
    refine ⟨_, rfl, fun x => ?_, fun x => ?_, ?_⟩
    · by_cases hx : x = parent.u
      · rw [hx, Function.update_self]
        exact min_le_left _ _
      · rw [Function.update_of_ne hx]
    · by_cases hx : x = parent.u
      · rw [hx, Function.update_self]
        rcases min_choice (s.low parent.u) (s.low u) with hm | hm
        · exact Or.inl hm
        · exact Or.inr ⟨hm, List.mem_cons_self⟩
      · exact Or.inl (Function.update_of_ne hx _ _)
    · intro p rest' hp
      obtain ⟨rfl, rfl⟩ := List.cons.inj hp
      rw [Function.update_self]
      exact min_le_right _ _

/-- A vertex that is not the root of its component is left. -/
theorem inv_returnToParent (h : Inv nbrs verts [] s) (hcs : s.callStack = cur :: rest)
    (hidx : cur.neighbors.length ≤ cur.idx) (hlow : s.low cur.u ≠ s.discAt cur.u) :
    Inv nbrs verts [] (returnToParent cur.u rest s) := by
  obtain ⟨low', heq, hle, hcases, hhead⟩ := returnToParent_spec cur.u rest s
  rw [heq]
  have hact := active_eq_cons hcs
  have hsub : ∀ a ∈ rest.map (·.u), a ∈ s.active := fun a ha =>
    hact ▸ List.mem_cons_of_mem _ ha
  have hcur : cur.u ∈ s.stk := h.active_stk _ (hact ▸ List.mem_cons_self)
  have hsorted : (rest.map (·.u)).Pairwise fun x y => s.discAt y < s.discAt x :=
    (List.pairwise_cons.mp (hact ▸ h.active_sorted)).2
  exact
  { h with
    active_sorted := hsorted
    active_stk := fun a ha => h.active_stk a (hsub a ha)
    frame_neighbors := fun f hf => h.frame_neighbors f (hcs ▸ List.mem_cons_of_mem _ hf)
    examined_disc := fun x w hx he =>
      h.examined_disc x w hx (examined_of_rest h hcs hidx he.1 he.2)
    reach_above := fun a ha => h.reach_above a (hsub a ha)
    low_le := fun x hx => (hle x).trans (h.low_le x hx)
    low_reach := by
      intro x hx
      rcases hcases x with hx' | ⟨hx', hxr⟩
      · obtain ⟨w, hw, hwx, hr⟩ := h.low_reach x hx
        exact ⟨w, hw, hwx.trans hx'.symm, hr⟩
      · -- the parent inherits the vertex its child can reach
        obtain ⟨w, hw, hwu, hr⟩ := h.low_reach cur.u hcur
        have hxu := h.reach_above x (hsub x hxr) cur.u hcur (h.discAt_lt_of_mem_rest hcs hxr).le
        exact ⟨w, hw, hwu.trans hx'.symm, hxu.trans hr⟩
    low_lt := by
      intro x hx hxa
      refine (hle x).trans_lt ?_
      by_cases hxu : x = cur.u
      · rw [hxu]
        exact lt_of_le_of_ne (h.low_le _ hcur) hlow
      · refine h.low_lt x hx fun hm => ?_
        rw [hact] at hm
        exact hxa ((List.mem_cons.mp hm).resolve_left hxu)
    low_cover := by
      intro a ha x hx hax w hw he
      left
      have he' : s.Examined nbrs x w := examined_of_rest h hcs hidx he.1 he.2
      obtain ⟨q, hq, haq, hqw⟩ :=
        (h.low_cover a (hsub a ha) x hx hax w hw he').resolve_right (by simp)
      rw [hact] at hq
      rcases List.mem_cons.mp hq with rfl | hq
      · -- what the dropped vertex accounted for, its parent now does
        cases rest with
        | nil => exact absurd ha List.not_mem_nil
        | cons parent rest =>
          refine ⟨parent.u, List.mem_cons_self, ?_, (hhead parent rest rfl).trans hqw⟩
          rcases List.mem_cons.mp ha with rfl | ha
          · exact le_rfl
          · exact ((List.pairwise_cons.mp hsorted).1 a ha).le
      · exact ⟨q, hq, haq, (hle q).trans hqw⟩ }

end Leave

/-! ## The root of a component is left -/

section Root

variable {cur : Frame} {rest : List Frame} {u x w : Vertex} {A B : List Vertex}

/-- The popping loop stops at the first occurrence of `u`. -/
theorem popComponent_eq (hu : u ∉ A) (onStack : Vertex → Bool) (comp : Component) :
    popComponent u (A ++ u :: B) onStack comp
      = some (B, (fun x => if x ∈ A ++ [u] then false else onStack x), comp ++ (A ++ [u])) := by
  induction A generalizing onStack comp with
  | nil =>
    have hfun : Function.update onStack u false
        = fun x => if x ∈ ([] : List Vertex) ++ [u] then false else onStack x := by
      funext x
      by_cases hx : x = u <;> simp [hx]
    rw [List.nil_append, popComponent, if_neg (not_not.mpr rfl), hfun, List.nil_append]
  | cons w A ih =>
    have hwu : w ≠ u := fun hwu => hu (hwu ▸ List.mem_cons_self)
    have hfun : (fun x => if x ∈ A ++ [u] then false else Function.update onStack w false x)
        = fun x => if x ∈ w :: A ++ [u] then false else onStack x := by
      funext x
      by_cases hx : x = w <;> simp [hx]
    rw [List.cons_append, popComponent, if_pos hwu, ih (fun hm => hu (List.mem_cons_of_mem _ hm)),
      hfun]
    simp

/-- The stack from the top down to `u` holds the numbers from that of `u` on. -/
theorem Inv.mem_top_iff (h : Inv nbrs verts P s) (hstk : s.stk = A ++ u :: B)
    (hx : x ∈ s.stk) : x ∈ A ++ [u] ↔ s.discAt u ≤ s.discAt x := by
  have hsorted := h.stk_sorted
  rw [hstk, List.pairwise_append, List.pairwise_cons] at hsorted
  obtain ⟨_, ⟨huB, _⟩, hAB⟩ := hsorted
  rw [hstk, List.mem_append, List.mem_cons] at hx
  rw [List.mem_append, List.mem_singleton]
  constructor
  · rintro (hA | rfl)
    · exact (hAB x hA u List.mem_cons_self).le
    · exact le_rfl
  · intro hux
    rcases hx with hA | rfl | hB
    · exact Or.inl hA
    · exact Or.inr rfl
    · exact absurd (huB x hB) (not_lt.mpr hux)

/-- Below a vertex on the stack are those discovered before it. -/
theorem Inv.mem_below_iff (h : Inv nbrs verts P s) (hstk : s.stk = A ++ u :: B) :
    x ∈ B ↔ x ∈ s.stk ∧ s.discAt x < s.discAt u := by
  constructor
  · intro hB
    have hsorted := h.stk_sorted
    rw [hstk, List.pairwise_append, List.pairwise_cons] at hsorted
    refine ⟨?_, hsorted.2.1.1 x hB⟩
    rw [hstk]
    exact List.mem_append_right _ (List.mem_cons_of_mem _ hB)
  · rintro ⟨hx, hlt⟩
    have hnot : x ∉ A ++ [u] := fun hm => absurd ((h.mem_top_iff hstk hx).mp hm) (not_le.mpr hlt)
    rw [hstk, List.mem_append, List.mem_cons] at hx
    rw [List.mem_append, List.mem_singleton] at hnot
    tauto

/-- Where the edges of the component lead: back into it or to earlier ones.  This
is the step at which the low-link of the root pays off. -/
theorem Inv.top_closed (h : Inv nbrs verts [] s) (hcs : s.callStack = cur :: rest)
    (hidx : cur.neighbors.length ≤ cur.idx) (hroot : s.low cur.u = s.discAt cur.u)
    (hx : x ∈ s.stk) (hux : s.discAt cur.u ≤ s.discAt x) (hw : w ∈ nbrs x) :
    (w ∈ s.stk ∧ s.discAt cur.u ≤ s.discAt w) ∨ s.Done w := by
  have hact := active_eq_cons hcs
  have he : s.Examined nbrs x w := by
    refine examined_of_rest h hcs hidx hw fun f hf hfx => ?_
    have hlt := h.discAt_lt_of_mem_rest hcs (List.mem_map_of_mem (f := (·.u)) hf)
    rw [hfx] at hlt
    exact absurd hlt (not_lt.mpr hux)
  have hwd := (h.examined_disc x w (h.stk_disc x hx) he).resolve_right (by simp)
  by_cases hws : w ∈ s.stk
  · left
    refine ⟨hws, ?_⟩
    obtain ⟨q, hq, huq, hqw⟩ := (h.low_cover cur.u (hact ▸ List.mem_cons_self) x hx hux w hws
      he).resolve_right (by simp)
    rw [hact] at hq
    rcases List.mem_cons.mp hq with rfl | hq
    · rwa [hroot] at hqw
    · exact absurd (h.discAt_lt_of_mem_rest hcs hq) (not_lt.mpr huq)
  · exact Or.inr ⟨hwd, hws⟩

/-- The same along a path. -/
theorem Inv.top_closed_reach (h : Inv nbrs verts [] s) (hcs : s.callStack = cur :: rest)
    (hidx : cur.neighbors.length ≤ cur.idx) (hroot : s.low cur.u = s.discAt cur.u)
    (hx : x ∈ s.stk) (hux : s.discAt cur.u ≤ s.discAt x) (hxw : Reach (Adj nbrs) x w) : (w ∈ s.stk ∧ s.discAt cur.u ≤ s.discAt w) ∨ s.Done w := by
  refine mem_of_reach
    (S := fun y => (y ∈ s.stk ∧ s.discAt cur.u ≤ s.discAt y) ∨ s.Done y) ?_ (Or.inl ⟨hx, hux⟩) hxw
  rintro a b (⟨ha, hua⟩ | ha) hab
  · exact h.top_closed hcs hidx hroot ha hua hab
  · exact Or.inr (h.done_closed a b ha hab)

/-- Everything stacked above the root reaches it: low-links descend to it. -/
theorem Inv.reach_root (h : Inv nbrs verts [] s) (hcs : s.callStack = cur :: rest)
    (hidx : cur.neighbors.length ≤ cur.idx) (hroot : s.low cur.u = s.discAt cur.u) :
    ∀ (n : ℕ) (x : Vertex), x ∈ s.stk → s.discAt cur.u ≤ s.discAt x →
      s.discAt x ≤ s.discAt cur.u + n → Reach (Adj nbrs) x cur.u := by
  intro n
  induction n using Nat.strong_induction_on with
  | _ n ih =>
    intro x hx hux hxn
    by_cases hxu : x = cur.u
    · rw [hxu]
    · have hxa : x ∉ s.active := by
        rw [active_eq_cons hcs, List.mem_cons]
        rintro (hc | hc)
        · exact hxu hc
        · exact absurd (h.discAt_lt_of_mem_rest hcs hc) (not_lt.mpr hux)
      have hlow := h.low_lt x hx hxa
      obtain ⟨w, hw, hwx, hxw⟩ := h.low_reach x hx
      rcases h.top_closed_reach hcs hidx hroot hx hux hxw with ⟨_, huw⟩ | hdone
      · have hstep : Reach (Adj nbrs) w cur.u :=
          ih (s.discAt w - s.discAt cur.u).toNat (by omega) w hw huw (by omega)
        exact hxw.trans hstep
      · exact absurd hw hdone.2

/-- The popped vertices form one class of mutual reachability. -/
theorem Inv.mem_top_iff_mutual (h : Inv nbrs verts [] s) (hcs : s.callStack = cur :: rest)
    (hidx : cur.neighbors.length ≤ cur.idx) (hroot : s.low cur.u = s.discAt cur.u)
    (hstk : s.stk = A ++ cur.u :: B) (hx : x ∈ A ++ [cur.u]) (y : Vertex) :
    y ∈ A ++ [cur.u] ↔ Mutual (Adj nbrs) x y := by
  have hcur : cur.u ∈ s.active := active_eq_cons hcs ▸ List.mem_cons_self
  have hmem : ∀ z ∈ A ++ [cur.u], z ∈ s.stk := by
    intro z hz
    rw [hstk]
    rw [List.mem_append, List.mem_singleton] at hz
    rcases hz with hz | rfl
    · exact List.mem_append_left _ hz
    · exact List.mem_append_right _ List.mem_cons_self
  have hmutual : ∀ z ∈ A ++ [cur.u], Mutual (Adj nbrs) cur.u z := by
    intro z hz
    have hzs := hmem z hz
    have huz := (h.mem_top_iff hstk hzs).mp hz
    exact ⟨h.reach_above cur.u hcur z hzs huz, h.reach_root hcs hidx hroot
      (s.discAt z - s.discAt cur.u).toNat z hzs huz (by omega)⟩
  constructor
  · intro hy
    exact (hmutual x hx).symm.trans (hmutual y hy)
  · intro hxy
    have huy := (hmutual x hx).trans hxy
    rcases h.top_closed_reach hcs hidx hroot (h.active_stk _ hcur) le_rfl huy.1 with
      ⟨hys, hle⟩ | hdone
    · exact (h.mem_top_iff hstk hys).mpr hle
    · have hu : s.Done cur.u := mem_of_reach (S := s.Done) h.done_closed hdone huy.2
      exact absurd (h.active_stk _ hcur) hu.2

/-- The state after the component of the root has been popped and its frame left. -/
def popped (cur : Frame) (rest : List Frame) (A B : List Vertex) (s : State) : State :=
  { s with
    stk := B
    onStack := fun x => if x ∈ A ++ [cur.u] then false else s.onStack x
    sccs := s.sccs ++ [A ++ [cur.u]]
    callStack := rest }

/-- Popping a component finishes exactly its vertices. -/
theorem done_popped (h : Inv nbrs verts P s) (hstk : s.stk = A ++ cur.u :: B) (x : Vertex) :
    (popped cur rest A B s).Done x ↔ s.Done x ∨ x ∈ A ++ [cur.u] := by
  have hsplit : x ∈ s.stk ↔ x ∈ A ++ [cur.u] ∨ x ∈ B := by
    rw [hstk, List.append_cons, List.mem_append]
  have hdisj : x ∈ A ++ [cur.u] → x ∉ B := fun hA hB =>
    absurd ((h.mem_top_iff hstk (hsplit.mpr (Or.inl hA))).mp hA)
      (not_le.mpr ((h.mem_below_iff hstk).mp hB).2)
  have hdisc : x ∈ A ++ [cur.u] → s.Discovered x := fun hA =>
    h.stk_disc x (hsplit.mpr (Or.inl hA))
  show s.Discovered x ∧ x ∉ B ↔ (s.Discovered x ∧ x ∉ s.stk) ∨ x ∈ A ++ [cur.u]
  tauto

/-- The popped vertices were stacked. -/
theorem mem_stk_of_top (hstk : s.stk = A ++ cur.u :: B) (hx : x ∈ A ++ [cur.u]) : x ∈ s.stk := by
  rw [hstk, List.append_cons]
  exact List.mem_append_left _ hx

/-- After the pop the flags mirror what is left of the stack. -/
theorem Inv.onStack_popped_iff (h : Inv nbrs verts P s) (hstk : s.stk = A ++ cur.u :: B)
    (x : Vertex) : (popped cur rest A B s).onStack x = true ↔ x ∈ B := by
  show (if x ∈ A ++ [cur.u] then false else s.onStack x) = true ↔ x ∈ B
  rw [h.mem_below_iff hstk]
  split_ifs with hx
  · have := (h.mem_top_iff hstk (mem_stk_of_top hstk hx)).mp hx
    simp only [false_iff, not_and, not_lt]
    exact fun _ => this
  · rw [h.onStack_iff]
    refine ⟨fun hxs => ⟨hxs, ?_⟩, fun hxs => hxs.1⟩
    exact not_le.mp fun hle => hx ((h.mem_top_iff hstk hxs).mpr hle)

/-- The popped component has no edge out of it but to complete ones. -/
theorem Inv.done_closed_popped (h : Inv nbrs verts [] s) (hcs : s.callStack = cur :: rest)
    (hidx : cur.neighbors.length ≤ cur.idx) (hroot : s.low cur.u = s.discAt cur.u)
    (hstk : s.stk = A ++ cur.u :: B) {w : Vertex} (hx : (popped cur rest A B s).Done x)
    (hxw : w ∈ nbrs x) : (popped cur rest A B s).Done w := by
  rw [done_popped h hstk] at hx ⊢
  rcases hx with hx | hx
  · exact Or.inl (h.done_closed x w hx hxw)
  · have hxs := mem_stk_of_top hstk hx
    rcases h.top_closed hcs hidx hroot hxs ((h.mem_top_iff hstk hxs).mp hx) hxw with
      ⟨hws, huw⟩ | hw
    · exact Or.inr ((h.mem_top_iff hstk hws).mpr huw)
    · exact Or.inl hw

/-- The root accounts for no edge to a vertex below it, so another active vertex does. -/
theorem Inv.low_cover_popped (h : Inv nbrs verts [] s) (hcs : s.callStack = cur :: rest)
    (hidx : cur.neighbors.length ≤ cur.idx) (hroot : s.low cur.u = s.discAt cur.u)
    (hstk : s.stk = A ++ cur.u :: B) {a w : Vertex} (ha : a ∈ rest.map (·.u)) (hx : x ∈ B)
    (hax : s.discAt a ≤ s.discAt x) (hw : w ∈ B)
    (he : (popped cur rest A B s).Examined nbrs x w) :
    ∃ q ∈ rest.map (·.u), s.discAt a ≤ s.discAt q ∧ s.low q ≤ s.discAt w := by
  have hact := active_eq_cons hcs
  have haa : a ∈ s.active := hact ▸ List.mem_cons_of_mem _ ha
  have he' : s.Examined nbrs x w := examined_of_rest h hcs hidx he.1 he.2
  obtain ⟨hws, hwlt⟩ := (h.mem_below_iff hstk).mp hw
  obtain ⟨q, hq, haq, hqw⟩ := (h.low_cover a haa x ((h.mem_below_iff hstk).mp hx).1 hax w hws
    he').resolve_right (by simp)
  rw [hact] at hq
  rcases List.mem_cons.mp hq with rfl | hq
  · rw [hroot] at hqw
    exact absurd hqw (not_le.mpr hwlt)
  · exact ⟨q, hq, haq, hqw⟩

/-- The popped component is disjoint from those before it. -/
theorem Inv.sccs_nodup_popped (h : Inv nbrs verts P s) (hstk : s.stk = A ++ cur.u :: B) :
    (popped cur rest A B s).sccs.flatten.Nodup := by
  have hsorted := h.stk_sorted
  rw [hstk, List.append_cons, List.pairwise_append] at hsorted
  show (s.sccs ++ [A ++ [cur.u]]).flatten.Nodup
  rw [List.flatten_append, List.flatten_singleton, List.nodup_append]
  refine ⟨h.sccs_nodup, hsorted.1.imp (fun {a b} hab hne => ?_), ?_⟩
  · rw [hne] at hab
    exact absurd hab (lt_irrefl _)
  · rintro a ha b hb rfl
    exact absurd (mem_stk_of_top hstk hb) ((h.mem_sccs a).mp ha).2

/-- **The step**: the root of a component is left, its component stored. -/
theorem inv_popped (h : Inv nbrs verts [] s) (hcs : s.callStack = cur :: rest)
    (hidx : cur.neighbors.length ≤ cur.idx) (hroot : s.low cur.u = s.discAt cur.u)
    (hstk : s.stk = A ++ cur.u :: B) : Inv nbrs verts [] (popped cur rest A B s) := by
  have hact := active_eq_cons hcs
  have hsub : ∀ a ∈ rest.map (·.u), a ∈ s.active := fun a ha =>
    hact ▸ List.mem_cons_of_mem _ ha
  have hbelow : ∀ x, x ∈ B ↔ x ∈ s.stk ∧ s.discAt x < s.discAt cur.u := fun x =>
    h.mem_below_iff hstk
  have hBstk : ∀ x ∈ B, x ∈ s.stk := fun x hx => ((hbelow x).mp hx).1
  have hsorted := h.stk_sorted
  rw [hstk, List.append_cons, List.pairwise_append] at hsorted
  exact
  { timer_eq := h.timer_eq
    timer_le := h.timer_le
    disc_mem := h.disc_mem
    disc_lt := h.disc_lt
    stk_disc := fun x hx => h.stk_disc x (hBstk x hx)
    stk_sorted := hsorted.2.1
    onStack_iff := h.onStack_popped_iff hstk
    active_sorted := (List.pairwise_cons.mp (hact ▸ h.active_sorted)).2
    active_stk := fun a ha =>
      (hbelow a).mpr ⟨h.active_stk a (hsub a ha), h.discAt_lt_of_mem_rest hcs ha⟩
    frame_neighbors := fun f hf => h.frame_neighbors f (hcs ▸ List.mem_cons_of_mem _ hf)
    examined_disc := fun x w hx he =>
      h.examined_disc x w hx (examined_of_rest h hcs hidx he.1 he.2)
    done_closed := fun _ _ hx hxw => h.done_closed_popped hcs hidx hroot hstk hx hxw
    reach_above := fun a ha x hx => h.reach_above a (hsub a ha) x (hBstk x hx)
    low_le := fun x hx => h.low_le x (hBstk x hx)
    low_reach := by
      intro x hx
      obtain ⟨hxs, hlt⟩ := (hbelow x).mp hx
      obtain ⟨w, hw, hwx, hr⟩ := h.low_reach x hxs
      have hle := h.low_le x hxs
      exact ⟨w, (hbelow w).mpr ⟨hw, by omega⟩, hwx, hr⟩
    low_lt := by
      intro x hx hxa
      obtain ⟨hxs, hlt⟩ := (hbelow x).mp hx
      refine h.low_lt x hxs fun hm => ?_
      rw [hact] at hm
      rcases List.mem_cons.mp hm with rfl | hm
      · exact absurd hlt (lt_irrefl _)
      · exact hxa hm
    low_cover := fun _ ha _ hx hax _ hw he =>
      Or.inl (h.low_cover_popped hcs hidx hroot hstk ha hx hax hw he)
    sccs_nodup := h.sccs_nodup_popped hstk
    mem_sccs := by
      intro x
      show x ∈ (s.sccs ++ [A ++ [cur.u]]).flatten ↔ _
      rw [List.flatten_append, List.flatten_singleton, List.mem_append, h.mem_sccs,
        done_popped h hstk]
    sccs_ne_nil := List.forall_mem_append.mpr ⟨h.sccs_ne_nil,
      List.forall_mem_singleton.mpr (List.append_ne_nil_of_right_ne_nil _ (List.cons_ne_nil _ _))⟩
    sccs_class := List.forall_mem_append.mpr ⟨h.sccs_class,
      List.forall_mem_singleton.mpr fun _ hx => h.mem_top_iff_mutual hcs hidx hroot hstk hx⟩ }

end Root

end Tarjan
