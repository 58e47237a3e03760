/-
# `Kosaraju::find_sccs` returns the partition into components

First pass: `Inv1` says that the stack of the iterative search is that of a
depth-first search, and the list of finished vertices is a finish order.  Second
pass: `Inv2` says that the search of the transpose from `start` stays inside the
component of `start`.
-/
import ZtMapper.Graph.Kosaraju
import ZtMapper.Lib.FinishOrder
import Mathlib.Algebra.Order.BigOperators.Group.Finset

open Scc Loop

namespace Kosaraju

variable {nbrs : Vertex → List Vertex} {verts : Finset Vertex}

/-- The edge relation of a neighbour function. -/
def Adj (nbrs : Vertex → List Vertex) (x y : Vertex) : Prop := y ∈ nbrs x

/-! ## The first pass -/

theorem pushUnvisited_eq (visited : Finset Vertex) (l : List Vertex)
    (dfs : List (Vertex × Bool)) :
    pushUnvisited visited l dfs
      = ((l.filter fun v => v ∉ visited).map fun v => (v, false)).reverse ++ dfs := by
  unfold pushUnvisited
  induction l generalizing dfs with
  | nil => rfl
  | cons v l ih =>
    rw [List.foldl_cons, ih]
    by_cases hv : v ∈ visited <;> simp [hv]

/-- The state of the first pass when the loop tests its condition. -/
structure Inv1 (nbrs : Vertex → List Vertex) (verts : Finset Vertex) (s : Pass1) : Prop where
  dfs_mem : ∀ e ∈ s.dfs, e.1 ∈ verts
  finish_mem : ∀ x ∈ s.finishOrder, x ∈ verts
  /-- A visited vertex is finished or has a post-visit marker. -/
  mem_visited : ∀ x, x ∈ s.visited ↔ x ∈ s.finishOrder ∨ (x, true) ∈ s.dfs
  finish_nodup : s.finishOrder.Nodup
  marker_notMem : ∀ x, (x, true) ∈ s.dfs → x ∉ s.finishOrder
  marker_nodup : (s.dfs.filter (·.2)).Nodup
  closed : ∀ x ∈ s.finishOrder, ∀ y ∈ nbrs x, y ∈ s.visited
  /-- What a marked vertex still has to visit is stacked above its marker. -/
  pending : ∀ A z B, s.dfs = A ++ (z, true) :: B → ∀ y ∈ nbrs z, y ∈ s.visited ∨ (y, false) ∈ A
  /-- A marked vertex reaches every vertex stacked above it. -/
  above : s.dfs.Pairwise fun e e' => e'.2 = true → Reach (Adj nbrs) e'.1 e.1
  order : IsFinishOrder (Adj nbrs) s.finishOrder

/-- The loop rounds still to come. -/
def measure1 (nbrs : Vertex → List Vertex) (verts : Finset Vertex) (s : Pass1) : ℕ :=
  s.dfs.length + ∑ x ∈ verts \ s.visited, ((nbrs x).length + 2)

/-- A visited vertex no longer contributes to a sum over the unvisited ones. -/
theorem sum_sdiff_insert {visited : Finset Vertex} {u : Vertex} (f : Vertex → ℕ)
    (hu : u ∈ verts) (huv : u ∉ visited) :
    ∑ x ∈ verts \ insert u visited, f x + f u = ∑ x ∈ verts \ visited, f x := by
  have hset : verts \ insert u visited = (verts \ visited).erase u := by
    ext x
    simp only [Finset.mem_sdiff, Finset.mem_insert, Finset.mem_erase]
    tauto
  rw [hset]
  exact Finset.sum_erase_add _ f (Finset.mem_sdiff.mpr ⟨hu, huv⟩)

section Pass1

variable {s : Pass1} {u : Vertex} {rest : List (Vertex × Bool)}

/-- A marker is popped: its vertex is finished. -/
theorem inv1_finish (h : Inv1 nbrs verts s) (hdfs : s.dfs = (u, true) :: rest) :
    Inv1 nbrs verts { s with finishOrder := u :: s.finishOrder, dfs := rest } := by
  have hmem : ∀ e ∈ rest, e ∈ s.dfs := fun e he => hdfs ▸ List.mem_cons_of_mem _ he
  have humark : (u, true) ∈ s.dfs := hdfs ▸ List.mem_cons_self
  have hmark := h.marker_nodup
  rw [hdfs, List.filter_cons_of_pos rfl, List.nodup_cons] at hmark
  have hurest : (u, true) ∉ rest := fun hm => hmark.1 (List.mem_filter.mpr ⟨hm, rfl⟩)
  have hclosed : ∀ x ∈ u :: s.finishOrder, ∀ y ∈ nbrs x, y ∈ s.visited := by
    intro x hx y hy
    rcases List.mem_cons.mp hx with rfl | hx
    · exact (h.pending [] x rest hdfs y hy).resolve_right List.not_mem_nil
    · exact h.closed x hx y hy
  have habove := h.above
  rw [hdfs, List.pairwise_cons] at habove
  exact
  { dfs_mem := fun e he => h.dfs_mem e (hmem e he)
    finish_mem := by
      intro x hx
      rcases List.mem_cons.mp hx with rfl | hx
      · exact h.dfs_mem _ humark
      · exact h.finish_mem x hx
    mem_visited := by
      intro x
      rw [h.mem_visited x, hdfs, List.mem_cons, List.mem_cons, Prod.mk.injEq]
      tauto
    finish_nodup := List.nodup_cons.mpr ⟨h.marker_notMem u humark, h.finish_nodup⟩
    marker_notMem := by
      intro x hx hxf
      rcases List.mem_cons.mp hxf with rfl | hxf
      · exact hurest hx
      · exact h.marker_notMem x (hmem _ hx) hxf
    marker_nodup := hmark.2
    closed := hclosed
    pending := by
      intro A z B hsplit y hy
      have hsplit' : s.dfs = ((u, true) :: A) ++ (z, true) :: B := by
        rw [hdfs, List.cons_append]
        exact congrArg _ hsplit
      rcases h.pending _ z B hsplit' y hy with hv | hA
      · exact Or.inl hv
      · exact Or.inr ((List.mem_cons.mp hA).resolve_left (by simp))
    above := habove.2
    order := by
      refine h.order.cons fun y hy => ?_
      by_cases hyF : y ∈ u :: s.finishOrder
      · exact Or.inl hyF
      · -- the path to `y` leaves the finished vertices through a marked one
        right
        obtain ⟨a, b, ha, hb, hua, hab, -⟩ :=
          exists_exit_edge (S := fun x => x ∈ u :: s.finishOrder) List.mem_cons_self hyF hy
        have hbv := (h.mem_visited b).mp (hclosed a ha b hab)
        have hbm : (b, true) ∈ rest := by
          rcases hbv with hbf | hbm
          · exact absurd (List.mem_cons_of_mem _ hbf) hb
          · rw [hdfs, List.mem_cons] at hbm
            refine hbm.resolve_left fun heq => hb ?_
            rw [(Prod.mk.inj heq).1]
            exact List.mem_cons_self
        exact ⟨b, ⟨hua.tail hab, habove.1 _ hbm rfl⟩, hb⟩ }

/-- A vertex that was visited in the meantime is popped. -/
theorem inv1_skip (h : Inv1 nbrs verts s) (hdfs : s.dfs = (u, false) :: rest)
    (hu : u ∈ s.visited) : Inv1 nbrs verts { s with dfs := rest } := by
  have hmem : ∀ e ∈ rest, e ∈ s.dfs := fun e he => hdfs ▸ List.mem_cons_of_mem _ he
  have hmark := h.marker_nodup
  rw [hdfs, List.filter_cons_of_neg (by simp)] at hmark
  have habove := h.above
  rw [hdfs, List.pairwise_cons] at habove
  exact
  { h with
    dfs_mem := fun e he => h.dfs_mem e (hmem e he)
    mem_visited := by
      intro x
      rw [h.mem_visited x, hdfs, List.mem_cons, Prod.mk.injEq]
      simp
    marker_notMem := fun x hx => h.marker_notMem x (hmem _ hx)
    marker_nodup := hmark
    pending := by
      intro A z B hsplit y hy
      have hsplit' : s.dfs = ((u, false) :: A) ++ (z, true) :: B := by
        rw [hdfs, List.cons_append]
        exact congrArg _ hsplit
      rcases h.pending _ z B hsplit' y hy with hv | hA
      · exact Or.inl hv
      · rcases List.mem_cons.mp hA with heq | hA
        · rw [(Prod.mk.inj heq).1]
          exact Or.inl hu
        · exact Or.inr hA
    above := habove.2 }

/-- The entries pushed for the neighbours of a vertex that is visited. -/
theorem mem_pushed {visited : Finset Vertex} {l : List Vertex} {e : Vertex × Bool} :
    e ∈ ((l.filter fun v => v ∉ visited).map fun v => (v, false)).reverse
      ↔ e.1 ∈ l ∧ e.1 ∉ visited ∧ e.2 = false := by
  obtain ⟨v, b⟩ := e
  simp only [List.mem_reverse, List.mem_map, List.mem_filter, decide_eq_true_eq, Prod.mk.injEq]
  constructor
  · rintro ⟨w, ⟨hw, hwv⟩, rfl, rfl⟩
    exact ⟨hw, hwv, rfl⟩
  · rintro ⟨hv, hvv, rfl⟩
    exact ⟨v, ⟨hv, hvv⟩, rfl, rfl⟩

/-- Where a marker can stand in a stack whose uppermost entries are no markers. -/
theorem split_at_marker {T rest A B : List (Vertex × Bool)} {u z : Vertex}
    (hT : ∀ e ∈ T, e.2 = false) (h : T ++ (u, true) :: rest = A ++ (z, true) :: B) :
    (z = u ∧ A = T) ∨ ∃ A', A = T ++ (u, true) :: A' ∧ rest = A' ++ (z, true) :: B := by
  induction T generalizing A with
  | nil =>
    rcases List.cons_eq_append_iff.mp h with ⟨rfl, hB⟩ | ⟨A', rfl, hB⟩
    · exact Or.inl ⟨(Prod.mk.inj (List.cons.inj hB).1).1, rfl⟩
    · exact Or.inr ⟨A', rfl, hB⟩
  | cons t T ih =>
    cases A with
    | nil =>
      have ht := hT t List.mem_cons_self
      rw [(List.cons.inj h).1] at ht
      exact absurd ht (by simp)
    | cons a A =>
      obtain ⟨rfl, htail⟩ := List.cons.inj h
      rcases ih (fun e he => hT e (List.mem_cons_of_mem _ he)) htail with
        ⟨hz, rfl⟩ | ⟨A', rfl, hB⟩
      · exact Or.inl ⟨hz, rfl⟩
      · exact Or.inr ⟨A', rfl, hB⟩

/-- A new vertex is popped: it is visited, marked, and its neighbours pushed. -/
theorem inv1_visit (h : Inv1 nbrs verts s)
    (hclosed : ∀ x ∈ verts, ∀ y ∈ nbrs x, y ∈ verts) (hdfs : s.dfs = (u, false) :: rest)
    (hu : u ∉ s.visited) :
    Inv1 nbrs verts { s with
      visited := insert u s.visited
      dfs := pushUnvisited (insert u s.visited) (nbrs u) ((u, true) :: rest) } := by
  rw [pushUnvisited_eq]
  generalize hT : (((nbrs u).filter fun v => v ∉ insert u s.visited).map
    fun v => (v, false)).reverse = T
  have hTmem : ∀ e, e ∈ T ↔ e.1 ∈ nbrs u ∧ e.1 ∉ insert u s.visited ∧ e.2 = false := by
    intro e
    rw [← hT]
    exact mem_pushed
  have hmem : ∀ e ∈ rest, e ∈ s.dfs := fun e he => hdfs ▸ List.mem_cons_of_mem _ he
  have huv : u ∈ verts := h.dfs_mem (u, false) (hdfs ▸ List.mem_cons_self)
  have humark : (u, true) ∉ s.dfs := fun hm => hu ((h.mem_visited u).mpr (Or.inr hm))
  have hmark := h.marker_nodup
  rw [hdfs, List.filter_cons_of_neg (by simp)] at hmark
  have habove := h.above
  rw [hdfs, List.pairwise_cons] at habove
  have hdfsIff : ∀ x, (x, true) ∈ T ++ (u, true) :: rest ↔ x = u ∨ (x, true) ∈ s.dfs := by
    intro x
    rw [hdfs, List.mem_append, hTmem, List.mem_cons, List.mem_cons, Prod.mk.injEq, Prod.mk.injEq]
    simp
  exact
  { h with
    dfs_mem := by
      intro e he
      rcases List.mem_append.mp he with he | he
      · exact hclosed u huv e.1 ((hTmem e).mp he).1
      · rcases List.mem_cons.mp he with rfl | he
        · exact huv
        · exact h.dfs_mem e (hmem e he)
    mem_visited := by
      intro x
      rw [hdfsIff, Finset.mem_insert, h.mem_visited x]
      tauto
    marker_notMem := by
      intro x hx
      rcases (hdfsIff x).mp hx with rfl | hx
      · exact fun hf => hu ((h.mem_visited x).mpr (Or.inl hf))
      · exact h.marker_notMem x hx
    marker_nodup := by
      have hT0 : T.filter (·.2) = [] := by
        rw [List.filter_eq_nil_iff]
        intro e he
        simp [((hTmem e).mp he).2.2]
      rw [List.filter_append, hT0, List.nil_append, List.filter_cons_of_pos rfl]
      refine List.nodup_cons.mpr ⟨fun hm => humark (hmem _ (List.mem_filter.mp hm).1), hmark⟩
    closed := fun x hx y hy => Finset.mem_insert_of_mem (h.closed x hx y hy)
    pending := by
      intro A z B hsplit y hy
      -- the marker of `z` is that of `u` or lies below it
      rcases split_at_marker (fun e he => ((hTmem e).mp he).2.2) hsplit with
        ⟨rfl, rfl⟩ | ⟨A', rfl, hB⟩
      · by_cases hyv : y ∈ insert z s.visited
        · exact Or.inl hyv
        · exact Or.inr ((hTmem (y, false)).mpr ⟨hy, hyv, rfl⟩)
      · have hsplit' : s.dfs = ((u, false) :: A') ++ (z, true) :: B := by
          rw [hdfs, hB, List.cons_append]
        rcases h.pending _ z B hsplit' y hy with hv | hm
        · exact Or.inl (Finset.mem_insert_of_mem hv)
        · rcases List.mem_cons.mp hm with heq | hm
          · rw [(Prod.mk.inj heq).1]
            exact Or.inl (Finset.mem_insert_self u _)
          · exact Or.inr (List.mem_append_right _ (List.mem_cons_of_mem _ hm))
    above := by
      rw [List.pairwise_append]
      refine ⟨List.pairwise_iff_forall_sublist.mpr ?_, List.pairwise_cons.mpr ⟨?_, habove.2⟩, ?_⟩
      · intro e e' hsub he'
        have := ((hTmem e').mp (hsub.subset (by simp))).2.2
        rw [this] at he'
        exact absurd he' (by simp)
      · exact fun e' he' hb => habove.1 e' he' hb
      · intro e he e' he' hb
        have hue : Reach (Adj nbrs) u e.1 := .single ((hTmem e).mp he).1
        rcases List.mem_cons.mp he' with rfl | he'
        · exact hue
        · exact (habove.1 e' he' hb).trans hue }

/-- One round of the first pass. -/
theorem step1_spec (h : Inv1 nbrs verts s)
    (hclosed : ∀ x ∈ verts, ∀ y ∈ nbrs x, y ∈ verts) (hne : s.dfs ≠ []) :
    ∃ s', step1 nbrs s = some s' ∧ Inv1 nbrs verts s' ∧
      measure1 nbrs verts s' < measure1 nbrs verts s ∧
      ∀ x, x ∈ s.visited ∨ (x, false) ∈ s.dfs → x ∈ s'.visited ∨ (x, false) ∈ s'.dfs := by
  unfold step1 measure1
  cases hdfs : s.dfs with
  | nil => exact absurd hdfs hne
  | cons e rest =>
    obtain ⟨u, post⟩ := e
    -- a vertex is finished, or is passed over because it is visited, or is visited now
    cases post with
    | true =>
      refine ⟨_, if_pos rfl, inv1_finish h hdfs, ?_, ?_⟩
      · simp only [List.length_cons]
        omega
      · rintro x (hx | hx)
        · exact Or.inl hx
        · exact Or.inr ((List.mem_cons.mp hx).resolve_left (by simp))
    | false =>
      by_cases hu : u ∈ s.visited
      · refine ⟨{ s with dfs := rest }, by simp [hu], inv1_skip h hdfs hu, ?_, ?_⟩
        · simp only [List.length_cons]
          omega
        · rintro x (hx | hx)
          · exact Or.inl hx
          · rcases List.mem_cons.mp hx with heq | hx
            · rw [(Prod.mk.inj heq).1]
              exact Or.inl hu
            · exact Or.inr hx
      · have huv : u ∈ verts := h.dfs_mem (u, false) (hdfs ▸ List.mem_cons_self)
        refine ⟨_, by simp only [Bool.false_eq_true, if_false, if_neg hu],
          inv1_visit h hclosed hdfs hu, ?_, ?_⟩
        · have hsum := sum_sdiff_insert (fun x => (nbrs x).length + 2) huv hu
          have hlen := List.length_filter_le (fun v => v ∉ insert u s.visited) (nbrs u)
          simp only [pushUnvisited_eq, List.length_append, List.length_reverse, List.length_map,
            List.length_cons]
          omega
        · rintro x (hx | hx)
          · exact Or.inl (Finset.mem_insert_of_mem hx)
          · rcases List.mem_cons.mp hx with heq | hx
            · rw [(Prod.mk.inj heq).1]
              exact Or.inl (Finset.mem_insert_self u _)
            · right
              rw [pushUnvisited_eq]
              exact List.mem_append_right _ (List.mem_cons_of_mem _ hx)

/-- A search starts. -/
theorem inv1_start {start : Vertex} (h : Inv1 nbrs verts s) (hdfs : s.dfs = [])
    (hstart : start ∈ verts) : Inv1 nbrs verts { s with dfs := [(start, false)] } :=
  { h with
    dfs_mem := fun e he => by rw [List.mem_singleton.mp he]; exact hstart
    mem_visited := fun x => by
      rw [h.mem_visited x, hdfs]
      simp
    marker_notMem := fun x hx => absurd hx (by simp)
    marker_nodup := by simp
    pending := fun A z B hsplit => by
      have hz : (z, true) ∈ A ++ (z, true) :: B :=
        List.mem_append_right _ List.mem_cons_self
      rw [← show [(start, false)] = A ++ (z, true) :: B from hsplit] at hz
      simp at hz
    above := List.pairwise_singleton _ _ }

/-- The search from one vertex, started on an empty stack, ends on one. -/
theorem returns_searchFrom {start : Vertex} (h : Inv1 nbrs verts s) (hdfs : s.dfs = [])
    (hclosed : ∀ x ∈ verts, ∀ y ∈ nbrs x, y ∈ verts) (hstart : start ∈ verts) :
    ∃ s', Returns (fun n => searchFrom nbrs n s start) s' ∧ Inv1 nbrs verts s' ∧
      s'.dfs = [] ∧ (∀ x ∈ s.visited, x ∈ s'.visited) ∧ start ∈ s'.visited := by
  unfold searchFrom
  by_cases hv : start ∈ s.visited
  · exact ⟨s, ⟨0, fun _ _ => if_pos hv⟩, h, hdfs, fun _ hx => hx, hv⟩
  · have hs := inv1_start h hdfs hstart
    obtain ⟨s', hret, ⟨hI, hmono⟩, hcond⟩ := returns_whileLoop
      (fun s : Pass1 => !s.dfs.isEmpty) (step1 nbrs)
      (fun t => Inv1 nbrs verts t ∧
        ∀ x, x ∈ s.visited ∨ x = start → x ∈ t.visited ∨ (x, false) ∈ t.dfs)
      (measure1 nbrs verts) (fun t ht hc => by
        obtain ⟨t', hstep, hI, hμ, hm⟩ := step1_spec ht.1 hclosed (by simpa using hc)
        exact ⟨t', hstep, ⟨hI, fun x hx => hm x (ht.2 x hx)⟩, hμ⟩)
      ⟨hs, fun x hx => hx.imp_right fun hx => by rw [hx]; exact List.mem_singleton_self _⟩
    have hnil : s'.dfs = [] := by simpa using hcond
    have hvis : ∀ x, x ∈ s.visited ∨ x = start → x ∈ s'.visited := fun x hx =>
      (hmono x hx).resolve_right (by rw [hnil]; exact List.not_mem_nil)
    refine ⟨s', ?_, hI, hnil, fun x hx => hvis x (Or.inl hx), hvis start (Or.inr rfl)⟩
    simp only [if_neg hv]
    exact hret

end Pass1

theorem inv1_init (nbrs : Vertex → List Vertex) (verts : Finset Vertex) :
    Inv1 nbrs verts { visited := ∅, finishOrder := [], dfs := [] } where
  dfs_mem := by simp
  finish_mem := by simp
  mem_visited := by simp
  finish_nodup := List.nodup_nil
  marker_notMem := by simp
  marker_nodup := List.nodup_nil
  closed := by simp
  pending := by simp
  above := List.Pairwise.nil
  order := isFinishOrder_nil

/-- **The first pass** lists every vertex once, in a finish order. -/
theorem returns_pass1 {g : DirectedGraph} (ord : g.Order) :
    ∃ s : Pass1, Returns (fun n => ord.vertices.foldlM (searchFrom ord.neighbors n)
        { visited := ∅, finishOrder := [], dfs := [] }) s ∧
      s.finishOrder.Nodup ∧ (∀ x, x ∈ s.finishOrder ↔ x ∈ g.vertices) ∧
      IsFinishOrder (Adj ord.neighbors) s.finishOrder := by
  have hclosed : ∀ x ∈ g.vertices, ∀ y ∈ ord.neighbors x, y ∈ g.vertices := fun x _ y hy =>
    (ord.mem_neighbors.mp hy).mem_vertices.2
  obtain ⟨s, hret, hI, hdfs, hall⟩ := returns_foldlM (searchFrom ord.neighbors)
    (fun done s => Inv1 ord.neighbors g.vertices s ∧ s.dfs = [] ∧ ∀ x ∈ done, x ∈ s.visited)
    ord.vertices (fun done a rest s hl ⟨hI, hdfs, hdone⟩ => by
      have ha : a ∈ g.vertices := by
        rw [← ord.mem_vertices, hl]
        exact List.mem_append_right _ List.mem_cons_self
      obtain ⟨s', hret, hI', hdfs', hmono, hd⟩ := returns_searchFrom hI hdfs hclosed ha
      refine ⟨s', hret, hI', hdfs', fun x hx => ?_⟩
      rcases List.mem_append.mp hx with hx | hx
      · exact hmono x (hdone x hx)
      · exact List.mem_singleton.mp hx ▸ hd)
    ⟨inv1_init _ _, rfl, by simp⟩
  have hmem : ∀ x, x ∈ s.finishOrder ↔ x ∈ s.visited := by
    intro x
    rw [hI.mem_visited, hdfs]
    simp
  refine ⟨s, hret, hI.finish_nodup, fun x => ⟨fun hx => hI.finish_mem x hx, fun hx => ?_⟩, hI.order⟩
  rw [hmem]
  exact hall x (ord.mem_vertices.mpr hx)

/-! ## The second pass -/

/-- The search of the transpose from `start`, when `V₀` had been visited before. -/
structure Inv2 (E : Vertex → Vertex → Prop) (V₀ : Finset Vertex) (start : Vertex) (t : Pass2) :
    Prop where
  mem_visited : ∀ x, x ∈ t.visited ↔ x ∈ V₀ ∨ x ∈ t.comp
  comp_nodup : t.comp.Nodup
  comp_mem : ∀ x ∈ t.comp, Mutual E start x ∧ x ∉ V₀
  dfs_mem : ∀ x ∈ t.dfs, Mutual E start x ∧ x ∉ V₀
  /-- Whatever has an edge into the component is visited or stacked. -/
  closed : ∀ x ∈ t.comp, ∀ y, E y x → y ∈ t.visited ∨ y ∈ t.dfs
  start_mem : start ∈ t.comp ∨ start ∈ t.dfs

/-- The loop rounds still to come. -/
def measure2 (nbrsT : Vertex → List Vertex) (verts : Finset Vertex) (t : Pass2) : ℕ :=
  t.dfs.length + ∑ x ∈ verts \ t.visited, ((nbrsT x).length + 1)

section Pass2

variable {E : Vertex → Vertex → Prop} {nbrsT : Vertex → List Vertex} {V₀ : Finset Vertex}
  {start : Vertex} {t : Pass2}

theorem foldl_pushUnvisited_eq (visited : Finset Vertex) (l dfs : List Vertex) :
    l.foldl (fun dfs v => if v ∈ visited then dfs else v :: dfs) dfs
      = (l.filter fun v => v ∉ visited).reverse ++ dfs := by
  induction l generalizing dfs with
  | nil => rfl
  | cons v l ih =>
    rw [List.foldl_cons, ih]
    by_cases hv : v ∈ visited <;> simp [hv]

/-- The search begins with an empty component. -/
theorem inv2_start (hv : start ∉ V₀) :
    Inv2 E V₀ start { visited := V₀, comp := [], dfs := [start] } where
  mem_visited := by simp
  comp_nodup := List.nodup_nil
  comp_mem := by simp
  dfs_mem := fun x hx => by rw [List.mem_singleton.mp hx]; exact ⟨.refl start, hv⟩
  closed := by simp
  start_mem := Or.inr (List.mem_singleton_self start)

/-- A vertex that has been visited before is only popped. -/
theorem Inv2.pop (h : Inv2 E V₀ start t) {u : Vertex} {rest : List Vertex}
    (hdfs : t.dfs = u :: rest) (huv : u ∈ t.visited) : Inv2 E V₀ start { t with dfs := rest } :=
  { h with
    dfs_mem := fun x hx => h.dfs_mem x (hdfs ▸ List.mem_cons_of_mem _ hx)
    closed := by
      intro x hx y hyx
      rcases h.closed x hx y hyx with hy | hy
      · exact Or.inl hy
      · rw [hdfs] at hy
        rcases List.mem_cons.mp hy with rfl | hy
        · exact Or.inl huv
        · exact Or.inr hy
    start_mem := by
      rcases h.start_mem with hs | hs
      · exact Or.inl hs
      · rw [hdfs] at hs
        rcases List.mem_cons.mp hs with rfl | hs
        · have hV₀ := (h.dfs_mem start (hdfs ▸ List.mem_cons_self)).2
          exact Or.inl (((h.mem_visited _).mp huv).resolve_left hV₀)
        · exact Or.inr hs }

/-- A vertex that has not been visited joins the component, and its predecessors are pushed.
`hlead` is what the finish order provides. -/
theorem Inv2.visit (h : Inv2 E V₀ start t) (hT : ∀ x y, y ∈ nbrsT x ↔ E y x)
    (hlead : ∀ w, Reach E w start → w ∉ V₀ → Reach E start w) {u : Vertex} {rest : List Vertex}
    (hdfs : t.dfs = u :: rest) (huv : u ∉ t.visited) :
    Inv2 E V₀ start
      { visited := insert u t.visited
        comp := t.comp ++ [u]
        dfs := ((nbrsT u).filter fun v => v ∉ insert u t.visited).reverse ++ rest } where
  mem_visited x := by
    simp only [Finset.mem_insert, List.mem_append, List.mem_singleton, h.mem_visited x]
    tauto
  comp_nodup := by
    refine List.nodup_append.mpr ⟨h.comp_nodup, List.nodup_singleton u, ?_⟩
    rintro x hx y hy rfl
    rw [List.mem_singleton.mp hy] at hx
    exact huv ((h.mem_visited u).mpr (Or.inr hx))
  comp_mem := by
    intro x hx
    rcases List.mem_append.mp hx with hx | hx
    · exact h.comp_mem x hx
    · rw [List.mem_singleton.mp hx]
      exact h.dfs_mem u (hdfs ▸ List.mem_cons_self)
  dfs_mem := by
    intro x hx
    rcases List.mem_append.mp hx with hx | hx
    · rw [List.mem_reverse, List.mem_filter, hT, decide_eq_true_iff] at hx
      -- the pushed predecessor reaches `start`, and the finish order leads back to it
      have hu := (h.dfs_mem u (hdfs ▸ List.mem_cons_self)).1
      have hxV : x ∉ V₀ := fun hm =>
        hx.2 (Finset.mem_insert_of_mem ((h.mem_visited x).mpr (Or.inl hm)))
      have hxs : Reach E x start := .head hx.1 hu.2
      exact ⟨⟨hlead x hxs hxV, hxs⟩, hxV⟩
    · exact h.dfs_mem x (hdfs ▸ List.mem_cons_of_mem _ hx)
  closed := by
    intro x hx y hyx
    by_cases hy : y ∈ insert u t.visited
    · exact Or.inl hy
    · right
      rcases List.mem_append.mp hx with hx | hx
      · rcases h.closed x hx y hyx with hyv | hyd
        · exact absurd (Finset.mem_insert_of_mem hyv) hy
        · rw [hdfs] at hyd
          rcases List.mem_cons.mp hyd with rfl | hyd
          · exact absurd (Finset.mem_insert_self _ _) hy
          · exact List.mem_append_right _ hyd
      · rw [List.mem_singleton.mp hx] at hyx
        refine List.mem_append_left _ ?_
        rw [List.mem_reverse, List.mem_filter, hT, decide_eq_true_iff]
        exact ⟨hyx, hy⟩
  start_mem := by
    rcases h.start_mem with hs | hs
    · exact Or.inl (List.mem_append_left _ hs)
    · rw [hdfs] at hs
      rcases List.mem_cons.mp hs with rfl | hs
      · exact Or.inl (List.mem_append_right _ (List.mem_singleton_self _))
      · exact Or.inr (List.mem_append_right _ hs)

/-- One round of the second pass. -/
theorem step2_spec (h : Inv2 E V₀ start t) (hT : ∀ x y, y ∈ nbrsT x ↔ E y x)
    (hverts : ∀ x, Mutual E start x → x ∈ verts)
    (hlead : ∀ w, Reach E w start → w ∉ V₀ → Reach E start w) (hne : t.dfs ≠ []) :
    ∃ t', step2 nbrsT t = some t' ∧ Inv2 E V₀ start t' ∧
      measure2 nbrsT verts t' < measure2 nbrsT verts t := by
  unfold step2 measure2
  cases hdfs : t.dfs with
  | nil => exact absurd hdfs hne
  | cons u rest =>
    by_cases huv : u ∈ t.visited
    · refine ⟨{ t with dfs := rest }, if_pos huv, h.pop hdfs huv, ?_⟩
      simp only [List.length_cons]
      omega
    · refine ⟨_, if_neg huv, ?_, ?_⟩
      · rw [foldl_pushUnvisited_eq]
        exact h.visit hT hlead hdfs huv
      · -- what is pushed for `u` is paid for by its term of the sum
        have hu := (h.dfs_mem u (hdfs ▸ List.mem_cons_self)).1
        have hsum := sum_sdiff_insert (fun x => (nbrsT x).length + 1) (hverts u hu) huv
        have hlen := List.length_filter_le (fun v => v ∉ insert u t.visited) (nbrsT u)
        simp only [foldl_pushUnvisited_eq, List.length_append, List.length_reverse,
          List.length_cons]
        omega

/-- When the stack is empty the component is complete. -/
theorem Inv2.mem_comp_iff (h : Inv2 E V₀ start t) (hdfs : t.dfs = [])
    (hV₀ : ∀ x ∈ V₀, ∀ y, Mutual E x y → y ∈ V₀) (hstart : start ∉ V₀) (y : Vertex) :
    y ∈ t.comp ↔ Mutual E start y := by
  refine ⟨fun hy => (h.comp_mem y hy).1, fun hy => ?_⟩
  obtain ⟨hsy, hys⟩ := hy
  induction hys using Relation.ReflTransGen.head_induction_on with
  | refl => exact h.start_mem.resolve_right (by rw [hdfs]; exact List.not_mem_nil)
  | @head y z hyz hzs ih =>
    rcases h.closed z (ih (hsy.tail hyz)) y hyz with hv | hd
    · rcases (h.mem_visited y).mp hv with hyV | hyc
      · exact absurd (hV₀ y hyV start ⟨.head hyz hzs, hsy⟩) hstart
      · exact hyc
    · rw [hdfs] at hd
      exact absurd hd List.not_mem_nil

/-- What holds between the searches of the second pass. -/
structure Collected (E : Vertex → Vertex → Prop) (verts : Finset Vertex) (done : List Vertex)
    (s : Finset Vertex × List Component) : Prop where
  mem_visited : ∀ x, x ∈ s.1 ↔ x ∈ s.2.flatten
  visited_mem : ∀ x ∈ s.1, x ∈ verts
  done_mem : ∀ x ∈ done, x ∈ s.1
  ne_nil : ∀ c ∈ s.2, c ≠ []
  nodup : s.2.flatten.Nodup
  cls : ∀ c ∈ s.2, ∀ x ∈ c, ∀ y, y ∈ c ↔ Mutual E x y

/-- Whole components have been visited. -/
theorem Collected.mutual_mem {done : List Vertex} {s : Finset Vertex × List Component}
    (h : Collected E verts done s) : ∀ x ∈ s.1, ∀ y, Mutual E x y → y ∈ s.1 := by
  intro x hx y hxy
  obtain ⟨c, hc, hxc⟩ := List.mem_flatten.mp ((h.mem_visited x).mp hx)
  exact (h.mem_visited y).mpr (List.mem_flatten.mpr ⟨c, hc, (h.cls c hc x hxc y).mpr hxy⟩)

/-- A finished search adds the class of its start. -/
theorem Collected.concat {done : List Vertex} {s : Finset Vertex × List Component}
    (h : Collected E verts done s) (hstart : ∀ y, Mutual E start y → y ∈ verts)
    (hv : start ∉ s.1) (hI : Inv2 E s.1 start t) (hnil : t.dfs = []) :
    Collected E verts (done ++ [start]) (t.visited, s.2 ++ [t.comp]) := by
  have hcomp := hI.mem_comp_iff hnil h.mutual_mem hv
  exact
  { mem_visited := by
      intro x
      rw [hI.mem_visited x, h.mem_visited x, List.flatten_append, List.flatten_singleton,
        List.mem_append]
    visited_mem := by
      intro x hx
      rcases (hI.mem_visited x).mp hx with hx | hx
      · exact h.visited_mem x hx
      · exact hstart x ((hcomp x).mp hx)
    done_mem := by
      intro x hx
      rcases List.mem_append.mp hx with hx | hx
      · exact (hI.mem_visited x).mpr (Or.inl (h.done_mem x hx))
      · rw [List.mem_singleton.mp hx]
        exact (hI.mem_visited start).mpr (Or.inr ((hcomp start).mpr (.refl start)))
    ne_nil := by
      intro c hc
      rcases List.mem_append.mp hc with hc | hc
      · exact h.ne_nil c hc
      · rw [List.mem_singleton.mp hc]
        exact List.ne_nil_of_mem ((hcomp start).mpr (.refl start))
    nodup := by
      rw [List.flatten_append, List.flatten_singleton]
      refine List.nodup_append.mpr ⟨h.nodup, hI.comp_nodup, ?_⟩
      rintro x hx y hy rfl
      exact (hI.comp_mem x hy).2 ((h.mem_visited x).mpr hx)
    cls := by
      intro c hc x hx y
      rcases List.mem_append.mp hc with hc | hc
      · exact h.cls c hc x hx y
      · obtain rfl := List.mem_singleton.mp hc
        have hsx := (hcomp x).mp hx
        rw [hcomp y]
        exact ⟨fun hsy => hsx.symm.trans hsy, fun hxy => hsx.trans hxy⟩ }

/-- The search of the second pass from the next vertex of the finish order. -/
theorem returns_collectFrom {done rest : List Vertex} {s : Finset Vertex × List Component}
    (h : Collected E verts done s) (hT : ∀ x y, y ∈ nbrsT x ↔ E y x)
    (hE : ∀ x y, E x y → x ∈ verts ∧ y ∈ verts) (hord : IsFinishOrder E (done ++ start :: rest))
    (hnd : (done ++ start :: rest).Nodup) (hall : ∀ x, x ∈ done ++ start :: rest ↔ x ∈ verts) :
    ∃ s', Returns (fun n => collectFrom nbrsT n s start) s' ∧
      Collected E verts (done ++ [start]) s' := by
  have hstartv : start ∈ verts :=
    (hall start).mp (List.mem_append_right _ List.mem_cons_self)
  have hmutv : ∀ x ∈ verts, ∀ y, Mutual E x y → y ∈ verts := fun x hx y hxy =>
    mem_of_reach (S := (· ∈ verts)) (fun a b _ hab => (hE a b hab).2) hx hxy.1
  unfold collectFrom
  by_cases hv : start ∈ s.1
  · refine ⟨s, ⟨0, fun _ _ => if_pos hv⟩, { h with done_mem := fun x hx => ?_ }⟩
    rcases List.mem_append.mp hx with hx | hx
    · exact h.done_mem x hx
    · rw [List.mem_singleton.mp hx]
      exact hv
  -- of the unvisited vertices, exactly those mutually reachable with `start` are found
  · have hlead : ∀ w, Reach E w start → w ∉ s.1 → Reach E start w := by
      intro w hw hws
      have hwv : w ∈ verts := by
        rcases Relation.ReflTransGen.cases_head hw with rfl | ⟨b, hb, -⟩
        · exact hstartv
        · exact (hE w b hb).1
      exact hord.reach_of_reach hnd (fun z hz => (hall z).mpr (hmutv w hwv z hz)) hw
        fun z hz hzd => hws (h.mutual_mem z (h.done_mem z hzd) w hz.symm)
    obtain ⟨t, hret, hI, hcond⟩ := returns_whileLoop
      (fun t : Pass2 => !t.dfs.isEmpty) (step2 nbrsT) (Inv2 E s.1 start)
      (measure2 nbrsT verts)
      (fun t ht hc => step2_spec ht hT (hmutv start hstartv) hlead (by simpa using hc))
      (s := { visited := s.1, comp := [], dfs := [start] }) (inv2_start hv)
    have hnil : t.dfs = [] := by simpa using hcond
    refine ⟨(t.visited, s.2 ++ [t.comp]), ?_, ?_⟩
    · simp only [if_neg hv]
      exact hret.map _
    · exact h.concat (hmutv start hstartv) hv hI hnil

end Pass2

/-- **`find_sccs` is totally correct** on every graph, for all iteration orders. -/
theorem returns_findSccs {g : DirectedGraph} (ord : g.Order) (ordT : (g.transpose ord).Order) :
    ∃ sccs, Returns (findSccs ord ordT) sccs ∧ IsSccPartition g.vertices g.Edge sccs := by
  obtain ⟨s, hret, hnd, hmem, hord⟩ := returns_pass1 ord
  have hadj : Adj ord.neighbors = g.Edge := by
    funext x y
    exact propext ord.mem_neighbors
  rw [hadj] at hord
  have hT : ∀ x y, y ∈ ordT.neighbors x ↔ g.Edge y x := by
    intro x y
    rw [ordT.mem_neighbors, g.edge_transpose ord]
  obtain ⟨r, hret2, hC⟩ := returns_foldlM (collectFrom ordT.neighbors)
    (Collected g.Edge g.vertices) s.finishOrder
    (fun done start rest r hl hr => returns_collectFrom hr hT (fun _ _ h => h.mem_vertices)
      (hl ▸ hord) (hl ▸ hnd) (hl ▸ hmem))
    (s := (∅, []))
    { mem_visited := by simp
      visited_mem := by simp
      done_mem := by simp
      ne_nil := by simp
      nodup := List.nodup_nil
      cls := by simp }
  refine ⟨r.2, hret.bind (hret2.map _), isSccPartition_of_classes hC.ne_nil hC.nodup ?_ hC.cls⟩
  intro v
  rw [← hC.mem_visited]
  exact ⟨hC.visited_mem v, fun hv => hC.done_mem v ((hmem v).mpr hv)⟩

end Kosaraju
