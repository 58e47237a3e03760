/-
# The first vertex of a component

`Kosaraju::find_sccs` lists a component from the vertex of it that was finished
last.  The vertex that `g.vertices()` lists first is finished after everything it
reaches, so it leads its component (`head?_eq_first`): which vertex of a component
comes first is a matter of the iteration order.
-/
import ZtMapper.Graph.KosarajuCorrect

open Scc Loop

namespace Kosaraju

variable {nbrs : Vertex → List Vertex} {verts : Finset Vertex}

/-! ## The first pass -/

/-- A search from `start`: it begins, or the post-visit marker of `start` is at the
bottom of the stack, or it is over and `start` was finished last. -/
inductive FromRoot (start : Vertex) (s : Pass1) : Prop where
  | begins (hdfs : s.dfs = [(start, false)]) (hnew : start ∉ s.visited)
  | running (A : List (Vertex × Bool)) (hdfs : s.dfs = A ++ [(start, true)])
  | finished (hdfs : s.dfs = []) (hhead : s.finishOrder.head? = some start)

theorem FromRoot.step {start : Vertex} {s t : Pass1} (h : FromRoot start s)
    (hstep : step1 nbrs s = some t) : FromRoot start t := by
  unfold step1 at hstep
  cases h with
  | begins hdfs hnew =>
    rw [hdfs] at hstep
    simp only [Bool.false_eq_true, if_false, if_neg hnew] at hstep
    obtain rfl := Option.some.inj hstep
    exact .running _ (pushUnvisited_eq _ _ _)
  | finished hdfs hhead =>
    rw [hdfs] at hstep
    exact absurd hstep (by simp)
  | running A hdfs =>
    cases A with
    -- the mark of the start is at the top: it is finished after all others
    | nil =>
      rw [hdfs, List.nil_append] at hstep
      simp only [if_true] at hstep
      obtain rfl := Option.some.inj hstep
      exact .finished rfl rfl
    | cons e A =>
      obtain ⟨u, post⟩ := e
      rw [hdfs, List.cons_append] at hstep
      simp only at hstep
      split_ifs at hstep
      · obtain rfl := Option.some.inj hstep
        exact .running A rfl
      · obtain rfl := Option.some.inj hstep
        exact .running A rfl
      · obtain rfl := Option.some.inj hstep
        have hpush := pushUnvisited_eq (insert u s.visited) (nbrs u) ((u, true) :: (A ++ [(start, true)]))
        rw [← List.cons_append, ← List.append_assoc] at hpush
        exact .running _ hpush

/-- What was finished stays at the bottom of `finish_order`. -/
theorem suffix_of_step1 {s t : Pass1} (h : step1 nbrs s = some t) :
    s.finishOrder <:+ t.finishOrder := by
  unfold step1 at h
  split at h
  · exact absurd h (by simp)
  · split_ifs at h
    · obtain rfl := Option.some.inj h
      exact List.suffix_cons _ _
    · obtain rfl := Option.some.inj h
      exact List.suffix_rfl
    · obtain rfl := Option.some.inj h
      exact List.suffix_rfl

/-- One search of the first pass. -/
theorem searchFrom_spec {start : Vertex} {fuel : ℕ} {s t : Pass1} (hI : Inv1 nbrs verts s)
    (hdfs : s.dfs = []) (hclosed : ∀ x ∈ verts, ∀ y ∈ nbrs x, y ∈ verts) (hstart : start ∈ verts)
    (h : searchFrom nbrs fuel s start = some t) :
    Inv1 nbrs verts t ∧ t.dfs = [] ∧ s.finishOrder <:+ t.finishOrder ∧
      (start ∉ s.visited → t.finishOrder.head? = some start) := by
  unfold searchFrom at h
  split_ifs at h with hv
  · obtain rfl := Option.some.inj h
    exact ⟨hI, hdfs, List.suffix_rfl, fun hnew => absurd hv hnew⟩
  · obtain ⟨⟨hI', hsuf, hroot⟩, hend⟩ := whileLoop_induct
      (fun t => Inv1 nbrs verts t ∧ s.finishOrder <:+ t.finishOrder ∧ FromRoot start t)
      (fun t t' ⟨ht, hsuf, hroot⟩ hne hstep => by
        obtain ⟨t'', hstep', hI', -⟩ := step1_spec ht hclosed (by simpa using hne)
        obtain rfl := Option.some.inj (hstep.symm.trans hstep')
        exact ⟨hI', hsuf.trans (suffix_of_step1 hstep), hroot.step hstep⟩)
      ⟨inv1_start hI hdfs hstart, List.suffix_rfl, .begins rfl hv⟩ h
    have hnil : t.dfs = [] := by simpa using hend
    refine ⟨hI', hnil, hsuf, fun _ => ?_⟩
    cases hroot with
    | begins hdfs => exact absurd (hnil.symm.trans hdfs) (by simp)
    | running A hdfs => exact absurd (hnil.symm.trans hdfs) (by simp)
    | finished _ hhead => exact hhead

/-- **The vertex listed first** is finished after everything that it reaches. -/
theorem pass1_first {g : DirectedGraph} {ord : g.Order} {v : Vertex} {rest : List Vertex}
    (hfirst : ord.vertices = v :: rest) {fuel : ℕ} {s : Pass1}
    (h : ord.vertices.foldlM (searchFrom ord.neighbors fuel)
      { visited := ∅, finishOrder := [], dfs := [] } = some s) :
    s.finishOrder.Nodup ∧ ∃ F, v :: F <:+ s.finishOrder ∧ ∀ y, Reach g.Edge v y → y ∈ v :: F := by
  have hclosed : ∀ x ∈ g.vertices, ∀ y ∈ ord.neighbors x, y ∈ g.vertices := fun x _ y hy =>
    (ord.mem_neighbors.mp hy).mem_vertices.2
  have hmem : ∀ x ∈ v :: rest, x ∈ g.vertices := fun x hx => ord.mem_vertices.mp (hfirst ▸ hx)
  rw [hfirst, List.foldlM_cons] at h
  obtain ⟨s₁, hsearch, hloop⟩ := Option.bind_eq_some_iff.mp h
  obtain ⟨hI₁, hdfs₁, -, hhead⟩ := searchFrom_spec (inv1_init ord.neighbors g.vertices) rfl hclosed
    (hmem v List.mem_cons_self) hsearch
  obtain ⟨F, hF⟩ : ∃ F, s₁.finishOrder = v :: F :=
    List.head?_eq_some_iff.mp (hhead (Finset.notMem_empty v))
  have hreach : ∀ y, Reach g.Edge v y → y ∈ v :: F := by
    intro y hy
    refine mem_of_reach (S := (· ∈ v :: F)) (fun a b ha hab => ?_) List.mem_cons_self hy
    rw [← hF] at ha ⊢
    have hvis := (hI₁.mem_visited b).mp (hI₁.closed a ha b (ord.mem_neighbors.mpr hab))
    rw [hdfs₁] at hvis
    exact hvis.resolve_right List.not_mem_nil
  -- the later searches only push on the finish order
  obtain ⟨hI, -, hsuf⟩ := foldlM_induct
    (fun _ t => Inv1 ord.neighbors g.vertices t ∧ t.dfs = [] ∧ v :: F <:+ t.finishOrder)
    (fun done a rest' t t' hl ⟨hI, hdfs, hsuf⟩ hstep => by
      have ha : a ∈ g.vertices := hmem a (List.mem_cons_of_mem _
        (hl ▸ List.mem_append_right _ List.mem_cons_self))
      obtain ⟨hI', hdfs', hsuf', -⟩ := searchFrom_spec hI hdfs hclosed ha hstep
      exact ⟨hI', hdfs', hsuf.trans hsuf'⟩)
    ⟨hI₁, hdfs₁, hF ▸ List.suffix_rfl⟩ hloop
  exact ⟨hI.finish_nodup, F, hsuf, hreach⟩

/-! ## The second pass -/

/-- A search from `start` collects new vertices only, and `start` before them. -/
structure Led (V₀ : Finset Vertex) (start : Vertex) (t : Pass2) : Prop where
  visited_mono : ∀ x ∈ V₀, x ∈ t.visited
  comp_mem : ∀ x ∈ t.comp, x ∈ t.visited ∧ x ∉ V₀
  head : (t.comp = [] ∧ t.dfs = [start] ∧ t.visited = V₀) ∨ t.comp.head? = some start

theorem Led.step {nbrsT : Vertex → List Vertex} {V₀ : Finset Vertex} {start : Vertex}
    {t t' : Pass2} (h : Led V₀ start t) (hnew : start ∉ V₀) (hstep : step2 nbrsT t = some t') :
    Led V₀ start t' := by
  unfold step2 at hstep
  split at hstep
  · exact absurd hstep (by simp)
  · rename_i u dfs hdfs
    split_ifs at hstep with hu
    · obtain rfl := Option.some.inj hstep
      refine ⟨h.visited_mono, h.comp_mem, Or.inr (h.head.resolve_left ?_)⟩
      -- the search does not begin with a visited vertex
      rintro ⟨-, hbegin, hvis⟩
      rw [hdfs] at hbegin
      rw [(List.cons.inj hbegin).1, hvis] at hu
      exact hnew hu
    · obtain rfl := Option.some.inj hstep
      refine ⟨fun x hx => Finset.mem_insert_of_mem (h.visited_mono x hx), fun x hx => ?_, Or.inr ?_⟩
      · rcases List.mem_append.mp hx with hx | hx
        · exact ⟨Finset.mem_insert_of_mem (h.comp_mem x hx).1, (h.comp_mem x hx).2⟩
        · rw [List.mem_singleton.mp hx]
          exact ⟨Finset.mem_insert_self _ _, fun hV => hu (h.visited_mono u hV)⟩
      · rcases h.head with ⟨hcomp, hbegin, -⟩ | hhead
        · rw [hdfs] at hbegin
          rw [hcomp, (List.cons.inj hbegin).1]
          rfl
        · rw [List.head?_append, hhead]
          rfl

/-- The components found so far: each begins with the vertex of it that comes first
in the list of the popped vertices. -/
def LedBy (done : List Vertex) (r : Finset Vertex × List Component) : Prop :=
  (∀ x ∈ done, x ∈ r.1) ∧ ∀ c ∈ r.2, ∃ D x D', done = D ++ x :: D' ∧ c.head? = some x ∧
    ∀ y ∈ c, y ∉ D

theorem LedBy.collectFrom {nbrsT : Vertex → List Vertex} {done : List Vertex} {start : Vertex}
    {fuel : ℕ} {r r' : Finset Vertex × List Component} (h : LedBy done r)
    (hstep : collectFrom nbrsT fuel r start = some r') : LedBy (done ++ [start]) r' := by
  have hold : ∀ c ∈ r.2, ∃ D x D', done ++ [start] = D ++ x :: D' ∧ c.head? = some x ∧
      ∀ y ∈ c, y ∉ D := by
    intro c hc
    obtain ⟨D, x, D', rfl, hhead, hnot⟩ := h.2 c hc
    exact ⟨D, x, D' ++ [start], by simp, hhead, hnot⟩
  unfold Kosaraju.collectFrom at hstep
  split_ifs at hstep with hv
  · obtain rfl := Option.some.inj hstep
    refine ⟨fun x hx => ?_, hold⟩
    rcases List.mem_append.mp hx with hx | hx
    · exact h.1 x hx
    · rwa [List.mem_singleton.mp hx]
  · obtain ⟨t, hloop, rfl⟩ := Option.map_eq_some_iff.mp hstep
    -- the search adds the component of a new leader, after those collected so far
    obtain ⟨hled, hend⟩ := whileLoop_induct (Led r.1 start)
      (fun _ _ ht _ hstep => ht.step hv hstep)
      ⟨fun _ hx => hx, fun x hx => absurd hx List.not_mem_nil, Or.inl ⟨rfl, rfl, rfl⟩⟩ hloop
    have hnil : t.dfs = [] := by simpa using hend
    have hhead : t.comp.head? = some start := hled.head.resolve_left fun hbegin =>
      absurd (hnil.symm.trans hbegin.2.1) (by simp)
    refine ⟨fun x hx => ?_, fun c hc => ?_⟩
    · rcases List.mem_append.mp hx with hx | hx
      · exact hled.visited_mono x (h.1 x hx)
      · rw [List.mem_singleton.mp hx]
        exact (hled.comp_mem start (List.mem_of_head? hhead)).1
    · rcases List.mem_append.mp hc with hc | hc
      · exact hold c hc
      · rw [List.mem_singleton.mp hc]
        exact ⟨done, start, [], rfl, hhead, fun y hy hd => (hled.comp_mem y hy).2 (h.1 y hd)⟩

/-! ## The whole algorithm -/

/-- Two elements that are both the first of their kind in a list. -/
theorem eq_of_append_cons_eq {α : Type*} {D D' L F : List α} {x v : α}
    (h : D ++ x :: D' = L ++ v :: F) (hx : x ∉ L) (hv : v ∉ D) : x = v := by
  rcases List.append_eq_append_iff.mp h with ⟨A, rfl, hA⟩ | ⟨A, rfl, hA⟩
  · cases A with
    | nil => exact (List.cons.inj hA).1
    | cons a A =>
      rw [(List.cons.inj hA).1] at hx
      exact absurd (List.mem_append_right _ List.mem_cons_self) hx
  · cases A with
    | nil => exact (List.cons.inj hA).1.symm
    | cons a A =>
      rw [(List.cons.inj hA).1] at hv
      exact absurd (List.mem_append_right _ List.mem_cons_self) hv

/-- **The vertex listed first leads its component.** -/
theorem head?_eq_first {g : DirectedGraph} {ord : g.Order} {ordT : (g.transpose ord).Order}
    {v : Vertex} {rest : List Vertex} (hfirst : ord.vertices = v :: rest) {fuel : ℕ}
    {sccs : List Component} (h : findSccs ord ordT fuel = some sccs) {c : Component} (hc : c ∈ sccs)
    (hv : v ∈ c) (hreach : ∀ y ∈ c, Reach g.Edge v y) : c.head? = some v := by
  obtain ⟨s, hpass1, hrest⟩ := Option.bind_eq_some_iff.mp h
  obtain ⟨r, hpass2, rfl⟩ := Option.map_eq_some_iff.mp hrest
  obtain ⟨hnd, F, ⟨L, hL⟩, hF⟩ := pass1_first hfirst hpass1
  obtain ⟨-, hled⟩ := foldlM_induct LedBy (fun _ _ _ _ _ _ hr hstep => hr.collectFrom hstep)
    ⟨fun x hx => absurd hx List.not_mem_nil, fun c hc => absurd hc List.not_mem_nil⟩ hpass2
  obtain ⟨D, x, D', hD, hhead, hnot⟩ := hled c hc
  have hx : x ∉ L := by
    intro hx
    rw [← hL] at hnd
    exact List.disjoint_of_nodup_append hnd hx (hF x (hreach x (List.mem_of_head? hhead)))
  rw [hhead, eq_of_append_cons_eq (hD.symm.trans hL.symm) hx (hnot v hv)]

end Kosaraju
