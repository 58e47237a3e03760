/-
# `Tarjan::find_sccs` returns the partition into components

The transitions of `TarjanInvariant.lean` put together: one step of the loop
keeps the invariant and lowers `measure` (`step_spec`); the search from one start
vertex returns with empty stacks (`outcome_searchFrom`); the loop over all start
vertices returns the partition (`outcome_findSccs`).  Only the overflow of the
`int` timer can make the program undefined, and that takes `2^31` vertices.
-/
import ZtMapper.Graph.TarjanInvariant

open Scc Loop

namespace Tarjan

variable {nbrs : Vertex → List Vertex} {verts : Finset Vertex} {P : List Vertex} {s : State}

/-! ## The measure -/

/-- The loop rounds still to come: one for each unread edge and one for leaving,
for each frame; and for each undiscovered vertex those of its frame and one more. -/
def measure (nbrs : Vertex → List Vertex) (verts : Finset Vertex) (s : State) : ℕ :=
  (s.callStack.map fun f => f.neighbors.length - f.idx + 1).sum
    + ∑ x ∈ verts.filter fun x => ¬ s.Discovered x, ((nbrs x).length + 2)

theorem measure_advance {cur : Frame} {rest : List Frame} (hcs : s.callStack = cur :: rest)
    (hidx : cur.idx < cur.neighbors.length) :
    measure nbrs verts (advance cur rest s) + 1 = measure nbrs verts s := by
  unfold measure
  rw [hcs]
  show (cur.neighbors.length - (cur.idx + 1) + 1 + _) + _ + 1 = (_ + _) + _
  have hsum : ∀ x, (advance cur rest s).Discovered x ↔ s.Discovered x := fun _ => Iff.rfl
  simp only [hsum]
  omega

theorem measure_enter {v : Vertex} (hv : ¬ s.Discovered v) (hvm : v ∈ verts) :
    measure nbrs verts (enter nbrs v s) + 1 = measure nbrs verts s := by
  have hset : verts.filter (fun x => ¬ (enter nbrs v s).Discovered x)
      = (verts.filter fun x => ¬ s.Discovered x).erase v := by
    ext x
    simp only [Finset.mem_filter, Finset.mem_erase, discovered_enter]
    tauto
  have hmem : v ∈ verts.filter fun x => ¬ s.Discovered x :=
    Finset.mem_filter.mpr ⟨hvm, hv⟩
  have hsum := Finset.add_sum_erase _ (fun x => (nbrs x).length + 2) hmem
  have hcs : (enter nbrs v s).callStack = ⟨v, nbrs v, 0⟩ :: s.callStack := rfl
  unfold measure
  rw [hset, hcs, List.map_cons, List.sum_cons]
  simp only [Nat.sub_zero]
  omega

/-- Dropping the top frame lowers the measure, whatever happens to the rest of
the state. -/
theorem measure_drop {cur : Frame} {rest : List Frame} {s' : State}
    (hcs : s.callStack = cur :: rest) (hcs' : s'.callStack = rest) (hdisc : s'.disc = s.disc) :
    measure nbrs verts s' < measure nbrs verts s := by
  have hsum : ∀ x, s'.Discovered x ↔ s.Discovered x := by
    intro x
    rw [State.Discovered, State.Discovered, hdisc]
  unfold measure
  rw [hcs, hcs', List.map_cons, List.sum_cons]
  simp only [hsum]
  omega

/-! ## One step -/

/-- The timer overflows only when there are `2^31` vertices to number. -/
theorem discover_cases {v : Vertex} (h : Inv nbrs verts P s) (hv : ¬ s.Discovered v)
    (hvm : v ∈ verts) :
    (2 ^ 31 ≤ verts.card ∧ discover nbrs v s = none) ∨
      (s.timer < intMax ∧ discover nbrs v s = some (enter nbrs v s)) := by
  have hlt : (verts.filter s.Discovered).card < verts.card :=
    Finset.card_lt_card (Finset.filter_ssubset.mpr ⟨v, hvm, hv⟩)
  have htimer := h.timer_eq
  unfold discover
  split_ifs with ht
  · exact Or.inr ⟨ht, rfl⟩
  · rw [intMax] at ht
    exact Or.inl ⟨by omega, rfl⟩

/-- Reading an edge from the top frame and acting on it. -/
theorem step_edge {cur : Frame} {rest : List Frame} (h : Inv nbrs verts [] s)
    (hclosed : ∀ x ∈ verts, ∀ y ∈ nbrs x, y ∈ verts) (hcs : s.callStack = cur :: rest)
    (hidx : cur.idx < cur.neighbors.length) :
    (2 ^ 31 ≤ verts.card ∧ step nbrs s = none) ∨ ∃ s', step nbrs s = some s' ∧ Inv nbrs verts [] s' ∧
      measure nbrs verts s' < measure nbrs verts s ∧ ∀ x, s.Discovered x → s'.Discovered x := by
  have hact := active_eq_cons hcs
  have hcur : cur.u ∈ s.stk := h.active_stk _ (hact ▸ List.mem_cons_self)
  have hadv := inv_advance h hcs hidx
  have hμ : measure nbrs verts (advance cur rest s) + 1 = measure nbrs verts s :=
    measure_advance hcs hidx
  have hstep : step nbrs s
      = if (s.disc cur.neighbors[cur.idx]).isNone then
          discover nbrs cur.neighbors[cur.idx] (advance cur rest s)
        else if s.onStack cur.neighbors[cur.idx] then
          some (backEdge cur.u cur.neighbors[cur.idx] (advance cur rest s))
        else some (advance cur rest s) := by
    rw [step, hcs]
    exact dif_pos hidx
  have hedge : cur.neighbors[cur.idx] ∈ nbrs cur.u := by
    rw [← h.frame_neighbors cur (hcs ▸ List.mem_cons_self)]
    exact List.getElem_mem hidx
  -- a discovered vertex is on the stack, or its component is stored; another one is entered
  generalize cur.neighbors[cur.idx] = v at hadv hstep hedge
  rw [hstep]
  by_cases hv : s.Discovered v
  · have hnone : ¬ (s.disc v).isNone = true := by
      rw [Option.isNone_iff_eq_none, ← Option.isSome_iff_ne_none.not_left]
      exact not_not.mpr hv
    rw [if_neg hnone]
    by_cases hon : s.onStack v = true
    · have hstk : v ∈ s.stk := (h.onStack_iff v).mp hon
      rw [if_pos hon]
      refine Or.inr ⟨_, rfl, inv_backEdge hadv ((active_advance hcs).trans hact) hstk hedge, ?_,
        fun _ hx => hx⟩
      show measure nbrs verts (advance cur rest s) < _
      omega
    · rw [if_neg hon]
      refine Or.inr ⟨_, rfl, hadv.skip ⟨hv, fun hm => hon ((h.onStack_iff v).mpr hm)⟩, ?_,
        fun _ hx => hx⟩
      omega
  · have hnone : (s.disc v).isNone = true := by
      rw [State.Discovered, Option.isSome_iff_ne_none, not_not] at hv
      rw [hv]
      rfl
    have hvm := hclosed cur.u (h.disc_mem _ (h.stk_disc _ hcur)) v hedge
    rw [if_pos hnone]
    rcases discover_cases hadv hv hvm with hbad | ⟨ht, hd⟩
    · exact Or.inl hbad
    refine Or.inr ⟨_, hd, inv_enter hadv hv hvm ht ?_, ?_, fun x hx =>
      discovered_enter.mpr (Or.inr hx)⟩
    · intro a ha
      rw [active_advance hcs] at ha
      exact (h.reach_above a ha cur.u hcur (h.discAt_le_head hact ha)).tail hedge
    · have hμ' : measure nbrs verts (enter nbrs v (advance cur rest s)) + 1
          = measure nbrs verts (advance cur rest s) := measure_enter hv hvm
      omega

/-- Leaving the top frame, with or without a component to store. -/
theorem step_return {cur : Frame} {rest : List Frame} (h : Inv nbrs verts [] s)
    (hcs : s.callStack = cur :: rest) (hidx : cur.neighbors.length ≤ cur.idx) :
    ∃ s', step nbrs s = some s' ∧ Inv nbrs verts [] s' ∧
      measure nbrs verts s' < measure nbrs verts s ∧ ∀ x, s.Discovered x → s'.Discovered x := by
  have hact := active_eq_cons hcs
  have hcur : cur.u ∈ s.stk := h.active_stk _ (hact ▸ List.mem_cons_self)
  have hstep : step nbrs s = (closeComponent cur.u s).map (returnToParent cur.u rest) := by
    rw [step, hcs]
    exact dif_neg (not_lt.mpr hidx)
  rw [hstep]
  by_cases hroot : s.low cur.u = s.discAt cur.u
  · obtain ⟨A, B, hstk, huA⟩ := List.eq_append_cons_of_mem hcur
    have hret : returnToParent cur.u rest
          { s with
            stk := B
            onStack := fun x => if x ∈ A ++ [cur.u] then false else s.onStack x
            sccs := s.sccs ++ [A ++ [cur.u]] }
        = popped cur rest A B s := by
      cases rest with
      | nil => rfl
      | cons parent rest =>
        -- the low-link of the parent is already smaller than the number of the root
        have hp : parent.u ∈ (parent :: rest).map (·.u) := List.mem_cons_self
        have hlt := h.discAt_lt_of_mem_rest hcs hp
        have hle := h.low_le parent.u (h.active_stk _ (hact ▸ List.mem_cons_of_mem _ hp))
        have hmin : min (s.low parent.u) (s.low cur.u) = s.low parent.u :=
          min_eq_left (by omega)
        simp only [returnToParent, hmin, Function.update_eq_self]
        rfl
    refine ⟨popped cur rest A B s, ?_, inv_popped h hcs hidx hroot hstk,
      measure_drop hcs rfl rfl, fun _ hx => hx⟩
    rw [closeComponent, if_pos hroot, hstk, popComponent_eq huA, List.nil_append]
    exact congrArg some hret
  · refine ⟨returnToParent cur.u rest s, ?_, inv_returnToParent h hcs hidx hroot, ?_, ?_⟩
    · rw [closeComponent, if_neg hroot]
      rfl
    all_goals
      obtain ⟨low', heq, -⟩ := returnToParent_spec cur.u rest s
      rw [heq]
    · exact measure_drop hcs rfl rfl
    · exact fun _ hx => hx

/-- **One step**: while a frame is left the body keeps the invariant, lowers the
measure and forgets no discovered vertex, unless the timer overflows. -/
theorem step_spec (h : Inv nbrs verts [] s)
    (hclosed : ∀ x ∈ verts, ∀ y ∈ nbrs x, y ∈ verts) (hne : s.callStack ≠ []) :
    (2 ^ 31 ≤ verts.card ∧ step nbrs s = none) ∨ ∃ s', step nbrs s = some s' ∧
      Inv nbrs verts [] s' ∧ measure nbrs verts s' < measure nbrs verts s ∧
      ∀ x, s.Discovered x → s'.Discovered x := by
  cases hcs : s.callStack with
  | nil => exact absurd hcs hne
  | cons cur rest =>
    rcases lt_or_ge cur.idx cur.neighbors.length with hidx | hidx
    · exact step_edge h hclosed hcs hidx
    · exact Or.inr (step_return h hcs hidx)

/-! ## The loops -/

/-- The search from one vertex, started with no frame, ends with no frame. -/
theorem outcome_searchFrom {start : Vertex} (h : Inv nbrs verts [] s) (hcs : s.callStack = [])
    (hclosed : ∀ x ∈ verts, ∀ y ∈ nbrs x, y ∈ verts) (hstart : start ∈ verts) :
    Outcome (2 ^ 31 ≤ verts.card) (fun n => searchFrom nbrs n s start) fun s' =>
      Inv nbrs verts [] s' ∧ s'.callStack = [] ∧
        (∀ x, s.Discovered x → s'.Discovered x) ∧ s'.Discovered start := by
  unfold searchFrom
  by_cases hd : (s.disc start).isSome = true
  · exact Or.inl ⟨s, ⟨0, fun _ _ => if_pos hd⟩, h, hcs, fun _ hx => hx, hd⟩
  · have hs : { s with callStack := [] } = s := by
      rw [← hcs]
    simp only [if_neg hd, hs]
    rcases discover_cases h hd hstart with ⟨hbad, hnone⟩ | ⟨htimer, hsome⟩
    · simp only [hnone, Option.bind_none]
      exact Or.inr ⟨hbad, 0, fun _ _ => rfl⟩
    · have hent : Inv nbrs verts [] (enter nbrs start s) := by
        refine inv_enter (h.weaken [start]) hd hstart htimer fun a ha => ?_
        rw [State.active, hcs] at ha
        exact absurd ha List.not_mem_nil
      -- the loop keeps what the search has discovered, the start included
      have hloop := outcome_whileLoop (fun s : State => !s.callStack.isEmpty) (step nbrs)
        (2 ^ 31 ≤ verts.card)
        (fun t => Inv nbrs verts [] t ∧ ∀ x, (enter nbrs start s).Discovered x → t.Discovered x)
        (measure nbrs verts) (fun t ht hc => by
          rcases step_spec ht.1 hclosed (by simpa using hc) with hbad | ⟨t', hstep, hI, hμ, hm⟩
          · exact Or.inl hbad
          · exact Or.inr ⟨t', hstep, ⟨hI, fun x hx => hm x (ht.2 x hx)⟩, hμ⟩)
        ⟨hent, fun _ hx => hx⟩
      simp only [hsome, Option.bind_some]
      refine hloop.imp ?_ id
      rintro ⟨s', hret, ⟨hI, hmono⟩, hcond⟩
      exact ⟨s', hret, hI, by simpa using hcond,
        fun x hx => hmono x (discovered_enter.mpr (Or.inr hx)),
        hmono start (discovered_enter.mpr (Or.inl rfl))⟩

/-- With no frame left nothing is left on the stack: its bottom would have a
low-link below its own number. -/
theorem Inv.stk_eq_nil (h : Inv nbrs verts [] s) (hcs : s.callStack = []) : s.stk = [] := by
  rcases List.eq_nil_or_concat' s.stk with hnil | ⟨l, a, hstk⟩
  · exact hnil
  · exfalso
    have ha : a ∈ s.stk := hstk ▸ List.mem_append_right _ (List.mem_singleton_self a)
    have hna : a ∉ s.active := by
      rw [State.active, hcs]
      exact List.not_mem_nil
    have hlow := h.low_lt a ha hna
    obtain ⟨w, hw, hwa, -⟩ := h.low_reach a ha
    have hsorted := h.stk_sorted
    rw [hstk, List.pairwise_append] at hsorted
    rw [hstk, List.mem_append, List.mem_singleton] at hw
    rcases hw with hw | rfl
    · have := hsorted.2.2 w hw a (List.mem_singleton_self a)
      omega
    · omega

/-- **`find_sccs` is correct**, for every iteration order: it returns the
partition into components, unless there are too many vertices for the timer.
When it returns, the timer did number every vertex. -/
theorem outcome_findSccs {g : DirectedGraph} (ord : g.Order) :
    Outcome (2 ^ 31 ≤ g.numVertices) (findSccs ord) fun sccs =>
      IsSccPartition g.vertices g.Edge sccs ∧ g.numVertices < 2 ^ 31 := by
  have hadj : Adj ord.neighbors = g.Edge := by
    funext x y
    exact propext ord.mem_neighbors
  have hclosed : ∀ x ∈ g.vertices, ∀ y ∈ ord.neighbors x, y ∈ g.vertices := fun x _ y hy =>
    (ord.mem_neighbors.mp hy).mem_vertices.2
  -- between the searches the invariant holds of an empty call stack
  have hloop := outcome_foldlM (searchFrom ord.neighbors) (2 ^ 31 ≤ g.numVertices)
    (fun done s => Inv ord.neighbors g.vertices [] s ∧ s.callStack = [] ∧
      ∀ x ∈ done, s.Discovered x)
    ord.vertices (fun done a rest s hl ⟨hI, hcs, hdone⟩ => by
      have ha : a ∈ g.vertices := by
        rw [← ord.mem_vertices, hl]
        exact List.mem_append_right _ List.mem_cons_self
      refine (outcome_searchFrom hI hcs hclosed ha).imp
        (fun ⟨s', hret, hI', hcs', hmono, hd⟩ => ⟨s', hret, hI', hcs', fun x hx => ?_⟩) id
      rcases List.mem_append.mp hx with hx | hx
      · exact hmono x (hdone x hx)
      · exact List.mem_singleton.mp hx ▸ hd)
    (s := init) ⟨inv_init, rfl, by simp⟩
  refine hloop.map (·.sccs) fun s ⟨hI, hcs, hall⟩ => ?_
  have hdisc : ∀ v ∈ g.vertices, s.Discovered v := fun v hv =>
    hall v (ord.mem_vertices.mpr hv)
  have hstk := hI.stk_eq_nil hcs
  constructor
  · refine isSccPartition_of_classes hI.sccs_ne_nil hI.sccs_nodup ?_ ?_
    · intro v
      rw [hI.mem_sccs, State.Done, hstk]
      exact ⟨fun hv => hI.disc_mem v hv.1, fun hv => ⟨hdisc v hv, List.not_mem_nil⟩⟩
    · rw [← hadj]
      exact hI.sccs_class
  · have htimer := hI.timer_eq
    have hle := hI.timer_le
    rw [Finset.filter_true_of_mem hdisc] at htimer
    rw [intMax] at hle
    show g.vertices.card < 2 ^ 31
    omega

/-- The number of vertices decides whether `find_sccs` returns at all. -/
theorem returns_findSccs_iff {g : DirectedGraph} (ord : g.Order) :
    (∃ sccs, Returns (findSccs ord) sccs) ↔ g.numVertices < 2 ^ 31 := by
  constructor
  · rintro ⟨sccs, hret⟩
    exact ((outcome_findSccs ord).of_returns hret).2
  · intro h
    obtain ⟨sccs, hret, -⟩ := (outcome_findSccs ord).returns (not_le.mpr h)
    exact ⟨sccs, hret⟩

/-- **`find_sccs` on the graph of any sequence of calls** terminates, and returns
the partition into strongly connected components. -/
theorem findSccs_build (ops : List DirectedGraph.Op) (ord : (DirectedGraph.build ops).Order)
    (hsize : (DirectedGraph.build ops).numVertices < 2 ^ 31) :
    ∃ sccs, Returns (findSccs ord) sccs ∧
      IsSccPartition (DirectedGraph.build ops).vertices (DirectedGraph.build ops).Edge sccs := by
  obtain ⟨sccs, hret, hpart, -⟩ := (outcome_findSccs ord).returns (not_le.mpr hsize)
  exact ⟨sccs, hret, hpart⟩

/-- A two-vertex cycle with an edge into a third vertex. -/
theorem findSccs_build_cycle :
    ∃ sccs, Returns (findSccs (DirectedGraph.Order.ofVertices
        (DirectedGraph.build [.addEdge 1 2, .addEdge 2 1, .addEdge 2 3]) [3, 1, 2]
        (by decide))) sccs ∧
      IsSccPartition (DirectedGraph.build [.addEdge 1 2, .addEdge 2 1, .addEdge 2 3]).vertices
        (DirectedGraph.build [.addEdge 1 2, .addEdge 2 1, .addEdge 2 3]).Edge sccs :=
  findSccs_build _ _ (by decide)

end Tarjan
