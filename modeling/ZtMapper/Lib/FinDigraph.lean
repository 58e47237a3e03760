/-
# Finite directed graphs as pairs of sets

A set of vertices and a set of edges between them, loops allowed, with the
operations that add a vertex or an edge, remove an edge, and reverse all edges.
-/
import Mathlib.Data.Finset.Card
import Mathlib.Data.Finset.Prod
import Mathlib.Tactic.Common

/-- A vertex set and a set of ordered pairs of its elements. -/
@[ext] structure FinDigraph (α : Type*) where
  verts : Finset α
  edges : Finset (α × α)
  closed : ∀ e ∈ edges, e.1 ∈ verts ∧ e.2 ∈ verts

namespace FinDigraph

variable {α : Type*}

/-- The graph without vertices. -/
def empty : FinDigraph α where
  verts := ∅
  edges := ∅
  closed := fun e he => absurd he (Finset.notMem_empty e)

section

variable [DecidableEq α]

/-- The heads of the edges that leave `u`. -/
def neighbors (d : FinDigraph α) (u : α) : Finset α :=
  (d.edges.filter fun e => e.1 = u).image Prod.snd

theorem mem_neighbors {d : FinDigraph α} {u v : α} : v ∈ d.neighbors u ↔ (u, v) ∈ d.edges := by
  simp only [neighbors, Finset.mem_image, Finset.mem_filter]
  constructor
  · rintro ⟨⟨a, b⟩, ⟨he, rfl⟩, rfl⟩
    exact he
  · intro he
    exact ⟨(u, v), ⟨he, rfl⟩, rfl⟩

def addVertex (d : FinDigraph α) (v : α) : FinDigraph α where
  verts := insert v d.verts
  edges := d.edges
  closed := fun e he =>
    ⟨Finset.mem_insert_of_mem (d.closed e he).1, Finset.mem_insert_of_mem (d.closed e he).2⟩

/-- The edge is added together with its endpoints. -/
def addEdge (d : FinDigraph α) (u v : α) : FinDigraph α where
  verts := insert v (insert u d.verts)
  edges := insert (u, v) d.edges
  closed := by
    intro e he
    rcases Finset.mem_insert.mp he with rfl | he
    · exact ⟨Finset.mem_insert_of_mem (Finset.mem_insert_self u _), Finset.mem_insert_self v _⟩
    · obtain ⟨h₁, h₂⟩ := d.closed e he
      exact ⟨Finset.mem_insert_of_mem (Finset.mem_insert_of_mem h₁),
        Finset.mem_insert_of_mem (Finset.mem_insert_of_mem h₂)⟩

/-- The endpoints of the removed edge stay. -/
def removeEdge (d : FinDigraph α) (u v : α) : FinDigraph α where
  verts := d.verts
  edges := d.edges.erase (u, v)
  closed := fun e he => d.closed e (Finset.mem_of_mem_erase he)

/-! ## The reversed graph -/

/-- The same vertices, every edge turned around. -/
def reverse (d : FinDigraph α) : FinDigraph α where
  verts := d.verts
  edges := d.edges.image Prod.swap
  closed := by
    intro e he
    obtain ⟨e', he', rfl⟩ := Finset.mem_image.mp he
    exact (d.closed e' he').symm

theorem mem_edges_reverse {d : FinDigraph α} {u v : α} :
    (u, v) ∈ d.reverse.edges ↔ (v, u) ∈ d.edges := by
  simp only [reverse, Finset.mem_image]
  constructor
  · rintro ⟨⟨a, b⟩, he, h⟩
    obtain ⟨rfl, rfl⟩ := Prod.mk.inj h
    exact he
  · intro he
    exact ⟨(v, u), he, rfl⟩

/-- Reversing loses no edge and merges no two. -/
theorem card_edges_reverse (d : FinDigraph α) : d.reverse.edges.card = d.edges.card :=
  Finset.card_image_of_injective d.edges Prod.swap_injective

theorem reverse_reverse (d : FinDigraph α) : d.reverse.reverse = d := by
  ext e
  · rfl
  · obtain ⟨u, v⟩ := e
    rw [mem_edges_reverse, mem_edges_reverse]

end

end FinDigraph
