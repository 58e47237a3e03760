/-
# The text of a graph snapshot

`write_graph_snapshot` writes three lists with loops that place the commas by flags.
The text is a JSON object, and decoding it gives back the vertices, the edges and the
nontrivial components (`decode_writeGraphSnapshot`), whatever the order in which the
sets are met.
-/
import ZtMapper.Engine.EventLines
import ZtMapper.Engine.Final
import ZtMapper.Soc.ToJson

open Json Scan Soc

namespace Engine

/-! ## `write_graph_snapshot` -/

def addressText (v : Vertex) : List Char := '"' :: ((ipToString v).toList ++ ['"'])

def edgeText (v u : Vertex) : List Char :=
  "\n    \x7b\"from\":\"".toList ++ (ipToString v).toList ++
    "\",\"to\":\"".toList ++ (ipToString u).toList ++ "\"\x7d".toList

def sccText (scc : Component) : List Char :=
  "\n    [".toList ++ (scc.foldl (fun s v => put ',' s (addressText v)) ([], true)).1 ++ "]".toList

/-- The state of a loop is the text so far and `first`. -/
def writeGraphSnapshot {g : DirectedGraph} (ord : g.Order) (sccs : List Component) : List Char :=
  let out := "\x7b\n  \"vertices\": [".toList
  let out := (ord.vertices.foldl (fun s v => put ',' s (addressText v)) (out, true)).1
  let out := out ++ "],\n  \"edges\": [".toList
  let out := (ord.vertices.foldl (fun s v =>
    (ord.neighbors v).foldl (fun s u => put ',' s (edgeText v u)) s) (out, true)).1
  let out := out ++ "\n  ],\n  \"sccs\": [".toList
  let out := (sccs.foldl (fun s scc =>
    if scc.length ≤ 1 then s else put ',' s (sccText scc)) (out, true)).1
  out ++ "\n  ]\n\x7d\n".toList

variable {g : DirectedGraph} {ord : g.Order} {sccs : List Component} {u v : Vertex}

/-- The edges in the order of the loops. -/
def edgesOf (ord : g.Order) : List (Vertex × Vertex) :=
  ord.vertices.flatMap fun v => (ord.neighbors v).map fun u => (v, u)

/-- The components that are not skipped. -/
def reported (sccs : List Component) : List Component := sccs.filter fun scc => scc.length > 1

/-- The loops join their items by commas. -/
theorem writeGraphSnapshot_eq : writeGraphSnapshot ord sccs =
    "\x7b\n  \"vertices\": [".toList ++ [','].intercalate (ord.vertices.map addressText) ++
      "],\n  \"edges\": [".toList ++
      [','].intercalate ((edgesOf ord).map fun e => edgeText e.1 e.2) ++
      "\n  ],\n  \"sccs\": [".toList ++ [','].intercalate ((reported sccs).map sccText) ++
      "\n  ]\n\x7d\n".toList := by
  have hedges : ∀ s, ord.vertices.foldl (fun s v =>
      (ord.neighbors v).foldl (fun s u => put ',' s (edgeText v u)) s) s =
      ((edgesOf ord).map fun e => edgeText e.1 e.2).foldl (put ',') s := by
    intro s
    rw [edgesOf, List.foldl_map, List.foldl_flatMap]
    simp only [List.foldl_map]
  have hsccs : ∀ s, sccs.foldl (fun s scc =>
      if scc.length ≤ 1 then s else put ',' s (sccText scc)) s =
      ((reported sccs).map sccText).foldl (put ',') s := by
    intro s
    rw [reported, List.foldl_map, List.foldl_filter]
    refine congrArg (fun f => sccs.foldl f s) (funext fun s => funext fun scc => ?_)
    by_cases h : scc.length ≤ 1
    · rw [if_pos h, if_neg (by simpa using h)]
    · rw [if_neg h, if_pos (by simpa using h)]
  have hvertices : ∀ s, ord.vertices.foldl (fun s v => put ',' s (addressText v)) s =
      (ord.vertices.map addressText).foldl (put ',') s := fun s => List.foldl_map.symm
  unfold writeGraphSnapshot
  dsimp only
  rw [hvertices, hedges, hsccs, foldl_put, foldl_put, foldl_put]

/-! ## Its parts -/

theorem isPlain_of_mem_ipToString : (ipToString v).toList.all isPlain = true := by
  have hdigit : ∀ {n : ℕ} {c : Char}, c ∈ Nat.toDigits 10 n → isPlain c = true := by
    intro n c hc
    have h := (toNat_of_isDigit (Nat.isDigit_of_mem_toDigits (by decide) (by decide) hc)).2
    have hne : ∀ d : Char, d.toNat < 48 ∨ 57 < d.toNat → (c != d) = true := by
      rintro d hd
      rw [bne_iff_ne]
      rintro rfl
      omega
    have hle : ' ' ≤ c := Char.le_def.mpr (UInt32.le_iff_toNat_le.mpr (le_trans (by decide) h.1))
    rw [isPlain, hne '"' (by decide), hne '\\' (by decide), decide_eq_true hle]
    rfl
  rw [List.all_eq_true, toList_ipToString]
  intro c hc
  simp only [List.mem_append, List.mem_cons] at hc
  rcases hc with hc | rfl | hc | rfl | hc | rfl | hc
  · exact hdigit hc
  · decide
  · exact hdigit hc
  · decide
  · exact hdigit hc
  · decide
  · exact hdigit hc

def addressValue (v : Vertex) : Value := .str (ipToString v)

def edgeValue (e : Vertex × Vertex) : Value :=
  .obj [("from", addressValue e.1), ("to", addressValue e.2)]

def sccValue (scc : Component) : Value := .arr (scc.map addressValue)

theorem denotes_addressText (v : Vertex) : Denotes .value (addressText v) (addressValue v) := by
  obtain ⟨ps, hps, hchars⟩ := exists_charsText_of_all (isPlain_of_mem_ipToString (v := v))
  have hstring := Denotes.string hps
  rwa [hchars, String.ofList_toList] at hstring

theorem isText_edgeText (e : Vertex × Vertex) : IsText (edgeText e.1 e.2) (edgeValue e) := by
  have htext : edgeText e.1 e.2 = "\n    ".toList ++ ('\x7b' :: ([','].intercalate
      [(item "from" (addressText e.1) (addressValue e.1)).1,
        (item "to" (addressText e.2) (addressValue e.2)).1] ++ ['\x7d']) ++ []) := by
    have hopen : "\n    \x7b\"from\":\"".toList =
        "\n    ".toList ++ '\x7b' :: '"' :: ("from".toList ++ ['"', ':', '"']) := by decide
    have hto : "\",\"to\":\"".toList = '"' :: ',' :: '"' :: ("to".toList ++ ['"', ':', '"']) := by
      decide
    have hclose : "\"\x7d".toList = ['"', '\x7d'] := by decide
    unfold edgeText item addressText
    simp only [hopen, hto, hclose, List.intercalate_cons_cons, List.intercalate_singleton,
      List.append_assoc, List.cons_append, List.nil_append, List.append_nil]
  have hmembers := denotes_members [item "from" (addressText e.1) (addressValue e.1),
    item "to" (addressText e.2) (addressValue e.2)] (List.cons_ne_nil _ _) (by
      simp only [List.forall_mem_cons]
      exact ⟨memberText_item (by decide) (denotes_addressText _).isText,
        memberText_item (by decide) (denotes_addressText _).isText, by simp⟩)
  rw [htext]
  exact (Denotes.object hmembers).isText.pad (by decide) blank_nil

theorem isText_sccText (scc : Component) : IsText (sccText scc) (sccValue scc) := by
  have harray := denotes_array (scc.map fun v => (addressText v, addressValue v))
    (List.forall_mem_map.mpr fun v _ => (denotes_addressText v).isText) blank_nil
  rw [List.map_map, List.map_map, List.append_nil] at harray
  have htext : sccText scc =
      "\n    ".toList ++ ('[' :: ([','].intercalate (scc.map addressText) ++ [']']) ++ []) := by
    have hopen : "\n    [".toList = "\n    ".toList ++ ['['] := by decide
    have hclose : "]".toList = [']'] := by decide
    unfold sccText
    rw [← List.foldl_map, foldl_put, hopen, hclose]
    simp only [List.append_assoc, List.cons_append, List.nil_append, List.append_nil]
  rw [htext]
  exact harray.isText.pad (by decide) blank_nil

/-! ## The snapshot read back -/

/-- An array as a member of the snapshot, with `w` before its closing bracket and `w'`
after it. -/
def arrayMember (k : String) (items : List (List Char × Value)) (w w' : List Char) :
    List Char × String × Value :=
  ("\n  ".toList ++ (item k ([' '] ++ ('[' :: ([','].intercalate (items.map (·.1)) ++ w ++ [']']) ++
    w')) (.arr (items.map (·.2)))).1, k, .arr (items.map (·.2)))

theorem memberText_arrayMember {k : String} {items : List (List Char × Value)} {w w' : List Char}
    (hk : k.toList.all isPlain = true) (h : ∀ i ∈ items, IsText i.1 i.2) (hw : Blank w)
    (hw' : Blank w') : MemberText (arrayMember k items w w').1 (arrayMember k items w w').2 := by
  have harray := (denotes_array items h hw).isText.pad (by decide : Blank [' ']) hw'
  exact (memberText_item hk harray).pad (by decide)

/-- The three members of the snapshot, as they are printed. -/
def snapshotMembers (ord : g.Order) (sccs : List Component) : List (List Char × String × Value) :=
  [arrayMember "vertices" (ord.vertices.map fun v => (addressText v, addressValue v)) [] [],
    arrayMember "edges" ((edgesOf ord).map fun e => (edgeText e.1 e.2, edgeValue e))
      "\n  ".toList [],
    arrayMember "sccs" ((reported sccs).map fun scc => (sccText scc, sccValue scc))
      "\n  ".toList ['\n']]

theorem memberText_snapshotMembers :
    ∀ m ∈ snapshotMembers ord sccs, MemberText m.1 m.2 := by
  have hvertices : ∀ i ∈ ord.vertices.map fun v => (addressText v, addressValue v),
      IsText i.1 i.2 :=
    List.forall_mem_map.mpr fun v _ => (denotes_addressText v).isText
  have hedges : ∀ i ∈ (edgesOf ord).map fun e => (edgeText e.1 e.2, edgeValue e),
      IsText i.1 i.2 :=
    List.forall_mem_map.mpr fun e _ => isText_edgeText e
  have hsccs : ∀ i ∈ (reported sccs).map fun scc => (sccText scc, sccValue scc),
      IsText i.1 i.2 :=
    List.forall_mem_map.mpr fun scc _ => isText_sccText scc
  simp only [snapshotMembers, List.forall_mem_cons]
  exact ⟨memberText_arrayMember (by decide) hvertices blank_nil blank_nil,
    memberText_arrayMember (by decide) hedges (by decide) blank_nil,
    memberText_arrayMember (by decide) hsccs (by decide) (by decide), by simp⟩

theorem writeGraphSnapshot_eq_members : writeGraphSnapshot ord sccs =
    '\x7b' :: ([','].intercalate ((snapshotMembers ord sccs).map (·.1)) ++ ['\x7d']) ++
      ['\n'] := by
  have hopen : "\x7b\n  \"vertices\": [".toList =
      '\x7b' :: ("\n  ".toList ++ '"' :: ("vertices".toList ++ ['"', ':', ' ', '['])) := by decide
  have hedges : "],\n  \"edges\": [".toList =
      ']' :: ',' :: ("\n  ".toList ++ '"' :: ("edges".toList ++ ['"', ':', ' ', '['])) := by decide
  have hsccs : "\n  ],\n  \"sccs\": [".toList = "\n  ".toList ++
      ']' :: ',' :: ("\n  ".toList ++ '"' :: ("sccs".toList ++ ['"', ':', ' ', '['])) := by decide
  have hclose : "\n  ]\n\x7d\n".toList = "\n  ".toList ++ [']', '\n', '\x7d', '\n'] := by decide
  rw [writeGraphSnapshot_eq, hopen, hedges, hsccs, hclose]
  unfold snapshotMembers arrayMember item
  simp only [List.map_cons, List.map_nil, List.map_map, Function.comp_def,
    List.intercalate_cons_cons, List.intercalate_singleton, List.append_assoc, List.cons_append,
    List.nil_append]

def snapshotValue (ord : g.Order) (sccs : List Component) : Value :=
  .obj [("vertices", .arr (ord.vertices.map addressValue)),
    ("edges", .arr ((edgesOf ord).map edgeValue)), ("sccs", .arr ((reported sccs).map sccValue))]

/-- **The text is a JSON object** with the three lists. -/
theorem isText_writeGraphSnapshot :
    IsText (writeGraphSnapshot ord sccs) (snapshotValue ord sccs) := by
  have hmembers := denotes_members (snapshotMembers ord sccs) (List.cons_ne_nil _ _)
    memberText_snapshotMembers
  have hvalues : (snapshotMembers ord sccs).map (·.2) =
      [("vertices", .arr (ord.vertices.map addressValue)),
        ("edges", .arr ((edgesOf ord).map edgeValue)),
        ("sccs", .arr ((reported sccs).map sccValue))] := by
    simp only [snapshotMembers, arrayMember, List.map_cons, List.map_nil, List.map_map,
      Function.comp_def]
  rw [hvalues] at hmembers
  have htext := (Denotes.object hmembers).isText.pad blank_nil (by decide : Blank ['\n'])
  rw [List.nil_append, ← writeGraphSnapshot_eq_members] at htext
  exact htext

/-- The lists are those that `graphSnapshot` takes from the loops. -/
theorem snapshotValue_eq : snapshotValue ord sccs =
    .obj [("vertices", .arr ((graphSnapshot ord sccs).vertices.map .str)),
      ("edges", .arr ((graphSnapshot ord sccs).edges.map fun e =>
        .obj [("from", .str e.1), ("to", .str e.2)])),
      ("sccs", .arr ((graphSnapshot ord sccs).sccs.map fun scc => .arr (scc.map .str)))] := by
  simp only [snapshotValue, graphSnapshot, edgesOf, reported, List.map_map,
    List.map_flatMap, Function.comp_def]
  rfl

/-! ## Addresses -/

/-- The printed address is a dotted quad, and `parse_ip` maps it back. -/
theorem isAddress_ipToString (v : Vertex) : IsAddress (utf8 (ipToString v).toList) v := by
  have hoctets : utf8 (ipToString v).toList = inetNtop [(v >>> 24).toUInt8, (v >>> 16).toUInt8,
      (v >>> 8).toUInt8, v.toUInt8] := by
    have hdot : ∀ cs : List Char, utf8 ('.' :: cs) = 46 :: utf8 cs := fun _ => rfl
    rw [toList_ipToString, utf8_append, hdot, utf8_append, hdot, utf8_append, hdot, utf8_toDigits,
      utf8_toDigits, utf8_toDigits, utf8_toDigits, ← toNat_toUInt8, ← toNat_toUInt8,
      ← toNat_toUInt8, ← toNat_toUInt8]
    simp [inetNtop]
  have haddress := isAddress_inetNtop (v >>> 24).toUInt8 (v >>> 16).toUInt8 (v >>> 8).toUInt8
    v.toUInt8
  rwa [ipFromOctets_octets, ← hoctets] at haddress

/-! ## What is decoded -/

theorem mem_edgesOf : (u, v) ∈ edgesOf ord ↔ g.Edge u v := by
  simp only [edgesOf, List.mem_flatMap, List.mem_map, DirectedGraph.Order.mem_vertices,
    DirectedGraph.Order.mem_neighbors, Prod.mk.injEq]
  constructor
  · rintro ⟨a, -, b, hab, rfl, rfl⟩
    exact hab
  · intro h
    exact ⟨u, h.mem_vertices.1, v, h, rfl, rfl⟩

theorem nodup_edgesOf : (edgesOf ord).Nodup := by
  rw [edgesOf, List.nodup_flatMap]
  constructor
  · intro a _
    exact (ord.neighbors_spec a).nodup.map fun b b' heq => (Prod.mk.inj heq).2
  · refine ord.vertices_spec.nodup.imp fun {a a'} hne => ?_
    intro e he he'
    obtain ⟨b, -, rfl⟩ := List.mem_map.mp he
    obtain ⟨b', -, heq⟩ := List.mem_map.mp he'
    exact hne (Prod.mk.inj heq).1.symm

/-- **The snapshot of a graph is decoded** to its vertices, its edges, each of them once, and
the components with more than one member, whatever the order in which the sets are met; an
address is a dotted quad that `parse_ip` maps back to the vertex. -/
theorem decode_writeGraphSnapshot (g : DirectedGraph) (ord : g.Order) (sccs : List Component) :
    ∃ (vs : List Vertex) (es : List (Vertex × Vertex)),
      decode (writeGraphSnapshot ord sccs) = some (.obj [("vertices", .arr (vs.map addressValue)),
        ("edges", .arr (es.map edgeValue)),
        ("sccs", .arr ((sccs.filter fun scc => scc.length > 1).map sccValue))]) ∧
      vs.Nodup ∧ (∀ v, v ∈ vs ↔ v ∈ g.vertices) ∧
      es.Nodup ∧ (∀ u v, (u, v) ∈ es ↔ g.Edge u v) ∧
      ∀ v, IsAddress (utf8 (ipToString v).toList) v ∧
        parseIp (utf8 (ipToString v).toList) = .ok v :=
  ⟨ord.vertices, edgesOf ord, decode_eq_some_iff.mpr isText_writeGraphSnapshot,
    ord.vertices_spec.nodup, fun _ => ord.mem_vertices, nodup_edgesOf, fun _ _ => mem_edgesOf,
    fun v => ⟨isAddress_ipToString v, (isAddress_ipToString v).parseIp⟩⟩

end Engine
