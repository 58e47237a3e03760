/-
# The lines of the engine's alerts

The details of an alert are put together by streams.  They are a JSON object on one line
whatever the numbers, the addresses and the order of a listing are (`written_details`), so
every line that a run writes to its file is read back, and says of the alert what the
envelope says (`loadJson_alerts`).
-/
import ZtMapper.Engine.AlertContent
import ZtMapper.Engine.Snapshot
import ZtMapper.Lib.JsonMembers
import ZtMapper.Viz.LoadJson

open Json Scan Soc Viz

namespace Engine

/-! ## Printed objects -/

/-- An object with the given members. -/
def objectText (items : List (String × List Char × Value)) : List Char :=
  printObject (items.map fun i => (i.1, i.2.1))

def objectValue (items : List (String × List Char × Value)) : Value :=
  .obj (items.map fun i => (i.1, i.2.2))

/-- A member whose value is printed without control characters. -/
structure PrintedItem (i : String × List Char × Value) : Prop where
  member : IsMember i.1 i.2.1 i.2.2
  printable : Printable i.2.1

/-- A plain key with a printed value of its text is a printed member. -/
theorem printedItem_mk {k : String} {t : List Char} {v : Value} (hk : k.toList.all isPlain = true)
    (ht : Printable t) (h : Denotes .value t v) : PrintedItem (k, t, v) :=
  ⟨⟨hk, h⟩, ht⟩

/-- The text of a printed member is one line. -/
theorem PrintedItem.printable_memberText {i : String × List Char × Value} (h : PrintedItem i) :
    Printable (memberText (i.1, i.2.1)) := by
  intro c hc
  rw [memberText_eq, List.mem_append, List.mem_cons, List.mem_append] at hc
  rcases hc with (rfl | hc | hc) | hc
  · decide
  · exact printable_of_all h.member.plain c hc
  · rw [List.mem_cons, List.mem_singleton] at hc
    rcases hc with rfl | rfl <;> decide
  · exact h.printable c hc

/-- Printable texts stay printable between commas. -/
theorem printable_intercalate {ts : List (List Char)} (h : ∀ t ∈ ts, Printable t) :
    Printable ([','].intercalate ts) := by
  intro c hc
  rcases mem_intercalate hc with rfl | ⟨t, ht, hct⟩
  · decide
  · exact h t ht c hct

/-- Brackets keep a text printable. -/
theorem printable_bracketed {l r : Char} {t : List Char} (hl : 32 ≤ l.toNat) (hr : 32 ≤ r.toNat)
    (ht : Printable t) : Printable (l :: (t ++ [r])) := by
  intro c hc
  rw [List.mem_cons, List.mem_append, List.mem_singleton] at hc
  rcases hc with rfl | hc | rfl
  · exact hl
  · exact ht c hc
  · exact hr

variable {items : List (String × List Char × Value)}

/-- An object of printed members is read as the object of their values. -/
theorem denotes_objectText (h : ∀ i ∈ items, PrintedItem i) :
    Denotes .value (objectText items) (objectValue items) :=
  denotes_printObject fun i hi => (h i hi).member

/-- An object of printed members is one line. -/
theorem printable_objectText (h : ∀ i ∈ items, PrintedItem i) : Printable (objectText items) := by
  refine printable_bracketed (by decide) (by decide) (printable_intercalate ?_)
  rw [List.map_map]
  exact List.forall_mem_map.mpr fun i hi => (h i hi).printable_memberText

/-- Digits are printable. -/
theorem printable_toDigits (n : ℕ) : Printable (Nat.toDigits 10 n) := fun c hc =>
  le_trans (by decide) (Char.isDigit_iff_toNat.mp (isDigit_of_mem_toDigits hc)).1

/-- A printed integer is printable, with its sign. -/
theorem printable_intText (z : ℤ) : Printable (intText z) := by
  cases z with
  | ofNat n => exact printable_toDigits n
  | negSucc n => exact List.forall_mem_cons.mpr ⟨by decide, printable_toDigits _⟩

/-- A quoted address is printable. -/
theorem printable_addressText (v : Vertex) : Printable (addressText v) :=
  printable_bracketed (by decide) (by decide) (printable_of_all isPlain_of_mem_ipToString)

/-- A member that carries a count. -/
theorem printedItem_nat {k : String} (hk : k.toList.all isPlain = true) (n : ℕ) :
    PrintedItem (k, Nat.toDigits 10 n, .num n 0) :=
  printedItem_mk hk (printable_toDigits n) (denotes_toDigits n)

/-- A member that carries a signed number. -/
theorem printedItem_int {k : String} (hk : k.toList.all isPlain = true) (z : ℤ) :
    PrintedItem (k, intText z, .num z 0) :=
  printedItem_mk hk (printable_intText z) (denotes_intText z)

/-- A member that carries an address. -/
theorem printedItem_address {k : String} (hk : k.toList.all isPlain = true) (v : Vertex) :
    PrintedItem (k, addressText v, addressValue v) :=
  printedItem_mk hk (printable_addressText v) (denotes_addressText v)

/-- A text without quotes and backslashes, as a string. -/
theorem denotes_plain {s : String} (hs : s.toList.all isPlain = true) :
    Denotes .value ('"' :: (s.toList ++ ['"'])) (.str s) := by
  obtain ⟨ps, hps, hchars⟩ := exists_charsText_of_all hs
  have hstring := Denotes.string hps
  rwa [hchars, String.ofList_toList] at hstring

/-- A member that carries a string without escapes. -/
theorem printedItem_plain {k s : String} (hk : k.toList.all isPlain = true)
    (hs : s.toList.all isPlain = true) :
    PrintedItem (k, '"' :: (s.toList ++ ['"']), .str s) :=
  printedItem_mk hk (printable_bracketed (by decide) (by decide) (printable_of_all hs))
    (denotes_plain hs)

/-- An array of texts that are printed without control characters. -/
theorem printedItem_array {k : String} (hk : k.toList.all isPlain = true)
    (elements : List (List Char × Value))
    (h : ∀ e ∈ elements, Printable e.1 ∧ Denotes .value e.1 e.2) :
    PrintedItem (k, '[' :: ([','].intercalate (elements.map (·.1)) ++ [']']),
      .arr (elements.map (·.2))) := by
  refine printedItem_mk hk ?_ ?_
  · exact printable_bracketed (by decide) (by decide)
      (printable_intercalate (List.forall_mem_map.mpr fun e he => (h e he).1))
  · have harray := denotes_array elements (fun e he => (h e he).2.isText) blank_nil
    rwa [List.append_nil] at harray

/-! ## The details -/

def scanDescription : String :=
  "Source IP exceeded connection frequency threshold — possible port scan"

def sccDescription : String :=
  "Strongly connected component detected — possible architecture violation or lateral movement"

def portScanItems (freq : UInt64) (threshold srcLabel : Int32) (srcIp : UInt32) :
    List (String × List Char × Value) :=
  [("estimated_frequency", Nat.toDigits 10 freq.toNat, .num freq.toNat 0),
    ("threshold", intText threshold.toInt, .num threshold.toInt 0),
    ("src_label", intText srcLabel.toInt, .num srcLabel.toInt 0),
    ("src_ip", addressText srcIp, addressValue srcIp),
    ("description", '"' :: (scanDescription.toList ++ ['"']), .str scanDescription)]

/-- One vertex of a listing with its distance. -/
def hopItems (r : Vertex × ℤ) : List (String × List Char × Value) :=
  [("ip", addressText r.1, addressValue r.1), ("hops", intText r.2, .num r.2 0)]

def hopElement (r : Vertex × ℤ) : List Char × Value :=
  (objectText (hopItems r), objectValue (hopItems r))

def blastRadiusItems (srcIp : UInt32) (maxHops : Int32) (blast : List (Vertex × ℤ)) :
    List (String × List Char × Value) :=
  [("source", addressText srcIp, addressValue srcIp),
    ("max_hops", intText maxHops.toInt, .num maxHops.toInt 0),
    ("reachable_count", Nat.toDigits 10 blast.length, .num blast.length 0),
    ("reachable", '[' :: ([','].intercalate ((blast.map hopElement).map (·.1)) ++ [']']),
      .arr ((blast.map hopElement).map (·.2)))]

def sccItems (scc : Component) : List (String × List Char × Value) :=
  let members := scc.map fun v => (addressText v, addressValue v)
  [("scc_size", Nat.toDigits 10 scc.length, .num scc.length 0),
    ("members", '[' :: ([','].intercalate (members.map (·.1)) ++ [']']),
      .arr (members.map (·.2))),
    ("description", '"' :: (sccDescription.toList ++ ['"']), .str sccDescription)]

/-- `std::to_string` of a count is its digits. -/
theorem toList_toString_nat (n : ℕ) : (toString n).toList = Nat.toDigits 10 n :=
  String.toList_ofList

/-- The details of a port scan, as an object of members. -/
theorem toList_portScanDetails (freq : UInt64) (threshold srcLabel : Int32) (srcIp : UInt32) :
    (portScanDetails freq threshold srcLabel srcIp).toList =
      objectText (portScanItems freq threshold srcLabel srcIp) := by
  have h₁ : "\x7b\"estimated_frequency\":".toList =
      '\x7b' :: '"' :: ("estimated_frequency".toList ++ ['"', ':']) := by decide
  have h₂ : ",\"threshold\":".toList = ',' :: '"' :: ("threshold".toList ++ ['"', ':']) := by decide
  have h₃ : ",\"src_label\":".toList = ',' :: '"' :: ("src_label".toList ++ ['"', ':']) := by decide
  have h₄ : ",\"src_ip\":\"".toList = ',' :: '"' :: ("src_ip".toList ++ ['"', ':', '"']) := by decide
  have h₅ : "\"".toList = ['"'] := by decide
  have h₆ : ",\"description\":\"Source IP exceeded connection frequency threshold — possible port scan\"\x7d".toList =
      ',' :: '"' :: ("description".toList ++ '"' :: ':' :: '"' ::
        (scanDescription.toList ++ ['"', '\x7d'])) := by
    decide
  unfold portScanDetails objectText printObject portScanItems addressText
  simp only [String.toList_append, toList_toString_nat, toList_toString_int, h₁, h₂, h₃, h₄, h₅, h₆,
    List.map_cons, List.map_nil, memberText, List.intercalate_cons_cons, List.intercalate_singleton,
    List.append_assoc, List.cons_append, List.nil_append]

/-- One element of the blast list, as an object of members. -/
theorem toList_hopElement (r : Vertex × ℤ) :
    ("\x7b\"ip\":\"" ++ ipToString r.1 ++ "\",\"hops\":" ++ toString r.2 ++ "\x7d").toList =
      (hopElement r).1 := by
  have h₁ : "\x7b\"ip\":\"".toList = '\x7b' :: '"' :: ("ip".toList ++ ['"', ':', '"']) := by decide
  have h₂ : "\",\"hops\":".toList = '"' :: ',' :: '"' :: ("hops".toList ++ ['"', ':']) := by decide
  have h₃ : "\x7d".toList = ['\x7d'] := by decide
  unfold hopElement objectText printObject hopItems addressText
  simp only [String.toList_append, toList_toString_int, h₁, h₂, h₃, List.map_cons, List.map_nil, memberText,
    List.intercalate_cons_cons, List.intercalate_singleton, List.append_assoc, List.cons_append,
    List.nil_append]

/-- The details of a blast radius, as an object of members. -/
theorem toList_blastRadiusDetails (srcIp : UInt32) (maxHops : Int32) (blast : List (Vertex × ℤ)) :
    (blastRadiusDetails srcIp maxHops blast).toList =
      objectText (blastRadiusItems srcIp maxHops blast) := by
  have h₁ : "\x7b\"source\":\"".toList = '\x7b' :: '"' :: ("source".toList ++ ['"', ':', '"']) := by
    decide
  have h₂ : "\",\"max_hops\":".toList = '"' :: ',' :: '"' :: ("max_hops".toList ++ ['"', ':']) := by
    decide
  have h₃ : ",\"reachable_count\":".toList =
      ',' :: '"' :: ("reachable_count".toList ++ ['"', ':']) := by
    decide
  have h₄ : ",\"reachable\":[".toList = ',' :: '"' :: ("reachable".toList ++ ['"', ':', '[']) := by
    decide
  have h₅ : "]\x7d".toList = [']', '\x7d'] := by decide
  have hcomma : ",".toList = [','] := by decide
  have hhops : ∀ f : Vertex × ℤ → String, (∀ r, (f r).toList = (hopElement r).1) →
      (blast.map f).map String.toList = (blast.map hopElement).map (·.1) := by
    intro f hf
    rw [List.map_map, List.map_map]
    exact List.map_congr_left fun r _ => hf r
  unfold blastRadiusDetails
  simp only [String.toList_append, String.toList_intercalate]
  rw [hhops]
  · unfold objectText printObject blastRadiusItems addressText
    simp only [toList_toString_nat, toList_toString_int, h₁, h₂, h₃, h₄, h₅, hcomma, List.map_cons,
      List.map_nil, memberText, List.intercalate_cons_cons, List.intercalate_singleton,
      List.append_assoc, List.cons_append, List.nil_append]
  · exact fun r => toList_hopElement r

/-- The details of a component, as an object of members. -/
theorem toList_sccDetails (scc : Component) : (sccDetails scc).toList = objectText (sccItems scc) := by
  have h₁ : "\x7b\"scc_size\":".toList = '\x7b' :: '"' :: ("scc_size".toList ++ ['"', ':']) := by decide
  have h₂ : ",\"members\":[".toList = ',' :: '"' :: ("members".toList ++ ['"', ':', '[']) := by decide
  have h₃ : "],\"description\":\"Strongly connected component detected — possible architecture violation or lateral movement\"\x7d".toList =
      ']' :: ',' :: '"' :: ("description".toList ++ '"' :: ':' :: '"' ::
        (sccDescription.toList ++ ['"', '\x7d'])) := by
    decide
  have hquote : "\"".toList = ['"'] := by decide
  have hcomma : ",".toList = [','] := by decide
  have hmembers : (scc.map fun v => "\"" ++ ipToString v ++ "\"").map String.toList =
      (scc.map fun v => (addressText v, addressValue v)).map (·.1) := by
    rw [List.map_map, List.map_map]
    refine List.map_congr_left fun v _ => ?_
    simp only [Function.comp_apply, String.toList_append, hquote, addressText, List.cons_append,
      List.nil_append]
  unfold sccDetails
  simp only [String.toList_append, String.toList_intercalate, hmembers]
  unfold objectText printObject sccItems
  simp only [toList_toString_nat, h₁, h₂, h₃, hcomma, List.map_cons, List.map_nil, memberText,
    List.intercalate_cons_cons, List.intercalate_singleton, List.append_assoc, List.cons_append,
    List.nil_append]

/-! ## What the details say -/

def portScanValue (freq : UInt64) (threshold srcLabel : Int32) (srcIp : UInt32) : Value :=
  .obj [("estimated_frequency", .num freq.toNat 0), ("threshold", .num threshold.toInt 0),
    ("src_label", .num srcLabel.toInt 0), ("src_ip", addressValue srcIp),
    ("description", .str scanDescription)]

def hopValue (r : Vertex × ℤ) : Value := .obj [("ip", addressValue r.1), ("hops", .num r.2 0)]

def blastRadiusValue (srcIp : UInt32) (maxHops : Int32) (blast : List (Vertex × ℤ)) : Value :=
  .obj [("source", addressValue srcIp), ("max_hops", .num maxHops.toInt 0),
    ("reachable_count", .num blast.length 0), ("reachable", .arr (blast.map hopValue))]

def sccDetailsValue (scc : Component) : Value :=
  .obj [("scc_size", .num scc.length 0), ("members", .arr (scc.map addressValue)),
    ("description", .str sccDescription)]

/-- A nonempty text without control characters that denotes `v`. -/
structure PrintedText (t : List Char) (v : Value) : Prop where
  ne_nil : t ≠ []
  printable : Printable t
  denotes : Denotes .value t v

/-- Every object of printed members is a printed text. -/
theorem printedText_objectText (h : ∀ i ∈ items, PrintedItem i) :
    PrintedText (objectText items) (objectValue items) :=
  ⟨List.cons_ne_nil _ _, printable_objectText h, denotes_objectText h⟩

/-- The details of a port scan are one JSON value on one line. -/
theorem printedText_portScanDetails (freq : UInt64) (threshold srcLabel : Int32) (srcIp : UInt32) :
    PrintedText (portScanDetails freq threshold srcLabel srcIp).toList
      (portScanValue freq threshold srcLabel srcIp) := by
  rw [toList_portScanDetails]
  refine printedText_objectText ?_
  unfold portScanItems
  simp only [List.forall_mem_cons]
  exact ⟨printedItem_nat (by decide) _, printedItem_int (by decide) _,
    printedItem_int (by decide) _, printedItem_address (by decide) _,
    printedItem_plain (by decide) (by decide), fun _ hi => absurd hi List.not_mem_nil⟩

/-- An element of the blast list is one JSON value on one line. -/
theorem printedText_hopElement (r : Vertex × ℤ) : PrintedText (hopElement r).1 (hopElement r).2 := by
  refine printedText_objectText ?_
  unfold hopItems
  simp only [List.forall_mem_cons]
  exact ⟨printedItem_address (by decide) _, printedItem_int (by decide) _,
    fun _ hi => absurd hi List.not_mem_nil⟩

/-- The details of a blast radius are one JSON value on one line. -/
theorem printedText_blastRadiusDetails (srcIp : UInt32) (maxHops : Int32)
    (blast : List (Vertex × ℤ)) :
    PrintedText (blastRadiusDetails srcIp maxHops blast).toList
      (blastRadiusValue srcIp maxHops blast) := by
  have hvalue : blastRadiusValue srcIp maxHops blast =
      objectValue (blastRadiusItems srcIp maxHops blast) := by
    simp only [blastRadiusValue, objectValue, blastRadiusItems, List.map_cons, List.map_nil, List.map_map]
    rfl
  rw [toList_blastRadiusDetails, hvalue]
  refine printedText_objectText ?_
  unfold blastRadiusItems
  simp only [List.forall_mem_cons]
  exact ⟨printedItem_address (by decide) _, printedItem_int (by decide) _,
    printedItem_nat (by decide) _, printedItem_array (by decide) _ (List.forall_mem_map.mpr
      fun r _ => ⟨(printedText_hopElement r).printable, (printedText_hopElement r).denotes⟩),
    fun _ hi => absurd hi List.not_mem_nil⟩

/-- The details of a component are one JSON value on one line. -/
theorem printedText_sccDetails (scc : Component) :
    PrintedText (sccDetails scc).toList (sccDetailsValue scc) := by
  have hvalue : sccDetailsValue scc = objectValue (sccItems scc) := by
    simp only [sccDetailsValue, objectValue, sccItems, List.map_cons, List.map_nil, List.map_map]
    rfl
  rw [toList_sccDetails, hvalue]
  refine printedText_objectText ?_
  unfold sccItems
  simp only [List.forall_mem_cons]
  exact ⟨printedItem_nat (by decide) _, printedItem_array (by decide) _ (List.forall_mem_map.mpr
      fun v _ => ⟨printable_addressText v, denotes_addressText v⟩),
    printedItem_plain (by decide) (by decide), fun _ hi => absurd hi List.not_mem_nil⟩

/-! ## The size of the details -/

/-- A number that fits in 64 bits has at most 20 digits. -/
theorem within_num {n : ℕ} {m : ℤ} (h : m.natAbs < 2 ^ 64) : Within n (.num m 0) := by
  have hsmall : 2 ^ 64 < 10 ^ 20 := by decide
  have hdigits : (Nat.toDigits 10 m.natAbs).length ≤ 20 :=
    (Nat.length_toDigits_le_iff (by decide) (by decide)).mpr (h.trans hsmall)
  exact .num (hdigits.trans (by decide))

/-- There are `2 ^ 32` addresses. -/
theorem length_le_of_nodup {l : List UInt32} (h : l.Nodup) : l.length ≤ 2 ^ 32 := by
  have hnodup : (l.map UInt32.toNat).Nodup := h.map fun _ _ => UInt32.toNat_inj.mp
  rw [← List.length_map (f := UInt32.toNat), ← List.toFinset_card_of_nodup hnodup]
  refine (Finset.card_le_card fun n hn => ?_).trans (Finset.card_range (2 ^ 32)).le
  obtain ⟨x, -, rfl⟩ := List.mem_map.mp (List.mem_toFinset.mp hn)
  exact Finset.mem_range.mpr x.toNat_lt

/-- An `int` has at most twenty digits. -/
theorem natAbs_toInt_lt (x : Int32) : x.toInt.natAbs < 2 ^ 64 := by
  have := x.toInt_lt
  have := x.le_toInt
  omega

/-- An address is a string: no limit of Python's decoder is near. -/
theorem within_address {n : ℕ} (x : UInt32) : Within n (addressValue x) := .str _

/-- The details of a port scan keep to Python's limits, three levels deep. -/
theorem within_portScanValue (freq : UInt64) (threshold srcLabel : Int32) (srcIp : UInt32) :
    Within 3 (portScanValue freq threshold srcLabel srcIp) := by
  refine .obj ?_
  simp only [List.forall_mem_cons]
  exact ⟨within_num freq.toNat_lt, within_num (natAbs_toInt_lt _), within_num (natAbs_toInt_lt _),
    within_address _, .str _, fun _ hm => absurd hm List.not_mem_nil⟩

/-- The distances are up to the limit, and the vertices are different. -/
theorem within_blastRadiusValue {g : DirectedGraph} {analyzer : ReachabilityAnalyzer}
    {srcIp : UInt32} {maxHops : Int32} {blast : List (Vertex × ℤ)}
    (h : ListsBall g srcIp (hopLimit analyzer maxHops.toInt) blast) :
    Within 3 (blastRadiusValue srcIp maxHops blast) := by
  have hlength : blast.length ≤ 2 ^ 32 := by
    rw [← List.length_map (f := (·.1))]
    exact length_le_of_nodup h.nodup
  have hhop : ∀ r ∈ blast, Within 1 (hopValue r) := by
    rintro ⟨v, d⟩ hr
    obtain ⟨k, -, hk, rfl⟩ := (h.mem_iff v d).mp hr
    have hlimit : hopLimit analyzer maxHops.toInt < 2 ^ 31 := by
      have := maxHops.toInt_lt
      cases analyzer <;> simp only [hopLimit] <;> omega
    have hsize : (k : ℤ).natAbs < 2 ^ 64 := by omega
    refine .obj ?_
    simp only [List.forall_mem_cons]
    exact ⟨within_address v, within_num hsize,
      fun _ hm => absurd hm List.not_mem_nil⟩
  refine .obj ?_
  simp only [List.forall_mem_cons]
  exact ⟨within_address _, within_num (natAbs_toInt_lt _), within_num (by omega),
    .arr (List.forall_mem_map.mpr hhop), fun _ hm => absurd hm List.not_mem_nil⟩

/-- So do the details of a component, which lists each vertex once. -/
theorem within_sccDetailsValue {scc : Component} (h : scc.Nodup) :
    Within 3 (sccDetailsValue scc) := by
  have hlength := length_le_of_nodup h
  refine .obj ?_
  simp only [List.forall_mem_cons]
  exact ⟨within_num (by omega), .arr (List.forall_mem_map.mpr fun v _ => within_address v), .str _,
    fun _ hm => absurd hm List.not_mem_nil⟩

/-- The fields of an alert are nested one deeper than its details. -/
theorem within_fields (a : Soc.Alert) {n : ℕ} {v : Value} (h : Within (n + 1) v) :
    Within (n + 2) (.obj (fields a v)) := by
  have hoption : ∀ (k s : String), ∀ m ∈ (if s = "" then [] else [(k, Value.str s)]),
      Within (n + 1) m.2 := by
    intro k s m hm
    split at hm
    · exact absurd hm List.not_mem_nil
    · rw [List.mem_singleton.mp hm]
      exact .str s
  have htags : ∀ m ∈ (if a.tags = [] then [] else [("tags", Value.arr (a.tags.map .str))]),
      Within (n + 1) m.2 := by
    intro m hm
    split at hm
    · exact absurd hm List.not_mem_nil
    · rw [List.mem_singleton.mp hm]
      exact .arr (List.forall_mem_map.mpr fun t _ => .str t)
  refine .obj ?_
  unfold fields
  simp only [List.forall_mem_append, List.forall_mem_cons]
  exact ⟨⟨⟨⟨⟨⟨.str _, .str _, within_num a.timestampNs.toNat_lt, .str _, .str _,
    fun _ hm => absurd hm List.not_mem_nil⟩, hoption _ _⟩, hoption _ _⟩, hoption _ _⟩, htags⟩, h,
    fun _ hm => absurd hm List.not_mem_nil⟩

/-! ## The file of a run -/

/-- The details of an alert of `evt` have the value `v`. -/
inductive Says (eng : Engine) (evt : NetworkEvent) : Soc.Alert → Value → Prop
  | portScan (srcLabel : Int32) (freq : UInt64) :
      Says eng evt (eng.portScanAlert evt srcLabel freq)
        (portScanValue freq eng.cfg.frequency.threshold srcLabel evt.srcIp)
  | blastRadius (blast : List (Vertex × ℤ)) :
      Says eng evt (eng.blastRadiusAlert evt blast)
        (blastRadiusValue evt.srcIp eng.cfg.reachability.maxHops blast)
  | sccAnomaly (scc : Component) : Says eng evt (eng.sccAlert evt scc) (sccDetailsValue scc)

variable {eng : Engine} {env : Env} {cfg : Pipeline.PipelineConfig} {s₀ s : State}
  {evt : NetworkEvent} {events : List NetworkEvent} {outs : List Output} {a : Soc.Alert} {v : Value}
  {g : DirectedGraph}

/-- What a true alert says is of bounded size. -/
theorem Justified.exists_says (h : Justified eng g evt a) : ∃ v, Says eng evt a v ∧ Within 3 v := by
  cases h with
  | portScan => exact ⟨_, .portScan _ _, within_portScanValue _ _ _ _⟩
  | blastRadius _ hblast => exact ⟨_, .blastRadius _, within_blastRadiusValue hblast⟩
  | sccAnomaly hnodup => exact ⟨_, .sccAnomaly _, within_sccDetailsValue hnodup⟩

/-- What an alert of the engine says is printed in its details. -/
theorem Says.printedText (h : Says eng evt a v) : PrintedText a.details.toList v := by
  cases h with
  | portScan => exact printedText_portScanDetails _ _ _ _
  | blastRadius => exact printedText_blastRadiusDetails _ _ _
  | sccAnomaly => exact printedText_sccDetails _

/-- A line break of the details would be a control character. -/
theorem notMem_bytes_of_printable {d : String} (h : Printable d.toList) {b : UInt8}
    (hb : b.toNat < 32) : b ∉ Soc.bytes d := by
  intro hmem
  rw [bytes_eq] at hmem
  obtain ⟨c, hc, hcontrol, -⟩ := lt_of_mem_utf8 hmem hb
  exact absurd (h c hc) (Nat.not_le.mpr hcontrol)

/-- The line of such an alert. -/
theorem Says.wellFormedLine (h : Says eng evt a v) :
    WellFormedLine a (.obj (fields a v)) ∧ 13 ∉ toJson a := by
  have htext := h.printedText
  have hne : a.details ≠ "" := fun heq => htext.ne_nil (by rw [heq]; rfl)
  exact ⟨wellFormedLine_of_details (notMem_bytes_of_printable htext.printable (by decide))
      (Or.inr ⟨hne, htext.denotes.isText⟩),
    notMem_toJson (by decide) (notMem_bytes_of_printable htext.printable (by decide))⟩

/-- Lines that are all well formed have a list of values. -/
theorem exists_forall₂_wellFormedLine {alerts : List Soc.Alert}
    (h : ∀ a ∈ alerts, ∃ v, WellFormedLine a v) : ∃ vs, List.Forall₂ WellFormedLine alerts vs := by
  induction alerts with
  | nil => exact ⟨[], .nil⟩
  | cons a alerts ih =>
    rw [List.forall_mem_cons] at h
    obtain ⟨v, hv⟩ := h.1
    obtain ⟨vs, hvs⟩ := ih h.2
    exact ⟨v :: vs, .cons hv hvs⟩

/-- Every alert of a run is a line of bounded size that can be read. -/
theorem says_of_reaches (hsetup : setup env cfg = some (eng, s₀))
    (h : Reaches env cfg events s outs) (ha : a ∈ outs.flatMap (·.alerts)) :
    ∃ pre evt post v, events = pre ++ evt :: post ∧ Justified eng (graphOf pre) evt a ∧
      Says eng evt a v ∧ Within 3 v := by
  obtain ⟨pre, evt, post, heq, hjust⟩ := justified_of_reaches hsetup h ha
  obtain ⟨v, hsays, hwithin⟩ := hjust.exists_says
  exact ⟨pre, evt, post, v, heq, hjust, hsays, hwithin⟩

/-- No interpreter refuses a line of bounded size. -/
theorem loads_ne_limit {v : Value} (h : WellFormedLine a (.obj (fields a v)))
    (hwithin : Within 3 v) (py : Python) (frame : Frame) :
    py.loads frame (Viz.text a) ≠ .error .limit := by
  have hfields : Within 100 (.obj (fields a v)) :=
    (within_fields a hwithin).mono (by decide)
  rw [py.loads_of_within frame h.decode hfields]
  exact fun heq => by cases heq

/-- **The alerts of a run are true and can be read.**  Every alert is justified by the events
before it, its details are a JSON object that says so, and its line is decoded to the fields of
the alert; from two alerts on the renderer loads the file of the run as the list of them. -/
theorem loadJson_alerts (hsetup : setup env cfg = some (eng, s₀))
    (h : Reaches env cfg events s outs) :
    (∀ a ∈ outs.flatMap (·.alerts), ∃ pre evt post v, events = pre ++ evt :: post ∧
      Justified eng (graphOf pre) evt a ∧ Says eng evt a v ∧
      WellFormedLine a (.obj (fields a v)) ∧ 13 ∉ toJson a) ∧
    (2 ≤ (outs.flatMap (·.alerts)).length →
      ∃ vs, List.Forall₂ WellFormedLine (outs.flatMap (·.alerts)) vs ∧
        ∀ py : Python, loadJson py (some (written (outs.flatMap (·.alerts)))) =
          some (.arr vs)) := by
  constructor
  · intro a ha
    obtain ⟨pre, evt, post, v, heq, hjust, hsays, -⟩ := says_of_reaches hsetup h ha
    exact ⟨pre, evt, post, v, heq, hjust, hsays, hsays.wellFormedLine⟩
  · intro htwo
    have hlines : ∀ a ∈ outs.flatMap (·.alerts), ∃ v, WellFormedLine a (.obj (fields a v)) ∧
        13 ∉ toJson a ∧ Within 3 v := by
      intro a ha
      obtain ⟨_, _, _, v, -, -, hsays, hwithin⟩ := says_of_reaches hsetup h ha
      exact ⟨v, hsays.wellFormedLine.1, hsays.wellFormedLine.2, hwithin⟩
    obtain ⟨vs, hvs⟩ := exists_forall₂_wellFormedLine fun a ha => by
      obtain ⟨v, hline, -⟩ := hlines a ha
      exact ⟨_, hline⟩
    have hne : outs.flatMap (·.alerts) ≠ [] := fun hnil => by
      rw [hnil] at htwo
      exact absurd htwo (by decide)
    refine ⟨vs, hvs, fun py => (loadJson_written_iff py hne hvs).mpr ⟨htwo, ?_, ?_⟩⟩
    · intro a ha
      obtain ⟨-, -, hnot, -⟩ := hlines a ha
      exact hnot
    · intro a ha
      obtain ⟨v, hline, -, hwithin⟩ := hlines a ha
      exact loads_ne_limit hline hwithin py .comprehension

/-- Two hosts that talk to each other until the first check. -/
theorem loadJson_alerts_linked :
    ∃ env eng s₀ s outs, setup env checkingConfig = some (eng, s₀) ∧
      Reaches env checkingConfig (linked ([(1, 2), (2, 1)] ++ List.replicate 8 (1, 2))) s outs ∧
      ∀ a ∈ outs.flatMap (·.alerts), ∃ v, WellFormedLine a v := by
  obtain ⟨env⟩ := (inferInstance : Nonempty Env)
  obtain ⟨eng, s₀, hsetup⟩ := exists_setup checkingConfig rfl rfl rfl rfl env
  obtain ⟨s, outs, hrun⟩ := exists_reaches_of_size hsetup ⟨10, rfl⟩
    (linked ([(1, 2), (2, 1)] ++ List.replicate 8 (1, 2)))
    fun _ => lt_of_le_of_lt (numVertices_graphOf_le _) (by decide)
  refine ⟨env, eng, s₀, s, outs, hsetup, hrun, fun a ha => ?_⟩
  obtain ⟨-, -, -, v, -, -, -, hline, -⟩ := (loadJson_alerts hsetup hrun).1 a ha
  exact ⟨_, hline⟩

end Engine
