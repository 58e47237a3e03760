/-
# Alerts on the wire

The aggregator reads what the pipeline writes and writes what the incident service reads.
An alert of the pipeline is read field by field when its time fits into 63 bits
(`unmarshalAlert_line`), and an alert that is written is the object of its fields
(`marshalAlert_eq_some`).
-/
import ZtMapper.Aggregator.Correlator
import ZtMapper.Lib.JsonCompact
import ZtMapper.Lib.JsonMembers
import ZtMapper.Viz.LoadJson

open Json

namespace Aggregator

/-! ## `json.Unmarshal` into an `Alert` -/

def CorrelationInfo.zero : CorrelationInfo where
  incidentKey := ""
  firstSeenNs := 0
  lastSeenNs := 0
  occurrenceCount := 0
  nodesObserved := []
  crossNode := false
  originalSeverity := ""

def correlationFields : Fields CorrelationInfo :=
  [("incident_key", stringField (·.incidentKey) fun c x => { c with incidentKey := x }),
    ("first_seen_ns", int64Field (·.firstSeenNs) fun c x => { c with firstSeenNs := x }),
    ("last_seen_ns", int64Field (·.lastSeenNs) fun c x => { c with lastSeenNs := x }),
    ("occurrence_count", int64Field (·.occurrenceCount) fun c x => { c with occurrenceCount := x }),
    ("nodes_observed", stringsField fun c x => { c with nodesObserved := x }),
    ("cross_node", boolField (·.crossNode) fun c x => { c with crossNode := x }),
    ("original_severity", stringField (·.originalSeverity) fun c x => { c with originalSeverity := x })]

def Alert.zero : Alert where
  type := ""
  source := ""
  timestampNs := 0
  severity := ""
  nodeName := ""

def alertFields : Fields Alert :=
  [("type", stringField (·.type) fun a x => { a with type := x }),
    ("source", stringField (·.source) fun a x => { a with source := x }),
    ("timestamp_ns", int64Field (·.timestampNs) fun a x => { a with timestampNs := x }),
    ("severity", stringField (·.severity) fun a x => { a with severity := x }),
    ("status", stringField (·.status) fun a x => { a with status := x }),
    ("incident_id", stringField (·.incidentId) fun a x => { a with incidentId := x }),
    ("node_name", stringField (·.nodeName) fun a x => { a with nodeName := x }),
    ("namespace", stringField (·.namespace_) fun a x => { a with namespace_ := x }),
    ("tags", stringsField fun a x => { a with tags := x }),
    ("details", rawField fun a x => { a with details := x }),
    ("correlation", recordField (·.correlation) (fun a x => { a with correlation := x })
      correlationFields .zero)]

/-- The message is read into a new `Alert`. -/
def unmarshalAlert (body : List UInt8) : Option Alert :=
  (String.fromUTF8? body.toByteArray).bind fun s => unmarshal alertFields .zero s.toList

/-! ## `json.Marshal` of an `Alert` -/

def correlationMembers (c : CorrelationInfo) : List (String × List Char × Value) :=
  [("incident_key", quoted encodeChar c.incidentKey, .str c.incidentKey),
    ("first_seen_ns", intText c.firstSeenNs.toInt, .num c.firstSeenNs.toInt 0),
    ("last_seen_ns", intText c.lastSeenNs.toInt, .num c.lastSeenNs.toInt 0),
    ("occurrence_count", intText c.occurrenceCount.toInt, .num c.occurrenceCount.toInt 0),
    ("nodes_observed", quotedList encodeChar c.nodesObserved, .arr (c.nodesObserved.map .str)),
    ("cross_node", boolText c.crossNode, .bool c.crossNode),
    ("original_severity", quoted encodeChar c.originalSeverity, .str c.originalSeverity)]

def correlationMember (c : CorrelationInfo) : String × List Char × Value :=
  ("correlation", printObject ((correlationMembers c).map fun i => (i.1, i.2.1)),
    .obj ((correlationMembers c).map fun i => (i.1, i.2.2)))

/-- The members that are never left out. -/
def requiredMembers (a : Alert) : List (String × List Char × Value) :=
  [("type", quoted encodeChar a.type, .str a.type),
    ("source", quoted encodeChar a.source, .str a.source),
    ("timestamp_ns", intText a.timestampNs.toInt, .num a.timestampNs.toInt 0),
    ("severity", quoted encodeChar a.severity, .str a.severity),
    ("status", quoted encodeChar a.status, .str a.status)]

/-- The members of an alert, `v` the value of its details. -/
def alertMembers (a : Alert) (v : Value) : List (String × List Char × Value) :=
  requiredMembers a ++ unlessEmpty "incident_id" (quoted encodeChar) a.incidentId ++
    unlessEmpty "node_name" (quoted encodeChar) a.nodeName ++
    unlessEmpty "namespace" (quoted encodeChar) a.namespace_ ++
    unlessNil "tags" (quotedList encodeChar) a.tags ++
    unlessBlank "details" compact a.details v ++ a.correlation.toList.map correlationMember

/-- Details that are no JSON text are an error.  The texts do not depend on the value. -/
def marshalAlert (a : Alert) : Option (List UInt8) :=
  if a.details ≠ "" ∧ (decode a.details.toList).isNone then none
  else some (utf8 (printObject ((alertMembers a .null).map fun i => (i.1, i.2.1))))

/-! ## What the pipeline writes -/

/-- The members that every line has in front. -/
def headMembers (a : Soc.Alert) : List (String × List Char × Value) :=
  [("type", Soc.quote a.type, .str a.type), ("source", Soc.quote a.source, .str a.source),
    ("timestamp_ns", intText a.timestampNs.toNat, .num a.timestampNs.toNat 0),
    ("severity", Soc.quote a.severity.toString, .str a.severity.toString),
    ("status", Soc.quote a.status.toString, .str a.status.toString)]

/-- The members of a line of the pipeline, `t` the text of the details. -/
def lineMembers (a : Soc.Alert) (t : List Char) (v : Value) : List (String × List Char × Value) :=
  headMembers a ++ unlessEmpty "incident_id" Soc.quote a.incidentId ++
    unlessEmpty "node_name" Soc.quote a.nodeName ++
    unlessEmpty "namespace" Soc.quote a.namespace_ ++ unlessNil "tags" Soc.tagsText a.tags ++
    [("details", t, v)]

/-- The text of the details as it is written. -/
def detailsText (d : String) : String := if d = "" then "\x7b\x7d" else d

theorem text_eq_printObject (a : Soc.Alert) (v : Value) : Viz.text a =
    printObject ((lineMembers a (detailsText a.details).toList v).map fun i => (i.1, i.2.1)) := by
  have hitems : (Soc.items a (detailsText a.details).toList .null).map (·.1) =
      ((lineMembers a (detailsText a.details).toList v).map fun i => (i.1, i.2.1)).map
        memberText := by
    unfold Soc.items lineMembers headMembers unlessEmpty unlessNil Soc.optionalItem Soc.tagsItem Soc.item
    simp only [List.map_append, List.map_cons, List.map_nil, apply_ite (List.map _), memberText,
      List.append_assoc, List.cons_append, List.nil_append]
    rfl
  rw [printObject, ← hitems]
  rfl

/-- The fields that every line sets. -/
def receivedHead (a : Soc.Alert) : Alert where
  type := a.type
  source := a.source
  timestampNs := Int64.ofInt a.timestampNs.toNat
  severity := a.severity.toString
  status := a.status.toString
  nodeName := ""

/-- What the aggregator makes of an alert of the pipeline. -/
def received (a : Soc.Alert) : Alert :=
  { receivedHead a with
    incidentId := a.incidentId, nodeName := a.nodeName, namespace_ := a.namespace_,
    tags := a.tags, details := detailsText a.details }

/-- The time fits into an `int64`. -/
def TimeFits (a : Soc.Alert) : Prop := a.timestampNs.toNat < 2 ^ 63

instance (a : Soc.Alert) : Decidable (TimeFits a) := Nat.decLt _ _

variable {a : Soc.Alert} {t : List Char} {v : Value}

theorem isMember_lineMembers (ht : Denotes .value t v) :
    ∀ i ∈ lineMembers a t v, IsMember i.1 i.2.1 i.2.2 := by
  have hquote : ∀ s, Denotes .value (Soc.quote s) (.str s) := Soc.denotes_quote
  simp only [lineMembers, headMembers, List.forall_mem_append, List.forall_mem_cons, and_assoc]
  exact ⟨⟨rfl, hquote _⟩, ⟨rfl, hquote _⟩, ⟨rfl, denotes_intText _⟩, ⟨rfl, hquote _⟩,
    ⟨rfl, hquote _⟩, List.forall_mem_nil _, isMember_unlessEmpty ⟨rfl, hquote _⟩,
    isMember_unlessEmpty ⟨rfl, hquote _⟩, isMember_unlessEmpty ⟨rfl, hquote _⟩,
    isMember_unlessNil ⟨rfl, Soc.denotes_tagsText _⟩, ⟨rfl, ht⟩, List.forall_mem_nil _⟩

/-- The members that every line has set the first five fields. -/
theorem foldlM_headMembers : (headMembers a).foldlM (fun b i => alertFields.set b i.1 i.2.1) .zero =
    if TimeFits a then some (receivedHead a) else none := by
  have hquote : ∀ s, Denotes .value (Soc.quote s) (.str s) := Soc.denotes_quote
  have htime : (Int64.minValue.toInt ≤ (a.timestampNs.toNat : ℤ) ∧
      (a.timestampNs.toNat : ℤ) ≤ Int64.maxValue.toInt) ↔ TimeFits a := by
    have hmin : Int64.minValue.toInt = -2 ^ 63 := rfl
    have hmax : Int64.maxValue.toInt = 2 ^ 63 - 1 := rfl
    rw [TimeFits, hmin, hmax]
    omega
  rw [headMembers, List.foldlM_cons, Fields.set_string rfl (hquote _), Option.bind_eq_bind,
    Option.bind_some, List.foldlM_cons, Fields.set_string rfl (hquote _), Option.bind_eq_bind,
    Option.bind_some, List.foldlM_cons, Fields.set_int64 rfl, if_congr htime rfl rfl]
  split_ifs
  · rw [Option.bind_eq_bind, Option.bind_some, List.foldlM_cons, Fields.set_string rfl (hquote _),
      Option.bind_eq_bind, Option.bind_some, List.foldlM_cons, Fields.set_string rfl (hquote _)]
    rfl
  · rfl

/-- The members set their fields one after the other. -/
theorem foldlM_lineMembers : (lineMembers a t v).foldlM
      (fun b i => alertFields.set b i.1 i.2.1) .zero =
    if TimeFits a then some { received a with details := String.ofList t } else none := by
  have hquote : ∀ s, Denotes .value (Soc.quote s) (.str s) := Soc.denotes_quote
  have hincident : ∀ b : Alert, b.incidentId = "" →
      (unlessEmpty "incident_id" Soc.quote a.incidentId).foldlM
        (fun b i => alertFields.set b i.1 i.2.1) b = some { b with incidentId := a.incidentId } :=
    fun b hb => by rw [Fields.set_unlessEmpty rfl (hquote _) hb rfl]
  have hnode : ∀ b : Alert, b.nodeName = "" →
      (unlessEmpty "node_name" Soc.quote a.nodeName).foldlM
        (fun b i => alertFields.set b i.1 i.2.1) b = some { b with nodeName := a.nodeName } :=
    fun b hb => by rw [Fields.set_unlessEmpty rfl (hquote _) hb rfl]
  have hnamespace : ∀ b : Alert, b.namespace_ = "" →
      (unlessEmpty "namespace" Soc.quote a.namespace_).foldlM
        (fun b i => alertFields.set b i.1 i.2.1) b = some { b with namespace_ := a.namespace_ } :=
    fun b hb => by rw [Fields.set_unlessEmpty rfl (hquote _) hb rfl]
  have htags : ∀ b : Alert, b.tags = [] →
      (unlessNil "tags" Soc.tagsText a.tags).foldlM
        (fun b i => alertFields.set b i.1 i.2.1) b = some { b with tags := a.tags } := by
    intro b hb
    rw [Fields.set_unlessNil rfl (Soc.denotes_tagsText _) (by rw [← hb])]
  rw [lineMembers, List.foldlM_append, List.foldlM_append, List.foldlM_append, List.foldlM_append,
    List.foldlM_append, foldlM_headMembers]
  split_ifs
  · rw [Option.bind_eq_bind, Option.bind_some, hincident _ rfl, Option.bind_some, hnode _ rfl,
      Option.bind_some, hnamespace _ rfl, Option.bind_some, htags _ rfl, Option.bind_some,
      List.foldlM_cons, Fields.set_raw rfl]
    rfl
  · rfl

/-- **A line of the pipeline** is read field by field, and it is rejected exactly when its time
has 64 bits. -/
theorem unmarshalAlert_line {v : Value}
    (hdetails : Denotes .value (detailsText a.details).toList v) :
    unmarshalAlert (Soc.toJson a) = if TimeFits a then some (received a) else none := by
  rw [unmarshalAlert, Viz.toJson_eq_text, fromUTF8?_utf8, Option.bind_some, String.toList_ofList,
    text_eq_printObject a v, unmarshal_printObject (isMember_lineMembers hdetails),
    foldlM_lineMembers, String.ofList_toList]
  rfl

/-! ## What the aggregator writes -/

theorem isMember_correlationMembers (c : CorrelationInfo) :
    ∀ i ∈ correlationMembers c, IsMember i.1 i.2.1 i.2.2 := by
  have hquoted := denotes_quoted itemText_encodeChar
  simp only [correlationMembers, List.forall_mem_cons]
  exact ⟨⟨rfl, hquoted _⟩, ⟨rfl, denotes_intText _⟩, ⟨rfl, denotes_intText _⟩,
    ⟨rfl, denotes_intText _⟩, ⟨rfl, denotes_quotedList itemText_encodeChar _⟩,
    ⟨rfl, denotes_boolText _⟩, ⟨rfl, hquoted _⟩, List.forall_mem_nil _⟩

theorem isMember_correlationMember (c : CorrelationInfo) :
    IsMember (correlationMember c).1 (correlationMember c).2.1 (correlationMember c).2.2 := by
  unfold correlationMember
  dsimp only
  exact ⟨rfl, denotes_printObject (isMember_correlationMembers c)⟩

/-- The details that the aggregator can write are empty or a text of the value `v`. -/
theorem isMember_alertMembers {b : Alert} (hv : b.details ≠ "" → IsText b.details.toList v) :
    ∀ i ∈ alertMembers b v, IsMember i.1 i.2.1 i.2.2 := by
  have hquoted := denotes_quoted itemText_encodeChar
  simp only [alertMembers, requiredMembers, List.forall_mem_append, List.forall_mem_cons,
    and_assoc]
  exact ⟨⟨rfl, hquoted _⟩, ⟨rfl, hquoted _⟩, ⟨rfl, denotes_intText _⟩, ⟨rfl, hquoted _⟩,
    ⟨rfl, hquoted _⟩, List.forall_mem_nil _, isMember_unlessEmpty ⟨rfl, hquoted _⟩,
    isMember_unlessEmpty ⟨rfl, hquoted _⟩, isMember_unlessEmpty ⟨rfl, hquoted _⟩,
    isMember_unlessNil ⟨rfl, denotes_quotedList itemText_encodeChar _⟩,
    isMember_unlessBlank fun hne => ⟨rfl, (hv hne).compact⟩,
    List.forall_mem_map.mpr fun c _ => isMember_correlationMember c⟩

/-- An alert is written unless its details are no JSON text, whatever the value of these. -/
theorem marshalAlert_eq_some {b : Alert} (hv : b.details ≠ "" → IsText b.details.toList v) :
    marshalAlert b = some (utf8 (printObject ((alertMembers b v).map fun i => (i.1, i.2.1)))) := by
  have htexts : (alertMembers b .null).map (fun i => (i.1, i.2.1)) =
      (alertMembers b v).map fun i => (i.1, i.2.1) := by
    unfold alertMembers unlessBlank
    split_ifs
    · rfl
    · simp only [List.map_append, List.map_cons]
  have hgood : ¬ (b.details ≠ "" ∧ (decode b.details.toList).isNone) := by
    rintro ⟨hne, hnone⟩
    rw [decode_eq_some_iff.mpr (hv hne)] at hnone
    exact Bool.false_ne_true hnone
  rw [marshalAlert, if_neg hgood, htexts]

end Aggregator
