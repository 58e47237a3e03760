/-
# Alerts of the aggregator on the wire

The subscriber reads an alert that the aggregator has written into the alert that was
written (`unmarshalIncoming_marshalAlert`), up to the spelling of its details.
-/
import ZtMapper.Aggregator.Wire
import ZtMapper.IncidentService.Occurrences

open Json Aggregator

namespace IncidentService

/-! ## `json.Unmarshal` into an `IncomingAlert` -/

/-- A field that the service decodes and does not read. -/
def ignoredField {α : Type} : α → List Char → Option α :=
  stringField (fun _ => "") fun a _ => a

def Correlation.zero : Correlation where
  firstSeenNs := 0
  lastSeenNs := 0
  occurrenceCount := 0
  nodesObserved := []
  crossNode := false

def correlationFields : Fields Correlation :=
  [("incident_key", ignoredField),
    ("first_seen_ns", int64Field (·.firstSeenNs) fun c x => { c with firstSeenNs := x }),
    ("last_seen_ns", int64Field (·.lastSeenNs) fun c x => { c with lastSeenNs := x }),
    ("occurrence_count", int64Field (·.occurrenceCount) fun c x => { c with occurrenceCount := x }),
    ("nodes_observed", stringsField fun c x => { c with nodesObserved := x }),
    ("cross_node", boolField (·.crossNode) fun c x => { c with crossNode := x }),
    ("original_severity", ignoredField)]

def IncomingAlert.zero : IncomingAlert where
  type := ""
  source := ""
  timestampNs := 0
  severity := ""
  nodeName := ""
  tags := []
  details := ""
  correlation := none

def incomingFields : Fields IncomingAlert :=
  [("type", stringField (·.type) fun a x => { a with type := x }),
    ("source", stringField (·.source) fun a x => { a with source := x }),
    ("timestamp_ns", int64Field (·.timestampNs) fun a x => { a with timestampNs := x }),
    ("severity", stringField (·.severity) fun a x => { a with severity := x }),
    ("status", ignoredField),
    ("node_name", stringField (·.nodeName) fun a x => { a with nodeName := x }),
    ("namespace", ignoredField),
    ("tags", stringsField fun a x => { a with tags := x }),
    ("details", rawField fun a x => { a with details := x }),
    ("correlation", recordField (·.correlation) (fun a x => { a with correlation := x })
      correlationFields .zero)]

/-- The message is read into a new `IncomingAlert`. -/
def unmarshalIncoming (body : List UInt8) : Option IncomingAlert :=
  (String.fromUTF8? body.toByteArray).bind fun s => unmarshal incomingFields .zero s.toList

/-! ## Reading what the aggregator writes -/

/-- The part of a correlation that is read. -/
def incomingCorrelation (c : CorrelationInfo) : Correlation where
  firstSeenNs := c.firstSeenNs
  lastSeenNs := c.lastSeenNs
  occurrenceCount := c.occurrenceCount
  nodesObserved := c.nodesObserved
  crossNode := c.crossNode

theorem unmarshal_correlationMembers (c : CorrelationInfo) :
    unmarshal correlationFields .zero
      (printObject ((correlationMembers c).map fun i => (i.1, i.2.1))) =
        some (incomingCorrelation c) := by
  have hquoted := denotes_quoted itemText_encodeChar
  rw [unmarshal_printObject (isMember_correlationMembers c), correlationMembers, List.foldlM_cons,
    Fields.set_string rfl (hquoted _), Option.bind_eq_bind, Option.bind_some, List.foldlM_cons,
    Fields.set_toInt rfl, Option.bind_eq_bind, Option.bind_some, List.foldlM_cons,
    Fields.set_toInt rfl, Option.bind_eq_bind, Option.bind_some, List.foldlM_cons,
    Fields.set_toInt rfl, Option.bind_eq_bind, Option.bind_some, List.foldlM_cons,
    Fields.set_strings rfl (denotes_quotedList itemText_encodeChar _), Option.bind_eq_bind,
    Option.bind_some, List.foldlM_cons, Fields.set_bool rfl (denotes_boolText _),
    Option.bind_eq_bind, Option.bind_some, List.foldlM_cons, Fields.set_string rfl (hquoted _)]
  rfl

/-- The fields that every alert of the aggregator sets. -/
def incomingHead (a : Alert) : IncomingAlert where
  type := a.type
  source := a.source
  timestampNs := a.timestampNs
  severity := a.severity
  nodeName := ""
  tags := []
  details := ""
  correlation := none

variable {a : Alert} {v : Value}

theorem foldlM_requiredMembers : (requiredMembers a).foldlM
    (fun b i => incomingFields.set b i.1 i.2.1) .zero = some (incomingHead a) := by
  have hquoted := denotes_quoted itemText_encodeChar
  rw [requiredMembers, List.foldlM_cons, Fields.set_string rfl (hquoted _), Option.bind_eq_bind,
    Option.bind_some, List.foldlM_cons, Fields.set_string rfl (hquoted _), Option.bind_eq_bind,
    Option.bind_some, List.foldlM_cons, Fields.set_toInt rfl, Option.bind_eq_bind,
    Option.bind_some, List.foldlM_cons, Fields.set_string rfl (hquoted _), Option.bind_eq_bind,
    Option.bind_some, List.foldlM_cons, Fields.set_string rfl (hquoted _)]
  rfl

/-- The details as they are written. -/
def compactDetails (d : String) : String := String.ofList (compact d.toList)

/-- The members set their fields one after the other. -/
theorem foldlM_alertMembers : (alertMembers a v).foldlM
      (fun b i => incomingFields.set b i.1 i.2.1) .zero =
    some { incoming a with details := compactDetails a.details } := by
  have hquoted := denotes_quoted itemText_encodeChar
  have hincident : ∀ b : IncomingAlert,
      (unlessEmpty "incident_id" (quoted encodeChar) a.incidentId).foldlM
        (fun b i => incomingFields.set b i.1 i.2.1) b = some b := by
    have hunknown : incomingFields.named "incident_id" = none := rfl
    intro b
    rw [unlessEmpty]
    split_ifs
    · rfl
    · rw [List.foldlM_cons, Fields.set_unknown hunknown]
      rfl
  have hnode : ∀ b : IncomingAlert, b.nodeName = "" →
      (unlessEmpty "node_name" (quoted encodeChar) a.nodeName).foldlM
        (fun b i => incomingFields.set b i.1 i.2.1) b = some { b with nodeName := a.nodeName } :=
    fun b hb => by rw [Fields.set_unlessEmpty rfl (hquoted _) hb rfl]
  have hnamespace : ∀ b : IncomingAlert,
      (unlessEmpty "namespace" (quoted encodeChar) a.namespace_).foldlM
        (fun b i => incomingFields.set b i.1 i.2.1) b = some b :=
    fun b => by rw [Fields.set_unlessEmpty rfl (hquoted _) rfl rfl]
  have htags : ∀ b : IncomingAlert, b.tags = [] →
      (unlessNil "tags" (quotedList encodeChar) a.tags).foldlM
        (fun b i => incomingFields.set b i.1 i.2.1) b = some { b with tags := a.tags } := by
    intro b hb
    rw [Fields.set_unlessNil rfl (denotes_quotedList itemText_encodeChar _) (by rw [← hb])]
  have hdetails : ∀ b : IncomingAlert, b.details = "" →
      (unlessBlank "details" compact a.details v).foldlM
        (fun b i => incomingFields.set b i.1 i.2.1) b =
          some { b with details := compactDetails a.details } := by
    intro b hb
    rw [Fields.set_unlessBlank rfl hb rfl rfl]
    rfl
  have hcorrelation : ∀ b : IncomingAlert, b.correlation = none →
      (a.correlation.toList.map correlationMember).foldlM
        (fun b i => incomingFields.set b i.1 i.2.1) b =
          some { b with correlation := a.correlation.map incomingCorrelation } := by
    intro b hb
    cases a.correlation with
    | none =>
      rw [Option.map_none, ← hb]
      rfl
    | some c =>
      rw [Option.toList_some, List.map_singleton, List.foldlM_cons,
        Fields.set_record rfl hb (isMember_correlationMember c).denotes
          (unmarshal_correlationMembers c)]
      rfl
  rw [alertMembers, List.foldlM_append, List.foldlM_append, List.foldlM_append, List.foldlM_append,
    List.foldlM_append, List.foldlM_append, foldlM_requiredMembers, Option.bind_eq_bind,
    Option.bind_some, hincident, Option.bind_some, hnode _ rfl, Option.bind_some, hnamespace,
    Option.bind_some, htags _ rfl, Option.bind_some, hdetails _ rfl, Option.bind_some,
    hcorrelation _ rfl]
  rfl

/-- **An alert of the aggregator** is written exactly when its details are empty or a JSON text,
and the subscriber reads the same alert, its details spelled in the compact way. -/
theorem unmarshalIncoming_marshalAlert (a : Alert) :
    (marshalAlert a).bind unmarshalIncoming =
        (if a.details = "" ∨ (decode a.details.toList).isSome
          then some { incoming a with details := compactDetails a.details } else none) ∧
      (a.details ≠ "" → ∀ v, decode a.details.toList = some v →
        decode (compactDetails a.details).toList = some v) := by
  constructor
  · by_cases hgood : a.details = "" ∨ (decode a.details.toList).isSome
    · have hv : a.details ≠ "" → IsText a.details.toList ((decode a.details.toList).getD .null) := by
        intro hne
        obtain ⟨v, hv⟩ := Option.isSome_iff_exists.mp (hgood.resolve_left hne)
        rw [hv]
        exact decode_eq_some_iff.mp hv
      rw [if_pos hgood, marshalAlert_eq_some hv, Option.bind_some, unmarshalIncoming,
        fromUTF8?_utf8, Option.bind_some, String.toList_ofList,
        unmarshal_printObject (isMember_alertMembers hv), foldlM_alertMembers]
    · rw [not_or, Option.not_isSome_iff_eq_none] at hgood
      have hbad : a.details ≠ "" ∧ (decode a.details.toList).isNone := by
        rw [hgood.2]
        exact ⟨hgood.1, rfl⟩
      rw [marshalAlert, if_pos hbad, if_neg (by simp [hgood])]
      rfl
  · intro _ v hv
    rw [compactDetails, String.toList_ofList]
    exact decode_of_denotes (decode_eq_some_iff.mp hv).compact

end IncidentService
