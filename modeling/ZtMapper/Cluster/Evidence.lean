/-
# Evidence

What the incident service is told goes back to alerts that pipelines have sent.  An alert that
the correlator emits is one that it has been given, with a higher severity and a tag only when
two nodes have reported its key; and it names no node that has not reported the key.
-/
import ZtMapper.IncidentService.Wire

open Aggregator IncidentService Json

namespace Cluster

/-! ## The correlator -/

/-- The nodes of an incident have been named by alerts of its key. -/
def NodesFrom (given : Alert → Prop) (c : Correlator) : Prop :=
  ∀ key st, c.incidents.lookup key = some st →
    ∀ n ∈ st.nodes, ∃ b, given b ∧ b.key = key ∧ b.nodeName = n

/-- The emitted alert `out` is `a` with what the correlator knows of its key. -/
structure Enriches (given : Alert → Prop) (a out : Alert) : Prop where
  type : out.type = a.type
  source : out.source = a.source
  nodeName : out.nodeName = a.nodeName
  timestampNs : out.timestampNs = a.timestampNs
  details : out.details = a.details
  severity : out.severity = a.severity ∨
    (out.severity = upgradeSeverity a.severity ∧ ∃ info ∈ out.correlation, info.crossNode = true)
  tags : ∀ t ∈ out.tags, t ∈ a.tags ∨ t = "cross_node_attacker"
  nodes : ∀ info ∈ out.correlation, ∀ n ∈ info.nodesObserved,
    ∃ b, given b ∧ b.key = a.key ∧ b.nodeName = n
  cross : ∀ info ∈ out.correlation, info.crossNode = true →
    ∃ b b', given b ∧ given b' ∧ b.key = a.key ∧ b'.key = a.key ∧ b.nodeName ≠ b'.nodeName

variable {given : Alert → Prop} {c : Correlator} {a out : Alert} {clock now : Int64}
  {st : IncidentState}

/-- A new correlator has no nodes. -/
theorem nodesFrom_empty (given : Alert → Prop) (window : Int64) (h : 0 < window) :
    NodesFrom given (newCorrelator window h) := by
  intro key st hst
  cases hst

/-- More alerts given account for the nodes too. -/
theorem NodesFrom.mono {given' : Alert → Prop} (h : NodesFrom given c)
    (hgiven : ∀ b, given b → given' b) : NodesFrom given' c := by
  intro key st hst n hn
  obtain ⟨b, hb, hkey, hname⟩ := h key st hst n hn
  exact ⟨b, hgiven b hb, hkey, hname⟩

/-- An eviction adds no nodes. -/
theorem NodesFrom.evictExpired (h : NodesFrom given c) : NodesFrom given (c.evictExpired clock) := by
  intro key st hst
  rw [Correlator.lookup_evictExpired] at hst
  obtain ⟨st', hst', hkept⟩ := Option.bind_eq_some_iff.mp hst
  split_ifs at hkept
  obtain rfl := Option.some.inj hkept
  exact h key st' hst'

/-- A recorded node is the new one or an old one. -/
theorem mem_recordNode {nodes : Finset String} {name n : String} (h : n ∈ recordNode nodes name) :
    n = name ∨ n ∈ nodes := by
  unfold recordNode at h
  split_ifs at h
  · exact Or.inr h
  · exact Finset.mem_insert.mp h

/-- The nodes of an incident that has got one more alert. -/
theorem nodes_recordNode {nodes : Finset String} (ha : given a)
    (h : ∀ n ∈ nodes, ∃ b, given b ∧ b.key = a.key ∧ b.nodeName = n) :
    ∀ n ∈ recordNode nodes a.nodeName, ∃ b, given b ∧ b.key = a.key ∧ b.nodeName = n := by
  intro n hn
  rcases mem_recordNode hn with rfl | hn
  · exact ⟨a, ha, rfl, rfl⟩
  · exact h n hn

/-- An entry stored with accounted nodes. -/
theorem NodesFrom.put (h : NodesFrom given c) {key : String}
    (hst : ∀ n ∈ st.nodes, ∃ b, given b ∧ b.key = key ∧ b.nodeName = n) :
    NodesFrom given (c.put key st) := by
  intro k st' hst'
  rw [Correlator.lookup_put] at hst'
  split_ifs at hst' with hk
  · obtain rfl := Option.some.inj hst'
    rw [hk]
    exact hst
  · exact h k st' hst'

/-- The nodes that an alert is absorbed into. -/
theorem NodesFrom.absorbed (h : NodesFrom given c) (ha : given a) (hlive : c.Live a clock st)
    (now : Int64) : ∀ n ∈ (absorbed st a now).nodes, ∃ b, given b ∧ b.key = a.key ∧ b.nodeName = n :=
  nodes_recordNode ha (h a.key st hlive.1)

/-- The nodes of a new incident come from its alert. -/
theorem nodes_started (ha : given a) (now : Int64) :
    ∀ n ∈ (started a now).nodes, ∃ b, given b ∧ b.key = a.key ∧ b.nodeName = n :=
  nodes_recordNode ha fun n hn => absurd hn (Finset.notMem_empty n)

/-- **Every node recorded comes from an alert given** with its key. -/
theorem NodesFrom.process (h : NodesFrom given c) (ha : given a) :
    NodesFrom given (c.process a clock).1 := by
  by_cases hmal : a.Malformed
  · rwa [Correlator.process_malformed hmal]
  rcases c.process_cases clock hmal with ⟨-, heq⟩ | ⟨st, hlive, heq⟩
  · rw [heq]
    exact h.put (nodes_started ha _)
  · rw [heq]
    exact h.put (h.absorbed ha hlive _)

/-- Two nodes of an incident have been named by two alerts. -/
theorem exists_two (h : ∀ n ∈ st.nodes, ∃ b, given b ∧ b.key = a.key ∧ b.nodeName = n)
    (hcard : 2 ≤ st.nodes.card) : ∃ b b', given b ∧ given b' ∧ b.key = a.key ∧ b'.key = a.key ∧
      b.nodeName ≠ b'.nodeName := by
  obtain ⟨n, hn, n', hn', hne⟩ := Finset.one_lt_card.mp hcard
  obtain ⟨b, hb, hkey, hname⟩ := h n hn
  obtain ⟨b', hb', hkey', hname'⟩ := h n' hn'
  exact ⟨b, b', hb, hb', hkey, hkey', by rw [hname, hname']; exact hne⟩

/-- **What the correlator emits** is what it has been given, with what it knows. -/
theorem enriches_process (h : NodesFrom given c) (ha : given a) (hnone : a.correlation = none)
    (hout : (c.process a clock).2.out = some out) : Enriches given a out := by
  by_cases hmal : a.Malformed
  · rw [Correlator.process_malformed hmal] at hout
    obtain rfl := Option.some.inj hout
    refine ⟨rfl, rfl, rfl, rfl, rfl, Or.inl rfl, fun t ht => Or.inl ht, ?_, ?_⟩ <;>
    · rw [hnone]
      exact fun _ hinfo => (nomatch hinfo)
  rcases c.process_cases clock hmal with ⟨-, heq⟩ | ⟨st, hlive, heq⟩ <;> rw [heq] at hout
  · have hnodes := nodes_started ha (a.time clock)
    obtain rfl := Option.some.inj hout
    refine ⟨rfl, rfl, rfl, rfl, rfl, Or.inl rfl, fun t ht => Or.inl ht, ?_, ?_⟩
    · intro info hinfo n hn
      obtain rfl := Option.some.inj hinfo
      exact hnodes n ((Finset.mem_sort _).mp hn)
    · intro info hinfo hcross
      obtain rfl := Option.some.inj hinfo
      exact exists_two hnodes (of_decide_eq_true hcross)
  · have hnodes := h.absorbed ha hlive (a.time clock)
    unfold Correlator.update at hout
    dsimp only at hout
    split_ifs at hout with hcross
    obtain rfl := Option.some.inj hout
    refine ⟨rfl, rfl, rfl, rfl, rfl, Or.inr ⟨rfl, _, rfl, rfl⟩, fun t ht => ?_, ?_, ?_⟩
    · unfold appendUnique at ht
      split_ifs at ht
      · exact Or.inl ht
      · exact (List.mem_append.mp ht).imp_right List.mem_singleton.mp
    · intro info hinfo n hn
      obtain rfl := Option.some.inj hinfo
      exact hnodes n ((Finset.mem_sort _).mp hn)
    · intro _ _ _
      exact exists_two hnodes hcross.2

/-! ## The incident service -/

def key (a : Soc.Alert) : String := incidentKey a.type a.source

/-- What the aggregator reads of the alerts that have been sent. -/
def Read (sent : Soc.Alert → Prop) (b : Alert) : Prop := ∃ a, sent a ∧ b = received a

/-- The alert `x` of the incident service goes back to the sent alert `a`. -/
structure Evidence (sent : Soc.Alert → Prop) (a : Soc.Alert) (x : IncomingAlert) : Prop where
  origin : sent a
  type : x.type = a.type
  source : x.source = a.source
  nodeName : x.nodeName = a.nodeName
  severity : x.severity = a.severity.toString ∨
    (x.severity = upgradeSeverity a.severity.toString ∧ x.cross = true)
  tags : ∀ t ∈ x.tags, t ∈ a.tags ∨ t = "cross_node_attacker"
  nodes : ∀ n ∈ x.nodes, ∃ b, sent b ∧ key b = x.key ∧ b.nodeName = n
  cross : x.cross = true → ∃ b b', sent b ∧ sent b' ∧ key b = x.key ∧ key b' = x.key ∧
    b.nodeName ≠ b'.nodeName

variable {sent : Soc.Alert → Prop} {b : Soc.Alert} {x : IncomingAlert} {body : List UInt8}

/-- Evidence stays evidence as more is sent. -/
theorem Evidence.mono {sent' : Soc.Alert → Prop} (h : Evidence sent b x)
    (hsent : ∀ a, sent a → sent' a) : Evidence sent' b x := by
  refine ⟨hsent b h.origin, h.type, h.source, h.nodeName, h.severity, h.tags, fun n hn => ?_,
    fun hcross => ?_⟩
  · obtain ⟨a, ha, hkey, hname⟩ := h.nodes n hn
    exact ⟨a, hsent a ha, hkey, hname⟩
  · obtain ⟨a, a', ha, ha', hkey⟩ := h.cross hcross
    exact ⟨a, a', hsent a ha, hsent a' ha', hkey⟩

/-- The service reads the alert that was written, with its details spelled anew. -/
theorem eq_of_unmarshalIncoming (hbody : marshalAlert out = some body)
    (hx : unmarshalIncoming body = some x) :
    x = { incoming out with details := compactDetails out.details } := by
  have hread := (unmarshalIncoming_marshalAlert out).1
  rw [hbody, Option.bind_some, hx] at hread
  split_ifs at hread
  exact Option.some.inj hread

/-- An alert that the service reads goes back to a sent one. -/
theorem evidence_of_enriches (hb : sent b) (h : Enriches (Read sent) (received b) out)
    (hbody : marshalAlert out = some body) (hx : unmarshalIncoming body = some x) :
    Evidence sent b x := by
  obtain rfl := eq_of_unmarshalIncoming hbody hx
  have hkey : ∀ {a}, (received a).key = (received b).key → key a = incidentKey out.type out.source := by
    intro a ha
    rw [h.type, h.source]
    exact ha
  refine ⟨hb, h.type, h.source, h.nodeName, ?_, h.tags, fun n hn => ?_, fun hcross => ?_⟩
  · rcases h.severity with hsame | ⟨hup, info, hinfo, hcross⟩
    · exact Or.inl hsame
    · refine Or.inr ⟨hup, ?_⟩
      have hsome : out.correlation = some info := hinfo
      unfold IncomingAlert.cross incoming
      rw [hsome]
      exact hcross
  · have hown : n ∈ (if out.nodeName = "" then [] else [out.nodeName]) →
        ∃ a, sent a ∧ key a = incidentKey out.type out.source ∧ a.nodeName = n := by
      intro hn
      split_ifs at hn
      · exact absurd hn List.not_mem_nil
      · refine ⟨b, hb, hkey rfl, ?_⟩
        rw [List.mem_singleton.mp hn, h.nodeName]
        rfl
    unfold IncomingAlert.nodes incoming at hn
    dsimp only at hn
    cases hinfo : out.correlation with
    | none =>
      rw [hinfo] at hn
      exact hown hn
    | some info =>
      rw [hinfo] at hn
      dsimp only [Option.map_some] at hn
      by_cases hempty : info.nodesObserved = []
      · rw [if_pos hempty] at hn
        exact hown hn
      · rw [if_neg hempty] at hn
        obtain ⟨_, ⟨a, ha, rfl⟩, hakey, hname⟩ := h.nodes info hinfo n hn
        exact ⟨a, ha, hkey hakey, hname⟩
  · unfold IncomingAlert.cross incoming at hcross
    dsimp only at hcross
    cases hinfo : out.correlation with
    | none =>
      rw [hinfo] at hcross
      exact absurd hcross Bool.false_ne_true
    | some info =>
      rw [hinfo] at hcross
      obtain ⟨_, _, ⟨a, ha, rfl⟩, ⟨a', ha', rfl⟩, hakey, hakey', hne⟩ := h.cross info hinfo hcross
      exact ⟨a, a', ha, ha', hkey hakey, hkey hakey', hne⟩

/-- What is emitted copies these fields of the alert. -/
theorem details_of_out {c : Correlator} {a out : Alert} {clock : Int64}
    (hout : (c.process a clock).2.out = some out) :
    out.details = a.details ∧ out.nodeName = a.nodeName ∧ out.timestampNs = a.timestampNs := by
  by_cases hmal : a.Malformed
  · rw [Correlator.process_malformed hmal] at hout
    obtain rfl := Option.some.inj hout
    exact ⟨rfl, rfl, rfl⟩
  rcases c.process_cases clock hmal with ⟨-, heq⟩ | ⟨st, -, heq⟩ <;> rw [heq] at hout
  · obtain rfl := Option.some.inj hout
    exact ⟨rfl, rfl, rfl⟩
  · unfold Correlator.update at hout
    dsimp only at hout
    split_ifs at hout
    obtain rfl := Option.some.inj hout
    exact ⟨rfl, rfl, rfl⟩

/-- A time that fits is kept. -/
theorem toInt_ofInt_of_timeFits {a : Soc.Alert} (h : TimeFits a) :
    (Int64.ofInt a.timestampNs.toNat).toInt = a.timestampNs.toNat := by
  unfold TimeFits at h
  refine Int64.toInt_ofInt_of_le ?_ ?_ <;> omega

/-- **An alert on its way.**  The line of an alert of the pipeline whose time has 63 bits is read
by the aggregator, and when the correlator emits it in any state, the message is read by the
incident service with the type, the source, the node and the time of the pipeline's alert, and
with details that denote the same value. -/
theorem pipeline_alert_delivered (a : Soc.Alert) {v : Value}
    (hdetails : Denotes .value (detailsText a.details).toList v) (hfits : TimeFits a)
    (c : Correlator) (clock : Int64) :
    ∃ b, unmarshalAlert (Soc.toJson a) = some b ∧
      ∀ out, (c.process b clock).2.out = some out →
        ∃ body x, marshalAlert out = some body ∧ unmarshalIncoming body = some x ∧
          x.type = a.type ∧ x.source = a.source ∧ x.nodeName = a.nodeName ∧
          x.timestampNs.toInt = a.timestampNs.toNat ∧ x.severity = out.severity ∧
          x.tags = out.tags ∧ decode x.details.toList = some v := by
  refine ⟨received a, by rw [unmarshalAlert_line hdetails, if_pos hfits], fun out hout => ?_⟩
  obtain ⟨htype, hsource⟩ := Correlator.pair_of_out hout
  obtain ⟨hsame, hnode, htime⟩ := details_of_out hout
  have htext : IsText out.details.toList v := by
    rw [hsame]
    exact hdetails.isText
  have hbody := marshalAlert_eq_some (b := out) fun _ => htext
  obtain ⟨hread, hvalue⟩ := unmarshalIncoming_marshalAlert out
  have hgood : out.details = "" ∨ (decode out.details.toList).isSome := by
    rw [decode_eq_some_iff.mpr htext]
    exact Or.inr rfl
  rw [if_pos hgood, hbody, Option.bind_some] at hread
  refine ⟨_, _, hbody, hread, htype, hsource, hnode, ?_, rfl, rfl, ?_⟩
  · exact (congrArg Int64.toInt htime).trans (toInt_ofInt_of_timeFits hfits)
  · refine hvalue (fun hempty => ?_) v (decode_eq_some_iff.mpr htext)
    -- the empty text denotes nothing
    rw [hempty] at htext
    have hnil : decode "".toList = none := rfl
    rw [decode_eq_some_iff.mpr htext] at hnil
    cases hnil

/-- An alert with control characters and with spaces in its details. -/
theorem pipeline_alert_delivered_scan :
    let a : Soc.Alert :=
      { type := "scan\n", source := "10.0.0.1", details := "\x7b \x7d",
        timestampNs := 9223372036854775807, severity := .high, tags := ["t"], nodeName := "n1",
        namespace_ := "" }
    ∃ b, unmarshalAlert (Soc.toJson a) = some b ∧
      ∀ out, ((newCorrelator 60 (by decide)).process b 0).2.out = some out →
        ∃ body x, marshalAlert out = some body ∧ unmarshalIncoming body = some x ∧
          x.type = a.type ∧ decode x.details.toList = some (.obj []) := by
  intro a
  have hempty : Denotes .value ['\x7b', ' ', '\x7d'] (.obj []) :=
    .emptyObject (w := [' ']) (by intro c hc; rw [List.mem_singleton.mp hc]; rfl)
  have hdetails : Denotes .value (detailsText a.details).toList (.obj []) := by
    have heq : (detailsText a.details).toList = ['\x7b', ' ', '\x7d'] := by decide
    rw [heq]
    exact hempty
  obtain ⟨b, hb, hall⟩ := pipeline_alert_delivered a hdetails (by decide)
    (newCorrelator 60 (by decide)) 0
  refine ⟨b, hb, fun out hout => ?_⟩
  obtain ⟨body, x, hbody, hx, htype, -, -, -, -, -, hvalue⟩ := hall out hout
  exact ⟨body, x, hbody, hx, htype, hvalue⟩

end Cluster
