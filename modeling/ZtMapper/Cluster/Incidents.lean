/-
# What an incident tells

Every row of the incident service goes back to alerts that engines have raised: its pair, its
nodes and its tags are those of such alerts, it is marked cross-node only when two nodes have
reported its key, and its severity is that of an alert or one step above.
-/
import ZtMapper.Cluster.Delivery
import ZtMapper.Engine.AlertLines

open Aggregator IncidentService Runs

namespace Cluster

/-! ## Alerts of engines -/

/-- Some run of an engine raises the alert. -/
def Raised (a : Soc.Alert) : Prop :=
  ∃ env cfg eng s₀ events s outs, Engine.setup env cfg = some (eng, s₀) ∧
    Engine.Reaches env cfg events s outs ∧ a ∈ outs.flatMap (·.alerts)

/-- Some run of an engine raises the alert for an event, and what it says is so. -/
def RaisedFor (a : Soc.Alert) : Prop :=
  ∃ env cfg eng s₀ pre evt post s outs, Engine.setup env cfg = some (eng, s₀) ∧
    Engine.Reaches env cfg (pre ++ evt :: post) s outs ∧ a ∈ outs.flatMap (·.alerts) ∧
    Engine.Justified eng (Engine.graphOf pre) evt a

theorem Raised.raisedFor {a : Soc.Alert} (h : Raised a) : RaisedFor a := by
  obtain ⟨env, cfg, eng, s₀, events, s, outs, hsetup, hrun, ha⟩ := h
  obtain ⟨pre, evt, post, rfl, hjust⟩ := Engine.justified_of_reaches hsetup hrun ha
  exact ⟨env, cfg, eng, s₀, pre, evt, post, s, outs, hsetup, hrun, ha, hjust⟩

theorem Raised.sendable {a : Soc.Alert} (h : Raised a) : Sendable a := by
  obtain ⟨env, cfg, eng, s₀, pre, evt, post, s, outs, -, -, -, hjust⟩ := h.raisedFor
  obtain ⟨v, hsays, -⟩ := hjust.exists_says
  have htext := hsays.printedText
  have hne : a.details ≠ "" := fun heq => htext.ne_nil (by rw [heq]; rfl)
  refine ⟨Engine.notMem_bytes_of_printable htext.printable (by decide), v, ?_⟩
  rw [detailsText, if_neg hne]
  exact htext.denotes

/-- One connection of a host, with the threshold 0. -/
theorem exists_raised : ∃ a, Raised a ∧ TimeFits a ∧ a.type ≠ "" ∧ a.source ≠ "" := by
  obtain ⟨env⟩ := (inferInstance : Nonempty Engine.Env)
  obtain ⟨eng, s₀, hsetup⟩ :=
    Engine.exists_setup (Engine.alertingConfig "hash_map_exact" "tarjan" 0) rfl rfl rfl rfl env
  obtain ⟨s, outs, hrun⟩ := Engine.exists_reaches_of_size hsetup ⟨10, rfl⟩ [⟨1, 9, 80, 7, 10⟩]
    fun _ => lt_of_le_of_lt (Engine.numVertices_graphOf_le _) (by decide)
  have hestimator : s₀.freqEstimator = .hashMapExact .create :=
    (Except.ok.inj (Engine.created_of_setup hsetup).estimator_eq).symm
  obtain ⟨out, a, hout, ha, htype, hsource, -⟩ := Engine.exists_alert_of_raised hsetup hrun
    (i := 0) (w := 0) (x := 1) rfl (by
      rw [hestimator]
      exact ⟨by decide, fun j hj => absurd hj (Nat.not_lt_zero j)⟩)
  have hmem : a ∈ outs.flatMap (·.alerts) :=
    List.mem_flatMap.mpr ⟨out, List.mem_of_getElem? hout, ha⟩
  obtain ⟨pre, evt, post, heq, hjust⟩ := Engine.justified_of_reaches hsetup hrun hmem
  have hevt : evt = ⟨1, 9, 80, 7, 10⟩ :=
    List.mem_singleton.mp (heq ▸ List.mem_append_right pre List.mem_cons_self)
  refine ⟨a, ⟨env, _, eng, s₀, _, s, outs, hsetup, hrun, hmem⟩, ?_, ?_, ?_⟩
  · have htime : a.timestampNs = 10 := by
      cases hjust <;> exact congrArg NetworkEvent.timestampNs hevt
    unfold TimeFits
    rw [htime]
    decide
  · rw [htype]
    decide
  · rw [hsource]
    decide

/-! ## Rows -/

/-- What a row tells has been said by alerts of its key. -/
structure Substantiated (sent : Soc.Alert → Prop) (row : Incident) : Prop where
  origin : ∃ a, sent a ∧ row.incidentKey = key a ∧ row.type = a.type ∧ row.sourceIp = a.source
  nodes : ∀ n ∈ row.nodesObserved, ∃ a, sent a ∧ key a = row.incidentKey ∧ a.nodeName = n
  tags : ∀ t ∈ row.tags, t = "cross_node_attacker" ∨
    ∃ a, sent a ∧ key a = row.incidentKey ∧ t ∈ a.tags
  cross : row.crossNode = true → ∃ a b, sent a ∧ sent b ∧ key a = row.incidentKey ∧
    key b = row.incidentKey ∧ a.nodeName ≠ b.nodeName
  severity : ∃ a, sent a ∧ key a = row.incidentKey ∧
    (severityRank row.severity = severityRank a.severity.toString ∨
      (row.crossNode = true ∧
        severityRank row.severity = severityRank (upgradeSeverity a.severity.toString)))

variable {sent : Soc.Alert → Prop} {a : Soc.Alert} {x : IncomingAlert} {row : Incident}

theorem Evidence.key_eq (h : Evidence sent a x) : key a = x.key := by
  rw [key, incidentKey, ← h.type, ← h.source]
  rfl

/-- A row that summarises alerts of its key which go back to sent ones. -/
theorem substantiated_of_summarises {as : List IncomingAlert} (hsum : Summarises row as)
    (hkey : ∀ x ∈ as, x.key = row.incidentKey) (has : ∀ x ∈ as, ∃ a, Evidence sent a x)
    (horigin : ∃ x ∈ as, row.type = x.type ∧ row.sourceIp = x.source) :
    Substantiated sent row := by
  refine ⟨?_, fun n hn => ?_, fun t ht => ?_, fun hcross => ?_, ?_⟩
  · obtain ⟨x, hx, htype, hsource⟩ := horigin
    obtain ⟨a, ha⟩ := has x hx
    exact ⟨a, ha.origin, ((ha.key_eq).trans (hkey x hx)).symm, htype.trans ha.type,
      hsource.trans ha.source⟩
  · obtain ⟨x, hx, hn⟩ := (hsum.nodes n).mp hn
    obtain ⟨a, ha⟩ := has x hx
    obtain ⟨b, hb, hbkey, hname⟩ := ha.nodes n hn
    exact ⟨b, hb, hbkey.trans (hkey x hx), hname⟩
  · obtain ⟨x, hx, ht⟩ := (hsum.tags t).mp ht
    obtain ⟨a, ha⟩ := has x hx
    rcases ha.tags t ht with hown | hmark
    · exact Or.inr ⟨a, ha.origin, ha.key_eq.trans (hkey x hx), hown⟩
    · exact Or.inl hmark
  · obtain ⟨⟨x, hx, hmarked⟩, -⟩ := hsum.cross
    obtain ⟨a, ha⟩ := has x hx
    obtain ⟨b, b', hb, hb', hbkey, hbkey', hne⟩ := ha.cross (hmarked.trans hcross)
    exact ⟨b, b', hb, hb', hbkey.trans (hkey x hx), hbkey'.trans (hkey x hx), hne⟩
  · obtain ⟨⟨x, hx, hrank⟩, -⟩ := hsum.severity
    obtain ⟨a, ha⟩ := has x hx
    refine ⟨a, ha.origin, ha.key_eq.trans (hkey x hx), ?_⟩
    rcases ha.severity with hsame | ⟨hup, hcross⟩
    · exact Or.inl (by rw [← hrank, ← hsame])
    · -- one marked alert marks the row
      have hle : x.cross ≤ row.crossNode := hsum.cross.2 ⟨x, hx, rfl⟩
      rw [hcross] at hle
      exact Or.inr ⟨Bool.eq_true_of_true_le hle, by rw [← hrank, ← hup]⟩

/-- **What the incidents tell.**  Whatever the interleaving of the nodes, the aggregators and the
incident service, and whatever is lost: a row goes back to an alert that an engine has raised
for an event which justifies it, and all that the row tells has been said by such alerts. -/
theorem incidents_tell_alerts {ι : Type} [DecidableEq ι] {R : ℕ} {window : Int64}
    {hwindow : 0 < window} {events : List (Event ι R)} {s : State ι R}
    (hrun : reach State.step (State.start ι R window hwindow) events = some s)
    (hwhole : ∀ i, Along Node.Whole (State.eventsOf i events)) (hraised : ∀ a, s.Sent a → Raised a) :
    ∀ row ∈ s.service.db.incidents, Substantiated (fun a => s.Sent a ∧ RaisedFor a) row := by
  have hfounded := State.founded_of_reach hrun hwhole fun a ha => (hraised a ha).sendable
  obtain ⟨es, hes, harrivals⟩ := hfounded.service
  obtain ⟨hist, htold⟩ := told_of_reach hes
  intro row hrow
  rw [htold.same.incidents] at hrow
  have hevidence : ∀ x ∈ hist.alerts, ∃ a, Evidence (fun a => s.Sent a ∧ RaisedFor a) a x := by
    intro x hx
    have hcount := htold.count x
    have hpos : 0 < (arrivals es).count x :=
      lt_of_lt_of_le (List.count_pos_iff.mpr hx) (le_trans (Nat.le_add_right _ _) hcount)
    obtain ⟨a, ha⟩ := harrivals x (List.count_pos_iff.mp hpos)
    exact ⟨a, ha.mono fun a ha => ⟨ha, (hraised a ha).raisedFor⟩⟩
  have hsum := htold.sound.summary row hrow
  obtain ⟨x, hx, hkey, htype, hsource⟩ := htold.stems row hrow
  exact substantiated_of_summarises hsum (fun y hy => of_decide_eq_true (List.mem_filter.mp hy).2)
    (fun y hy => hevidence y (List.mem_filter.mp hy).1)
    ⟨x, List.mem_filter.mpr ⟨hx, decide_eq_true hkey.symm⟩, htype, hsource⟩

/-- The alert of an engine is delivered, and its row goes back to it. -/
theorem incidents_tell_alerts_first :
    ∃ (events : List (Event Unit 1)) (s : State Unit 1),
      reach State.step (State.start Unit 1 60 (by decide)) events = some s ∧
      s.service.db.incidents ≠ [] ∧
      ∀ row ∈ s.service.db.incidents, Substantiated (fun a => s.Sent a ∧ RaisedFor a) row := by
  obtain ⟨a, ha, hfits, htype, hsource⟩ := exists_raised
  obtain ⟨events, s, hrun, hwhole, hall, -, row, hrow, -⟩ :=
    State.exists_first ha.sendable hfits htype hsource
  exact ⟨events, s, hrun.1, List.ne_nil_of_mem hrow,
    incidents_tell_alerts hrun.1 hwhole fun b hb => (hall b).mp hb ▸ ha⟩

end Cluster
