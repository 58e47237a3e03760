/-
# The system

Every node publishes its messages to one subject, the replicas of the aggregator take them and
publish to another subject, and the incident service takes those.  Messages may be lost and may
be taken in any order, and everything runs concurrently.  Whatever the interleaving, an incident
tells of alerts that pipelines have sent (`incidents_tell_alerts`).
-/
import ZtMapper.Aggregator.Publish
import ZtMapper.Cluster.Evidence
import ZtMapper.Cluster.Messages
import ZtMapper.IncidentService.Writers

open Aggregator IncidentService Runs

namespace Cluster

/-- The nodes, the messages of the two subjects that have not been taken, the correlators of the
replicas, and the incident service. -/
structure State (ι : Type) (R : ℕ) where
  nodes : ι → Node
  raw : List (List UInt8)
  replicas : Fin R → Correlator
  enriched : List (List UInt8)
  service : IncidentService.Service

inductive Event (ι : Type) (R : ℕ) where
  | node (i : ι) (e : Node.Event)
  | receive (k : ℕ) (r : Fin R) (clock : Int64) (delivery : Aggregator.Delivery)
  | evictExpired (r : Fin R) (clock : Int64)
  | deliver (k : ℕ)
  | service (e : IncidentService.Event)
  | loseRaw (k : ℕ)
  | loseEnriched (k : ℕ)

/-- A delivery comes from the subject. -/
def isDelivery : IncidentService.Event → Bool
  | .arrive (.deliver _) => true
  | _ => false

/-- Only a delivery brings an alert. -/
theorem arrivals_eq_nil {se : IncidentService.Event} (h : ¬ isDelivery se = true) :
    arrivals [se] = [] := by
  cases se with
  | arrive r =>
    cases r with
    | deliver a => exact absurd rfl h
    | approve | reject | patchStatus | followUp => rfl
  | tick | advance => rfl

namespace State

variable {ι : Type} {R : ℕ}

/-- Nothing has happened. -/
def start (ι : Type) (R : ℕ) (window : Int64) (hwindow : 0 < window) : State ι R where
  nodes := fun _ => {}
  raw := []
  replicas := fun _ => newCorrelator window hwindow
  enriched := []
  service := {}

/-- Some pipeline has sent the alert. -/
def Sent (s : State ι R) (a : Soc.Alert) : Prop := ∃ i, a ∈ (s.nodes i).sent

/-! ## The invariant -/

/-- All that is under way goes back to alerts that have been sent. -/
structure Founded (s : State ι R) : Prop where
  raw : ∀ m ∈ s.raw, ∀ b, unmarshalAlert m = some b → Read s.Sent b
  replicas : ∀ r, NodesFrom (Read s.Sent) (s.replicas r)
  enriched : ∀ m ∈ s.enriched, ∀ x, unmarshalIncoming m = some x → ∃ a, Evidence s.Sent a x
  service : ∃ es, reach Service.step {} es = some s.service ∧
    ∀ x ∈ arrivals es, ∃ a, Evidence s.Sent a x

/-- At first nothing is read. -/
theorem founded_start (window : Int64) (hwindow : 0 < window) : (start ι R window hwindow).Founded :=
  ⟨fun _ hm => absurd hm List.not_mem_nil, fun _ => nodesFrom_empty _ window hwindow,
    fun _ hm => absurd hm List.not_mem_nil, ⟨[], rfl, fun _ hx => absurd hx List.not_mem_nil⟩⟩

/-- What was read stays so as more is sent. -/
theorem Read.mono {sent sent' : Soc.Alert → Prop} {b : Alert} (h : Read sent b)
    (hsent : ∀ a, sent a → sent' a) : Read sent' b := by
  obtain ⟨a, ha, hb⟩ := h
  exact ⟨a, hsent a ha, hb⟩

variable {s s' : State ι R}

/-! ## Steps -/

/-- What a handler has sent has been emitted by the correlator. -/
theorem out_of_sent {c : Correlator} {b out : Alert} {clock : Int64}
    {delivery : Aggregator.Delivery} (h : out ∈ (handle c (some b) clock delivery).2.sent) :
    (c.process b clock).2.out = some out := by
  unfold handle at h
  dsimp only at h
  split_ifs at h with hemit
  · cases delivery with
    | published => exact Option.mem_toList.mp h
    | marshalError | publishError => exact absurd h List.not_mem_nil
  · exact absurd h List.not_mem_nil

/-- A handler sends one message at most. -/
theorem length_sent_le (c : Correlator) (body : Option Alert) (clock : Int64)
    (delivery : Aggregator.Delivery) : (handle c body clock delivery).2.sent.length ≤ 1 := by
  cases body with
  | none => exact Nat.zero_le 1
  | some b =>
    unfold handle
    dsimp only
    split_ifs
    · cases delivery with
      | published => exact Option.length_toList_le
      | marshalError | publishError => exact Nat.zero_le _
    · exact Nat.zero_le _

/-- A replica takes a message. -/
theorem Founded.receive (h : s.Founded) {m : List UInt8} (hm : m ∈ s.raw) (k : ℕ) (r : Fin R)
    (clock : Int64) (delivery : Aggregator.Delivery) : Founded { s with
      raw := s.raw.eraseIdx k
      replicas := Function.update s.replicas r
        (handle (s.replicas r) (unmarshalAlert m) clock delivery).1
      enriched := s.enriched ++
        (handle (s.replicas r) (unmarshalAlert m) clock delivery).2.sent.filterMap marshalAlert } := by
  refine ⟨fun m' hm' => h.raw m' (List.mem_of_mem_eraseIdx hm'), fun r' => ?_, fun m' hm' x hx => ?_,
    h.service⟩
  · by_cases hr : r' = r
    · dsimp only
      rw [hr, Function.update_self]
      cases hb : unmarshalAlert m with
      | none => exact h.replicas r
      | some b =>
        rw [Reporting.corr_handle]
        exact (h.replicas r).process (h.raw m hm b hb)
    · dsimp only
      rw [Function.update_of_ne hr]
      exact h.replicas r'
  · rcases List.mem_append.mp hm' with hm' | hm'
    · exact h.enriched m' hm' x hx
    · obtain ⟨out, hout, hbody⟩ := List.mem_filterMap.mp hm'
      cases hb : unmarshalAlert m with
      | none =>
        rw [hb] at hout
        exact absurd hout List.not_mem_nil
      | some b =>
        rw [hb] at hout
        have hprocess := out_of_sent hout
        have hread := h.raw m hm b hb
        obtain ⟨a, ha, rfl⟩ := hread
        exact ⟨a, evidence_of_enriches ha
          (enriches_process (h.replicas r) (h.raw m hm _ hb) rfl hprocess) hbody hx⟩

/-- A tick of a replica keeps the foundation. -/
theorem Founded.evictExpired (h : s.Founded) (r : Fin R) (clock : Int64) : Founded { s with
    replicas := Function.update s.replicas r ((s.replicas r).evictExpired clock) } := by
  refine ⟨h.raw, fun r' => ?_, h.enriched, h.service⟩
  by_cases hr : r' = r
  · dsimp only
    rw [hr, Function.update_self]
    exact (h.replicas r).evictExpired
  · dsimp only
    rw [Function.update_of_ne hr]
    exact h.replicas r'

/-- The incident service makes a step. -/
theorem Founded.service_step (h : s.Founded) {se : IncidentService.Event}
    {service : IncidentService.Service} (hstep : s.service.step se = some service)
    (harrive : ∀ x ∈ arrivals [se], ∃ a, Evidence s.Sent a x) :
    Founded { s with service := service } := by
  obtain ⟨es, hes, harrivals⟩ := h.service
  refine ⟨h.raw, h.replicas, h.enriched, es ++ [se], reach_concat_eq_some.mpr ⟨_, hes, hstep⟩,
    fun x hx => ?_⟩
  rw [arrivals_concat] at hx
  rcases List.mem_append.mp hx with hx | hx
  · exact harrivals x hx
  · exact harrive x hx

/-- So does a message taken from the stream. -/
theorem Founded.eraseEnriched (h : s.Founded) (k : ℕ) :
    Founded { s with enriched := s.enriched.eraseIdx k } :=
  ⟨h.raw, h.replicas, fun m hm => h.enriched m (List.mem_of_mem_eraseIdx hm), h.service⟩

/-! ## Runs -/

variable [DecidableEq ι] {events : List (Event ι R)} {e : Event ι R}

def step (s : State ι R) : Event ι R → Option (State ι R)
  | .node i e => ((s.nodes i).step e).map fun n =>
      { s with
        nodes := Function.update s.nodes i n
        raw := s.raw ++ n.bridge.published.drop (s.nodes i).bridge.published.length }
  | .receive k r clock delivery => s.raw[k]?.map fun m =>
      let (c, handled) := handle (s.replicas r) (unmarshalAlert m) clock delivery
      { s with
        raw := s.raw.eraseIdx k
        replicas := Function.update s.replicas r c
        enriched := s.enriched ++ handled.sent.filterMap marshalAlert }
  | .evictExpired r clock => some { s with
      replicas := Function.update s.replicas r ((s.replicas r).evictExpired clock) }
  | .deliver k => s.enriched[k]?.bind fun m =>
      match unmarshalIncoming m with
      | none => some { s with enriched := s.enriched.eraseIdx k }
      | some x => (s.service.step (.arrive (.deliver x))).map fun service =>
          { s with enriched := s.enriched.eraseIdx k, service := service }
  | .service e =>
    if isDelivery e then none
    else (s.service.step e).map fun service => { s with service := service }
  | .loseRaw k => some { s with raw := s.raw.eraseIdx k }
  | .loseEnriched k => some { s with enriched := s.enriched.eraseIdx k }

/-- What has happened at a node. -/
def eventsOf (i : ι) (events : List (Event ι R)) : List Node.Event :=
  events.filterMap fun
    | .node j e => if j = i then some e else none
    | _ => none

/-- A node has made a step. -/
theorem Founded.node (h : s.Founded) {i : ι} {n : Node}
    (hsent : ∀ a ∈ (s.nodes i).sent, a ∈ n.sent)
    (hread : ∀ m ∈ n.bridge.published, ∀ b, unmarshalAlert m = some b → Read (· ∈ n.sent) b)
    (l : ℕ) : Founded { s with
      nodes := Function.update s.nodes i n
      raw := s.raw ++ n.bridge.published.drop l } := by
  have hmono : ∀ a, s.Sent a → Sent { s with
      nodes := Function.update s.nodes i n
      raw := s.raw ++ n.bridge.published.drop l } a := by
    rintro a ⟨j, ha⟩
    by_cases hj : j = i
    · refine ⟨i, ?_⟩
      dsimp only
      rw [Function.update_self]
      exact hsent a (hj ▸ ha)
    · refine ⟨j, ?_⟩
      dsimp only
      rwa [Function.update_of_ne hj]
  have hnew : ∀ a ∈ n.sent, Sent { s with
      nodes := Function.update s.nodes i n
      raw := s.raw ++ n.bridge.published.drop l } a := by
    intro a ha
    refine ⟨i, ?_⟩
    dsimp only
    rwa [Function.update_self]
  obtain ⟨es, hes, harrivals⟩ := h.service
  refine ⟨fun m hm b hb => ?_, fun r => (h.replicas r).mono fun b hb => Read.mono hb hmono,
    fun m hm x hx => ?_, ⟨es, hes, fun x hx => ?_⟩⟩
  · rcases List.mem_append.mp hm with hm | hm
    · exact Read.mono (h.raw m hm b hb) hmono
    · exact Read.mono (hread m (List.mem_of_mem_drop hm) b hb) hnew
  · obtain ⟨a, ha⟩ := h.enriched m hm x hx
    exact ⟨a, ha.mono hmono⟩
  · obtain ⟨a, ha⟩ := harrivals x hx
    exact ⟨a, ha.mono hmono⟩

/-- **One step of the system.** -/
theorem Founded.step (h : s.Founded) (hstep : s.step e = some s')
    (hnode : ∀ i ne, e = .node i ne → ∀ m ∈ (s'.nodes i).bridge.published, ∀ b,
      unmarshalAlert m = some b → Read (· ∈ (s'.nodes i).sent) b) : s'.Founded := by
  cases e with
  | node i ne =>
    obtain ⟨n, hn, rfl⟩ := Option.map_eq_some_iff.mp hstep
    have hpublished := hnode i ne rfl
    dsimp only at hpublished
    rw [Function.update_self] at hpublished
    refine h.node (fun a ha => ?_) hpublished _
    rcases Node.sent_step hn with hsame | ⟨b, -, hgrown⟩
    · rwa [hsame]
    · rw [hgrown]
      exact List.mem_append_left _ ha
  | receive k r clock delivery =>
    obtain ⟨m, hm, rfl⟩ := Option.map_eq_some_iff.mp hstep
    exact h.receive (List.mem_of_getElem? hm) k r clock delivery
  | evictExpired r clock =>
    obtain rfl := Option.some.inj hstep
    exact h.evictExpired r clock
  | deliver k =>
    obtain ⟨m, hm, hread⟩ := Option.bind_eq_some_iff.mp hstep
    cases hx : unmarshalIncoming m with
    | none =>
      rw [hx] at hread
      obtain rfl := Option.some.inj hread
      exact h.eraseEnriched k
    | some x =>
      rw [hx] at hread
      obtain ⟨service, hservice, rfl⟩ := Option.map_eq_some_iff.mp hread
      refine (h.eraseEnriched k).service_step hservice fun y hy => ?_
      obtain rfl := List.mem_singleton.mp hy
      exact h.enriched m (List.mem_of_getElem? hm) _ hx
  | service se =>
    unfold State.step at hstep
    dsimp only at hstep
    split_ifs at hstep with hse
    obtain ⟨service, hservice, rfl⟩ := Option.map_eq_some_iff.mp hstep
    refine h.service_step hservice fun x hx => ?_
    rw [arrivals_eq_nil hse] at hx
    exact absurd hx List.not_mem_nil
  | loseRaw k =>
    obtain rfl := Option.some.inj hstep
    exact ⟨fun m hm => h.raw m (List.mem_of_mem_eraseIdx hm), h.replicas, h.enriched, h.service⟩
  | loseEnriched k =>
    obtain rfl := Option.some.inj hstep
    exact h.eraseEnriched k

/-- The nodes after a step: one of them has made its own step, or none has. -/
theorem nodes_step (hstep : s.step e = some s') :
    (∃ i ne n, e = .node i ne ∧ (s.nodes i).step ne = some n ∧
        s'.nodes = Function.update s.nodes i n) ∨
      ((∀ i ne, e ≠ .node i ne) ∧ s'.nodes = s.nodes) := by
  cases e with
  | node i ne =>
    obtain ⟨n, hn, rfl⟩ := Option.map_eq_some_iff.mp hstep
    exact Or.inl ⟨i, ne, n, rfl, hn, rfl⟩
  | receive =>
    obtain ⟨m, -, rfl⟩ := Option.map_eq_some_iff.mp hstep
    exact Or.inr ⟨fun _ _ h => (nomatch h), rfl⟩
  | deliver k =>
    obtain ⟨m, -, hread⟩ := Option.bind_eq_some_iff.mp hstep
    refine Or.inr ⟨fun _ _ h => (nomatch h), ?_⟩
    cases hx : unmarshalIncoming m with
    | none =>
      rw [hx] at hread
      obtain rfl := Option.some.inj hread
      rfl
    | some x =>
      rw [hx] at hread
      obtain ⟨service, -, rfl⟩ := Option.map_eq_some_iff.mp hread
      rfl
  | service se =>
    unfold State.step at hstep
    dsimp only at hstep
    split_ifs at hstep
    obtain ⟨service, -, rfl⟩ := Option.map_eq_some_iff.mp hstep
    exact Or.inr ⟨fun _ _ h => (nomatch h), rfl⟩
  | evictExpired | loseRaw | loseEnriched =>
    obtain rfl := Option.some.inj hstep
    exact Or.inr ⟨fun _ _ h => (nomatch h), rfl⟩

/-- What has been sent stays sent. -/
theorem sent_mono (hstep : s.step e = some s') {a : Soc.Alert} (ha : s.Sent a) : s'.Sent a := by
  obtain ⟨j, ha⟩ := ha
  rcases nodes_step hstep with ⟨i, ne, n, -, hn, hnodes⟩ | ⟨-, hnodes⟩
  · refine ⟨j, ?_⟩
    rw [hnodes]
    by_cases hj : j = i
    · subst hj
      rw [Function.update_self]
      rcases Node.sent_step hn with hsame | ⟨b, -, hgrown⟩
      · rwa [hsame]
      · rw [hgrown]
        exact List.mem_append_left _ ha
    · rwa [Function.update_of_ne hj]
  · exact ⟨j, hnodes ▸ ha⟩

/-- The events of one node, in order. -/
theorem eventsOf_append (i : ι) (events events' : List (Event ι R)) :
    eventsOf i (events ++ events') = eventsOf i events ++ eventsOf i events' :=
  List.filterMap_append

/-- Events of one node are its events. -/
theorem eventsOf_map_node (i : ι) (es : List Node.Event) :
    eventsOf i (es.map fun e => (.node i e : Event ι R)) = es := by
  induction es with
  | nil => rfl
  | cons e es ih =>
    unfold eventsOf at ih ⊢
    rw [List.map_cons, List.filterMap_cons, ih]
    dsimp only
    rw [if_pos rfl]

/-- One event of the node. -/
theorem eventsOf_node_self (i : ι) (ne : Node.Event) : eventsOf i [(.node i ne : Event ι R)] = [ne] :=
  eventsOf_map_node i [ne]

/-- Other events are none of its events. -/
theorem eventsOf_eq_nil {i : ι} (h : ∀ ne, e ≠ .node i ne) : eventsOf i [e] = [] := by
  cases e with
  | node j ne =>
    have hj : j ≠ i := by
      rintro rfl
      exact h ne rfl
    simp [eventsOf, hj]
  | receive | evictExpired | deliver | service | loseRaw | loseEnriched => rfl

variable {window : Int64} {hwindow : 0 < window}

/-- The events of a node are a run of it. -/
theorem reach_eventsOf (hrun : reach step (start ι R window hwindow) events = some s) (i : ι) :
    reach Node.step {} (eventsOf i events) = some (s.nodes i) := by
  induction events using List.reverseRecOn generalizing s with
  | nil =>
    obtain rfl := Option.some.inj hrun
    rfl
  | append_singleton events e ih =>
    obtain ⟨s₁, hs₁, hstep⟩ := reach_concat_eq_some.mp hrun
    have hprev := ih hs₁
    rw [eventsOf_append]
    rcases nodes_step hstep with ⟨j, ne, n, rfl, hn, hnodes⟩ | ⟨hnone, hnodes⟩
    · rw [hnodes]
      by_cases hj : j = i
      · subst hj
        rw [eventsOf_node_self, Function.update_self]
        exact reach_concat_eq_some.mpr ⟨_, hprev, hn⟩
      · rw [eventsOf_eq_nil fun ne' h => hj (Event.node.inj h).1, List.append_nil,
          Function.update_of_ne (Ne.symm hj), hprev]
    · rw [eventsOf_eq_nil (hnone i), List.append_nil, hnodes, hprev]

/-- **After every run** all goes back to alerts that have been sent. -/
theorem founded_of_reach (hrun : reach step (start ι R window hwindow) events = some s)
    (hwhole : ∀ i, Along Node.Whole (eventsOf i events)) (hsent : ∀ a, s.Sent a → Sendable a) :
    s.Founded := by
  induction events using List.reverseRecOn generalizing s with
  | nil =>
    obtain rfl := Option.some.inj hrun
    exact founded_start window hwindow
  | append_singleton events e ih =>
    obtain ⟨s₁, hs₁, hstep⟩ := reach_concat_eq_some.mp hrun
    have hfounded := ih hs₁ (fun i => (eventsOf_append i events [e] ▸ hwhole i).of_append)
      fun a ha => hsent a (sent_mono hstep ha)
    refine hfounded.step hstep fun i ne _ m hm b hb => ?_
    have hall : (s.nodes i).AllSendable := fun a ha => hsent a ⟨i, ha⟩
    have hsublist := Node.read_sublist
      (Node.tracked_of_reach (reach_eventsOf hrun i) (hwhole i) hall) hall
    obtain ⟨a, ha, rfl⟩ := List.mem_map.mp (hsublist.subset (List.mem_filterMap.mpr ⟨m, hm, hb⟩))
    exact ⟨a, List.mem_of_mem_filter ha, rfl⟩

end State

end Cluster
