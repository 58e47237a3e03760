/-
# Runs that lose nothing

In a run in which the pipelines write whole lines behind the offset of their bridge, and no
message and no upsert is lost, what a node has published stays under way until its key has a row
(`Kept`).  The correlators suppress alerts, but only those of a key that they have reported.
-/
import ZtMapper.Cluster.System
import ZtMapper.IncidentService.Presence

open Aggregator AlertBridge IncidentService Lines Runs

namespace AlertBridge

/-- A bridge that has no line before it has published all. -/
theorem Bridge.Intact.eq_of_quiet {s : Bridge} {all : List (List UInt8)} (h : s.Intact all)
    (hunread : s.unread = []) (hpending : newline ∉ s.reader.pending) : s.published = all := by
  have hahead : s.ahead = s.reader.pending := by
    rw [Bridge.ahead, hunread, List.append_nil]
  have hwhole := h.whole
  rw [hahead, cut_of_not_mem hpending] at hwhole
  exact h.published_eq (hahead.trans hwhole)

/-- What has been published is a beginning of all. -/
theorem Bridge.Intact.published_isPrefix {s : Bridge} {all : List (List UInt8)} (h : s.Intact all) :
    s.published <+: all := ⟨_, h.all⟩

end AlertBridge

namespace Cluster

/-! ## A node -/

namespace Node

/-- What a node relies on at an event: a pipeline writes one line at a time, and all of them
before another one starts, and the events of the bridge are as it relies on. -/
def Attends (s : Node) : Event → Prop
  | .start => s.buffer = [] ∧ Keeps s.bridge .openTrunc
  | .send _ => True
  | .write n => (∃ line rest, s.buffer = line ++ newline :: rest ∧ newline ∉ line ∧
      n = line.length + 1) ∧ Keeps s.bridge (.write (s.buffer.take n))
  | .other e => Keeps s.bridge e

/-- The lines that have been written are published or before the bridge. -/
structure Intact (s : Node) : Prop where
  fresh : s.bridge.Fresh
  lines : ∃ done todo, s.lines = done ++ todo ∧ s.buffer = unlines newline todo ∧
    s.bridge.Intact done

variable {s s' : Node} {e : Event}

theorem intact_start : Intact {} :=
  ⟨⟨fun _ h => (nomatch h), fun _ h => (nomatch h)⟩, [], [], rfl, rfl, ⟨rfl, rfl⟩⟩

/-- The line of an alert begins with a brace. -/
theorem head?_toJson (a : Soc.Alert) : (Soc.toJson a).head? = some brace := by
  obtain ⟨t, ht⟩ := Viz.braced_text a
  rw [Viz.toJson_eq_text, ht]
  rfl

/-- A line of a node is written with its newline, and becomes a message as it is. -/
theorem line_of_mem (h : s.AllSendable) {l : List UInt8} (hl : l ∈ s.lines) : newline ∉ l ∧
    AlertBridge.Event.message (.write (l ++ [newline])) = some l ∧
    AlertBridge.Event.WritesAlert (.write (l ++ [newline])) := by
  obtain ⟨a, ha, rfl⟩ := List.mem_map.mp hl
  obtain ⟨v, hv⟩ := (h a ha).wellFormedLine
  refine ⟨hv.notMem, ?_, ?_, List.getLast?_concat, ?_⟩
  · unfold AlertBridge.Event.message
    dsimp only
    rw [trim_concat_newline, trim_suffix_toJson (List.nil_append _).symm]
  · rw [List.head?_append, head?_toJson]
    rfl
  · rw [List.dropLast_concat]
    exact hv.notMem

/-- A step of the bridge that writes nothing. -/
theorem intact_quiet {b b' : Bridge} {done : List (List UInt8)} {e : AlertBridge.Event}
    (h : b.Intact done) (hfresh : b.Fresh) (hkeeps : Keeps b e) (halert : e.WritesAlert)
    (hmessage : e.message = none) (hstep : b.step e = some b') : b'.Intact done := by
  have hnew := h.step hfresh hkeeps halert hstep
  rwa [hmessage, Option.toList_none, List.append_nil] at hnew

/-- **One step loses no line.** -/
theorem Intact.step (h : s.Intact) (hsent : s.AllSendable) (hattends : s.Attends e)
    (hstep : s.step e = some s') : s'.Intact := by
  obtain ⟨hfresh, done, todo, hlines, hbuffer, hintact⟩ := h
  cases e with
  | start =>
    obtain ⟨b, hb, rfl⟩ := Option.map_eq_some_iff.mp hstep
    obtain ⟨hempty, hkeeps⟩ := hattends
    have htodo : todo = [] := unlines_eq_nil_iff.mp (hbuffer.symm.trans hempty)
    rw [htodo, List.append_nil] at hlines
    exact ⟨hfresh.step hb, done, [], by rw [List.append_nil]; exact hlines, rfl,
      intact_quiet hintact hfresh hkeeps trivial rfl hb⟩
  | send a =>
    unfold Node.step at hstep
    dsimp only at hstep
    split_ifs at hstep
    obtain rfl := Option.some.inj hstep
    refine ⟨hfresh, done, todo ++ [Soc.toJson a], ?_, ?_, hintact⟩
    · unfold Node.lines at hlines ⊢
      rw [List.map_append, hlines, List.append_assoc]
      rfl
    · rw [unlines_append, unlines_singleton, ← hbuffer]
  | write n =>
    obtain ⟨b, hb, rfl⟩ := Option.map_eq_some_iff.mp hstep
    obtain ⟨⟨line, rest, hline, hnot, rfl⟩, hkeeps⟩ := hattends
    cases todo with
    | nil =>
      rw [hbuffer] at hline
      exact absurd hline.symm (by simp [unlines])
    | cons l ls =>
      have hmem : l ∈ s.lines := hlines ▸ List.mem_append_right _ List.mem_cons_self
      obtain ⟨hnot', hmessage, hwrites⟩ := line_of_mem hsent hmem
      -- the line that is written is the first one that has not been
      have hsame : line = l :=
        eq_of_append_sep_eq hnot hnot' (hline.symm.trans (hbuffer.trans (unlines_cons l ls)))
      subst hsame
      rw [hbuffer, take_unlines_cons] at hb hkeeps
      have hnew := hintact.step hfresh hkeeps hwrites hb
      rw [hmessage] at hnew
      refine ⟨hfresh.step hb, done ++ [line], ls, ?_, ?_, hnew⟩
      · rw [← List.append_cons]
        exact hlines
      · dsimp only
        rw [hbuffer, drop_unlines_cons]
  | other e =>
    unfold Node.step at hstep
    dsimp only at hstep
    split_ifs at hstep with he
    obtain ⟨b, hb, rfl⟩ := Option.map_eq_some_iff.mp hstep
    refine ⟨hfresh.step hb, done, todo, hlines, hbuffer, ?_⟩
    cases e with
    | openTrunc | write => exact absurd rfl he
    | rename | create | openFile | seekEnd | read | returnLine | poll | fail =>
      exact intact_quiet hintact hfresh hattends trivial rfl hb

/-- Nothing is in the buffer, and no line is before the bridge. -/
structure Quiet (s : Node) : Prop where
  buffer : s.buffer = []
  unread : s.bridge.unread = []
  pending : newline ∉ s.bridge.reader.pending

theorem Intact.published_eq (h : s.Intact) (hquiet : s.Quiet) : s.bridge.published = s.lines := by
  obtain ⟨-, done, todo, hlines, hbuffer, hintact⟩ := h
  rw [hintact.eq_of_quiet hquiet.unread hquiet.pending, hlines]
  rw [unlines_eq_nil_iff.mp (hbuffer.symm.trans hquiet.buffer), List.append_nil]

theorem Intact.published_isPrefix (h : s.Intact) : s.bridge.published <+: s.lines := by
  obtain ⟨-, done, todo, hlines, -, hintact⟩ := h
  rw [hlines]
  exact hintact.published_isPrefix.trans (List.prefix_append _ _)

end Node

/-! ## The correlators -/

variable {c : Correlator} {a : Aggregator.Alert} {clock : Int64} {k : String}

/-- What starts an incident is emitted, and it is the first of its incident. -/
theorem emitted_of_startsFresh (h : ¬ a.Malformed) (hfresh : c.StartsFresh a clock) :
    ∃ out, (handle c (some a) clock .published).2.sent = [out] ∧
      out = { a with correlation := some (snapshot (started a (a.time clock)) false) } := by
  refine ⟨_, ?_, rfl⟩
  unfold handle
  dsimp only
  rw [Correlator.process_fresh h (Correlator.startsFresh_iff.mp hfresh)]
  rfl

/-- An incident that a message leaves was there before, or the message has started it. -/
theorem lookup_process (h : (c.process a clock).1.incidents.lookup k ≠ none) :
    c.incidents.lookup k ≠ none ∨
      (k = a.key ∧ ¬ a.Malformed ∧ c.StartsFresh a clock) := by
  by_cases hmal : a.Malformed
  · rw [Correlator.process_malformed hmal] at h
    exact Or.inl h
  by_cases hk : k = a.key
  · rcases c.process_cases clock hmal with ⟨hfresh, -⟩ | ⟨st, hlive, -⟩
    · exact Or.inr ⟨hk, hmal, hfresh⟩
    · refine Or.inl fun hnone => ?_
      rw [hk, hlive.1] at hnone
      cases hnone
  · rw [Correlator.lookup_process_of_ne hk] at h
    exact Or.inl h

/-- The incident service reads what starts an incident as an alert that it can insert. -/
theorem exists_insertable {a : Soc.Alert} (ha : Sendable a) (hmal : ¬ (received a).Malformed)
    (now : Int64) : ∃ body x, marshalAlert { received a with
        correlation := some (snapshot (started (received a) now) false) } = some body ∧
      unmarshalIncoming body = some x ∧ Insertable x ∧ x.key = key a := by
  obtain ⟨v, hv⟩ := ha.value
  have htext : Json.IsText (received a).details.toList v := hv.isText
  have hbody := marshalAlert_eq_some (v := v) (b := { received a with
    correlation := some (snapshot (started (received a) now) false) }) fun _ => htext
  obtain ⟨hread, -⟩ := unmarshalIncoming_marshalAlert { received a with
    correlation := some (snapshot (started (received a) now) false) }
  have hgood : (received a).details = "" ∨ (Json.decode (received a).details.toList).isSome := by
    rw [Json.decode_eq_some_iff.mpr htext]
    exact Or.inr rfl
  rw [if_pos hgood, hbody, Option.bind_some] at hread
  obtain ⟨hsource, htype⟩ := not_or.mp hmal
  refine ⟨_, _, hbody, hread, ⟨htype, hsource, ?_⟩, rfl⟩
  -- it is the first one
  show FitsInt4 1
  unfold FitsInt4
  decide

namespace State

variable {ι : Type} {R : ℕ}

/-! ## The system -/

/-- Nothing is lost at the event. -/
def Safe (s : State ι R) : Event ι R → Prop
  | .node i e => (s.nodes i).Attends e
  | .receive _ _ _ delivery => delivery = .published
  | .service (.advance i o) => ∀ h ∈ s.service.handlers[i]?, h.awaiting ≠ none → o.fault ≠ .lost
  | .loseRaw _ => False
  | .loseEnriched _ => False
  | _ => True

/-- A message to the incident service, a delivery that has not been upserted, or a row tells of
the key. -/
def Heard (s : State ι R) (k : String) : Prop :=
  (∃ m ∈ s.enriched, ∃ x, unmarshalIncoming m = some x ∧ Insertable x ∧ x.key = k) ∨
    (∃ x ∈ s.service.handlers.filterMap Handler.awaiting, Insertable x ∧ x.key = k) ∨
    s.service.db.Has k

/-- A message is under way, or its key has been heard. -/
def Settled (s : State ι R) (m : List UInt8) : Prop :=
  m ∈ s.raw ∨ ∀ b, unmarshalAlert m = some b → ¬ b.Malformed → s.Heard b.key

/-- What has been published is under way or has been heard, and a correlator knows only keys
that have been heard. -/
structure Kept (s : State ι R) : Prop where
  nodes : ∀ i, (s.nodes i).Intact
  raw : ∀ m ∈ s.raw, ∃ a, s.Sent a ∧ m = Soc.toJson a
  published : ∀ i, ∀ m ∈ (s.nodes i).bridge.published, s.Settled m
  incidents : ∀ r k, (s.replicas r).incidents.lookup k ≠ none → s.Heard k

theorem kept_start (window : Int64) (hwindow : 0 < window) : (start ι R window hwindow).Kept :=
  ⟨fun _ => Node.intact_start, fun _ hm => absurd hm List.not_mem_nil,
    fun _ _ hm => absurd hm List.not_mem_nil, fun _ _ hk => absurd rfl hk⟩

variable {s s' : State ι R} {k : String}

/-- Only messages to the incident service have been added. -/
theorem Heard.enrich (h : s.Heard k) (hservice : s'.service = s.service)
    (henriched : ∀ m ∈ s.enriched, m ∈ s'.enriched) : s'.Heard k := by
  unfold Heard
  rw [hservice]
  exact h.imp_left fun ⟨m, hm, hx⟩ => ⟨m, henriched m hm, hx⟩

/-- An element of a list is the one that is taken, or stays. -/
theorem mem_eraseIdx_or {α : Type} {l : List α} {j : ℕ} {a b : α} (hget : l[j]? = some a)
    (hb : b ∈ l) : b = a ∨ b ∈ l.eraseIdx j := by
  induction l generalizing j with
  | nil => cases hget
  | cons c l ih =>
    cases j with
    | zero =>
      obtain rfl := Option.some.inj hget
      exact List.mem_cons.mp hb
    | succ j =>
      rw [List.eraseIdx_cons_succ]
      rcases List.mem_cons.mp hb with rfl | hb
      · exact Or.inr List.mem_cons_self
      · exact (ih hget hb).imp_right (List.mem_cons_of_mem c)

/-- A handler makes a step. -/
theorem Heard.advance (h : s.Heard k) {i : ℕ} {o : IncidentService.Outcome}
    {service : IncidentService.Service}
    (hfault : ∀ h ∈ s.service.handlers[i]?, h.awaiting ≠ none → o.fault ≠ .lost)
    (hstep : s.service.step (.advance i o) = some service) :
    Heard { s with service := service } k := by
  obtain ⟨hd, hget, hmap⟩ := Option.bind_eq_some_iff.mp hstep
  obtain ⟨⟨db, hd', calls⟩, hhandler, rfl⟩ := Option.map_eq_some_iff.mp hmap
  rcases h with hmessage | ⟨x, hx, hinsertable, rfl⟩ | hrow
  · exact Or.inl hmessage
  · obtain ⟨h₀, hh₀, hawaiting⟩ := List.mem_filterMap.mp hx
    obtain ⟨j, hj⟩ := List.getElem?_of_mem hh₀
    by_cases hij : i = j
    · subst hij
      obtain rfl := Option.some.inj (hget.symm.trans hj)
      have hlost := hfault hd hget (by rw [hawaiting]; exact Option.some_ne_none x)
      exact Or.inr (Or.inr (has_of_awaiting hawaiting hinsertable hlost hhandler))
    · refine Or.inr (Or.inl ⟨x, List.mem_filterMap.mpr ⟨h₀, ?_, hawaiting⟩, hinsertable, rfl⟩)
      exact List.mem_of_getElem? ((List.getElem?_set_ne hij).trans hj)
  · exact Or.inr (Or.inr (has_of_handlerStep hrow hhandler))

theorem Settled.mono {m : List UInt8} (h : s.Settled m) (hraw : m ∈ s.raw → m ∈ s'.raw)
    (hheard : ∀ k, s.Heard k → s'.Heard k) : s'.Settled m :=
  h.imp hraw fun hm b hb hmal => hheard _ (hm b hb hmal)

/-- Neither the nodes nor what they have published has changed, and no correlator knows more. -/
theorem Kept.congr (h : s.Kept) (hnodes : s'.nodes = s.nodes) (hraw : s'.raw = s.raw)
    (hheard : ∀ k, s.Heard k → s'.Heard k)
    (hincidents : ∀ r k, (s'.replicas r).incidents.lookup k ≠ none →
      (s.replicas r).incidents.lookup k ≠ none) : s'.Kept := by
  refine ⟨fun i => hnodes ▸ h.nodes i, fun m hm => ?_, fun i m hm => ?_,
    fun r k hk => hheard k (h.incidents r k (hincidents r k hk))⟩
  · obtain ⟨a, ⟨i, ha⟩, hline⟩ := h.raw m (hraw ▸ hm)
    exact ⟨a, ⟨i, hnodes ▸ ha⟩, hline⟩
  · rw [hnodes] at hm
    exact (h.published i m hm).mono (fun hm => hraw ▸ hm) hheard

/-- A message that is no longer under way has a row. -/
theorem Kept.has_of_published (h : s.Kept) {i : ι} {m : List UInt8} {b : Aggregator.Alert}
    (hm : m ∈ (s.nodes i).bridge.published) (hb : unmarshalAlert m = some b) (hmal : ¬ b.Malformed)
    (hraw : s.raw = []) (henriched : s.enriched = [])
    (hupserted : s.service.handlers.filterMap Handler.awaiting = []) :
    s.service.db.Has b.key := by
  rcases h.published i m hm with hunder | hheard
  · rw [hraw] at hunder
    exact absurd hunder List.not_mem_nil
  · rcases hheard b hb hmal with ⟨m', hm', -⟩ | ⟨x, hx, -⟩ | hrow
    · rw [henriched] at hm'
      exact absurd hm' List.not_mem_nil
    · rw [hupserted] at hx
      exact absurd hx List.not_mem_nil
    · exact hrow

variable [DecidableEq ι] {e : Event ι R}

/-- **What has been heard stays heard.** -/
theorem Heard.step (h : s.Heard k) (hsafe : s.Safe e) (hstep : s.step e = some s') : s'.Heard k := by
  cases e with
  | node i ne =>
    obtain ⟨n, -, rfl⟩ := Option.map_eq_some_iff.mp hstep
    exact h.enrich rfl fun _ hm => hm
  | receive j r clock delivery =>
    obtain ⟨m, -, rfl⟩ := Option.map_eq_some_iff.mp hstep
    exact h.enrich rfl fun _ hm => List.mem_append_left _ hm
  | evictExpired r clock =>
    obtain rfl := Option.some.inj hstep
    exact h.enrich rfl fun _ hm => hm
  | deliver j =>
    obtain ⟨m, hm, hread⟩ := Option.bind_eq_some_iff.mp hstep
    cases hx : unmarshalIncoming m with
    | none =>
      rw [hx] at hread
      obtain rfl := Option.some.inj hread
      rcases h with ⟨m', hm', x, hx', hk⟩ | hservice
      · rcases mem_eraseIdx_or hm hm' with rfl | hm'
        · rw [hx] at hx'
          cases hx'
        · exact Or.inl ⟨m', hm', x, hx', hk⟩
      · exact Or.inr hservice
    | some x =>
      rw [hx] at hread
      obtain ⟨service, hservice, rfl⟩ := Option.map_eq_some_iff.mp hread
      obtain rfl := Option.some.inj hservice
      rcases h with ⟨m', hm', x', hx', hk⟩ | ⟨x', hx', hk⟩ | hrow
      · rcases mem_eraseIdx_or hm hm' with rfl | hm'
        · -- the message becomes a delivery
          obtain rfl := Option.some.inj (hx.symm.trans hx')
          refine Or.inr (Or.inl ⟨x, ?_, hk⟩)
          dsimp only
          rw [List.filterMap_append]
          exact List.mem_append_right _ (List.mem_singleton_self x)
        · exact Or.inl ⟨m', hm', x', hx', hk⟩
      · refine Or.inr (Or.inl ⟨x', ?_, hk⟩)
        dsimp only
        rw [List.filterMap_append]
        exact List.mem_append_left _ hx'
      · exact Or.inr (Or.inr hrow)
  | service se =>
    unfold State.step at hstep
    dsimp only at hstep
    split_ifs at hstep with hse
    obtain ⟨service, hservice, rfl⟩ := Option.map_eq_some_iff.mp hstep
    cases se with
    | tick d =>
      obtain rfl := Option.some.inj hservice
      exact h
    | arrive r =>
      obtain rfl := Option.some.inj hservice
      refine h.imp_right (Or.imp_left fun ⟨x, hx, hk⟩ => ⟨x, ?_, hk⟩)
      dsimp only
      rw [List.filterMap_append]
      exact List.mem_append_left _ hx
    | advance i o => exact h.advance hsafe hservice
  | loseRaw j => exact hsafe.elim
  | loseEnriched j => exact hsafe.elim

theorem receive_cases {j : ℕ} {r : Fin R} {clock : Int64} {delivery : Aggregator.Delivery}
    (hstep : s.step (.receive j r clock delivery) = some s') :
    ∃ m, s.raw[j]? = some m ∧ s' = { s with
      raw := s.raw.eraseIdx j
      replicas := Function.update s.replicas r
        (handle (s.replicas r) (unmarshalAlert m) clock delivery).1
      enriched := s.enriched ++
        (handle (s.replicas r) (unmarshalAlert m) clock delivery).2.sent.filterMap
          marshalAlert } := by
  obtain ⟨m, hm, rfl⟩ := Option.map_eq_some_iff.mp hstep
  exact ⟨m, hm, rfl⟩

/-- A replica takes the line of an alert: the key of the alert is heard then. -/
theorem heard_receive (h : s.Kept) (hsent : ∀ a, s.Sent a → Sendable a) {j : ℕ} {r : Fin R}
    {clock : Int64} (hstep : s.step (.receive j r clock .published) = some s')
    {m : List UInt8} (hm : s.raw[j]? = some m) {b : Aggregator.Alert}
    (hb : unmarshalAlert m = some b) (hmal : ¬ b.Malformed) : s'.Heard b.key := by
  by_cases hfresh : (s.replicas r).StartsFresh b clock
  · obtain ⟨a, ha, hline⟩ := h.raw m (List.mem_of_getElem? hm)
    obtain ⟨v, hv⟩ := (hsent a ha).value
    obtain rfl : b = received a := by
      rw [hline, unmarshalAlert_line hv] at hb
      split_ifs at hb
      exact (Option.some.inj hb).symm
    obtain ⟨out, hout, rfl⟩ := emitted_of_startsFresh hmal hfresh
    obtain ⟨body, x, hbody, hx, hinsertable, hkey⟩ :=
      exists_insertable (hsent a ha) hmal ((received a).time clock)
    obtain ⟨m', hm', rfl⟩ := receive_cases hstep
    obtain rfl := Option.some.inj (hm.symm.trans hm')
    refine Or.inl ⟨body, List.mem_append_right _ ?_, x, hx, hinsertable, hkey⟩
    rw [hb, hout]
    exact List.mem_filterMap.mpr ⟨_, List.mem_singleton_self _, hbody⟩
  · obtain ⟨st, hlive⟩ := Correlator.exists_live hfresh
    have hknown := h.incidents r b.key (by rw [hlive.1]; exact Option.some_ne_none st)
    exact hknown.step (e := .receive j r clock .published) rfl hstep

/-- A node makes a step. -/
theorem Kept.node (h : s.Kept) (hsent : ∀ a, s.Sent a → Sendable a) {i : ι} {ne : Node.Event}
    (hsafe : (s.nodes i).Attends ne) (hstep : s.step (.node i ne) = some s') : s'.Kept := by
  have hheard : ∀ k, s.Heard k → s'.Heard k := fun k hk =>
    hk.step (e := .node i ne) hsafe hstep
  have hold : ∀ m ∈ s.raw, ∃ a, s'.Sent a ∧ m = Soc.toJson a := fun m hm => by
    obtain ⟨a, ha, hline⟩ := h.raw m hm
    exact ⟨a, sent_mono hstep ha, hline⟩
  obtain ⟨n, hn, heq⟩ := Option.map_eq_some_iff.mp hstep
  have hnodes : s'.nodes = Function.update s.nodes i n := by rw [← heq]
  have hraw : s'.raw = s.raw ++ n.bridge.published.drop (s.nodes i).bridge.published.length := by
    rw [← heq]
  have hself : s'.nodes i = n := by rw [hnodes, Function.update_self]
  have hother : ∀ {j}, j ≠ i → s'.nodes j = s.nodes j := fun hj => by
    rw [hnodes, Function.update_of_ne hj]
  have hintact : n.Intact := (h.nodes i).step (fun a ha => hsent a ⟨i, ha⟩) hsafe hn
  have hunder : ∀ {m}, m ∈ s.raw → m ∈ s'.raw := fun hm => hraw ▸ List.mem_append_left _ hm
  refine ⟨fun j => ?_, fun m hm => ?_, fun j m hm => ?_, fun r k hk => hheard k ?_⟩
  · by_cases hj : j = i
    · rw [hj, hself]
      exact hintact
    · rw [hother hj]
      exact h.nodes j
  · rw [hraw] at hm
    rcases List.mem_append.mp hm with hm | hm
    · exact hold m hm
    · have hline := hintact.published_isPrefix.subset (List.mem_of_mem_drop hm)
      obtain ⟨a, ha, hline⟩ := List.mem_map.mp hline
      exact ⟨a, ⟨i, hself.symm ▸ ha⟩, hline.symm⟩
  · by_cases hj : j = i
    · rw [hj, hself] at hm
      rw [← List.take_append_drop (s.nodes i).bridge.published.length n.bridge.published] at hm
      rcases List.mem_append.mp hm with hm | hm
      · -- it has been published before
        obtain ⟨new, hnew⟩ := Node.published_isPrefix hn
        rw [← hnew, List.take_left] at hm
        exact (h.published i m hm).mono hunder hheard
      · exact Or.inl (hraw ▸ List.mem_append_right _ hm)
    · rw [hother hj] at hm
      exact (h.published j m hm).mono hunder hheard
  · refine h.incidents r k ?_
    rwa [← heq] at hk

/-- A replica takes a message. -/
theorem Kept.receive (h : s.Kept) (hsent : ∀ a, s.Sent a → Sendable a) {j : ℕ} {r : Fin R}
    {clock : Int64} (hstep : s.step (.receive j r clock .published) = some s') : s'.Kept := by
  have hheard : ∀ k, s.Heard k → s'.Heard k := fun k hk =>
    hk.step (e := .receive j r clock .published) rfl hstep
  have htaken : ∀ m, s.raw[j]? = some m → ∀ b, unmarshalAlert m = some b → ¬ b.Malformed →
      s'.Heard b.key := fun m hm b hb hmal => heard_receive h hsent hstep hm hb hmal
  obtain ⟨m, hm, heq⟩ := receive_cases hstep
  have hnodes : s'.nodes = s.nodes := by rw [heq]
  have hraw : s'.raw = s.raw.eraseIdx j := by rw [heq]
  have hreplicas : s'.replicas = Function.update s.replicas r
      (handle (s.replicas r) (unmarshalAlert m) clock .published).1 := by rw [heq]
  refine ⟨fun i => hnodes ▸ h.nodes i, fun m' hm' => ?_, fun i m' hm' => ?_, fun r' k hk => ?_⟩
  · obtain ⟨a, ⟨i, ha⟩, hline⟩ := h.raw m' (List.mem_of_mem_eraseIdx (hraw ▸ hm'))
    exact ⟨a, ⟨i, hnodes ▸ ha⟩, hline⟩
  · rw [hnodes] at hm'
    rcases h.published i m' hm' with hunder | hknown
    · rcases mem_eraseIdx_or hm hunder with rfl | hstays
      · exact Or.inr (htaken m' hm)
      · exact Or.inl (hraw ▸ hstays)
    · exact Or.inr fun b hb hmal => hheard _ (hknown b hb hmal)
  · by_cases hr : r' = r
    · rw [hreplicas, hr, Function.update_self] at hk
      cases hb : unmarshalAlert m with
      | none =>
        rw [hb] at hk
        exact hheard k (h.incidents r k hk)
      | some b =>
        rw [hb, Reporting.corr_handle] at hk
        rcases lookup_process hk with hbefore | ⟨rfl, hmal, -⟩
        · exact hheard k (h.incidents r k hbefore)
        · exact htaken m hm b hb hmal
    · rw [hreplicas, Function.update_of_ne hr] at hk
      exact hheard k (h.incidents r' k hk)

/-- **One step loses nothing.** -/
theorem Kept.step (h : s.Kept) (hsent : ∀ a, s.Sent a → Sendable a) (hsafe : s.Safe e)
    (hstep : s.step e = some s') : s'.Kept := by
  have hheard : ∀ k, s.Heard k → s'.Heard k := fun k hk => hk.step hsafe hstep
  cases e with
  | node i ne => exact h.node hsent hsafe hstep
  | receive j r clock delivery =>
    obtain rfl : delivery = .published := hsafe
    exact h.receive hsent hstep
  | evictExpired r clock =>
    obtain rfl := Option.some.inj hstep
    refine h.congr rfl rfl hheard fun r' k hk hnone => hk ?_
    dsimp only
    by_cases hr : r' = r
    · rw [hr] at hnone
      rw [hr, Function.update_self, Correlator.lookup_evictExpired, hnone]
      rfl
    · rw [Function.update_of_ne hr]
      exact hnone
  | deliver j =>
    obtain ⟨m, -, hread⟩ := Option.bind_eq_some_iff.mp hstep
    cases hx : unmarshalIncoming m with
    | none =>
      rw [hx] at hread
      obtain rfl := Option.some.inj hread
      exact h.congr rfl rfl hheard fun _ _ hk => hk
    | some x =>
      rw [hx] at hread
      obtain ⟨service, -, rfl⟩ := Option.map_eq_some_iff.mp hread
      exact h.congr rfl rfl hheard fun _ _ hk => hk
  | service se =>
    unfold State.step at hstep
    dsimp only at hstep
    split_ifs at hstep
    obtain ⟨service, -, rfl⟩ := Option.map_eq_some_iff.mp hstep
    exact h.congr rfl rfl hheard fun _ _ hk => hk
  | loseRaw j => exact hsafe.elim
  | loseEnriched j => exact hsafe.elim

/-! ## Runs -/

variable {events : List (Event ι R)} {window : Int64} {hwindow : 0 < window}

theorem kept_of_safeRun (hrun : SafeRun step Safe (start ι R window hwindow) events s)
    (hsent : ∀ a, s.Sent a → Sendable a) : s.Kept := by
  induction events using List.reverseRecOn generalizing s with
  | nil =>
    obtain rfl := Option.some.inj hrun.1
    exact kept_start window hwindow
  | append_singleton events e ih =>
    obtain ⟨s₁, hrun₁, hsafe, hstep⟩ := safeRun_concat.mp hrun
    have hsent₁ : ∀ a, s₁.Sent a → Sendable a := fun a ha => hsent a (sent_mono hstep ha)
    exact (ih hrun₁ hsent₁).step hsent₁ hsafe hstep

/-- Nothing is under way. -/
structure Quiet (s : State ι R) : Prop where
  nodes : ∀ i, (s.nodes i).Quiet
  raw : s.raw = []
  enriched : s.enriched = []
  upserted : s.service.handlers.filterMap Handler.awaiting = []

end State
end Cluster
