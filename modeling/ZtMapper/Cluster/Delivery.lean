/-
# The system delivers

In a run that loses nothing every alert with a type and a source has a row as soon as nothing is
under way (`incidents_of_sent`).  Such a run never gets stuck: where a bridge reads the end of its
pipeline's file, another alert can be sent, and there are steps that take it to the incidents
(`can_deliver`).
-/
import ZtMapper.Cluster.Lossless

open Aggregator AlertBridge IncidentService Lines Runs

namespace Cluster

namespace Node

variable {s : Node} {a : Soc.Alert}

/-- The bridge has read the file that the pipeline has open. -/
def AtTail (s : Node) : Prop :=
  ∃ f, s.bridge.writer = some f ∧ s.bridge.reader = .reading f (s.bridge.files f).length []

/-- An alert is sent, written, read and published. -/
def sending (a : Soc.Alert) : List Event :=
  [.send a, .write ((Soc.toJson a).length + 1), .other (.read ((Soc.toJson a).length + 1)),
    .other (.returnLine true)]

/-- The file and the bridge after some bytes have been written, and `pending` of them not
returned. -/
def tailed (b : Bridge) (f : ℕ) (bytes pending : List UInt8) (published : List (List UInt8)) :
    Bridge :=
  { b with
    files := Function.update b.files f (b.files f ++ bytes)
    reader := .reading f ((b.files f).length + bytes.length) pending
    published := published }

theorem step_send (hwriter : s.bridge.writer ≠ none) (hbuffer : s.buffer = []) :
    s.step (.send a) = some { s with
      sent := s.sent ++ [a], buffer := Soc.toJson a ++ [newline] } := by
  unfold step
  dsimp only
  rw [if_neg hwriter, hbuffer, List.nil_append]

/-- The whole buffer is written. -/
theorem step_write {f : ℕ} (hwriter : s.bridge.writer = some f) :
    s.step (.write s.buffer.length) = some { s with
      buffer := []
      bridge := { s.bridge with
        files := Function.update s.bridge.files f (s.bridge.files f ++ s.buffer) } } := by
  unfold step Bridge.step
  dsimp only
  rw [hwriter, List.take_length, List.drop_length]
  rfl

/-- All that has been written is read. -/
theorem read_tailed {b : Bridge} {f : ℕ} {bytes : List UInt8} (hne : bytes ≠ []) :
    Bridge.step { b with
        files := Function.update b.files f (b.files f ++ bytes)
        reader := .reading f (b.files f).length [] } (.read bytes.length) =
      some (tailed b f bytes bytes b.published) := by
  have hself : Function.update b.files f (b.files f ++ bytes) f = b.files f ++ bytes :=
    Function.update_self ..
  unfold Bridge.step tailed
  dsimp only
  rw [if_neg, hself, List.drop_left, List.take_length, if_neg hne]
  · rfl
  · rintro (hmem | hzero)
    · exact List.not_mem_nil hmem
    · exact hne (List.length_eq_zero_iff.mp hzero)

/-- The line of an alert is published. -/
theorem returnLine_tailed {b : Bridge} {f : ℕ} {line : List UInt8} (hnot : newline ∉ line)
    (halert : alerts [line] = [line]) (published : List (List UInt8)) :
    Bridge.step (tailed b f (line ++ [newline]) (line ++ [newline]) published) (.returnLine true) =
      some (tailed b f (line ++ [newline]) [] (published ++ [line])) := by
  have hall : ∀ c ∈ line, decide (c ≠ newline) = true := fun c hc =>
    decide_eq_true fun heq => hnot (heq ▸ hc)
  have htake : (line ++ [newline]).takeWhile (· ≠ newline) = line := by
    rw [List.takeWhile_append_of_pos hall]
    exact List.append_nil line
  have hdrop : (line ++ [newline]).dropWhile (· ≠ newline) = [newline] := by
    rw [List.dropWhile_append_of_pos hall]
    rfl
  unfold Bridge.step tailed
  dsimp only
  rw [if_pos (List.mem_append_right _ (List.mem_singleton_self newline)), htake, hdrop,
    handleLine_concat, halert]
  rfl

theorem step_other {e : AlertBridge.Event} {b : Bridge} (he : ofPipeline e = false)
    (hstep : s.bridge.step e = some b) : s.step (.other e) = some { s with bridge := b } := by
  unfold step
  dsimp only
  rw [if_neg (by rw [he]; exact Bool.false_ne_true), hstep]
  rfl

/-- A line of an alert is a message as it is. -/
theorem alerts_toJson (a : Soc.Alert) : AlertBridge.alerts [Soc.toJson a] = [Soc.toJson a] := by
  unfold AlertBridge.alerts isAlert
  rw [List.filter_singleton, head?_toJson, decide_eq_true rfl, cond_true, List.map_singleton,
    trim_suffix_toJson (List.nil_append _).symm]

/-- **A node publishes** what its pipeline sends when the bridge is at the end of the file. -/
theorem publishes (hbuffer : s.buffer = []) (htail : s.AtTail) (ha : Sendable a) :
    ∃ s', SafeRun step Attends s (sending a) s' ∧ s'.sent = s.sent ++ [a] ∧ s'.Quiet ∧ s'.AtTail ∧
      s'.bridge.published = s.bridge.published ++ [Soc.toJson a] := by
  obtain ⟨f, hwriter, hreader⟩ := htail
  obtain ⟨v, hv⟩ := ha.wellFormedLine
  obtain ⟨line, hline⟩ : ∃ line, line = Soc.toJson a := ⟨_, rfl⟩
  have hnot : newline ∉ line := hline ▸ hv.notMem
  have halert : AlertBridge.alerts [line] = [line] := hline ▸ alerts_toJson a
  have hne : line ++ [newline] ≠ [] := List.append_ne_nil_of_right_ne_nil _ (List.cons_ne_nil _ _)
  have hlength : (line ++ [newline]).length = line.length + 1 := List.length_append
  have hsend := step_send (a := a) (by rw [hwriter]; exact Option.some_ne_none f) hbuffer
  unfold sending
  rw [← hline] at hsend ⊢
  rw [← hlength]
  -- the pipeline sends and writes
  have hrun : SafeRun step Attends s [] s := safeRun_nil
  replace hrun := hrun.concat (.send a) trivial hsend
  replace hrun := hrun.concat (.write (line ++ [newline]).length)
    ⟨⟨line, [], rfl, hnot, hlength⟩, ⟨fun _ _ => ⟨f, hwriter, by rw [hreader]; rfl,
      by rw [hreader]; exact le_rfl⟩, fun h => (nomatch h), fun _ h => (nomatch h),
      fun h => (nomatch h), fun _ h => (nomatch h)⟩⟩ (step_write hwriter)
  -- the bridge reads and publishes
  replace hrun := hrun.concat (.other (.read (line ++ [newline]).length))
    (keeps_of_own (Or.inr (Or.inl ⟨_, rfl⟩))) (step_other rfl (by
      have hread := read_tailed (b := s.bridge) (f := f) hne
      rw [← hreader] at hread
      exact hread))
  replace hrun := hrun.concat (.other (.returnLine true))
    (keeps_of_own (Or.inr (Or.inr rfl))) (step_other rfl (returnLine_tailed hnot halert _))
  refine ⟨_, hrun, rfl, ⟨rfl, ?_, List.not_mem_nil⟩, ⟨f, hwriter, ?_⟩, rfl⟩
  · rw [Bridge.unread_of_inode (i := f) rfl]
    unfold tailed Reader.offset
    dsimp only
    rw [Function.update_self, ← List.length_append, List.drop_length]
  · refine congrArg (fun offset => Reader.reading f offset []) ?_
    unfold tailed
    dsimp only
    rw [Function.update_self]
    exact List.length_append.symm

/-- A pipeline starts, and the bridge opens its file. -/
def attaching : List Event := [.start, .other .openFile, .other .seekEnd]

theorem attaches : ∃ s : Node, SafeRun step Attends {} attaching s ∧ s.sent = [] ∧
    s.buffer = [] ∧ s.AtTail := by
  have hrun : SafeRun step Attends {} [] {} := safeRun_nil
  replace hrun := hrun.concat .start ⟨rfl, fun _ h => (nomatch h), fun _ _ => rfl,
    fun _ h => (nomatch h), fun h => (nomatch h), fun _ h => (nomatch h)⟩ rfl
  replace hrun := hrun.concat (.other .openFile) ⟨fun _ h => (nomatch h), fun h => (nomatch h),
    fun _ h => (nomatch h), fun h => (nomatch h), fun _ h => (nomatch h)⟩ rfl
  replace hrun := hrun.concat (.other .seekEnd) (keeps_of_own (Or.inl rfl)) rfl
  exact ⟨_, hrun, rfl, rfl, 0, rfl, rfl⟩

theorem along_whole_attaching (a : Soc.Alert) : Along Whole (attaching ++ sending a) := by
  refine along_whole_of_forall_ne fun e he heq => ?_
  subst heq
  unfold sending at he
  simp at he

end Node

/-! ## The system -/

namespace State

variable {ι : Type} [DecidableEq ι] {R : ℕ} {s s' : State ι R}

theorem step_node {i : ι} {e : Node.Event} {n : Node} (hstep : (s.nodes i).step e = some n) :
    s.step (.node i e) = some { s with
      nodes := Function.update s.nodes i n
      raw := s.raw ++ n.bridge.published.drop (s.nodes i).bridge.published.length } := by
  unfold step
  dsimp only
  rw [hstep]
  rfl

/-- A run of a node that loses no line is one of the system. -/
theorem safeRun_node {i : ι} {es : List Node.Event} {n : Node}
    (hrun : SafeRun Node.step Node.Attends (s.nodes i) es n) :
    (s.nodes i).bridge.published <+: n.bridge.published ∧
      SafeRun step Safe s (es.map (.node i)) { s with
        nodes := Function.update s.nodes i n
        raw := s.raw ++ n.bridge.published.drop (s.nodes i).bridge.published.length } := by
  induction es using List.reverseRecOn generalizing n with
  | nil =>
    obtain rfl := Option.some.inj hrun.1
    rw [Function.update_eq_self, List.drop_length, List.append_nil]
    exact ⟨List.prefix_rfl, safeRun_nil⟩
  | append_singleton es e ih =>
    obtain ⟨m, hm, hattends, hstep⟩ := safeRun_concat.mp hrun
    obtain ⟨⟨new, hnew⟩, hpre⟩ := ih hm
    obtain ⟨new', hnew'⟩ := Node.published_isPrefix hstep
    have hself : Function.update s.nodes i m i = m := Function.update_self ..
    have hlast := hpre.concat (.node i e) (by unfold Safe; dsimp only; rwa [hself])
      (step_node (by dsimp only; rw [hself]; exact hstep))
    dsimp only at hlast
    rw [hself, Function.update_idem] at hlast
    rw [List.map_append]
    refine ⟨⟨new ++ new', by rw [← List.append_assoc, hnew, hnew']⟩, ?_⟩
    have hdrop : n.bridge.published.drop (s.nodes i).bridge.published.length =
        m.bridge.published.drop (s.nodes i).bridge.published.length ++
          n.bridge.published.drop m.bridge.published.length := by
      rw [← hnew', ← hnew, List.drop_left, List.drop_left, List.append_assoc, List.drop_left]
    rw [hdrop, ← List.append_assoc]
    exact hlast

/-- Element `i` is no longer listed. -/
theorem length_filterMap_set {β γ : Type} {l : List β} {f : β → Option γ} {i : ℕ} {b b' : β}
    {c : γ} (hget : l[i]? = some b) (hb : f b = some c) (hb' : f b' = none) :
    ((l.set i b').filterMap f).length + 1 = (l.filterMap f).length := by
  induction l generalizing i with
  | nil => cases hget
  | cons d l ih =>
    cases i with
    | zero =>
      obtain rfl := Option.some.inj hget
      rw [List.set_cons_zero, List.filterMap_cons_none hb', List.filterMap_cons_some hb]
      rfl
    | succ i =>
      rw [List.set_cons_succ, List.filterMap_cons, List.filterMap_cons]
      cases f d with
      | none => exact ih hget
      | some c' => exact congrArg (· + 1) (ih hget)

/-- A delivery that awaits its upsert can go on. -/
theorem exists_step_of_awaiting {h : Handler} {x : IncomingAlert} (hx : h.awaiting = some x)
    (db : Db) (now : Time) (o : Outcome) : ∃ db' h' calls, h.step db now o = some (db', h', calls) := by
  unfold Handler.awaiting at hx
  split at hx
  · unfold Handler.step Deliver.step
    dsimp only
    cases db.upsertIncident _ now with
    | none => exact ⟨_, _, _, rfl⟩
    | some r => exact ⟨_, _, _, rfl⟩
  · cases hx

/-- The upserts that are awaited can be made. -/
theorem exists_upserted (s : State ι R) : ∃ es s', SafeRun step Safe s es s' ∧
    (∀ i, eventsOf i es = []) ∧ s'.nodes = s.nodes ∧ s'.raw = s.raw ∧ s'.enriched = s.enriched ∧
    s'.service.handlers.filterMap Handler.awaiting = [] := by
  generalize hn : (s.service.handlers.filterMap Handler.awaiting).length = n
  induction n generalizing s with
  | zero => exact ⟨[], s, safeRun_nil, fun _ => rfl, rfl, rfl, rfl, List.length_eq_zero_iff.mp hn⟩
  | succ n ih =>
    obtain ⟨x, hx⟩ := List.exists_mem_of_length_pos (Nat.lt_of_lt_of_eq (Nat.succ_pos n) hn.symm)
    obtain ⟨h, hmem, hawaiting⟩ := List.mem_filterMap.mp hx
    obtain ⟨i, hget⟩ := List.getElem?_of_mem hmem
    obtain ⟨db, h', calls, hstep⟩ := exists_step_of_awaiting hawaiting s.service.db s.service.now {}
    have hservice : s.service.step (.advance i {}) = some (s.service.advanced i db h' calls) := by
      unfold IncidentService.Service.step
      dsimp only
      rw [hget, Option.bind_some, hstep]
      rfl
    have hone : s.step (.service (.advance i {})) =
        some { s with service := s.service.advanced i db h' calls } := by
      have hnot : ¬ isDelivery (.advance i {}) = true := Bool.false_ne_true
      unfold step
      dsimp only
      rw [if_neg hnot, hservice]
      rfl
    have hless := length_filterMap_set hget hawaiting (awaiting_of_step hstep)
    obtain ⟨es, s', hrun, hrest⟩ := ih { s with service := s.service.advanced i db h' calls } (by
      unfold Service.advanced
      dsimp only
      omega)
    have hsafe : s.Safe (.service (.advance i {})) := fun _ _ _ heq => nomatch heq
    have hfirst : SafeRun step Safe s [.service (.advance i {})] _ :=
      safeRun_nil.concat _ hsafe hone
    exact ⟨_, s', hfirst.append hrun, hrest⟩

/-- The messages to the incident service can be delivered. -/
theorem exists_delivered (s : State ι R) : ∃ es s', SafeRun step Safe s es s' ∧
    (∀ i, eventsOf i es = []) ∧ s'.nodes = s.nodes ∧ s'.raw = s.raw ∧ s'.enriched = [] := by
  generalize hn : s.enriched = ms
  induction ms generalizing s with
  | nil => exact ⟨[], s, safeRun_nil, fun _ => rfl, rfl, rfl, hn⟩
  | cons m ms ih =>
    have hget : s.enriched[0]? = some m := by rw [hn]; rfl
    have hrest : s.enriched.eraseIdx 0 = ms := by rw [hn]; rfl
    obtain ⟨s₁, hstep, hnodes, hraw, henriched⟩ : ∃ s₁, s.step (.deliver 0) = some s₁ ∧
        s₁.nodes = s.nodes ∧ s₁.raw = s.raw ∧ s₁.enriched = ms := by
      unfold step
      dsimp only
      rw [hget, Option.bind_some]
      cases unmarshalIncoming m with
      | none => exact ⟨_, rfl, rfl, rfl, hrest⟩
      | some x => exact ⟨_, rfl, rfl, rfl, hrest⟩
    obtain ⟨es, s', hrun, hevents, hnodes', hraw', hempty⟩ := ih s₁ henriched
    have hfirst : SafeRun step Safe s [.deliver 0] s₁ := safeRun_nil.concat _ trivial hstep
    exact ⟨_, s', hfirst.append hrun, hevents, hnodes'.trans hnodes, hraw'.trans hraw, hempty⟩

/-- The messages of the nodes can be taken by a replica. -/
theorem exists_received (s : State ι R) (r : Fin R) : ∃ es s', SafeRun step Safe s es s' ∧
    (∀ i, eventsOf i es = []) ∧ s'.nodes = s.nodes ∧ s'.raw = [] := by
  generalize hn : s.raw = ms
  induction ms generalizing s with
  | nil => exact ⟨[], s, safeRun_nil, fun _ => rfl, rfl, hn⟩
  | cons m ms ih =>
    have hget : s.raw[0]? = some m := by rw [hn]; rfl
    have hrest : s.raw.eraseIdx 0 = ms := by rw [hn]; rfl
    obtain ⟨s₁, hstep, hnodes, hraw⟩ : ∃ s₁, s.step (.receive 0 r 0 .published) = some s₁ ∧
        s₁.nodes = s.nodes ∧ s₁.raw = ms := by
      unfold step
      dsimp only
      rw [hget]
      exact ⟨_, rfl, rfl, hrest⟩
    obtain ⟨es, s', hrun, hevents, hnodes', hempty⟩ := ih s₁ hraw
    have hsafe : s.Safe (.receive 0 r 0 .published) := rfl
    have hfirst : SafeRun step Safe s [.receive 0 r 0 .published] s₁ :=
      safeRun_nil.concat _ hsafe hstep
    exact ⟨_, s', hfirst.append hrun, hevents, hnodes'.trans hnodes, hempty⟩

/-- What is behind the nodes can be drained without a loss. -/
theorem exists_drained (s : State ι R) (r : Fin R) : ∃ es s', SafeRun step Safe s es s' ∧
    (∀ i, eventsOf i es = []) ∧ s'.nodes = s.nodes ∧ s'.raw = [] ∧ s'.enriched = [] ∧
    s'.service.handlers.filterMap Handler.awaiting = [] := by
  obtain ⟨es₁, s₁, hrun₁, hevents₁, hnodes₁, hraw₁⟩ := exists_received s r
  obtain ⟨es₂, s₂, hrun₂, hevents₂, hnodes₂, hraw₂, henriched₂⟩ := exists_delivered s₁
  obtain ⟨es₃, s₃, hrun₃, hevents₃, hnodes₃, hraw₃, henriched₃, hupserted₃⟩ := exists_upserted s₂
  refine ⟨_, s₃, (hrun₁.append hrun₂).append hrun₃, fun i => ?_,
    hnodes₃.trans (hnodes₂.trans hnodes₁), hraw₃.trans (hraw₂.trans hraw₁),
    henriched₃.trans henriched₂, hupserted₃⟩
  rw [eventsOf_append, eventsOf_append, hevents₁, hevents₂, hevents₃]
  rfl

variable {events : List (Event ι R)} {window : Int64} {hwindow : 0 < window} {i : ι}
  {a : Soc.Alert}

/-- What a node publishes can be taken to the incidents, and all other messages with it. -/
theorem exists_delivery (hrun : SafeRun step Safe (start ι R window hwindow) events s)
    (hsent : ∀ b, s.Sent b → Sendable b) (hbuffer : (s.nodes i).buffer = [])
    (htail : (s.nodes i).AtTail) (r : Fin R) (ha : Sendable a) (hfits : TimeFits a)
    (htype : a.type ≠ "") (hsource : a.source ≠ "") :
    ∃ n es s', SafeRun step Safe s (((Node.sending a).map (.node i)) ++ es) s' ∧
      (∀ j, eventsOf j es = []) ∧ s'.nodes = Function.update s.nodes i n ∧
      n.sent = (s.nodes i).sent ++ [a] ∧ n.Quiet ∧ n.AtTail ∧ s'.raw = [] ∧ s'.enriched = [] ∧
      s'.service.handlers.filterMap Handler.awaiting = [] ∧ s'.service.db.Has (key a) := by
  obtain ⟨n, hn, hgrown, hquiet, htail', hpublished⟩ := Node.publishes hbuffer htail ha
  obtain ⟨-, hsend⟩ := safeRun_node hn
  obtain ⟨es, s', hdrain, hevents, hnodes, hraw, henriched, hupserted⟩ := exists_drained { s with
    nodes := Function.update s.nodes i n
    raw := s.raw ++ n.bridge.published.drop (s.nodes i).bridge.published.length } r
  have hself : s'.nodes i = n := by
    rw [hnodes]
    exact Function.update_self ..
  have hall : ∀ b, s'.Sent b → Sendable b := by
    rintro b ⟨j, hb⟩
    by_cases hj : j = i
    · rw [hj, hself, hgrown] at hb
      rcases List.mem_append.mp hb with hb | hb
      · exact hsent b ⟨i, hb⟩
      · rwa [List.mem_singleton.mp hb]
    · rw [hnodes] at hb
      dsimp only at hb
      rw [Function.update_of_ne hj] at hb
      exact hsent b ⟨j, hb⟩
  have hkept : s'.Kept := kept_of_safeRun (hrun.append (hsend.append hdrain)) hall
  obtain ⟨v, hv⟩ := ha.value
  have hread : unmarshalAlert (Soc.toJson a) = some (received a) := by
    rw [unmarshalAlert_line hv, if_pos hfits]
  have hmem : Soc.toJson a ∈ (s'.nodes i).bridge.published := by
    rw [hself, hpublished]
    exact List.mem_append_right _ (List.mem_singleton_self _)
  exact ⟨n, es, s', hsend.append hdrain, hevents, hnodes, hgrown, hquiet, htail', hraw, henriched,
    hupserted, hkept.has_of_published hmem hread (not_or.mpr ⟨hsource, htype⟩) hraw henriched
      hupserted⟩

/-! ## One node -/

/-- The only node has attached its bridge. -/
theorem exists_attached : ∃ s : State Unit 1, SafeRun step Safe (start Unit 1 60 (by decide))
    (Node.attaching.map (.node ())) s ∧ (s.nodes ()).sent = [] ∧ (s.nodes ()).buffer = [] ∧
      (s.nodes ()).AtTail := by
  obtain ⟨n, hn, hnone, hbuffer, htail⟩ := Node.attaches
  let s₀ : State Unit 1 := start Unit 1 60 (by decide)
  have hnode : SafeRun Node.step Node.Attends (s₀.nodes ()) Node.attaching n := hn
  have hself : Function.update s₀.nodes () n () = n := Function.update_self ..
  exact ⟨_, (safeRun_node hnode).2, hself.symm ▸ hnone, hself.symm ▸ hbuffer, hself.symm ▸ htail⟩

/-- One node and one replica deliver an alert. -/
theorem exists_first (ha : Sendable a) (hfits : TimeFits a) (htype : a.type ≠ "")
    (hsource : a.source ≠ "") : ∃ (events : List (Event Unit 1)) (s : State Unit 1),
      SafeRun step Safe (start Unit 1 60 (by decide)) events s ∧
      (∀ i, Along Node.Whole (eventsOf i events)) ∧ (∀ b, s.Sent b ↔ b = a) ∧ s.Quiet ∧
      s.service.db.Has (key a) := by
  obtain ⟨s₀, hrun, hnone, hbuffer, htail⟩ := exists_attached
  obtain ⟨n, es, s, hrun', hevents, hnodes, hgrown, hquiet, -, hraw, henriched, hupserted, hrow⟩ :=
    exists_delivery hrun (fun b ⟨i, hb⟩ => absurd (hnone ▸ hb) List.not_mem_nil) hbuffer htail 0
      ha hfits htype hsource
  have hself : s.nodes () = n := by
    rw [hnodes]
    exact Function.update_self ..
  have hone : (s.nodes ()).sent = [a] := by rw [hself, hgrown, hnone, List.nil_append]
  refine ⟨_, s, hrun.append hrun', fun i => ?_, fun b => ?_,
    ⟨fun _ => hself.symm ▸ hquiet, hraw, henriched, hupserted⟩, hrow⟩
  · rw [eventsOf_append, eventsOf_append, hevents, eventsOf_map_node, eventsOf_map_node,
      List.append_nil]
    exact Node.along_whole_attaching a
  · constructor
    · rintro ⟨i, hb⟩
      exact List.mem_singleton.mp (hone ▸ hb)
    · rintro rfl
      exact ⟨(), hone.symm ▸ List.mem_singleton_self b⟩

/-! ## The theorems -/

/-- **Nothing is lost.**  In a run that loses no line, no message and no upsert, every alert with
a type and a source whose time has 63 bits has a row of its key when nothing is under way,
whatever the interleaving and whatever the correlators have suppressed or evicted. -/
theorem incidents_of_sent (hrun : SafeRun step Safe (start ι R window hwindow) events s)
    (hsent : ∀ a, s.Sent a → Sendable a) (hquiet : s.Quiet) :
    ∀ a, s.Sent a → TimeFits a → a.type ≠ "" → a.source ≠ "" →
      ∃ row ∈ s.service.db.incidents, row.incidentKey = key a := by
  have hkept := kept_of_safeRun hrun hsent
  intro a ha hfits htype hsource
  obtain ⟨i, hi⟩ := ha
  obtain ⟨v, hv⟩ := (hsent a ⟨i, hi⟩).value
  have hpublished : Soc.toJson a ∈ (s.nodes i).bridge.published := by
    rw [(hkept.nodes i).published_eq (hquiet.nodes i)]
    exact List.mem_map_of_mem hi
  have hread : unmarshalAlert (Soc.toJson a) = some (received a) := by
    rw [unmarshalAlert_line hv, if_pos hfits]
  exact hkept.has_of_published hpublished hread (not_or.mpr ⟨hsource, htype⟩) hquiet.raw
    hquiet.enriched hquiet.upserted

theorem incidents_of_sent_first :
    let a : Soc.Alert :=
      { type := "scan", source := "10.0.0.1", details := "", timestampNs := 5, severity := .high,
        tags := [], nodeName := "n1", namespace_ := "" }
    ∃ (events : List (Event Unit 1)) (s : State Unit 1),
      SafeRun step Safe (start Unit 1 60 (by decide)) events s ∧ s.Sent a ∧ s.Quiet ∧
      ∃ row ∈ s.service.db.incidents, row.incidentKey = "scan|10.0.0.1" := by
  intro a
  have ha : Sendable a := sendable_of_details rfl
  obtain ⟨events, s, hrun, -, hall, hquiet, -⟩ :=
    exists_first ha (by decide) (by decide) (by decide)
  have hsent : s.Sent a := (hall a).mpr rfl
  exact ⟨events, s, hrun, hsent, hquiet, incidents_of_sent hrun
    (fun b hb => (hall b).mp hb ▸ ha) hquiet a hsent (by decide) (by decide) (by decide)⟩

/-- **The system delivers.**  After every run that loses nothing, a pipeline that has written
everything and whose bridge is at the end of its file can send another alert with a type and a
source, and there are steps that lose nothing until the alert has a row; and the bridge is at
the end of the file again. -/
theorem can_deliver (hrun : SafeRun step Safe (start ι R window hwindow) events s)
    (hsent : ∀ b, s.Sent b → Sendable b) (hbuffer : (s.nodes i).buffer = [])
    (htail : (s.nodes i).AtTail) (r : Fin R) (ha : Sendable a) (hfits : TimeFits a)
    (htype : a.type ≠ "") (hsource : a.source ≠ "") :
    ∃ es s', SafeRun step Safe s es s' ∧ (s'.nodes i).sent = (s.nodes i).sent ++ [a] ∧
      (s'.nodes i).buffer = [] ∧ (s'.nodes i).AtTail ∧
      ∃ row ∈ s'.service.db.incidents, row.incidentKey = key a := by
  obtain ⟨n, es, s', hrun', -, hnodes, hgrown, hquiet, htail', -, -, -, hrow⟩ :=
    exists_delivery hrun hsent hbuffer htail r ha hfits htype hsource
  have hself : s'.nodes i = n := by
    rw [hnodes]
    exact Function.update_self ..
  rw [← hself] at hgrown hquiet htail'
  exact ⟨_, s', hrun', hgrown, hquiet.buffer, htail', hrow⟩

/-- The first alert of a pipeline whose bridge has attached. -/
theorem can_deliver_first :
    let a : Soc.Alert :=
      { type := "scan", source := "10.0.0.1", details := "", timestampNs := 5, severity := .high,
        tags := [], nodeName := "n1", namespace_ := "" }
    ∃ (s : State Unit 1) (es : List (Event Unit 1)) (s' : State Unit 1),
      SafeRun step Safe (start Unit 1 60 (by decide)) (Node.attaching.map (.node ())) s ∧
      SafeRun step Safe s es s' ∧ ∃ row ∈ s'.service.db.incidents, row.incidentKey = key a := by
  intro a
  obtain ⟨s, hrun, hnone, hbuffer, htail⟩ := exists_attached
  obtain ⟨es, s', hrun', -, -, -, hrow⟩ := can_deliver hrun
    (fun b ⟨i, hb⟩ => absurd (hnone ▸ hb) List.not_mem_nil) hbuffer htail 0
    (sendable_of_details (a := a) rfl) (by decide) (by decide) (by decide)
  exact ⟨s, es, s', hrun, hrun', hrow⟩

end State
end Cluster
