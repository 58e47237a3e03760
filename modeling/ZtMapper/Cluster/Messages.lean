/-
# The messages of a node

Whatever the interleaving of a node's pipelines, its bridge and the rotations of its file, the
messages that are JSON texts are lines of alerts, each at most once and in their order
(`published_sublist`): an end of such a line is never a JSON text, since the braces of it do
not match.
-/
import ZtMapper.Aggregator.Wire
import ZtMapper.Cluster.Node

open AlertBridge Json Lines Runs

namespace Cluster

/-- The details of the alert are a JSON value without a line break. -/
structure Sendable (a : Soc.Alert) : Prop where
  notMem : newline ∉ Soc.bytes a.details
  value : ∃ v, Denotes .value (Aggregator.detailsText a.details).toList v

variable {a : Soc.Alert}

theorem Sendable.wellFormedLine (h : Sendable a) : ∃ v, Viz.WellFormedLine a v := by
  obtain ⟨v, hv⟩ := h.value
  by_cases hempty : a.details = ""
  · exact ⟨_, Viz.wellFormedLine_of_details h.notMem (Or.inl ⟨hempty, rfl⟩)⟩
  · rw [Aggregator.detailsText, if_neg hempty] at hv
    exact ⟨_, Viz.wellFormedLine_of_details h.notMem (Or.inr ⟨hempty, hv.isText⟩)⟩

/-- Empty details are written as an empty object. -/
theorem sendable_of_details (h : a.details = "") : Sendable a := by
  have hempty : Denotes .value ['\x7b', '\x7d'] (.obj []) := .emptyObject blank_nil
  refine ⟨?_, .obj [], ?_⟩
  · rw [h]
    exact List.not_mem_nil
  · rw [Aggregator.detailsText, if_pos h]
    exact hempty

/-- The message is a JSON text. -/
def isText (m : List UInt8) : Bool := (decodeBytes m).isSome

/-- A line ends with a brace, which is no line break. -/
theorem trim_suffix_toJson {w t : List UInt8} (h : Soc.toJson a = w ++ t) :
    trimTrailingNewline t = t := by
  obtain ⟨s, hs⟩ : ∃ s, Soc.toJson a = s ++ [125] := by
    obtain ⟨t, ht⟩ := Viz.braced_text a
    refine ⟨utf8 ('\x7b' :: t), ?_⟩
    rw [Viz.toJson_eq_text, ht, ← List.cons_append, utf8_append]
    rfl
  refine List.rdropWhile_eq_self_iff.mpr fun hne hlast => ?_
  have hend : t.getLast hne = 125 := by
    have hsame := h.symm.trans hs
    have hopt : t.getLast? = some 125 := by
      have hlast? := congrArg List.getLast? hsame
      rwa [List.getLast?_concat, List.getLast?_append_of_ne_nil _ hne] at hlast?
    rw [List.getLast?_eq_some_getLast hne] at hopt
    exact Option.some.inj hopt
  rw [hend] at hlast
  exact absurd hlast (by decide)

theorem Sendable.recognised (h : Sendable a) : Node.Recognised isText (Soc.toJson a) := by
  obtain ⟨v, hline⟩ := h.wellFormedLine
  refine ⟨hline.notMem, trim_suffix_toJson (List.nil_append _).symm, fun w t hw heq m hm => ?_⟩
  unfold alerts at hm
  obtain ⟨l, hl, rfl⟩ := List.mem_map.mp hm
  obtain ⟨hl, hbrace⟩ := List.mem_filter.mp hl
  obtain rfl := List.mem_singleton.mp hl
  rw [trim_suffix_toJson heq]
  obtain ⟨y, rfl⟩ := List.head?_eq_some_iff.mp (of_decide_eq_true hbrace)
  obtain ⟨t, ht⟩ := Viz.braced_text a
  have htext : IsText (Viz.text a) v := decode_eq_some_iff.mp hline.decode
  rw [ht] at htext
  rw [Viz.toJson_eq_text, ht] at heq
  have hnone : decodeBytes (brace :: y) = none := htext.decodeBytes_suffix hw heq
  rw [isText, hnone]
  rfl

namespace Node

variable {s s' : Node} {e : Event} {events : List Event}

/-- Only a pipeline that sends adds an alert. -/
theorem sent_step (hstep : s.step e = some s') :
    s'.sent = s.sent ∨ ∃ a, e = .send a ∧ s'.sent = s.sent ++ [a] := by
  cases e with
  | start | write =>
    obtain ⟨b, -, rfl⟩ := Option.map_eq_some_iff.mp hstep
    exact Or.inl rfl
  | send a =>
    unfold step at hstep
    dsimp only at hstep
    split_ifs at hstep
    obtain rfl := Option.some.inj hstep
    exact Or.inr ⟨a, rfl, rfl⟩
  | other e =>
    unfold step at hstep
    dsimp only at hstep
    split_ifs at hstep
    obtain ⟨b, -, rfl⟩ := Option.map_eq_some_iff.mp hstep
    exact Or.inl rfl

/-- The alerts that a node has sent are sendable. -/
def AllSendable (s : Node) : Prop := ∀ a ∈ s.sent, Sendable a

theorem AllSendable.recognised (h : s.AllSendable) : ∀ l ∈ s.lines, Recognised isText l :=
  List.forall_mem_map.mpr fun a ha => (h a ha).recognised

/-- What a node has sent at the end of a step, it had sent before or sends in the step. -/
theorem AllSendable.of_step (h : s'.AllSendable) (hstep : s.step e = some s') : s.AllSendable := by
  intro a ha
  rcases sent_step hstep with hsent | ⟨b, -, hsent⟩
  · exact h a (hsent ▸ ha)
  · exact h a (hsent ▸ List.mem_append_left _ ha)

theorem tracked_of_reach (hrun : reach step {} events = some s) (hwhole : Along Whole events)
    (hsent : s.AllSendable) : s.Tracked isText := by
  induction events using List.reverseRecOn generalizing s with
  | nil =>
    obtain rfl := Option.some.inj hrun
    exact tracked_start
  | append_singleton events e ih =>
    obtain ⟨s₁, hrun₁, hstep⟩ := reach_concat_eq_some.mp hrun
    obtain ⟨hwhole₁, he⟩ := along_concat.mp hwhole
    have hsent₁ := hsent.of_step hstep
    exact (ih hrun₁ hwhole₁ hsent₁).step hsent₁.recognised (fun heq => he heq s₁ hrun₁) hstep

/-- What the aggregator can read is a JSON text. -/
theorem isText_of_unmarshalAlert {m : List UInt8} {b : Aggregator.Alert}
    (h : Aggregator.unmarshalAlert m = some b) : isText m = true := by
  unfold Aggregator.unmarshalAlert at h
  obtain ⟨t, ht, hread⟩ := Option.bind_eq_some_iff.mp h
  unfold isText decodeBytes
  rw [ht]
  unfold unmarshal at hread
  cases hdecode : decode t.toList with
  | none =>
    rw [hdecode] at hread
    cases hread
  | some v =>
    rw [Option.bind_eq_bind, Option.bind_some, hdecode]
    rfl

/-- What the aggregator makes of the lines of some alerts. -/
theorem filterMap_lines {as : List Soc.Alert} (h : ∀ a ∈ as, Sendable a) :
    (as.map Soc.toJson).filterMap Aggregator.unmarshalAlert =
      (as.filter fun a => Aggregator.TimeFits a).map Aggregator.received := by
  induction as with
  | nil => rfl
  | cons a as ih =>
    rw [List.forall_mem_cons] at h
    obtain ⟨v, hv⟩ := h.1.value
    rw [List.map_cons, List.filterMap_cons, Aggregator.unmarshalAlert_line hv, ih h.2,
      List.filter_cons]
    split_ifs <;> simp_all

/-- What is read from the messages is what is read from those that are JSON texts. -/
theorem read_sublist (htracked : s.Tracked isText) (hsent : s.AllSendable) :
    (s.bridge.published.filterMap Aggregator.unmarshalAlert).Sublist
      ((s.sent.filter fun a => Aggregator.TimeFits a).map Aggregator.received) := by
  obtain ⟨runs, -, hbehind⟩ := htracked
  have hread : s.bridge.published.filterMap Aggregator.unmarshalAlert =
      (s.bridge.published.filter isText).filterMap Aggregator.unmarshalAlert := by
    rw [List.filterMap_filter]
    refine List.filterMap_congr fun m _ => ?_
    cases hm : Aggregator.unmarshalAlert m with
    | none => exact (ite_self _).symm
    | some b => rw [if_pos (isText_of_unmarshalAlert hm)]
  rw [hread, ← filterMap_lines hsent]
  exact hbehind.lines.filterMap _

/-- **The messages of a node.**  The messages that are JSON texts are lines of the alerts that
the pipelines of the node have sent, each at most once and in their order; and the aggregator
reads from the messages nothing but the fields of such alerts. -/
theorem published_sublist (hrun : reach step {} events = some s) (hwhole : Along Whole events)
    (hsent : ∀ a ∈ s.sent, Sendable a) :
    (s.bridge.published.filter isText).Sublist (s.sent.map Soc.toJson) ∧
      (s.bridge.published.filterMap Aggregator.unmarshalAlert).Sublist
        ((s.sent.filter fun a => Aggregator.TimeFits a).map Aggregator.received) := by
  have htracked := tracked_of_reach hrun hwhole hsent
  refine ⟨?_, read_sublist htracked hsent⟩
  obtain ⟨runs, -, hbehind⟩ := htracked
  exact hbehind.lines

/-- The bridge attaches in the middle of a line, where the details begin, and publishes the end of
the line, which is no JSON text; then it publishes the second alert. -/
theorem published_sublist_cut :
    let a : Soc.Alert :=
      { type := "scan", source := "10.0.0.1", details := "\x7b\"freq\":42\x7d", timestampNs := 5,
        severity := .high, tags := [], nodeName := "n1", namespace_ := "" }
    let events : List Event :=
      [.start, .send a, .write 112, .other .openFile, .other .seekEnd, .write 4096,
        .other (.read 4096), .other (.returnLine true), .send a, .write 4096,
        .other (.read 4096), .other (.returnLine true)]
    ∃ s, reach step {} events = some s ∧
      s.bridge.published = [(Soc.toJson a).drop 112, Soc.toJson a] ∧
      (s.bridge.published.filter isText).Sublist [Soc.toJson a, Soc.toJson a] := by
  intro a events
  have hrun : (reach step {} events).map (fun s => (s.sent, s.bridge.published)) =
      some ([a, a], [(Soc.toJson a).drop 112, Soc.toJson a]) := by
    decide +kernel
  obtain ⟨s, hs, hresult⟩ := Option.map_eq_some_iff.mp hrun
  obtain ⟨hsent, hpublished⟩ := Prod.mk.inj hresult
  have hsendable : ∀ b ∈ s.sent, Sendable b := by
    intro b hb
    obtain rfl : b = a := by simpa [hsent] using hb
    have hmembers : ∀ i ∈ [("freq", intText 42, Value.num 42 0)], IsMember i.1 i.2.1 i.2.2 := by
      intro i hi
      obtain rfl := List.mem_singleton.mp hi
      exact ⟨rfl, denotes_intText 42⟩
    have hdetails : (Aggregator.detailsText a.details).toList =
        printObject [("freq", intText 42)] := by
      decide
    refine ⟨by decide, .obj [("freq", .num 42 0)], ?_⟩
    rw [hdetails]
    exact denotes_printObject hmembers
  have hsub := (published_sublist hs (along_whole_of_forall_ne (by simp)) hsendable).1
  rw [hsent] at hsub
  exact ⟨s, hs, hpublished, hsub⟩

end Node

end Cluster
