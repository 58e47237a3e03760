/-
# Lifetimes of incidents

A lifetime of a key goes from a fresh start of its `IncidentState` to the next
fresh start or eviction.  `Traced` carries along a run, beside the correlator, the
alerts of the current lifetime of every key; `Records` says what an
`IncidentState` keeps of them, and `process_reads_lifetime` what `Process` replies.
-/
import ZtMapper.Aggregator.Correlator

open Unordered

namespace Aggregator

/-- An alert and its time. -/
abbrev Entry := Alert × Int64

/-- The distinct node names of some alerts, without the empty name. -/
def nodesOf (life : List Entry) : Finset String := (life.map fun e => e.1.nodeName).toFinset.erase ""

/-- The nodes of a lifetime grow by that of its new alert. -/
theorem nodesOf_append (life : List Entry) (e : Entry) :
    nodesOf (life ++ [e]) = recordNode (nodesOf life) e.1.nodeName := by
  unfold nodesOf recordNode
  rw [List.map_append, List.map_singleton, List.toFinset_append]
  split_ifs with h
  · ext n
    simp only [Finset.mem_erase, Finset.mem_union, List.mem_toFinset, List.mem_singleton]
    constructor
    · rintro ⟨hne, hn | hn⟩
      · exact ⟨hne, hn⟩
      · exact absurd (hn.trans h) hne
    · exact fun ⟨hne, hn⟩ => ⟨hne, Or.inl hn⟩
  · ext n
    simp only [Finset.mem_erase, Finset.mem_union, List.mem_toFinset, List.mem_singleton,
      Finset.mem_insert]
    constructor
    · rintro ⟨hne, hn | hn⟩
      · exact Or.inr ⟨hne, hn⟩
      · exact Or.inl hn
    · rintro (rfl | ⟨hne, hn⟩)
      · exact ⟨h, Or.inr rfl⟩
      · exact ⟨hne, Or.inl hn⟩

/-- The nodes of a lifetime only grow. -/
theorem card_nodesOf_le (life : List Entry) (e : Entry) :
    (nodesOf life).card ≤ (nodesOf (life ++ [e])).card := by
  rw [nodesOf_append, recordNode]
  split_ifs
  · exact le_rfl
  · exact Finset.card_le_card (Finset.subset_insert _ _)

/-- The last alert is the one that makes the number of nodes reach two. -/
def Crosses (life : List Entry) : Prop :=
  (nodesOf life.dropLast).card < 2 ∧ 2 ≤ (nodesOf life).card

instance (life : List Entry) : Decidable (Crosses life) := inferInstanceAs (Decidable (_ ∧ _))

/-! ## The alerts of the current lifetimes -/

/-- A correlator, and the alerts of the current lifetime of every key. -/
structure Traced where
  corr : Correlator
  life : String → List Entry

namespace Traced

/-- One operation. -/
def step (t : Traced) : Op → Traced
  | .process a clock =>
    { corr := (t.corr.process a clock).1
      life :=
        if a.Malformed then t.life
        else Function.update t.life a.key
          (if t.corr.StartsFresh a clock then [(a, a.time clock)]
            else t.life a.key ++ [(a, a.time clock)]) }
  | .evictExpired clock =>
    { corr := t.corr.evictExpired clock
      life := fun key =>
        if ((t.corr.evictExpired clock).incidents.lookup key).isSome then t.life key else [] }

def run (t : Traced) (ops : List Op) : Traced := ops.foldl step t

/-- An alert without a type or a source leaves everything as it is. -/
theorem step_malformed (t : Traced) {a : Alert} (h : a.Malformed) (clock : Int64) :
    t.step (.process a clock) = t := by
  show (⟨(t.corr.process a clock).1, if a.Malformed then t.life else _⟩ : Traced) = t
  rw [if_pos h, Correlator.process_malformed h]

/-- A fresh key starts a new lifetime. -/
theorem step_fresh {t : Traced} {a : Alert} {clock : Int64} (h : ¬ a.Malformed)
    (hfresh : t.corr.StartsFresh a clock) :
    t.step (.process a clock) = ⟨t.corr.put a.key (started a (a.time clock)),
      Function.update t.life a.key [(a, a.time clock)]⟩ := by
  show (⟨(t.corr.process a clock).1, if a.Malformed then t.life else _⟩ : Traced) = _
  rw [if_neg h, if_pos hfresh, Correlator.process_fresh h (Correlator.startsFresh_iff.mp hfresh)]
  rfl

/-- A live key has its lifetime extended. -/
theorem step_live {t : Traced} {a : Alert} {clock : Int64} {st : IncidentState} (h : ¬ a.Malformed)
    (hlive : t.corr.Live a clock st) :
    t.step (.process a clock) = ⟨t.corr.put a.key (absorbed st a (a.time clock)),
      Function.update t.life a.key (t.life a.key ++ [(a, a.time clock)])⟩ := by
  have hnot : ¬ t.corr.StartsFresh a clock := fun hfresh =>
    Correlator.startsFresh_iff.mp hfresh st hlive
  show (⟨(t.corr.process a clock).1, if a.Malformed then t.life else _⟩ : Traced) = _
  rw [if_neg h, if_neg hnot, Correlator.process_live h hlive]
  rfl

/-- The lifetime that a fresh alert starts has that alert only. -/
theorem life_fresh {t : Traced} {a : Alert} {clock : Int64} (h : ¬ a.Malformed)
    (hfresh : t.corr.StartsFresh a clock) :
    (t.step (.process a clock)).life a.key = [(a, a.time clock)] := by
  rw [step_fresh h hfresh]
  exact Function.update_self ..

/-- The lifetime of a live key, one alert longer. -/
theorem life_live {t : Traced} {a : Alert} {clock : Int64} {st : IncidentState} (h : ¬ a.Malformed)
    (hlive : t.corr.Live a clock st) :
    (t.step (.process a clock)).life a.key = t.life a.key ++ [(a, a.time clock)] := by
  rw [step_live h hlive]
  exact Function.update_self ..

/-- An alert leaves the lifetimes of the other keys. -/
theorem life_of_ne {t : Traced} {a : Alert} {clock : Int64} {key : String} (h : key ≠ a.key) :
    (t.step (.process a clock)).life key = t.life key := by
  show (if a.Malformed then t.life else _) key = _
  split_ifs
  · rfl
  · exact Function.update_of_ne h _ _
  · exact Function.update_of_ne h _ _

/-- What a tick leaves, it leaves as it was. -/
theorem lookup_step_evictExpired {t : Traced} {clock : Int64} {key : String} {st : IncidentState}
    (h : (t.step (.evictExpired clock)).corr.incidents.lookup key = some st) :
    t.corr.incidents.lookup key = some st ∧ (t.step (.evictExpired clock)).life key = t.life key := by
  have hlookup : (t.corr.evictExpired clock).incidents.lookup key = some st := h
  refine ⟨?_, if_pos (by rw [hlookup]; rfl)⟩
  rw [Correlator.lookup_evictExpired, Option.bind_eq_some_iff] at hlookup
  obtain ⟨st', hst', hif⟩ := hlookup
  split_ifs at hif
  rw [hst', Option.some.inj hif]

/-- A run in two parts. -/
theorem run_append (t : Traced) (ops ops' : List Op) : t.run (ops ++ ops') = (t.run ops).run ops' :=
  List.foldl_append

/-- Carrying the lifetimes along does not change the correlator. -/
theorem corr_run (t : Traced) (ops : List Op) : (t.run ops).corr = t.corr.run ops := by
  induction ops using List.reverseRecOn with
  | nil => rfl
  | append_singleton ops op ih =>
    rw [run_append, Correlator.run_append, ← ih]
    cases op <;> rfl

end Traced

/-- The correlator after a run, with the lifetimes. -/
def trace (c : Correlator) (ops : List Op) : Traced := Traced.run ⟨c, fun _ => []⟩ ops

/-- The alerts of the lifetime of `key` after a run that starts with no incident. -/
def lifetime (c : Correlator) (ops : List Op) (key : String) : List Entry :=
  (Traced.run ⟨c, fun _ => []⟩ ops).life key

/-! ## What the state of an incident records -/

structure Records (key : String) (st : IncidentState) (life : List Entry) : Prop where
  key_eq : st.key = key
  first_eq : life.head?.map (·.2) = some st.firstSeenNs
  last_eq : life.getLast?.map (·.2) = some st.lastSeenNs
  count_eq : st.count = Int64.ofNat life.length
  nodes_eq : st.nodes = nodesOf life
  severity_eq : life.head?.map (·.1.severity) = some st.originalSeverity

/-- A recorded lifetime has an alert. -/
theorem Records.ne_nil {key : String} {st : IncidentState} {life : List Entry}
    (h : Records key st life) : life ≠ [] := by
  rintro rfl
  exact absurd h.first_eq (by simp)

/-- The entry of a new incident records its first alert. -/
theorem records_started (a : Alert) (now : Int64) : Records a.key (started a now) [(a, now)] where
  key_eq := rfl
  first_eq := rfl
  last_eq := rfl
  count_eq := rfl
  nodes_eq := (nodesOf_append [] (a, now)).symm
  severity_eq := rfl

/-- An absorbed alert is recorded at the end. -/
theorem Records.absorbed {key : String} {st : IncidentState} {life : List Entry}
    (h : Records key st life) (a : Alert) (now : Int64) :
    Records key (absorbed st a now) (life ++ [(a, now)]) where
  key_eq := h.key_eq
  first_eq := by rw [List.head?_append_of_ne_nil _ h.ne_nil]; exact h.first_eq
  last_eq := by rw [List.getLast?_concat]; rfl
  count_eq := by
    rw [List.length_append, List.length_singleton, Int64.ofNat_add, ← h.count_eq]
    rfl
  nodes_eq := by rw [nodesOf_append, ← h.nodes_eq]; rfl
  severity_eq := by rw [List.head?_append_of_ne_nil _ h.ne_nil]; exact h.severity_eq

/-- Every incident records its lifetime, and the other keys have none. -/
structure Tracked (t : Traced) : Prop where
  records : ∀ key st, t.corr.incidents.lookup key = some st → Records key st (t.life key)
  none_eq : ∀ key, t.corr.incidents.lookup key = none → t.life key = []

/-- The new correlator has no lifetimes. -/
theorem tracked_start (window : Int64) (h : 0 < window) :
    Tracked ⟨newCorrelator window h, fun _ => []⟩ where
  records := fun key st hst => absurd hst (by simp [newCorrelator])
  none_eq := fun _ _ => rfl

/-- Storing the state of one incident, with its lifetime. -/
theorem Tracked.put {t : Traced} (h : Tracked t) {key : String} {st : IncidentState}
    {life : List Entry} (hst : Records key st life) :
    Tracked ⟨t.corr.put key st, Function.update t.life key life⟩ := by
  refine ⟨fun k st' hk => ?_, fun k hk => ?_⟩
  · dsimp only at hk ⊢
    rw [Correlator.lookup_put] at hk
    split_ifs at hk with heq
    · obtain rfl := Option.some.inj hk
      rw [heq, Function.update_self]
      exact hst
    · rw [Function.update_of_ne heq]
      exact h.records k st' hk
  · dsimp only at hk ⊢
    rw [Correlator.lookup_put] at hk
    split_ifs at hk with heq
    rw [Function.update_of_ne heq]
    exact h.none_eq k hk

/-- One call keeps entries and lifetimes together. -/
theorem tracked_step {t : Traced} (h : Tracked t) (op : Op) : Tracked (t.step op) := by
  cases op with
  | process a clock =>
    by_cases hmal : a.Malformed
    · rw [Traced.step_malformed t hmal]
      exact h
    by_cases hfresh : t.corr.StartsFresh a clock
    · rw [Traced.step_fresh hmal hfresh]
      exact h.put (records_started a _)
    · obtain ⟨st, hlive⟩ := Correlator.exists_live hfresh
      rw [Traced.step_live hmal hlive]
      exact h.put ((h.records _ st hlive.1).absorbed a _)
  | evictExpired clock =>
    refine ⟨fun key st hst => ?_, fun key hnone => ?_⟩
    · obtain ⟨hlookup, hlife⟩ := Traced.lookup_step_evictExpired hst
      rw [hlife]
      exact h.records key st hlookup
    · refine if_neg ?_
      rw [show (t.corr.evictExpired clock).incidents.lookup key = none from hnone]
      exact Bool.false_ne_true

/-- **Entries and lifetimes stay together** in every run. -/
theorem tracked_run {t : Traced} (h : Tracked t) (ops : List Op) : Tracked (t.run ops) := by
  induction ops using List.reverseRecOn with
  | nil => exact h
  | append_singleton ops op ih =>
    rw [Traced.run_append]
    exact tracked_step ih op

/-- An alert starts an incident when the last alert of the lifetime is more than the
window ago. -/
theorem Tracked.startsFresh_iff {t : Traced} (h : Tracked t) {a : Alert} {clock : Int64} :
    t.corr.StartsFresh a clock ↔
      ∀ e ∈ (t.life a.key).getLast?, a.time clock - e.2 > t.corr.window := by
  unfold Correlator.StartsFresh
  cases hst : t.corr.incidents.lookup a.key with
  | none =>
    rw [h.none_eq _ hst]
    exact iff_of_true (fun st hmem => absurd hmem (Option.not_mem_none _))
      (fun e hmem => absurd hmem (Option.not_mem_none _))
  | some st =>
    obtain ⟨e, he, hseen⟩ := Option.map_eq_some_iff.mp (h.records _ _ hst).last_eq
    rw [he]
    constructor
    · intro hfresh e' he'
      obtain rfl := Option.some.inj he'
      rw [hseen]
      exact hfresh st rfl
    · intro hlast st' hst'
      obtain rfl := Option.some.inj hst'
      have hexp := hlast e rfl
      rwa [hseen] at hexp

/-! ## What `Process` replies -/

/-- A reply to an alert, read off the lifetime with the alert as its last one: it
is emitted when it is the first or the one that crosses, and tells the number of
alerts, the nodes, and the first and the last time.  The number is an `int`. -/
structure ReadsLifetime (reply : Reply) (life : List Entry) (a : Alert) (now : Int64) : Prop where
  last : life.getLast? = some (a, now)
  emit_iff : reply.emit = true ↔ life.length = 1 ∨ Crosses life
  suppressed : reply.emit = false → reply.out = none
  correlation : reply.emit = true → ∃ out info, reply.out = some out ∧ out.correlation = some info ∧
    info.occurrenceCount = Int64.ofNat life.length ∧ info.nodesObserved = (nodesOf life).sort ∧
    life.head?.map (·.2) = some info.firstSeenNs ∧ info.lastSeenNs = now ∧
    (info.crossNode = true ↔ 2 ≤ (nodesOf life).card)

/-- What a snapshot tells of the recorded lifetime. -/
theorem Records.snapshot {key : String} {st : IncidentState} {life : List Entry}
    (h : Records key st life) (cross : Bool) (hcross : cross = true → 2 ≤ (nodesOf life).card) :
    (snapshot st cross).occurrenceCount = Int64.ofNat life.length ∧
      (snapshot st cross).nodesObserved = (nodesOf life).sort ∧
      life.head?.map (·.2) = some (snapshot st cross).firstSeenNs ∧
      ((snapshot st cross).crossNode = true ↔ 2 ≤ (nodesOf life).card) := by
  refine ⟨h.count_eq, by rw [← h.nodes_eq]; rfl, h.first_eq, ?_⟩
  show (cross || decide (2 ≤ st.nodes.card)) = true ↔ _
  rw [Bool.or_eq_true, decide_eq_true_iff, h.nodes_eq]
  exact ⟨fun hc => hc.elim hcross id, Or.inr⟩

/-- A single alert does not cross. -/
theorem not_crosses_singleton (e : Entry) : ¬ Crosses [e] := by
  rintro ⟨-, hcard⟩
  have hle : (nodesOf [e]).card ≤ 1 := by
    rw [show [e] = [] ++ [e] from rfl, nodesOf_append, recordNode]
    split_ifs
    · exact Nat.zero_le 1
    · exact Finset.card_le_one.mpr (by simp [nodesOf])
  omega

/-- What is emitted for a new incident tells its lifetime. -/
theorem reads_start (c : Correlator) (a : Alert) (now : Int64) :
    ReadsLifetime (c.start a now).2 [(a, now)] a now := by
  obtain ⟨hcount, hnodes, hfirst, hcross⟩ :=
    (records_started a now).snapshot false (fun h => absurd h Bool.false_ne_true)
  exact ⟨rfl, iff_of_true rfl (Or.inl rfl), fun h => absurd h (by simp [Correlator.start]),
    fun _ => ⟨_, _, rfl, rfl, hcount, hnodes, hfirst, rfl, hcross⟩⟩

/-- What is emitted for a known incident tells its lifetime. -/
theorem reads_update (c : Correlator) {st : IncidentState} {life : List Entry} {a : Alert}
    {now : Int64} {key : String} (h : Records key st life) :
    ReadsLifetime (c.update st a now).2 (life ++ [(a, now)]) a now := by
  have habs := h.absorbed a now
  have hlen : (life ++ [(a, now)]).length ≠ 1 := by
    have hpos := List.length_pos_iff.mpr h.ne_nil
    rw [List.length_append, List.length_singleton]
    omega
  have hcrosses : ¬ 2 ≤ st.nodes.card ∧ 2 ≤ (absorbed st a now).nodes.card ↔
      Crosses (life ++ [(a, now)]) := by
    rw [Crosses, List.dropLast_concat, h.nodes_eq, habs.nodes_eq, not_le]
  unfold Correlator.update
  dsimp only
  by_cases hcross : ¬ 2 ≤ st.nodes.card ∧ 2 ≤ (absorbed st a now).nodes.card
  · rw [if_pos hcross]
    obtain ⟨hcount, hnodes, hfirst, hiff⟩ :=
      habs.snapshot true (fun _ => (hcrosses.mp hcross).2)
    exact ⟨List.getLast?_concat, iff_of_true rfl (Or.inr (hcrosses.mp hcross)),
      fun hemit => absurd hemit (by simp), fun _ => ⟨_, _, rfl, rfl, hcount, hnodes, hfirst, rfl,
        hiff⟩⟩
  · rw [if_neg hcross]
    refine ⟨List.getLast?_concat, iff_of_false Bool.false_ne_true ?_, fun _ => rfl,
      fun hemit => absurd hemit Bool.false_ne_true⟩
    rintro (hone | hc)
    · exact hlen hone
    · exact hcross (hcrosses.mpr hc)

/-- The lifetime that the reply to an alert is read off. -/
theorem Tracked.reads_process {t : Traced} (h : Tracked t) {a : Alert} (hmal : ¬ a.Malformed)
    (clock : Int64) :
    ReadsLifetime (t.corr.process a clock).2 ((t.step (.process a clock)).life a.key) a
      (a.time clock) := by
  by_cases hfresh : t.corr.StartsFresh a clock
  · rw [Traced.life_fresh hmal hfresh,
      Correlator.process_fresh hmal (Correlator.startsFresh_iff.mp hfresh)]
    exact reads_start _ _ _
  · obtain ⟨st, hlive⟩ := Correlator.exists_live hfresh
    rw [Traced.life_live hmal hlive, Correlator.process_live hmal hlive]
    exact reads_update _ (h.records _ st hlive.1)

/-- **Every reply reads the lifetime of its key**, along any run of alerts and
evictions. -/
theorem process_reads_lifetime (window : Int64) (hwindow : 0 < window) (ops : List Op) (a : Alert)
    (hsource : a.source ≠ "") (htype : a.type ≠ "") (clock : Int64) :
    ReadsLifetime (((newCorrelator window hwindow).run ops).process a clock).2
      (lifetime (newCorrelator window hwindow) (ops ++ [.process a clock]) a.key) a
      (a.time clock) := by
  have htracked := tracked_run (tracked_start window hwindow) ops
  have hreads := htracked.reads_process (a := a) (fun hmal => hmal.elim hsource htype) clock
  rw [Traced.corr_run] at hreads
  rw [lifetime, Traced.run_append]
  exact hreads

/-! ## The number of alerts that is told -/

/-- The reply tells the number of alerts of the lifetime. -/
def TellsCount (reply : Reply) (life : List Entry) : Prop :=
  ∀ out ∈ reply.out, ∀ info ∈ out.correlation, info.occurrenceCount.toInt = life.length

/-- The number is told as long as it is an `int`. -/
theorem ReadsLifetime.tellsCount {reply : Reply} {life : List Entry} {a : Alert} {now : Int64}
    (h : ReadsLifetime reply life a now) (hlen : life.length < 2 ^ 63) : TellsCount reply life := by
  intro out hout info hinfo
  have hemit : reply.emit = true := by
    by_contra hne
    rw [h.suppressed (Bool.not_eq_true _ ▸ hne)] at hout
    exact absurd hout (Option.not_mem_none _)
  obtain ⟨out', info', hout', hinfo', hcount, -⟩ := h.correlation hemit
  obtain rfl : out' = out := Option.some.inj (hout'.symm.trans hout)
  obtain rfl : info' = info := Option.some.inj (hinfo'.symm.trans hinfo)
  rw [hcount, Int64.toInt_ofNat_of_lt hlen]

/-- **What is emitted.**  Along any run of alerts and evictions, an alert is emitted
exactly when it is the first of its lifetime or the one with which the nodes become
two, and the reply tells the lifetime. -/
theorem process_emits_lifetime (window : Int64) (hwindow : 0 < window) (ops : List Op) (a : Alert)
    (hsource : a.source ≠ "") (htype : a.type ≠ "") (clock : Int64) :
    let reply := (((newCorrelator window hwindow).run ops).process a clock).2
    let life := lifetime (newCorrelator window hwindow) (ops ++ [.process a clock]) a.key
    ReadsLifetime reply life a (a.time clock) ∧ (life.length < 2 ^ 63 → TellsCount reply life) := by
  intro reply life
  have hreads : ReadsLifetime reply life a (a.time clock) :=
    process_reads_lifetime window hwindow ops a hsource htype clock
  exact ⟨hreads, hreads.tellsCount⟩

/-- A second node within the window, after an alert without a node. -/
theorem process_emits_lifetime_second :
    let c := newCorrelator 60 (by decide)
    let ops : List Op := [.process ⟨"scan", "10.0.0.1", 0, "low", "", "", "", "", [], "", none⟩ 100,
      .process ⟨"scan", "10.0.0.1", 120, "low", "", "", "n1", "", [], "", none⟩ 500]
    let a : Alert := ⟨"scan", "10.0.0.1", 130, "low", "", "", "n2", "", [], "", none⟩
    let reply := ((c.run ops).process a 500).2
    let life := lifetime c (ops ++ [.process a 500]) a.key
    ReadsLifetime reply life a (a.time 500) ∧ (life.length < 2 ^ 63 → TellsCount reply life) :=
  process_emits_lifetime 60 (by decide) _ _ (by decide) (by decide) 500

section Repeated

/-- An alert with the time of the last one continues the lifetime. -/
theorem Tracked.not_startsFresh {t : Traced} (h : Tracked t) {a : Alert} {clock : Int64} {e : Entry}
    (hlast : (t.life a.key).getLast? = some e) (htime : a.time clock = e.2) :
    ¬ t.corr.StartsFresh a clock := by
  intro hfresh
  have hexp : t.corr.window < a.time clock - e.2 := h.startsFresh_iff.mp hfresh e hlast
  rw [htime, Int64.sub_self] at hexp
  exact absurd hexp (Int64.not_lt.mpr (Int64.le_of_lt t.corr.window_pos))

variable {window : Int64} {hwindow : 0 < window} {a b : Alert} {clock : Int64}

/-- The same alert at the same time, over and over. -/
theorem life_replicate (hmal : ¬ a.Malformed) (n : ℕ) :
    (Traced.run ⟨newCorrelator window hwindow, fun _ => []⟩
      (List.replicate n (.process a clock))).life a.key = List.replicate n (a, a.time clock) := by
  induction n with
  | zero => rfl
  | succ n ih =>
    rw [List.replicate_succ', Traced.run_append]
    have htracked := tracked_run (tracked_start window hwindow) (List.replicate n (.process a clock))
    revert ih htracked
    generalize Traced.run _ (List.replicate n (Op.process a clock)) = t
    intro ih htracked
    show (t.step (.process a clock)).life a.key = _
    rw [List.replicate_succ']
    by_cases hfresh : t.corr.StartsFresh a clock
    · cases n with
      | zero => exact Traced.life_fresh hmal hfresh
      | succ n =>
        rw [List.replicate_succ'] at ih
        exact absurd hfresh (htracked.not_startsFresh (by rw [ih, List.getLast?_concat]) rfl)
    · obtain ⟨st, hlive⟩ := Correlator.exists_live hfresh
      rw [Traced.life_live hmal hlive, ih]

/-- After them one alert of the same key and time. -/
theorem lifetime_replicate_concat (hmal : ¬ a.Malformed) (hmalb : ¬ b.Malformed) (hkey : b.key = a.key)
    (htime : b.time clock = a.time clock) {n : ℕ} (hn : n ≠ 0) :
    lifetime (newCorrelator window hwindow)
      (List.replicate n (.process a clock) ++ [.process b clock]) b.key =
      List.replicate n (a, a.time clock) ++ [(b, a.time clock)] := by
  have htracked :=
    tracked_run (tracked_start window hwindow) (List.replicate n (.process a clock))
  have hlife : _ = List.replicate n (a, a.time clock) :=
    @life_replicate window hwindow a clock hmal n
  rw [lifetime, Traced.run_append]
  revert hlife htracked
  generalize Traced.run _ (List.replicate n (Op.process a clock)) = t
  intro htracked hlife
  have hlast : (t.life b.key).getLast? = some (a, a.time clock) := by
    rw [hkey, hlife, List.getLast?_replicate, if_neg hn]
  obtain ⟨st, hlive⟩ := Correlator.exists_live (htracked.not_startsFresh hlast htime)
  show (t.step (.process b clock)).life b.key = _
  rw [Traced.life_live hmalb hlive, hkey, hlife, htime]

/-- The number of alerts that is told has wrapped when it reaches `2 ^ 63`. -/
theorem ReadsLifetime.not_tellsCount {reply : Reply} {life : List Entry} {now : Int64}
    (h : ReadsLifetime reply life a now) (hcrosses : Crosses life) (hlen : life.length = 2 ^ 63) :
    ¬ TellsCount reply life := by
  intro htells
  obtain ⟨out, info, hout, hinfo, hcount, -⟩ := h.correlation (h.emit_iff.mpr (Or.inr hcrosses))
  have htold : info.occurrenceCount.toInt = life.length := htells out hout info hinfo
  rw [hcount, hlen] at htold
  exact absurd htold (by decide)

/-- A replicated alert of one node, then one of another. -/
theorem crosses_replicate_concat {now : Int64} (ha : a.nodeName ≠ "") (hb : b.nodeName ≠ "")
    (hne : b.nodeName ≠ a.nodeName) {n : ℕ} (hn : n ≠ 0) :
    Crosses (List.replicate n (a, now) ++ [(b, now)]) := by
  have hnodes : nodesOf (List.replicate n (a, now)) = {a.nodeName} := by
    unfold nodesOf
    rw [List.map_replicate, List.toFinset_replicate_of_ne_zero hn]
    exact Finset.erase_eq_of_notMem fun hmem => ha (Finset.mem_singleton.mp hmem).symm
  rw [Crosses, List.dropLast_concat, nodesOf_append, hnodes, recordNode, if_neg hb,
    Finset.card_singleton, Finset.card_pair hne]
  exact ⟨Nat.one_lt_two, le_rfl⟩

end Repeated

/-- After `2 ^ 63 - 1` alerts of one node the alert of another is emitted with a
negative count. -/
theorem not_tellsCount_wrapped :
    let c := newCorrelator 60 (by decide)
    let a : Alert := ⟨"scan", "10.0.0.1", 7, "low", "", "", "n1", "", [], "", none⟩
    let b : Alert := ⟨"scan", "10.0.0.1", 7, "low", "", "", "n2", "", [], "", none⟩
    let ops : List Op := List.replicate (2 ^ 63 - 1) (.process a 7)
    ¬ TellsCount ((c.run ops).process b 7).2 (lifetime c (ops ++ [.process b 7]) b.key) := by
  intro c a b ops
  have hreads := process_reads_lifetime 60 (by decide) ops b (by decide) (by decide) 7
  have hlife : lifetime c (ops ++ [.process b 7]) b.key =
      List.replicate (2 ^ 63 - 1) (a, a.time 7) ++ [(b, a.time 7)] :=
    @lifetime_replicate_concat 60 (by decide) a b 7 (by decide) (by decide) rfl rfl (2 ^ 63 - 1)
      (by decide)
  refine hreads.not_tellsCount ?_ ?_
  · rw [hlife]
    exact crosses_replicate_concat (by decide) (by decide) (by decide) (by decide)
  · rw [hlife, List.length_append, List.length_replicate, List.length_singleton]
    omega

end Aggregator
