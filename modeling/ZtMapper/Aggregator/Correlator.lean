/-
# `Correlator`

The correlator of the aggregator, which deduplicates alerts within a sliding
window.  Every method holds the mutex, so a concurrent execution is a sequence of
`Op`s.  The reading of `NowNS` is part of an operation, since it is taken before
the mutex and from a clock of its own.
-/
import ZtMapper.Lib.Unordered
import Mathlib.Data.Finset.Sort
import Mathlib.Data.String.Basic

open Unordered

namespace Aggregator

/-- What the aggregator decided about an alert. -/
structure CorrelationInfo where
  incidentKey : String
  firstSeenNs : Int64
  lastSeenNs : Int64
  occurrenceCount : Int64
  nodesObserved : List String
  crossNode : Bool
  originalSeverity : String
  deriving DecidableEq, Repr

structure Alert where
  type : String
  source : String
  timestampNs : Int64
  severity : String
  status : String := ""
  incidentId : String := ""
  nodeName : String
  namespace_ : String := ""
  tags : List String := []
  details : String := ""
  correlation : Option CorrelationInfo := none
  deriving DecidableEq, Repr

structure IncidentState where
  key : String
  firstSeenNs : Int64
  lastSeenNs : Int64
  count : Int64
  nodes : Finset String
  originalSeverity : String

/-- The window is positive: `NewCorrelator` starts a ticker with this period, which
panics otherwise. -/
structure Correlator where
  window : Int64
  window_pos : 0 < window
  incidents : Map String IncidentState

/-- `NewCorrelator` -/
def newCorrelator (window : Int64) (h : 0 < window) : Correlator := ⟨window, h, ∅⟩

/-- The two results of `Process`. -/
structure Reply where
  out : Option Alert
  emit : Bool
  deriving DecidableEq, Repr

/-- `type|source` -/
def incidentKey (type source : String) : String := type ++ "|" ++ source

def Alert.key (a : Alert) : String := incidentKey a.type a.source

/-- An alert that `Process` passes through. -/
def Alert.Malformed (a : Alert) : Prop := a.source = "" ∨ a.type = ""

instance (a : Alert) : Decidable a.Malformed := inferInstanceAs (Decidable (_ ∨ _))

/-- The timestamp of an alert, or the clock when it has none. -/
def Alert.time (a : Alert) (clock : Int64) : Int64 :=
  if a.timestampNs = 0 then clock else a.timestampNs

def upgradeSeverity (s : String) : String :=
  if s = "low" then "medium"
  else if s = "medium" ∨ s = "" then "high"
  else "critical"

def appendUnique (s : List String) (v : String) : List String := if v ∈ s then s else s ++ [v]

def snapshot (st : IncidentState) (crossNode : Bool) : CorrelationInfo where
  incidentKey := st.key
  firstSeenNs := st.firstSeenNs
  lastSeenNs := st.lastSeenNs
  occurrenceCount := st.count
  nodesObserved := st.nodes.sort
  crossNode := crossNode || decide (2 ≤ st.nodes.card)
  originalSeverity := st.originalSeverity

/-- A node name is recorded unless it is empty. -/
def recordNode (nodes : Finset String) (name : String) : Finset String :=
  if name = "" then nodes else insert name nodes

/-- The state of an incident that starts with `a`. -/
def started (a : Alert) (now : Int64) : IncidentState where
  key := a.key
  firstSeenNs := now
  lastSeenNs := now
  count := 1
  nodes := recordNode ∅ a.nodeName
  originalSeverity := a.severity

/-- The state of an incident with one more alert. -/
def absorbed (st : IncidentState) (a : Alert) (now : Int64) : IncidentState :=
  { st with
    lastSeenNs := now
    count := st.count + 1
    nodes := recordNode st.nodes a.nodeName }

namespace Correlator

/-- The last alert of an incident is more than the window ago.  The difference is
an `int64`. -/
def Expired (c : Correlator) (now : Int64) (st : IncidentState) : Prop :=
  now - st.lastSeenNs > c.window

instance (c : Correlator) (now : Int64) (st : IncidentState) : Decidable (c.Expired now st) :=
  inferInstanceAs (Decidable (_ > _))

/-- Store the state of an incident. -/
def put (c : Correlator) (key : String) (st : IncidentState) : Correlator :=
  { c with incidents := c.incidents.insert key st }

/-- Start an incident with `a`. -/
def start (c : Correlator) (a : Alert) (now : Int64) : Correlator × Reply :=
  (c.put a.key (started a now),
    ⟨some { a with correlation := some (snapshot (started a now) false) }, true⟩)

/-- Update an incident with `a`, which is emitted when it is the one that makes
the incident cross-node. -/
def update (c : Correlator) (st : IncidentState) (a : Alert) (now : Int64) : Correlator × Reply :=
  let st' := absorbed st a now
  (c.put a.key st',
    if ¬ 2 ≤ st.nodes.card ∧ 2 ≤ st'.nodes.card then
      ⟨some { a with
        severity := upgradeSeverity a.severity
        tags := appendUnique a.tags "cross_node_attacker"
        correlation := some (snapshot st' true) }, true⟩
    else ⟨none, false⟩)

/-- `Process`, with the reading of the clock. -/
def process (c : Correlator) (a : Alert) (clock : Int64) : Correlator × Reply :=
  if a.Malformed then (c, ⟨some a, true⟩)
  else match c.incidents.lookup a.key with
    | none => c.start a (a.time clock)
    | some st =>
      if c.Expired (a.time clock) st then c.start a (a.time clock)
      else c.update st a (a.time clock)

/-- `evictExpired` -/
def evictExpired (c : Correlator) (clock : Int64) : Correlator :=
  { c with
    incidents := filterMapValues (fun st => if c.Expired clock st then none else some st)
      c.incidents }

/-- The loop of `EvictExpired` deletes the same incidents in every order of the map. -/
theorem incidents_evictExpired (c : Correlator) (clock : Int64) {keys : List String}
    (h : Enumerates keys c.incidents.keys) :
    (c.evictExpired clock).incidents =
      keys.foldl (visit fun st => if c.Expired clock st then none else some st) c.incidents :=
  (foldl_visit _ h).symm

end Correlator

/-- The operations whose interleavings are the executions. -/
inductive Op where
  | process (a : Alert) (clock : Int64)
  | evictExpired (clock : Int64)
  deriving DecidableEq, Repr

namespace Correlator

/-- One operation, with the reply of `Process`. -/
def step (c : Correlator) : Op → Correlator × List Reply
  | .process a clock => ((c.process a clock).1, [(c.process a clock).2])
  | .evictExpired clock => (c.evictExpired clock, [])

/-- The state after some operations. -/
def run (c : Correlator) (ops : List Op) : Correlator := ops.foldl (fun c op => (c.step op).1) c

/-- The replies to the `Process` calls among some operations. -/
def replies (c : Correlator) : List Op → List Reply
  | [] => []
  | op :: ops => (c.step op).2 ++ replies (c.step op).1 ops

/-! ## What the operations do -/

variable {c : Correlator} {a : Alert} {clock : Int64} {op : Op} {ops : List Op}

/-- The alert is absorbed into the incident `st`. -/
def Live (c : Correlator) (a : Alert) (clock : Int64) (st : IncidentState) : Prop :=
  c.incidents.lookup a.key = some st ∧ ¬ c.Expired (a.time clock) st

/-- `Process` passes a malformed alert through. -/
theorem process_malformed (h : a.Malformed) : c.process a clock = (c, ⟨some a, true⟩) := if_pos h

/-- An alert of a live incident updates it. -/
theorem process_live {st : IncidentState} (h : ¬ a.Malformed) (hlive : c.Live a clock st) :
    c.process a clock = c.update st a (a.time clock) := by
  rw [process, if_neg h, hlive.1]
  exact if_neg hlive.2

/-- An alert without a live incident starts one. -/
theorem process_fresh (h : ¬ a.Malformed) (hfresh : ∀ st, ¬ c.Live a clock st) :
    c.process a clock = c.start a (a.time clock) := by
  rw [process, if_neg h]
  cases hst : c.incidents.lookup a.key with
  | none => rfl
  | some st =>
    have hexp : c.Expired (a.time clock) st := by
      by_contra hnot
      exact hfresh st ⟨hst, hnot⟩
    exact if_pos hexp

/-- `Process` starts the incident of `a` afresh. -/
def StartsFresh (c : Correlator) (a : Alert) (clock : Int64) : Prop :=
  ∀ st ∈ c.incidents.lookup a.key, c.Expired (a.time clock) st

instance (c : Correlator) (a : Alert) (clock : Int64) : Decidable (c.StartsFresh a clock) :=
  inferInstanceAs (Decidable (∀ st ∈ c.incidents.lookup a.key, c.Expired (a.time clock) st))

/-- A key is fresh when no incident of it is live. -/
theorem startsFresh_iff : c.StartsFresh a clock ↔ ∀ st, ¬ c.Live a clock st :=
  ⟨fun h st hlive => hlive.2 (h st hlive.1), fun h st hst => by
    by_contra hnot
    exact h st ⟨hst, hnot⟩⟩

/-- A key that is not fresh has a live incident. -/
theorem exists_live (h : ¬ c.StartsFresh a clock) : ∃ st, c.Live a clock st := by
  rwa [startsFresh_iff, not_forall_not] at h

/-- A well-formed alert starts its incident or is absorbed into it. -/
theorem process_cases (c : Correlator) (clock : Int64) (h : ¬ a.Malformed) :
    (c.StartsFresh a clock ∧ c.process a clock = c.start a (a.time clock)) ∨
      ∃ st, c.Live a clock st ∧ c.process a clock = c.update st a (a.time clock) := by
  by_cases hfresh : c.StartsFresh a clock
  · exact Or.inl ⟨hfresh, process_fresh h (startsFresh_iff.mp hfresh)⟩
  · obtain ⟨st, hlive⟩ := exists_live hfresh
    exact Or.inr ⟨st, hlive, process_live h hlive⟩

/-- The table after one entry is stored. -/
@[simp] theorem lookup_put (c : Correlator) (key k : String) (st : IncidentState) :
    (c.put key st).incidents.lookup k = if k = key then some st else c.incidents.lookup k :=
  lookup_insert_eq _ _ _ _

/-- The entry stored. -/
theorem lookup_put_self (c : Correlator) (key : String) (st : IncidentState) :
    (c.put key st).incidents.lookup key = some st :=
  (lookup_put c key key st).trans (if_pos rfl)

/-- The table after an eviction keeps what has not expired. -/
@[simp] theorem lookup_evictExpired (c : Correlator) (clock : Int64) (k : String) :
    (c.evictExpired clock).incidents.lookup k
      = (c.incidents.lookup k).bind fun st => if c.Expired clock st then none else some st :=
  lookup_filterMapValues _ _ _

/-- An emitted alert keeps its type and its source. -/
theorem pair_of_out {out : Alert} (h : (c.process a clock).2.out = some out) :
    out.type = a.type ∧ out.source = a.source := by
  by_cases hmal : a.Malformed
  · rw [process_malformed hmal] at h
    rw [← Option.some.inj h]
    exact ⟨rfl, rfl⟩
  rcases process_cases c clock hmal with ⟨-, heq⟩ | ⟨st, -, heq⟩ <;> rw [heq] at h
  · rw [← Option.some.inj h]
    exact ⟨rfl, rfl⟩
  · unfold update at h
    dsimp only at h
    split_ifs at h
    rw [← Option.some.inj h]
    exact ⟨rfl, rfl⟩

/-- What is emitted has the key of the alert. -/
theorem key_of_out {out : Alert} (h : (c.process a clock).2.out = some out) : out.key = a.key := by
  obtain ⟨htype, hsource⟩ := pair_of_out h
  rw [Alert.key, Alert.key, htype, hsource]

/-- `Process` leaves the other incidents as they are. -/
theorem lookup_process_of_ne {key : String} (h : key ≠ a.key) :
    (c.process a clock).1.incidents.lookup key = c.incidents.lookup key := by
  by_cases hmal : a.Malformed
  · rw [process_malformed hmal]
  rcases process_cases c clock hmal with ⟨-, heq⟩ | ⟨st, -, heq⟩ <;> rw [heq]
  · exact (lookup_put c _ _ _).trans (if_neg h)
  · exact (lookup_put c _ _ _).trans (if_neg h)

/-- The incident of a processed alert has seen it last. -/
theorem exists_lookup_process (c : Correlator) (clock : Int64) (h : ¬ a.Malformed) :
    ∃ st, (c.process a clock).1.incidents.lookup a.key = some st ∧ st.lastSeenNs = a.time clock := by
  rcases process_cases c clock h with ⟨-, heq⟩ | ⟨st, -, heq⟩ <;> rw [heq]
  · exact ⟨_, lookup_put_self c _ _, rfl⟩
  · exact ⟨_, lookup_put_self c _ _, rfl⟩

/-- `Process` reads only the incident of its alert. -/
theorem process_congr (clock : Int64) {c' : Correlator} (hwindow : c.window = c'.window)
    (hlookup : c.incidents.lookup a.key = c'.incidents.lookup a.key) :
    (c.process a clock).2 = (c'.process a clock).2 ∧
      (c.process a clock).1.incidents.lookup a.key =
        (c'.process a clock).1.incidents.lookup a.key := by
  by_cases hmal : a.Malformed
  · rw [process_malformed hmal, process_malformed hmal]
    exact ⟨rfl, hlookup⟩
  rcases process_cases c clock hmal with ⟨hfresh, heq⟩ | ⟨st, hlive, heq⟩
  · have hfresh' : c'.StartsFresh a clock := fun st hst => by
      have hexp : _ > c.window := hfresh st (hlookup ▸ hst)
      rwa [hwindow] at hexp
    rw [heq, process_fresh hmal (startsFresh_iff.mp hfresh')]
    exact ⟨rfl, (lookup_put_self c _ _).trans (lookup_put_self c' _ _).symm⟩
  · have hlive' : c'.Live a clock st := by
      refine ⟨hlookup ▸ hlive.1, ?_⟩
      unfold Expired
      rw [← hwindow]
      exact hlive.2
    rw [heq, process_live hmal hlive']
    exact ⟨rfl, (lookup_put_self c _ _).trans (lookup_put_self c' _ _).symm⟩

/-- No operation changes the window. -/
@[simp] theorem window_process (c : Correlator) (a : Alert) (clock : Int64) :
    (c.process a clock).1.window = c.window := by
  unfold process start update put
  split_ifs
  · rfl
  · cases c.incidents.lookup a.key with
    | none => rfl
    | some st =>
      dsimp only
      split_ifs <;> rfl

/-- The window never changes. -/
@[simp] theorem window_step (c : Correlator) (op : Op) : (c.step op).1.window = c.window := by
  cases op with
  | process a clock => exact window_process c a clock
  | evictExpired clock => rfl

/-- A run in two parts. -/
theorem run_append (c : Correlator) (ops ops' : List Op) :
    c.run (ops ++ ops') = (c.run ops).run ops' :=
  List.foldl_append

/-- The window is the same after every run. -/
@[simp] theorem window_run (c : Correlator) (ops : List Op) : (c.run ops).window = c.window := by
  induction ops using List.reverseRecOn with
  | nil => rfl
  | append_singleton ops op ih => rw [run_append, ← ih]; exact window_step _ op

/-- The replies of a run in two parts. -/
theorem replies_append (c : Correlator) (ops ops' : List Op) :
    c.replies (ops ++ ops') = c.replies ops ++ (c.run ops).replies ops' := by
  induction ops generalizing c with
  | nil => rfl
  | cons op ops ih =>
    rw [List.cons_append, replies, ih, ← List.append_assoc]
    rfl

end Correlator

end Aggregator
