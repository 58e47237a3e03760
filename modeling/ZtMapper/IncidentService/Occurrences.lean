/-
# Occurrences

The alerts of one key pass through a correlator, and those that it emits are upserted.
The correlator counts every alert of a lifetime, also those that it suppresses; the
store counts the upserts.
-/
import ZtMapper.Lib.Runs
import ZtMapper.Aggregator.Lifetime
import ZtMapper.IncidentService.DeliveryOrder

open Table Runs Aggregator

namespace IncidentService

/-- An emitted alert, as the subscriber decodes it. -/
def incoming (a : Alert) : IncomingAlert where
  type := a.type
  source := a.source
  timestampNs := a.timestampNs
  severity := a.severity
  nodeName := a.nodeName
  tags := a.tags
  details := a.details
  correlation := a.correlation.map fun info =>
    ⟨info.firstSeenNs, info.lastSeenNs, info.occurrenceCount, info.nodesObserved, info.crossNode⟩

/-- The alert that an operation emits. -/
def emitted (c : Correlator) : Op → Option Alert
  | .process a clock => (c.process a clock).2.out
  | .evictExpired _ => none

/-- A correlator, and the table behind it. -/
structure Pipeline where
  corr : Correlator
  db : Db := {}

namespace Pipeline

/-- One operation of the correlator, at the time of its upsert; an upsert that fails is
impossible. -/
def step (p : Pipeline) (e : Op × Time) : Option Pipeline :=
  match emitted p.corr e.1 with
  | none => some { p with corr := (p.corr.step e.1).1 }
  | some out => (p.db.upsertIncident (incoming out) e.2).map fun r => ⟨(p.corr.step e.1).1, r.1⟩

/-- A correlator without incidents, and an empty table. -/
def start (window : Int64) (hwindow : 0 < window) : Pipeline where
  corr := newCorrelator window hwindow

/-- All alerts have one key. -/
def OneKey (key : String) (events : List (Op × Time)) : Prop :=
  ∀ e ∈ events, ∀ a clock, e.1 = .process a clock → a.key = key

/-- How many alerts have been emitted. -/
def emissions (c : Correlator) (events : List (Op × Time)) : ℕ :=
  (c.replies (events.map (·.1))).countP (·.emit)

/-- The row that is made of an emitted alert counts no less than the alert tells. -/
def CountCovered (p₀ : Pipeline) (pre : List (Op × Time)) (e : Op × Time) : Prop :=
  ∀ p out info r, reach step p₀ pre = some p → emitted p.corr e.1 = some out →
    out.correlation = some info → p.db.upsertIncident (incoming out) e.2 = some r →
      info.occurrenceCount.toInt ≤ r.2.1.occurrenceCount.toInt

/-- When the nodes of a lifetime become two, its alerts are no more than the alerts
emitted so far, in all lifetimes.  The number of alerts is an `int`. -/
def FewSuppressed (c : Correlator) (pre : List (Op × Time)) (e : Op × Time) : Prop :=
  ∀ a clock, e.1 = .process a clock →
    Crosses (lifetime c (pre.map (·.1) ++ [e.1]) a.key) →
      (Int64.ofNat (lifetime c (pre.map (·.1) ++ [e.1]) a.key).length).toInt ≤ emissions c pre + 1

/-! ## The row of the key -/

variable {key : String} {p p' : Pipeline} {events : List (Op × Time)} {e : Op × Time}

/-- After `n` emitted alerts the row counts `n`, and before the first there is no
row and no incident. -/
structure Counts (key : String) (n : ℕ) (p : Pipeline) : Prop where
  absent : n = 0 → p.db.incidents = [] ∧ p.corr.incidents.lookup key = none
  present : n ≠ 0 → ∃ row, p.db.incidents = [row] ∧ row.incidentKey = key ∧
    row.occurrenceCount.toInt = n

/-- What a step has done. -/
theorem step_cases (h : p.step e = some p') :
    (emitted p.corr e.1 = none ∧ p' = ⟨(p.corr.step e.1).1, p.db⟩) ∨
      ∃ out db row inserted, emitted p.corr e.1 = some out ∧
        p.db.upsertIncident (incoming out) e.2 = some (db, row, inserted) ∧
        p' = ⟨(p.corr.step e.1).1, db⟩ := by
  unfold step at h
  split at h
  · rename_i hnone
    exact Or.inl ⟨hnone, (Option.some.inj h).symm⟩
  · rename_i out hout
    obtain ⟨⟨db, row, inserted⟩, hupsert, rfl⟩ := Option.map_eq_some_iff.mp h
    exact Or.inr ⟨out, db, row, inserted, hout, hupsert, rfl⟩

theorem emissions_concat (c : Correlator) (events : List (Op × Time)) (e : Op × Time) :
    emissions c (events ++ [e]) =
      emissions c events + ((c.run (events.map (·.1))).step e.1).2.countP (·.emit) := by
  unfold emissions
  rw [List.map_append, List.map_singleton, Correlator.replies_append, List.countP_append]
  rw [Correlator.replies, Correlator.replies, List.append_nil]

theorem corr_of_reach {p₀ : Pipeline} (h : reach step p₀ events = some p) :
    p.corr = p₀.corr.run (events.map (·.1)) := by
  induction events using List.reverseRecOn generalizing p with
  | nil => rw [← Option.some.inj h]; rfl
  | append_singleton events e ih =>
    obtain ⟨p₁, hp₁, hstep⟩ := reach_concat_eq_some.mp h
    rw [List.map_append, List.map_singleton, Correlator.run_append, ← ih hp₁]
    rcases step_cases hstep with ⟨-, rfl⟩ | ⟨out, db, row, inserted, -, -, rfl⟩ <;> rfl

/-- The row of an upsert counts one more. -/
theorem Counts.upsert {n : ℕ} (h : Counts key n p) {a : IncomingAlert} {now : Time}
    (hkey : a.key = key) (hfirst : n = 0 → a.occCount = 1) {db : Db} {row : Incident}
    {inserted : Bool} (hupsert : p.db.upsertIncident a now = some (db, row, inserted)) :
    db.incidents = [row] ∧ row.incidentKey = key ∧ row.occurrenceCount.toInt = n + 1 := by
  -- the first upsert inserts the count that the alert tells, a later one adds one
  by_cases hn : n = 0
  · have hnil := (h.absent hn).1
    rcases upsertIncident_cases hupsert with ⟨-, hinc, ⟨count, hcount, rfl⟩, -⟩ | ⟨r, hr, -⟩
    · refine ⟨by rw [hinc, hnil]; rfl, hkey, (toInt_of_toInt4 hcount).trans ?_⟩
      rw [hfirst hn, hn]
      rfl
    · rw [hnil] at hr
      exact absurd hr List.not_mem_nil
  · obtain ⟨r, hrows, hrkey, hcount⟩ := h.present hn
    have hr : r ∈ p.db.incidents := by
      rw [hrows]
      exact List.mem_singleton_self r
    rcases upsertIncident_cases hupsert with ⟨hnone, -⟩ | ⟨r', hr', -, hupdate, hinc, -⟩
    · exact absurd (hrkey.trans hkey.symm) (hnone r hr)
    · rw [hrows] at hr' hinc
      rw [List.mem_singleton.mp hr'] at hupdate
      have hp : decide (r.incidentKey = a.key) = true := decide_eq_true (hrkey.trans hkey.symm)
      refine ⟨by rw [hinc, update, List.map_singleton, if_pos hp],
        (sameTriage_updated hupdate).incidentKey.trans hrkey, ?_⟩
      obtain ⟨nodes, count, tags, -, hsucc, -, rfl⟩ := updatedIncident_eq hupdate
      have hnew := toInt_of_succInt4 hsucc
      dsimp only
      rw [hnew, hcount]

/-- An alert that has passed is well-formed: a malformed one is emitted and cannot be
upserted. -/
theorem wellFormed_of_step {a : Alert} {clock : Int64} {now : Time}
    (h : step p (.process a clock, now) = some p') : ¬ a.Malformed := by
  intro hmal
  have hemitted : emitted p.corr (.process a clock) = some a := by
    show (p.corr.process a clock).2.out = _
    rw [Correlator.process_malformed hmal]
  rcases step_cases h with ⟨hnone, -⟩ | ⟨out, db, row, inserted, hout, hupsert, -⟩
  · cases hemitted.symm.trans hnone
  · obtain rfl := Option.some.inj (hemitted.symm.trans hout)
    obtain ⟨⟨htype, hsource⟩, -⟩ :=
      (isSome_upsertIncident _ _ _).mp (Option.isSome_iff_exists.mpr ⟨_, hupsert⟩)
    exact hmal.elim hsource htype

/-- The reply to the first alert of all. -/
theorem process_of_absent {c : Correlator} {a : Alert} {clock : Int64} (hmal : ¬ a.Malformed)
    (habsent : c.incidents.lookup a.key = none) : c.process a clock = c.start a (a.time clock) :=
  Correlator.process_fresh hmal fun st hlive => by cases habsent.symm.trans hlive.1

/-- A well-formed alert is emitted when the reply holds one. -/
theorem emit_eq_isSome (c : Correlator) {a : Alert} (clock : Int64) (hmal : ¬ a.Malformed) :
    (c.process a clock).2.emit = (c.process a clock).2.out.isSome := by
  rcases Correlator.process_cases c clock hmal with ⟨-, heq⟩ | ⟨st, -, heq⟩ <;> rw [heq]
  · rfl
  · unfold Correlator.update
    dsimp only
    split_ifs <;> rfl

theorem countP_emit {c : Correlator} {a : Alert} {clock : Int64} (hmal : ¬ a.Malformed) :
    (c.step (.process a clock)).2.countP (·.emit) = (emitted c (.process a clock)).toList.length := by
  have hemit := emit_eq_isSome c clock hmal
  show List.countP _ [(c.process a clock).2] = (c.process a clock).2.out.toList.length
  cases hout : (c.process a clock).2.out with
  | none =>
    rw [hout] at hemit
    exact List.countP_cons_of_neg (by rw [hemit]; exact Bool.false_ne_true)
  | some out =>
    rw [hout] at hemit
    exact List.countP_cons_of_pos hemit

/-- The row of an emitted alert counts one more; the first alert of all tells one. -/
theorem Counts.upsert_emitted {n : ℕ} (h : Counts key n p) {a out : Alert} {clock : Int64} {now : Time}
    (hmal : ¬ a.Malformed) (hkey : a.key = key) (hout : (p.corr.process a clock).2.out = some out)
    {db : Db} {row : Incident} {inserted : Bool}
    (hupsert : p.db.upsertIncident (incoming out) now = some (db, row, inserted)) :
    db.incidents = [row] ∧ row.incidentKey = key ∧ row.occurrenceCount.toInt = n + 1 := by
  have hinc : (incoming out).key = key := (Correlator.key_of_out hout).trans hkey
  refine h.upsert hinc (fun hn => ?_) hupsert
  rw [process_of_absent hmal (hkey ▸ (h.absent hn).2)] at hout
  rw [← Option.some.inj hout]
  rfl

theorem Counts.step {n : ℕ} (h : Counts key n p)
    (hone : ∀ a clock, e.1 = .process a clock → a.key = key) (hstep : p.step e = some p') :
    Counts key (n + (p.corr.step e.1).2.countP (·.emit)) p' := by
  obtain ⟨op, now⟩ := e
  cases op with
  | evictExpired clock =>
    rcases step_cases hstep with ⟨-, rfl⟩ | ⟨out, db, row, inserted, hout, -⟩
    · refine ⟨fun hn => ⟨(h.absent hn).1, ?_⟩, h.present⟩
      show (p.corr.evictExpired clock).incidents.lookup key = none
      rw [Correlator.lookup_evictExpired, (h.absent hn).2]
      rfl
    · cases hout
  | process a clock =>
    have hmal := wellFormed_of_step hstep
    have hkey := hone a clock rfl
    rw [countP_emit hmal]
    rcases step_cases hstep with ⟨hnone, rfl⟩ | ⟨out, db, row, inserted, hout, hupsert, rfl⟩
    · -- the first alert of all is not suppressed
      have hn : n ≠ 0 := by
        intro hn
        have hout : (p.corr.process a clock).2.out = none := hnone
        rw [process_of_absent hmal (hkey ▸ (h.absent hn).2)] at hout
        cases hout
      rw [hnone]
      exact ⟨fun hzero => absurd hzero hn, h.present⟩
    · obtain ⟨hrows, hrkey, hcount⟩ := h.upsert_emitted hmal hkey hout hupsert
      rw [hout]
      exact ⟨fun hzero => absurd hzero (Nat.succ_ne_zero n), fun _ => ⟨row, hrows, hrkey, hcount⟩⟩

theorem counts_of_reach {window : Int64} {hwindow : 0 < window}
    (hone : OneKey key events) (hreach : reach step (start window hwindow) events = some p) :
    Counts key (emissions (newCorrelator window hwindow) events) p := by
  induction events using List.reverseRecOn generalizing p with
  | nil =>
    rw [← Option.some.inj hreach]
    exact ⟨fun _ => ⟨rfl, rfl⟩, fun hne => absurd rfl hne⟩
  | append_singleton events e ih =>
    obtain ⟨p₁, hp₁, hstep⟩ := reach_concat_eq_some.mp hreach
    have hcounts := ih (fun e' he' => hone e' (List.mem_append_left _ he')) hp₁
    have hcorr := corr_of_reach hp₁
    rw [emissions_concat]
    have hnext := hcounts.step (hone e (List.mem_append_right _ (List.mem_singleton_self e))) hstep
    rw [hcorr] at hnext
    exact hnext

/-- One step of a run without failures. -/
theorem countCovered_iff {window : Int64} {hwindow : 0 < window} (hone : OneKey key (events ++ [e]))
    (hreach : reach step (start window hwindow) (events ++ [e]) = some p') :
    CountCovered (start window hwindow) events e ↔
      FewSuppressed (newCorrelator window hwindow) events e := by
  obtain ⟨p, hp, hstep⟩ := reach_concat_eq_some.mp hreach
  have hcorr : p.corr = (newCorrelator window hwindow).run (events.map (·.1)) := corr_of_reach hp
  obtain ⟨op, now⟩ := e
  cases op with
  | evictExpired clock =>
    refine iff_of_true (fun p₁ out info r _ hout => ?_) fun a clock' he => ?_
    · cases hout
    · cases he
  | process a clock =>
    have hmal := wellFormed_of_step hstep
    obtain ⟨hsource, htype⟩ := not_or.mp hmal
    have hkey := hone _ (List.mem_append_right _ (List.mem_singleton_self _)) a clock rfl
    have hreads := process_reads_lifetime window hwindow (events.map (·.1)) a hsource htype clock
    rw [← hcorr] at hreads
    have hcounts := counts_of_reach (fun e' he' => hone e' (List.mem_append_left _ he')) hp
    rcases step_cases hstep with ⟨hnone, -⟩ | ⟨out, db, row, inserted, hout, hupsert, -⟩
    · -- a suppressed alert makes no row, and does not cross
      refine iff_of_true (fun p₁ out info r hp₁ hout => ?_) fun a' clock' he hcrosses => ?_
      · rw [← Option.some.inj (hp.symm.trans hp₁)] at hout
        cases hnone.symm.trans hout
      · obtain ⟨rfl, rfl⟩ := Op.process.inj he
        have hemit := hreads.emit_iff.mpr (Or.inr hcrosses)
        obtain ⟨out, -, hout, -⟩ := hreads.correlation hemit
        cases hnone.symm.trans hout
    · have hreply : (p.corr.process a clock).2.out = some out := hout
      have hemit : (p.corr.process a clock).2.emit = true := by
        rw [emit_eq_isSome p.corr clock hmal, hreply]
        rfl
      obtain ⟨out', info, hout', hinfo, hcount, -⟩ := hreads.correlation hemit
      obtain rfl : out' = out := Option.some.inj (hout'.symm.trans hreply)
      obtain ⟨-, -, hrow⟩ := hcounts.upsert_emitted hmal hkey hreply hupsert
      constructor
      · intro hcovered a' clock' he hcrosses
        obtain ⟨rfl, rfl⟩ := Op.process.inj he
        have hle := hcovered p out' info _ hp hout hinfo hupsert
        rw [hcount, hrow] at hle
        exact hle
      · intro hfew p₁ out₁ info₁ r hp₁ hout₁ hinfo₁ hr
        obtain rfl := Option.some.inj (hp.symm.trans hp₁)
        obtain rfl := Option.some.inj (hout.symm.trans hout₁)
        obtain rfl := Option.some.inj (hinfo.symm.trans hinfo₁)
        obtain rfl := Option.some.inj (hupsert.symm.trans hr)
        rw [hcount, hrow]
        rcases hreads.emit_iff.mp hemit with hsingle | hcrosses
        · -- the first alert of a lifetime tells one
          rw [hsingle]
          have hone : (Int64.ofNat 1).toInt = 1 := rfl
          omega
        · exact hfew a clock rfl hcrosses

/-- **What the store counts.**  Along a run without failures every row counts no less
than its alert tells, exactly when no lifetime that crosses has suppressed more alerts
than were emitted before it. -/
theorem counts_covered_iff {window : Int64} {hwindow : 0 < window} (hone : OneKey key events)
    (hreach : reach step (start window hwindow) events = some p) :
    Along (CountCovered (start window hwindow)) events ↔
      Along (FewSuppressed (newCorrelator window hwindow)) events := by
  have hstep : ∀ pre e post, events = pre ++ e :: post →
      (CountCovered (start window hwindow) pre e ↔
        FewSuppressed (newCorrelator window hwindow) pre e) := by
    intro pre e post heq
    obtain ⟨-, p', -, -, hp'⟩ := reach_split hreach heq
    refine countCovered_iff (fun e' he' => hone e' ?_) hp'
    rw [heq, List.append_cons]
    exact List.mem_append_left _ he'
  constructor
  · exact fun hcovered pre e post heq => (hstep pre e post heq).mp (hcovered pre e post heq)
  · exact fun hfew pre e post heq => (hstep pre e post heq).mpr (hfew pre e post heq)

/-- An alert of one node, and the alert of another. -/
theorem counts_covered_iff_two :
    let a : Alert := ⟨"scan", "10.0.0.1", 100, "low", "", "", "n1", "", ["t"], "", none⟩
    let b : Alert := ⟨"scan", "10.0.0.1", 120, "low", "", "", "n2", "", ["t"], "", none⟩
    let events : List (Op × Time) := [(.process a 0, 1), (.process b 0, 2)]
    Along (CountCovered (start 60 (by decide))) events ↔
      Along (FewSuppressed (newCorrelator 60 (by decide))) events := by
  intro a b events
  have hone : OneKey "scan|10.0.0.1" events := by
    intro e he a' clock hop
    rcases List.mem_pair.mp he with rfl | rfl <;>
    · obtain ⟨rfl, -⟩ := Op.process.inj hop
      rfl
  have hrun : (reach step (start 60 (by decide)) events).isSome = true := by decide +kernel
  obtain ⟨p, hp⟩ := Option.isSome_iff_exists.mp hrun
  exact counts_covered_iff hone hp

/-- A duplicate between them is suppressed: the second row counts two, and its alert
tells three. -/
theorem not_counts_covered :
    let a : Alert := ⟨"scan", "10.0.0.1", 100, "low", "", "", "n1", "", ["t"], "", none⟩
    let b : Alert := ⟨"scan", "10.0.0.1", 120, "low", "", "", "n2", "", ["t"], "", none⟩
    let events : List (Op × Time) := [(.process a 0, 1), (.process a 0, 2), (.process b 0, 3)]
    (reach step (start 60 (by decide)) events).isSome = true ∧
      ¬ Along (CountCovered (start 60 (by decide))) events := by
  intro a b events
  refine ⟨by decide +kernel, fun hcovered => ?_⟩
  have hlast := hcovered [(.process a 0, 1), (.process a 0, 2)] (.process b 0, 3) [] rfl
  have hrun : ((reach step (start 60 (by decide)) [(.process a 0, 1), (.process a 0, 2)]).bind
      fun p => (emitted p.corr (.process b 0)).bind fun out => out.correlation.bind fun info =>
        (p.db.upsertIncident (incoming out) 3).map fun r =>
          (info.occurrenceCount, r.2.1.occurrenceCount)) = some (3, 2) := by
    decide +kernel
  obtain ⟨p, hp, hrun⟩ := Option.bind_eq_some_iff.mp hrun
  obtain ⟨out, hout, hrun⟩ := Option.bind_eq_some_iff.mp hrun
  obtain ⟨info, hinfo, hrun⟩ := Option.bind_eq_some_iff.mp hrun
  obtain ⟨r, hr, hcounts⟩ := Option.map_eq_some_iff.mp hrun
  obtain ⟨htold, hcounted⟩ := Prod.mk.inj hcounts
  have hle := hlast p out info r hp hout hinfo hr
  rw [htold, hcounted] at hle
  exact absurd hle (by decide)

end Pipeline

end IncidentService
