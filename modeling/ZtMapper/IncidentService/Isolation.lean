/-
# Isolation of pairs

The correlator and the store key an incident by the string `type|source`.  Pairs of
a type and a source that have different strings do not see each other:
`answersTo_onlyPair` in the correlator, `upserted_pair` in the store.
-/
import ZtMapper.Aggregator.Correlator
import ZtMapper.IncidentService.Tables

open Unordered Table

/-! ## In the correlator -/

namespace Aggregator

/-- An alert of a type and a source. -/
def Alert.OfPair (type source : String) (a : Alert) : Prop := a.type = type ∧ a.source = source

instance (type source : String) (a : Alert) : Decidable (a.OfPair type source) :=
  inferInstanceAs (Decidable (_ ∧ _))

/-- The replies to the alerts of a pair. -/
def answersTo (type source : String) (c : Correlator) : List Op → List Reply
  | [] => []
  | .process a clock :: ops =>
    (if a.OfPair type source then [(c.process a clock).2] else []) ++
      answersTo type source (c.process a clock).1 ops
  | .evictExpired clock :: ops => answersTo type source (c.evictExpired clock) ops

/-- An operation that is not an alert of another pair. -/
def Op.isOfPair (type source : String) : Op → Bool
  | .process a _ => decide (a.OfPair type source)
  | .evictExpired _ => true

/-- The operations without the alerts of other pairs. -/
def onlyPair (type source : String) (ops : List Op) : List Op :=
  ops.filter (Op.isOfPair type source)

/-- No alert of another pair has the string of the pair. -/
def Separated (type source : String) (ops : List Op) : Prop :=
  ∀ a clock, .process a clock ∈ ops → a.key = incidentKey type source → a.OfPair type source

theorem Alert.OfPair.key_eq {type source : String} {a : Alert} (h : a.OfPair type source) :
    a.key = incidentKey type source := by
  rw [Alert.key, h.1, h.2]

/-- Two correlators that agree on the incident of the pair. -/
theorem answersTo_onlyPair {type source : String} {ops : List Op} (h : Separated type source ops)
    {c c' : Correlator} (hwindow : c.window = c'.window)
    (hlookup : c.incidents.lookup (incidentKey type source) =
      c'.incidents.lookup (incidentKey type source)) :
    answersTo type source c ops = answersTo type source c' (onlyPair type source ops) := by
  induction ops generalizing c c' with
  | nil => rfl
  | cons op ops ih =>
    have hops : Separated type source ops := fun a clock hmem => h a clock (List.mem_cons_of_mem _ hmem)
    cases op with
    | process a clock =>
      -- an alert of another pair has another key, so that it misses the incident of the pair
      by_cases hpair : a.OfPair type source
      · have hkeep : Op.isOfPair type source (.process a clock) = true := decide_eq_true hpair
        rw [onlyPair, List.filter_cons_of_pos hkeep, answersTo, answersTo, if_pos hpair,
          if_pos hpair]
        rw [← hpair.key_eq] at hlookup ih
        obtain ⟨hreply, hnext⟩ := Correlator.process_congr clock hwindow hlookup
        rw [hreply, ih hops (by simpa using hwindow) hnext]
        rfl
      · have hdrop : ¬ Op.isOfPair type source (.process a clock) = true := fun hkeep =>
          hpair (of_decide_eq_true hkeep)
        rw [onlyPair, List.filter_cons_of_neg hdrop, answersTo, if_neg hpair, List.nil_append]
        refine ih hops (by simpa using hwindow) (Eq.trans ?_ hlookup)
        exact Correlator.lookup_process_of_ne fun hkey =>
          hpair (h a clock List.mem_cons_self hkey.symm)
    | evictExpired clock =>
      rw [onlyPair, List.filter_cons_of_pos rfl, answersTo, answersTo]
      refine ih hops hwindow ?_
      have hexpired : ∀ st, c.Expired clock st ↔ c'.Expired clock st := fun st => by
        rw [Correlator.Expired, Correlator.Expired, hwindow]
      rw [Correlator.lookup_evictExpired, Correlator.lookup_evictExpired, hlookup]
      simp only [hexpired]

end Aggregator

/-! ## In the store -/

namespace IncidentService

/-- The table after some upserts, each of which may fail. -/
def upsertAll (db : Db) (alerts : List (IncomingAlert × Time)) : Db :=
  alerts.foldl (fun db a => (db.upsertIncident a.1 a.2).elim db (·.1)) db

/-- The update keeps the key and the pair of a row. -/
theorem updatedIncident_pair {a : IncomingAlert} {now : Time} {row row' : Incident}
    (h : updatedIncident a now row = some row') :
    row'.incidentKey = row.incidentKey ∧ row'.type = row.type ∧ row'.sourceIp = row.sourceIp := by
  unfold updatedIncident at h
  simp only [Option.bind_eq_bind, Option.bind_eq_some_iff, Option.pure_def, Option.some.injEq] at h
  obtain ⟨nodes, -, count, -, tags, -, rfl⟩ := h
  exact ⟨rfl, rfl, rfl⟩

/-- What a successful upsert has done. -/
theorem upsertIncident_cases {db db' : Db} {a : IncomingAlert} {now : Time} {row : Incident}
    {inserted : Bool} (h : db.upsertIncident a now = some (db', row, inserted)) :
    ((∀ r ∈ db.incidents, r.incidentKey ≠ a.key) ∧ db'.incidents = db.incidents ++ [row] ∧
        (∃ count, toInt4 a.occCount = some count ∧
          row = insertedIncident a db.incidentSeq count now) ∧ inserted = true) ∨
      ∃ r ∈ db.incidents, r.incidentKey = a.key ∧ updatedIncident a now r = some row ∧
        db'.incidents = update (fun r => r.incidentKey = a.key) (fun _ => row) db.incidents ∧
        inserted = false := by
  unfold Db.upsertIncident at h
  split_ifs at h
  simp only [Option.bind_eq_bind, Option.bind_eq_some_iff, Option.pure_def] at h
  obtain ⟨count, hcount, ⟨rows, row', inserted'⟩, hupsert, heq⟩ := h
  obtain ⟨rfl, rfl, rfl⟩ : _ = db' ∧ row' = row ∧ inserted' = inserted := by simpa using heq
  rcases upsert_cases hupsert with ⟨hnone, hrows, hrow, hins⟩ | ⟨r, hr, hkey, hrow, hrows, hins⟩
  · refine Or.inl ⟨fun r hr hkey => hnone r hr (decide_eq_true hkey), ?_, ⟨count, hcount, hrow⟩, hins⟩
    rw [hrow]
    exact hrows
  · exact Or.inr ⟨r, hr, of_decide_eq_true hkey, hrow, hrows, hins⟩

/-- Every row has the key and the pair of one of the alerts. -/
def FromAlerts (db : Db) (alerts : List (IncomingAlert × Time)) : Prop :=
  ∀ r ∈ db.incidents, ∃ b ∈ alerts,
    r.incidentKey = b.1.key ∧ r.type = b.1.type ∧ r.sourceIp = b.1.source

theorem FromAlerts.upsert {db db' : Db} {alerts : List (IncomingAlert × Time)} {a : IncomingAlert}
    {now : Time} {row : Incident} {inserted : Bool} (h : FromAlerts db alerts)
    (hupsert : db.upsertIncident a now = some (db', row, inserted)) :
    FromAlerts db' (alerts ++ [(a, now)]) ∧ row.incidentKey = a.key ∧
      ∃ b ∈ alerts ++ [(a, now)],
        row.incidentKey = b.1.key ∧ row.type = b.1.type ∧ row.sourceIp = b.1.source := by
  have hold : ∀ r ∈ db.incidents, ∃ b ∈ alerts ++ [(a, now)],
      r.incidentKey = b.1.key ∧ r.type = b.1.type ∧ r.sourceIp = b.1.source := fun r hr => by
    obtain ⟨b, hb, hpair⟩ := h r hr
    exact ⟨b, List.mem_append_left _ hb, hpair⟩
  -- a new row takes the pair of the alert, an updated one keeps its own
  rcases upsertIncident_cases hupsert with ⟨-, hrows, ⟨count, -, hrow⟩, -⟩ |
    ⟨r, hr, hkey, hrow, hrows, -⟩
  · have hself : ∃ b ∈ alerts ++ [(a, now)],
        row.incidentKey = b.1.key ∧ row.type = b.1.type ∧ row.sourceIp = b.1.source := by
      refine ⟨(a, now), List.mem_append_right _ (List.mem_singleton_self _), ?_⟩
      rw [hrow]
      exact ⟨rfl, rfl, rfl⟩
    refine ⟨fun r hr => ?_, by rw [hrow]; rfl, hself⟩
    rw [hrows] at hr
    rcases List.mem_append.mp hr with hr | hr
    · exact hold r hr
    · rw [List.mem_singleton.mp hr]
      exact hself
  · obtain ⟨hkey', htype, hsource⟩ := updatedIncident_pair hrow
    have hself : ∃ b ∈ alerts ++ [(a, now)],
        row.incidentKey = b.1.key ∧ row.type = b.1.type ∧ row.sourceIp = b.1.source := by
      rw [hkey', htype, hsource]
      exact hold r hr
    refine ⟨fun r' hr' => ?_, hkey'.trans hkey, hself⟩
    rw [hrows] at hr'
    obtain ⟨r'', hr'', rfl⟩ := mem_update.mp hr'
    split_ifs
    · exact hself
    · exact hold r'' hr''

theorem fromAlerts_upsertAll (alerts : List (IncomingAlert × Time)) :
    FromAlerts (upsertAll {} alerts) alerts := by
  induction alerts using List.reverseRecOn with
  | nil => exact fun r hr => absurd hr List.not_mem_nil
  | append_singleton alerts a ih =>
    rw [upsertAll, List.foldl_append]
    show FromAlerts (((upsertAll {} alerts).upsertIncident a.1 a.2).elim (upsertAll {} alerts) (·.1)) _
    cases hupsert : (upsertAll {} alerts).upsertIncident a.1 a.2 with
    | none =>
      intro r hr
      obtain ⟨b, hb, hpair⟩ := ih r hr
      exact ⟨b, List.mem_append_left _ hb, hpair⟩
    | some result =>
      obtain ⟨db', row, inserted⟩ := result
      exact (ih.upsert hupsert).1

/-- The row that an upsert returns is one of the pair of the alert. -/
theorem upserted_pair {alerts : List (IncomingAlert × Time)} {a : IncomingAlert} {now : Time}
    {db : Db} {row : Incident} {inserted : Bool}
    (hupsert : (upsertAll {} alerts).upsertIncident a now = some (db, row, inserted))
    (hsep : ∀ b ∈ alerts, b.1.key = a.key → b.1.type = a.type ∧ b.1.source = a.source) :
    row.type = a.type ∧ row.sourceIp = a.source := by
  obtain ⟨-, hkey, b, hb, hbkey, htype, hsource⟩ := (fromAlerts_upsertAll alerts).upsert hupsert
  rw [htype, hsource]
  rcases List.mem_append.mp hb with hb | hb
  · exact hsep b hb (hbkey.symm.trans hkey)
  · rw [List.mem_singleton.mp hb]
    exact ⟨rfl, rfl⟩

end IncidentService

/-! ## Both -/

namespace Aggregator

/-- Types without a bar have different strings for different pairs. -/
theorem incidentKey_inj {type type' source source' : String} (h : '|' ∉ type.toList)
    (h' : '|' ∉ type'.toList) (hkey : incidentKey type' source' = incidentKey type source) :
    type' = type ∧ source' = source := by
  have hlist : type'.toList ++ '|' :: source'.toList = type.toList ++ '|' :: source.toList := by
    have := congrArg String.toList hkey
    simpa [incidentKey] using this
  have hbefore : ∀ {s : List Char} (t : List Char), '|' ∉ s →
      (s ++ '|' :: t).takeWhile (· ≠ '|') = s := by
    intro s t hs
    have hne : ∀ c ∈ s, decide (c ≠ '|') = true := fun c hc =>
      decide_eq_true (show c ≠ '|' from fun heq => hs (heq ▸ hc))
    rw [List.takeWhile_append_of_pos hne]
    simp
  have htype : type'.toList = type.toList := by
    rw [← hbefore source'.toList h', hlist, hbefore _ h]
  rw [htype, List.append_cancel_left_eq] at hlist
  exact ⟨String.toList_inj.mp htype, String.toList_inj.mp (List.cons.inj hlist).2⟩

theorem separated_of_no_bar {type source : String} {ops : List Op} (h : '|' ∉ type.toList)
    (hops : ∀ a clock, .process a clock ∈ ops → '|' ∉ a.type.toList) :
    Separated type source ops :=
  fun a clock hmem hkey => incidentKey_inj h (hops a clock hmem) hkey

/-- **Pairs are isolated** as far as their strings differ, in the correlator and in
the store; and they do when no type holds a bar. -/
theorem pairs_isolated (window : Int64) (hwindow : 0 < window) (type source : String) :
    (∀ ops, Separated type source ops →
      answersTo type source (newCorrelator window hwindow) ops =
        answersTo type source (newCorrelator window hwindow) (onlyPair type source ops)) ∧
    (∀ alerts a now db row inserted, a.type = type → a.source = source →
      (∀ b ∈ alerts, b.1.key = a.key → b.1.type = type ∧ b.1.source = source) →
      (IncidentService.upsertAll {} alerts).upsertIncident a now = some (db, row, inserted) →
      row.type = type ∧ row.sourceIp = source) ∧
    (∀ ops, '|' ∉ type.toList → (∀ a clock, .process a clock ∈ ops → '|' ∉ a.type.toList) →
      Separated type source ops) := by
  refine ⟨fun ops h => answersTo_onlyPair h rfl rfl, ?_, fun ops => separated_of_no_bar⟩
  rintro alerts a now db row inserted rfl rfl hsep hupsert
  exact IncidentService.upserted_pair hupsert hsep

/-- Two pairs with different strings. -/
theorem pairs_isolated_scan :
    let c := newCorrelator 60 (by decide)
    let a : Alert := ⟨"scan", "10.0.0.1", 100, "low", "", "", "n1", "", [], "", none⟩
    let b : Alert := ⟨"scan", "10.0.0.2", 110, "low", "", "", "n1", "", [], "", none⟩
    let ops : List Op := [.process b 0, .process a 0]
    let stored : IncidentService.IncomingAlert := ⟨"scan", "10.0.0.2", 110, "low", "n1", [], "", none⟩
    let incoming : IncidentService.IncomingAlert :=
      ⟨"scan", "10.0.0.1", 100, "low", "n1", [], "", none⟩
    answersTo "scan" "10.0.0.1" c ops =
        answersTo "scan" "10.0.0.1" c (onlyPair "scan" "10.0.0.1" ops) ∧
      (∀ db row inserted,
        (IncidentService.upsertAll {} [(stored, 0)]).upsertIncident incoming 0 =
          some (db, row, inserted) → row.type = "scan" ∧ row.sourceIp = "10.0.0.1") := by
  intro c a b ops stored incoming
  obtain ⟨hanswers, hrows, hbar⟩ := pairs_isolated 60 (by decide) "scan" "10.0.0.1"
  refine ⟨hanswers ops (hbar ops (by decide) ?_), fun db row inserted hupsert =>
    hrows [(stored, 0)] incoming 0 db row inserted rfl rfl ?_ hupsert⟩
  · rintro e clock hmem
    have he : e = a ∨ e = b := by
      rcases List.mem_pair.mp hmem with h | h
      · exact Or.inr (Op.process.inj h).1
      · exact Or.inl (Op.process.inj h).1
    rcases he with rfl | rfl <;> decide
  · intro e he hkey
    rw [List.mem_singleton.mp he] at hkey
    exact absurd hkey (by decide)

/-- The pairs `a|b`, `c` and `a`, `b|c` have one string: the first suppresses the
alert of the second, and its row takes the alert in. -/
theorem not_pairs_isolated :
    let c := newCorrelator 60 (by decide)
    let a : Alert := ⟨"a|b", "c", 100, "low", "", "", "n1", "", [], "", none⟩
    let b : Alert := ⟨"a", "b|c", 110, "low", "", "", "n1", "", [], "", none⟩
    let ops : List Op := [.process a 0, .process b 0]
    let stored : IncidentService.IncomingAlert := ⟨"a|b", "c", 100, "low", "n1", ["t"], "", none⟩
    let incoming : IncidentService.IncomingAlert := ⟨"a", "b|c", 110, "low", "n1", ["t"], "", none⟩
    ¬ answersTo "a" "b|c" c ops = answersTo "a" "b|c" c (onlyPair "a" "b|c" ops) ∧
      ((IncidentService.upsertAll {} [(stored, 0)]).upsertIncident incoming 0).map
        (fun result => (result.2.1.type, result.2.1.sourceIp)) = some ("a|b", "c") := by
  intro c a b ops stored incoming
  refine ⟨fun h => ?_, by decide⟩
  have hemit := congrArg (List.map Reply.emit) h
  exact absurd hemit (by decide)

end Aggregator
