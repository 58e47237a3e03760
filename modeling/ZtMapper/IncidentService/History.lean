/-
# Histories of incidents

Three statements write to `incidents`: an upsert, a change of status, and the
enrichment with a pod.  `history` runs them in any order, each of which may fail, and
keeps the successful upserts beside the table.  `Summarises` says what a row tells of
the alerts of its key.
-/
import ZtMapper.Lib.Merge
import ZtMapper.IncidentService.Isolation
import Mathlib.Data.Bool.Basic

open Table Merge

namespace IncidentService

/-! ## The writers -/

inductive Write where
  | upsertIncident (a : IncomingAlert)
  | updateIncidentStatus (id : ℕ) (status actor : String) (notes : Option String)
  | setIncidentPodContext (id : ℕ) (podName podNamespace : String)
  deriving DecidableEq, Repr

/-- A call of a writer, and whether its statement fails for want of the database. -/
structure Attempt where
  write : Write
  now : Time := 0
  fails : Bool := false
  deriving DecidableEq, Repr

/-- The tables, and the successful upserts with what they have reported. -/
structure History where
  db : Db := {}
  upserts : List (IncomingAlert × Bool) := []
  deriving DecidableEq, Repr

namespace History

/-- A failed statement changes nothing. -/
def step (h : History) (w : Attempt) : History :=
  if w.fails then h
  else match w.write with
    | .upsertIncident a =>
      (h.db.upsertIncident a w.now).elim h fun r => ⟨r.1, h.upserts ++ [(a, r.2.2)]⟩
    | .updateIncidentStatus id status actor notes =>
      (Db.parseStatus status).elim h fun st =>
        { h with db := h.db.updateIncidentStatus id st actor notes w.now }
    | .setIncidentPodContext id podName podNamespace =>
      { h with db := h.db.setIncidentPodContext id podName podNamespace w.now }

/-- The alerts of a key that have been upserted. -/
def alertsOf (h : History) (key : String) : List IncomingAlert :=
  (h.upserts.map (·.1)).filter fun a => a.key = key

/-- How many upserts of a key have reported an insert. -/
def inserts (h : History) (key : String) : ℕ :=
  h.upserts.countP fun u => u.1.key = key ∧ u.2 = true

end History

def history (ws : List Attempt) : History := ws.foldl History.step {}

/-- The history grows by one attempt at a time. -/
theorem history_concat (ws : List Attempt) (w : Attempt) :
    history (ws ++ [w]) = (history ws).step w := by
  rw [history, List.foldl_append]
  rfl

/-! ## What a row tells -/

/-- A row tells the greatest rank, the nodes, the tags, whether several nodes were
seen, and the last time, of some alerts. -/
structure Summarises (row : Incident) (alerts : List IncomingAlert) : Prop where
  severity : GreatestOf (fun a => severityRank a.severity) alerts (severityRank row.severity)
  nodes : UnionOf IncomingAlert.nodes alerts row.nodesObserved
  tags : UnionOf IncomingAlert.tags alerts row.tags
  cross : GreatestOf IncomingAlert.cross alerts row.crossNode
  lastSeen : GreatestOf (fun a => a.lastSeen.toInt) alerts row.lastSeenNs.toInt

/-- A new row summarises its one alert. -/
theorem summarises_inserted (a : IncomingAlert) (id : ℕ) (count : Int32) (now : Time) :
    Summarises (insertedIncident a id count now) [a] where
  severity := greatestOf_singleton (fun a : IncomingAlert => severityRank a.severity) a
  nodes := unionOf_singleton _ a
  tags := unionOf_singleton _ a
  cross := greatestOf_singleton IncomingAlert.cross a
  lastSeen := greatestOf_singleton (fun a : IncomingAlert => a.lastSeen.toInt) a

/-- The merged array has the same elements. -/
theorem mem_arrayAggDistinct {l s : List String} (h : arrayAggDistinct l = some s) (x : String) :
    x ∈ s ↔ x ∈ l := by
  unfold arrayAggDistinct at h
  split_ifs at h
  rw [← Option.some.inj h]
  exact List.mem_dedup

/-- `GREATEST` is the maximum. -/
theorem toInt_greatest (a b : Int64) : (greatest a b).toInt = max a.toInt b.toInt := by
  unfold greatest
  split_ifs with h
  · exact (max_eq_right (Int64.le_iff_toInt_le.mp h)).symm
  · exact (max_eq_left (Int.le_of_lt (Int64.lt_iff_toInt_lt.mp (Int64.not_le.mp h)))).symm

/-- The columns that an update of a row sets. -/
theorem updatedIncident_eq {a : IncomingAlert} {now : Time} {row row' : Incident}
    (h : updatedIncident a now row = some row') :
    ∃ nodes count tags, arrayAggDistinct (row.nodesObserved ++ a.nodes) = some nodes ∧
      succInt4 row.occurrenceCount = some count ∧ arrayAggDistinct (row.tags ++ a.tags) = some tags ∧
      row' = { row with
        severity :=
          if severityRank a.severity > severityRank row.severity then a.severity else row.severity
        nodesObserved := nodes
        lastSeenNs := greatest row.lastSeenNs a.lastSeen
        occurrenceCount := count
        blastRadius := a.blastRadius <|> row.blastRadius
        crossNode := row.crossNode || a.cross
        tags := tags
        updatedAt := now } := by
  unfold updatedIncident at h
  simp only [Option.bind_eq_bind, Option.bind_eq_some_iff, Option.pure_def, Option.some.injEq] at h
  obtain ⟨nodes, hnodes, count, hcount, tags, htags, rfl⟩ := h
  exact ⟨nodes, count, tags, hnodes, hcount, htags, rfl⟩

/-- The row after an alert summarises one alert more. -/
theorem Summarises.update {a : IncomingAlert} {now : Time} {row row' : Incident}
    {alerts : List IncomingAlert} (h : Summarises row alerts)
    (hupdate : updatedIncident a now row = some row') : Summarises row' (alerts ++ [a]) := by
  obtain ⟨nodes, count, tags, hnodes, -, htags, rfl⟩ := updatedIncident_eq hupdate
  refine ⟨?_, h.nodes.concat (mem_arrayAggDistinct hnodes), h.tags.concat (mem_arrayAggDistinct htags),
    h.cross.concat a, ?_⟩
  · have hmax := h.severity.concat a
    dsimp only at hmax ⊢
    split_ifs with hrank
    · rwa [max_eq_right (Nat.le_of_lt hrank)] at hmax
    · rwa [max_eq_left (Nat.le_of_not_lt hrank)] at hmax
  · dsimp only
    rw [toInt_greatest]
    exact h.lastSeen.concat a

/-! ## The columns of the analysts -/

/-- The text of a status. -/
def IncidentStatus.text : IncidentStatus → String
  | .new => "new"
  | .ack => "ack"
  | .resolved => "resolved"
  | .suppressed => "suppressed"

/-- An acknowledged row tells by whom and when, and so does a resolved one. -/
structure Incident.Stamped (row : Incident) : Prop where
  ack : row.status = .ack → row.ackAt.isSome = true ∧ row.ackBy.isSome = true
  resolved : row.status = .resolved → row.resolvedAt.isSome = true ∧ row.resolvedBy.isSome = true

/-- Two rows with the same number, key and columns of the analysts. -/
structure Incident.SameTriage (row row' : Incident) : Prop where
  id : row'.id = row.id
  incidentKey : row'.incidentKey = row.incidentKey
  status : row'.status = row.status
  ackAt : row'.ackAt = row.ackAt
  ackBy : row'.ackBy = row.ackBy
  resolvedAt : row'.resolvedAt = row.resolvedAt
  resolvedBy : row'.resolvedBy = row.resolvedBy

/-- A row has its own triage columns. -/
theorem Incident.sameTriage_refl (row : Incident) : row.SameTriage row :=
  ⟨rfl, rfl, rfl, rfl, rfl, rfl, rfl⟩

/-- Equal triage columns are stamped alike. -/
theorem Incident.SameTriage.stamped {row row' : Incident} (h : row.SameTriage row')
    (hstamped : row.Stamped) : row'.Stamped := by
  refine ⟨fun hack => ?_, fun hres => ?_⟩
  · rw [h.ackAt, h.ackBy]
    exact hstamped.ack (h.status.symm.trans hack)
  · rw [h.resolvedAt, h.resolvedBy]
    exact hstamped.resolved (h.status.symm.trans hres)

/-- The update of an upsert leaves the triage columns. -/
theorem sameTriage_updated {a : IncomingAlert} {now : Time} {row row' : Incident}
    (h : updatedIncident a now row = some row') : row.SameTriage row' := by
  obtain ⟨nodes, count, tags, -, -, -, rfl⟩ := updatedIncident_eq h
  exact ⟨rfl, rfl, rfl, rfl, rfl, rfl, rfl⟩

/-! ## The invariant -/

/-- One row for each key that has been upserted, the summary of its alerts. -/
structure History.Sound (h : History) : Prop where
  nodup : (h.db.incidents.map (·.incidentKey)).Nodup
  summary : ∀ row ∈ h.db.incidents, Summarises row (h.alertsOf row.incidentKey)
  present : ∀ u ∈ h.upserts, ∃ row ∈ h.db.incidents, row.incidentKey = u.1.key
  inserted : ∀ row ∈ h.db.incidents, h.inserts row.incidentKey = 1
  stamped : ∀ row ∈ h.db.incidents, row.Stamped

namespace History

variable {h : History} {a : IncomingAlert}

/-- The empty history is sound. -/
theorem sound_nil : Sound {} :=
  ⟨List.nodup_nil, fun _ hr => absurd hr List.not_mem_nil, fun _ hu => absurd hu List.not_mem_nil,
    fun _ hr => absurd hr List.not_mem_nil, fun _ hr => absurd hr List.not_mem_nil⟩

/-- The alerts of a key grow by those with that key. -/
theorem alertsOf_concat (db : Db) (inserted : Bool) (key : String) :
    alertsOf ⟨db, h.upserts ++ [(a, inserted)]⟩ key =
      h.alertsOf key ++ if a.key = key then [a] else [] := by
  unfold alertsOf
  rw [List.map_append, List.filter_append]
  refine congrArg (h.alertsOf key ++ ·) ?_
  split_ifs with hkey
  · exact List.filter_cons_of_pos (decide_eq_true hkey)
  · exact List.filter_cons_of_neg fun hp => hkey (of_decide_eq_true hp)

/-- The insertions of a key are counted one at a time. -/
theorem inserts_concat (db : Db) (inserted : Bool) (key : String) :
    inserts ⟨db, h.upserts ++ [(a, inserted)]⟩ key =
      h.inserts key + if a.key = key ∧ inserted = true then 1 else 0 := by
  unfold inserts
  rw [List.countP_append]
  refine congrArg (h.inserts key + ·) ?_
  split_ifs with hins
  · exact List.countP_cons_of_pos (decide_eq_true hins)
  · exact List.countP_cons_of_neg fun hp => hins (of_decide_eq_true hp)

/-- A key without a row has not been upserted. -/
theorem Sound.absent (hsound : h.Sound) {key : String}
    (hnone : ∀ row ∈ h.db.incidents, row.incidentKey ≠ key) :
    h.alertsOf key = [] ∧ h.inserts key = 0 := by
  have hother : ∀ u ∈ h.upserts, u.1.key ≠ key := by
    intro u hu hkey
    obtain ⟨row, hrow, hrkey⟩ := hsound.present u hu
    exact hnone row hrow (hrkey.trans hkey)
  constructor
  · refine List.filter_eq_nil_iff.mpr fun b hb hp => ?_
    obtain ⟨u, hu, rfl⟩ := List.mem_map.mp hb
    exact hother u hu (of_decide_eq_true hp)
  · exact List.countP_eq_zero.mpr fun u hu hp => hother u hu (of_decide_eq_true hp).1

/-- A table after an upsert: the row of the alert, and the others as they were. -/
structure Upserted (rows rows' : List Incident) (a : IncomingAlert) (row : Incident) : Prop where
  nodup : (rows'.map (·.incidentKey)).Nodup
  mem : row ∈ rows'
  key : row.incidentKey = a.key
  kept : ∀ r ∈ rows, ∃ r' ∈ rows', r.SameTriage r'
  others : ∀ r ∈ rows', r = row ∨ (r.incidentKey ≠ a.key ∧ r ∈ rows)

/-- An insertion puts a new row at the end. -/
theorem upserted_insert {rows : List Incident} {row : Incident}
    (hnodup : (rows.map (·.incidentKey)).Nodup) (hkey : row.incidentKey = a.key)
    (hnone : ∀ r ∈ rows, r.incidentKey ≠ a.key) : Upserted rows (rows ++ [row]) a row := by
  refine ⟨?_, List.mem_append_right _ (List.mem_singleton_self row), hkey,
    fun r hr => ⟨r, List.mem_append_left _ hr, r.sameTriage_refl⟩, fun r hr => ?_⟩
  · rw [List.map_append, List.map_singleton, hkey]
    refine List.nodup_append.mpr ⟨hnodup, List.nodup_singleton _, fun k hk k' hk' => ?_⟩
    obtain ⟨r, hr, rfl⟩ := List.mem_map.mp hk
    rw [List.mem_singleton.mp hk']
    exact hnone r hr
  · rcases List.mem_append.mp hr with hr | hr
    · exact Or.inr ⟨hnone r hr, hr⟩
    · exact Or.inl (List.mem_singleton.mp hr)

/-- A conflict rewrites the row of the key in place. -/
theorem upserted_update {rows : List Incident} {r row : Incident}
    (hnodup : (rows.map (·.incidentKey)).Nodup) (hr : r ∈ rows) (hrkey : r.incidentKey = a.key)
    (htriage : r.SameTriage row) :
    Upserted rows (update (fun r => r.incidentKey = a.key) (fun _ => row) rows) a row := by
  have hkey : row.incidentKey = a.key := htriage.incidentKey.trans hrkey
  refine ⟨?_, ?_, hkey, fun r' hr' => ⟨_, mem_update_of_mem hr', ?_⟩, fun r' hr' => ?_⟩
  · have hmap : (update (fun r => r.incidentKey = a.key) (fun _ => row) rows).map
        (·.incidentKey) = rows.map (·.incidentKey) := by
      unfold update
      rw [List.map_map]
      refine List.map_congr_left fun r' _ => ?_
      dsimp only [Function.comp_apply]
      split_ifs with hp
      · exact hkey.trans (of_decide_eq_true hp).symm
      · rfl
    rw [hmap]
    exact hnodup
  · have hmem := mem_update_of_mem (p := fun r => decide (r.incidentKey = a.key))
      (f := fun _ => row) hr
    rwa [if_pos (decide_eq_true hrkey)] at hmem
  · split_ifs with hp
    · -- there is one row of each key
      rw [eq_of_nodup hnodup hr' hr ((of_decide_eq_true hp).trans hrkey.symm)]
      exact htriage
    · exact r'.sameTriage_refl
  · obtain ⟨r'', hr'', rfl⟩ := mem_update.mp hr'
    split_ifs with hp
    · exact Or.inl rfl
    · exact Or.inr ⟨fun hk => hp (decide_eq_true hk), hr''⟩

/-- What a successful upsert does to a sound history. -/
theorem Sound.upsert_cases (hsound : h.Sound) {now : Time} {db : Db} {row : Incident}
    {inserted : Bool} (hupsert : h.db.upsertIncident a now = some (db, row, inserted)) :
    Upserted h.db.incidents db.incidents a row ∧ row.Stamped ∧
      Summarises row (h.alertsOf a.key ++ [a]) ∧
      h.inserts a.key + (if inserted = true then 1 else 0) = 1 := by
  rcases upsertIncident_cases hupsert with ⟨hnone, hrows, ⟨count, -, rfl⟩, rfl⟩ |
    ⟨r, hr, hrkey, hrow, hrows, rfl⟩
  · obtain ⟨halerts, hcount⟩ := hsound.absent hnone
    rw [hrows, halerts, hcount]
    refine ⟨upserted_insert hsound.nodup rfl hnone, ⟨fun hack => ?_, fun hres => ?_⟩,
      summarises_inserted a _ _ _, rfl⟩
    · cases hack
    · cases hres
  · have htriage := sameTriage_updated hrow
    rw [hrows, ← hrkey, hsound.inserted r hr]
    refine ⟨?_, htriage.stamped (hsound.stamped r hr), (hsound.summary r hr).update hrow, rfl⟩
    rw [hrkey]
    exact upserted_update hsound.nodup hr hrkey htriage

/-- A successful upsert keeps the history sound. -/
theorem Sound.upsert (hsound : h.Sound) {now : Time} {db : Db} {row : Incident} {inserted : Bool}
    (hupsert : h.db.upsertIncident a now = some (db, row, inserted)) :
    Sound ⟨db, h.upserts ++ [(a, inserted)]⟩ := by
  obtain ⟨hup, hstamped, hsummary, hins⟩ := hsound.upsert_cases hupsert
  refine ⟨hup.nodup, fun r hr => ?_, fun u hu => ?_, fun r hr => ?_, fun r hr => ?_⟩
  · rw [alertsOf_concat]
    rcases hup.others r hr with rfl | ⟨hne, hold⟩
    · rw [hup.key, if_pos rfl]
      exact hsummary
    · rw [if_neg (Ne.symm hne), List.append_nil]
      exact hsound.summary r hold
  · rcases List.mem_append.mp hu with hu | hu
    · obtain ⟨r, hr, hrkey⟩ := hsound.present u hu
      obtain ⟨r', hr', htriage⟩ := hup.kept r hr
      exact ⟨r', hr', htriage.incidentKey.trans hrkey⟩
    · rw [List.mem_singleton.mp hu]
      exact ⟨row, hup.mem, hup.key⟩
  · rw [inserts_concat]
    rcases hup.others r hr with rfl | ⟨hne, hold⟩
    · simpa [hup.key] using hins
    · rw [if_neg fun hp => hne hp.1.symm]
      exact hsound.inserted r hold
  · rcases hup.others r hr with rfl | ⟨-, hold⟩
    · exact hstamped
    · exact hsound.stamped r hold

/-- An update of rows that keeps what an upsert writes. -/
theorem Sound.update (hsound : h.Sound) {p : Incident → Bool} {f : Incident → Incident}
    (hkey : ∀ r, (f r).incidentKey = r.incidentKey)
    (hsummary : ∀ r alerts, Summarises r alerts → Summarises (f r) alerts)
    (hstamped : ∀ r : Incident, r.Stamped → (f r).Stamped) :
    Sound { h with db := { h.db with incidents := Table.update p f h.db.incidents } } := by
  -- a row after the update comes from one before it, with the same key
  have hrow : ∀ r ∈ Table.update p f h.db.incidents, ∃ r' ∈ h.db.incidents,
      r.incidentKey = r'.incidentKey ∧
      (∀ alerts, Summarises r' alerts → Summarises r alerts) ∧ (r'.Stamped → r.Stamped) := by
    intro r hr
    obtain ⟨r', hr', rfl⟩ := mem_update.mp hr
    refine ⟨r', hr', ?_⟩
    split_ifs
    · exact ⟨hkey r', hsummary r', hstamped r'⟩
    · exact ⟨rfl, fun _ => id, id⟩
  refine ⟨?_, fun r hr => ?_, fun u hu => ?_, fun r hr => ?_, fun r hr => ?_⟩
  · dsimp only
    rw [map_update hkey]
    exact hsound.nodup
  · obtain ⟨r', hr', hrkey, hsum, -⟩ := hrow r hr
    rw [hrkey]
    exact hsum _ (hsound.summary r' hr')
  · obtain ⟨r, hr, hrkey⟩ := hsound.present u hu
    refine ⟨_, mem_update_of_mem hr, ?_⟩
    split_ifs
    · exact (hkey r).trans hrkey
    · exact hrkey
  · obtain ⟨r', hr', hrkey, -⟩ := hrow r hr
    rw [hrkey]
    exact hsound.inserted r' hr'
  · obtain ⟨r', hr', -, -, hst⟩ := hrow r hr
    exact hst (hsound.stamped r' hr')

/-- An attempt keeps the history sound, whether it succeeds or fails. -/
theorem Sound.step (hsound : h.Sound) (w : Attempt) : (h.step w).Sound := by
  unfold History.step
  split_ifs
  · exact hsound
  · cases w.write with
    | upsertIncident a =>
      dsimp only
      cases hupsert : h.db.upsertIncident a w.now with
      | none => exact hsound
      | some r => exact hsound.upsert hupsert
    | updateIncidentStatus id status actor notes =>
      dsimp only
      cases Db.parseStatus status with
      | none => exact hsound
      | some st =>
        refine hsound.update (fun _ => rfl) (fun r alerts hsum =>
          ⟨hsum.severity, hsum.nodes, hsum.tags, hsum.cross, hsum.lastSeen⟩) fun r hst => ?_
        -- the columns are set when the status asks for them, and kept otherwise
        refine ⟨fun hack => ?_, fun hres => ?_⟩
        · dsimp only at hack ⊢
          rw [if_pos hack, if_pos hack]
          exact ⟨rfl, rfl⟩
        · dsimp only at hres ⊢
          rw [if_pos hres, if_pos hres]
          exact ⟨rfl, rfl⟩
    | setIncidentPodContext id podName podNamespace =>
      exact hsound.update (fun _ => rfl) (fun r alerts hsum =>
        ⟨hsum.severity, hsum.nodes, hsum.tags, hsum.cross, hsum.lastSeen⟩)
        fun r hst => ⟨hst.ack, hst.resolved⟩

end History

/-- Every history is sound. -/
theorem sound_history (ws : List Attempt) : (history ws).Sound := by
  induction ws using List.reverseRecOn with
  | nil => exact History.sound_nil
  | append_singleton ws w ih =>
    rw [history_concat]
    exact ih.step w

/-- **The table tells its history**, whatever order the writers come in: one row for
each key, inserted once, that summarises the alerts of its key; an upsert leaves the
columns of the analysts, which tell who has acknowledged or resolved. -/
theorem incidents_tell_history (ws : List Attempt) :
    ((history ws).db.incidents.map (·.incidentKey)).Nodup ∧
      (∀ u ∈ (history ws).upserts, (∃ row ∈ (history ws).db.incidents, row.incidentKey = u.1.key) ∧
        (history ws).inserts u.1.key = 1) ∧
      (∀ row ∈ (history ws).db.incidents,
        Summarises row ((history ws).alertsOf row.incidentKey)) ∧
      (∀ a now db row inserted, (history ws).db.upsertIncident a now = some (db, row, inserted) →
        ∀ r ∈ (history ws).db.incidents, ∃ r' ∈ db.incidents, r.SameTriage r') ∧
      ∀ row ∈ (history ws).db.incidents,
        row.status.text ∈ ["new", "ack", "resolved", "suppressed"] ∧ row.Stamped := by
  have hsound := sound_history ws
  refine ⟨hsound.nodup, fun u hu => ?_, hsound.summary, ?_, fun row hrow =>
    ⟨?_, hsound.stamped row hrow⟩⟩
  · obtain ⟨row, hrow, hkey⟩ := hsound.present u hu
    exact ⟨⟨row, hrow, hkey⟩, hkey ▸ hsound.inserted row hrow⟩
  · intro a now db row inserted hupsert
    exact (hsound.upsert_cases hupsert).1.kept
  · cases row.status <;> decide

/-! ## Which upserts succeed -/

/-- An `INT`. -/
def FitsInt4 (n : Int64) : Prop :=
  Int32.minValue.toInt ≤ n.toInt ∧ n.toInt ≤ Int32.maxValue.toInt

/-- An update needs a node and a tag, of the row or of the alert, and room to count. -/
structure Updatable (a : IncomingAlert) (row : Incident) : Prop where
  node : row.nodesObserved ≠ [] ∨ a.nodes ≠ []
  tag : row.tags ≠ [] ∨ a.tags ≠ []
  count : row.occurrenceCount.toInt < Int32.maxValue.toInt

/-- A count is stored when it fits four bytes. -/
theorem isSome_toInt4 (n : Int64) : (toInt4 n).isSome = true ↔ FitsInt4 n := by
  unfold toInt4 FitsInt4
  split_ifs with h
  · exact iff_of_true rfl h
  · exact iff_of_false Bool.false_ne_true h

/-- The sum of an `INT` and one is no longer an `INT` only at the greatest one. -/
theorem toInt_succ (n : Int32) : (n.toInt64 + 1).toInt = n.toInt + 1 := by
  have hlow := n.le_toInt
  have hhigh := n.toInt_lt
  rw [Int64.toInt_add, Int32.toInt_toInt64]
  show (n.toInt + 1).bmod (2 ^ 64) = _
  rw [Int.bmod_eq_of_le] <;> omega

/-- A stored count grows until the last value of four bytes. -/
theorem isSome_succInt4 (n : Int32) :
    (succInt4 n).isSome = true ↔ n.toInt < Int32.maxValue.toInt := by
  have hlow := n.le_toInt
  have hmin : Int32.minValue.toInt = -2147483648 := rfl
  unfold succInt4
  rw [isSome_toInt4, FitsInt4, toInt_succ]
  omega

/-- `array_agg` of no row is NULL, which the column refuses. -/
theorem isSome_arrayAggDistinct (l l' : List String) :
    (arrayAggDistinct (l ++ l')).isSome = true ↔ l ≠ [] ∨ l' ≠ [] := by
  unfold arrayAggDistinct
  rw [← not_and_or, ← List.append_eq_nil_iff]
  split_ifs with h
  · exact iff_of_false Bool.false_ne_true (not_not_intro h)
  · exact iff_of_true rfl h

/-- The update succeeds exactly when both hold. -/
theorem isSome_updatedIncident (a : IncomingAlert) (now : Time) (row : Incident) :
    (updatedIncident a now row).isSome = true ↔ Updatable a row := by
  have hparts : (updatedIncident a now row).isSome = true ↔
      (arrayAggDistinct (row.nodesObserved ++ a.nodes)).isSome = true ∧
        (succInt4 row.occurrenceCount).isSome = true ∧
        (arrayAggDistinct (row.tags ++ a.tags)).isSome = true := by
    unfold updatedIncident
    cases arrayAggDistinct (row.nodesObserved ++ a.nodes) <;>
      cases succInt4 row.occurrenceCount <;>
      cases arrayAggDistinct (row.tags ++ a.tags) <;> simp
  rw [hparts, isSome_arrayAggDistinct, isSome_arrayAggDistinct, isSome_succInt4]
  exact ⟨fun ⟨hnode, hcount, htag⟩ => ⟨hnode, htag, hcount⟩,
    fun h => ⟨h.node, h.count, h.tag⟩⟩

/-- An upsert succeeds when the alert has a type and a source, its count is an `INT`,
and the row of the key, if there is one, can be updated. -/
theorem isSome_upsertIncident (db : Db) (a : IncomingAlert) (now : Time) :
    (db.upsertIncident a now).isSome = true ↔
      (a.type ≠ "" ∧ a.source ≠ "") ∧ FitsInt4 a.occCount ∧
        ∀ row ∈ db.incidents.find? fun r => r.incidentKey = a.key, Updatable a row := by
  unfold Db.upsertIncident
  split_ifs with hguard
  · exact iff_of_false Bool.false_ne_true fun h => hguard.elim h.1.2 h.1.1
  obtain ⟨hsource, htype⟩ := not_or.mp hguard
  rw [and_iff_right ⟨htype, hsource⟩, ← isSome_toInt4]
  cases toInt4 a.occCount with
  | none => exact iff_of_false Bool.false_ne_true fun h => Bool.false_ne_true h.1
  | some count =>
    have hupsert := isSome_upsert (fun r => decide (r.incidentKey = a.key))
      (insertedIncident a db.incidentSeq count now) (updatedIncident a now) db.incidents
    simp only [isSome_updatedIncident] at hupsert
    have hcount : (some count).isSome = true := rfl
    rw [and_iff_right hcount, ← hupsert]
    simp only [Option.bind_eq_bind, Option.bind_some, Option.pure_def]
    cases Table.upsert (fun r => decide (r.incidentKey = a.key))
      (insertedIncident a db.incidentSeq count now) (updatedIncident a now) db.incidents <;> rfl

/-- The row of a key is the one that is found. -/
theorem History.Sound.find?_iff {h : History} (hsound : h.Sound) (key : String)
    (P : Incident → Prop) :
    (∀ row ∈ h.db.incidents.find? fun r => r.incidentKey = key, P row) ↔
      ∀ row ∈ h.db.incidents, row.incidentKey = key → P row := by
  constructor
  · intro hfound row hrow hkey
    cases hfind : h.db.incidents.find? fun r => decide (r.incidentKey = key) with
    | none => exact absurd (decide_eq_true hkey) (List.find?_eq_none.mp hfind row hrow)
    | some r =>
      have hr := List.find?_some hfind
      have hrkey : r.incidentKey = key := of_decide_eq_true hr
      rw [eq_of_nodup hsound.nodup hrow (List.mem_of_find?_eq_some hfind)
        (hkey.trans hrkey.symm)]
      exact hfound r hfind
  · intro hall row hrow
    have hr := List.find?_some hrow
    exact hall row (List.mem_of_find?_eq_some hrow) (of_decide_eq_true hr)

end IncidentService
