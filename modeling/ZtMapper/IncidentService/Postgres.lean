/-
# What PostgreSQL refuses

A statement also fails when a value cannot be stored: a text with the character U+0000, a
`jsonb` that PostgreSQL does not take, an entry that an index has no room for.  `Postgres`
says which values it takes; an upsert succeeds exactly when the alert has only such values
and its columns can be written (`upsert_succeeds_iff`).
-/
import ZtMapper.IncidentService.History

open Table

namespace IncidentService

/-- The values that PostgreSQL takes: as a `TEXT`, as an array of them, as a `JSONB`, and as a
value of a column that has an index.  Short values have room in an index. -/
structure Postgres where
  storesText : String → Bool
  storesArray : List String → Bool
  storesJsonb : String → Bool
  indexes : String → Bool
  indexes_of_short : ∀ s : String, s.utf8ByteSize ≤ 2000 → indexes s = true

namespace Postgres

variable (pg : Postgres)

/-- The arguments of `UpsertIncident` are taken. -/
structure Takes (a : IncomingAlert) : Prop where
  texts : ∀ s ∈ [a.key, a.type, a.source, a.severity], pg.storesText s = true
  nodes : pg.storesArray a.nodes = true
  tags : pg.storesArray a.tags = true
  blastRadius : ∀ d ∈ a.blastRadius, pg.storesJsonb d = true

/-- There is room for a row: in the indexes of its key and its severity, and for its arrays. -/
structure HasRoom (row : Incident) : Prop where
  key : pg.indexes row.incidentKey = true
  severity : pg.indexes row.severity = true
  nodes : pg.storesArray row.nodesObserved = true
  tags : pg.storesArray row.tags = true

instance (a : IncomingAlert) : Decidable (pg.Takes a) :=
  decidable_of_iff ((∀ s ∈ [a.key, a.type, a.source, a.severity], pg.storesText s = true) ∧
    pg.storesArray a.nodes = true ∧ pg.storesArray a.tags = true ∧
    ∀ d ∈ a.blastRadius, pg.storesJsonb d = true)
    ⟨fun ⟨h₁, h₂, h₃, h₄⟩ => ⟨h₁, h₂, h₃, h₄⟩, fun h => ⟨h.1, h.2, h.3, h.4⟩⟩

instance (row : Incident) : Decidable (pg.HasRoom row) :=
  decidable_of_iff (pg.indexes row.incidentKey = true ∧ pg.indexes row.severity = true ∧
    pg.storesArray row.nodesObserved = true ∧ pg.storesArray row.tags = true)
    ⟨fun ⟨h₁, h₂, h₃, h₄⟩ => ⟨h₁, h₂, h₃, h₄⟩, fun h => ⟨h.1, h.2, h.3, h.4⟩⟩

/-- `UpsertIncident`: the statement fails when an argument is refused, or when there is no room
for the row that it writes. -/
def upsertIncident (db : Db) (a : IncomingAlert) (now : Time) : Option (Db × Incident × Bool) :=
  if pg.Takes a then (db.upsertIncident a now).filter fun r => pg.HasRoom r.2.1 else none

/-- A refused upsert changes nothing. -/
def step (h : History) (w : Attempt) : History :=
  match w.write with
  | .upsertIncident a => if (pg.upsertIncident h.db a w.now).isSome then h.step w else h
  | _ => h.step w

/-- The tables after some calls of the writers.  A call that PostgreSQL refuses for another
reason is one that fails. -/
def history (ws : List Attempt) : History := ws.foldl pg.step {}

theorem history_concat (ws : List Attempt) (w : Attempt) :
    pg.history (ws ++ [w]) = pg.step (pg.history ws) w := by
  rw [history, List.foldl_append]
  rfl

/-! ## The tables with and without refusals -/

/-- A call with a refusal is one without, or one that fails. -/
theorem step_eq (h : History) (w : Attempt) :
    ∃ w', pg.step h w = h.step w' := by
  have hfails : h = h.step { w with fails := true } := (if_pos rfl).symm
  unfold step
  split
  · split_ifs
    · exact ⟨w, rfl⟩
    · exact ⟨_, hfails⟩
  · exact ⟨w, rfl⟩

/-- Refusals lead to no other tables than failures. -/
theorem exists_history (ws : List Attempt) :
    ∃ ws', pg.history ws = IncidentService.history ws' := by
  induction ws using List.reverseRecOn with
  | nil => exact ⟨[], rfl⟩
  | append_singleton ws w ih =>
    obtain ⟨ws', hws'⟩ := ih
    obtain ⟨w', hw'⟩ := pg.step_eq (pg.history ws) w
    refine ⟨ws' ++ [w'], ?_⟩
    rw [history_concat, hw', hws', IncidentService.history_concat]

/-- An update of rows that leaves their keys, severities and arrays. -/
theorem HasRoom.update {pg : Postgres} {rows : List Incident} {p : Incident → Bool}
    {f : Incident → Incident} (h : ∀ r ∈ rows, pg.HasRoom r)
    (hf : ∀ r, (f r).incidentKey = r.incidentKey ∧ (f r).severity = r.severity ∧
      (f r).nodesObserved = r.nodesObserved ∧ (f r).tags = r.tags) :
    ∀ r ∈ Table.update p f rows, pg.HasRoom r := by
  intro r hr
  obtain ⟨r', hr', rfl⟩ := mem_update.mp hr
  split_ifs
  · obtain ⟨hkey, hseverity, hnodes, htags⟩ := hf r'
    obtain ⟨h₁, h₂, h₃, h₄⟩ := h r' hr'
    exact ⟨hkey ▸ h₁, hseverity ▸ h₂, hnodes ▸ h₃, htags ▸ h₄⟩
  · exact h r' hr'

/-- An upsert leaves room for all rows. -/
theorem HasRoom.upsert {pg : Postgres} {db db' : Db} {a : IncomingAlert} {now : Time}
    {row : Incident} {inserted : Bool} (h : ∀ r ∈ db.incidents, pg.HasRoom r)
    (hupsert : db.upsertIncident a now = some (db', row, inserted)) (hrow : pg.HasRoom row) :
    ∀ r ∈ db'.incidents, pg.HasRoom r := by
  intro r hr
  rcases upsertIncident_cases hupsert with ⟨-, hrows, -, -⟩ | ⟨_, -, -, -, hrows, -⟩
  · rw [hrows] at hr
    rcases List.mem_append.mp hr with hr | hr
    · exact h r hr
    · rw [List.mem_singleton.mp hr]
      exact hrow
  · rw [hrows] at hr
    obtain ⟨r', hr', rfl⟩ := mem_update.mp hr
    split_ifs
    · exact hrow
    · exact h r' hr'

/-- **The step**: every row is stored. -/
theorem hasRoom_step {h : History} (hrows : ∀ r ∈ h.db.incidents, pg.HasRoom r) (w : Attempt) :
    ∀ r ∈ (pg.step h w).db.incidents, pg.HasRoom r := by
  obtain ⟨write, now, fails⟩ := w
  cases write with
  | upsertIncident a =>
    show ∀ r ∈ (if (pg.upsertIncident h.db a now).isSome then
      h.step ⟨.upsertIncident a, now, fails⟩ else h).db.incidents, pg.HasRoom r
    split_ifs with hsome
    · obtain ⟨⟨db, row, inserted⟩, hr⟩ := Option.isSome_iff_exists.mp hsome
      unfold Postgres.upsertIncident at hr
      split_ifs at hr
      obtain ⟨hupsert, hrow⟩ := Option.filter_eq_some_iff.mp hr
      have hdb : ∀ r ∈ db.incidents, pg.HasRoom r :=
        HasRoom.upsert hrows hupsert (of_decide_eq_true hrow)
      unfold History.step
      dsimp only
      rw [hupsert]
      split_ifs
      · exact hrows
      · exact hdb
    · exact hrows
  | updateIncidentStatus id status actor notes =>
    show ∀ r ∈ (h.step ⟨.updateIncidentStatus id status actor notes, now, fails⟩).db.incidents, _
    unfold History.step
    dsimp only
    split_ifs
    · exact hrows
    · cases Db.parseStatus status with
      | none => exact hrows
      | some st => exact HasRoom.update hrows fun r => ⟨rfl, rfl, rfl, rfl⟩
  | setIncidentPodContext id podName podNamespace =>
    show ∀ r ∈ (h.step ⟨.setIncidentPodContext id podName podNamespace, now, fails⟩).db.incidents, _
    unfold History.step
    dsimp only
    split_ifs
    · exact hrows
    · exact HasRoom.update hrows fun r => ⟨rfl, rfl, rfl, rfl⟩

/-- **The run**: every row of a reachable table is stored. -/
theorem hasRoom_history (ws : List Attempt) :
    ∀ r ∈ (pg.history ws).db.incidents, pg.HasRoom r := by
  induction ws using List.reverseRecOn with
  | nil => exact fun r hr => absurd hr List.not_mem_nil
  | append_singleton ws w ih =>
    rw [history_concat]
    exact pg.hasRoom_step ih w

/-! ## Which upserts succeed -/

/-- A severity with a rank has room in an index. -/
theorem indexes_of_ranked {s : String} (h : 0 < severityRank s) : pg.indexes s = true := by
  refine pg.indexes_of_short s ?_
  unfold severityRank at h
  split_ifs at h with h₁ h₂ h₃ h₄
  · rw [h₁]; decide
  · rw [h₂]; decide
  · rw [h₃]; decide
  · rw [h₄]; decide
  · exact absurd h (Nat.lt_irrefl 0)

/-- An update has room exactly when its arrays have. -/
theorem hasRoom_updated_iff {a : IncomingAlert} {now : Time} {row row' : Incident}
    (hrow : pg.HasRoom row) (h : updatedIncident a now row = some row') :
    pg.HasRoom row' ↔ pg.storesArray (row.nodesObserved ++ a.nodes).dedup = true ∧
      pg.storesArray (row.tags ++ a.tags).dedup = true := by
  unfold updatedIncident at h
  simp only [Option.bind_eq_bind, Option.bind_eq_some_iff, Option.pure_def, Option.some.injEq] at h
  obtain ⟨nodes, hnodes, count, -, tags, htags, rfl⟩ := h
  unfold arrayAggDistinct at hnodes htags
  split_ifs at hnodes htags
  obtain rfl := Option.some.inj hnodes
  obtain rfl := Option.some.inj htags
  refine ⟨fun hroom => ⟨hroom.nodes, hroom.tags⟩, fun ⟨hn, ht⟩ => ⟨hrow.key, ?_, hn, ht⟩⟩
  dsimp only
  split_ifs with hrank
  · exact pg.indexes_of_ranked (Nat.zero_lt_of_lt hrank)
  · exact hrow.severity

/-- An upsert on the rows of a table without two of one key. -/
theorem isSome_upsertIncident_iff {h : History} (hsound : h.Sound)
    (hrows : ∀ r ∈ h.db.incidents, pg.HasRoom r) {a : IncomingAlert} (htype : a.type ≠ "")
    (hsource : a.source ≠ "") (now : Time) :
    (pg.upsertIncident h.db a now).isSome = true ↔
      pg.Takes a ∧ FitsInt4 a.occCount ∧
        ((∀ row ∈ h.db.incidents, row.incidentKey ≠ a.key) →
          pg.indexes a.key = true ∧ pg.indexes a.severity = true) ∧
        ∀ row ∈ h.db.incidents, row.incidentKey = a.key → Updatable a row ∧
          pg.storesArray (row.nodesObserved ++ a.nodes).dedup = true ∧
          pg.storesArray (row.tags ++ a.tags).dedup = true := by
  have hplain := isSome_upsertIncident h.db a now
  rw [and_iff_right ⟨htype, hsource⟩, hsound.find?_iff] at hplain
  unfold Postgres.upsertIncident
  by_cases htakes : pg.Takes a
  swap
  · rw [if_neg htakes]
    exact iff_of_false Bool.false_ne_true fun hand => htakes hand.1
  rw [if_pos htakes, and_iff_right htakes]
  cases hupsert : h.db.upsertIncident a now with
  | none =>
    rw [hupsert] at hplain
    refine iff_of_false Bool.false_ne_true fun ⟨hcount, _, hupdate⟩ => ?_
    exact Bool.false_ne_true (hplain.mpr ⟨hcount, fun row hrow hkey => (hupdate row hrow hkey).1⟩)
  | some r =>
    obtain ⟨db, row, inserted⟩ := r
    rw [hupsert] at hplain
    obtain ⟨hcount, hupdatable⟩ := hplain.mp rfl
    have hfilter : ((some (db, row, inserted)).filter fun r => decide (pg.HasRoom r.2.1)).isSome
        = true ↔ pg.HasRoom row := by
      by_cases hroom : pg.HasRoom row <;> simp [hroom]
    rw [hfilter, and_iff_right hcount]
    rcases upsertIncident_cases hupsert with ⟨hnone, -, ⟨count, -, rfl⟩, -⟩ |
      ⟨old, hold, hkey, hrow, -, -⟩
    · rw [and_iff_left fun row hrow hkey => absurd hkey (hnone row hrow)]
      exact ⟨fun hroom _ => ⟨hroom.key, hroom.severity⟩, fun hindex =>
        ⟨(hindex hnone).1, (hindex hnone).2, htakes.nodes, htakes.tags⟩⟩
    · rw [hasRoom_updated_iff pg (hrows old hold) hrow]
      refine ⟨fun harrays => ⟨fun hnone => absurd hkey (hnone old hold), fun r hr hrkey => ?_⟩,
        fun hand => (hand.2 old hold hkey).2⟩
      obtain rfl := eq_of_nodup hsound.nodup hr hold (hrkey.trans hkey.symm)
      exact ⟨hupdatable r hr hrkey, harrays⟩

/-- **Which upserts succeed**, in every reachable table: those with values that PostgreSQL
takes, with a count that is an `INT`, with a key and a severity for which the indexes have room
if there is no row of the key, and for which the row of the key, if there is one, can be
updated. -/
theorem upsert_succeeds_iff (pg : Postgres) (ws : List Attempt) (a : IncomingAlert)
    (htype : a.type ≠ "") (hsource : a.source ≠ "") (now : Time) :
    (pg.upsertIncident (pg.history ws).db a now).isSome = true ↔
      pg.Takes a ∧ FitsInt4 a.occCount ∧
        ((∀ row ∈ (pg.history ws).db.incidents, row.incidentKey ≠ a.key) →
          pg.indexes a.key = true ∧ pg.indexes a.severity = true) ∧
        ∀ row ∈ (pg.history ws).db.incidents, row.incidentKey = a.key → Updatable a row ∧
          pg.storesArray (row.nodesObserved ++ a.nodes).dedup = true ∧
          pg.storesArray (row.tags ++ a.tags).dedup = true := by
  obtain ⟨ws', hws'⟩ := pg.exists_history ws
  have hsound : (pg.history ws).Sound := hws' ▸ sound_history ws'
  exact pg.isSome_upsertIncident_iff hsound (pg.hasRoom_history ws) htype hsource now

/-- No U+0000 in a text, and at most 2704 bytes in an entry of an index. -/
def plain : Postgres where
  storesText := fun s => !s.toList.contains '\x00'
  storesArray := fun l => l.all fun s => !s.toList.contains '\x00'
  storesJsonb := fun s => !s.toList.contains '\x00'
  indexes := fun s => s.utf8ByteSize ≤ 2704
  indexes_of_short := fun _ h => decide_eq_true (h.trans (by decide))

/-- A second alert with a tag. -/
theorem upsert_succeeds_iff_scan :
    let a : IncomingAlert := ⟨"scan", "10.0.0.1", 100, "high", "n1", ["t"], "", none⟩
    let ws : List Attempt := [{ write := .upsertIncident a }]
    (plain.upsertIncident (plain.history ws).db a 5).isSome = true ↔
      plain.Takes a ∧ FitsInt4 a.occCount ∧
        ((∀ row ∈ (plain.history ws).db.incidents, row.incidentKey ≠ a.key) →
          plain.indexes a.key = true ∧ plain.indexes a.severity = true) ∧
        ∀ row ∈ (plain.history ws).db.incidents, row.incidentKey = a.key → Updatable a row ∧
          plain.storesArray (row.nodesObserved ++ a.nodes).dedup = true ∧
          plain.storesArray (row.tags ++ a.tags).dedup = true := by
  intro a ws
  exact upsert_succeeds_iff plain ws a (by decide) (by decide) 5

/-- A second alert without a tag, like the first one: the tags of the update are
`NULL`. -/
theorem not_upsert_succeeds :
    let a : IncomingAlert := ⟨"scan", "10.0.0.1", 100, "high", "n1", [], "", none⟩
    plain.Takes a ∧ a.type ≠ "" ∧ a.source ≠ "" ∧
      (plain.upsertIncident (plain.history []).db a 0).isSome = true ∧
      (plain.upsertIncident (plain.history [{ write := .upsertIncident a }]).db a 5).isSome
        = false := by
  decide

end Postgres

end IncidentService
