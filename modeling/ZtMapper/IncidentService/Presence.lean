/-
# Rows stay

No statement of the service takes a row of `incidents` away.  An alert that the store can count
has a row as soon as its upsert has run, whether or not there was one before.
-/
import ZtMapper.IncidentService.Writers

open Table

namespace IncidentService

/-- There is a row of the key. -/
def Db.Has (db : Db) (k : String) : Prop := ∃ row ∈ db.incidents, row.incidentKey = k

/-- The store does not refuse to insert the alert. -/
structure Insertable (a : IncomingAlert) : Prop where
  type : a.type ≠ ""
  source : a.source ≠ ""
  count : FitsInt4 a.occCount

variable {db db' : Db} {k : String} {a : IncomingAlert} {now : Time} {o : Outcome}
  {h h' : Handler} {calls : List Call} {hist : History}

theorem Db.Has.congr (hk : db.Has k) (hsame : db.SameIncidents db') : db'.Has k := by
  unfold Db.Has
  rw [hsame.incidents]
  exact hk

/-- An update that keeps the keys. -/
theorem Db.Has.update (hk : db.Has k) {p : Incident → Bool} {f : Incident → Incident}
    (hf : ∀ r ∈ db.incidents, p r = true → (f r).incidentKey = r.incidentKey) :
    ∃ row ∈ Table.update p f db.incidents, row.incidentKey = k := by
  obtain ⟨row, hrow, rfl⟩ := hk
  refine ⟨_, mem_update.mpr ⟨row, hrow, rfl⟩, ?_⟩
  split_ifs with hp
  · exact hf row hrow hp
  · rfl

theorem Db.Has.upsert (hk : db.Has k) {row : Incident} {inserted : Bool}
    (hupsert : db.upsertIncident a now = some (db', row, inserted)) : db'.Has k := by
  rcases upsertIncident_cases hupsert with ⟨-, hrows, -, -⟩ | ⟨old, hold, hkey, hrow, hrows, -⟩
  · obtain ⟨r, hr, hrkey⟩ := hk
    exact ⟨r, hrows ▸ List.mem_append_left _ hr, hrkey⟩
  · unfold Db.Has
    rw [hrows]
    refine hk.update fun r _ hr => ?_
    rw [(updatedIncident_pair hrow).1, hkey]
    exact (of_decide_eq_true hr).symm

/-- What an upsert returns is the row of the key. -/
theorem has_of_upsert {row : Incident} {inserted : Bool}
    (hupsert : db.upsertIncident a now = some (db', row, inserted)) : db'.Has a.key := by
  rcases upsertIncident_cases hupsert with ⟨-, hrows, ⟨count, -, rfl⟩, -⟩ |
    ⟨old, hold, hkey, hrow, hrows, -⟩
  · exact ⟨_, hrows ▸ List.mem_append_right _ (List.mem_singleton_self _), rfl⟩
  · refine ⟨row, ?_, (updatedIncident_pair hrow).1.trans hkey⟩
    rw [hrows]
    refine mem_update.mpr ⟨old, hold, ?_⟩
    rw [if_pos (decide_eq_true hkey)]

theorem History.has_step (hk : hist.db.Has k) (w : Attempt) : (hist.step w).db.Has k := by
  unfold History.step
  split_ifs
  · exact hk
  · cases w.write with
    | upsertIncident a =>
      dsimp only
      cases hupsert : hist.db.upsertIncident a w.now with
      | none => exact hk
      | some r => exact hk.upsert hupsert
    | updateIncidentStatus id status actor notes =>
      dsimp only
      cases Db.parseStatus status with
      | none => exact hk
      | some st => exact hk.update fun _ _ _ => rfl
    | setIncidentPodContext id podName podNamespace => exact hk.update fun _ _ _ => rfl

/-- **Rows stay**, whatever a handler does. -/
theorem has_of_handlerStep (hk : db.Has k) (hstep : h.step db now o = some (db', h', calls)) :
    db'.Has k := by
  have hsame : (History.mk db []).db.SameIncidents db := ⟨rfl, rfl⟩
  refine Db.Has.congr ?_ (Handler.after_step hsame hstep)
  cases h.attempt now o with
  | none => exact hk
  | some w => exact History.has_step hk w

/-- **An upsert leaves a row of its key** if its statement is not lost: the row of an update that
is refused was there before. -/
theorem has_of_awaiting (hawaiting : h.awaiting = some a) (ha : Insertable a)
    (hfault : o.fault ≠ .lost) (hstep : h.step db now o = some (db', h', calls)) :
    db'.Has a.key := by
  by_cases hk : db.Has a.key
  · exact has_of_handlerStep hk hstep
  unfold Handler.awaiting at hawaiting
  split at hawaiting
  · obtain rfl := (Option.some.inj hawaiting).symm
    obtain ⟨⟨db₁, pc, calls₁⟩, hpc, heq⟩ := Option.map_eq_some_iff.mp hstep
    obtain ⟨rfl, -⟩ := Prod.mk.inj heq
    have hsome : (db.upsertIncident a now).isSome = true := by
      refine (isSome_upsertIncident db a now).mpr ⟨⟨ha.type, ha.source⟩, ha.count, fun row hrow => ?_⟩
      have hkey := List.find?_some hrow
      exact absurd ⟨row, List.mem_of_find?_eq_some hrow, of_decide_eq_true hkey⟩ hk
    obtain ⟨⟨db₂, row, inserted⟩, hupsert⟩ := Option.isSome_iff_exists.mp hsome
    have hhas := has_of_upsert hupsert
    unfold Deliver.step at hpc
    dsimp only at hpc
    rw [hupsert] at hpc
    obtain ⟨rfl, -, -⟩ := some_triple_inj hpc
    unfold exec
    cases hcase : o.fault with
    | lost => exact absurd hcase hfault
    | none | unacked => exact hhas
  · cases hawaiting

end IncidentService
