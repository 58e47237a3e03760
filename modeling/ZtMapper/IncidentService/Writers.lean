/-
# The writers of incidents

The handlers run concurrently, and what they do to `incidents` is what the writers of a
history do one after the other: an upsert for a delivery, a pod for a new incident, a status
for a request.  So the table tells the deliveries, whatever the interleaving.
-/
import ZtMapper.IncidentService.Actions
import ZtMapper.IncidentService.History

open Table Runs

namespace IncidentService

/-! ## One step of a handler -/

/-- The alert of a delivery that has not been upserted. -/
def Handler.awaiting : Handler → Option IncomingAlert
  | .deliver alert .upsert => some alert
  | _ => none

/-- What the next step of a handler writes. -/
def Handler.attempt (now : Time) (o : Outcome) : Handler → Option Attempt
  | .deliver alert .upsert => some ⟨.upsertIncident alert, now, decide (o.fault = .lost)⟩
  | .deliver _ (.pod inc) => o.pod.map fun name =>
      ⟨.setIncidentPodContext inc.id name defaultQuarantineNamespace, now, decide (o.fault = .lost)⟩
  | .patchStatus id body user _ (.update _) =>
      some ⟨.updateIncidentStatus id body.status user body.notes, now, decide (o.fault = .lost)⟩
  | _ => none

/-- Two databases with the same incidents. -/
structure Db.SameIncidents (db db' : Db) : Prop where
  incidents : db'.incidents = db.incidents
  incidentSeq : db'.incidentSeq = db.incidentSeq

variable {db db' db₂ : Db} {now : Time} {o : Outcome} {h h' : Handler} {calls : List Call}
  {a : IncomingAlert}

/-- The audit log is not the table of incidents. -/
theorem sameIncidents_record (o : Outcome) (db : Db) (entry : AuditEntry) :
    db.SameIncidents (record o db entry) := by
  unfold record
  split_ifs <;> exact ⟨rfl, rfl⟩

/-- Unchanged twice is unchanged. -/
theorem Db.SameIncidents.trans (h₁ : db.SameIncidents db') (h₂ : db'.SameIncidents db₂) :
    db.SameIncidents db₂ :=
  ⟨h₂.incidents.trans h₁.incidents, h₂.incidentSeq.trans h₁.incidentSeq⟩

/-- The approve handler leaves the incidents. -/
theorem Approve.sameIncidents {pc pc' : Approve} {id : ℕ} {user role : String}
    (hstep : pc.step db now o id user role = some (db', pc', calls)) : db.SameIncidents db' := by
  cases pc with
  | decide =>
    obtain ⟨rfl, -, -⟩ := some_triple_inj hstep
    cases o.fault <;> exact ⟨rfl, rfl⟩
  | mark a path err =>
    obtain ⟨rfl, -, -⟩ := some_triple_inj hstep
    cases o.fault <;> exact ⟨rfl, rfl⟩
  | execute a =>
    unfold Approve.step at hstep
    dsimp only at hstep
    cases happlied : o.applied <;> rw [happlied] at hstep <;>
    · obtain ⟨rfl, -, -⟩ := some_triple_inj hstep
      exact ⟨rfl, rfl⟩
  | record path err =>
    obtain ⟨rfl, -, -⟩ := some_triple_inj hstep
    exact sameIncidents_record ..
  | get | final =>
    obtain ⟨rfl, -, -⟩ := some_triple_inj hstep
    exact ⟨rfl, rfl⟩
  | answered answer => cases hstep

/-- The reject handler leaves the incidents. -/
theorem Reject.sameIncidents {pc pc' : Reject} {id : ℕ} {user role : String}
    (hstep : pc.step db now o id user role = some (db', pc', calls)) : db.SameIncidents db' := by
  cases pc with
  | decide =>
    obtain ⟨rfl, -, -⟩ := some_triple_inj hstep
    cases o.fault <;> exact ⟨rfl, rfl⟩
  | get =>
    obtain ⟨rfl, -, -⟩ := some_triple_inj hstep
    exact ⟨rfl, rfl⟩
  | record a =>
    obtain ⟨rfl, -, -⟩ := some_triple_inj hstep
    exact sameIncidents_record ..
  | answered answer => cases hstep

/-- The follow-up handler leaves the incidents. -/
theorem FollowUp.sameIncidents {pc pc' : FollowUp} {id : ℕ} {body : FollowUpRequest}
    {user role : String} (hstep : pc.step db now o id body user role = some (db', pc', calls)) :
    db.SameIncidents db' := by
  cases pc with
  | create type inc =>
    obtain ⟨rfl, -, -⟩ := some_triple_inj hstep
    cases o.fault <;> exact ⟨rfl, rfl⟩
  | record act =>
    obtain ⟨rfl, -, -⟩ := some_triple_inj hstep
    exact sameIncidents_record ..
  | check | get =>
    obtain ⟨rfl, -, -⟩ := some_triple_inj hstep
    exact ⟨rfl, rfl⟩
  | answered answer => cases hstep

/-! ## One step of a history -/

/-- A history after what a handler writes, if it writes. -/
def History.after (hist : History) (w : Option Attempt) : History := w.elim hist hist.step

/-- The statement of an upsert looks at the incidents only. -/
theorem upsertIncident_congr (hsame : db₂.SameIncidents db) (a : IncomingAlert) (now : Time) :
    (∃ db' db₂' row inserted, db.upsertIncident a now = some (db', row, inserted) ∧
      db₂.upsertIncident a now = some (db₂', row, inserted) ∧ db₂'.SameIncidents db') ∨
    (db.upsertIncident a now = none ∧ db₂.upsertIncident a now = none) := by
  have hform : ∀ d : Db, d.upsertIncident a now = if a.source = "" ∨ a.type = "" then none
      else (toInt4 a.occCount).bind fun count =>
        (upsert (fun r => r.incidentKey = a.key) (insertedIncident a d.incidentSeq count now)
          (updatedIncident a now) d.incidents).map fun r =>
            ({ d with incidents := r.1, incidentSeq := d.incidentSeq + 1 }, r.2.1, r.2.2) := by
    intro d
    unfold Db.upsertIncident
    simp only [Option.map_eq_bind]
    rfl
  rw [hform, hform, hsame.incidents, hsame.incidentSeq]
  by_cases hempty : a.source = "" ∨ a.type = ""
  · rw [if_pos hempty, if_pos hempty]
    exact Or.inr ⟨rfl, rfl⟩
  · rw [if_neg hempty, if_neg hempty]
    cases toInt4 a.occCount with
    | none => exact Or.inr ⟨rfl, rfl⟩
    | some count =>
      rw [Option.bind_some, Option.bind_some]
      cases upsert (fun r => decide (r.incidentKey = a.key))
          (insertedIncident a db₂.incidentSeq count now) (updatedIncident a now) db₂.incidents with
      | none => exact Or.inr ⟨rfl, rfl⟩
      | some r => exact Or.inl ⟨_, _, r.2.1, r.2.2, rfl, rfl, rfl, rfl⟩

variable {hist : History}

/-- A delivery changes the incidents by its upsert only. -/
theorem Deliver.after_step {pc pc' : Deliver} {alert : IncomingAlert}
    (hsame : hist.db.SameIncidents db)
    (hstep : pc.step db now o alert = some (db', pc', calls)) :
    (hist.after ((Handler.deliver alert pc).attempt now o)).db.SameIncidents db' := by
  cases pc with
  | upsert =>
    unfold Deliver.step at hstep
    dsimp only at hstep
    unfold History.after Handler.attempt
    dsimp only [Option.elim_some]
    unfold History.step
    dsimp only
    rcases upsertIncident_congr hsame alert now with
      ⟨dbUp, histUp, row, inserted, hdb, hhist, hup⟩ | ⟨hdb, hhist⟩
    · rw [hdb] at hstep
      rw [hhist]
      obtain ⟨rfl, -, -⟩ := some_triple_inj hstep
      unfold exec
      cases o.fault with
      | none => exact hup
      | lost => exact hsame
      | unacked => exact hup
    · rw [hdb] at hstep
      rw [hhist]
      obtain ⟨rfl, -, -⟩ := some_triple_inj hstep
      split_ifs <;> exact hsame
  | record inc =>
    obtain ⟨rfl, -, -⟩ := some_triple_inj hstep
    exact hsame.trans (sameIncidents_record ..)
  | pod inc =>
    unfold Deliver.step at hstep
    dsimp only at hstep
    unfold Handler.attempt
    cases hpod : o.pod with
    | none =>
      rw [hpod] at hstep
      obtain ⟨rfl, -, -⟩ := some_triple_inj hstep
      exact hsame
    | some name =>
      rw [hpod] at hstep
      obtain ⟨rfl, -, -⟩ := some_triple_inj hstep
      have hset : (hist.db.setIncidentPodContext inc.id name defaultQuarantineNamespace
          now).SameIncidents
            (db.setIncidentPodContext inc.id name defaultQuarantineNamespace now) := by
        refine ⟨?_, hsame.incidentSeq⟩
        unfold Db.setIncidentPodContext
        dsimp only
        rw [hsame.incidents]
      unfold History.after exec
      dsimp only [Option.map_some, Option.elim_some]
      unfold History.step
      dsimp only
      cases o.fault with
      | none => exact hset
      | lost => exact hsame
      | unacked => exact hset
  | list inc =>
    unfold Deliver.step at hstep
    dsimp only at hstep
    split_ifs at hstep <;>
    · obtain ⟨rfl, -, -⟩ := some_triple_inj hstep
      exact hsame
  | create inc =>
    obtain ⟨rfl, -, -⟩ := some_triple_inj hstep
    cases o.fault <;> exact ⟨hsame.incidents, hsame.incidentSeq⟩
  | recordAction act =>
    obtain ⟨rfl, -, -⟩ := some_triple_inj hstep
    exact hsame.trans (sameIncidents_record ..)
  | done => cases hstep

/-- The status handler changes the incidents by its update only. -/
theorem PatchStatus.after_step {pc pc' : PatchStatus} {id : ℕ} {body : StatusUpdate}
    {user role : String} (hsame : hist.db.SameIncidents db)
    (hstep : pc.step db now o id body user role = some (db', pc', calls)) :
    (hist.after ((Handler.patchStatus id body user role pc).attempt now o)).db.SameIncidents db' := by
  cases pc with
  | update prev =>
    unfold PatchStatus.step at hstep
    dsimp only at hstep
    unfold History.after Handler.attempt
    dsimp only [Option.elim_some]
    unfold History.step
    dsimp only
    cases hstatus : Db.parseStatus body.status with
    | none =>
      rw [hstatus] at hstep
      obtain ⟨rfl, -, -⟩ := some_triple_inj hstep
      split_ifs <;> exact hsame
    | some status =>
      rw [hstatus] at hstep
      obtain ⟨rfl, -, -⟩ := some_triple_inj hstep
      have hset : (hist.db.updateIncidentStatus id status user body.notes now).SameIncidents
          (db.updateIncidentStatus id status user body.notes now) := by
        refine ⟨?_, hsame.incidentSeq⟩
        unfold Db.updateIncidentStatus
        dsimp only
        rw [hsame.incidents]
      unfold exec
      cases o.fault with
      | none => exact hset
      | lost => exact hsame
      | unacked => exact hset
  | getPrev | get =>
    obtain ⟨rfl, -, -⟩ := some_triple_inj hstep
    exact hsame
  | record prev upd =>
    obtain ⟨rfl, -, -⟩ := some_triple_inj hstep
    exact hsame.trans (sameIncidents_record ..)
  | create upd =>
    obtain ⟨rfl, -, -⟩ := some_triple_inj hstep
    cases o.fault <;> exact ⟨hsame.incidents, hsame.incidentSeq⟩
  | recordAction upd act =>
    obtain ⟨rfl, -, -⟩ := some_triple_inj hstep
    exact hsame.trans (sameIncidents_record ..)
  | answered answer => cases hstep

/-- **A step of a handler** does to the incidents what its attempt does to a history. -/
theorem Handler.after_step (hsame : hist.db.SameIncidents db)
    (hstep : h.step db now o = some (db', h', calls)) :
    (hist.after (h.attempt now o)).db.SameIncidents db' := by
  cases h with
  | approve id user role pc =>
    obtain ⟨⟨_, _, _⟩, hpc, heq⟩ := Option.map_eq_some_iff.mp hstep
    obtain ⟨rfl, -⟩ := Prod.mk.inj heq
    exact hsame.trans (Approve.sameIncidents hpc)
  | reject id user role pc =>
    obtain ⟨⟨_, _, _⟩, hpc, heq⟩ := Option.map_eq_some_iff.mp hstep
    obtain ⟨rfl, -⟩ := Prod.mk.inj heq
    exact hsame.trans (Reject.sameIncidents hpc)
  | patchStatus id body user role pc =>
    obtain ⟨⟨_, _, _⟩, hpc, heq⟩ := Option.map_eq_some_iff.mp hstep
    obtain ⟨rfl, -⟩ := Prod.mk.inj heq
    exact PatchStatus.after_step hsame hpc
  | followUp id body user role pc =>
    obtain ⟨⟨_, _, _⟩, hpc, heq⟩ := Option.map_eq_some_iff.mp hstep
    obtain ⟨rfl, -⟩ := Prod.mk.inj heq
    exact hsame.trans (FollowUp.sameIncidents hpc)
  | deliver alert pc =>
    obtain ⟨⟨_, _, _⟩, hpc, heq⟩ := Option.map_eq_some_iff.mp hstep
    obtain ⟨rfl, -⟩ := Prod.mk.inj heq
    exact Deliver.after_step hsame hpc

/-! ## Deliveries -/

/-- A delivery past its upsert awaits no write. -/
theorem awaiting_autoAction (alert : IncomingAlert) (inc : Incident) :
    (Handler.deliver alert (Deliver.autoAction inc)).awaiting = none := by
  unfold Deliver.autoAction
  split_ifs <;> rfl

/-- A delivery writes to the incidents in its first step only. -/
theorem Deliver.awaiting_of_step {pc pc' : Deliver} {alert : IncomingAlert}
    (hstep : pc.step db now o alert = some (db', pc', calls)) :
    (Handler.deliver alert pc').awaiting = none := by
  cases pc with
  | upsert =>
    unfold Deliver.step at hstep
    dsimp only at hstep
    cases hupsert : db.upsertIncident alert now with
    | none =>
      rw [hupsert] at hstep
      obtain ⟨-, rfl, -⟩ := some_triple_inj hstep
      rfl
    | some r =>
      rw [hupsert] at hstep
      obtain ⟨-, rfl, -⟩ := some_triple_inj hstep
      unfold exec
      cases o.fault with
      | none =>
        dsimp only
        split_ifs
        · rfl
        · exact awaiting_autoAction alert r.2.1
      | lost | unacked => rfl
  | record inc =>
    obtain ⟨-, rfl, -⟩ := some_triple_inj hstep
    rfl
  | pod inc =>
    unfold Deliver.step at hstep
    dsimp only at hstep
    cases hpod : o.pod with
    | none =>
      rw [hpod] at hstep
      obtain ⟨-, rfl, -⟩ := some_triple_inj hstep
      exact awaiting_autoAction alert inc
    | some name =>
      rw [hpod] at hstep
      obtain ⟨-, rfl, -⟩ := some_triple_inj hstep
      unfold exec
      cases o.fault <;> exact awaiting_autoAction alert inc
  | list inc =>
    unfold Deliver.step at hstep
    dsimp only at hstep
    split_ifs at hstep <;>
    · obtain ⟨-, rfl, -⟩ := some_triple_inj hstep
      rfl
  | create inc =>
    obtain ⟨-, rfl, -⟩ := some_triple_inj hstep
    cases o.fault <;> rfl
  | recordAction act =>
    obtain ⟨-, rfl, -⟩ := some_triple_inj hstep
    rfl
  | done => cases hstep

/-- A delivery makes one attempt to upsert. -/
theorem awaiting_of_step (hstep : h.step db now o = some (db', h', calls)) : h'.awaiting = none := by
  cases h with
  | approve | reject | patchStatus | followUp =>
    obtain ⟨⟨_, _, _⟩, -, heq⟩ := Option.map_eq_some_iff.mp hstep
    obtain ⟨-, rfl, -⟩ := some_triple_inj (congrArg some heq)
    rfl
  | deliver alert pc =>
    obtain ⟨⟨_, _, _⟩, hpc, heq⟩ := Option.map_eq_some_iff.mp hstep
    obtain ⟨-, rfl, -⟩ := some_triple_inj (congrArg some heq)
    exact Deliver.awaiting_of_step hpc

/-- The alerts of the successful upserts. -/
def History.alerts (hist : History) : List IncomingAlert := hist.upserts.map (·.1)

/-- An attempt adds the alert of its upsert, or none. -/
theorem History.alerts_step (hist : History) (w : Attempt) :
    (hist.step w).alerts = hist.alerts ∨
      ∃ a, w.write = .upsertIncident a ∧ (hist.step w).alerts = hist.alerts ++ [a] := by
  unfold History.step
  split_ifs
  · exact Or.inl rfl
  · cases w.write with
    | upsertIncident a =>
      dsimp only
      cases hist.db.upsertIncident a w.now with
      | none => exact Or.inl rfl
      | some r => exact Or.inr ⟨a, rfl, List.map_append⟩
    | updateIncidentStatus id status actor notes =>
      dsimp only
      cases Db.parseStatus status <;> exact Or.inl rfl
    | setIncidentPodContext => exact Or.inl rfl

/-- Only a delivery that awaits its upsert attempts one, and of its own alert. -/
theorem awaiting_of_attempt {w : Attempt} (hw : h.attempt now o = some w)
    (ha : w.write = .upsertIncident a) : h.awaiting = some a := by
  unfold Handler.attempt at hw
  split at hw
  · obtain rfl := Option.some.inj hw
    exact congrArg some (Write.upsertIncident.inj ha)
  · obtain ⟨name, -, rfl⟩ := Option.map_eq_some_iff.mp hw
    cases ha
  · obtain rfl := Option.some.inj hw
    cases ha
  · cases hw

/-- A history grows by the alert that a handler awaits, or not at all. -/
theorem count_alerts_after (hist : History) (h : Handler) (now : Time) (o : Outcome)
    (a : IncomingAlert) : (hist.after (h.attempt now o)).alerts.count a ≤
      hist.alerts.count a + h.awaiting.toList.count a := by
  cases hw : h.attempt now o with
  | none => exact Nat.le_add_right _ _
  | some w =>
    have hafter : hist.after (some w) = hist.step w := rfl
    rw [hafter]
    rcases hist.alerts_step w with hsame | ⟨b, hb, hgrown⟩
    · rw [hsame]
      exact Nat.le_add_right _ _
    · rw [hgrown, List.count_append, awaiting_of_attempt hw hb]
      exact le_rfl

/-- The alerts that have arrived. -/
def arrivals (events : List Event) : List IncomingAlert :=
  events.filterMap fun
    | .arrive (.deliver a) => some a
    | _ => none

/-- Element `i` no longer counts. -/
theorem count_filterMap_set {β γ : Type} [DecidableEq γ] {l : List β} {f : β → Option γ} {i : ℕ}
    {b b' : β} (hget : l[i]? = some b) (hnone : f b' = none) (c : γ) :
    ((l.set i b').filterMap f).count c + (f b).toList.count c = (l.filterMap f).count c := by
  induction l generalizing i with
  | nil => cases hget
  | cons d l ih =>
    cases i with
    | zero =>
      obtain rfl := Option.some.inj hget
      rw [List.set_cons_zero, List.filterMap_cons_none hnone, List.filterMap_cons]
      cases f d with
      | none => rfl
      | some c' =>
        dsimp only [Option.toList_some]
        rw [List.count_cons, List.count_cons, List.count_nil, Nat.zero_add]
    | succ i =>
      have hrest := ih hget
      rw [List.set_cons_succ, List.filterMap_cons, List.filterMap_cons]
      cases f d with
      | none => exact hrest
      | some c' =>
        dsimp only
        rw [List.count_cons, List.count_cons]
        omega

/-! ## The service -/

/-- The rows of a history come from its alerts. -/
def History.Stems (hist : History) : Prop :=
  ∀ row ∈ hist.db.incidents, ∃ a ∈ hist.alerts,
    row.incidentKey = a.key ∧ row.type = a.type ∧ row.sourceIp = a.source

/-- An update that keeps the key and the pair of a row. -/
theorem History.Stems.update (hstems : hist.Stems) {p : Incident → Bool} {f : Incident → Incident}
    (hf : ∀ r, (f r).incidentKey = r.incidentKey ∧ (f r).type = r.type ∧
      (f r).sourceIp = r.sourceIp) :
    Stems { hist with db := { hist.db with incidents := Table.update p f hist.db.incidents } } := by
  intro row hrow
  obtain ⟨r, hr, rfl⟩ := mem_update.mp hrow
  obtain ⟨a, ha, hkey, htype, hsource⟩ := hstems r hr
  refine ⟨a, ha, ?_⟩
  split_ifs
  · exact ⟨(hf r).1.trans hkey, (hf r).2.1.trans htype, (hf r).2.2.trans hsource⟩
  · exact ⟨hkey, htype, hsource⟩

/-- The alerts of the history stay those of the attempts. -/
theorem History.Stems.step (hstems : hist.Stems) (w : Attempt) : (hist.step w).Stems := by
  unfold History.step
  split_ifs
  · exact hstems
  · cases w.write with
    | upsertIncident a =>
      dsimp only
      cases hupsert : hist.db.upsertIncident a w.now with
      | none => exact hstems
      | some r =>
        obtain ⟨db, row, inserted⟩ := r
        have halerts : History.alerts ⟨db, hist.upserts ++ [(a, inserted)]⟩ = hist.alerts ++ [a] :=
          List.map_append
        intro r hr
        rw [Option.elim_some, halerts]
        rcases upsertIncident_cases hupsert with ⟨-, hrows, ⟨count, -, rfl⟩, -⟩ |
          ⟨old, hold, hkey, hrow, hrows, -⟩
        · rcases List.mem_append.mp (hrows ▸ hr) with hr | hr
          · obtain ⟨b, hb, hpair⟩ := hstems r hr
            exact ⟨b, List.mem_append_left _ hb, hpair⟩
          · obtain rfl := List.mem_singleton.mp hr
            exact ⟨a, List.mem_append_right _ (List.mem_singleton_self a), rfl, rfl, rfl⟩
        · obtain ⟨r', hr', rfl⟩ := mem_update.mp (hrows ▸ hr)
          split_ifs
          · obtain ⟨b, hb, hbkey, htype, hsource⟩ := hstems old hold
            obtain ⟨hkey', htype', hsource'⟩ := updatedIncident_pair hrow
            exact ⟨b, List.mem_append_left _ hb, hkey'.trans hbkey, htype'.trans htype,
              hsource'.trans hsource⟩
          · obtain ⟨b, hb, hpair⟩ := hstems r' hr'
            exact ⟨b, List.mem_append_left _ hb, hpair⟩
    | updateIncidentStatus id status actor notes =>
      dsimp only
      cases Db.parseStatus status with
      | none => exact hstems
      | some st => exact hstems.update fun _ => ⟨rfl, rfl, rfl⟩
    | setIncidentPodContext id podName podNamespace =>
      exact hstems.update fun _ => ⟨rfl, rfl, rfl⟩

/-- A history with the incidents of a service, whose upserts have been delivered. -/
structure Told (s : Service) (events : List Event) (hist : History) : Prop where
  sound : hist.Sound
  stems : hist.Stems
  same : hist.db.SameIncidents s.db
  count : ∀ a, hist.alerts.count a + (s.handlers.filterMap Handler.awaiting).count a ≤
    (arrivals events).count a

variable {s s' : Service} {events : List Event} {e : Event}

/-- A step that writes or does not keeps the history sound. -/
theorem History.Sound.after (hsound : hist.Sound) (w : Option Attempt) : (hist.after w).Sound := by
  cases w with
  | none => exact hsound
  | some w => exact hsound.step w

/-- The same for the origin of the alerts. -/
theorem History.Stems.after (hstems : hist.Stems) (w : Option Attempt) : (hist.after w).Stems := by
  cases w with
  | none => exact hstems
  | some w => exact hstems.step w

/-- Arrivals are listed event by event. -/
theorem arrivals_concat (events : List Event) (e : Event) :
    arrivals (events ++ [e]) = arrivals events ++ arrivals [e] := List.filterMap_append

/-- One step of the service. -/
theorem Told.step (h : Told s events hist) (hstep : s.step e = some s') :
    ∃ hist', Told s' (events ++ [e]) hist' := by
  cases e with
  | tick d =>
    obtain rfl := Option.some.inj hstep
    refine ⟨hist, h.sound, h.stems, h.same, fun a => ?_⟩
    rw [arrivals_concat, List.count_append]
    exact Nat.le_add_right_of_le (h.count a)
  | arrive r =>
    obtain rfl := Option.some.inj hstep
    refine ⟨hist, h.sound, h.stems, h.same, fun a => ?_⟩
    have hstart : [r.start].filterMap Handler.awaiting = arrivals [.arrive r] := by
      cases r <;> rfl
    rw [arrivals_concat, List.count_append]
    dsimp only
    rw [List.filterMap_append, List.count_append, hstart, ← Nat.add_assoc]
    exact Nat.add_le_add_right (h.count a) _
  | advance i o =>
    obtain ⟨hd, hget, hmap⟩ := Option.bind_eq_some_iff.mp hstep
    obtain ⟨⟨db, hd', calls⟩, hhandler, rfl⟩ := Option.map_eq_some_iff.mp hmap
    refine ⟨hist.after (hd.attempt s.now o), h.sound.after _, h.stems.after _,
      Handler.after_step h.same hhandler, fun a => ?_⟩
    have hset := count_filterMap_set hget (awaiting_of_step hhandler) a
    have hgrown := count_alerts_after hist hd s.now o a
    have hcount := h.count a
    rw [arrivals_concat, List.count_append]
    dsimp only
    omega

/-- **Every run has a history**, the writes to the table of incidents in order. -/
theorem told_of_reach (hreach : reach Service.step {} events = some s) :
    ∃ hist, Told s events hist := by
  induction events using List.reverseRecOn generalizing s with
  | nil =>
    obtain rfl := Option.some.inj hreach
    exact ⟨{}, History.sound_nil, fun _ hrow => absurd hrow List.not_mem_nil, ⟨rfl, rfl⟩,
      fun _ => le_rfl⟩
  | append_singleton events e ih =>
    obtain ⟨s₁, hs₁, hstep⟩ := reach_concat_eq_some.mp hreach
    obtain ⟨hist, htold⟩ := ih hs₁
    exact htold.step hstep

/-- **The table tells the deliveries**, whatever the interleaving of deliveries and requests and
whatever fails: some of the alerts that have arrived, each as often as it has arrived at most,
are those that the rows summarise, one row for each of their keys, with the pair of one of
them. -/
theorem incidents_tell_deliveries (hreach : reach Service.step {} events = some s) :
    ∃ as : List IncomingAlert, as.Subperm (arrivals events) ∧
      (s.db.incidents.map (·.incidentKey)).Nodup ∧
      (∀ a ∈ as, ∃ row ∈ s.db.incidents, row.incidentKey = a.key) ∧
      ∀ row ∈ s.db.incidents, row.Stamped ∧
        Summarises row (as.filter fun a => a.key = row.incidentKey) ∧
        ∃ a ∈ as, row.incidentKey = a.key ∧ row.type = a.type ∧ row.sourceIp = a.source := by
  obtain ⟨hist, htold⟩ := told_of_reach hreach
  rw [htold.same.incidents]
  refine ⟨hist.alerts, List.subperm_ext_iff.mpr fun a _ => le_trans (Nat.le_add_right _ _)
    (htold.count a), htold.sound.nodup, fun a ha => ?_, fun row hrow =>
      ⟨htold.sound.stamped row hrow, htold.sound.summary row hrow, htold.stems row hrow⟩⟩
  obtain ⟨u, hu, rfl⟩ := List.mem_map.mp ha
  exact htold.sound.present u hu

/-- Two deliveries, and the upsert of the first one fails. -/
theorem incidents_tell_deliveries_lost :
    let a : IncomingAlert := ⟨"scan", "10.0.0.1", 100, "high", "n1", ["t"], "", none⟩
    let events : List Event :=
      [.arrive (.deliver a), .arrive (.deliver a), .advance 0 { fault := .lost }, .advance 1 {}]
    ∃ s, reach Service.step {} events = some s ∧
      s.db.incidents.map (fun row => (row.incidentKey, row.occurrenceCount)) =
        [("scan|10.0.0.1", 1)] ∧
      ∃ as : List IncomingAlert, as.Subperm [a, a] ∧ ∀ row ∈ s.db.incidents,
        Summarises row (as.filter fun a => a.key = row.incidentKey) := by
  intro a events
  have hrun : (reach Service.step {} events).map (fun s =>
      s.db.incidents.map fun row => (row.incidentKey, row.occurrenceCount)) =
        some [("scan|10.0.0.1", 1)] := by
    decide
  obtain ⟨s, hs, hrows⟩ := Option.map_eq_some_iff.mp hrun
  obtain ⟨as, hsub, -, -, htells⟩ := incidents_tell_deliveries hs
  exact ⟨s, hs, hrows, as, hsub, fun row hrow => (htells row hrow).2.1⟩

end IncidentService
