/-
# Handlers of the incident service

The requests of the API and the deliveries to the subscriber run concurrently.
Every handler is a program counter, and one step of it runs one statement, one call
of `executeAction`, or one call of `Audit.Record`.  A statement may fail, also after
it has been applied; a failing one is answered as the source does.
-/
import ZtMapper.IncidentService.Tables

namespace IncidentService

/-- What becomes of a statement: it runs, it fails, or it runs and the answer is
lost. -/
inductive Fault where
  | none
  | lost
  | unacked
  deriving DecidableEq, Repr

/-- What a step meets: the fate of its statement with the text of the error, the
result of applying an action, the pod of the source, and the order in which pending
actions are listed. -/
structure Outcome where
  fault : Fault := .none
  text : String := ""
  applied : Except String String := .ok ""
  pod : Option String := none
  listing : List Action := []

/-- An answer to a request. -/
inductive Answer where
  | error (code : ℕ) (text : String)
  | incident (inc : Incident)
  | action (code : ℕ) (a : Action)
  | approved (final : Option Action) (appliedTo : String) (error : Option String)
  deriving DecidableEq, Repr

/-- A call that leaves the database. -/
inductive Call where
  | execute (a : Action)
  | record (entry : AuditEntry)
  deriving DecidableEq, Repr

/-- Run a statement that changes the tables, and go on with its result or with the
error. -/
def exec {α β : Type} (o : Outcome) (db : Db) (stmt : Db × α) (ok : α → β) (err : String → β) :
    Db × β :=
  match o.fault with
  | .none => (stmt.1, ok stmt.2)
  | .lost => (db, err o.text)
  | .unacked => (stmt.1, err o.text)

/-- Run a query. -/
def query {α β : Type} (o : Outcome) (result : α) (ok : α → β) (err : String → β) : β :=
  if o.fault = .none then ok result else err o.text

/-- `Audit.Record`, whose failure is not noticed. -/
def record (o : Outcome) (db : Db) (entry : AuditEntry) : Db :=
  if o.fault = .lost then db else db.appendAudit entry

def auditEntry (actor role action targetType : String) (targetId : ℕ) : AuditEntry where
  actor := actor
  actorRole := if role = "" then none else some role
  action := action
  targetType := targetType
  targetId := targetId

def notPendingText (id : ℕ) : String := s!"action {id} not in pending state (or not found)"

/-! ## `approveAction` -/

inductive Approve where
  | decide
  | get
  | execute (a : Action)
  | mark (a : Action) (path : String) (err : Option String)
  | record (path : String) (err : Option String)
  | final (path : String) (err : Option String)
  | answered (answer : Answer)
  deriving DecidableEq, Repr

def Approve.step (db : Db) (now : Time) (o : Outcome) (id : ℕ) (user role : String) :
    Approve → Option (Db × Approve × List Call)
  | .decide =>
    let (db', pc) := exec o db (db.decideAction id .approve user now)
      (fun n => if n = 0 then .answered (.error 400 (notPendingText id)) else .get)
      (fun text => .answered (.error 400 text))
    some (db', pc, [])
  | .get =>
    let pc := query o (db.getAction id)
      (fun found => found.elim (.answered (.error 400 "not found")) .execute)
      (fun text => .answered (.error 400 text))
    some (db, pc, [])
  | .execute a =>
    match o.applied with
    | .ok path => some (db, .mark a path none, [.execute a])
    | .error text => some (db, .mark a "" (some text), [.execute a])
  | .mark _ path err =>
    let (db', pc) := exec o db (db.markActionExecuted id err now, ())
      (fun _ => .record path err) (fun text => .answered (.error 500 text))
    some (db', pc, [])
  | .record path err =>
    let entry := auditEntry user role "action.approved" "action" id
    some (IncidentService.record o db entry, .final path err, [.record entry])
  | .final path err =>
    let final := query o (db.getAction id) (fun found => found) (fun _ => none)
    some (db, .answered (.approved final path err), [])
  | .answered _ => none

/-! ## `rejectAction` -/

inductive Reject where
  | decide
  | get
  | record (a : Action)
  | answered (answer : Answer)
  deriving DecidableEq, Repr

def Reject.step (db : Db) (now : Time) (o : Outcome) (id : ℕ) (user role : String) :
    Reject → Option (Db × Reject × List Call)
  | .decide =>
    let (db', pc) := exec o db (db.decideAction id .reject user now)
      (fun n => if n = 0 then .answered (.error 400 (notPendingText id)) else .get)
      (fun text => .answered (.error 400 text))
    some (db', pc, [])
  | .get =>
    let pc := query o (db.getAction id)
      (fun found => found.elim (.answered (.error 400 "not found")) .record)
      (fun text => .answered (.error 400 text))
    some (db, pc, [])
  | .record a =>
    let entry := auditEntry user role "action.rejected" "action" id
    some (IncidentService.record o db entry, .answered (.action 200 a), [.record entry])
  | .answered _ => none

/-! ## `updateIncidentStatus` -/

structure StatusUpdate where
  status : String
  notes : Option String
  deriving DecidableEq, Repr

inductive PatchStatus where
  | getPrev
  | update (prev : Incident)
  | get (prev : Incident)
  | record (prev upd : Incident)
  | create (upd : Incident)
  | recordAction (upd : Incident) (act : Action)
  | answered (answer : Answer)
  deriving DecidableEq, Repr

/-- A character in quotes, as `%q` prints it; what is not printable in Latin-1 is escaped. -/
def quoteChar (c : Char) : List Char :=
  let hex (width : ℕ) : List Char :=
    let digits := Nat.toDigits 16 c.toNat
    List.replicate (width - digits.length) '0' ++ digits
  match [('"', '"'), ('\\', '\\'), ('\x07', 'a'), ('\x08', 'b'), ('\x0c', 'f'), ('\n', 'n'),
      ('\r', 'r'), ('\t', 't'), ('\x0b', 'v')].lookup c with
  | some e => ['\\', e]
  | none =>
    if c.toNat < 0x20 ∨ c.toNat = 0x7f then '\\' :: 'x' :: hex 2
    else if (0x80 ≤ c.toNat ∧ c.toNat ≤ 0xa0) ∨ c.toNat = 0xad then '\\' :: 'u' :: hex 4
    else [c]

/-- `%q` -/
def strconvQuote (s : String) : String :=
  String.ofList ('"' :: (s.toList.flatMap quoteChar ++ ['"']))

/-- A status change that asks for a draft. -/
def wantsDraft (prev upd : Incident) : Prop :=
  prev.status = .new ∧ upd.status = .ack ∧ (prev.severity = "high" ∨ prev.severity = "critical")

instance (prev upd : Incident) : Decidable (wantsDraft prev upd) :=
  inferInstanceAs (Decidable (_ ∧ _))

def PatchStatus.step (db : Db) (now : Time) (o : Outcome) (id : ℕ) (body : StatusUpdate)
    (user role : String) : PatchStatus → Option (Db × PatchStatus × List Call)
  | .getPrev =>
    let pc := query o (db.getIncident id)
      (fun found => found.elim (.answered (.error 404 "not found")) .update)
      (fun text => .answered (.error 500 text))
    some (db, pc, [])
  | .update prev =>
    match Db.parseStatus body.status with
    | none => some (db, .answered (.error 400 ("invalid status " ++ strconvQuote body.status)), [])
    | some status =>
      let (db', pc) := exec o db
        (db.updateIncidentStatus id status user body.notes now, db.incidents.countP (·.id = id))
        (fun n => if n = 0 then .answered (.error 400 "not found") else .get prev)
        (fun text => .answered (.error 400 text))
      some (db', pc, [])
  | .get prev =>
    let pc := query o (db.getIncident id)
      (fun found => found.elim (.answered (.error 400 "not found")) (.record prev))
      (fun text => .answered (.error 400 text))
    some (db, pc, [])
  | .record prev upd =>
    let entry := auditEntry user role ("incident." ++ body.status) "incident" id
    let pc := if wantsDraft prev upd then .create upd else .answered (.incident upd)
    some (IncidentService.record o db entry, pc, [.record entry])
  | .create upd =>
    -- `maybeCreateAction` looks for no pending draft, and its error is ignored
    let (db', pc) := exec o db (db.createAction upd.id .quarantinePod now)
      (fun act => .recordAction upd act) (fun _ => .answered (.incident upd))
    some (db', pc, [])
  | .recordAction upd act =>
    let entry := auditEntry user "system" "action.created" "action" act.id
    some (IncidentService.record o db entry, .answered (.incident upd), [.record entry])
  | .answered _ => none

/-! ## `createFollowUpAction` -/

structure FollowUpRequest where
  type : Option ActionType
  namespace_ : String
  podName : String
  deriving DecidableEq, Repr

inductive FollowUp where
  | check
  | get (type : ActionType)
  | create (type : ActionType) (inc : Incident)
  | record (act : Action)
  | answered (answer : Answer)
  deriving DecidableEq, Repr

def FollowUp.step (db : Db) (now : Time) (o : Outcome) (id : ℕ) (body : FollowUpRequest)
    (user role : String) : FollowUp → Option (Db × FollowUp × List Call)
  | .check =>
    let pc :=
      if body.type ≠ some .deletePod ∧ body.type ≠ some .shutdownPod then
        .answered (.error 400 "type must be delete_pod or shutdown_pod")
      else if body.namespace_ = "" ∨ body.podName = "" then
        .answered (.error 400 "namespace and pod_name are required")
      else body.type.elim (.answered (.error 400 "type must be delete_pod or shutdown_pod")) .get
    some (db, pc, [])
  | .get type =>
    let pc := query o (db.getIncident id)
      (fun found => found.elim (.answered (.error 404 "incident not found")) (.create type))
      (fun text => .answered (.error 500 text))
    some (db, pc, [])
  | .create type inc =>
    let (db', pc) := exec o db (db.createAction inc.id type now)
      .record (fun text => .answered (.error 500 text))
    some (db', pc, [])
  | .record act =>
    let entry := auditEntry user role "action.follow_up_created" "action" act.id
    some (IncidentService.record o db entry, .answered (.action 201 act), [.record entry])
  | .answered _ => none

/-! ## The subscriber -/

inductive Deliver where
  | upsert
  | record (inc : Incident)
  | pod (inc : Incident)
  | list (inc : Incident)
  | create (inc : Incident)
  | recordAction (act : Action)
  | done
  deriving DecidableEq, Repr

/-- The severities that trigger a draft. -/
def defaultAutoActOn : List String := ["high", "critical"]

def defaultQuarantineNamespace : String := "zt-targets"

/-- The step after the enrichment of an incident. -/
def Deliver.autoAction (inc : Incident) : Deliver :=
  if inc.severity ∈ defaultAutoActOn then .list inc else .done

def Deliver.step (db : Db) (now : Time) (o : Outcome) (alert : IncomingAlert) :
    Deliver → Option (Db × Deliver × List Call)
  | .upsert =>
    match db.upsertIncident alert now with
    | none => some (db, .done, [])
    | some (db', inc, created) =>
      let (db', pc) := exec o db (db', ())
        (fun _ => if created then .record inc else autoAction inc) (fun _ => .done)
      some (db', pc, [])
  | .record inc =>
    let entry := auditEntry "system" "system" "incident.created" "incident" inc.id
    some (IncidentService.record o db entry, .pod inc, [.record entry])
  | .pod inc =>
    match o.pod with
    | none => some (db, autoAction inc, [])
    | some name =>
      let (db', pc) := exec o db
        (db.setIncidentPodContext inc.id name defaultQuarantineNamespace now, ())
        (fun _ => autoAction inc) (fun _ => autoAction inc)
      some (db', pc, [])
  | .list inc =>
    if o.fault = .none then
      if ¬ db.NewestFirst .pending o.listing then none
      else if (Db.listActions o.listing 200).any (fun a => a.incidentId = inc.id) then
        some (db, .done, [])
      else some (db, .create inc, [])
    -- the error of the listing is ignored
    else some (db, .create inc, [])
  | .create inc =>
    let (db', pc) := exec o db (db.createAction inc.id .quarantinePod now)
      .recordAction (fun _ => .done)
    some (db', pc, [])
  | .recordAction act =>
    let entry := auditEntry "system" "system" "action.auto_generated" "action" act.id
    some (IncidentService.record o db entry, .done, [.record entry])
  | .done => none

/-! ## The service -/

/-- A running handler. -/
inductive Handler where
  | approve (id : ℕ) (user role : String) (pc : Approve)
  | reject (id : ℕ) (user role : String) (pc : Reject)
  | patchStatus (id : ℕ) (body : StatusUpdate) (user role : String) (pc : PatchStatus)
  | followUp (id : ℕ) (body : FollowUpRequest) (user role : String) (pc : FollowUp)
  | deliver (alert : IncomingAlert) (pc : Deliver)
  deriving DecidableEq, Repr

def Handler.step (db : Db) (now : Time) (o : Outcome) :
    Handler → Option (Db × Handler × List Call)
  | .approve id user role pc =>
    (pc.step db now o id user role).map fun r => (r.1, .approve id user role r.2.1, r.2.2)
  | .reject id user role pc =>
    (pc.step db now o id user role).map fun r => (r.1, .reject id user role r.2.1, r.2.2)
  | .patchStatus id body user role pc =>
    (pc.step db now o id body user role).map fun r =>
      (r.1, .patchStatus id body user role r.2.1, r.2.2)
  | .followUp id body user role pc =>
    (pc.step db now o id body user role).map fun r =>
      (r.1, .followUp id body user role r.2.1, r.2.2)
  | .deliver alert pc => (pc.step db now o alert).map fun r => (r.1, .deliver alert r.2.1, r.2.2)

/-- A request or a delivery that arrives. -/
inductive Request where
  | approve (id : ℕ) (user role : String)
  | reject (id : ℕ) (user role : String)
  | patchStatus (id : ℕ) (body : StatusUpdate) (user role : String)
  | followUp (id : ℕ) (body : FollowUpRequest) (user role : String)
  | deliver (alert : IncomingAlert)

/-- A handler at its first step. -/
def Request.start : Request → Handler
  | .approve id user role => .approve id user role .decide
  | .reject id user role => .reject id user role .decide
  | .patchStatus id body user role => .patchStatus id body user role .getPrev
  | .followUp id body user role => .followUp id body user role .check
  | .deliver alert => .deliver alert .upsert

/-- The tables, the clock, the handlers so far, and the calls they have made. -/
structure Service where
  db : Db := {}
  now : Time := 0
  handlers : List Handler := []
  calls : List (ℕ × Call) := []

/-- Time passes, a request arrives, or a handler makes a step. -/
inductive Event where
  | tick (d : ℕ)
  | arrive (r : Request)
  | advance (i : ℕ) (o : Outcome)

namespace Service

def step (s : Service) : Event → Option Service
  | .tick d => some { s with now := s.now + d }
  | .arrive r => some { s with handlers := s.handlers ++ [r.start] }
  | .advance i o =>
    s.handlers[i]?.bind fun h => (h.step s.db s.now o).map fun r =>
      { s with
        db := r.1
        handlers := s.handlers.set i r.2.1
        calls := s.calls ++ r.2.2.map fun call => (i, call) }

/-- The state after a step of handler `i`. -/
def advanced (s : Service) (i : ℕ) (db : Db) (h : Handler) (calls : List Call) : Service :=
  { s with
    db := db
    handlers := s.handlers.set i h
    calls := s.calls ++ calls.map fun call => (i, call) }

theorem step_cases {s s' : Service} {e : Event} (hstep : s.step e = some s') :
    (∃ d : ℕ, s' = { s with now := s.now + d }) ∨
      (∃ r : Request, s' = { s with handlers := s.handlers ++ [r.start] }) ∨
      ∃ i o h db h' calls, e = .advance i o ∧ s.handlers[i]? = some h ∧
        h.step s.db s.now o = some (db, h', calls) ∧ s' = s.advanced i db h' calls := by
  cases e with
  | tick d => exact Or.inl ⟨d, (Option.some.inj hstep).symm⟩
  | arrive r => exact Or.inr (Or.inl ⟨r, (Option.some.inj hstep).symm⟩)
  | advance i o =>
    obtain ⟨h, hget, hmap⟩ := Option.bind_eq_some_iff.mp hstep
    obtain ⟨⟨db, h', calls⟩, hh, rfl⟩ := Option.map_eq_some_iff.mp hmap
    exact Or.inr (Or.inr ⟨i, o, h, db, h', calls, rfl, hget, hh, rfl⟩)

end Service

end IncidentService
