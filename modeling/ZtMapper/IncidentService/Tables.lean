/-
# Tables of the incident service

The rows of the tables `incidents`, `actions` and `audit_log`, and the statements
that the store runs on them.  A statement is a function on the tables; which
statements fail for want of a connection is decided where the handlers run them.
Times are microseconds.
-/
import ZtMapper.Lib.Table
import Mathlib.Data.Int.Notation
import Mathlib.Data.List.Dedup

open Table

namespace IncidentService

abbrev Time := ℤ

/-! ## Incidents -/

inductive IncidentStatus where
  | new
  | ack
  | resolved
  | suppressed
  deriving DecidableEq, Repr

structure Incident where
  id : ℕ
  incidentKey : String
  type : String
  sourceIp : String
  severity : String
  status : IncidentStatus
  nodesObserved : List String
  firstSeenNs : Int64
  lastSeenNs : Int64
  occurrenceCount : Int32
  blastRadius : Option String
  tags : List String
  crossNode : Bool
  ackAt : Option Time := none
  ackBy : Option String := none
  resolvedAt : Option Time := none
  resolvedBy : Option String := none
  notes : Option String := none
  podName : Option String := none
  podNamespace : Option String := none
  createdAt : Time
  updatedAt : Time
  deriving DecidableEq, Repr

/-- The part of `Correlation` that the store reads. -/
structure Correlation where
  firstSeenNs : Int64
  lastSeenNs : Int64
  occurrenceCount : Int64
  nodesObserved : List String
  crossNode : Bool
  deriving DecidableEq, Repr

structure IncomingAlert where
  type : String
  source : String
  timestampNs : Int64
  severity : String
  nodeName : String
  tags : List String
  details : String
  correlation : Option Correlation
  deriving DecidableEq, Repr

namespace IncomingAlert

def key (a : IncomingAlert) : String := a.type ++ "|" ++ a.source

def nodes (a : IncomingAlert) : List String :=
  let own := if a.nodeName = "" then [] else [a.nodeName]
  match a.correlation with
  | some c => if c.nodesObserved = [] then own else c.nodesObserved
  | none => own

def occCount (a : IncomingAlert) : Int64 := a.correlation.elim 1 (·.occurrenceCount)

def firstSeen (a : IncomingAlert) : Int64 := a.correlation.elim a.timestampNs (·.firstSeenNs)

def lastSeen (a : IncomingAlert) : Int64 := a.correlation.elim a.timestampNs (·.lastSeenNs)

def cross (a : IncomingAlert) : Bool := a.correlation.elim false (·.crossNode)

def blastRadius (a : IncomingAlert) : Option String :=
  if a.type = "blast_radius" ∧ a.details ≠ "" then some a.details else none

end IncomingAlert

def severityRank (s : String) : ℕ :=
  if s = "critical" then 4
  else if s = "high" then 3
  else if s = "medium" then 2
  else if s = "low" then 1
  else 0

/-- `GREATEST` -/
def greatest (a b : Int64) : Int64 := if a ≤ b then b else a

/-- `array_agg(DISTINCT …)`, which is `NULL` over no rows.  The order is not
specified. -/
def arrayAggDistinct (l : List String) : Option (List String) :=
  if l = [] then none else some l.dedup

/-- An argument of an `INT` column. -/
def toInt4 (n : Int64) : Option Int32 :=
  if Int32.minValue.toInt ≤ n.toInt ∧ n.toInt ≤ Int32.maxValue.toInt then some n.toInt32 else none

/-- An `INT` plus one, which fails on overflow. -/
def succInt4 (n : Int32) : Option Int32 := toInt4 (n.toInt64 + 1)

/-- The row that `UpsertIncident` inserts. -/
def insertedIncident (a : IncomingAlert) (id : ℕ) (count : Int32) (now : Time) : Incident where
  id := id
  incidentKey := a.key
  type := a.type
  sourceIp := a.source
  severity := a.severity
  status := .new
  nodesObserved := a.nodes
  firstSeenNs := a.firstSeen
  lastSeenNs := a.lastSeen
  occurrenceCount := count
  blastRadius := a.blastRadius
  tags := a.tags
  crossNode := a.cross
  createdAt := now
  updatedAt := now

/-- The row that `ON CONFLICT (incident_key) DO UPDATE` makes of an existing one.
It fails when an array is `NULL` or the count overflows. -/
def updatedIncident (a : IncomingAlert) (now : Time) (row : Incident) : Option Incident := do
  let nodes ← arrayAggDistinct (row.nodesObserved ++ a.nodes)
  let count ← succInt4 row.occurrenceCount
  let tags ← arrayAggDistinct (row.tags ++ a.tags)
  return { row with
    severity :=
      if severityRank a.severity > severityRank row.severity then a.severity else row.severity
    nodesObserved := nodes
    lastSeenNs := greatest row.lastSeenNs a.lastSeen
    occurrenceCount := count
    blastRadius := a.blastRadius <|> row.blastRadius
    crossNode := row.crossNode || a.cross
    tags := tags
    updatedAt := now }

/-! ## Actions -/

inductive ActionType where
  | quarantinePod
  | deletePod
  | shutdownPod
  deriving DecidableEq, Repr

inductive ActionStatus where
  | pending
  | approved
  | rejected
  | executed
  | failed
  deriving DecidableEq, Repr

structure Action where
  id : ℕ
  incidentId : ℕ
  type : ActionType
  status : ActionStatus
  approvedBy : Option String := none
  approvedAt : Option Time := none
  rejectedBy : Option String := none
  rejectedAt : Option Time := none
  executedAt : Option Time := none
  error : Option String := none
  expiresAt : Time
  createdAt : Time
  deriving DecidableEq, Repr

inductive Decision where
  | approve
  | reject
  deriving DecidableEq, Repr

/-- An entry of `audit_log`. -/
structure AuditEntry where
  actor : String
  actorRole : Option String
  action : String
  targetType : String
  targetId : ℕ
  deriving DecidableEq, Repr

/-! ## Statements -/

/-- The tables, with the sequences that number their rows. -/
structure Db where
  incidents : List Incident := []
  incidentSeq : ℕ := 1
  actions : List Action := []
  actionSeq : ℕ := 1
  auditLog : List AuditEntry := []
  deriving DecidableEq, Repr

namespace Db

/-- The statement of `UpsertIncident`: the row, and whether it was inserted.  A
number of the sequence is taken in either case. -/
def upsertIncident (db : Db) (a : IncomingAlert) (now : Time) : Option (Db × Incident × Bool) :=
  if a.source = "" ∨ a.type = "" then none
  else do
    let count ← toInt4 a.occCount
    let (rows, row, inserted) ← upsert (fun r => r.incidentKey = a.key)
      (insertedIncident a db.incidentSeq count now) (updatedIncident a now) db.incidents
    return ({ db with incidents := rows, incidentSeq := db.incidentSeq + 1 }, row, inserted)

def getIncident (db : Db) (id : ℕ) : Option Incident := db.incidents.find? fun r => r.id = id

def setIncidentPodContext (db : Db) (id : ℕ) (podName podNamespace : String) (now : Time) : Db :=
  { db with
    incidents := update (fun r => r.id = id)
      (fun r => { r with
        podName := some podName
        podNamespace := some podNamespace
        updatedAt := now }) db.incidents }

/-- The status that a request asks for. -/
def parseStatus (s : String) : Option IncidentStatus :=
  if s = "ack" ∨ s = "acknowledged" then some .ack
  else if s = "resolved" then some .resolved
  else if s = "suppressed" then some .suppressed
  else if s = "new" then some .new
  else none

/-- The statement of `UpdateIncidentStatus`. -/
def updateIncidentStatus (db : Db) (id : ℕ) (status : IncidentStatus) (actor : String)
    (notes : Option String) (now : Time) : Db :=
  { db with
    incidents := update (fun r => r.id = id)
      (fun r => { r with
        status := status
        ackAt := if status = .ack then some now else r.ackAt
        ackBy := if status = .ack then some actor else r.ackBy
        resolvedAt := if status = .resolved then some now else r.resolvedAt
        resolvedBy := if status = .resolved then some actor else r.resolvedBy
        notes := notes <|> r.notes
        updatedAt := now }) db.incidents }

/-- The statement of `CreateAction`.  An action expires after 24 hours. -/
def createAction (db : Db) (incidentId : ℕ) (type : ActionType) (now : Time) : Db × Action :=
  let row : Action :=
    { id := db.actionSeq
      incidentId := incidentId
      type := type
      status := .pending
      expiresAt := now + 24 * 60 * 60 * 1000000
      createdAt := now }
  ({ db with actions := db.actions ++ [row], actionSeq := db.actionSeq + 1 }, row)

/-- `rows` are the actions of a status, the newest first.  Rows of one time come in
any order. -/
def NewestFirst (db : Db) (status : ActionStatus) (rows : List Action) : Prop :=
  rows.Perm (db.actions.filter fun a => a.status = status) ∧
    rows.Pairwise fun a b => b.createdAt ≤ a.createdAt

instance (db : Db) (status : ActionStatus) (rows : List Action) :
    Decidable (db.NewestFirst status rows) :=
  inferInstanceAs (Decidable (_ ∧ _))

/-- The limit of a listing. -/
def listLimit (limit : ℤ) : ℕ := if limit ≤ 0 ∨ limit > 500 then 100 else limit.toNat

/-- `ListActions` with a status, when the database orders the actions as `rows`. -/
def listActions (rows : List Action) (limit : ℤ) : List Action := rows.take (listLimit limit)

def getAction (db : Db) (id : ℕ) : Option Action := db.actions.find? fun a => a.id = id

/-- What a decision writes. -/
def decided (decision : Decision) (actor : String) (now : Time) (a : Action) : Action :=
  match decision with
  | .approve => { a with status := .approved, approvedBy := some actor, approvedAt := some now }
  | .reject => { a with status := .rejected, rejectedBy := some actor, rejectedAt := some now }

/-- A pending action of a number. -/
def isPending (id : ℕ) (a : Action) : Bool := decide (a.id = id ∧ a.status = .pending)

/-- The statement of `DecideAction`, with the number of affected rows. -/
def decideAction (db : Db) (id : ℕ) (decision : Decision) (actor : String) (now : Time) : Db × ℕ :=
  ({ db with actions := update (isPending id) (decided decision actor now) db.actions },
    db.actions.countP (isPending id))

/-- What `MarkActionExecuted` writes. -/
def marked (error : Option String) (now : Time) (a : Action) : Action :=
  { a with
    status := if error.isSome then .failed else .executed
    executedAt := some now
    error := error }

def markActionExecuted (db : Db) (id : ℕ) (error : Option String) (now : Time) : Db :=
  { db with actions := update (fun a => a.id = id) (marked error now) db.actions }

def appendAudit (db : Db) (entry : AuditEntry) : Db :=
  { db with auditLog := db.auditLog ++ [entry] }

end Db

end IncidentService
