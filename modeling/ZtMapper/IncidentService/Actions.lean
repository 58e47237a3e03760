/-
# Actions

An action moves from pending to approved to executed or failed, or from pending to
rejected, whatever the handlers do.  `Touches` says all that one step of a handler
does to the table of actions; an approving handler whose decision has been applied
holds the action until it has marked it, and no other handler does.
-/
import ZtMapper.Lib.Runs
import ZtMapper.IncidentService.Handlers

open Table Runs

namespace IncidentService

/-! ## What a handler does to the actions -/

/-- The actions that some calls execute. -/
def executedBy (calls : List Call) : List ℕ :=
  calls.filterMap fun
    | .execute a => some a.id
    | .record _ => none

namespace Handler

/-- The action that a handler has approved and not yet marked. -/
def holding : Handler → Option ℕ
  | .approve id _ _ .get => some id
  | .approve id _ _ (.execute _) => some id
  | .approve id _ _ (.mark ..) => some id
  | _ => none

/-- The action that a handler is going to execute. -/
def ready : Handler → Option ℕ
  | .approve id _ _ .get => some id
  | .approve _ _ _ (.execute a) => some a.id
  | _ => none

/-- The incident for which a handler is about to insert a draft. -/
def drafting : Handler → Option ℕ
  | .patchStatus _ _ _ _ (.create upd) => some upd.id
  | .deliver _ (.create inc) => some inc.id
  | _ => none

/-- The type of a follow-up action that has passed the check. -/
def followingUp : Handler → Option ActionType
  | .followUp _ _ _ _ (.get type) => some type
  | .followUp _ _ _ _ (.create type _) => some type
  | _ => none

/-- A handler that holds no action has none ready. -/
theorem ready_eq_none {h : Handler} (hholding : h.holding = none) : h.ready = none := by
  unfold holding at hholding
  unfold ready
  split at hholding <;> simp_all

end Handler

/-- A new action of some incident. -/
def newAction (db : Db) (incidentId : ℕ) (type : ActionType) (now : Time) : Action :=
  (db.createAction incidentId type now).2

/-- What one step of a handler does to the actions. -/
inductive Touches (db : Db) (now : Time) (h : Handler) :
    Db → Handler → List Call → Prop where
  | quiet {db' h' calls} (hactions : db'.actions = db.actions) (hseq : db'.actionSeq = db.actionSeq)
      (hholding : h'.holding = none) (hcalls : executedBy calls = []) : Touches db now h db' h' calls
  | created {db' h' calls} (incidentId : ℕ) (type : ActionType)
      (hwhence : (h.drafting = some incidentId ∧ type = .quarantinePod) ∨ h.followingUp = some type)
      (hactions : db'.actions = db.actions ++ [newAction db incidentId type now])
      (hseq : db'.actionSeq = db.actionSeq + 1) (hholding : h'.holding = none)
      (hcalls : executedBy calls = []) : Touches db now h db' h' calls
  | decided {db' h' calls} (id : ℕ) (decision : Decision) (actor : String)
      (hactions : db'.actions = update (Db.isPending id) (Db.decided decision actor now) db.actions)
      (hseq : db'.actionSeq = db.actionSeq)
      (hholding : h'.holding = none ∨ (decision = .approve ∧ h'.holding = some id ∧
        h'.ready = some id ∧ ∃ a ∈ db.actions, Db.isPending id a = true))
      (hcalls : executedBy calls = []) : Touches db now h db' h' calls
  | fetched (id : ℕ) (user role : String) (a : Action) (hh : h = .approve id user role .get)
      (hget : db.getAction id = some a) : Touches db now h db (.approve id user role (.execute a)) []
  | executed (id : ℕ) (user role : String) (a : Action) (path : String) (err : Option String)
      (hh : h = .approve id user role (.execute a)) :
      Touches db now h db (.approve id user role (.mark a path err)) [.execute a]
  | marked {db' h' calls} (id : ℕ) (err : Option String)
      (hactions : db'.actions = update (fun a => a.id = id) (Db.marked err now) db.actions)
      (hseq : db'.actionSeq = db.actionSeq) (hh : h.holding = some id) (hholding : h'.holding = none)
      (hcalls : executedBy calls = []) : Touches db now h db' h' calls

/-- What one step of a handler that decides nothing does to them: it may draft one. -/
inductive AtMostDrafts (db : Db) (now : Time) (h : Handler) : Db → Handler → List Call → Prop where
  | quiet {db' h' calls} (hactions : db'.actions = db.actions) (hseq : db'.actionSeq = db.actionSeq)
      (hholding : h'.holding = none) (hcalls : executedBy calls = []) :
      AtMostDrafts db now h db' h' calls
  | created {db' h' calls} (incidentId : ℕ) (type : ActionType)
      (hwhence : (h.drafting = some incidentId ∧ type = .quarantinePod) ∨ h.followingUp = some type)
      (hactions : db'.actions = db.actions ++ [newAction db incidentId type now])
      (hseq : db'.actionSeq = db.actionSeq + 1) (hholding : h'.holding = none)
      (hcalls : executedBy calls = []) : AtMostDrafts db now h db' h' calls

section Steps

variable {db db' : Db} {now : Time} {o : Outcome}

/-- Drafting is the mildest way to touch the actions. -/
theorem AtMostDrafts.touches {h h' : Handler} {calls : List Call}
    (hdrafts : AtMostDrafts db now h db' h' calls) : Touches db now h db' h' calls := by
  cases hdrafts with
  | quiet hactions hseq hholding hcalls => exact .quiet hactions hseq hholding hcalls
  | created incidentId type hwhence hactions hseq hholding hcalls =>
    exact .created incidentId type hwhence hactions hseq hholding hcalls

/-- Recording in the audit log keeps the actions. -/
@[simp] theorem actions_record (o : Outcome) (db : Db) (entry : AuditEntry) :
    (record o db entry).actions = db.actions := by
  unfold record
  split_ifs <;> rfl

/-- Recording in the audit log keeps the sequence of actions. -/
@[simp] theorem actionSeq_record (o : Outcome) (db : Db) (entry : AuditEntry) :
    (record o db entry).actionSeq = db.actionSeq := by
  unfold record
  split_ifs <;> rfl

/-- Equal results have equal parts. -/
theorem some_triple_inj {α β γ : Type} {a a' : α} {b b' : β} {c c' : γ}
    (h : some (a, b, c) = some (a', b', c')) : a = a' ∧ b = b' ∧ c = c' := by
  simpa using h

/-- The number of affected rows is zero when no row is pending. -/
theorem exists_pending_of_count {id : ℕ} {actions : List Action}
    (h : ¬ actions.countP (Db.isPending id) = 0) : ∃ a ∈ actions, Db.isPending id a = true := by
  by_contra hnone
  exact h (List.countP_eq_zero.mpr fun a ha hpending => hnone ⟨a, ha, hpending⟩)

/-- What a step of the approve handler does to the actions. -/
theorem Approve.touches {pc pc' : Approve} {calls : List Call} {id : ℕ} {user role : String}
    (h : pc.step db now o id user role = some (db', pc', calls)) :
    Touches db now (.approve id user role pc) db' (.approve id user role pc') calls := by
  cases pc with
  | decide =>
    obtain ⟨rfl, rfl, rfl⟩ := some_triple_inj h
    cases o.fault with
    | none =>
      -- the handler goes on when a row was affected
      refine .decided id .approve user rfl rfl ?_ rfl
      by_cases hcount : db.actions.countP (Db.isPending id) = 0
      · refine Or.inl ?_
        dsimp only [Db.decideAction]
        rw [if_pos hcount]
        rfl
      · refine Or.inr ⟨rfl, ?_, ?_, exists_pending_of_count hcount⟩ <;>
        · dsimp only [Db.decideAction]
          rw [if_neg hcount]
          rfl
    | lost => exact .quiet rfl rfl rfl rfl
    | unacked => exact .decided id .approve user rfl rfl (Or.inl rfl) rfl
  | get =>
    obtain ⟨rfl, rfl, rfl⟩ := some_triple_inj h
    unfold query
    split_ifs
    · cases hget : db.getAction id with
      | none => exact .quiet rfl rfl rfl rfl
      | some a => exact .fetched id user role a rfl hget
    · exact .quiet rfl rfl rfl rfl
  | execute a =>
    unfold Approve.step at h
    dsimp only at h
    cases happlied : o.applied with
    | ok path =>
      rw [happlied] at h
      obtain ⟨rfl, rfl, rfl⟩ := some_triple_inj h
      exact .executed id user role a path none rfl
    | error text =>
      rw [happlied] at h
      obtain ⟨rfl, rfl, rfl⟩ := some_triple_inj h
      exact .executed id user role a "" (some text) rfl
  | mark a path err =>
    obtain ⟨rfl, rfl, rfl⟩ := some_triple_inj h
    cases o.fault with
    | none => exact .marked id err rfl rfl rfl rfl rfl
    | lost => exact .quiet rfl rfl rfl rfl
    | unacked => exact .marked id err rfl rfl rfl rfl rfl
  | record path err =>
    obtain ⟨rfl, rfl, rfl⟩ := some_triple_inj h
    exact .quiet (actions_record ..) (actionSeq_record ..) rfl rfl
  | final path err =>
    obtain ⟨rfl, rfl, rfl⟩ := some_triple_inj h
    exact .quiet rfl rfl rfl rfl
  | answered answer => cases h

/-- What a step of the reject handler does to the actions. -/
theorem Reject.touches {pc pc' : Reject} {calls : List Call} {id : ℕ} {user role : String}
    (h : pc.step db now o id user role = some (db', pc', calls)) :
    Touches db now (.reject id user role pc) db' (.reject id user role pc') calls := by
  cases pc with
  | decide =>
    obtain ⟨rfl, rfl, rfl⟩ := some_triple_inj h
    cases o.fault with
    | none => exact .decided id .reject user rfl rfl (Or.inl rfl) rfl
    | lost => exact .quiet rfl rfl rfl rfl
    | unacked => exact .decided id .reject user rfl rfl (Or.inl rfl) rfl
  | get =>
    obtain ⟨rfl, rfl, rfl⟩ := some_triple_inj h
    exact .quiet rfl rfl rfl rfl
  | record a =>
    obtain ⟨rfl, rfl, rfl⟩ := some_triple_inj h
    exact .quiet (actions_record ..) (actionSeq_record ..) rfl rfl
  | answered answer => cases h

/-- The status handler drafts at most. -/
theorem PatchStatus.atMostDrafts {pc pc' : PatchStatus} {calls : List Call} {id : ℕ}
    {body : StatusUpdate} {user role : String}
    (h : pc.step db now o id body user role = some (db', pc', calls)) :
    AtMostDrafts db now (.patchStatus id body user role pc) db' (.patchStatus id body user role pc')
      calls := by
  cases pc with
  | getPrev =>
    obtain ⟨rfl, rfl, rfl⟩ := some_triple_inj h
    exact .quiet rfl rfl rfl rfl
  | update prev =>
    unfold PatchStatus.step at h
    dsimp only at h
    cases hstatus : Db.parseStatus body.status with
    | none =>
      rw [hstatus] at h
      obtain ⟨rfl, rfl, rfl⟩ := some_triple_inj h
      exact .quiet rfl rfl rfl rfl
    | some status =>
      rw [hstatus] at h
      obtain ⟨rfl, rfl, rfl⟩ := some_triple_inj h
      unfold exec
      cases o.fault <;> exact .quiet rfl rfl rfl rfl
  | get prev =>
    obtain ⟨rfl, rfl, rfl⟩ := some_triple_inj h
    exact .quiet rfl rfl rfl rfl
  | record prev upd =>
    obtain ⟨rfl, rfl, rfl⟩ := some_triple_inj h
    exact .quiet (actions_record ..) (actionSeq_record ..) rfl rfl
  | create upd =>
    obtain ⟨rfl, rfl, rfl⟩ := some_triple_inj h
    cases o.fault with
    | none => exact .created upd.id .quarantinePod (Or.inl ⟨rfl, rfl⟩) rfl rfl rfl rfl
    | lost => exact .quiet rfl rfl rfl rfl
    | unacked => exact .created upd.id .quarantinePod (Or.inl ⟨rfl, rfl⟩) rfl rfl rfl rfl
  | recordAction upd act =>
    obtain ⟨rfl, rfl, rfl⟩ := some_triple_inj h
    exact .quiet (actions_record ..) (actionSeq_record ..) rfl rfl
  | answered answer => cases h

/-- The follow-up handler drafts at most. -/
theorem FollowUp.atMostDrafts {pc pc' : FollowUp} {calls : List Call} {id : ℕ} {body : FollowUpRequest}
    {user role : String} (h : pc.step db now o id body user role = some (db', pc', calls)) :
    AtMostDrafts db now (.followUp id body user role pc) db' (.followUp id body user role pc') calls := by
  cases pc with
  | check =>
    obtain ⟨rfl, rfl, rfl⟩ := some_triple_inj h
    exact .quiet rfl rfl rfl rfl
  | get type =>
    obtain ⟨rfl, rfl, rfl⟩ := some_triple_inj h
    exact .quiet rfl rfl rfl rfl
  | create type inc =>
    obtain ⟨rfl, rfl, rfl⟩ := some_triple_inj h
    cases o.fault with
    | none => exact .created inc.id type (Or.inr rfl) rfl rfl rfl rfl
    | lost => exact .quiet rfl rfl rfl rfl
    | unacked => exact .created inc.id type (Or.inr rfl) rfl rfl rfl rfl
  | record act =>
    obtain ⟨rfl, rfl, rfl⟩ := some_triple_inj h
    exact .quiet (actions_record ..) (actionSeq_record ..) rfl rfl
  | answered answer => cases h

/-- An upsert leaves the actions as they are. -/
theorem actions_upsertIncident {alert : IncomingAlert} {inc : Incident} {created : Bool}
    (h : db.upsertIncident alert now = some (db', inc, created)) :
    db'.actions = db.actions ∧ db'.actionSeq = db.actionSeq := by
  unfold Db.upsertIncident at h
  split_ifs at h
  simp only [Option.bind_eq_bind, Option.bind_eq_some_iff, Option.pure_def] at h
  obtain ⟨count, -, result, -, heq⟩ := h
  obtain ⟨rfl, -, -⟩ := some_triple_inj heq
  exact ⟨rfl, rfl⟩

/-- The delivery of an alert drafts at most. -/
theorem Deliver.atMostDrafts {pc pc' : Deliver} {calls : List Call} {alert : IncomingAlert}
    (h : pc.step db now o alert = some (db', pc', calls)) :
    AtMostDrafts db now (.deliver alert pc) db' (.deliver alert pc') calls := by
  cases pc with
  | upsert =>
    unfold Deliver.step at h
    dsimp only at h
    cases hupsert : db.upsertIncident alert now with
    | none =>
      rw [hupsert] at h
      obtain ⟨rfl, rfl, rfl⟩ := some_triple_inj h
      exact .quiet rfl rfl rfl rfl
    | some result =>
      obtain ⟨dbUp, inc, created⟩ := result
      obtain ⟨hactions, hseq⟩ := actions_upsertIncident hupsert
      rw [hupsert] at h
      obtain ⟨rfl, rfl, rfl⟩ := some_triple_inj h
      unfold exec
      cases o.fault with
      | none => exact .quiet hactions hseq rfl rfl
      | lost => exact .quiet rfl rfl rfl rfl
      | unacked => exact .quiet hactions hseq rfl rfl
  | record inc =>
    obtain ⟨rfl, rfl, rfl⟩ := some_triple_inj h
    exact .quiet (actions_record ..) (actionSeq_record ..) rfl rfl
  | pod inc =>
    unfold Deliver.step at h
    dsimp only at h
    cases hpod : o.pod with
    | none =>
      rw [hpod] at h
      obtain ⟨rfl, rfl, rfl⟩ := some_triple_inj h
      exact .quiet rfl rfl rfl rfl
    | some name =>
      rw [hpod] at h
      obtain ⟨rfl, rfl, rfl⟩ := some_triple_inj h
      unfold exec
      cases o.fault <;> exact .quiet rfl rfl rfl rfl
  | list inc =>
    unfold Deliver.step at h
    dsimp only at h
    split_ifs at h <;>
    · obtain ⟨rfl, rfl, rfl⟩ := some_triple_inj h
      exact .quiet rfl rfl rfl rfl
  -- the insert is the only statement of a delivery that reaches the actions
  | create inc =>
    obtain ⟨rfl, rfl, rfl⟩ := some_triple_inj h
    cases o.fault with
    | none => exact .created inc.id .quarantinePod (Or.inl ⟨rfl, rfl⟩) rfl rfl rfl rfl
    | lost => exact .quiet rfl rfl rfl rfl
    | unacked => exact .created inc.id .quarantinePod (Or.inl ⟨rfl, rfl⟩) rfl rfl rfl rfl
  | recordAction act =>
    obtain ⟨rfl, rfl, rfl⟩ := some_triple_inj h
    exact .quiet (actions_record ..) (actionSeq_record ..) rfl rfl
  | done => cases h

/-- **What any handler does in one step** to the actions. -/
theorem Handler.touches {h h' : Handler} {calls : List Call}
    (hstep : h.step db now o = some (db', h', calls)) : Touches db now h db' h' calls := by
  cases h <;> obtain ⟨⟨db₁, pc₁, calls₁⟩, hpc, heq⟩ := Option.map_eq_some_iff.mp hstep <;>
    cases heq
  case approve => exact Approve.touches hpc
  case reject => exact Reject.touches hpc
  case patchStatus => exact (PatchStatus.atMostDrafts hpc).touches
  case followUp => exact (FollowUp.atMostDrafts hpc).touches
  case deliver => exact (Deliver.atMostDrafts hpc).touches

end Steps

/-! ## The life of an action -/

/-- The steps that the status of an action may take. -/
inductive Moves : ActionStatus → ActionStatus → Prop where
  | stay (st : ActionStatus) : Moves st st
  | approve : Moves .pending .approved
  | reject : Moves .pending .rejected
  | execute : Moves .approved .executed
  | fail : Moves .approved .failed

/-- An action that has been approved, whatever came of it. -/
def ActionStatus.Approved (st : ActionStatus) : Prop :=
  st = .approved ∨ st = .executed ∨ st = .failed

/-- Which columns of an action are set. -/
structure Action.Columns (a : Action) : Prop where
  approved : (a.approvedBy.isSome = true ↔ a.status.Approved) ∧
    (a.approvedAt.isSome = true ↔ a.status.Approved)
  rejected : (a.rejectedBy.isSome = true ↔ a.status = .rejected) ∧
    (a.rejectedAt.isSome = true ↔ a.status = .rejected)
  executed : a.executedAt.isSome = true ↔ a.status = .executed ∨ a.status = .failed

/-- A new draft has no decision and no execution. -/
theorem columns_newAction (db : Db) (incidentId : ℕ) (type : ActionType) (now : Time) :
    (newAction db incidentId type now).Columns := by
  constructor <;> simp [newAction, Db.createAction, ActionStatus.Approved]

/-- A decision fills the columns of the decision. -/
theorem Action.Columns.decided {a : Action} (h : a.Columns) (hpending : a.status = .pending)
    (decision : Decision) (actor : String) (now : Time) :
    (Db.decided decision actor now a).Columns := by
  have happroved := h.approved
  have hrejected := h.rejected
  have hexecuted := h.executed
  simp only [hpending, ActionStatus.Approved] at happroved hrejected hexecuted
  cases decision <;> constructor <;> simp_all [Db.decided, ActionStatus.Approved]

/-- A mark fills the columns of the execution. -/
theorem Action.Columns.marked {a : Action} (h : a.Columns) (happ : a.status = .approved)
    (error : Option String) (now : Time) : (Db.marked error now a).Columns := by
  have happroved := h.approved
  have hrejected := h.rejected
  simp only [happ, ActionStatus.Approved] at happroved hrejected
  cases error <;> constructor <;> simp_all [Db.marked, ActionStatus.Approved]

/-- A decision moves a pending action. -/
theorem moves_decided {a : Action} (hpending : a.status = .pending) (decision : Decision)
    (actor : String) (now : Time) : Moves a.status (Db.decided decision actor now a).status := by
  rw [hpending]
  cases decision with
  | approve => exact .approve
  | reject => exact .reject

/-- A mark moves an approved action. -/
theorem moves_marked {a : Action} (happ : a.status = .approved) (error : Option String)
    (now : Time) : Moves a.status (Db.marked error now a).status := by
  rw [happ]
  cases error with
  | none => exact .execute
  | some text => exact .fail

/-! ## The ledger -/

/-- The actions, which handler holds or is ready to execute which, and the actions
that have been executed. -/
structure Ledger where
  actions : List Action
  seq : ℕ
  holder : ℕ → Option ℕ
  ready : ℕ → Option ℕ
  executed : List ℕ

structure Ledger.Sound (l : Ledger) : Prop where
  nodup : (l.actions.map (·.id)).Nodup
  fresh : ∀ a ∈ l.actions, a.id < l.seq
  columns : ∀ a ∈ l.actions, a.Columns
  held : ∀ i id, l.holder i = some id → ∃ a ∈ l.actions, a.id = id ∧ a.status = .approved
  unique : ∀ i j id, l.holder i = some id → l.holder j = some id → i = j
  ready_held : ∀ i id, l.ready i = some id → l.holder i = some id ∧ id ∉ l.executed
  approved : ∀ id ∈ l.executed, ∃ a ∈ l.actions, a.id = id ∧ a.status.Approved
  once : l.executed.Nodup

/-- Rows may be added, and every row moves. -/
structure Advances (actions actions' : List Action) : Prop where
  moved : ∀ a ∈ actions, ∃ a' ∈ actions', a'.id = a.id ∧ Moves a.status a'.status
  new : ∀ a' ∈ actions', (∃ a ∈ actions, a'.id = a.id ∧ Moves a.status a'.status) ∨
    (a'.status = .pending ∧ ∀ a ∈ actions, a.id ≠ a'.id)

/-- Nothing need change. -/
theorem advances_refl (actions : List Action) : Advances actions actions where
  moved := fun a ha => ⟨a, ha, rfl, .stay _⟩
  new := fun a ha => Or.inl ⟨a, ha, rfl, .stay _⟩

/-- An update that moves the rows it changes. -/
theorem advances_update {p : Action → Bool} {f : Action → Action} {actions : List Action}
    (hid : ∀ a, (f a).id = a.id)
    (hmoves : ∀ a ∈ actions, p a = true → Moves a.status (f a).status) :
    Advances actions (update p f actions) := by
  have hrow : ∀ a ∈ actions, (if p a then f a else a).id = a.id ∧
      Moves a.status (if p a then f a else a).status := by
    intro a ha
    split_ifs with hp
    · exact ⟨hid a, hmoves a ha hp⟩
    · exact ⟨rfl, .stay _⟩
  constructor
  · intro a ha
    exact ⟨_, mem_update_of_mem ha, hrow a ha⟩
  · intro a' ha'
    obtain ⟨a, ha, rfl⟩ := mem_update.mp ha'
    exact Or.inl ⟨a, ha, hrow a ha⟩

namespace Ledger.Sound

variable {l : Ledger}

/-- A handler gives up what it holds. -/
theorem release (h : l.Sound) (i : ℕ) :
    Sound { l with
      holder := Function.update l.holder i none
      ready := Function.update l.ready i none } := by
  have hholder : ∀ j id, Function.update l.holder i none j = some id →
      j ≠ i ∧ l.holder j = some id := by
    intro j id hj
    by_cases hji : j = i
    · subst hji
      rw [Function.update_self] at hj
      cases hj
    · rw [Function.update_of_ne hji] at hj
      exact ⟨hji, hj⟩
  refine ⟨h.nodup, h.fresh, h.columns, fun j id hj => h.held j id (hholder j id hj).2,
    fun j k id hj hk => h.unique j k id (hholder j id hj).2 (hholder k id hk).2,
    fun j id hj => ?_, h.approved, h.once⟩
  dsimp only at hj ⊢
  by_cases hji : j = i
  · subst hji
    rw [Function.update_self] at hj
    cases hj
  · rw [Function.update_of_ne hji] at hj ⊢
    exact h.ready_held j id hj

/-- A new action. -/
theorem create (h : l.Sound) {a : Action} (hid : a.id = l.seq) (hcolumns : a.Columns) :
    Sound { l with
      actions := l.actions ++ [a]
      seq := l.seq + 1 } := by
  refine ⟨?_, fun b hb => ?_, fun b hb => ?_, fun i id hi => ?_, h.unique, h.ready_held,
    fun id hmem => ?_, h.once⟩
  · dsimp only
    rw [List.map_append, List.map_singleton]
    refine List.nodup_append.mpr ⟨h.nodup, List.nodup_singleton _, fun x hx y hy => ?_⟩
    obtain ⟨b, hb, rfl⟩ := List.mem_map.mp hx
    rw [List.mem_singleton.mp hy, hid]
    exact Nat.ne_of_lt (h.fresh b hb)
  · rcases List.mem_append.mp hb with hb | hb
    · exact Nat.lt_succ_of_lt (h.fresh b hb)
    · rw [List.mem_singleton.mp hb, hid]
      exact Nat.lt_succ_self _
  · rcases List.mem_append.mp hb with hb | hb
    · exact h.columns b hb
    · rw [List.mem_singleton.mp hb]
      exact hcolumns
  · obtain ⟨b, hb, hrest⟩ := h.held i id hi
    exact ⟨b, List.mem_append_left _ hb, hrest⟩
  · obtain ⟨b, hb, hrest⟩ := h.approved id hmem
    exact ⟨b, List.mem_append_left _ hb, hrest⟩

/-- A draft is appended as pending. -/
theorem advances_create (h : l.Sound) {a : Action} (hid : a.id = l.seq)
    (hpending : a.status = .pending) : Advances l.actions (l.actions ++ [a]) := by
  constructor
  · intro b hb
    exact ⟨b, List.mem_append_left _ hb, rfl, .stay _⟩
  · intro b hb
    rcases List.mem_append.mp hb with hb | hb
    · exact Or.inl ⟨b, hb, rfl, .stay _⟩
    · rw [List.mem_singleton.mp hb, hid]
      exact Or.inr ⟨hpending, fun c hc => Nat.ne_of_lt (h.fresh c hc)⟩

/-- A decision does not change an action that has been approved. -/
theorem mem_decided {decision : Decision} {actor : String} {now : Time} {id : ℕ} {a : Action}
    (ha : a ∈ l.actions) (happ : a.status.Approved) :
    a ∈ update (Db.isPending id) (Db.decided decision actor now) l.actions := by
  refine mem_update.mpr ⟨a, ha, if_neg fun hp => ?_⟩
  have hpending := (of_decide_eq_true hp).2
  rw [hpending] at happ
  rcases happ with h | h | h <;> cases h

/-- A decision on a pending action. -/
theorem decide (h : l.Sound) (id : ℕ) (decision : Decision) (actor : String) (now : Time) :
    Sound { l with
      actions := update (Db.isPending id) (Db.decided decision actor now) l.actions } := by
  have hid : ∀ a, (Db.decided decision actor now a).id = a.id := fun a => by cases decision <;> rfl
  refine ⟨?_, fun b hb => ?_, fun b hb => ?_, fun i x hi => ?_, h.unique, h.ready_held,
    fun x hx => ?_, h.once⟩
  · dsimp only
    rw [map_update hid]
    exact h.nodup
  · obtain ⟨a, ha, rfl⟩ := mem_update.mp hb
    split_ifs
    · rw [hid]
      exact h.fresh a ha
    · exact h.fresh a ha
  · obtain ⟨a, ha, rfl⟩ := mem_update.mp hb
    split_ifs with hp
    · exact (h.columns a ha).decided (of_decide_eq_true hp).2 decision actor now
    · exact h.columns a ha
  · obtain ⟨a, ha, hax, hstatus⟩ := h.held i x hi
    exact ⟨a, mem_decided ha (Or.inl hstatus), hax, hstatus⟩
  · obtain ⟨a, ha, hax, hstatus⟩ := h.approved x hx
    exact ⟨a, mem_decided ha hstatus, hax, hstatus⟩

/-- An action that is pending has not been approved before. -/
theorem free_of_pending (h : l.Sound) {id : ℕ} {a : Action} (ha : a ∈ l.actions)
    (hp : Db.isPending id a = true) : (∀ i, l.holder i ≠ some id) ∧ id ∉ l.executed := by
  obtain ⟨hid, hpending⟩ := of_decide_eq_true hp
  have hsame : ∀ b ∈ l.actions, b.id = id → b.status = .pending := by
    -- there is one row of each number
    intro b hb hbid
    rw [eq_of_nodup h.nodup hb ha (hbid.trans hid.symm)]
    exact hpending
  constructor
  · intro i hi
    obtain ⟨b, hb, hbid, hstatus⟩ := h.held i id hi
    rw [hsame b hb hbid] at hstatus
    cases hstatus
  · intro hmem
    obtain ⟨b, hb, hbid, hstatus⟩ := h.approved id hmem
    rw [hsame b hb hbid] at hstatus
    rcases hstatus with h | h | h <;> cases h

/-- A handler takes an approved action that nobody holds. -/
theorem hold (h : l.Sound) (i : ℕ) {id : ℕ} {a : Action} (ha : a ∈ l.actions) (hid : a.id = id)
    (hstatus : a.status = .approved) (hfree : ∀ j, l.holder j ≠ some id)
    (hfresh : id ∉ l.executed) :
    Sound { l with
      holder := Function.update l.holder i (some id)
      ready := Function.update l.ready i (some id) } := by
  refine ⟨h.nodup, h.fresh, h.columns, fun j x hj => ?_, fun j k x hj hk => ?_, fun j x hj => ?_,
    h.approved, h.once⟩
  · dsimp only at hj
    by_cases hji : j = i
    · rw [hji, Function.update_self] at hj
      exact ⟨a, ha, hid.trans (Option.some.inj hj), hstatus⟩
    · rw [Function.update_of_ne hji] at hj
      exact h.held j x hj
  · -- the handler that takes the action is the only one to hold it
    dsimp only at hj hk
    by_cases hji : j = i <;> by_cases hki : k = i
    · rw [hji, hki]
    · rw [hji, Function.update_self] at hj
      rw [Function.update_of_ne hki, ← hj] at hk
      exact absurd hk (hfree k)
    · rw [hki, Function.update_self] at hk
      rw [Function.update_of_ne hji, ← hk] at hj
      exact absurd hj (hfree j)
    · rw [Function.update_of_ne hji] at hj
      rw [Function.update_of_ne hki] at hk
      exact h.unique j k x hj hk
  · dsimp only at hj ⊢
    by_cases hji : j = i
    · rw [hji, Function.update_self] at hj
      rw [hji, Function.update_self]
      exact ⟨hj, Option.some.inj hj ▸ hfresh⟩
    · rw [Function.update_of_ne hji] at hj ⊢
      exact h.ready_held j x hj

/-- The handler that is ready executes. -/
theorem execute (h : l.Sound) {i id : ℕ} (hready : l.ready i = some id) :
    Sound { l with
      ready := Function.update l.ready i none
      executed := l.executed ++ [id] } := by
  obtain ⟨hholder, hfresh⟩ := h.ready_held i id hready
  refine ⟨h.nodup, h.fresh, h.columns, h.held, h.unique, fun j x hj => ?_, fun x hx => ?_, ?_⟩
  · dsimp only at hj ⊢
    by_cases hji : j = i
    · rw [hji, Function.update_self] at hj
      cases hj
    · rw [Function.update_of_ne hji] at hj
      obtain ⟨hjholder, hjfresh⟩ := h.ready_held j x hj
      refine ⟨hjholder, fun hmem => ?_⟩
      -- another handler is ready for another action
      rcases List.mem_append.mp hmem with hmem | hmem
      · exact hjfresh hmem
      · rw [List.mem_singleton.mp hmem] at hjholder
        exact hji (h.unique j i id hjholder hholder)
  · rcases List.mem_append.mp hx with hx | hx
    · exact h.approved x hx
    · rw [List.mem_singleton.mp hx]
      obtain ⟨a, ha, hid, hstatus⟩ := h.held i id hholder
      exact ⟨a, ha, hid, Or.inl hstatus⟩
  · exact List.nodup_append.mpr ⟨h.once, List.nodup_singleton _, fun x hx y hy heq => hfresh
      (List.mem_singleton.mp hy ▸ heq ▸ hx)⟩

/-- The action that a handler holds is approved. -/
theorem status_of_held (h : l.Sound) {i : ℕ} {a : Action} (ha : a ∈ l.actions)
    (hholder : l.holder i = some a.id) : a.status = .approved := by
  obtain ⟨b, hb, hid, hstatus⟩ := h.held i a.id hholder
  rw [eq_of_nodup h.nodup ha hb hid.symm]
  exact hstatus

/-- A handler marks what it holds, and gives it up. -/
theorem mark (h : l.Sound) {i id : ℕ} (hholder : l.holder i = some id) (error : Option String)
    (now : Time) :
    Sound { l with
      actions := update (fun a => a.id = id) (Db.marked error now) l.actions
      holder := Function.update l.holder i none
      ready := Function.update l.ready i none } := by
  have hid : ∀ a, (Db.marked error now a).id = a.id := fun a => rfl
  have hreleased := h.release i
  refine ⟨?_, fun b hb => ?_, fun b hb => ?_, fun j x hj => ?_, hreleased.unique,
    hreleased.ready_held, fun x hx => ?_, h.once⟩
  · dsimp only
    rw [map_update hid]
    exact h.nodup
  · obtain ⟨a, ha, rfl⟩ := mem_update.mp hb
    split_ifs <;> exact h.fresh a ha
  · obtain ⟨a, ha, rfl⟩ := mem_update.mp hb
    split_ifs with hp
    · rw [← of_decide_eq_true hp] at hholder
      exact (h.columns a ha).marked (h.status_of_held ha hholder) error now
    · exact h.columns a ha
  · obtain ⟨a, ha, hax, hstatus⟩ := hreleased.held j x hj
    refine ⟨a, mem_update.mpr ⟨a, ha, if_neg fun hp => ?_⟩, hax, hstatus⟩
    -- another handler would hold the same action
    have hax' : x = id := hax.symm.trans (of_decide_eq_true hp)
    dsimp only at hj
    by_cases hji : j = i
    · rw [hji, Function.update_self] at hj
      cases hj
    · rw [Function.update_of_ne hji, hax'] at hj
      exact hji (h.unique j i id hj hholder)
  · obtain ⟨a, ha, hax, hstatus⟩ := h.approved x hx
    refine ⟨_, mem_update_of_mem ha, ?_⟩
    split_ifs
    · refine ⟨hax, Or.inr ?_⟩
      cases error with
      | none => exact Or.inl rfl
      | some text => exact Or.inr rfl
    · exact ⟨hax, hstatus⟩

/-- `DecideAction` moves only a pending row. -/
theorem advances_decide {decision : Decision} {actor : String} {now : Time} {id : ℕ}
    (actions : List Action) :
    Advances actions (update (Db.isPending id) (Db.decided decision actor now) actions) :=
  advances_update (fun a => by cases decision <;> rfl)
    fun a _ hp => moves_decided (of_decide_eq_true hp).2 decision actor now

/-- A mark moves only the row that its handler holds, which is approved. -/
theorem advances_mark (h : l.Sound) {i id : ℕ} (hholder : l.holder i = some id)
    (error : Option String) (now : Time) :
    Advances l.actions (update (fun a => a.id = id) (Db.marked error now) l.actions) := by
  refine advances_update (fun a => rfl) fun a ha hp => ?_
  rw [← of_decide_eq_true hp] at hholder
  exact moves_marked (h.status_of_held ha hholder) error now

end Ledger.Sound

/-! ## The service -/

namespace Service

variable {s s' : Service}

/-- The ledger of a state. -/
def ledger (s : Service) : Ledger where
  actions := s.db.actions
  seq := s.db.actionSeq
  holder := fun i => s.handlers[i]?.bind Handler.holding
  ready := fun i => s.handlers[i]?.bind Handler.ready
  executed := executedBy (s.calls.map (·.2))

/-- What is known of each handler, after one of them has made a step. -/
theorem bind_set {β : Type} {handlers : List Handler} {i : ℕ} {h : Handler}
    (hget : handlers[i]? = some h) (h' : Handler) (f : Handler → Option β) :
    (fun j : ℕ => (handlers.set i h')[j]?.bind f) =
      Function.update (fun j : ℕ => handlers[j]?.bind f) i (f h') := by
  funext j
  obtain ⟨hlt, -⟩ := List.getElem?_eq_some_iff.mp hget
  by_cases hji : j = i
  · rw [hji, Function.update_self, List.getElem?_set_self hlt]
    rfl
  · rw [Function.update_of_ne hji, List.getElem?_set_ne (Ne.symm hji)]

/-- A handler of which nothing is known yet arrives. -/
theorem bind_append {β : Type} (handlers : List Handler) {h : Handler} {f : Handler → Option β}
    (hnone : f h = none) :
    (fun j : ℕ => (handlers ++ [h])[j]?.bind f) = fun j : ℕ => handlers[j]?.bind f := by
  funext j
  rcases Nat.lt_trichotomy j handlers.length with hlt | rfl | hgt
  · rw [List.getElem?_append_left hlt]
  · rw [List.getElem?_concat_length, List.getElem?_eq_none (Nat.le_refl _)]
    exact hnone
  · rw [List.getElem?_eq_none (by simp; omega), List.getElem?_eq_none (Nat.le_of_lt hgt)]

/-- The ledger after a handler's step. -/
theorem ledger_advanced {i : ℕ} {h h' : Handler} {db : Db} {calls : List Call}
    (hget : s.handlers[i]? = some h) :
    (s.advanced i db h' calls).ledger =
      { actions := db.actions
        seq := db.actionSeq
        holder := Function.update s.ledger.holder i h'.holding
        ready := Function.update s.ledger.ready i h'.ready
        executed := s.ledger.executed ++ executedBy calls } := by
  unfold ledger advanced
  simp only [bind_set hget, executedBy, List.map_append, List.filterMap_append, List.map_map]
  simp [Function.comp_def]

/-- A new request changes nothing in the ledger. -/
theorem ledger_arrive (r : Request) :
    ledger { s with handlers := s.handlers ++ [r.start] } = s.ledger := by
  unfold ledger
  dsimp only
  rw [bind_append _ (by cases r <;> rfl), bind_append _ (by cases r <;> rfl)]

/-- One step of a handler. -/
theorem sound_touches {i : ℕ} {h h' : Handler} {db : Db} {calls : List Call}
    (hsound : s.ledger.Sound) (hget : s.handlers[i]? = some h)
    (htouches : Touches s.db s.now h db h' calls) :
    (s.advanced i db h' calls).ledger.Sound ∧ Advances s.db.actions db.actions := by
  have hholder : s.ledger.holder i = h.holding := by
    show s.handlers[i]?.bind _ = _
    rw [hget]
    rfl
  have hready : s.ledger.ready i = h.ready := by
    show s.handlers[i]?.bind _ = _
    rw [hget]
    rfl
  rw [ledger_advanced hget]
  cases htouches with
  | quiet hactions hseq hholding hcalls =>
    rw [hactions, hseq, hholding, Handler.ready_eq_none hholding, hcalls, List.append_nil]
    exact ⟨hsound.release i, advances_refl _⟩
  | created incidentId type _ hactions hseq hholding hcalls =>
    rw [hactions, hseq, hholding, Handler.ready_eq_none hholding, hcalls, List.append_nil]
    exact ⟨(hsound.release i).create rfl (columns_newAction ..), hsound.advances_create rfl rfl⟩
  | decided id decision actor hactions hseq hholding hcalls =>
    rw [hactions, hseq, hcalls, List.append_nil]
    refine ⟨?_, Ledger.Sound.advances_decide _⟩
    have hdecided := (hsound.release i).decide id decision actor s.now
    rcases hholding with hholding | ⟨rfl, hholding, hready', a, ha, hp⟩
    · rw [hholding, Handler.ready_eq_none hholding]
      exact hdecided
    · -- the row was pending, so nobody holds or has executed it
      rw [hholding, hready']
      obtain ⟨hfree, hfresh⟩ := (hsound.release i).free_of_pending ha hp
      have hrow := mem_update_of_mem (p := Db.isPending id)
        (f := Db.decided .approve actor s.now) ha
      rw [if_pos hp] at hrow
      have hheld := hdecided.hold i hrow (of_decide_eq_true hp).1 rfl hfree hfresh
      dsimp only at hheld
      rw [Function.update_idem, Function.update_idem] at hheld
      exact hheld
  | fetched id user role a hh hgetAction =>
    subst hh
    have hid : a.id = id := by
      have hfound := List.find?_some hgetAction
      exact of_decide_eq_true hfound
    refine ⟨?_, advances_refl _⟩
    -- the handler holds what it held, and has read the row of that number
    have hholder' : Handler.holding (.approve id user role (.execute a)) = s.ledger.holder i :=
      hholder.symm
    have hready' : Handler.ready (.approve id user role (.execute a)) = s.ledger.ready i := by
      rw [hready]
      exact congrArg some hid
    rw [hholder', hready', Function.update_eq_self, Function.update_eq_self]
    show Ledger.Sound { s.ledger with executed := s.ledger.executed ++ [] }
    rw [List.append_nil]
    exact hsound
  | executed id user role a path err hh =>
    subst hh
    refine ⟨?_, advances_refl _⟩
    have hholder' : Handler.holding (.approve id user role (.mark a path err)) =
        s.ledger.holder i := hholder.symm
    rw [hholder', Function.update_eq_self]
    exact hsound.execute hready
  | marked id err hactions hseq hh hholding hcalls =>
    rw [hactions, hseq, hholding, Handler.ready_eq_none hholding, hcalls, List.append_nil]
    exact ⟨hsound.mark (hholder.trans hh) err s.now,
      hsound.advances_mark (hholder.trans hh) err s.now⟩

/-- **One step keeps the ledger sound** and moves each action by at most one step of its life. -/
theorem sound_step {e : Event} (hsound : s.ledger.Sound) (hstep : s.step e = some s') :
    s'.ledger.Sound ∧ Advances s.db.actions s'.db.actions := by
  rcases step_cases hstep with ⟨d, rfl⟩ | ⟨r, rfl⟩ | ⟨i, o, h, db, h', calls, -, hget, hh, rfl⟩
  · exact ⟨hsound, advances_refl _⟩
  · rw [ledger_arrive]
    exact ⟨hsound, advances_refl _⟩
  · exact sound_touches hsound hget (Handler.touches hh)

/-- The ledger is sound in every run. -/
theorem sound_of_reach {events : List Event} (hreach : reach step {} events = some s) :
    s.ledger.Sound := by
  refine reach_invariant (I := fun s => s.ledger.Sound) ?_
    (fun _ _ _ hsound hstep => (sound_step hsound hstep).1) hreach
  have hnobody : ∀ i id, (ledger {}).holder i ≠ some id := fun i id h => by simp [ledger] at h
  have hnotready : ∀ i id, (ledger {}).ready i ≠ some id := fun i id h => by simp [ledger] at h
  exact ⟨List.nodup_nil, fun _ ha => absurd ha List.not_mem_nil,
    fun _ ha => absurd ha List.not_mem_nil, fun i id hi => absurd hi (hnobody i id),
    fun i _ id hi => absurd hi (hnobody i id), fun i id hi => absurd hi (hnotready i id),
    fun _ hx => absurd hx List.not_mem_nil, List.nodup_nil⟩

/-- **The life of an action**, over every run of the service: its status only moves
forward, it is executed at most once and not when it is rejected, and the columns
tell its status. -/
theorem action_lifecycle {events : List Event} (hreach : reach step {} events = some s) :
    (s.db.actions.map (·.id)).Nodup ∧
      (∀ e s', s.step e = some s' → Advances s.db.actions s'.db.actions) ∧
      (executedBy (s.calls.map (·.2))).Nodup ∧
      (∀ id ∈ executedBy (s.calls.map (·.2)), ∃ a ∈ s.db.actions, a.id = id ∧ a.status.Approved) ∧
      ∀ a ∈ s.db.actions, a.Columns := by
  have hsound := sound_of_reach hreach
  exact ⟨hsound.nodup, fun e s' hstep => (sound_step hsound hstep).2, hsound.once,
    hsound.approved, hsound.columns⟩

/-- A draft that two analysts approve and a third rejects. -/
theorem action_lifecycle_once :
    let alert : IncomingAlert := ⟨"scan", "10.0.0.1", 100, "high", "n1", ["t"], "", none⟩
    let events : List Event :=
      [.arrive (.deliver alert), .advance 0 {}, .advance 0 {}, .advance 0 {}, .advance 0 {},
        .advance 0 {}, .arrive (.approve 1 "ana" "admin"), .arrive (.approve 1 "bob" "admin"),
        .arrive (.reject 1 "eve" "admin"), .advance 1 {}, .advance 2 {}, .advance 3 {}, .advance 1 {},
        .advance 1 {}, .advance 1 { applied := .ok "dry-run" }]
    ∃ s, reach step {} events = some s ∧ executedBy (s.calls.map (·.2)) = [1] ∧
      s.db.actions.map (·.status) = [.executed] ∧ (executedBy (s.calls.map (·.2))).Nodup ∧
      ∀ a ∈ s.db.actions, a.Columns := by
  intro alert events
  have hrun : (reach step {} events).map (fun s =>
      (executedBy (s.calls.map (·.2)), s.db.actions.map (·.status))) = some ([1], [.executed]) := by
    decide
  obtain ⟨s, hs, hresult⟩ := Option.map_eq_some_iff.mp hrun
  obtain ⟨hexecuted, hstatus⟩ := Prod.mk.inj hresult
  obtain ⟨-, -, honce, -, hcolumns⟩ := action_lifecycle hs
  exact ⟨s, hs, hexecuted, hstatus, honce, hcolumns⟩

end Service

end IncidentService
