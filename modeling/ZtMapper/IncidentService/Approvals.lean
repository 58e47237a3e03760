/-
# Approvals

The decision of `approveAction` is committed before the action is read back, and the
execution is audited after it has been marked.  A failure between the two leaves an
action that is approved and never executed, in the first case, and an execution that
is not audited, in the second.
-/
import ZtMapper.IncidentService.Actions

open Table Runs

namespace IncidentService

/-! ## One request alone -/

/-- One step of a request, at some time, with the calls so far. -/
def Approve.serve (id : ℕ) (user role : String) (s : Db × Approve × List Call)
    (e : Time × Outcome) : Option (Db × Approve × List Call) :=
  (s.2.1.step s.1 e.1 e.2 id user role).map fun r => (r.1, r.2.1, s.2.2 ++ r.2.2)

/-- The decision has been committed, and its statement or the next one fails. -/
def LosesDecision : List (Time × Outcome) → Prop
  | [] => False
  | [d] => d.2.fault = .unacked
  | d :: g :: _ => d.2.fault = .unacked ∨ (d.2.fault = .none ∧ g.2.fault ≠ .none)

section Alone

variable {db db' : Db} {id : ℕ} {user role : String} {calls calls' : List Call}

/-- `GetAction` finds the action of the id asked for. -/
theorem id_of_getAction {a : Action} (h : db.getAction id = some a) : a.id = id := by
  have hfound := List.find?_some h
  exact of_decide_eq_true hfound

/-- The action after a decision on it. -/
theorem getAction_decideAction (db : Db) (id : ℕ) (decision : Decision) (actor : String)
    (now : Time) :
    (db.decideAction id decision actor now).1.getAction id =
      (db.getAction id).map fun a =>
        if Db.isPending id a then Db.decided decision actor now a else a := by
  have hid : ∀ a, (if Db.isPending id a then Db.decided decision actor now a else a).id = a.id := by
    intro a
    split_ifs
    · cases decision <;> rfl
    · rfl
  unfold Db.getAction Db.decideAction update
  rw [List.find?_map]
  refine congrArg (Option.map _) (congrArg (fun p => List.find? p _) (funext fun a => ?_))
  show decide (_ = id) = decide (a.id = id)
  rw [hid]

/-- The action that a pending row is found under is approved by the decision. -/
theorem getAction_approved {a : Action} (hget : db.getAction id = some a)
    (hpending : a.status = .pending) (user : String) (now : Time) :
    (db.decideAction id .approve user now).1.getAction id =
      some (Db.decided .approve user now a) := by
  have hp : Db.isPending id a = true := decide_eq_true ⟨id_of_getAction hget, hpending⟩
  rw [getAction_decideAction, hget, Option.map_some, if_pos hp]

/-- An answered request makes no further step. -/
theorem reach_answered {answer : Answer} {es : List (Time × Outcome)} {pc : Approve}
    (h : reach (Approve.serve id user role) (db, .answered answer, calls) es =
      some (db', pc, calls')) :
    es = [] ∧ db' = db ∧ pc = .answered answer ∧ calls' = calls := by
  cases es with
  | nil =>
    obtain ⟨rfl, rfl, rfl⟩ := some_triple_inj h
    exact ⟨rfl, rfl, rfl, rfl⟩
  | cons e es =>
    rw [reach_cons] at h
    cases h

/-- The calls of a request are never taken back. -/
theorem calls_grow {pc pc' : Approve} {es : List (Time × Outcome)}
    (h : reach (Approve.serve id user role) (db, pc, calls) es = some (db', pc', calls')) :
    calls <+: calls' := by
  refine reach_invariant (I := fun r => calls <+: r.2.2) List.prefix_rfl ?_ h
  rintro ⟨db₁, pc₁, calls₁⟩ e ⟨db₂, pc₂, calls₂⟩ hgrown hstep
  obtain ⟨r, -, heq⟩ := Option.map_eq_some_iff.mp hstep
  obtain ⟨-, heq⟩ := Prod.mk.inj heq
  obtain ⟨-, rfl⟩ := Prod.mk.inj heq
  apply hgrown.trans
  exact List.prefix_append _ _

/-- A request that is about to execute does so before it answers. -/
theorem executed_of_answered {a : Action} {answer : Answer} {es : List (Time × Outcome)}
    (h : reach (Approve.serve id user role) (db, .execute a, calls) es =
      some (db', .answered answer, calls')) :
    .execute a ∈ calls' := by
  cases es with
  | nil =>
    obtain ⟨-, hpc, -⟩ := some_triple_inj h
    cases hpc
  | cons e es =>
    rw [reach_cons] at h
    obtain ⟨⟨db₁, pc₁, calls₁⟩, hstep, hrest⟩ := Option.bind_eq_some_iff.mp h
    have hcall : Call.execute a ∈ calls₁ := by
      unfold Approve.serve Approve.step at hstep
      dsimp only at hstep
      cases happlied : e.2.applied <;>
      · rw [happlied] at hstep
        obtain ⟨-, -, rfl⟩ := some_triple_inj hstep
        exact List.mem_append_right _ (List.mem_singleton_self _)
    exact (calls_grow hrest).subset hcall

/-- A call that executes an action is listed. -/
theorem executedBy_ne_nil {a : Action} (h : .execute a ∈ calls) : executedBy calls ≠ [] := by
  have hmem : a.id ∈ executedBy calls := List.mem_filterMap.mpr ⟨.execute a, h, rfl⟩
  exact List.ne_nil_of_mem hmem

/-- An action that is approved is not the pending one. -/
theorem not_pending_approved {a : Action} (hget : db.getAction id = some a)
    (happroved : a.status = .approved) :
    ¬ ∃ a', db.getAction id = some a' ∧ a'.status = .pending := by
  rintro ⟨a', hget', hpending⟩
  rw [Option.some.inj (hget.symm.trans hget'), hpending] at happroved
  cases happroved

/-- A request that has been answered without an execution has left a pending action
pending, unless it lost its decision. -/
theorem pending_iff_of_answered {a : Action} {answer : Answer} {es : List (Time × Outcome)}
    (hget : db.getAction id = some a) (hpending : a.status = .pending)
    (h : reach (Approve.serve id user role) (db, .decide, []) es =
      some (db', .answered answer, calls)) :
    (executedBy calls = [] → ∃ a', db'.getAction id = some a' ∧ a'.status = .pending) ↔
      ¬ LosesDecision es := by
  have hcount : ¬ db.actions.countP (Db.isPending id) = 0 := by
    intro hzero
    exact List.countP_eq_zero.mp hzero a (List.mem_of_find?_eq_some hget)
      (decide_eq_true ⟨id_of_getAction hget, hpending⟩)
  cases es with
  | nil =>
    obtain ⟨-, hpc, -⟩ := some_triple_inj h
    cases hpc
  | cons d es =>
    rw [reach_cons] at h
    obtain ⟨⟨db₁, pc₁, calls₁⟩, hdecide, hrest⟩ := Option.bind_eq_some_iff.mp h
    unfold Approve.serve Approve.step exec at hdecide
    cases hfault : d.2.fault with
    | lost =>
      -- nothing has been written
      rw [hfault] at hdecide
      obtain ⟨rfl, rfl, rfl⟩ := some_triple_inj hdecide
      obtain ⟨rfl, rfl, -, rfl⟩ := reach_answered hrest
      refine iff_of_true (fun _ => ⟨a, hget, hpending⟩) fun hloses => ?_
      have hunacked : d.2.fault = .unacked := hloses
      rw [hfault] at hunacked
      cases hunacked
    | unacked =>
      rw [hfault] at hdecide
      obtain ⟨rfl, rfl, rfl⟩ := some_triple_inj hdecide
      obtain ⟨rfl, rfl, -, rfl⟩ := reach_answered hrest
      exact iff_of_false (fun hkept => not_pending_approved (getAction_approved hget hpending user d.1)
        rfl (hkept rfl)) (not_not_intro hfault)
    | none =>
      rw [hfault] at hdecide
      obtain ⟨rfl, hpc, rfl⟩ := some_triple_inj hdecide
      dsimp only [Db.decideAction] at hpc
      rw [if_neg hcount] at hpc
      subst hpc
      cases es with
      | nil =>
        obtain ⟨-, hpc, -⟩ := some_triple_inj hrest
        cases hpc
      | cons g es =>
        rw [reach_cons] at hrest
        obtain ⟨⟨db₂, pc₂, calls₂⟩, hgetStep, hrest⟩ := Option.bind_eq_some_iff.mp hrest
        unfold Approve.serve Approve.step query at hgetStep
        dsimp only at hgetStep
        have happroved := getAction_approved hget hpending user d.1
        by_cases hread : g.2.fault = .none
        · rw [if_pos hread, happroved] at hgetStep
          obtain ⟨rfl, rfl, rfl⟩ := some_triple_inj hgetStep
          refine iff_of_true (fun hnone => absurd hnone
            (executedBy_ne_nil (executed_of_answered hrest))) ?_
          rintro (hunacked | ⟨-, hfail⟩)
          · rw [hfault] at hunacked
            cases hunacked
          · exact hfail hread
        · rw [if_neg hread] at hgetStep
          obtain ⟨rfl, rfl, rfl⟩ := some_triple_inj hgetStep
          obtain ⟨rfl, rfl, -, rfl⟩ := reach_answered hrest
          exact iff_of_false (fun hkept => not_pending_approved happroved rfl (hkept rfl))
            (not_not_intro (Or.inr ⟨hfault, hread⟩))

end Alone

/-! ## Approved actions -/

/-- A step that loses the decision of its request: the answer to the decision on a
pending action is lost, or the action cannot be read back. -/
def Handler.LosesDecision (db : Db) (o : Outcome) : Handler → Prop
  | .approve id _ _ .decide => o.fault = .unacked ∧ ∃ a ∈ db.actions, Db.isPending id a = true
  | .approve _ _ _ .get => o.fault ≠ .none
  | _ => False

section Steps

variable {db db' : Db} {now : Time} {o : Outcome} {calls : List Call} {a : Action}

/-- No action has become approved. -/
def NoneApproved (db db' : Db) : Prop := ∀ a ∈ db'.actions, a.status = .approved → a ∈ db.actions

/-- Untouched actions are not approved. -/
theorem noneApproved_of_eq (h : db'.actions = db.actions) : NoneApproved db db' :=
  fun _ ha _ => h ▸ ha

/-- The audit log approves nothing. -/
theorem noneApproved_record (entry : AuditEntry) : NoneApproved db (record o db entry) :=
  noneApproved_of_eq (actions_record o db entry)

/-- An update that writes another status approves nothing. -/
theorem noneApproved_update {p : Action → Bool} {f : Action → Action}
    (hactions : db'.actions = update p f db.actions) (h : ∀ a, (f a).status ≠ .approved) :
    NoneApproved db db' := by
  intro a ha happroved
  rw [hactions] at ha
  obtain ⟨b, hb, rfl⟩ := mem_update.mp ha
  split_ifs at happroved ⊢
  · exact absurd happroved (h b)
  · exact hb

/-- A mark approves nothing. -/
theorem noneApproved_mark (id : ℕ) (err : Option String) :
    NoneApproved db (db.markActionExecuted id err now) := by
  refine noneApproved_update rfl fun b => ?_
  cases err with
  | none => exact ActionStatus.noConfusion
  | some text => exact ActionStatus.noConfusion

/-- A rejection approves nothing. -/
theorem noneApproved_reject (id : ℕ) (actor : String) :
    NoneApproved db (db.decideAction id .reject actor now).1 :=
  noneApproved_update rfl fun _ => ActionStatus.noConfusion

/-- A draft is pending. -/
theorem AtMostDrafts.noneApproved {h h' : Handler} (hdrafts : AtMostDrafts db now h db' h' calls) :
    NoneApproved db db' := by
  cases hdrafts with
  | quiet hactions => exact noneApproved_of_eq hactions
  | created incidentId type hwhence hactions =>
    intro a ha happroved
    rw [hactions] at ha
    rcases List.mem_append.mp ha with ha | ha
    · exact ha
    · rw [List.mem_singleton.mp ha] at happroved
      cases happroved

/-- A request that approves an action goes on to execute it, unless it loses its
decision. -/
theorem Approve.approved_mem {pc pc' : Approve} {id : ℕ} {user role : String}
    (h : pc.step db now o id user role = some (db', pc', calls))
    (hkept : ¬ (Handler.approve id user role pc).LosesDecision db o) (ha : a ∈ db'.actions)
    (happroved : a.status = .approved) :
    a ∈ db.actions ∨ (Handler.approve id user role pc').ready = some a.id := by
  cases pc with
  | decide =>
    obtain ⟨rfl, rfl, rfl⟩ := some_triple_inj h
    cases hfault : o.fault with
    | none =>
      rw [hfault] at ha
      obtain ⟨b, hb, rfl⟩ := mem_update.mp ha
      -- a row that the decision has changed is the one that the handler goes on with
      by_cases hp : Db.isPending id b = true
      · refine Or.inr ?_
        have hcount : ¬ db.actions.countP (Db.isPending id) = 0 := fun hzero =>
          List.countP_eq_zero.mp hzero b hb hp
        rw [if_pos hp]
        dsimp only [Db.decideAction]
        rw [if_neg hcount]
        exact congrArg some (of_decide_eq_true hp).1.symm
      · rw [if_neg hp]
        exact Or.inl hb
    | lost =>
      rw [hfault] at ha
      exact Or.inl ha
    | unacked =>
      rw [hfault] at ha
      obtain ⟨b, hb, rfl⟩ := mem_update.mp ha
      refine Or.inl ?_
      -- the decision would be lost here, so that no row was pending
      rw [if_neg fun hp => hkept ⟨hfault, b, hb, hp⟩]
      exact hb
  | get =>
    obtain ⟨rfl, rfl, rfl⟩ := some_triple_inj h
    exact Or.inl ha
  | execute b =>
    unfold Approve.step at h
    dsimp only at h
    cases happlied : o.applied <;>
    · rw [happlied] at h
      obtain ⟨rfl, rfl, rfl⟩ := some_triple_inj h
      exact Or.inl ha
  | mark b path err =>
    have hnone : NoneApproved db db' := by
      obtain ⟨rfl, rfl, rfl⟩ := some_triple_inj h
      cases o.fault with
      | none => exact noneApproved_mark id err
      | lost => exact noneApproved_of_eq rfl
      | unacked => exact noneApproved_mark id err
    exact Or.inl (hnone a ha happroved)
  | record path err =>
    obtain ⟨rfl, rfl, rfl⟩ := some_triple_inj h
    exact Or.inl (noneApproved_record _ a ha happroved)
  | final path err =>
    obtain ⟨rfl, rfl, rfl⟩ := some_triple_inj h
    exact Or.inl ha
  | answered answer => cases h

/-- The reject handler approves nothing. -/
theorem Reject.noneApproved {pc pc' : Reject} {id : ℕ} {user role : String}
    (h : pc.step db now o id user role = some (db', pc', calls)) : NoneApproved db db' := by
  cases pc with
  | decide =>
    obtain ⟨rfl, rfl, rfl⟩ := some_triple_inj h
    cases o.fault with
    | none => exact noneApproved_reject id user
    | lost => exact noneApproved_of_eq rfl
    | unacked => exact noneApproved_reject id user
  | get =>
    obtain ⟨rfl, rfl, rfl⟩ := some_triple_inj h
    exact noneApproved_of_eq rfl
  | record b =>
    obtain ⟨rfl, rfl, rfl⟩ := some_triple_inj h
    exact noneApproved_record _
  | answered answer => cases h

/-- Whoever approves an action goes on to execute it, unless it loses its decision. -/
theorem Handler.approved_mem {h h' : Handler} (hstep : h.step db now o = some (db', h', calls))
    (hkept : ¬ h.LosesDecision db o) (ha : a ∈ db'.actions) (happroved : a.status = .approved) :
    a ∈ db.actions ∨ h'.ready = some a.id := by
  cases h <;> obtain ⟨⟨db₁, pc₁, calls₁⟩, hpc, heq⟩ := Option.map_eq_some_iff.mp hstep <;>
    cases heq
  case approve => exact Approve.approved_mem hpc hkept ha happroved
  case reject => exact Or.inl (Reject.noneApproved hpc a ha happroved)
  case patchStatus => exact Or.inl ((PatchStatus.atMostDrafts hpc).noneApproved a ha happroved)
  case followUp => exact Or.inl ((FollowUp.atMostDrafts hpc).noneApproved a ha happroved)
  case deliver => exact Or.inl ((Deliver.atMostDrafts hpc).noneApproved a ha happroved)

/-- A step of an approving handler is one of its request. -/
theorem Handler.approve_step {h' : Handler} {id : ℕ} {user role : String} {pc : Approve}
    (hstep : (Handler.approve id user role pc).step db now o = some (db', h', calls)) :
    ∃ pc', h' = .approve id user role pc' ∧ pc.step db now o id user role = some (db', pc', calls) := by
  unfold Handler.step at hstep
  obtain ⟨⟨db₁, pc₁, calls₁⟩, hpc, heq⟩ := Option.map_eq_some_iff.mp hstep
  obtain ⟨rfl, rfl, rfl⟩ := some_triple_inj (congrArg some heq)
  exact ⟨pc₁, rfl, hpc⟩

/-- Whoever is ready to execute an action stays so until it does, unless it loses its
decision. -/
theorem Handler.ready_or_executed {h h' : Handler} {id : ℕ}
    (hstep : h.step db now o = some (db', h', calls)) (hkept : ¬ h.LosesDecision db o)
    (hready : h.ready = some id) (hrow : ∃ a ∈ db.actions, a.id = id) :
    h'.ready = some id ∨ id ∈ executedBy calls := by
  unfold Handler.ready at hready
  split at hready
  · -- it reads the row, which is there
    rename_i id' user role
    obtain rfl := Option.some.inj hready
    obtain ⟨pc', rfl, hpc⟩ := Handler.approve_step hstep
    obtain ⟨rfl, rfl, rfl⟩ := some_triple_inj hpc
    obtain ⟨b, hb, hid⟩ := hrow
    have hread : o.fault = .none := not_not.mp hkept
    cases hget : db.getAction id' with
    | none => exact absurd (decide_eq_true hid) (List.find?_eq_none.mp hget b hb)
    | some a =>
      refine Or.inl ?_
      unfold query
      rw [if_pos hread]
      exact congrArg some (id_of_getAction hget)
  · rename_i id' user role a
    obtain rfl := Option.some.inj hready
    obtain ⟨pc', rfl, hpc⟩ := Handler.approve_step hstep
    unfold Approve.step at hpc
    dsimp only at hpc
    refine Or.inr ?_
    cases happlied : o.applied <;>
    · rw [happlied] at hpc
      obtain ⟨rfl, rfl, rfl⟩ := some_triple_inj hpc
      exact List.mem_singleton_self _
  · cases hready

end Steps

namespace Service

variable {s s' : Service}

/-- A step of a handler, with the parts of the state that it changes. -/
theorem step_advance {i : ℕ} {o : Outcome} {h : Handler} (hget : s.handlers[i]? = some h)
    (hstep : s.step (.advance i o) = some s') :
    ∃ db h' calls, h.step s.db s.now o = some (db, h', calls) ∧ s' = s.advanced i db h' calls := by
  unfold step at hstep
  dsimp only at hstep
  rw [hget, Option.bind_some] at hstep
  obtain ⟨⟨db, h', calls⟩, hh, rfl⟩ := Option.map_eq_some_iff.mp hstep
  exact ⟨db, h', calls, hh, rfl⟩

/-- A step of a handler that loses no decision. -/
def KeepsDecision (pre : List Event) (e : Event) : Prop :=
  ∀ s i o h, reach step {} pre = some s → e = .advance i o → s.handlers[i]? = some h →
    ¬ h.LosesDecision s.db o

/-- Every approved action has been executed, or some handler is about to. -/
def Followed (l : Ledger) : Prop :=
  ∀ a ∈ l.actions, a.status = .approved → a.id ∈ l.executed ∨ ∃ i, l.ready i = some a.id

/-- A step that does not lose its decision keeps every approved action followed. -/
theorem followed_advanced {i : ℕ} {o : Outcome} {h h' : Handler} {db : Db} {calls : List Call}
    (hfollowed : Followed s.ledger) (hget : s.handlers[i]? = some h)
    (hstep : h.step s.db s.now o = some (db, h', calls)) (hkept : ¬ h.LosesDecision s.db o) :
    Followed (s.advanced i db h' calls).ledger := by
  have hready : s.ledger.ready i = h.ready := by
    show s.handlers[i]?.bind _ = _
    rw [hget]
    rfl
  rw [ledger_advanced hget]
  intro a ha happroved
  dsimp only at ha ⊢
  rcases Handler.approved_mem hstep hkept ha happroved with hold | hnew
  · rcases hfollowed a hold happroved with hexecuted | ⟨j, hj⟩
    · exact Or.inl (List.mem_append_left _ hexecuted)
    · by_cases hji : j = i
      · subst hji
        have hj' : h.ready = some a.id := hready.symm.trans hj
        rcases Handler.ready_or_executed hstep hkept hj' ⟨a, hold, rfl⟩ with hnext | hmem
        · exact Or.inr ⟨j, by rw [Function.update_self]; exact hnext⟩
        · exact Or.inl (List.mem_append_right _ hmem)
      · exact Or.inr ⟨j, by rw [Function.update_of_ne hji]; exact hj⟩
  · exact Or.inr ⟨i, by rw [Function.update_self]; exact hnew⟩

/-- In a run that loses no decision no action is approved, never executed and out of
the hands of every handler. -/
theorem followed_of_reach {events : List Event} (hreach : reach step {} events = some s)
    (hkeeps : Along KeepsDecision events) : Followed s.ledger := by
  induction events using List.reverseRecOn generalizing s with
  | nil =>
    obtain rfl := Option.some.inj hreach
    exact fun a ha => absurd ha List.not_mem_nil
  | append_singleton events e ih =>
    obtain ⟨hkeeps, hlast⟩ := along_concat.mp hkeeps
    obtain ⟨s₁, hs₁, hstep⟩ := reach_concat_eq_some.mp hreach
    have hfollowed := ih hs₁ hkeeps
    rcases step_cases hstep with ⟨d, rfl⟩ | ⟨r, rfl⟩ | ⟨i, o, h, db, h', calls, he, hget, hh, rfl⟩
    · exact hfollowed
    · rw [ledger_arrive]
      exact hfollowed
    · exact followed_advanced hfollowed hget hh (hlast s₁ i o h hs₁ he hget)

/-- A handler that loses its decision leaves an approved action that nobody is about to
execute. -/
theorem not_followed_advanced {i : ℕ} {o : Outcome} {h h' : Handler} {db : Db} {calls : List Call}
    (hsound : s.ledger.Sound) (hget : s.handlers[i]? = some h)
    (hstep : h.step s.db s.now o = some (db, h', calls)) (hloses : h.LosesDecision s.db o) :
    ¬ Followed (s.advanced i db h' calls).ledger := by
  intro hfollowed
  rw [ledger_advanced hget] at hfollowed
  unfold Handler.LosesDecision at hloses
  split at hloses
  · rename_i id user role
    obtain ⟨hfault, a, ha, hp⟩ := hloses
    obtain ⟨pc', rfl, hpc⟩ := Handler.approve_step hstep
    unfold Approve.step exec at hpc
    rw [hfault] at hpc
    obtain ⟨rfl, rfl, rfl⟩ := some_triple_inj hpc
    obtain ⟨hfree, hfresh⟩ := hsound.free_of_pending ha hp
    have hid : a.id = id := (of_decide_eq_true hp).1
    have hrow := mem_update_of_mem (p := Db.isPending id)
      (f := Db.decided .approve user s.now) ha
    rw [if_pos hp] at hrow
    rcases hfollowed _ hrow rfl with hexecuted | ⟨j, hj⟩
    · refine hfresh ?_
      rw [← hid]
      exact (List.mem_append.mp hexecuted).resolve_right List.not_mem_nil
    · dsimp only at hj
      by_cases hji : j = i
      · rw [hji, Function.update_self] at hj
        cases hj
      · rw [Function.update_of_ne hji] at hj
        refine hfree j ?_
        rw [← hid]
        exact (hsound.ready_held j _ hj).1
  · rename_i id user role
    obtain ⟨pc', rfl, hpc⟩ := Handler.approve_step hstep
    unfold Approve.step query at hpc
    rw [if_neg hloses] at hpc
    obtain ⟨rfl, rfl, rfl⟩ := some_triple_inj hpc
    have hready : s.ledger.ready i = some id := by
      show s.handlers[i]?.bind _ = _
      rw [hget]
      rfl
    obtain ⟨hholder, hfresh⟩ := hsound.ready_held i id hready
    obtain ⟨a, ha, hid, happroved⟩ := hsound.held i id hholder
    rcases hfollowed a ha happroved with hexecuted | ⟨j, hj⟩
    · rw [hid] at hexecuted
      exact hfresh ((List.mem_append.mp hexecuted).resolve_right List.not_mem_nil)
    · dsimp only at hj
      by_cases hji : j = i
      · rw [hji, Function.update_self] at hj
        cases hj
      · -- nobody else holds the action
        rw [Function.update_of_ne hji, hid] at hj
        exact hji (hsound.unique j i id (hsound.ready_held j id hj).1 hholder)
  · exact hloses

/-- Every approved action is followed in every state of a run. -/
def AlwaysFollowed (events : List Event) : Prop :=
  ∀ pre post s, events = pre ++ post → reach step {} pre = some s → Followed s.ledger

/-- **Approved actions are followed in all of a run** exactly when no step loses its decision. -/
theorem alwaysFollowed_iff {events : List Event} (hreach : reach step {} events = some s) :
    AlwaysFollowed events ↔ Along KeepsDecision events := by
  constructor
  · intro halways pre e post heq s₁ i o h hs₁ he hget hloses
    obtain ⟨s₁', s₂, hs₁', hstep, hs₂⟩ := reach_split hreach heq
    obtain rfl := Option.some.inj (hs₁.symm.trans hs₁')
    subst he
    obtain ⟨db, h', calls, hh, rfl⟩ := step_advance hget hstep
    refine not_followed_advanced (sound_of_reach hs₁) hget hh hloses ?_
    exact halways (pre ++ [.advance i o]) post _ (by rw [heq, List.append_assoc]; rfl) hs₂
  · intro hkeeps pre post s₁ heq hs₁
    exact followed_of_reach hs₁ (Along.of_append (heq ▸ hkeeps))

/-- **No decision without an execution.**  A request that answers without an execution
has left its pending action pending exactly when it has not lost the decision; and in
the runs of the service without such a loss, and in no others, every approved action
has been executed or is about to be. -/
theorem approve_keeps_pending {db db' : Db} {id : ℕ} {user role : String} {a : Action}
    {es : List (Time × Outcome)} {answer : Answer} {calls : List Call}
    (hget : db.getAction id = some a) (hpending : a.status = .pending)
    (hserve : reach (Approve.serve id user role) (db, .decide, []) es =
      some (db', .answered answer, calls))
    {events : List Event} (hreach : reach step {} events = some s) :
    ((executedBy calls = [] → ∃ a', db'.getAction id = some a' ∧ a'.status = .pending) ↔
        ¬ LosesDecision es) ∧
      (AlwaysFollowed events ↔ Along KeepsDecision events) :=
  ⟨pending_iff_of_answered hget hpending hserve, alwaysFollowed_iff hreach⟩

/-- The decision fails, and the draft stays; and a run in which a draft is approved and
executed. -/
theorem approve_keeps_pending_lost :
    let a : Action :=
      { id := 1, incidentId := 1, type := .quarantinePod, status := .pending, expiresAt := 9,
        createdAt := 0 }
    let db : Db := { actions := [a], actionSeq := 2 }
    let es : List (Time × Outcome) := [(5, { fault := .lost, text := "conn closed" })]
    let answer : Answer := .error 400 "conn closed"
    let events : List Event :=
      [.arrive (.deliver ⟨"scan", "10.0.0.1", 100, "high", "n1", ["t"], "", none⟩), .advance 0 {},
        .advance 0 {}, .advance 0 {}, .advance 0 {}, .advance 0 {},
        .arrive (.approve 1 "ana" "admin"), .advance 1 {}, .advance 1 {},
        .advance 1 { applied := .ok "np" }]
    reach (Approve.serve 1 "ana" "admin") (db, .decide, []) es = some (db, .answered answer, []) ∧
      (∃ s, reach step {} events = some s ∧ s.ledger.executed = [1]) ∧
      ((executedBy [] = [] → ∃ a', db.getAction 1 = some a' ∧ a'.status = .pending) ↔
        ¬ LosesDecision es) ∧
      (AlwaysFollowed events ↔ Along KeepsDecision events) := by
  intro a db es answer events
  have hserve : reach (Approve.serve 1 "ana" "admin") (db, .decide, []) es =
      some (db, .answered answer, []) := by decide
  have hrun : (reach step {} events).map (·.ledger.executed) = some [1] := by decide
  obtain ⟨s, hs, hexecuted⟩ := Option.map_eq_some_iff.mp hrun
  exact ⟨hserve, ⟨s, hs, hexecuted⟩, approve_keeps_pending (a := a) (by decide) rfl hserve hs⟩

/-- The decision is committed and the action cannot be read back: the request answers
with an error, nothing has been executed, and nobody can decide the action again. -/
theorem not_approve_keeps_pending :
    let a : Action :=
      { id := 1, incidentId := 1, type := .quarantinePod, status := .pending, expiresAt := 9,
        createdAt := 0 }
    let db : Db := { actions := [a], actionSeq := 2 }
    let es : List (Time × Outcome) := [(5, {}), (6, { fault := .lost, text := "conn closed" })]
    let db' : Db := { actions := [Db.decided .approve "ana" 5 a], actionSeq := 2 }
    reach (Approve.serve 1 "ana" "admin") (db, .decide, []) es =
        some (db', .answered (.error 400 "conn closed"), []) ∧
      ¬ (executedBy [] = [] → ∃ a', db'.getAction 1 = some a' ∧ a'.status = .pending) ∧
      ∀ decision actor now, (db'.decideAction 1 decision actor now).2 = 0 := by
  intro a db es db'
  refine ⟨by decide, fun hkept => ?_, fun decision actor now => rfl⟩
  obtain ⟨a', hget, hpending⟩ := hkept rfl
  rw [← Option.some.inj hget] at hpending
  cases hpending

end Service

/-! ## The audit of executions -/

/-- The entry that records an approval. -/
def approvalEntry (id : ℕ) (user role : String) : AuditEntry :=
  auditEntry user role "action.approved" "action" id

/-- What is known at each step of a request that has made some calls, and has not
failed to mark the action if `marked`. -/
def Approve.Audited (id : ℕ) (user role : String) (calls : List Call) (marked : Prop) :
    Approve → Prop
  | .decide | .get | .execute _ =>
    executedBy calls = [] ∧ .record (approvalEntry id user role) ∉ calls ∧ marked
  | .mark .. => executedBy calls ≠ [] ∧ .record (approvalEntry id user role) ∉ calls ∧ marked
  | .record .. => marked
  | .final .. => .record (approvalEntry id user role) ∈ calls ∧ marked
  | .answered _ => (executedBy calls ≠ [] → .record (approvalEntry id user role) ∈ calls) ↔ marked

/-- A step that does not fail to mark the action. -/
def Approve.Marks (o : Outcome) : Approve → Prop
  | .mark .. => o.fault = .none
  | _ => True

section Audit

variable {db db' : Db} {now : Time} {o : Outcome} {id : ℕ} {user role : String}
  {calls calls' : List Call} {marked : Prop}

/-- A request that answers before it executes has nothing to record. -/
theorem Approve.audited_answered (hexecuted : executedBy calls = []) (hmarked : marked)
    (answer : Answer) : (Approve.answered answer).Audited id user role calls marked :=
  iff_of_true (fun hne => absurd hexecuted hne) hmarked

/-- One step of the approve handler keeps its audit law. -/
theorem Approve.audited_step {pc pc' : Approve}
    (h : pc.step db now o id user role = some (db', pc', calls'))
    (haudited : pc.Audited id user role calls marked) :
    pc'.Audited id user role (calls ++ calls') (marked ∧ pc.Marks o) := by
  cases pc with
  | decide =>
    obtain ⟨hexecuted, hrecorded, hmarked⟩ := haudited
    obtain ⟨rfl, rfl, rfl⟩ := some_triple_inj h
    rw [List.append_nil]
    cases o.fault with
    | none =>
      dsimp only [Db.decideAction]
      split_ifs
      · exact audited_answered hexecuted ⟨hmarked, trivial⟩ _
      · exact ⟨hexecuted, hrecorded, hmarked, trivial⟩
    | lost => exact audited_answered hexecuted ⟨hmarked, trivial⟩ _
    | unacked => exact audited_answered hexecuted ⟨hmarked, trivial⟩ _
  | get =>
    obtain ⟨hexecuted, hrecorded, hmarked⟩ := haudited
    obtain ⟨rfl, rfl, rfl⟩ := some_triple_inj h
    rw [List.append_nil]
    unfold query
    split_ifs
    · cases db.getAction id with
      | none => exact audited_answered hexecuted ⟨hmarked, trivial⟩ _
      | some a => exact ⟨hexecuted, hrecorded, hmarked, trivial⟩
    · exact audited_answered hexecuted ⟨hmarked, trivial⟩ _
  | execute a =>
    obtain ⟨-, hrecorded, hmarked⟩ := haudited
    have hmark : ∀ path err, (Approve.mark a path err).Audited id user role
        (calls ++ [.execute a]) (marked ∧ (Approve.execute a).Marks o) := by
      refine fun path err => ⟨executedBy_ne_nil (a := a) ?_, fun hmem => ?_, hmarked, trivial⟩
      · exact List.mem_append_right _ (List.mem_singleton_self _)
      · rcases List.mem_append.mp hmem with hmem | hmem
        · exact hrecorded hmem
        · cases List.mem_singleton.mp hmem
    unfold Approve.step at h
    dsimp only at h
    cases happlied : o.applied <;>
    · rw [happlied] at h
      obtain ⟨rfl, rfl, rfl⟩ := some_triple_inj h
      exact hmark _ _
  | mark a path err =>
    obtain ⟨hexecuted, hrecorded, hmarked⟩ := haudited
    obtain ⟨rfl, rfl, rfl⟩ := some_triple_inj h
    rw [List.append_nil]
    -- an error here is answered at once
    have hanswered : o.fault ≠ .none → ∀ answer, (Approve.answered answer).Audited id user role
        calls (marked ∧ (Approve.mark a path err).Marks o) := fun hfault answer =>
      iff_of_false (fun hrecords => hrecorded (hrecords hexecuted)) fun hmarks => hfault hmarks.2
    cases hfault : o.fault with
    | none => exact ⟨hmarked, hfault⟩
    | lost => exact hanswered (by rw [hfault]; exact Fault.noConfusion) _
    | unacked => exact hanswered (by rw [hfault]; exact Fault.noConfusion) _
  | record path err =>
    obtain ⟨rfl, rfl, rfl⟩ := some_triple_inj h
    exact ⟨List.mem_append_right _ (List.mem_singleton_self _), haudited, trivial⟩
  | final path err =>
    obtain ⟨hrecorded, hmarked⟩ := haudited
    obtain ⟨rfl, rfl, rfl⟩ := some_triple_inj h
    rw [List.append_nil]
    exact iff_of_true (fun _ => hrecorded) ⟨hmarked, trivial⟩
  | answered answer => cases h

end Audit

namespace Service

/-- The calls of one handler. -/
def callsOf (i : ℕ) (calls : List (ℕ × Call)) : List Call :=
  calls.filterMap fun call => if call.1 = i then some call.2 else none

/-- The calls of a handler are listed in order. -/
theorem callsOf_append (i : ℕ) (calls calls' : List (ℕ × Call)) :
    callsOf i (calls ++ calls') = callsOf i calls ++ callsOf i calls' :=
  List.filterMap_append

/-- A step adds calls of its own handler only. -/
theorem callsOf_map (i j : ℕ) (calls : List Call) :
    callsOf i (calls.map fun call => (j, call)) = if j = i then calls else [] := by
  unfold callsOf
  rw [List.filterMap_map]
  split_ifs with h
  · simp [h]
  · simp [h]

variable {s s' : Service} {i : ℕ} {events : List Event} {e : Event}

/-- The statement with which a handler marks its action does not fail. -/
def MarksAction (i : ℕ) (pre : List Event) (e : Event) : Prop :=
  ∀ s o id user role pc, reach step {} pre = some s → e = .advance i o →
    s.handlers[i]? = some (.approve id user role pc) → pc.Marks o

/-- What is known of the handler of a number, and of a number that has none. -/
def AuditedAt (i : ℕ) (events : List Event) (s : Service) : Prop :=
  match s.handlers[i]? with
  | none => callsOf i s.calls = [] ∧ Along (MarksAction i) events
  | some (.approve id user role pc) =>
    pc.Audited id user role (callsOf i s.calls) (Along (MarksAction i) events)
  | some _ => True

/-- The audit law of a handler sees only that handler's part of the run. -/
theorem auditedAt_congr {events' : List Event} (hhandler : s'.handlers[i]? = s.handlers[i]?)
    (hcalls : callsOf i s'.calls = callsOf i s.calls)
    (halong : Along (MarksAction i) events' ↔ Along (MarksAction i) events)
    (h : AuditedAt i events s) : AuditedAt i events' s' := by
  unfold AuditedAt at h ⊢
  rw [hhandler, hcalls, propext halong]
  exact h

/-- An event that is no step of the handler. -/
theorem along_marksAction_concat (hother : ∀ o, e ≠ .advance i o) :
    Along (MarksAction i) (events ++ [e]) ↔ Along (MarksAction i) events := by
  rw [along_concat]
  exact and_iff_left fun _ o _ _ _ _ _ he _ => absurd he (hother o)

/-- A new request keeps the audit laws. -/
theorem auditedAt_arrive (r : Request) (h : AuditedAt i events s) :
    AuditedAt i (events ++ [.arrive r]) { s with handlers := s.handlers ++ [r.start] } := by
  have halong : Along (MarksAction i) (events ++ [.arrive r]) ↔ Along (MarksAction i) events :=
    along_marksAction_concat fun o he => by cases he
  rcases Nat.lt_trichotomy i s.handlers.length with hlt | rfl | hgt
  · exact auditedAt_congr (List.getElem?_append_left hlt) rfl halong h
  · -- the new handler has made no calls
    unfold AuditedAt at h ⊢
    rw [List.getElem?_eq_none (Nat.le_refl _)] at h
    rw [List.getElem?_concat_length]
    obtain ⟨hcalls, hmarks⟩ := h
    cases r with
    | approve id user role =>
      refine ⟨?_, ?_, halong.mpr hmarks⟩
      · rw [hcalls]
        rfl
      · rw [hcalls]
        exact List.not_mem_nil
    | reject => trivial
    | patchStatus => trivial
    | followUp => trivial
    | deliver => trivial
  · have hhandler : (s.handlers ++ [r.start])[i]? = s.handlers[i]? := by
      rw [List.getElem?_eq_none (Nat.le_of_lt hgt)]
      exact List.getElem?_eq_none (by rw [List.length_append, List.length_singleton]; omega)
    exact auditedAt_congr hhandler rfl halong h

/-- So does a step of any handler. -/
theorem auditedAt_advance {o : Outcome} {h h' : Handler} {db : Db} {calls : List Call}
    (hreach : reach step {} events = some s) (hget : s.handlers[i]? = some h)
    (hstep : h.step s.db s.now o = some (db, h', calls)) (haudited : AuditedAt i events s) :
    AuditedAt i (events ++ [.advance i o]) (s.advanced i db h' calls) := by
  obtain ⟨hlt, -⟩ := List.getElem?_eq_some_iff.mp hget
  have hget' : (s.advanced i db h' calls).handlers[i]? = some h' := List.getElem?_set_self hlt
  have hcalls : callsOf i (s.advanced i db h' calls).calls = callsOf i s.calls ++ calls := by
    show callsOf i (s.calls ++ _) = _
    rw [callsOf_append, callsOf_map, if_pos rfl]
  unfold AuditedAt at haudited ⊢
  rw [hget] at haudited
  rw [hget', hcalls, along_concat]
  cases h with
  | approve id user role pc =>
    obtain ⟨pc', rfl, hpc⟩ := Handler.approve_step hstep
    have hmarks : MarksAction i events (.advance i o) ↔ pc.Marks o := by
      constructor
      · exact fun hall => hall s o id user role pc hreach rfl hget
      · intro hpc s₁ o₁ id₁ user₁ role₁ pc₁ hs₁ he hget₁
        obtain rfl := Option.some.inj (hreach.symm.trans hs₁)
        obtain rfl : o = o₁ := (Event.advance.inj he).2
        obtain rfl : pc = pc₁ := (Handler.approve.inj (Option.some.inj (hget.symm.trans hget₁))).2.2.2
        exact hpc
    rw [hmarks]
    exact Approve.audited_step hpc haudited
  | _ =>
    obtain ⟨r, -, heq⟩ := Option.map_eq_some_iff.mp hstep
    obtain ⟨-, rfl, -⟩ := some_triple_inj (congrArg some heq)
    trivial

/-- **The audit law of every handler** holds in every run. -/
theorem auditedAt_of_reach (hreach : reach step {} events = some s) (i : ℕ) :
    AuditedAt i events s := by
  induction events using List.reverseRecOn generalizing s with
  | nil =>
    obtain rfl := Option.some.inj hreach
    exact ⟨rfl, along_nil⟩
  | append_singleton events e ih =>
    obtain ⟨s₁, hs₁, hstep⟩ := reach_concat_eq_some.mp hreach
    have haudited := ih hs₁
    cases e with
    | tick d =>
      obtain rfl := Option.some.inj hstep
      exact auditedAt_congr rfl rfl (along_marksAction_concat fun o he => by cases he) haudited
    | arrive r =>
      obtain rfl := Option.some.inj hstep
      exact auditedAt_arrive r haudited
    | advance j o =>
      obtain ⟨h, hget, -⟩ := Option.bind_eq_some_iff.mp hstep
      obtain ⟨db, h', calls, hh, rfl⟩ := step_advance hget hstep
      by_cases hji : j = i
      · subst hji
        exact auditedAt_advance hs₁ hget hh haudited
      · refine auditedAt_congr (List.getElem?_set_ne hji) ?_ (along_marksAction_concat fun o' he =>
          hji (Event.advance.inj he).1) haudited
        show callsOf i (s₁.calls ++ _) = _
        rw [callsOf_append, callsOf_map, if_neg hji, List.append_nil]

/-- **Executions are audited.**  In every state of the service, an answered approval
that has executed its action has called `Audit.Record`, exactly when no statement that
marks the action has failed. -/
theorem approve_records_execution (hreach : reach step {} events = some s) {id : ℕ}
    {user role : String} {answer : Answer}
    (hget : s.handlers[i]? = some (.approve id user role (.answered answer))) :
    (executedBy (callsOf i s.calls) ≠ [] →
        .record (approvalEntry id user role) ∈ callsOf i s.calls) ↔
      Along (MarksAction i) events := by
  have haudited := auditedAt_of_reach hreach i
  unfold AuditedAt at haudited
  rw [hget] at haudited
  exact haudited

/-- A draft is approved, and the policy that has been applied is recorded. -/
theorem approve_records_execution_draft :
    let alert : IncomingAlert := ⟨"scan", "10.0.0.1", 100, "high", "n1", ["t"], "", none⟩
    let events : List Event :=
      [.arrive (.deliver alert), .advance 0 {}, .advance 0 {}, .advance 0 {}, .advance 0 {},
        .advance 0 {}, .arrive (.approve 1 "ana" "admin"), .advance 1 {}, .advance 1 {},
        .advance 1 { applied := .ok "np" }, .advance 1 {}, .advance 1 {}, .advance 1 {}]
    ∃ s, reach step {} events = some s ∧ executedBy (callsOf 1 s.calls) = [1] ∧
      ((executedBy (callsOf 1 s.calls) ≠ [] →
          .record (approvalEntry 1 "ana" "admin") ∈ callsOf 1 s.calls) ↔
        Along (MarksAction 1) events) := by
  intro alert events
  let final : Action :=
    { id := 1, incidentId := 1, type := .quarantinePod, status := .executed,
      approvedBy := some "ana", approvedAt := some 0, executedAt := some 0,
      expiresAt := 86400000000, createdAt := 0 }
  have hrun : (reach step {} events).map (fun s =>
      (executedBy (callsOf 1 s.calls), s.handlers[1]?)) =
      some ([1], some (.approve 1 "ana" "admin" (.answered (.approved (some final) "np" none)))) := by
    decide
  obtain ⟨s, hs, hresult⟩ := Option.map_eq_some_iff.mp hrun
  obtain ⟨hexecuted, hget⟩ := Prod.mk.inj hresult
  exact ⟨s, hs, hexecuted, approve_records_execution hs hget⟩

/-- The policy has been applied and the action cannot be marked: the request answers
with an error, and has called `Audit.Record` for nothing. -/
theorem not_approve_records_execution :
    let alert : IncomingAlert := ⟨"scan", "10.0.0.1", 100, "high", "n1", ["t"], "", none⟩
    let events : List Event :=
      [.arrive (.deliver alert), .advance 0 {}, .advance 0 {}, .advance 0 {}, .advance 0 {},
        .advance 0 {}, .arrive (.approve 1 "ana" "admin"), .advance 1 {}, .advance 1 {},
        .advance 1 { applied := .ok "np" }, .advance 1 { fault := .lost, text := "conn closed" }]
    ∃ s, reach step {} events = some s ∧
      s.handlers[1]? =
        some (.approve 1 "ana" "admin" (.answered (.error 500 "conn closed"))) ∧
      ¬ (executedBy (callsOf 1 s.calls) ≠ [] →
        .record (approvalEntry 1 "ana" "admin") ∈ callsOf 1 s.calls) := by
  intro alert events
  have hrun : (reach step {} events).map (fun s =>
      (s.handlers[1]?, executedBy (callsOf 1 s.calls),
        decide (.record (approvalEntry 1 "ana" "admin") ∈ callsOf 1 s.calls))) =
      some (some (.approve 1 "ana" "admin" (.answered (.error 500 "conn closed"))), [1], false) := by
    decide
  obtain ⟨s, hs, hresult⟩ := Option.map_eq_some_iff.mp hrun
  obtain ⟨hget, hrest⟩ := Prod.mk.inj hresult
  obtain ⟨hexecuted, hrecorded⟩ := Prod.mk.inj hrest
  refine ⟨s, hs, hget, fun hrecords => of_decide_eq_false hrecorded (hrecords ?_)⟩
  rw [hexecuted]
  exact List.cons_ne_nil _ _

end Service

end IncidentService
