/-
# Expired actions

An action expires a day after it was drafted, and nothing looks at the date:
`DecideAction` approves a pending action however old.  An action is executed in
time as long as nobody approves it late and no approval is still on its way to
`executeAction` when the date passes.
-/
import ZtMapper.IncidentService.Approvals

open Table Runs

namespace IncidentService

/-- The action that a call executes. -/
def Call.executes : Call → Option Action
  | .execute a => some a
  | .record _ => none

namespace Handler

/-- The action that a handler is about to approve. -/
def deciding : Handler → Option ℕ
  | .approve id _ _ .decide => some id
  | _ => none

/-- The action that a handler has read and is about to execute. -/
def fetched : Handler → Option Action
  | .approve _ _ _ (.execute a) => some a
  | _ => none

theorem ready_of_fetched {h : Handler} {a : Action} (hfetched : h.fetched = some a) :
    h.ready = some a.id := by
  unfold fetched at hfetched
  split at hfetched
  · obtain rfl := Option.some.inj hfetched
    rfl
  · cases hfetched

end Handler

/-! ## What one step does -/

section Steps

variable {db db' : Db} {now : Time} {o : Outcome} {h h' : Handler} {calls : List Call}

/-- No row goes away or changes its date, and a new one has a day left. -/
theorem Touches.expiresAt (htouches : Touches db now h db' h' calls) :
    (∀ a ∈ db.actions, ∃ b ∈ db'.actions, b.id = a.id ∧ b.expiresAt = a.expiresAt) ∧
      ∀ b ∈ db'.actions, now ≤ b.expiresAt ∨
        ∃ a ∈ db.actions, a.id = b.id ∧ a.expiresAt = b.expiresAt := by
  -- every statement that updates rows keeps their identifiers and dates
  have hupdate : ∀ {p : Action → Bool} {f : Action → Action},
      (∀ a, (f a).id = a.id ∧ (f a).expiresAt = a.expiresAt) → db'.actions = update p f db.actions →
      (∀ a ∈ db.actions, ∃ b ∈ db'.actions, b.id = a.id ∧ b.expiresAt = a.expiresAt) ∧
        ∀ b ∈ db'.actions, now ≤ b.expiresAt ∨
          ∃ a ∈ db.actions, a.id = b.id ∧ a.expiresAt = b.expiresAt := by
    intro p f hf hactions
    have hrow : ∀ a, (if p a then f a else a).id = a.id ∧
        (if p a then f a else a).expiresAt = a.expiresAt := by
      intro a
      split_ifs
      · exact hf a
      · exact ⟨rfl, rfl⟩
    rw [hactions]
    refine ⟨fun a ha => ⟨_, mem_update_of_mem ha, hrow a⟩, fun b hb => Or.inr ?_⟩
    obtain ⟨a, ha, rfl⟩ := mem_update.mp hb
    exact ⟨a, ha, (hrow a).1.symm, (hrow a).2.symm⟩
  have hsame : db'.actions = db.actions → _ := fun hactions =>
    hupdate (p := fun _ => false) (f := id) (fun _ => ⟨rfl, rfl⟩) (by simp [update, hactions])
  cases htouches with
  | quiet hactions => exact hsame hactions
  | created incidentId type _ hactions =>
    rw [hactions]
    refine ⟨fun a ha => ⟨a, List.mem_append_left _ ha, rfl, rfl⟩, fun b hb => ?_⟩
    rcases List.mem_append.mp hb with hb | hb
    · exact Or.inr ⟨b, hb, rfl, rfl⟩
    · left
      rw [List.mem_singleton.mp hb]
      exact Int.le_add_of_nonneg_right (by decide)
  | decided id decision actor hactions =>
    refine hupdate (fun a => ?_) hactions
    cases decision <;> exact ⟨rfl, rfl⟩
  | fetched => exact hsame rfl
  | executed => exact hsame rfl
  | marked id err hactions => exact hupdate (f := Db.marked err now) (fun _ => ⟨rfl, rfl⟩) hactions

/-- Whoever is ready to execute an action after a step has just approved it, or was
ready before; what it has read comes from the table. -/
theorem Handler.ready_of_step (hstep : h.step db now o = some (db', h', calls)) {id : ℕ}
    (hready : h'.ready = some id) :
    (h.deciding = some id ∧ o.fault = .none ∧ (∃ a ∈ db.actions, Db.isPending id a = true) ∧
        h'.fetched = none) ∨
      (h.ready = some id ∧ ∀ a, h'.fetched = some a → a ∈ db.actions) := by
  -- only an approval is ever ready; it becomes so in the state that decides
  cases h with
  | approve id' user role pc =>
    obtain ⟨pc', rfl, hpc⟩ := Handler.approve_step hstep
    cases pc with
    | decide =>
      obtain ⟨rfl, rfl, rfl⟩ := some_triple_inj hpc
      left
      cases hfault : o.fault with
      | none =>
        rw [hfault] at hready
        dsimp only [Db.decideAction] at hready ⊢
        split_ifs at hready ⊢ with hcount
        · cases hready
        · obtain rfl := Option.some.inj hready
          exact ⟨rfl, rfl, exists_pending_of_count hcount, rfl⟩
      -- an update that is not acknowledged ends the handler, whether it has happened or not
      | lost =>
        rw [hfault] at hready
        cases hready
      | unacked =>
        rw [hfault] at hready
        cases hready
    | get =>
      obtain ⟨rfl, rfl, rfl⟩ := some_triple_inj hpc
      right
      unfold query at hready ⊢
      split_ifs at hready ⊢
      · cases hget : db.getAction id' with
        | none =>
          rw [hget] at hready
          cases hready
        | some a =>
          rw [hget] at hready
          obtain rfl := Option.some.inj hready
          refine ⟨congrArg some (id_of_getAction hget).symm, fun b hb => ?_⟩
          obtain rfl := Option.some.inj hb
          exact List.mem_of_find?_eq_some hget
      · cases hready
    | execute a =>
      unfold Approve.step at hpc
      dsimp only at hpc
      cases happlied : o.applied <;>
      · rw [happlied] at hpc
        obtain ⟨rfl, rfl, rfl⟩ := some_triple_inj hpc
        cases hready
    | mark a path err =>
      obtain ⟨rfl, rfl, rfl⟩ := some_triple_inj hpc
      cases hfault : o.fault <;>
      · rw [hfault] at hready
        cases hready
    | record path err =>
      obtain ⟨rfl, rfl, rfl⟩ := some_triple_inj hpc
      cases hready
    | final path err =>
      obtain ⟨rfl, rfl, rfl⟩ := some_triple_inj hpc
      cases hready
    | answered answer => cases hpc
  | _ =>
    obtain ⟨⟨db₁, pc₁, calls₁⟩, -, heq⟩ := Option.map_eq_some_iff.mp hstep
    cases heq
    cases hready

/-- Only a handler that has read an action executes it. -/
theorem Touches.fetched_of_executes (htouches : Touches db now h db' h' calls) {call : Call}
    (hcall : call ∈ calls) {a : Action} (ha : call.executes = some a) : h.fetched = some a := by
  have hmem : call = .execute a := by
    cases call with
    | execute b => rw [Option.some.inj ha]
    | record entry => cases ha
  subst hmem
  have hne : executedBy calls ≠ [] := executedBy_ne_nil hcall
  cases htouches with
  | quiet _ _ _ hcalls => exact absurd hcalls hne
  | created _ _ _ _ _ _ hcalls => exact absurd hcalls hne
  | decided _ _ _ _ _ _ hcalls => exact absurd hcalls hne
  | fetched => exact absurd rfl hne
  | executed id user role b path err hh =>
    rw [hh, Call.execute.inj (List.mem_singleton.mp hcall)]
    rfl
  | marked _ _ _ _ _ _ hcalls => exact absurd hcalls hne

end Steps

/-! ## Runs in time -/

namespace Service

variable {s s' : Service}

/-- No date passes while an approval of the action is being served, and no pending
action is approved when its date has passed. -/
def InTime (s : Service) : Event → Prop
  | .tick d => ∀ h ∈ s.handlers, ∀ a ∈ s.db.actions, h.ready = some a.id → s.now + d ≤ a.expiresAt
  | .arrive _ => True
  | .advance i o => o.fault = .none → ∀ h ∈ s.handlers[i]?, ∀ a ∈ s.db.actions,
      h.deciding = some a.id → a.status = .pending → s.now ≤ a.expiresAt

instance (s : Service) (e : Event) : Decidable (s.InTime e) := by
  cases e <;> unfold InTime <;> infer_instance

/-- An event of a run that is in time. -/
def ApprovesInTime (pre : List Event) (e : Event) : Prop :=
  ∀ s ∈ reach step {} pre, s.InTime e

/-- What the event executes, it executes before it expires. -/
def ExecutesInTime (pre : List Event) (e : Event) : Prop :=
  ∀ s ∈ reach step {} pre, ∀ s' ∈ s.step e, ∀ c ∈ s'.calls.drop s.calls.length,
    ∀ a ∈ c.2.executes, s.now ≤ a.expiresAt

instance (pre : List Event) (e : Event) : Decidable (ApprovesInTime pre e) :=
  inferInstanceAs (Decidable (∀ s ∈ reach step {} pre, s.InTime e))

instance (pre : List Event) (e : Event) : Decidable (ExecutesInTime pre e) :=
  inferInstanceAs (Decidable (∀ s ∈ reach step {} pre, ∀ s' ∈ s.step e,
    ∀ c ∈ s'.calls.drop s.calls.length, ∀ a ∈ c.2.executes, s.now ≤ a.expiresAt))

/-- What has been approved and not executed yet has not expired, and what has been
read carries the date of its row. -/
structure Timely (s : Service) : Prop where
  ready : ∀ h ∈ s.handlers, ∀ a ∈ s.db.actions, h.ready = some a.id → s.now ≤ a.expiresAt
  fetched : ∀ h ∈ s.handlers, ∀ a, h.fetched = some a →
    ∃ b ∈ s.db.actions, b.id = a.id ∧ b.expiresAt = a.expiresAt

/-- The step of a handler. -/
theorem Timely.advanced {i : ℕ} {o : Outcome} {h h' : Handler} {db : Db} {calls : List Call}
    (htimely : s.Timely) (hsound : s.ledger.Sound) (hget : s.handlers[i]? = some h)
    (hstep : h.step s.db s.now o = some (db, h', calls)) (hintime : s.InTime (.advance i o)) :
    (s.advanced i db h' calls).Timely := by
  obtain ⟨hkept, hrows⟩ := (Handler.touches hstep).expiresAt
  have hh : h ∈ s.handlers := List.mem_of_getElem? hget
  have hold : ∀ k ∈ (s.advanced i db h' calls).handlers, k = h' ∨ k ∈ s.handlers := fun k hk =>
    (List.mem_or_eq_of_mem_set hk).symm
  constructor
  · intro k hk b hb hready
    rcases hrows b hb with hnew | ⟨a, ha, hid, hdate⟩
    · exact hnew
    · show s.now ≤ b.expiresAt
      rw [← hdate]
      rw [← hid] at hready
      rcases hold k hk with rfl | hk
      · rcases Handler.ready_of_step hstep hready with ⟨hdeciding, hfault, ⟨c, hc, hp⟩, -⟩ | ⟨hr, -⟩
        · -- the row approved is the one of that number
          obtain ⟨hcid, hpending⟩ := of_decide_eq_true hp
          obtain rfl := eq_of_nodup hsound.nodup hc ha hcid
          exact hintime hfault h hget c hc hdeciding hpending
        · exact htimely.ready h hh a ha hr
      · exact htimely.ready k hk a ha hready
  · intro k hk a hfetched
    have hmem : ∃ b ∈ s.db.actions, b.id = a.id ∧ b.expiresAt = a.expiresAt := by
      rcases hold k hk with rfl | hk
      · rcases Handler.ready_of_step hstep (Handler.ready_of_fetched hfetched) with
          ⟨-, -, -, hnone⟩ | ⟨-, hread⟩
        · rw [hfetched] at hnone
          cases hnone
        · exact ⟨a, hread a hfetched, rfl, rfl⟩
      · exact htimely.fetched k hk a hfetched
    obtain ⟨b, hb, hbid, hbdate⟩ := hmem
    obtain ⟨c, hc, hcid, hcdate⟩ := hkept b hb
    exact ⟨c, hc, hcid.trans hbid, hcdate.trans hbdate⟩

theorem Timely.step {e : Event} (htimely : s.Timely) (hsound : s.ledger.Sound)
    (hstep : s.step e = some s') (hintime : s.InTime e) : s'.Timely := by
  cases e with
  | tick d =>
    obtain rfl := Option.some.inj hstep
    exact ⟨hintime, htimely.fetched⟩
  | arrive r =>
    obtain rfl := Option.some.inj hstep
    have hstart : r.start.ready = none ∧ r.start.fetched = none := by
      cases r <;> exact ⟨rfl, rfl⟩
    constructor
    · intro h hh a ha hready
      rcases List.mem_append.mp hh with hh | hh
      · exact htimely.ready h hh a ha hready
      · rw [List.mem_singleton.mp hh, hstart.1] at hready
        cases hready
    · intro h hh a hfetched
      rcases List.mem_append.mp hh with hh | hh
      · exact htimely.fetched h hh a hfetched
      · rw [List.mem_singleton.mp hh, hstart.2] at hfetched
        cases hfetched
  | advance i o =>
    obtain ⟨h, hget, -⟩ := Option.bind_eq_some_iff.mp hstep
    obtain ⟨db, h', calls, hh, rfl⟩ := step_advance hget hstep
    exact htimely.advanced hsound hget hh hintime

theorem timely_of_reach {events : List Event} (hreach : reach step {} events = some s)
    (hintime : Along ApprovesInTime events) : s.Timely := by
  induction events using List.reverseRecOn generalizing s with
  | nil =>
    obtain rfl := Option.some.inj hreach
    exact ⟨fun h hh => absurd hh List.not_mem_nil, fun h hh => absurd hh List.not_mem_nil⟩
  | append_singleton events e ih =>
    obtain ⟨hintime, hlast⟩ := along_concat.mp hintime
    obtain ⟨s₁, hs₁, hstep⟩ := reach_concat_eq_some.mp hreach
    exact (ih hs₁ hintime).step (sound_of_reach hs₁) hstep (hlast s₁ hs₁)

/-- In a timely state nothing is executed after its date. -/
theorem Timely.executes (htimely : s.Timely) {e : Event} (hstep : s.step e = some s') :
    ∀ c ∈ s'.calls.drop s.calls.length, ∀ a ∈ c.2.executes, s.now ≤ a.expiresAt := by
  intro c hc a ha
  rcases step_cases hstep with ⟨d, rfl⟩ | ⟨r, rfl⟩ | ⟨i, o, h, db, h', calls, -, hget, hh, rfl⟩
  · simp at hc
  · simp at hc
  · rw [Service.advanced, List.drop_left] at hc
    obtain ⟨call, hcall, rfl⟩ := List.mem_map.mp hc
    have hfetched := (Handler.touches hh).fetched_of_executes hcall ha
    have hmem := List.mem_of_getElem? hget
    obtain ⟨b, hb, hid, hdate⟩ := htimely.fetched h hmem a hfetched
    rw [← hdate]
    exact htimely.ready h hmem b hb (hid ▸ Handler.ready_of_fetched hfetched)

/-- **No action is executed after it has expired** in a run that approves no expired
action, and in which no date passes while an approval is being served. -/
theorem executes_in_time {events : List Event} (hintime : Along ApprovesInTime events) :
    Along ExecutesInTime events := by
  intro pre e post heq s hs s' hstep
  refine (timely_of_reach hs ?_).executes hstep
  rw [heq] at hintime
  exact hintime.of_append

/-- The draft of an alert, approved and executed when `d` microseconds have passed. -/
def approvedAfter (d : ℕ) : List Event :=
  [.arrive (.deliver ⟨"scan", "10.0.0.1", 100, "high", "n1", ["t"], "", none⟩),
    .advance 0 {}, .advance 0 {}, .advance 0 {}, .advance 0 {}, .advance 0 {}, .tick d,
    .arrive (.approve 1 "ana" "admin"), .advance 1 {}, .advance 1 {},
    .advance 1 { applied := .ok "dry-run" }]

/-- An approval at the last moment. -/
theorem executes_in_time_day : Along ExecutesInTime (approvedAfter (24 * 60 * 60 * 1000000)) :=
  executes_in_time (by decide +kernel)

/-- An approval a microsecond later executes the action all the same. -/
theorem not_executes_in_time : ¬ Along ExecutesInTime (approvedAfter (24 * 60 * 60 * 1000000 + 1)) := by
  decide +kernel

end Service

end IncidentService
