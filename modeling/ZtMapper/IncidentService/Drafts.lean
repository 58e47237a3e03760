/-
# Drafts

Two paths insert a quarantine draft: the subscriber, after it has looked for a
pending action of the incident, and a change of status, which does not look.  An
incident has at most one pending draft exactly when no draft is inserted while it
has one, and that follows when the subscriber's check is good.
-/
import ZtMapper.IncidentService.Actions

open Table Runs

namespace IncidentService

/-! ## Pending drafts -/

/-- A pending quarantine action of an incident. -/
def isDraft (incidentId : ℕ) (a : Action) : Bool :=
  decide (a.incidentId = incidentId ∧ a.type = .quarantinePod ∧ a.status = .pending)

/-- The number of pending drafts of an incident. -/
def draftCount (incidentId : ℕ) (actions : List Action) : ℕ := actions.countP (isDraft incidentId)

/-- A new draft counts for its incident. -/
theorem draftCount_append_draft (actions : List Action) (db : Db) (k incidentId : ℕ) (now : Time) :
    draftCount k (actions ++ [newAction db incidentId .quarantinePod now]) =
      draftCount k actions + if incidentId = k then 1 else 0 := by
  unfold draftCount
  rw [List.countP_append, List.countP_singleton]
  refine congrArg _ (if_congr ?_ rfl rfl)
  simp [isDraft, newAction, Db.createAction]

/-- An action of another type does not count. -/
theorem draftCount_append_followUp (actions : List Action) (db : Db) (k incidentId : ℕ)
    {type : ActionType} (htype : type ≠ .quarantinePod) (now : Time) :
    draftCount k (actions ++ [newAction db incidentId type now]) = draftCount k actions := by
  unfold draftCount
  rw [List.countP_append, List.countP_singleton, if_neg]
  · rfl
  · simp [isDraft, newAction, Db.createAction, htype]

/-- An update after which the rows it changes are not pending. -/
theorem draftCount_update_le {p : Action → Bool} {f : Action → Action} (k : ℕ)
    (actions : List Action) (hf : ∀ a, (f a).status ≠ .pending) :
    draftCount k (update p f actions) ≤ draftCount k actions := by
  unfold draftCount update
  rw [List.countP_map]
  refine List.countP_mono_left fun a _ ha => ?_
  dsimp only [Function.comp_apply] at ha
  split_ifs at ha
  · exact absurd (of_decide_eq_true ha).2.2 (hf a)
  · exact ha

/-! ## One step -/

/-- A follow-up action is not a quarantine. -/
def Handler.FollowsUp (h : Handler) : Prop := h.followingUp ≠ some .quarantinePod

section Steps

variable {db db' : Db} {now : Time} {o : Outcome} {h h' : Handler} {calls : List Call}

/-- A follow-up handler keeps to the types of follow-ups. -/
theorem FollowUp.followsUp {id : ℕ} {body : FollowUpRequest} {user role : String}
    {pc pc' : FollowUp} (hfollows : Handler.FollowsUp (.followUp id body user role pc))
    (hstep : pc.step db now o id body user role = some (db', pc', calls)) :
    Handler.FollowsUp (.followUp id body user role pc') := by
  cases pc with
  | check =>
    obtain ⟨-, rfl, -⟩ := some_triple_inj hstep
    split_ifs with htype hpod
    · exact fun heq => nomatch heq
    · exact fun heq => nomatch heq
    · cases hbody : body.type with
      | none => exact fun heq => nomatch heq
      | some type =>
        -- the check lets two types through
        rw [hbody] at htype
        rintro heq
        obtain rfl : type = .quarantinePod := Option.some.inj heq
        exact htype ⟨by decide, by decide⟩
  | get type =>
    obtain ⟨-, rfl, -⟩ := some_triple_inj hstep
    unfold query
    split_ifs
    · cases db.getIncident id with
      | none => exact fun heq => nomatch heq
      | some inc => exact hfollows
    · exact fun heq => nomatch heq
  | create type inc =>
    obtain ⟨-, rfl, -⟩ := some_triple_inj hstep
    cases o.fault <;> exact fun heq => nomatch heq
  | record act =>
    obtain ⟨-, rfl, -⟩ := some_triple_inj hstep
    exact fun heq => nomatch heq
  | answered answer => cases hstep

/-- So does every handler after a step. -/
theorem followsUp_step (hfollows : h.FollowsUp) (hstep : h.step db now o = some (db', h', calls)) :
    h'.FollowsUp := by
  cases h <;> obtain ⟨⟨db₁, pc₁, calls₁⟩, hpc, heq⟩ := Option.map_eq_some_iff.mp hstep <;> cases heq
  case followUp => exact FollowUp.followsUp hfollows hpc
  all_goals exact fun heq => nomatch heq

/-- A handler that is about to insert a draft does so, unless the statement is lost. -/
theorem step_of_drafting {k : ℕ} (hdrafting : h.drafting = some k) (db : Db) (now : Time)
    (o : Outcome) : ∃ db' h' calls, h.step db now o = some (db', h', calls) ∧
      db'.actions = if o.fault = .lost then db.actions else
        db.actions ++ [newAction db k .quarantinePod now] := by
  unfold Handler.drafting at hdrafting
  split at hdrafting
  · obtain rfl := Option.some.inj hdrafting
    refine ⟨_, _, _, rfl, ?_⟩
    cases o.fault <;> rfl
  · obtain rfl := Option.some.inj hdrafting
    refine ⟨_, _, _, rfl, ?_⟩
    cases o.fault <;> rfl
  · cases hdrafting

/-- Another handler inserts no draft. -/
theorem draftCount_touches_le (hfollows : h.FollowsUp) (hdrafting : h.drafting = none)
    (htouches : Touches db now h db' h' calls) (k : ℕ) :
    draftCount k db'.actions ≤ draftCount k db.actions := by
  cases htouches with
  | quiet hactions => exact Nat.le_of_eq (by rw [hactions])
  | created incidentId type hwhence hactions =>
    rcases hwhence with ⟨hdraft, -⟩ | htype
    · rw [hdrafting] at hdraft
      cases hdraft
    · have hne : type ≠ .quarantinePod := by
        rintro rfl
        exact hfollows htype
      rw [hactions]
      exact Nat.le_of_eq (draftCount_append_followUp _ _ _ _ hne _)
  | decided id decision actor hactions =>
    rw [hactions]
    exact draftCount_update_le k _ fun a => by cases decision <;> exact fun heq => nomatch heq
  | fetched => exact Nat.le_refl _
  | executed => exact Nat.le_refl _
  | marked id err hactions =>
    rw [hactions]
    exact draftCount_update_le k _ fun a => by cases err <;> exact fun heq => nomatch heq

end Steps

namespace Service

variable {s s' : Service} {e : Event} {k : ℕ}

/-- The incident for which a step inserts a draft. -/
def inserts (s : Service) : Event → Option ℕ
  | .advance i o => if o.fault = .lost then none else s.handlers[i]?.bind Handler.drafting
  | _ => none

/-- A step that inserts a draft succeeds and appends it. -/
theorem step_of_inserts (h : s.inserts e = some k) :
    ∃ s', s.step e = some s' ∧
      s'.db.actions = s.db.actions ++ [newAction s.db k .quarantinePod s.now] := by
  cases e with
  | tick d => cases h
  | arrive r => cases h
  | advance i o =>
    unfold inserts at h
    dsimp only at h
    split_ifs at h with hfault
    obtain ⟨handler, hget, hdrafting⟩ := Option.bind_eq_some_iff.mp h
    obtain ⟨db', h', calls, hstep, hactions⟩ := step_of_drafting hdrafting s.db s.now o
    rw [if_neg hfault] at hactions
    refine ⟨s.advanced i db' h' calls, ?_, hactions⟩
    unfold step
    dsimp only
    rw [hget, Option.bind_some, hstep]
    rfl

/-- An inserted draft counts for its incident. -/
theorem draftCount_of_inserts (h : s.inserts e = some k) (hstep : s.step e = some s') (k' : ℕ) :
    draftCount k' s'.db.actions = draftCount k' s.db.actions + if k = k' then 1 else 0 := by
  obtain ⟨s₁, hs₁, hactions⟩ := step_of_inserts h
  obtain rfl : s₁ = s' := Option.some.inj (hs₁.symm.trans hstep)
  rw [hactions, draftCount_append_draft]

/-- No other step adds a draft for the incident. -/
theorem draftCount_le_of_not_inserts (hfollows : ∀ h ∈ s.handlers, h.FollowsUp)
    (h : s.inserts e ≠ some k) (hstep : s.step e = some s') :
    draftCount k s'.db.actions ≤ draftCount k s.db.actions := by
  cases hinserts : s.inserts e with
  | some k' =>
    rw [hinserts] at h
    have hcount := draftCount_of_inserts hinserts hstep k
    rw [if_neg fun heq => h (congrArg some heq)] at hcount
    exact Nat.le_of_eq hcount
  | none =>
    rcases step_cases hstep with ⟨d, rfl⟩ | ⟨r, rfl⟩ | ⟨i, o, h₁, db, h', calls, rfl, hget, hh, rfl⟩
    · exact Nat.le_refl _
    · exact Nat.le_refl _
    · show draftCount k db.actions ≤ _
      unfold inserts at hinserts
      dsimp only at hinserts
      rw [hget, Option.bind_some] at hinserts
      cases hdrafting : h₁.drafting with
      | none =>
        exact draftCount_touches_le (hfollows h₁ (List.mem_of_getElem? hget)) hdrafting
          (Handler.touches hh) k
      | some k' =>
        -- the statement of the handler is lost
        have hlost : o.fault = .lost := by
          by_contra hfault
          rw [if_neg hfault, hdrafting] at hinserts
          cases hinserts
        obtain ⟨db₁, h₂, calls₁, hstep₁, hactions⟩ := step_of_drafting hdrafting s.db s.now o
        obtain ⟨rfl, -, -⟩ := some_triple_inj (hh.symm.trans hstep₁)
        rw [if_pos hlost] at hactions
        exact Nat.le_of_eq (congrArg _ hactions)

/-- A handler that starts keeps to the types of follow-ups. -/
theorem followsUp_start (r : Request) : r.start.FollowsUp := by
  cases r <;> exact fun heq => nomatch heq

/-- So do all handlers of a run. -/
theorem followsUp_of_reach {events : List Event} (hreach : reach step {} events = some s) :
    ∀ h ∈ s.handlers, h.FollowsUp := by
  refine reach_invariant (I := fun s => ∀ h ∈ s.handlers, h.FollowsUp)
    (fun h hh => absurd hh List.not_mem_nil) (fun s e s' hfollows hstep => ?_) hreach
  rcases step_cases hstep with ⟨d, rfl⟩ | ⟨r, rfl⟩ | ⟨i, o, h, db, h', calls, rfl, hget, hh, rfl⟩
  · exact hfollows
  · intro h hmem
    rcases List.mem_append.mp hmem with hmem | hmem
    · exact hfollows h hmem
    · rw [List.mem_singleton.mp hmem]
      exact followsUp_start r
  · intro h₁ hmem
    rcases List.mem_or_eq_of_mem_set hmem with hmem | rfl
    · exact hfollows h₁ hmem
    · exact followsUp_step (hfollows h (List.mem_of_getElem? hget)) hh

/-! ## Runs -/

/-- No incident has two pending drafts. -/
def OneDraft (s : Service) : Prop := ∀ k, draftCount k s.db.actions ≤ 1

/-- In no state of a run has an incident two pending drafts. -/
def OneDraftAlong (events : List Event) : Prop :=
  ∀ pre post, events = pre ++ post → ∀ s, reach step {} pre = some s → s.OneDraft

/-- An event inserts a draft only for an incident without a pending one. -/
def InsertsFresh (pre : List Event) (e : Event) : Prop :=
  ∀ s k, reach step {} pre = some s → s.inserts e = some k → draftCount k s.db.actions = 0

/-- One draft at most in every state, state by state. -/
theorem oneDraftAlong_concat {events : List Event} :
    OneDraftAlong (events ++ [e]) ↔
      OneDraftAlong events ∧ ∀ s, reach step {} (events ++ [e]) = some s → s.OneDraft := by
  constructor
  · intro h
    refine ⟨fun pre post heq => h pre (post ++ [e]) ?_, h _ [] (List.append_nil _).symm⟩
    rw [heq, List.append_assoc]
  · rintro ⟨hevents, hlast⟩ pre post heq
    rcases List.eq_nil_or_concat post with rfl | ⟨post', e', rfl⟩
    · rw [← List.append_nil pre, ← heq]
      exact hlast
    · rw [List.concat_eq_append, ← List.append_assoc] at heq
      exact hevents pre post' (List.append_inj' heq rfl).1

/-- **One draft at most in every state** exactly when drafts are inserted only where there is
none. -/
theorem oneDraftAlong_iff (events : List Event) :
    OneDraftAlong events ↔ Along InsertsFresh events := by
  refine along_iff (G := OneDraftAlong) ?_ (fun _ _ h => (oneDraftAlong_concat.mp h).1) ?_ events
  · intro pre post heq s hreach k
    obtain ⟨rfl, -⟩ := List.append_eq_nil_iff.mp heq.symm
    obtain rfl := Option.some.inj hreach
    exact Nat.zero_le _
  intro events e honce _
  rw [oneDraftAlong_concat, and_iff_right honce]
  constructor
  · -- the new draft is the only one, so there was none before
    intro h s k hreach hinserts
    obtain ⟨s', hstep, -⟩ := step_of_inserts hinserts
    have hnew := h s' (reach_concat_eq_some.mpr ⟨s, hreach, hstep⟩) k
    rw [draftCount_of_inserts hinserts hstep, if_pos rfl] at hnew
    omega
  · intro hfresh s' hreach k
    obtain ⟨s, hs, hstep⟩ := reach_concat_eq_some.mp hreach
    have hold := honce events [] (List.append_nil _).symm s hs k
    by_cases hinserts : s.inserts e = some k
    · have hcount := draftCount_of_inserts hinserts hstep k
      rw [if_pos rfl, hfresh s k hs hinserts] at hcount
      exact Nat.le_of_eq hcount
    · exact Nat.le_trans (draftCount_le_of_not_inserts (followsUp_of_reach hs) hinserts hstep) hold

/-! ## The check of the subscriber -/

/-- Handler `i` is a delivery that has found no pending action of an incident. -/
def FoundNone (s : Service) (i k : ℕ) : Prop :=
  ∃ alert inc, s.handlers[i]? = some (.deliver alert (.create inc)) ∧ inc.id = k

/-- What the two paths rely on at a step of handler `i`: the listing of the
subscriber succeeds and is whole, a status is not changed while a draft is pending,
and no draft is inserted between a listing and the insert that follows it. -/
structure Checked (s : Service) (i : ℕ) (o : Outcome) : Prop where
  listed : ∀ alert inc, s.handlers[i]? = some (.deliver alert (.list inc)) →
    o.fault = .none ∧ s.db.actions.countP (fun a => a.status = .pending) ≤ 200
  patched : ∀ id body user role upd,
    s.handlers[i]? = some (.patchStatus id body user role (.create upd)) →
      draftCount upd.id s.db.actions = 0
  alone : ∀ k j, s.inserts (.advance i o) = some k → s.FoundNone j k → j = i

/-- Every delivery that has found no pending action is right. -/
def FoundRight (s : Service) : Prop := ∀ i k, s.FoundNone i k → draftCount k s.db.actions = 0

end Service

/-- A delivery goes on to insert a draft only after its listing. -/
theorem Deliver.list_of_create {db db' : Db} {now : Time} {o : Outcome} {alert : IncomingAlert}
    {pc : Deliver} {inc : Incident} {calls : List Call}
    (hstep : pc.step db now o alert = some (db', .create inc, calls)) :
    pc = .list inc ∧ db' = db ∧ (o.fault = .none → db.NewestFirst .pending o.listing ∧
      ∀ a ∈ Db.listActions o.listing 200, a.incidentId ≠ inc.id) := by
  have hauto : ∀ inc', autoAction inc' ≠ .create inc := by
    intro inc'
    unfold autoAction
    split_ifs <;> exact fun heq => nomatch heq
  -- all other states of a delivery go on to one of `autoAction`, or stop
  cases pc with
  | upsert =>
    unfold Deliver.step at hstep
    dsimp only at hstep
    cases hupsert : db.upsertIncident alert now with
    | none =>
      rw [hupsert] at hstep
      cases hstep
    | some result =>
      obtain ⟨dbUp, incUp, created⟩ := result
      rw [hupsert] at hstep
      obtain ⟨-, hpc, -⟩ := some_triple_inj hstep
      unfold exec at hpc
      cases hfault : o.fault <;> rw [hfault] at hpc
      · cases created with
        | true => cases hpc
        | false => exact absurd hpc (hauto incUp)
      · cases hpc
      · cases hpc
  | record inc' => cases hstep
  | pod inc' =>
    unfold Deliver.step at hstep
    dsimp only at hstep
    cases hpod : o.pod with
    | none =>
      rw [hpod] at hstep
      exact absurd (some_triple_inj hstep).2.1 (hauto inc')
    | some name =>
      rw [hpod] at hstep
      obtain ⟨-, hpc, -⟩ := some_triple_inj hstep
      unfold exec at hpc
      cases hfault : o.fault <;> rw [hfault] at hpc <;> exact absurd hpc (hauto inc')
  | list inc' =>
    unfold Deliver.step at hstep
    dsimp only at hstep
    split_ifs at hstep with hfault hlisting hany
    · cases hstep
    · obtain ⟨rfl, hpc, -⟩ := some_triple_inj hstep
      obtain rfl := Deliver.create.inj hpc
      refine ⟨rfl, rfl, fun _ => ⟨hlisting, fun a ha hid => hany ?_⟩⟩
      exact List.any_eq_true.mpr ⟨a, ha, decide_eq_true hid⟩
    · obtain ⟨rfl, hpc, -⟩ := some_triple_inj hstep
      obtain rfl := Deliver.create.inj hpc
      exact ⟨rfl, rfl, fun hnone => absurd hnone hfault⟩
  | create inc' =>
    obtain ⟨-, hpc, -⟩ := some_triple_inj hstep
    cases hfault : o.fault <;> rw [hfault] at hpc <;> cases hpc
  | recordAction act => cases hstep
  | done => cases hstep

/-- A listing that is not cut off shows every pending action. -/
theorem draftCount_eq_zero_of_listing {db : Db} {rows : List Action} {k : ℕ}
    (hrows : db.NewestFirst .pending rows)
    (hsize : db.actions.countP (fun a => a.status = .pending) ≤ 200)
    (hnone : ∀ a ∈ Db.listActions rows 200, a.incidentId ≠ k) : draftCount k db.actions = 0 := by
  have hlength : rows.length ≤ Db.listLimit 200 := by
    rw [hrows.1.length_eq, ← List.countP_eq_length_filter]
    exact hsize
  unfold Db.listActions at hnone
  rw [List.take_of_length_le hlength] at hnone
  refine List.countP_eq_zero.mpr fun a ha hdraft => ?_
  obtain ⟨hincident, -, hpending⟩ := of_decide_eq_true hdraft
  refine hnone a (hrows.1.mem_iff.mpr (List.mem_filter.mpr ⟨ha, ?_⟩)) hincident
  exact decide_eq_true hpending

namespace Service

variable {s s' : Service} {e : Event}

/-- A step keeps what the deliveries have found true. -/
theorem foundRight_advanced {i : ℕ} {o : Outcome} {h h' : Handler} {db : Db} {calls : List Call}
    (hfollows : ∀ h ∈ s.handlers, h.FollowsUp) (hfound : s.FoundRight) (hchecked : s.Checked i o)
    (hget : s.handlers[i]? = some h) (hh : h.step s.db s.now o = some (db, h', calls)) :
    (s.advanced i db h' calls).FoundRight := by
  have hstep : s.step (.advance i o) = some (s.advanced i db h' calls) := by
    unfold step
    dsimp only
    rw [hget, Option.bind_some, hh]
    rfl
  rintro j k ⟨alert, inc, hj, hinc⟩
  obtain ⟨hlt, -⟩ := List.getElem?_eq_some_iff.mp hget
  have hj' : (s.handlers.set i h')[j]? = some (.deliver alert (.create inc)) := hj
  by_cases hij : i = j
  · -- the handler has just looked
    subst hij
    rw [List.getElem?_set_self hlt] at hj'
    obtain rfl := Option.some.inj hj'
    cases h <;> obtain ⟨⟨db₁, pc₁, calls₁⟩, hpc, heq⟩ := Option.map_eq_some_iff.mp hh <;> cases heq
    obtain ⟨rfl, rfl, hlisting⟩ := Deliver.list_of_create hpc
    obtain ⟨hfault, hsize⟩ := hchecked.listed _ _ hget
    obtain ⟨hrows, hnone⟩ := hlisting hfault
    exact draftCount_eq_zero_of_listing hrows hsize (hinc ▸ hnone)
  · -- another handler has made the step, and has inserted no draft of the incident
    rw [List.getElem?_set_ne hij] at hj'
    have hfoundj : s.FoundNone j k := ⟨alert, inc, hj', hinc⟩
    have hinserts : s.inserts (.advance i o) ≠ some k := fun hinserts =>
      hij (hchecked.alone k j hinserts hfoundj).symm
    have hle := draftCount_le_of_not_inserts hfollows hinserts hstep
    rw [hfound j k hfoundj] at hle
    exact Nat.eq_zero_of_le_zero hle

/-- A delivery that arrives has not looked yet. -/
theorem foundNone_arrive {r : Request} {j k : ℕ}
    (h : FoundNone { s with handlers := s.handlers ++ [r.start] } j k) : s.FoundNone j k := by
  obtain ⟨alert, inc, hj, hinc⟩ := h
  refine ⟨alert, inc, ?_, hinc⟩
  rcases Nat.lt_trichotomy j s.handlers.length with hlt | rfl | hgt
  · rwa [List.getElem?_append_left hlt] at hj
  · rw [List.getElem?_concat_length] at hj
    cases r <;> cases hj
  · rw [List.getElem?_eq_none (by simp; omega)] at hj
    cases hj

/-- An event at which the two paths are right to rely on what they do. -/
def CheckedAt (pre : List Event) (e : Event) : Prop :=
  ∀ s i o, reach step {} pre = some s → e = .advance i o → s.Checked i o

/-- In a checked run what a delivery has found is still so. -/
theorem foundRight_of_reach {events : List Event} (hchecked : Along CheckedAt events)
    (hreach : reach step {} events = some s) : s.FoundRight := by
  induction events using List.reverseRecOn generalizing s with
  | nil =>
    obtain rfl := Option.some.inj hreach
    rintro i k ⟨alert, inc, hi, -⟩
    cases hi
  | append_singleton events e ih =>
    obtain ⟨hevents, he⟩ := along_concat.mp hchecked
    obtain ⟨s₁, hs₁, hstep⟩ := reach_concat_eq_some.mp hreach
    have hfound := ih hevents hs₁
    rcases step_cases hstep with ⟨d, rfl⟩ | ⟨r, rfl⟩ | ⟨i, o, h, db, h', calls, rfl, hget, hh, rfl⟩
    · exact hfound
    · exact fun j k hj => hfound j k (foundNone_arrive hj)
    · exact foundRight_advanced (followsUp_of_reach hs₁) hfound (he s₁ i o hs₁ rfl) hget hh

/-- A checked run inserts drafts only where there is none. -/
theorem insertsFresh_of_checked {events : List Event} (hchecked : Along CheckedAt events) :
    Along InsertsFresh events := by
  intro pre e post heq s k hreach hinserts
  subst heq
  have hfound := foundRight_of_reach (Along.of_append hchecked) hreach
  cases e with
  | tick d => cases hinserts
  | arrive r => cases hinserts
  | advance i o =>
    have hcheck := hchecked pre _ post rfl s i o hreach rfl
    unfold inserts at hinserts
    dsimp only at hinserts
    split_ifs at hinserts
    obtain ⟨h, hget, hdrafting⟩ := Option.bind_eq_some_iff.mp hinserts
    unfold Handler.drafting at hdrafting
    split at hdrafting
    · -- a status change, which does not look
      obtain rfl := Option.some.inj hdrafting
      exact hcheck.patched _ _ _ _ _ hget
    · -- a delivery, which has looked
      obtain rfl := Option.some.inj hdrafting
      exact hfound i _ ⟨_, _, hget, rfl⟩
    · cases hdrafting

/-- **Pending drafts.**  No incident ever has two exactly when no draft is inserted
for an incident that has one, and that is so when every check is good. -/
theorem oneDraft_iff (events : List Event) :
    (OneDraftAlong events ↔ Along InsertsFresh events) ∧
      (Along CheckedAt events → OneDraftAlong events) :=
  ⟨oneDraftAlong_iff events, fun h =>
    (oneDraftAlong_iff events).mpr (insertsFresh_of_checked h)⟩

/-- A delivery inserts a draft, and the analyst who acknowledges the incident gets
another one. -/
theorem not_oneDraft :
    let alert : IncomingAlert := ⟨"scan", "10.0.0.1", 100, "high", "n1", ["t"], "", none⟩
    let events : List Event :=
      [.arrive (.deliver alert), .advance 0 {}, .advance 0 {}, .advance 0 {}, .advance 0 {},
        .advance 0 {}, .arrive (.patchStatus 1 ⟨"ack", none⟩ "ana" "analyst"), .advance 1 {},
        .advance 1 {}, .advance 1 {}, .advance 1 {}, .advance 1 {}]
    (reach step {} events).map (fun s => draftCount 1 s.db.actions) = some 2 ∧
      ¬ OneDraftAlong events := by
  intro alert events
  have hrun : (reach step {} events).map (fun s => draftCount 1 s.db.actions) = some 2 := by decide
  refine ⟨hrun, fun h => ?_⟩
  obtain ⟨s, hs, hcount⟩ := Option.map_eq_some_iff.mp hrun
  have hone := h events [] (List.append_nil _).symm s hs 1
  omega

end Service

end IncidentService
