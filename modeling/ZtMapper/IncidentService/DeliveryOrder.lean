/-
# The order of deliveries

The alerts of one incident may be delivered in any order.  The row tells the same
summary of them in every order, but it keeps the first time of the alert that comes
first.
-/
import ZtMapper.IncidentService.History

open Table Merge

namespace IncidentService

/-- An alert, and the time at which it is upserted. -/
abbrev Delivery := IncomingAlert × Time

/-- The alerts of some deliveries. -/
def alerts (l : List Delivery) : List IncomingAlert := l.map (·.1)

/-- The table after some deliveries. -/
def delivered (l : List Delivery) : History :=
  history (l.map fun d => { write := .upsertIncident d.1, now := d.2 })

/-- Every upsert has succeeded. -/
def AllSucceed (l : List Delivery) : Prop := (delivered l).upserts.length = l.length

/-- The alerts of a key, each with nodes and tags. -/
def OneIncident (key : String) (l : List Delivery) : Prop :=
  ∀ d ∈ l, d.1.key = key ∧ d.1.nodes ≠ [] ∧ d.1.tags ≠ []

/-- Every alert can be inserted, and there is room to count them all. -/
def Countable (l : List Delivery) : Prop :=
  (∀ d ∈ l, (d.1.type ≠ "" ∧ d.1.source ≠ "") ∧ FitsInt4 d.1.occCount) ∧
    ∀ d ∈ l.head?, d.1.occCount.toInt + l.length ≤ Int32.maxValue.toInt + 1

/-- The alert that is delivered first is not later than the others. -/
def EarliestFirst (l : List Delivery) : Prop :=
  ∀ d ∈ l.head?, ∀ b ∈ l, d.1.firstSeen ≤ b.1.firstSeen

/-- Two rows that tell the same, save for the first time. -/
structure SameSummary (row row' : Incident) : Prop where
  severity : severityRank row.severity = severityRank row'.severity
  nodes : ∀ n, n ∈ row.nodesObserved ↔ n ∈ row'.nodesObserved
  tags : ∀ t, t ∈ row.tags ↔ t ∈ row'.tags
  cross : row.crossNode = row'.crossNode
  lastSeen : row.lastSeenNs = row'.lastSeenNs

/-- The first time of a row is the smallest of some alerts. -/
def TellsFirst (row : Incident) (as : List IncomingAlert) : Prop :=
  (∃ a ∈ as, a.firstSeen = row.firstSeenNs) ∧ ∀ a ∈ as, row.firstSeenNs ≤ a.firstSeen

/-! ## One more delivery -/

section Deliveries

variable {l l' : List Delivery} {d : Delivery} {key : String} {row : Incident}

/-- Deliveries are handled one at a time. -/
theorem delivered_concat (l : List Delivery) (d : Delivery) :
    delivered (l ++ [d]) = ((delivered l).db.upsertIncident d.1 d.2).elim (delivered l) fun r =>
      ⟨r.1, (delivered l).upserts ++ [(d.1, r.2.2)]⟩ := by
  unfold delivered
  rw [List.map_append, List.map_singleton, history_concat]
  rfl

/-- A delivery makes one upsert at most. -/
theorem length_upserts_le (l : List Delivery) : (delivered l).upserts.length ≤ l.length := by
  induction l using List.reverseRecOn with
  | nil => exact Nat.le_refl 0
  | append_singleton l d ih =>
    rw [delivered_concat, List.length_append, List.length_singleton]
    cases (delivered l).db.upsertIncident d.1 d.2 with
    | none => exact Nat.le_succ_of_le ih
    | some r =>
      have hlength : ((delivered l).upserts ++ [(d.1, r.2.2)]).length =
          (delivered l).upserts.length + 1 := List.length_append
      exact hlength.trans_le (Nat.succ_le_succ ih)

/-- All succeed when all before the last one do, and the last one does. -/
theorem allSucceed_concat : AllSucceed (l ++ [d]) ↔
    AllSucceed l ∧ ((delivered l).db.upsertIncident d.1 d.2).isSome = true := by
  unfold AllSucceed
  rw [delivered_concat, List.length_append, List.length_singleton]
  have hle := length_upserts_le l
  cases (delivered l).db.upsertIncident d.1 d.2 with
  | none =>
    refine iff_of_false (fun h => ?_) fun h => Bool.false_ne_true h.2
    have hlength : (delivered l).upserts.length = l.length + 1 := h
    omega
  | some r =>
    rw [and_iff_left (show (some r).isSome = true from rfl)]
    have hlength : ((delivered l).upserts ++ [(d.1, r.2.2)]).length =
        (delivered l).upserts.length + 1 := List.length_append
    show ((delivered l).upserts ++ [(d.1, r.2.2)]).length = _ ↔ _
    omega

/-- What some deliveries of an incident, all of which have succeeded, have made. -/
structure Yields (key : String) (l : List Delivery) (row : Incident) : Prop where
  rows : (delivered l).db.incidents = [row]
  key_eq : row.incidentKey = key
  summary : Summarises row (alerts l)
  first : ∀ d ∈ l.head?, row.firstSeenNs = d.1.firstSeen
  count : ∀ d ∈ l.head?, row.occurrenceCount.toInt + 1 = d.1.occCount.toInt + l.length

/-- A count that fits is stored as it is. -/
theorem toInt_of_toInt4 {n : Int64} {m : Int32} (h : toInt4 n = some m) : m.toInt = n.toInt := by
  unfold toInt4 at h
  split_ifs at h with hfits
  have hmin : Int32.minValue.toInt = -2147483648 := rfl
  have hmax : Int32.maxValue.toInt = 2147483647 := rfl
  rw [← Option.some.inj h, Int64.toInt_toInt32]
  show n.toInt.bmod 4294967296 = _
  rw [Int.bmod_eq_of_le] <;> omega

/-- A count that does not overflow grows by one. -/
theorem toInt_of_succInt4 {n m : Int32} (h : succInt4 n = some m) : m.toInt = n.toInt + 1 :=
  (toInt_of_toInt4 h).trans (toInt_succ n)

/-- Deliveries of one incident up to some point. -/
theorem OneIncident.of_append {rest : List Delivery} (h : OneIncident key (l ++ rest)) :
    OneIncident key l := fun d hd => h d (List.mem_append_left _ hd)

/-- The last delivery of one incident. -/
theorem OneIncident.last (h : OneIncident key (l ++ [d])) :
    d.1.key = key ∧ d.1.nodes ≠ [] ∧ d.1.tags ≠ [] :=
  h d (List.mem_append_right _ (List.mem_singleton_self d))

/-- The alerts delivered, in order. -/
theorem alerts_concat (l : List Delivery) (d : Delivery) :
    alerts (l ++ [d]) = alerts l ++ [d.1] := List.map_append

/-- The first delivery, and one more. -/
theorem yields_singleton {db : Db} {inserted : Bool} (hkey : d.1.key = key)
    (hupsert : (delivered []).db.upsertIncident d.1 d.2 = some (db, row, inserted)) :
    Yields key [d] row := by
  have hrows : (delivered [d]).db = db := by
    rw [show [d] = [] ++ [d] from rfl, delivered_concat, hupsert]
    rfl
  rcases upsertIncident_cases hupsert with ⟨-, hinc, ⟨count, hcount, rfl⟩, -⟩ | ⟨r, hr, -⟩
  · refine ⟨by rw [hrows, hinc]; rfl, hkey, summarises_inserted _ _ _ _, fun b hb => ?_,
      fun b hb => ?_⟩
    · rw [← Option.some.inj hb]
      rfl
    · rw [← Option.some.inj hb, ← toInt_of_toInt4 hcount]
      rfl
  · exact absurd hr List.not_mem_nil

/-- One more delivery yields the row that its upsert returns. -/
theorem Yields.concat {db : Db} {row' : Incident} {inserted : Bool} (h : Yields key l row)
    (hne : l ≠ []) (hkey : d.1.key = key)
    (hupsert : (delivered l).db.upsertIncident d.1 d.2 = some (db, row', inserted)) :
    Yields key (l ++ [d]) row' := by
  have hrows : (delivered (l ++ [d])).db = db := by
    rw [delivered_concat, hupsert]
    rfl
  have hrow : row ∈ (delivered l).db.incidents := by
    rw [h.rows]
    exact List.mem_singleton_self row
  rcases upsertIncident_cases hupsert with ⟨hnone, -⟩ | ⟨r, hr, -, hupdate, hinc, -⟩
  · exact absurd (h.key_eq.trans hkey.symm) (hnone row hrow)
  · -- the only row is the one of the key, so it is the one that is updated
    rw [h.rows] at hr hinc
    rw [List.mem_singleton.mp hr] at hupdate
    have hp : decide (row.incidentKey = d.1.key) = true :=
      decide_eq_true (h.key_eq.trans hkey.symm)
    have hsummary := h.summary.update hupdate
    have htriage := sameTriage_updated hupdate
    refine ⟨?_, htriage.incidentKey.trans h.key_eq, by rw [alerts_concat]; exact hsummary,
      fun b hb => ?_, fun b hb => ?_⟩
    · rw [hrows, hinc, update, List.map_singleton, if_pos hp]
    · -- an update leaves `first_seen_ns` out
      rw [List.head?_append_of_ne_nil _ hne] at hb
      obtain ⟨nodes, count, tags, -, -, -, rfl⟩ := updatedIncident_eq hupdate
      exact h.first b hb
    · rw [List.head?_append_of_ne_nil _ hne] at hb
      obtain ⟨nodes, count, tags, -, hcount, -, rfl⟩ := updatedIncident_eq hupdate
      have hold := h.count b hb
      have hnew := toInt_of_succInt4 hcount
      rw [List.length_append, List.length_singleton]
      dsimp only
      omega

/-- When all succeed there is a row. -/
theorem yields_of_allSucceed (hone : OneIncident key l) (hne : l ≠ []) (hall : AllSucceed l) :
    ∃ row, Yields key l row := by
  induction l using List.reverseRecOn with
  | nil => exact absurd rfl hne
  | append_singleton l d ih =>
    obtain ⟨hbefore, hlast⟩ := allSucceed_concat.mp hall
    obtain ⟨⟨db, row', inserted⟩, hupsert⟩ := Option.isSome_iff_exists.mp hlast
    rcases List.eq_nil_or_concat l with rfl | ⟨l', d', hl⟩
    · exact ⟨row', yields_singleton hone.last.1 hupsert⟩
    · have hl : l ≠ [] := by
        rw [hl, List.concat_eq_append]
        exact List.concat_ne_nil d' l'
      obtain ⟨row, hrow⟩ := ih hone.of_append hl hbefore
      exact ⟨row', hrow.concat hl hone.last.1 hupsert⟩

/-- The next upsert succeeds when its alert can be inserted and the count has room. -/
theorem Yields.isSome_iff (h : Yields key l row) (hone : OneIncident key (l ++ [d]))
    {b : Delivery} (hb : b ∈ l.head?) :
    ((delivered l).db.upsertIncident d.1 d.2).isSome = true ↔
      ((d.1.type ≠ "" ∧ d.1.source ≠ "") ∧ FitsInt4 d.1.occCount) ∧
        b.1.occCount.toInt + (l ++ [d]).length ≤ Int32.maxValue.toInt + 1 := by
  obtain ⟨hkey, hnodes, htags⟩ := hone.last
  have hsound : (delivered l).Sound := sound_history _
  have hcount := h.count b hb
  rw [isSome_upsertIncident, hsound.find?_iff, h.rows, List.length_append, List.length_singleton]
  constructor
  · rintro ⟨haccepted, hfits, hall⟩
    have hroom := (hall row (List.mem_singleton_self row) (h.key_eq.trans hkey.symm)).count
    exact ⟨⟨haccepted, hfits⟩, by omega⟩
  · rintro ⟨⟨haccepted, hfits⟩, hroom⟩
    refine ⟨haccepted, hfits, fun r hr _ => ?_⟩
    rw [List.mem_singleton.mp hr]
    exact ⟨Or.inr hnodes, Or.inr htags, by omega⟩

/-- What one more delivery asks of the counts. -/
theorem countable_concat {b : Delivery} (hb : b ∈ l.head?) :
    Countable (l ++ [d]) ↔ Countable l ∧
      ((d.1.type ≠ "" ∧ d.1.source ≠ "") ∧ FitsInt4 d.1.occCount) ∧
        b.1.occCount.toInt + (l ++ [d]).length ≤ Int32.maxValue.toInt + 1 := by
  have hne : l ≠ [] := by
    rintro rfl
    exact absurd hb (Option.not_mem_none b)
  have hhead : (l ++ [d]).head? = some b := (List.head?_append_of_ne_nil _ hne).trans hb
  constructor
  · rintro ⟨haccepted, hroom⟩
    have hlast := hroom b hhead
    refine ⟨⟨fun c hc => haccepted c (List.mem_append_left _ hc), fun c hc => ?_⟩,
      haccepted d (List.mem_append_right _ (List.mem_singleton_self d)), hlast⟩
    -- fewer deliveries need less room
    rw [← Option.some.inj (hb.symm.trans hc)]
    rw [List.length_append, List.length_singleton] at hlast
    omega
  · rintro ⟨⟨haccepted, -⟩, hlast, hroom⟩
    refine ⟨fun c hc => ?_, fun c hc => ?_⟩
    · rcases List.mem_append.mp hc with hc | hc
      · exact haccepted c hc
      · rw [List.mem_singleton.mp hc]
        exact hlast
    · rw [← Option.some.inj (hhead.symm.trans hc)]
      exact hroom

/-- All upserts of an incident succeed when its alerts can be counted. -/
theorem allSucceed_iff (hone : OneIncident key l) : AllSucceed l ↔ Countable l := by
  induction l using List.reverseRecOn with
  | nil =>
    exact iff_of_true rfl ⟨fun d hd => absurd hd List.not_mem_nil,
      fun d hd => absurd hd (Option.not_mem_none d)⟩
  | append_singleton l d ih =>
    cases hhead : l.head? with
    | none =>
      -- the first delivery inserts: its own count is all that has to fit
      obtain rfl := List.head?_eq_none_iff.mp hhead
      have hnil : AllSucceed [] := rfl
      rw [allSucceed_concat, and_iff_right hnil, isSome_upsertIncident]
      constructor
      · rintro ⟨haccepted, hfits, -⟩
        refine ⟨fun c hc => ?_, fun c hc => ?_⟩
        · rw [List.mem_singleton.mp hc]
          exact ⟨haccepted, hfits⟩
        · rw [← Option.some.inj hc]
          exact Int.add_le_add_right hfits.2 1
      · intro hcountable
        obtain ⟨haccepted, hfits⟩ := hcountable.1 d (List.mem_singleton_self d)
        exact ⟨haccepted, hfits, fun r hr => absurd hr (Option.not_mem_none r)⟩
    | some b =>
      have hne : l ≠ [] := by
        rintro rfl
        cases hhead
      rw [allSucceed_concat, countable_concat hhead, ← ih hone.of_append]
      refine and_congr_right fun hbefore => ?_
      obtain ⟨row, hrow⟩ := yields_of_allSucceed hone.of_append hne hbefore
      exact hrow.isSome_iff hone hhead

end Deliveries

/-! ## Two orders -/

section Orders

variable {key : String} {l₁ l₂ : List Delivery} {r₁ r₂ : Incident}

/-- The summary does not depend on the order. -/
theorem Yields.sameSummary (h₁ : Yields key l₁ r₁) (h₂ : Yields key l₂ r₂)
    (hperm : (alerts l₁).Perm (alerts l₂)) : SameSummary r₁ r₂ where
  severity := h₁.summary.severity.unique h₂.summary.severity fun _ => hperm.mem_iff
  nodes := h₁.summary.nodes.congr h₂.summary.nodes fun _ => hperm.mem_iff
  tags := h₁.summary.tags.congr h₂.summary.tags fun _ => hperm.mem_iff
  cross := h₁.summary.cross.unique h₂.summary.cross fun _ => hperm.mem_iff
  lastSeen := Int64.toInt_inj.mp
    (h₁.summary.lastSeen.unique h₂.summary.lastSeen fun _ => hperm.mem_iff)

/-- The first time is the smallest when the alert that comes first has it. -/
theorem Yields.tellsFirst_iff (h : Yields key l₁ r₁) (hne : l₁ ≠ []) :
    TellsFirst r₁ (alerts l₁) ↔ EarliestFirst l₁ := by
  obtain ⟨d, l, rfl⟩ := List.exists_cons_of_ne_nil hne
  have hfirst : r₁.firstSeenNs = d.1.firstSeen := h.first d rfl
  constructor
  · rintro ⟨-, hall⟩ c hc b hb
    rw [← Option.some.inj hc, ← hfirst]
    exact hall b.1 (List.mem_map_of_mem hb)
  · intro hearliest
    refine ⟨⟨d.1, List.mem_map_of_mem List.mem_cons_self, hfirst.symm⟩, fun a ha => ?_⟩
    obtain ⟨b, hb, rfl⟩ := List.mem_map.mp ha
    rw [hfirst]
    exact hearliest d rfl b hb

/-- Both orders record all of the alerts, and record the same. -/
def OrdersAgree (l₁ l₂ : List Delivery) : Prop :=
  AllSucceed l₁ ∧ AllSucceed l₂ ∧ ∃ r₁ r₂, (delivered l₁).db.incidents = [r₁] ∧
    (delivered l₂).db.incidents = [r₂] ∧ SameSummary r₁ r₂ ∧ r₁.firstSeenNs = r₂.firstSeenNs ∧
    TellsFirst r₁ (alerts l₁)

/-- The first time told does not depend on the order of the alerts. -/
theorem TellsFirst.of_perm {r r' : Incident} {as as' : List IncomingAlert} (h : TellsFirst r as)
    (hperm : as.Perm as') (hfirst : r.firstSeenNs = r'.firstSeenNs) : TellsFirst r' as' := by
  obtain ⟨⟨a, ha, heq⟩, hall⟩ := h
  refine ⟨⟨a, hperm.mem_iff.mp ha, heq.trans hfirst⟩, fun b hb => ?_⟩
  rw [← hfirst]
  exact hall b (hperm.mem_iff.mpr hb)

/-- Neither does belonging to one incident. -/
theorem OneIncident.of_perm (h : OneIncident key l₁) (hperm : (alerts l₁).Perm (alerts l₂)) :
    OneIncident key l₂ := by
  intro d hd
  have hmem := hperm.mem_iff.mpr (List.mem_map_of_mem (f := Prod.fst) hd)
  obtain ⟨d', hd', heq⟩ := List.mem_map.mp hmem
  rw [← heq]
  exact h d' hd'

/-- Rows that tell the first time of the same alerts agree on it. -/
theorem tellsFirst_unique {r r' : Incident} {as as' : List IncomingAlert} (hperm : as.Perm as')
    (h : TellsFirst r as) (h' : TellsFirst r' as') : r.firstSeenNs = r'.firstSeenNs := by
  obtain ⟨⟨a, ha, hfirst⟩, hall⟩ := h
  obtain ⟨⟨a', ha', hfirst'⟩, hall'⟩ := h'
  refine Int64.le_antisymm ?_ ?_
  · rw [← hfirst']
    exact hall a' (hperm.mem_iff.mpr ha')
  · rw [← hfirst]
    exact hall' a (hperm.mem_iff.mp ha)

/-- **The order of deliveries.**  Two orders of the alerts of an incident make rows with
the same summary when all of them are recorded; the rows have the smallest first time
exactly when each order starts with an alert that has it. -/
theorem orders_agree_iff (hperm : (alerts l₁).Perm (alerts l₂)) (hne : l₁ ≠ [])
    (hone : OneIncident key l₁) :
    (Countable l₁ → Countable l₂ → ∃ r₁ r₂, (delivered l₁).db.incidents = [r₁] ∧
        (delivered l₂).db.incidents = [r₂] ∧ SameSummary r₁ r₂) ∧
      (OrdersAgree l₁ l₂ ↔
        (Countable l₁ ∧ Countable l₂) ∧ EarliestFirst l₁ ∧ EarliestFirst l₂) := by
  have hone₂ : OneIncident key l₂ := hone.of_perm hperm
  have hne₂ : l₂ ≠ [] := by
    rintro rfl
    exact hne (List.map_eq_nil_iff.mp (List.perm_nil.mp hperm))
  constructor
  · intro hcount₁ hcount₂
    obtain ⟨r₁, h₁⟩ := yields_of_allSucceed hone hne ((allSucceed_iff hone).mpr hcount₁)
    obtain ⟨r₂, h₂⟩ := yields_of_allSucceed hone₂ hne₂ ((allSucceed_iff hone₂).mpr hcount₂)
    exact ⟨r₁, r₂, h₁.rows, h₂.rows, h₁.sameSummary h₂ hperm⟩
  · constructor
    · rintro ⟨hall₁, hall₂, r₁, r₂, hrows₁, hrows₂, -, hfirst, htells⟩
      obtain ⟨r₁', h₁⟩ := yields_of_allSucceed hone hne hall₁
      obtain ⟨r₂', h₂⟩ := yields_of_allSucceed hone₂ hne₂ hall₂
      obtain rfl := List.singleton_inj.mp (h₁.rows.symm.trans hrows₁)
      obtain rfl := List.singleton_inj.mp (h₂.rows.symm.trans hrows₂)
      -- both rows have one first time, so the smallest of the one is that of the other
      have htells₂ : TellsFirst r₂' (alerts l₂) := htells.of_perm hperm hfirst
      exact ⟨⟨(allSucceed_iff hone).mp hall₁, (allSucceed_iff hone₂).mp hall₂⟩,
        (h₁.tellsFirst_iff hne).mp htells, (h₂.tellsFirst_iff hne₂).mp htells₂⟩
    · rintro ⟨⟨hcount₁, hcount₂⟩, hearliest₁, hearliest₂⟩
      have hall₁ := (allSucceed_iff hone).mpr hcount₁
      have hall₂ := (allSucceed_iff hone₂).mpr hcount₂
      obtain ⟨r₁, h₁⟩ := yields_of_allSucceed hone hne hall₁
      obtain ⟨r₂, h₂⟩ := yields_of_allSucceed hone₂ hne₂ hall₂
      have htells₁ := (h₁.tellsFirst_iff hne).mpr hearliest₁
      have htells₂ := (h₂.tellsFirst_iff hne₂).mpr hearliest₂
      exact ⟨hall₁, hall₂, r₁, r₂, h₁.rows, h₂.rows, h₁.sameSummary h₂ hperm,
        tellsFirst_unique hperm htells₁ htells₂, htells₁⟩

/-- Two alerts of two nodes, in both orders. -/
theorem orders_agree_iff_two :
    let a : IncomingAlert := ⟨"scan", "10.0.0.1", 100, "low", "n1", ["t"], "", none⟩
    let b : IncomingAlert := ⟨"scan", "10.0.0.1", 200, "high", "n2", ["u"], "", none⟩
    let l₁ : List Delivery := [(a, 1), (b, 2)]
    let l₂ : List Delivery := [(b, 1), (a, 2)]
    (Countable l₁ → Countable l₂ → ∃ r₁ r₂, (delivered l₁).db.incidents = [r₁] ∧
        (delivered l₂).db.incidents = [r₂] ∧ SameSummary r₁ r₂) ∧
      (OrdersAgree l₁ l₂ ↔
        (Countable l₁ ∧ Countable l₂) ∧ EarliestFirst l₁ ∧ EarliestFirst l₂) := by
  intro a b l₁ l₂
  have hone : OneIncident "scan|10.0.0.1" l₁ := by
    unfold OneIncident
    decide
  exact orders_agree_iff (List.Perm.swap b a []) (List.cons_ne_nil _ _) hone

/-- The later of two alerts is delivered first: the row keeps its time, and in the
other order it keeps the earlier one. -/
theorem not_orders_agree :
    let a : IncomingAlert := ⟨"scan", "10.0.0.1", 100, "low", "n1", ["t"], "", none⟩
    let b : IncomingAlert := ⟨"scan", "10.0.0.1", 200, "high", "n2", ["u"], "", none⟩
    let l₁ : List Delivery := [(b, 1), (a, 2)]
    let l₂ : List Delivery := [(a, 1), (b, 2)]
    (alerts l₁).Perm (alerts l₂) ∧ OneIncident "scan|10.0.0.1" l₁ ∧ ¬ OrdersAgree l₁ l₂ := by
  intro a b l₁ l₂
  refine ⟨List.Perm.swap a b [], by unfold OneIncident; decide, ?_⟩
  rintro ⟨-, -, r₁, r₂, hrows₁, hrows₂, -, hfirst, -⟩
  have hlater : (delivered l₁).db.incidents.map (·.firstSeenNs) = [200] := by decide
  have hearlier : (delivered l₂).db.incidents.map (·.firstSeenNs) = [100] := by decide
  rw [hrows₁] at hlater
  rw [hrows₂] at hearlier
  have h200 : r₁.firstSeenNs = 200 := List.singleton_inj.mp hlater
  have h100 : r₂.firstSeenNs = 100 := List.singleton_inj.mp hearlier
  rw [h200, h100] at hfirst
  exact absurd hfirst (by decide)

end Orders

end IncidentService
