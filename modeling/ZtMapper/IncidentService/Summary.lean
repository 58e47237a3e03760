/-
# `SummariseRange`

The aggregates of the weekly report, from the replies of the database to six
statements.  Three of them return a result set, which is read row by row: the
reading ends when `Next` says so, after the last row or when it breaks off, and
`SummariseRange` does not ask `Err` which it was.  `reported_iff` says when a break
is reported all the same.
-/
import ZtMapper.IncidentService.Tables
import ZtMapper.Lib.Fallible
import ZtMapper.Lib.Unordered

open Fallible Unordered

namespace IncidentService

/-! ## The summary -/

structure AttackerCount where
  sourceIp : String
  count : Int64
  deriving DecidableEq, Repr

/-- The aggregates of a range; `F` is the type of the median. -/
structure SummaryRange (F : Type) where
  from_ : Time
  to_ : Time
  totalIncidents : Int64
  bySeverity : Map String Int64
  topAttackers : List AttackerCount
  actionsBreakdown : Map String Int64
  mttrMedianSeconds : F
  auditEventsCount : Int64

/-- An error of the database, as it is or with what was asked for before it. -/
inductive StoreError (ε : Type) where
  | plain (err : ε)
  | wrap (text : String) (err : ε)
  deriving DecidableEq, Repr

/-- What the database replies to the six statements. -/
structure Replies (ε F : Type) where
  total : Except ε Int64
  severities : Except ε (Rows ε (String × Int64))
  attackers : Except ε (Rows ε (String × Int64))
  actions : Except ε (Rows ε (String × Int64))
  mttr : Except ε F
  auditEvents : Except ε Int64

section

variable {ε F : Type}

def putCount (m : Map String Int64) (row : String × Int64) : Map String Int64 := m.insert row.1 row.2

def addAttacker (l : List AttackerCount) (row : String × Int64) : List AttackerCount :=
  l ++ [⟨row.1, row.2⟩]

def summariseRange (db : Replies ε F) (from_ to_ : Time) :
    Except (StoreError ε) (SummaryRange F) := do
  let total ← db.total.mapError (.wrap "total incidents: ")
  let rows ← db.severities.mapError (.wrap "severity breakdown: ")
  let bySeverity ← (rows.scan putCount ∅).mapError .plain
  let rows ← db.attackers.mapError (.wrap "top attackers: ")
  let topAttackers ← (rows.scan addAttacker []).mapError .plain
  let rows ← db.actions.mapError (.wrap "actions breakdown: ")
  let actionsBreakdown ← (rows.scan putCount ∅).mapError .plain
  let mttr ← db.mttr.mapError (.wrap "mttr: ")
  let auditEvents ← db.auditEvents.mapError (.wrap "audit count: ")
  return ⟨from_, to_, total, bySeverity, topAttackers, actionsBreakdown, mttr, auditEvents⟩

/-- The result sets of the grouped statements. -/
def Replies.grouped (db : Replies ε F) : List (Except ε (Rows ε (String × Int64))) :=
  [db.severities, db.attackers, db.actions]

/-- The iteration over a grouped result set fails. -/
def Replies.Interrupted (db : Replies ε F) : Prop := ∃ r, Except.ok r ∈ db.grouped ∧ r.Interrupted

/-- A statement is refused, or a row that is delivered cannot be scanned. -/
def Replies.Refused (db : Replies ε F) : Prop :=
  (∃ e, db.total = .error e) ∨ (∃ e, Except.error e ∈ db.grouped) ∨
    (∃ r, Except.ok r ∈ db.grouped ∧ r.Unscannable) ∨ (∃ e, db.mttr = .error e) ∨
    ∃ e, db.auditEvents = .error e

/-- The aggregates are made of all rows of their statements. -/
structure Replies.Complete (db : Replies ε F) (out : SummaryRange F) : Prop where
  bySeverity : ∀ r, db.severities = .ok r → r.Complete putCount ∅ out.bySeverity
  topAttackers : ∀ r, db.attackers = .ok r → r.Complete addAttacker [] out.topAttackers
  actionsBreakdown : ∀ r, db.actions = .ok r → r.Complete putCount ∅ out.actionsBreakdown

/-- A break of an iteration is reported, and what is returned is complete. -/
def Reported (db : Replies ε F) (from_ to_ : Time) : Prop :=
  (db.Interrupted → ∃ e, summariseRange db from_ to_ = .error e) ∧
    ∀ out, summariseRange db from_ to_ = .ok out → db.Complete out

/-- **What a summary is made of**, statement by statement. -/
theorem summariseRange_eq_ok_iff {db : Replies ε F} {from_ to_ : Time} {out : SummaryRange F} :
    summariseRange db from_ to_ = .ok out ↔
      out.from_ = from_ ∧ out.to_ = to_ ∧ db.total = .ok out.totalIncidents ∧
      (∃ r, db.severities = .ok r ∧ r.scan putCount ∅ = .ok out.bySeverity) ∧
      (∃ r, db.attackers = .ok r ∧ r.scan addAttacker [] = .ok out.topAttackers) ∧
      (∃ r, db.actions = .ok r ∧ r.scan putCount ∅ = .ok out.actionsBreakdown) ∧
      db.mttr = .ok out.mttrMedianSeconds ∧ db.auditEvents = .ok out.auditEventsCount := by
  unfold summariseRange
  simp only [bind_eq_ok_iff, mapError_eq_ok_iff]
  constructor
  · rintro ⟨total, htotal, rs, hrs, sev, hsev, ra, hra, att, hatt, rc, hrc, act, hact, m, hm, n, hn,
      hout⟩
    obtain rfl := Except.ok.inj hout
    exact ⟨rfl, rfl, htotal, ⟨rs, hrs, hsev⟩, ⟨ra, hra, hatt⟩, ⟨rc, hrc, hact⟩, hm, hn⟩
  · rintro ⟨rfl, rfl, htotal, ⟨rs, hrs, hsev⟩, ⟨ra, hra, hatt⟩, ⟨rc, hrc, hact⟩, hm, hn⟩
    exact ⟨_, htotal, rs, hrs, _, hsev, ra, hra, _, hatt, rc, hrc, _, hact, _, hm, _, hn, rfl⟩

/-- A summary is returned unless something is refused. -/
theorem exists_summariseRange_iff (db : Replies ε F) (from_ to_ : Time) :
    (∃ out, summariseRange db from_ to_ = .ok out) ↔ ¬ db.Refused := by
  have hok : ∀ {α : Type} {x : Except ε α}, (¬ ∃ e, x = .error e) → ∃ a, x = .ok a := by
    intro α x h
    cases x with
    | error e => exact absurd ⟨e, rfl⟩ h
    | ok a => exact ⟨a, rfl⟩
  constructor
  · rintro ⟨out, hout⟩
    obtain ⟨-, -, htotal, ⟨rs, hrs, hsev⟩, ⟨ra, hra, hatt⟩, ⟨rc, hrc, hact⟩, hm, hn⟩ :=
      summariseRange_eq_ok_iff.mp hout
    have hgrouped : db.grouped = [.ok rs, .ok ra, .ok rc] := by
      rw [Replies.grouped, hrs, hra, hrc]
    rintro (⟨e, he⟩ | ⟨e, he⟩ | ⟨r, hr, hunscannable⟩ | ⟨e, he⟩ | ⟨e, he⟩)
    · rw [htotal] at he
      cases he
    · rw [hgrouped] at he
      simp at he
    · rw [hgrouped] at hr
      simp only [List.mem_cons, Except.ok.injEq, List.not_mem_nil, or_false] at hr
      rcases hr with rfl | rfl | rfl
      · exact Rows.exists_scan_eq_ok_iff.mp ⟨_, hsev⟩ hunscannable
      · exact Rows.exists_scan_eq_ok_iff.mp ⟨_, hatt⟩ hunscannable
      · exact Rows.exists_scan_eq_ok_iff.mp ⟨_, hact⟩ hunscannable
    · rw [hm] at he
      cases he
    · rw [hn] at he
      cases he
  · intro h
    simp only [Replies.Refused, not_or] at h
    obtain ⟨htotal, hgrouped, hscan, hmttr, haudit⟩ := h
    -- without a refusal every query has rows, and all of them can be scanned
    have hrows : ∀ x ∈ db.grouped, ∃ r, x = .ok r ∧ ¬ r.Unscannable := by
      intro x hx
      obtain ⟨r, rfl⟩ := hok fun ⟨e, he⟩ => hgrouped ⟨e, he ▸ hx⟩
      exact ⟨r, rfl, fun hunscannable => hscan ⟨r, hx, hunscannable⟩⟩
    obtain ⟨total, htotal⟩ := hok htotal
    obtain ⟨rs, hrs, hsev⟩ := hrows db.severities (by simp [Replies.grouped])
    obtain ⟨ra, hra, hatt⟩ := hrows db.attackers (by simp [Replies.grouped])
    obtain ⟨rc, hrc, hact⟩ := hrows db.actions (by simp [Replies.grouped])
    obtain ⟨m, hm⟩ := hok hmttr
    obtain ⟨n, hn⟩ := hok haudit
    obtain ⟨sev, hsev⟩ := Rows.exists_scan_eq_ok_iff.mpr hsev
    obtain ⟨att, hatt⟩ := Rows.exists_scan_eq_ok_iff.mpr hatt
    obtain ⟨act, hact⟩ := Rows.exists_scan_eq_ok_iff.mpr hact
    exact ⟨⟨from_, to_, total, sev, att, act, m, n⟩, summariseRange_eq_ok_iff.mpr
      ⟨rfl, rfl, htotal, ⟨rs, hrs, hsev⟩, ⟨ra, hra, hatt⟩, ⟨rc, hrc, hact⟩, hm, hn⟩⟩

/-- Without a break the summary is made of all rows. -/
theorem complete_of_not_interrupted {db : Replies ε F} {from_ to_ : Time} {out : SummaryRange F}
    (h : ¬ db.Interrupted) (hout : summariseRange db from_ to_ = .ok out) : db.Complete out := by
  have hrows : ∀ r, Except.ok r ∈ db.grouped → ¬ r.Interrupted := fun r hr hint => h ⟨r, hr, hint⟩
  obtain ⟨-, -, -, ⟨rs, hrs, hsev⟩, ⟨ra, hra, hatt⟩, ⟨rc, hrc, hact⟩, -⟩ :=
    summariseRange_eq_ok_iff.mp hout
  refine ⟨fun r hr => ?_, fun r hr => ?_, fun r hr => ?_⟩
  · obtain rfl := Except.ok.inj (hrs.symm.trans hr)
    exact Rows.complete_of_scan (hrows _ (by simp [Replies.grouped, hrs])) hsev
  · obtain rfl := Except.ok.inj (hra.symm.trans hr)
    exact Rows.complete_of_scan (hrows _ (by simp [Replies.grouped, hra])) hatt
  · obtain rfl := Except.ok.inj (hrc.symm.trans hr)
    exact Rows.complete_of_scan (hrows _ (by simp [Replies.grouped, hrc])) hact

/-- **When a break is reported.**  An iteration that fails makes the summary an error,
and a summary that is returned is complete, if and only if no iteration fails or
something else is refused. -/
theorem reported_iff (db : Replies ε F) (from_ to_ : Time) :
    Reported db from_ to_ ↔ ¬ db.Interrupted ∨ db.Refused := by
  have herror : (∃ e, summariseRange db from_ to_ = .error e) ↔ db.Refused := by
    rw [← not_iff_not, ← exists_summariseRange_iff db from_ to_]
    cases summariseRange db from_ to_ with
    | error e => exact iff_of_false (not_not.mpr ⟨e, rfl⟩) fun ⟨_, h⟩ => by cases h
    | ok out => exact iff_of_true (fun ⟨_, h⟩ => by cases h) ⟨out, rfl⟩
  unfold Reported
  rw [herror]
  constructor
  · exact fun h => not_or_of_imp h.1
  · intro h
    refine ⟨fun hint => h.resolve_left (not_not.mpr hint), fun out hout => ?_⟩
    have hnot : ¬ db.Refused := (exists_summariseRange_iff db from_ to_).mp ⟨out, hout⟩
    exact complete_of_not_interrupted (h.resolve_right hnot) hout

end

/-- The iteration over the severities breaks off after the first of two rows. -/
theorem not_reported_severities :
    ¬ Reported (ε := String) (F := Unit)
      ⟨.ok 6, .ok ⟨[.ok ("high", 1)], some [.ok ("low", 5)]⟩, .ok ⟨[], none⟩, .ok ⟨[], none⟩,
        .ok (), .ok 0⟩ 0 7 := by
  intro h
  obtain ⟨e, he⟩ := h.1 ⟨_, List.mem_cons_self, rfl⟩
  cases he

/-! ## What the grouped statements ask for -/

/-- `created_at >= $1 AND created_at < $2` -/
def createdWithin (from_ to_ created : Time) : Bool := decide (from_ ≤ created ∧ created < to_)

def ActionType.text : ActionType → String
  | .quarantinePod => "quarantine_pod"
  | .deletePod => "delete_pod"
  | .shutdownPod => "shutdown_pod"

/-- `SELECT key, COUNT(*) … GROUP BY key` -/
def groupCount {ρ : Type} (key : ρ → String) (l : List ρ) : Map String Int64 :=
  insertAll (fun r => some (key r, Int64.ofNat (l.countP fun r' => key r' = key r))) l

/-- A group has its number of rows. -/
theorem lookup_groupCount {ρ : Type} {key : ρ → String} {l : List ρ} {k : String} {n : Int64} :
    (groupCount key l).lookup k = some n ↔
      (∃ r ∈ l, key r = k) ∧ n = Int64.ofNat (l.countP fun r => key r = k) := by
  have hentry : ∀ {n}, (groupCount key l).lookup k = some n →
      (∃ r ∈ l, key r = k) ∧ n = Int64.ofNat (l.countP fun r => key r = k) := by
    intro n h
    obtain ⟨pre, r, post, heq, hr, -⟩ := lookup_insertAll.mp h
    obtain ⟨rfl, rfl⟩ := Prod.mk.inj (Option.some.inj hr)
    exact ⟨⟨r, heq ▸ List.mem_append_right _ List.mem_cons_self, rfl⟩, rfl⟩
  refine ⟨hentry, ?_⟩
  rintro ⟨⟨r, hr, rfl⟩, rfl⟩
  have hmem : key r ∈ groupCount key l := mem_insertAll.mpr ⟨r, hr, _, rfl⟩
  obtain ⟨n, hn⟩ := Option.isSome_iff_exists.mp (Finmap.lookup_isSome.mpr hmem)
  rw [hn, (hentry hn).2]

/-- `ORDER BY c DESC LIMIT n`, in any order of equal counts. -/
def IsTop (n : ℕ) (rows : List (String × Int64)) (m : Map String Int64) : Prop :=
  ∃ all, Lists all m ∧ all.Pairwise (fun a b => b.2 ≤ a.2) ∧ rows = all.take n

section

variable {ε F : Type}

/-- The result sets are those of the tables. -/
structure Answers (db : Db) (from_ to_ : Time) (r : Replies ε F) : Prop where
  severities : ∀ rs, r.severities = .ok rs → ∀ vals : List (String × Int64),
    rs.all = vals.map Except.ok →
      Lists vals (groupCount (·.severity) (db.incidents.filter (createdWithin from_ to_ ·.createdAt)))
  attackers : ∀ rs, r.attackers = .ok rs → ∀ vals : List (String × Int64),
    rs.all = vals.map Except.ok →
      IsTop 10 vals
        (groupCount (·.sourceIp) (db.incidents.filter (createdWithin from_ to_ ·.createdAt)))
  actions : ∀ rs, r.actions = .ok rs → ∀ vals : List (String × Int64),
    rs.all = vals.map Except.ok →
      Lists vals (groupCount (·.type.text) (db.actions.filter (createdWithin from_ to_ ·.createdAt)))

theorem foldl_addAttacker (l : List AttackerCount) (vals : List (String × Int64)) :
    vals.foldl addAttacker l = l ++ vals.map fun row => ⟨row.1, row.2⟩ := by
  induction vals generalizing l with
  | nil => exact (List.append_nil l).symm
  | cons row vals ih =>
    rw [List.foldl_cons, ih, addAttacker, List.append_assoc]
    rfl

/-- **A summary tells the tables**, when no iteration breaks off. -/
theorem summary_of_answers {db : Db} {from_ to_ : Time} {r : Replies ε F} {out : SummaryRange F}
    (h : Answers db from_ to_ r) (hnot : ¬ r.Interrupted) (hout : summariseRange r from_ to_ = .ok out) :
    out.bySeverity =
        groupCount (·.severity) (db.incidents.filter (createdWithin from_ to_ ·.createdAt)) ∧
      IsTop 10 (out.topAttackers.map fun a => (a.sourceIp, a.count))
        (groupCount (·.sourceIp) (db.incidents.filter (createdWithin from_ to_ ·.createdAt))) ∧
      out.actionsBreakdown =
        groupCount (·.type.text) (db.actions.filter (createdWithin from_ to_ ·.createdAt)) := by
  have hcomplete := complete_of_not_interrupted hnot hout
  obtain ⟨-, -, -, ⟨rs, hrs, -⟩, ⟨ra, hra, -⟩, ⟨rc, hrc, -⟩, -⟩ := summariseRange_eq_ok_iff.mp hout
  obtain ⟨sev, hsev, hbySeverity⟩ := hcomplete.bySeverity rs hrs
  obtain ⟨att, hatt, htop⟩ := hcomplete.topAttackers ra hra
  obtain ⟨act, hact, hactions⟩ := hcomplete.actionsBreakdown rc hrc
  refine ⟨?_, ?_, ?_⟩
  · rw [hbySeverity]
    exact insertAll_of_lists (h.severities rs hrs sev hsev)
  · rw [htop, foldl_addAttacker, List.nil_append, List.map_map]
    have hid : att.map ((fun a : AttackerCount => (a.sourceIp, a.count)) ∘
        fun row => ⟨row.1, row.2⟩) = att := List.map_id att
    rw [hid]
    exact h.attackers ra hra att hatt
  · rw [hactions]
    exact insertAll_of_lists (h.actions rc hrc act hact)

end

end IncidentService
