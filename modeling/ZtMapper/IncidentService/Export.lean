/-
# The export of the audit log

`exportAudit` streams the rows of `StreamAuditRange` into a CSV file.  Two exports are the
same file exactly if their rows agree on everything that is exported (`exportCsv_eq_iff`),
and exports of adjacent periods hold together what one export of the whole period holds
(`streams_adjacent_iff`).
-/
import Mathlib.Data.List.Lex
import ZtMapper.Lib.Csv
import ZtMapper.Lib.Print
import ZtMapper.Rbac.Tokens
import ZtMapper.Response.Quarantine

open Response (decimal pad)

namespace IncidentService

/-! ## Rows -/

/-- A row of `audit_log`; the time in UTC, with its microseconds. -/
structure AuditRow where
  id : ℤ
  actor : List Char
  actorRole : Option (List Char)
  action : List Char
  targetType : List Char
  targetId : ℤ
  diff : Option (List Char)
  occurredAt : Response.Time
  micros : ℕ

/-- The time of a row, as PostgreSQL compares it. -/
def AuditRow.instant (r : AuditRow) : List ℕ :=
  [r.occurredAt.year, r.occurredAt.month, r.occurredAt.day, r.occurredAt.hour,
    r.occurredAt.minute, r.occurredAt.second, r.micros]

/-- A zero time is no bound, and an empty text no filter. -/
structure AuditFilter where
  from_ : Option (List ℕ) := none
  to_ : Option (List ℕ) := none
  actor : List Char := []
  action : List Char := []

/-- The condition of the `WHERE` clause. -/
def AuditFilter.selects (f : AuditFilter) (r : AuditRow) : Bool :=
  (f.from_.all fun t => t ≤ r.instant) && (f.to_.all fun t => r.instant < t) &&
    (f.actor = [] || r.actor = f.actor) && (f.action = [] || r.action = f.action)

/-- The rows that `StreamAuditRange` may pass on, in their order: rows of one time come in any
order. -/
structure Streams (table : List AuditRow) (f : AuditFilter) (rows : List AuditRow) : Prop where
  perm : rows.Perm (table.filter f.selects)
  sorted : rows.Pairwise fun r r' => r.instant ≤ r'.instant

/-! ## `csv.Writer` -/

/-- `fieldNeedsQuotes` -/
def fieldNeedsQuotes (field : List Char) : Bool :=
  if field = [] then false
  else if field = ['\\', '.'] then true
  else if field.any fun c => c = '\n' || c = '\r' || c = '"' || c = ',' then true
  else field.head?.any fun c => Rbac.spaceChars.contains c

def header : List (List Char) :=
  ["id".toList, "occurred_at".toList, "actor".toList, "actor_role".toList, "action".toList,
    "target_type".toList, "target_id".toList, "diff".toList]

/-- The fields of a row. -/
def AuditRow.fields (r : AuditRow) : List (List Char) :=
  [decimal r.id, r.occurredAt.rfc3339, r.actor, r.actorRole.getD [], r.action, r.targetType,
    decimal r.targetId, r.diff.getD []]

/-- The file of an export as `csv`. -/
def exportCsv (rows : List AuditRow) : List Char :=
  Csv.fileText fieldNeedsQuotes (header :: rows.map AuditRow.fields)

/-- What is exported of a row: whole seconds, and a missing text as an empty one. -/
def AuditRow.exported (r : AuditRow) : AuditRow :=
  { r with
    actorRole := some (r.actorRole.getD [])
    diff := some (r.diff.getD [])
    micros := 0 }

theorem careful_fieldNeedsQuotes : Csv.Careful fieldNeedsQuotes := by
  intro s hs c hc
  unfold fieldNeedsQuotes at hs
  rw [if_neg (List.ne_nil_of_mem hc)] at hs
  split_ifs at hs with _ hany
  have hnone : (c = '\n' || c = '\r' || c = '"' || c = ',') ≠ true := fun h =>
    hany (List.any_eq_true.mpr ⟨c, hc, h⟩)
  simp only [Bool.or_eq_true, decide_eq_true_iff, not_or, ne_eq] at hnone
  exact ⟨hnone.2, hnone.1.2, hnone.1.1.1⟩

/-! ## Numbers and times -/

theorem decimal_injective : Function.Injective decimal := by
  intro m n h
  have hminus : ∀ k l : ℕ, Nat.toDigits 10 k ≠ '-' :: Nat.toDigits 10 l := by
    intro k l heq
    have hmem : '-' ∈ Nat.toDigits 10 k := heq ▸ List.mem_cons_self
    exact absurd (Nat.isDigit_of_mem_toDigits (by decide) (by decide) hmem) (by decide)
  have hdigits : ∀ k l : ℕ, Nat.toDigits 10 k = Nat.toDigits 10 l → k = l := by
    intro k l heq
    rw [← Nat.ofDigitChars_ten_toDigits (n := k), heq, Nat.ofDigitChars_ten_toDigits]
  cases m with
  | ofNat m =>
    cases n with
    | ofNat n => exact congrArg _ (hdigits m n h)
    | negSucc n => exact absurd h (hminus m (n + 1))
  | negSucc m =>
    cases n with
    | ofNat n => exact absurd h.symm (hminus n (m + 1))
    | negSucc n => exact congrArg _ (Nat.succ.inj (hdigits _ _ (List.cons.inj h).2))

theorem isDigit_of_mem_pad {width n : ℕ} {c : Char} (h : c ∈ pad width n) : c.isDigit = true := by
  rcases List.mem_append.mp h with h | h
  · rw [List.eq_of_mem_replicate h]
    rfl
  · exact Nat.isDigit_of_mem_toDigits (by decide) (by decide) h

/-- Leading zeros do not change a number. -/
theorem pad_injective (width : ℕ) : Function.Injective (pad width) := by
  intro m n h
  have hvalue : ∀ k, Nat.ofDigitChars 10 (pad width k) 0 = k := fun k => by
    rw [pad, Nat.ofDigitChars_append, Nat.ofDigitChars_replicate_zero, Nat.mul_zero,
      Nat.ofDigitChars_ten_toDigits]
  rw [← hvalue m, h, hvalue]

/-- A number ends where the next mark stands. -/
theorem pad_append_eq {width m n : ℕ} {c : Char} (hc : c.isDigit = false) {s s' : List Char}
    (h : pad width m ++ c :: s = pad width n ++ c :: s') : m = n ∧ s = s' := by
  have hnot : ∀ k, c ∉ pad width k := fun k hmem => by
    rw [isDigit_of_mem_pad hmem] at hc
    cases hc
  have heq := Scan.eq_of_append_cons_eq_of_notMem (hnot m) (hnot n) h
  rw [heq, List.append_cancel_left_eq] at h
  exact ⟨pad_injective width heq, (List.cons.inj h).2⟩

theorem rfc3339_injective : Function.Injective Response.Time.rfc3339 := by
  rintro ⟨y, mo, d, h, mi, s⟩ ⟨y', mo', d', h', mi', s'⟩ heq
  unfold Response.Time.rfc3339 at heq
  obtain ⟨rfl, heq⟩ := pad_append_eq (by decide) heq
  obtain ⟨rfl, heq⟩ := pad_append_eq (by decide) heq
  obtain ⟨rfl, heq⟩ := pad_append_eq (by decide) heq
  obtain ⟨rfl, heq⟩ := pad_append_eq (by decide) heq
  obtain ⟨rfl, heq⟩ := pad_append_eq (by decide) heq
  obtain ⟨rfl, -⟩ := pad_append_eq (by decide) heq
  rfl

/-! ## The file -/

/-- The fields of two rows agree exactly if what is exported of them does. -/
theorem fields_eq_iff (r r' : AuditRow) : r.fields = r'.fields ↔ r.exported = r'.exported := by
  constructor
  · intro h
    unfold AuditRow.fields at h
    simp only [List.cons.injEq] at h
    obtain ⟨hid, htime, hactor, hrole, haction, htype, htarget, hdiff, -⟩ := h
    unfold AuditRow.exported
    rw [decimal_injective hid, rfc3339_injective htime, hactor, hrole, haction, htype,
      decimal_injective htarget, hdiff]
  · intro h
    have hfields : ∀ r : AuditRow, r.fields = r.exported.fields := fun _ => rfl
    rw [hfields r, h, ← hfields r']

/-- **The export loses nothing else**: two exports are the same file exactly if they are of
rows, in the same order, that agree but for fractions of seconds, and for missing and empty
texts. -/
theorem exportCsv_eq_iff (rows rows' : List AuditRow) :
    exportCsv rows = exportCsv rows' ↔ rows.map AuditRow.exported = rows'.map AuditRow.exported := by
  have hfields : rows.map AuditRow.fields = rows'.map AuditRow.fields ↔
      rows.map AuditRow.exported = rows'.map AuditRow.exported := by
    induction rows generalizing rows' with
    | nil => cases rows' <;> simp
    | cons r rows ih =>
      cases rows' with
      | nil => simp
      | cons r' rows' =>
        rw [List.map_cons, List.map_cons, List.map_cons, List.map_cons, List.cons.injEq,
          List.cons.injEq, fields_eq_iff, ih]
  rw [← hfields]
  have hne : ∀ rows : List AuditRow, ∀ xs ∈ header :: rows.map AuditRow.fields, xs ≠ [] := by
    intro rows xs hxs
    rcases List.mem_cons.mp hxs with rfl | hxs
    · exact List.cons_ne_nil _ _
    · obtain ⟨r, -, rfl⟩ := List.mem_map.mp hxs
      exact List.cons_ne_nil _ _
  constructor
  · intro h
    exact (List.cons.inj (Csv.fileText_injective careful_fieldNeedsQuotes (hne rows) (hne rows') h)).2
  · intro h
    rw [exportCsv, h]
    rfl

/-! ## Periods -/

/-- Sorted rows are the ones before an instant, and then the others. -/
theorem filter_append_filter_of_sorted {rows : List AuditRow}
    (h : rows.Pairwise fun r r' => r.instant ≤ r'.instant) (t : List ℕ) :
    (rows.filter fun r => r.instant < t) ++ (rows.filter fun r => ¬ r.instant < t) = rows := by
  induction rows with
  | nil => rfl
  | cons r rows ih =>
    obtain ⟨hle, hrows⟩ := List.pairwise_cons.mp h
    by_cases hr : r.instant < t
    · rw [List.filter_cons_of_pos (by simpa using hr), List.filter_cons_of_neg (by simpa using hr),
        List.cons_append, ih hrows]
    · have hall : ∀ r' ∈ r :: rows, ¬ r'.instant < t := by
        intro r' hr' hlt
        rcases List.mem_cons.mp hr' with rfl | hr'
        · exact hr hlt
        · exact hr (lt_of_le_of_lt (hle r' hr') hlt)
      rw [List.filter_eq_nil_iff.mpr fun r' hr' => by simpa using hall r' hr',
        List.filter_eq_self.mpr fun r' hr' => by simpa using hall r' hr', List.nil_append]

variable {table rows : List AuditRow} {f : AuditFilter} {t : List ℕ}

/-- The filters of two adjacent periods select what the filter of the whole period selects,
before the instant between them and from it on. -/
theorem selects_adjacent (hfrom : ∀ a ∈ f.from_, a ≤ t) (hto : ∀ b ∈ f.to_, t ≤ b)
    (r : AuditRow) :
    ({ f with to_ := some t } : AuditFilter).selects r = (decide (r.instant < t) && f.selects r) ∧
      ({ f with from_ := some t } : AuditFilter).selects r
        = (decide (¬ r.instant < t) && f.selects r) := by
  have hbefore : r.instant < t → (f.to_.all fun b => r.instant < b) = true := fun hlt =>
    (Option.all_eq_true _ _).mpr fun b hb => decide_eq_true (lt_of_lt_of_le hlt (hto b hb))
  have hafter : ¬ r.instant < t → (f.from_.all fun a => a ≤ r.instant) = true := fun hge =>
    (Option.all_eq_true _ _).mpr fun a ha => decide_eq_true ((hfrom a ha).trans (not_lt.mp hge))
  unfold AuditFilter.selects
  by_cases hlt : r.instant < t
  · rw [hbefore hlt]
    simp [hlt]
  · rw [hafter hlt]
    simp [hlt, not_lt.mp hlt]

/-- A row at a fraction of the first second of a day. -/
def sampleRow (id : ℤ) (micros : ℕ) : AuditRow where
  id := id
  actor := []
  actorRole := none
  action := []
  targetType := []
  targetId := 0
  diff := none
  occurredAt := ⟨2026, 5, 1, 0, 0, 0⟩
  micros := micros

/-- **Adjacent periods**: what may be exported of a period is what may be exported of its part
before an instant, followed by what may be exported of its part from the instant on.  No row is
lost at the instant, and none comes twice. -/
theorem streams_adjacent_iff (hfrom : ∀ a ∈ f.from_, a ≤ t) (hto : ∀ b ∈ f.to_, t ≤ b) :
    Streams table f rows ↔ ∃ before after, rows = before ++ after ∧
      Streams table { f with to_ := some t } before ∧
      Streams table { f with from_ := some t } after := by
  have hselects := selects_adjacent hfrom hto
  have hbefore : table.filter ({ f with to_ := some t } : AuditFilter).selects
      = (table.filter f.selects).filter fun r => r.instant < t := by
    rw [List.filter_filter]
    exact List.filter_congr fun r _ => (hselects r).1
  have hafter : table.filter ({ f with from_ := some t } : AuditFilter).selects
      = (table.filter f.selects).filter fun r => ¬ r.instant < t := by
    rw [List.filter_filter]
    exact List.filter_congr fun r _ => (hselects r).2
  constructor
  · rintro ⟨hperm, hsorted⟩
    refine ⟨_, _, (filter_append_filter_of_sorted hsorted t).symm, ⟨?_, hsorted.filter _⟩,
      ⟨?_, hsorted.filter _⟩⟩
    · rw [hbefore]
      exact hperm.filter _
    · rw [hafter]
      exact hperm.filter _
  · rintro ⟨before, after, rfl, ⟨hperm₁, hsorted₁⟩, ⟨hperm₂, hsorted₂⟩⟩
    rw [hbefore] at hperm₁
    rw [hafter] at hperm₂
    refine ⟨?_, List.pairwise_append.mpr ⟨hsorted₁, hsorted₂, fun r hr r' hr' => ?_⟩⟩
    · refine (hperm₁.append hperm₂).trans ?_
      simp only [decide_not]
      exact List.filter_append_perm _ _
    · have hlt := List.of_mem_filter (hperm₁.subset hr)
      have hge := List.of_mem_filter (hperm₂.subset hr')
      exact (of_decide_eq_true hlt).le.trans (not_lt.mp (of_decide_eq_true hge))

/-- Two rows of one second, and an instant between them. -/
theorem streams_adjacent_iff_second :
    ∃ before after, [sampleRow 1 5, sampleRow 2 7] = before ++ after ∧
      Streams [sampleRow 2 7, sampleRow 1 5]
        { from_ := some [2026], to_ := some [2026, 5, 1, 0, 0, 0, 6] } before ∧
      Streams [sampleRow 2 7, sampleRow 1 5]
        { from_ := some [2026, 5, 1, 0, 0, 0, 6], to_ := some [2027] } after := by
  have hfrom : ∀ a ∈ some [2026], a ≤ [2026, 5, 1, 0, 0, 0, 6] := by
    rintro a ⟨⟩
    decide
  have hto : ∀ b ∈ some [2027], [2026, 5, 1, 0, 0, 0, 6] ≤ b := by
    rintro b ⟨⟩
    decide
  exact (streams_adjacent_iff (f := { from_ := some [2026], to_ := some [2027] }) hfrom hto).mp
    ⟨List.Perm.swap _ _ _, by decide⟩

end IncidentService
