/-
# Pages of incidents

`ListIncidents` shows the incidents a page at a time, the latest first.  A client that asks
for pages of `n`, one after the other, sees every incident exactly once if `n` is from 1 to
500, and for no other `n` can it rely on that (`paging_complete_iff`).
-/
import ZtMapper.IncidentService.History

namespace IncidentService

/-- An empty text is no filter. -/
structure IncidentFilter where
  status : String := ""
  severity : String := ""
  type : String := ""
  limit : ℤ := 0
  offset : ℤ := 0

namespace IncidentFilter

/-- The condition of the `WHERE` clause. -/
def selects (f : IncidentFilter) (inc : Incident) : Bool :=
  (f.status = "" || inc.status.text = f.status) && (f.severity = "" || inc.severity = f.severity) &&
    (f.type = "" || inc.type = f.type)

/-- The limit of the query. -/
def limitUsed (f : IncidentFilter) : ℕ :=
  if f.limit ≤ 0 ∨ 500 < f.limit then 100 else f.limit.toNat

end IncidentFilter

/-- The rows of the query without its limit; rows of one time come in any order. -/
structure Latest (db : Db) (f : IncidentFilter) (rows : List Incident) : Prop where
  perm : rows.Perm (db.incidents.filter f.selects)
  sorted : rows.Pairwise fun inc inc' => inc'.lastSeenNs.toInt ≤ inc.lastSeenNs.toInt

/-- What `ListIncidents` may return.  PostgreSQL refuses a negative offset. -/
def ListIncidents (db : Db) (f : IncidentFilter) (page : List Incident) : Prop :=
  0 ≤ f.offset ∧ ∃ rows, Latest db f rows ∧ page = (rows.drop f.offset.toNat).take f.limitUsed

/-! ## Pages of a list -/

/-- The pages put together are the beginning of the list. -/
theorem flatMap_range_pages {α : Type*} (l : List α) (n m : ℕ) :
    ((List.range m).flatMap fun i => (l.drop (i * n)).take n) = l.take (m * n) := by
  induction m with
  | zero => rw [Nat.zero_mul, List.take_zero, List.range_zero, List.flatMap_nil]
  | succ m ih =>
    rw [List.range_succ, List.flatMap_append, ih, List.flatMap_singleton, Nat.succ_mul,
      List.take_add]

/-- Rows of different times have one order. -/
theorem Latest.unique {db : Db} {f : IncidentFilter} {rows rows' : List Incident}
    (h : Latest db f rows) (h' : Latest db f rows')
    (htimes : (db.incidents.filter f.selects).Pairwise fun inc inc' =>
      inc.lastSeenNs ≠ inc'.lastSeenNs) : rows = rows' := by
  refine List.Perm.eq_of_pairwise (fun inc inc' hinc hinc' hle hge => ?_) h.sorted h'.sorted
    (h.perm.trans h'.perm.symm)
  by_contra hne
  have hsymm : Std.Symm fun inc inc' : Incident => inc.lastSeenNs ≠ inc'.lastSeenNs :=
    ⟨fun _ _ => Ne.symm⟩
  exact htimes.forall (h.perm.subset hinc) (h'.perm.subset hinc') hne
    (Int64.toInt_inj.mp (le_antisymm hge hle))

/-- A limit in range is used. -/
theorem limitUsed_of_le {f : IncidentFilter} {n : ℕ} (hn : 1 ≤ n) (hle : n ≤ 500)
    (hlimit : f.limit = n) : f.limitUsed = n := by
  have hnot : ¬ ((n : ℤ) ≤ 0 ∨ 500 < (n : ℤ)) := by omega
  rw [IncidentFilter.limitUsed, hlimit, if_neg hnot, Int.toNat_natCast]

/-! ## Limits that are not used -/

/-- A limit out of range is replaced by 100. -/
theorem limitUsed_eq {n : ℕ} {offset : ℤ} (h : n < 1 ∨ 500 < n) :
    ({ limit := n, offset := offset } : IncidentFilter).limitUsed = 100 := by
  have hcond : (n : ℤ) ≤ 0 ∨ 500 < (n : ℤ) := by omega
  exact if_pos hcond

/-- Scans from different sources, one after the other. -/
def scanFrom (i : ℕ) : IncomingAlert where
  type := "scan"
  source := String.ofList (List.replicate (i + 1) 'a')
  timestampNs := Int64.ofNat i
  severity := "high"
  nodeName := "node"
  tags := ["t"]
  details := ""
  correlation := none

def scans (m : ℕ) : List Attempt :=
  (List.range m).map fun i => { write := .upsertIncident (scanFrom i) }

/-- The scans have different keys. -/
theorem key_scanFrom_injective {i j : ℕ} (h : (scanFrom i).key = (scanFrom j).key) : i = j := by
  have hlength := congrArg String.length h
  simp only [IncomingAlert.key, scanFrom, String.length_append, String.length_ofList,
    List.length_replicate] at hlength
  omega

/-- The scans have a source. -/
theorem source_scanFrom_ne (i : ℕ) : (scanFrom i).source ≠ "" := fun h => by
  have hlength := congrArg String.length h
  rw [scanFrom, String.length_ofList, List.length_replicate] at hlength
  exact Nat.succ_ne_zero i hlength

/-- The row of a scan. -/
def scanRow (i : ℕ) : Incident := insertedIncident (scanFrom i) (i + 1) 1 0

/-- A scan from another source is inserted. -/
theorem upsertIncident_scanFrom {db : Db} {m : ℕ}
    (hrows : db.incidents = (List.range m).map scanRow) (hseq : db.incidentSeq = m + 1) :
    db.upsertIncident (scanFrom m) 0 = some ({ db with
      incidents := (List.range (m + 1)).map scanRow, incidentSeq := m + 2 }, scanRow m, true) := by
  have hnone : (db.incidents.find? fun r => decide (r.incidentKey = (scanFrom m).key)) = none := by
    refine List.find?_eq_none.mpr fun r hr hkey => ?_
    rw [hrows] at hr
    obtain ⟨i, hi, rfl⟩ := List.mem_map.mp hr
    have heq := key_scanFrom_injective (of_decide_eq_true hkey)
    exact absurd (List.mem_range.mp hi) (by omega)
  have hcount : toInt4 (scanFrom m).occCount = some 1 := by
    show toInt4 1 = some 1
    decide
  have htype : (scanFrom m).type ≠ "" := by
    show "scan" ≠ ""
    decide
  unfold Db.upsertIncident Table.upsert
  rw [if_neg (not_or.mpr ⟨source_scanFrom_ne m, htype⟩), hcount, hnone, hseq, hrows,
    List.range_succ, List.map_append]
  rfl

/-- The rows after a number of scans. -/
theorem incidents_scans (m : ℕ) :
    (history (scans m)).db.incidents = (List.range m).map scanRow ∧
      (history (scans m)).db.incidentSeq = m + 1 := by
  induction m with
  | zero => exact ⟨rfl, rfl⟩
  | succ m ih =>
    have hscans : scans (m + 1) = scans m ++ [{ write := .upsertIncident (scanFrom m) }] := by
      rw [scans, List.range_succ, List.map_append]
      rfl
    rw [hscans, history_concat]
    dsimp only [History.step]
    rw [if_neg Bool.false_ne_true, upsertIncident_scanFrom ih.1 ih.2]
    exact ⟨rfl, rfl⟩

/-- The rows of the scans, the latest first. -/
def scanRows (m : ℕ) : List Incident := ((List.range m).map scanRow).reverse

/-- There are as many rows as scans. -/
theorem length_scanRows (m : ℕ) : (scanRows m).length = m := by
  rw [scanRows, List.length_reverse, List.length_map, List.length_range]

/-- The time of a row. -/
theorem toInt_lastSeenNs_scanRow {i : ℕ} (h : i < 2 ^ 63) : (scanRow i).lastSeenNs.toInt = i :=
  Int64.toInt_ofNat_of_lt h

/-- The rows are in the order of their times. -/
theorem pairwise_scanRows {m : ℕ} (hm : m < 2 ^ 63) :
    ((List.range m).map scanRow).Pairwise fun inc inc' =>
      inc.lastSeenNs.toInt < inc'.lastSeenNs.toInt := by
  refine List.pairwise_map.mpr (List.pairwise_lt_range.imp_of_mem fun hi hj hlt => ?_)
  rw [toInt_lastSeenNs_scanRow ((List.mem_range.mp hi).trans hm),
    toInt_lastSeenNs_scanRow ((List.mem_range.mp hj).trans hm)]
  exact_mod_cast hlt

/-- The empty filter selects every row. -/
theorem filter_scans (m : ℕ) :
    (history (scans m)).db.incidents.filter ({} : IncidentFilter).selects
      = (List.range m).map scanRow := by
  rw [(incidents_scans m).1]
  exact List.filter_eq_self.mpr fun _ _ => rfl

/-- The rows, latest first, are a correct listing. -/
theorem latest_scanRows {m : ℕ} (hm : m < 2 ^ 63) :
    Latest (history (scans m)).db {} (scanRows m) := by
  refine ⟨?_, List.pairwise_reverse.mpr ((pairwise_scanRows hm).imp fun hlt => hlt.le)⟩
  rw [filter_scans]
  exact List.reverse_perm _

/-- No two rows have the same time. -/
theorem times_scans {m : ℕ} (hm : m < 2 ^ 63) :
    ((history (scans m)).db.incidents.filter ({} : IncidentFilter).selects).Pairwise
      fun inc inc' => inc.lastSeenNs ≠ inc'.lastSeenNs := by
  rw [filter_scans]
  exact (pairwise_scanRows hm).imp fun hlt heq => hlt.ne (congrArg Int64.toInt heq)

/-- A limit that is not used gives pages of 100. -/
theorem listIncidents_scans {n m : ℕ} (h : n < 1 ∨ 500 < n) (hm : m < 2 ^ 63) (i : ℕ) :
    ListIncidents (history (scans m)).db { limit := n, offset := i * n }
      (((scanRows m).drop (i * n)).take 100) := by
  have hlatest := latest_scanRows hm
  refine ⟨Int.mul_nonneg (Int.natCast_nonneg i) (Int.natCast_nonneg n), _,
    ⟨hlatest.perm, hlatest.sorted⟩, ?_⟩
  rw [limitUsed_eq h]
  norm_cast

/-- Of 101 incidents only the first page shows any. -/
theorem length_pages_le {n : ℕ} (h : 500 < n) :
    ((List.range 101).flatMap fun i => ((scanRows 101).drop (i * n)).take 100).length ≤ 100 := by
  have hempty : ∀ i ∈ (List.range 100).map Nat.succ,
      ((scanRows 101).drop (i * n)).take 100 = [] := by
    intro i hi
    obtain ⟨j, -, rfl⟩ := List.mem_map.mp hi
    have hmul : 1 * n ≤ j.succ * n := Nat.mul_le_mul_right n (Nat.succ_pos j)
    have hle : (scanRows 101).length ≤ j.succ * n := by
      rw [length_scanRows]
      omega
    rw [List.drop_of_length_le hle, List.take_nil]
  rw [List.range_succ_eq_map, List.flatMap_cons, List.flatMap_eq_nil_iff.mpr hempty,
    List.append_nil]
  exact List.length_take_le _ _

/-- **Paging**: while the table stands still, a client that asks for page after page of `n` sees
all incidents of the filter once, the latest first, whatever the writers have done, if and only
if `n` is from 1 to 500.  A larger limit is replaced by 100, and the client skips what is
between. -/
theorem paging_complete_iff (n : ℕ) :
    (∀ (ws : List Attempt) (f : IncidentFilter) (rows : List Incident) (pages : ℕ → List Incident),
      (((history ws).db.incidents.filter f.selects).Pairwise fun inc inc' =>
        inc.lastSeenNs ≠ inc'.lastSeenNs) →
      Latest (history ws).db f rows →
      (∀ i : ℕ, ListIncidents (history ws).db { f with limit := n, offset := i * n } (pages i)) →
      ∀ m, rows.length ≤ m → (List.range m).flatMap pages = rows) ↔ 1 ≤ n ∧ n ≤ 500 := by
  constructor
  · intro hall
    by_contra hnot
    rcases Nat.eq_zero_or_pos n with rfl | hpos
    · -- every page is the first one
      have hone : 1 < 2 ^ 63 := by decide
      have htwice := hall _ _ _ _ (times_scans hone) (latest_scanRows hone)
        (listIncidents_scans (Or.inl Nat.zero_lt_one) hone) 2 (by decide)
      exact absurd (congrArg List.length htwice) (by decide)
    · have hlarge : 500 < n := by omega
      have hm : 101 < 2 ^ 63 := by decide
      have hcut := hall _ _ _ _ (times_scans hm) (latest_scanRows hm)
        (listIncidents_scans (Or.inr hlarge) hm) 101 (length_scanRows 101).le
      have hlen := length_pages_le hlarge
      rw [hcut, length_scanRows] at hlen
      omega
  · rintro ⟨hn, hle⟩ ws f rows pages htimes hrows hpages m hm
    have hpage : ∀ i, pages i = (rows.drop (i * n)).take n := by
      intro i
      obtain ⟨-, rows', hrows', hpage⟩ := hpages i
      rw [hpage, limitUsed_of_le hn hle rfl,
        hrows.unique ⟨hrows'.perm, hrows'.sorted⟩ htimes]
      norm_cast
    calc (List.range m).flatMap pages
        = (List.range m).flatMap fun i => (rows.drop (i * n)).take n :=
          List.flatMap_congr fun i _ => hpage i
      _ = rows.take (m * n) := flatMap_range_pages rows n m
      _ = rows := List.take_of_length_le (hm.trans (Nat.le_mul_of_pos_right m hn))

end IncidentService
