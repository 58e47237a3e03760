/-
# The week of a report

`resolveWeek`, which reads the week that a request asks for, and the label that
`GenerateWeekly` gives the report.  Strings are lists of bytes.  The label of a
report denotes the week that the report covers when this week exists and its seconds fit
into 64 bits, which `resolveWeek` does not check; `resolveWeek_denotes_iff` says for which
texts it does.
-/
import ZtMapper.Reports.WeekRange
import ZtMapper.Lib.Lines
import ZtMapper.Lib.Print
import Mathlib.Data.List.Basic

open Calendar Scan

namespace Reports

/-- The bytes of a string literal. -/
def bytes (s : String) : List UInt8 := s.toUTF8.data.toList

/-! ## `strconv.Atoi` -/

inductive NumErr where
  | errSyntax
  | errRange
  deriving DecidableEq, Repr

structure NumError where
  num : List UInt8
  err : NumErr
  deriving DecidableEq, Repr

/-- The digits of a `uint64`, after digits of the value `n`. -/
def parseUint (n : ℕ) : List UInt8 → Except NumErr ℕ
  | [] => .ok n
  | b :: s =>
    if ¬ isDigit b then .error .errSyntax
    else if 2 ^ 64 ≤ 10 * n + (b.toNat - 48) then .error .errRange
    else parseUint (10 * n + (b.toNat - 48)) s

/-- The sign, the digits, and the bounds of an `int`. -/
def atoi (s : List UInt8) : Except NumError ℤ :=
  let (neg, digits) := splitSign s
  if digits = [] then .error ⟨s, .errSyntax⟩
  else match parseUint 0 digits with
    | .error err => .error ⟨s, err⟩
    | .ok n =>
      if neg then if 2 ^ 63 < n then .error ⟨s, .errRange⟩ else .ok (-n)
      else if 2 ^ 63 ≤ n then .error ⟨s, .errRange⟩ else .ok n

/-- Reading digits only makes the value larger. -/
theorem le_foldl_digits (s : List UInt8) (n : ℕ) :
    n ≤ s.foldl (fun n b => 10 * n + (b.toNat - 48)) n := by
  induction s generalizing n with
  | nil => exact le_rfl
  | cons b s ih =>
    have hle := ih (10 * n + (b.toNat - 48))
    rw [List.foldl_cons]
    omega

/-- `ParseUint` reads exactly the digits whose value fits 64 bits. -/
theorem parseUint_eq_ok_iff {s : List UInt8} {n m : ℕ} (hn : n < 2 ^ 64) :
    parseUint n s = .ok m ↔
      (∀ b ∈ s, isDigit b = true) ∧ s.foldl (fun n b => 10 * n + (b.toNat - 48)) n = m ∧
        m < 2 ^ 64 := by
  induction s generalizing n with
  | nil =>
    constructor
    · intro h
      obtain rfl := Except.ok.inj h
      exact ⟨fun b hb => absurd hb List.not_mem_nil, rfl, hn⟩
    · rintro ⟨-, rfl, -⟩
      rfl
  | cons b s ih =>
    rw [parseUint, List.forall_mem_cons, List.foldl_cons]
    by_cases hdigit : isDigit b = true
    · rw [if_neg (not_not.mpr hdigit)]
      by_cases hlarge : 2 ^ 64 ≤ 10 * n + (b.toNat - 48)
      · rw [if_pos hlarge]
        refine iff_of_false (fun h => by cases h) ?_
        rintro ⟨-, rfl, hm⟩
        exact absurd (hlarge.trans (le_foldl_digits s _)) (not_le.mpr hm)
      · rw [if_neg hlarge, ih (not_le.mp hlarge), and_iff_right hdigit]
    · rw [if_pos hdigit]
      exact iff_of_false (fun h => by cases h) fun h => hdigit h.1.1

/-- Decimal digits of an `int`, perhaps after a plus. -/
def IsCount (s : List UInt8) (n : ℕ) : Prop :=
  n < 2 ^ 63 ∧ ∃ sign digits, s = sign ++ digits ∧ (sign = [43] ∨ sign = []) ∧ IsDecimal digits n

/-- `Atoi` reads a count. -/
theorem atoi_of_isCount {s : List UInt8} {n : ℕ} (h : IsCount s n) : atoi s = .ok n := by
  obtain ⟨hn, sign, digits, rfl, hsign, hdigits⟩ := h
  have hsplit : splitSign (sign ++ digits) = (false, digits) := by
    have happ : splitSign (sign ++ (digits ++ [])) = (false, digits ++ []) :=
      splitSign_append (Or.inr ⟨hsign, rfl⟩) hdigits.ne_nil hdigits.digits
    rwa [List.append_nil] at happ
  have hparse : parseUint 0 digits = .ok n :=
    (parseUint_eq_ok_iff (by decide)).mpr ⟨hdigits.digits, hdigits.magnitude_eq, by omega⟩
  unfold atoi
  rw [hsplit]
  dsimp only
  rw [if_neg hdigits.ne_nil, hparse]
  exact if_neg (not_le.mpr hn)

/-- What is read from a text without a minus is a count. -/
theorem atoi_eq_ok_iff {s : List UInt8} {v : ℤ} (h : 45 ∉ s) :
    atoi s = .ok v ↔ ∃ n : ℕ, v = n ∧ IsCount s n := by
  constructor
  · intro hok
    obtain ⟨sign, hs, ⟨rfl, -⟩ | ⟨hsign, hneg⟩⟩ := exists_sign s
    · exact absurd (hs ▸ List.mem_cons_self) h
    unfold atoi at hok
    dsimp only at hok
    by_cases hne : (splitSign s).2 = []
    · rw [if_pos hne] at hok
      cases hok
    rw [if_neg hne, hneg] at hok
    cases hparse : parseUint 0 (splitSign s).2 with
    | error err =>
      rw [hparse] at hok
      cases hok
    | ok n =>
      rw [hparse] at hok
      dsimp only at hok
      rw [if_neg Bool.false_ne_true] at hok
      obtain ⟨hdigits, hvalue, -⟩ := (parseUint_eq_ok_iff (by decide)).mp hparse
      split_ifs at hok with hlarge
      exact ⟨n, (Except.ok.inj hok).symm, not_le.mp hlarge, sign, _, hs, hsign, hne, hdigits, hvalue⟩
  · rintro ⟨n, rfl, hn⟩
    exact atoi_of_isCount hn

/-! ## `resolveWeek` -/

/-- An upper-case letter for a lower-case one. -/
def upperByte (b : UInt8) : UInt8 := if 97 ≤ b ∧ b ≤ 122 then b - 32 else b

/-- The bytes of a number: digits and signs. -/
def isNumeric (b : UInt8) : Bool := isDigit b || b = 43 || b = 45

/-- What `strings.ToUpper` does: it works byte by byte on an ASCII string, and makes no
digit, sign or `W` of a character that is not ASCII. -/
structure UpperCase (toUpper : List UInt8 → List UInt8) : Prop where
  ascii : ∀ s, (∀ b ∈ s, b < 128) → toUpper s = s.map upperByte
  beyond : ∀ s, ¬ (∀ b ∈ s, b < 128) → ∃ b ∈ toUpper s, isNumeric b = false ∧ b ≠ 87

/-- An error of `resolveWeek`, which `errors.New` or `Atoi` makes. -/
inductive WeekError where
  | new (text : List UInt8)
  | atoi (err : NumError)
  deriving DecidableEq, Repr

/-- The year and the week that a text asks for. -/
def resolveWeek (toUpper : List UInt8 → List UInt8) (spec : List UInt8) (now : Instant) :
    Except WeekError (ℤ × ℤ) :=
  if spec = [] then .ok (currentISOWeek now)
  else match ((toUpper spec).filter (· ≠ 87)).splitOn 45 with
    | [year, week] =>
      match atoi year with
      | .error err => .error (.atoi err)
      | .ok y =>
        match atoi week with
        | .error err => .error (.atoi err)
        | .ok wk => .ok (y, wk)
    | _ => .error (.new (bytes "week must look like YYYY-WW"))

/-- A text without its letters `W` and `w`. -/
def withoutW (spec : List UInt8) : List UInt8 := spec.filter fun b => b ≠ 87 ∧ b ≠ 119

/-- `ToUpper` on one byte. -/
theorem toNat_upperByte (b : UInt8) :
    (upperByte b).toNat = if 97 ≤ b.toNat ∧ b.toNat ≤ 122 then b.toNat - 32 else b.toNat := by
  have hiff : 97 ≤ b ∧ b ≤ 122 ↔ 97 ≤ b.toNat ∧ b.toNat ≤ 122 :=
    and_congr UInt8.le_iff_toNat_le UInt8.le_iff_toNat_le
  unfold upperByte
  by_cases h : 97 ≤ b ∧ b ≤ 122
  · rw [if_pos h, if_pos (hiff.mp h)]
    refine UInt8.toNat_sub_of_le b 32 (UInt8.le_iff_toNat_le.mpr ?_)
    exact le_trans (by decide) (hiff.mp h).1
  · rw [if_neg h, if_neg (hiff.not.mp h)]

/-- Digits and signs come before the letters. -/
theorem toNat_le_of_isNumeric {b : UInt8} (h : isNumeric b = true) : b.toNat ≤ 57 := by
  simp only [isNumeric, isDigit, Bool.or_eq_true, Bool.and_eq_true, decide_eq_true_eq] at h
  rcases h with (⟨-, hle⟩ | rfl) | rfl
  · exact UInt8.le_iff_toNat_le.mp hle
  · decide
  · decide

/-- Only a digit or sign becomes itself. -/
theorem upperByte_eq_iff {b c : UInt8} (hc : isNumeric c = true) : upperByte b = c ↔ b = c := by
  have hle := toNat_le_of_isNumeric hc
  rw [← UInt8.toNat_inj, ← UInt8.toNat_inj, toNat_upperByte]
  split_ifs <;> omega

/-- Both cases of the week letter become the upper one. -/
theorem upperByte_eq_W_iff {b : UInt8} : upperByte b = 87 ↔ b = 87 ∨ b = 119 := by
  rw [← UInt8.toNat_inj, ← UInt8.toNat_inj, ← UInt8.toNat_inj, toNat_upperByte]
  show _ = 87 ↔ b.toNat = 87 ∨ b.toNat = 119
  split_ifs <;> omega

/-- In an ASCII string the letters `w` go with the letters `W`. -/
theorem filter_map_upperByte (spec : List UInt8) :
    (spec.map upperByte).filter (· ≠ 87) = (withoutW spec).map upperByte := by
  rw [List.filter_map, withoutW]
  refine congrArg _ (List.filter_congr fun b _ => ?_)
  show decide (upperByte b ≠ 87) = _
  rw [decide_eq_decide, ne_eq, upperByte_eq_W_iff, not_or]

/-- Only a numeric text becomes itself. -/
theorem map_upperByte_eq_iff {s t : List UInt8} (ht : ∀ b ∈ t, isNumeric b = true) :
    s.map upperByte = t ↔ s = t := by
  induction t generalizing s with
  | nil => exact List.map_eq_nil_iff
  | cons c t ih =>
    obtain ⟨hc, ht⟩ := List.forall_mem_cons.mp ht
    cases s with
    | nil => exact iff_of_false (fun h => by cases h) fun h => by cases h
    | cons b s => rw [List.map_cons, List.cons.injEq, List.cons.injEq, upperByte_eq_iff hc, ih ht]

/-- `strings.ToUpper` on strings without other letters. -/
theorem upperCase_map_upperByte : UpperCase (List.map upperByte) where
  ascii := fun _ _ => rfl
  beyond := fun s h => by
    obtain ⟨b, hb, hge⟩ : ∃ b ∈ s, ¬ b < 128 := by
      by_contra hnone
      exact h fun b hb => by_contra fun hge => hnone ⟨b, hb, hge⟩
    have hlarge : 128 ≤ b.toNat := not_lt.mp fun hlt => hge (UInt8.lt_iff_toNat_lt.mpr hlt)
    have hupper : upperByte b = b := by
      rw [← UInt8.toNat_inj, toNat_upperByte]
      exact if_neg (by omega)
    refine ⟨b, List.mem_map.mpr ⟨b, hb, hupper⟩, Bool.eq_false_iff.mpr fun hnumeric => ?_, ?_⟩
    · have hle := toNat_le_of_isNumeric hnumeric
      omega
    · rintro rfl
      exact absurd hlarge (by decide)

variable {toUpper : List UInt8 → List UInt8}

/-- A text of digits and signs is left of the same texts with and without upper case. -/
theorem UpperCase.filter_eq_iff (h : UpperCase toUpper) (spec : List UInt8) {t : List UInt8}
    (ht : ∀ b ∈ t, isNumeric b = true) :
    (toUpper spec).filter (· ≠ 87) = t ↔ withoutW spec = t := by
  by_cases hascii : ∀ b ∈ spec, b < 128
  · rw [h.ascii spec hascii, filter_map_upperByte, map_upperByte_eq_iff ht]
  · refine iff_of_false ?_ ?_
    · rintro rfl
      obtain ⟨b, hb, hnumeric, hW⟩ := h.beyond spec hascii
      have hmem := ht b (List.mem_filter.mpr ⟨hb, decide_eq_true hW⟩)
      rw [hnumeric] at hmem
      cases hmem
    · rintro rfl
      refine hascii fun b hb => ?_
      by_contra hge
      have hne : b ≠ 87 ∧ b ≠ 119 := by
        constructor <;> rintro rfl <;> exact hge (by decide)
      have hle := toNat_le_of_isNumeric (ht b (List.mem_filter.mpr ⟨hb, decide_eq_true hne⟩))
      exact hge (UInt8.lt_iff_toNat_lt.mpr (hle.trans_lt (by decide)))

/-- A count has digits only. -/
theorem IsCount.isNumeric {s : List UInt8} {n : ℕ} (h : IsCount s n) :
    ∀ b ∈ s, isNumeric b = true ∧ b ≠ 45 := by
  obtain ⟨-, sign, digits, rfl, hsign, hdigits⟩ := h
  intro b hb
  rcases List.mem_append.mp hb with hb | hb
  · rcases hsign with rfl | rfl
    · rw [List.mem_singleton.mp hb]
      decide
    · exact absurd hb List.not_mem_nil
  · have hdigit := hdigits.digits b hb
    refine ⟨by rw [Reports.isNumeric, hdigit]; rfl, ?_⟩
    rintro rfl
    exact absurd hdigit (by decide)

/-- Two counts with a dash between them are numeric. -/
theorem isNumeric_append {a b : List UInt8} {m n : ℕ} (ha : IsCount a m) (hb : IsCount b n) :
    ∀ c ∈ a ++ 45 :: b, isNumeric c = true := by
  intro c hc
  rcases List.mem_append.mp hc with hc | hc
  · exact (ha.isNumeric c hc).1
  · rcases List.mem_cons.mp hc with rfl | hc
    · decide
    · exact (hb.isNumeric c hc).1

/-- **The texts that are accepted**: two counts around one hyphen, and letters `W` and
`w` anywhere. -/
theorem resolveWeek_eq_ok_iff (h : UpperCase toUpper) {spec : List UInt8} (hne : spec ≠ [])
    (now : Instant) {y w : ℤ} :
    resolveWeek toUpper spec now = .ok (y, w) ↔
      ∃ a b, ∃ m n : ℕ, withoutW spec = a ++ 45 :: b ∧ IsCount a m ∧ IsCount b n ∧ y = m ∧ w = n := by
  unfold resolveWeek
  rw [if_neg hne]
  constructor
  -- two parts at the hyphens, both of which `atoi` reads
  · intro hok
    split at hok
    · rename_i a b hsplit
      obtain ⟨hspec, ha, hb⟩ := Lines.splitOn_eq_two_iff.mp hsplit
      cases hy : atoi a with
      | error err => rw [hy] at hok; cases hok
      | ok y' =>
        cases hw : atoi b with
        | error err => rw [hy] at hok; dsimp only at hok; rw [hw] at hok; cases hok
        | ok w' =>
          rw [hy] at hok
          dsimp only at hok
          rw [hw] at hok
          obtain ⟨rfl, rfl⟩ := Prod.mk.inj (Except.ok.inj hok)
          obtain ⟨m, hm, hcount⟩ := (atoi_eq_ok_iff ha).mp hy
          obtain ⟨n, hn, hcount'⟩ := (atoi_eq_ok_iff hb).mp hw
          exact ⟨a, b, m, n, (h.filter_eq_iff spec (isNumeric_append hcount hcount')).mp hspec,
            hcount, hcount', hm, hn⟩
    · cases hok
  · rintro ⟨a, b, m, n, hspec, ha, hb, rfl, rfl⟩
    have hparts : ((toUpper spec).filter (· ≠ 87)).splitOn 45 = [a, b] := by
      rw [(h.filter_eq_iff spec (isNumeric_append ha hb)).mpr hspec]
      exact Lines.splitOn_eq_two_iff.mpr ⟨rfl, fun hmem => (ha.isNumeric _ hmem).2 rfl,
        fun hmem => (hb.isNumeric _ hmem).2 rfl⟩
    rw [hparts]
    dsimp only
    rw [atoi_of_isCount ha, atoi_of_isCount hb]

/-! ## The report and its label -/

/-- `%d` -/
def printInt (v : ℤ) : List UInt8 :=
  if v < 0 then 45 :: decimal v.natAbs else decimal v.natAbs

/-- `%02d`, where the zero is for one digit. -/
def printTwo (v : ℤ) : List UInt8 := if 0 ≤ v ∧ v < 10 then 48 :: printInt v else printInt v

/-- `%d-W%02d` -/
def weekISO (year week : ℤ) : List UInt8 := printInt year ++ bytes "-W" ++ printTwo week

/-! ## The range of a week in 64 bits -/

/-- Seconds since 1970 that an `int64` holds; the calendar of `time` begins before -2^62. -/
def Fits (s : ℤ) : Prop := -2 ^ 62 ≤ s ∧ s < 2 ^ 63

/-- `time.Date` of a day of January, `Weekday` and `AddDate(0, 0, days)`, on midnights as their
seconds since 1970.  They are those of the calendar as long as the seconds fit. -/
structure GoTime where
  january : ℤ → ℤ → Int64
  weekday : Int64 → ℤ
  addDays : Int64 → Int64 → Int64
  january_eq : ∀ y d, Fits ((newYear y + (d - 1)) * 86400) →
    (january y d).toInt = (newYear y + (d - 1)) * 86400
  weekday_eq : ∀ t, Fits t.toInt → weekday t = Calendar.weekday (t.toInt / 86400)
  addDays_eq : ∀ t n, Fits t.toInt → Fits (t.toInt + n.toInt * 86400) →
    (addDays t n).toInt = t.toInt + n.toInt * 86400

namespace GoTime

variable (T : GoTime)

/-- `isoWeekRange`, where all numbers have 64 bits. -/
def isoWeekRange (year week : ℤ) : Int64 × Int64 :=
  let jan4 := T.january year 4
  let weekday := if T.weekday jan4 = 0 then 7 else T.weekday jan4
  let weekOneMonday := T.addDays jan4 (Int64.ofInt (-(weekday - 1)))
  let start := T.addDays weekOneMonday ((Int64.ofInt week - 1) * 7)
  (start, T.addDays start 7)

/-- The instants of the range. -/
def span (y w : ℤ) : Set Instant :=
  {t | (T.isoWeekRange y w).1.toInt * 1000000000 ≤ t ∧
    t < (T.isoWeekRange y w).2.toInt * 1000000000}

/-- Arithmetic of 64 bits. -/
def wrapping : GoTime where
  january y d := Int64.ofInt ((newYear y + (d - 1)) * 86400)
  weekday t := Calendar.weekday (t.toInt / 86400)
  addDays t n := Int64.ofInt (t.toInt + n.toInt * 86400)
  january_eq y d h := by
    unfold Fits at h
    exact Int64.toInt_ofInt_of_le (by omega) (by omega)
  weekday_eq _ _ := rfl
  addDays_eq t n _ h := by
    unfold Fits at h
    exact Int64.toInt_ofInt_of_le (by omega) (by omega)

end GoTime

structure WeeklyReport (σ : Type*) where
  weekISO : List UInt8
  generatedAt : Instant
  summary : σ

/-- The report of a week, with a store that summarises a range of instants. -/
def generateWeekly {σ : Type*} (T : GoTime) (summariseRange : Int64 → Int64 → Except (List UInt8) σ)
    (clock : Instant) (year week : ℤ) : Except (List UInt8) (WeeklyReport σ) :=
  match summariseRange (T.isoWeekRange year week).1 (T.isoWeekRange year week).2 with
  | .error err => .error (bytes "summarise " ++ weekISO year week ++ bytes ": " ++ err)
  | .ok sum => .ok ⟨weekISO year week, clock, sum⟩

/-- The name under which a report is stored. -/
def objectKey (weekISO : List UInt8) : List UInt8 := bytes "week-" ++ weekISO ++ bytes ".html"

/-- A printed year has no week letter. -/
theorem notMem_printInt (v : ℤ) : 87 ∉ printInt v := by
  have hdecimal : 87 ∉ decimal v.natAbs := (isDecimal_decimal v.natAbs).notMem (by decide)
  unfold printInt
  split_ifs
  · exact fun hmem => hdecimal ((List.mem_cons.mp hmem).resolve_left (by decide))
  · exact hdecimal

/-- A printed week has no week letter. -/
theorem notMem_printTwo (v : ℤ) : 87 ∉ printTwo v := by
  unfold printTwo
  split_ifs
  · exact fun hmem => notMem_printInt v ((List.mem_cons.mp hmem).resolve_left (by decide))
  · exact notMem_printInt v

/-- The two digits of a week are read back. -/
theorem magnitude_printTwo {v : ℤ} (h : 0 ≤ v) : (magnitude (printTwo v) : ℤ) = v := by
  have hprint : magnitude (printInt v) = v.natAbs := by
    rw [printInt, if_neg (not_lt.mpr h), magnitude_decimal]
  have hzero : magnitude (48 :: printInt v) = magnitude (printInt v) := rfl
  unfold printTwo
  split_ifs
  · rw [hzero, hprint]
    exact Int.natAbs_of_nonneg h
  · rw [hprint]
    exact Int.natAbs_of_nonneg h

/-- Years printed alike are equal. -/
theorem printInt_injective : Function.Injective printInt := by
  intro v v' h
  have hminus : ∀ n : ℕ, 45 ∉ decimal n := fun n => (isDecimal_decimal n).notMem (by decide)
  have hnatAbs : ∀ {m n : ℕ}, decimal m = decimal n → m = n := fun {m n} heq => by
    rw [← magnitude_decimal m, heq, magnitude_decimal]
  unfold printInt at h
  split_ifs at h
  · have heq := hnatAbs (List.cons.inj h).2
    omega
  · exact absurd (h ▸ List.mem_cons_self) (hminus _)
  · exact absurd (h ▸ List.mem_cons_self) (hminus _)
  · have heq := hnatAbs h
    omega

/-- The label tells the year and the week. -/
theorem weekISO_inj {y w y' w' : ℤ} (hw : 0 ≤ w) (hw' : 0 ≤ w') :
    weekISO y w = weekISO y' w' ↔ y = y' ∧ w = w' := by
  have hsplit : ∀ y w, weekISO y w = (printInt y ++ [45]) ++ 87 :: printTwo w := fun y w => by
    rw [weekISO, show bytes "-W" = [45] ++ [87] from by decide, ← List.append_assoc,
      List.append_assoc, List.singleton_append]
  have hyear : (87 : UInt8) ∉ printInt y ++ [45] := by
    rw [List.mem_append, List.mem_singleton, not_or]
    exact ⟨notMem_printInt y, by decide⟩
  rw [hsplit, hsplit]
  constructor
  · intro h
    obtain ⟨hy, -, hweek⟩ := (List.append_cons_inj_of_notMem hyear (notMem_printTwo w)).mp h
    refine ⟨printInt_injective (List.append_cancel_right hy), ?_⟩
    rw [← magnitude_printTwo hw, hweek, magnitude_printTwo hw']
  · rintro ⟨rfl, rfl⟩
    rfl

/-- Reports with the same key are of the same week. -/
theorem objectKey_injective : Function.Injective objectKey := fun _ _ h =>
  List.append_cancel_left (List.append_cancel_right h)

/-! ## The range of a week that fits -/

namespace GoTime

variable (T : GoTime) {y w : ℤ}

/-- The Monday of the first week, in seconds. -/
theorem weekOneMonday_eq (hy : 0 ≤ y) (hend : (weekOne y + 7) * 86400 < 2 ^ 63) :
    (T.addDays (T.january y 4) (Int64.ofInt (-((if T.weekday (T.january y 4) = 0 then 7
      else T.weekday (T.january y 4)) - 1)))).toInt = weekOne y * 86400 := by
  have hyear := newYear_mono hy
  have hzero : newYear 0 = -719528 := by decide
  obtain ⟨hlow, hhigh⟩ := weekOne_bounds y
  have hfits : Fits ((newYear y + (4 - 1)) * 86400) := by
    unfold Fits
    omega
  have hjan := T.january_eq y 4 hfits
  have hweekday : T.weekday (T.january y 4) = Calendar.weekday (newYear y + 3) := by
    rw [T.weekday_eq _ (hjan ▸ hfits), hjan]
    exact congrArg _ (by omega)
  have hwalk : (if Calendar.weekday (newYear y + 3) = 0 then (7 : ℤ)
      else Calendar.weekday (newYear y + 3)) - 1 = newYear y + 3 - weekOne y := by
    unfold weekOne monday Calendar.weekday
    split_ifs <;> omega
  have hsmall : (Int64.ofInt (-(newYear y + 3 - weekOne y))).toInt = -(newYear y + 3 - weekOne y) :=
    Int64.toInt_ofInt_of_le (by omega) (by omega)
  rw [hweekday, hwalk, T.addDays_eq _ _ (hjan ▸ hfits) (by
    rw [hjan, hsmall]
    unfold Fits
    omega), hjan, hsmall]
  omega

/-- The range of a week that exists, if its end fits. -/
theorem isoWeekRange_eq (hy : 0 ≤ y) (h : ValidWeek y w)
    (hend : (weekStart y w + 7) * 86400 < 2 ^ 63) :
    (T.isoWeekRange y w).1.toInt = weekStart y w * 86400 ∧
      (T.isoWeekRange y w).2.toInt = (weekStart y w + 7) * 86400 := by
  obtain ⟨hone, hle⟩ := h
  have hweeks : weeksIn y ≤ 53 := by
    unfold weeksIn
    split_ifs <;> omega
  have hyear := newYear_mono hy
  have hzero : newYear 0 = -719528 := by decide
  obtain ⟨hlow, hhigh⟩ := weekOne_bounds y
  unfold weekStart at hend ⊢
  have hmonday := T.weekOneMonday_eq hy (by omega)
  have hoffset : ((Int64.ofInt w - 1) * 7).toInt = (w - 1) * 7 := by
    have hw : (Int64.ofInt w).toInt = w := Int64.toInt_ofInt_of_le (by omega) (by omega)
    rw [Int64.toInt_mul, Int64.toInt_sub, hw]
    show Int.bmod (Int.bmod (w - 1) (2 ^ 64) * 7) (2 ^ 64) = _
    rw [Int.bmod_eq_of_le (n := w - 1), Int.bmod_eq_of_le] <;> omega
  have hstart : (T.isoWeekRange y w).1.toInt = (weekOne y + 7 * (w - 1)) * 86400 := by
    show (T.addDays _ _).toInt = _
    rw [T.addDays_eq _ _ (by rw [hmonday]; unfold Fits; omega) (by
      rw [hmonday, hoffset]
      unfold Fits
      omega), hmonday, hoffset]
    omega
  refine ⟨hstart, ?_⟩
  have hseven : (7 : Int64).toInt = 7 := rfl
  show (T.addDays (T.isoWeekRange y w).1 7).toInt = _
  rw [T.addDays_eq _ _ (by rw [hstart]; unfold Fits; omega) (by
    rw [hstart, hseven]
    unfold Fits
    omega), hstart, hseven]
  omega

/-- Before the seconds of `time.Date` wrap, the span of Go is that of the calendar. -/
theorem mem_span_iff (hy : 0 ≤ y) (h : ValidWeek y w)
    (hend : (weekStart y w + 7) * 86400 < 2 ^ 63) {t : Instant} :
    t ∈ T.span y w ↔ t ∈ Reports.span y w := by
  obtain ⟨hfirst, hlast⟩ := T.isoWeekRange_eq hy h hend
  have hday : day = 86400 * 1000000000 := by decide
  rw [span, Reports.span, Set.mem_ofPred_eq, Set.mem_ofPred_eq, hfirst, hlast,
    Reports.isoWeekRange_eq, hday, mul_assoc, mul_assoc]

/-- No range reaches the end of a week that does not fit. -/
theorem last_notMem_span (hend : 2 ^ 63 ≤ (weekStart y w + 7) * 86400) :
    (weekStart y w + 7) * day - 1 ∉ T.span y w := by
  rintro ⟨-, hmem⟩
  have hlast : (weekStart y w + 7) * day - 1 < (T.isoWeekRange y w).2.toInt * 1000000000 := hmem
  have hlt := (T.isoWeekRange y w).2.toInt_lt
  have hday : day = 86400 * 1000000000 := by decide
  rw [hday, ← mul_assoc] at hlast
  omega

end GoTime

section

variable {σ : Type*} (T : GoTime) (summariseRange : Int64 → Int64 → Except (List UInt8) σ)
  (clock : Instant)

/-- The week exists, and its label and object key, which are those of its report, denote the
instants that the report covers. -/
structure Denotes (y w : ℤ) : Prop where
  valid : ValidWeek y w
  labelled : ∀ rep, generateWeekly T summariseRange clock y w = .ok rep →
    rep.weekISO = weekISO y w
  label : ∀ t : Instant, t ∈ T.span y w ↔ weekISO t.isoWeek.1 t.isoWeek.2 = weekISO y w
  key : ∀ t : Instant, t ∈ T.span y w ↔
    objectKey (weekISO t.isoWeek.1 t.isoWeek.2) = objectKey (weekISO y w)

/-- A report carries the week that it was asked for. -/
theorem weekISO_generateWeekly {y w : ℤ} {rep : WeeklyReport σ}
    (h : generateWeekly T summariseRange clock y w = .ok rep) : rep.weekISO = weekISO y w := by
  unfold generateWeekly at h
  split at h
  · cases h
  · rw [← Except.ok.inj h]

/-- The label of a week that exists is that of its instants. -/
theorem weekISO_eq_iff {y w : ℤ} (h : ValidWeek y w) {t : Instant} :
    weekISO t.isoWeek.1 t.isoWeek.2 = weekISO y w ↔ t ∈ span y w := by
  have hvalid : ValidWeek t.isoWeek.1 t.isoWeek.2 := validWeek_iso (t / day)
  rw [mem_span_iff, weekISO_inj (le_trans Int.one_nonneg hvalid.1) (le_trans Int.one_nonneg h.1)]
  exact iso_eq_iff h

/-- **A week denotes its instants** exactly when it exists and its end fits. -/
theorem denotes_iff {y w : ℤ} (hy : 0 ≤ y) :
    Denotes T summariseRange clock y w ↔
      ValidWeek y w ∧ (weekStart y w + 7) * 86400 < 2 ^ 63 := by
  constructor
  · intro h
    refine ⟨h.valid, not_le.mp fun hend => T.last_notMem_span hend ((h.label _).mpr ?_)⟩
    rw [weekISO_eq_iff h.valid, mem_span_iff]
    rw [Int.le_ediv_iff_mul_le day_pos, Int.ediv_lt_iff_lt_mul day_pos]
    have hpos := day_pos
    have hsplit : (weekStart y w + 7) * day = weekStart y w * day + 7 * day := add_mul _ _ _
    constructor <;> omega
  · rintro ⟨hvalid, hend⟩
    have hlabel : ∀ t : Instant,
        t ∈ T.span y w ↔ weekISO t.isoWeek.1 t.isoWeek.2 = weekISO y w := fun t => by
      rw [weekISO_eq_iff hvalid, T.mem_span_iff hy hvalid hend]
    exact ⟨hvalid, fun rep => weekISO_generateWeekly T summariseRange clock, hlabel,
      fun t => (hlabel t).trans objectKey_injective.eq_iff.symm⟩

/-- **When an accepted text denotes a week.**  The week that `resolveWeek` returns
exists, and its report is labelled with the week it covers, if and only if in a text
of two counts around a hyphen the second is a week of the year that is the first, and the
seconds since 1970 until its end are fewer than `2 ^ 63`. -/
theorem resolveWeek_denotes_iff (h : UpperCase toUpper) (spec : List UInt8) (hne : spec ≠ [])
    (now : Instant) :
    (∀ y w, resolveWeek toUpper spec now = .ok (y, w) →
      Denotes T summariseRange clock y w) ↔
      ∀ a b, ∀ m n : ℕ, withoutW spec = a ++ 45 :: b → IsCount a m → IsCount b n →
        1 ≤ n ∧ (n : ℤ) ≤ weeksIn m ∧ (weekStart m n + 7) * 86400 < 2 ^ 63 := by
  constructor
  · intro hdenotes a b m n hspec ha hb
    obtain ⟨⟨hone, hle⟩, hend⟩ := (denotes_iff T summariseRange clock (Int.natCast_nonneg m)).mp
      (hdenotes m n ((resolveWeek_eq_ok_iff h hne now).mpr ⟨a, b, m, n, hspec, ha, hb, rfl, rfl⟩))
    exact ⟨by omega, hle, hend⟩
  · intro hcounts y w hok
    obtain ⟨a, b, m, n, hspec, ha, hb, rfl, rfl⟩ := (resolveWeek_eq_ok_iff h hne now).mp hok
    obtain ⟨hone, hle, hend⟩ := hcounts a b m n hspec ha hb
    exact (denotes_iff T summariseRange clock (Int.natCast_nonneg m)).mpr
      ⟨⟨by omega, hle⟩, hend⟩

end

/-- The text of a week that exists. -/
theorem resolveWeek_denotes_iff_w20 :
    (∀ y w, resolveWeek (List.map upperByte) (bytes "2026-w20") 0 = .ok (y, w) →
        Denotes .wrapping (fun _ _ => .ok ()) 0 y w) ↔
      ∀ a b, ∀ m n : ℕ, withoutW (bytes "2026-w20") = a ++ 45 :: b → IsCount a m → IsCount b n →
        1 ≤ n ∧ (n : ℤ) ≤ weeksIn m ∧ (weekStart m n + 7) * 86400 < 2 ^ 63 :=
  resolveWeek_denotes_iff .wrapping (fun _ _ => .ok ()) 0 upperCase_map_upperByte _ (by decide) 0

/-- No year has a week 99. -/
theorem not_denotes_week99 :
    ¬ ∀ y w, resolveWeek (List.map upperByte) (bytes "2026-99") 0 = .ok (y, w) →
      Denotes .wrapping (fun _ _ => .ok ()) 0 y w := by
  intro h
  have hweek : ValidWeek 2026 99 := (h 2026 99 (by decide)).valid
  exact absurd hweek (by decide)

end Reports
