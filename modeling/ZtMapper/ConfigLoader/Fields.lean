/-
# The lines of a configuration

What one step of the loader does on a blank line, and on a line that holds a key
and a value (`Field`).
-/
import ZtMapper.ConfigLoader.LoadConfig

open Engine Scan

namespace ConfigLoader

/-- A text that can be a value: nothing would be trimmed off, and it starts no
comment and no new line. -/
structure Scalar (s : List UInt8) : Prop where
  trimmed : Trimmed isStripped s
  no_comment : 35 ∉ s
  no_break : 10 ∉ s

instance (s : List UInt8) : Decidable (Scalar s) :=
  decidable_of_iff (Trimmed isStripped s ∧ 35 ∉ s ∧ 10 ∉ s)
    ⟨fun h => ⟨h.1, h.2.1, h.2.2⟩, fun h => ⟨h.1, h.2, h.3⟩⟩

/-- The text is the decimal numeral of the value. -/
def IsInt (s : List UInt8) (v : Int32) : Prop :=
  ∃ digits n, IsDecimal digits n ∧
    ((s = digits ∧ v.toInt = n) ∨ (s = 45 :: digits ∧ v.toInt = -(n : ℤ)))

/-- Nothing but blanks, quotes and a comment. -/
def Blank (line : List UInt8) : Prop := strip (stripComment line) = []

instance (line : List UInt8) : Decidable (Blank line) := inferInstanceAs (Decidable (_ = _))

/-- The line holds the key and the value, maybe with blanks or quotes around the value
and a comment after it. -/
structure Field (line : List UInt8) (indent : ℕ) (key value : List UInt8) : Prop where
  trimmed_key : Trimmed isStripped key
  colon_notMem : 58 ∉ key
  hash_notMem : 35 ∉ key
  trimmed_value : Trimmed isStripped value
  hash_notMem_value : 35 ∉ value
  eq : ∃ left right comment,
    line = List.replicate indent 32 ++ (key ++ 58 :: (left ++ (value ++ right))) ++ comment ∧
      (∀ b ∈ left, isStripped b = true) ∧ (∀ b ∈ right, isStripped b = true) ∧
      ∀ b ∈ comment.head?, b = 35

namespace Field

variable {line key value : List UInt8} {indent : ℕ}

/-- Text that is all stripped has no byte that is not. -/
theorem notMem_of_isStripped {t : List UInt8} (ht : ∀ b ∈ t, isStripped b = true) {a : UInt8}
    (ha : isStripped a = false) : a ∉ t := by
  intro hmem
  rw [ht a hmem] at ha
  cases ha

/-- The comment goes. -/
theorem stripComment_append {t comment : List UInt8} (ht : 35 ∉ t)
    (hcomment : ∀ b ∈ comment.head?, b = 35) : stripComment (t ++ comment) = t := by
  refine takeWhile_eq_iff.mpr ⟨comment, rfl, fun b hb => decide_eq_true fun h => ht (h ▸ hb),
    fun b hb => ?_⟩
  rw [hcomment b hb]
  rfl

/-- The indentation is the number of leading blanks. -/
theorem indentOf_replicate {t : List UInt8} (ht : ∀ b ∈ t.head?, b ≠ 32) :
    indentOf (List.replicate indent 32 ++ t) = indent := by
  have htake : (List.replicate indent 32 ++ t).takeWhile (fun b : UInt8 => b = 32)
      = List.replicate indent 32 :=
    takeWhile_eq_iff.mpr ⟨t, rfl, fun b hb => decide_eq_true (List.eq_of_mem_replicate hb),
      fun b hb => decide_eq_false (ht b hb)⟩
  rw [indentOf, htake, List.length_replicate]

/-- A key with its colon starts with something that is kept. -/
theorem head?_key (hkey : Trimmed isStripped key) (t : List UInt8) :
    ∀ b ∈ (key ++ 58 :: t).head?, isStripped b = false := by
  intro b hb
  cases key with
  | nil =>
    obtain rfl : (58 : UInt8) = b := Option.some.inj hb
    rfl
  | cons c key => exact hkey.head b hb

/-- The line of a list entry is known by its key. -/
theorem head?_eq_dash_iff {t : List UInt8} :
    (key ++ 58 :: t).head? = some 45 ↔ key.head? = some 45 := by
  cases key with
  | nil => simp
  | cons b key => rfl

/-- What the trimmed line is. -/
theorem exists_trimmed (h : Field line indent key value) :
    ∃ t, strip t = value ∧ strip (stripComment line) = key ++ 58 :: t ∧
      indentOf (stripComment line) = indent := by
  obtain ⟨left, right, comment, rfl, hleft, hright, hcomment⟩ := h.eq
  have hspaces : ∀ b ∈ List.replicate indent (32 : UInt8), isStripped b = true := by
    intro b hb
    rw [List.eq_of_mem_replicate hb]
    rfl
  have hhash : 35 ∉ List.replicate indent 32 ++ (key ++ 58 :: (left ++ (value ++ right))) := by
    have hl := notMem_of_isStripped hleft (a := 35) (by decide)
    have hr := notMem_of_isStripped hright (a := 35) (by decide)
    have hsp := notMem_of_isStripped hspaces (a := 35) (by decide)
    simp [hl, hr, hsp, h.hash_notMem, h.hash_notMem_value]
  rw [stripComment_append hhash hcomment]
  have hindent : indentOf (List.replicate indent 32 ++ (key ++ 58 :: (left ++ (value ++ right))))
      = indent := by
    refine indentOf_replicate fun b hb => ?_
    rintro rfl
    exact absurd (head?_key h.trimmed_key _ 32 hb) (by decide)
  by_cases hvalue : value = []
  · -- the blanks after the colon go with the end of the line
    refine ⟨[], by rw [hvalue]; rfl, ?_, hindent⟩
    subst hvalue
    have hline : key ++ 58 :: (left ++ ([] ++ right)) = (key ++ [58]) ++ (left ++ right) := by simp
    rw [hline]
    refine trim_append hspaces ⟨head?_key h.trimmed_key [], fun b hb => ?_⟩ fun b hb => ?_
    · rw [List.getLast?_concat] at hb
      obtain rfl := Option.some.inj hb
      rfl
    · exact (List.mem_append.mp hb).elim (hleft b) (hright b)
  · have ht := trim_append hleft h.trimmed_value (r := []) (by simp)
    rw [List.append_nil] at ht
    refine ⟨left ++ value, ht, ?_, hindent⟩
    have hline : key ++ 58 :: (left ++ (value ++ right)) = (key ++ 58 :: (left ++ value)) ++ right := by
      simp
    rw [hline]
    refine trim_append hspaces ⟨head?_key h.trimmed_key _, fun b hb => ?_⟩ hright
    rw [← List.singleton_append, ← List.append_assoc, ← List.append_assoc,
      List.getLast?_append_of_ne_nil _ hvalue] at hb
    exact h.trimmed_value.last b hb

/-- The key of a field is what stands before the colon. -/
theorem extractKey_eq (h : Field line indent key value) (t : List UInt8) :
    extractKey (key ++ 58 :: t) = key := by
  have htake : (key ++ 58 :: t).takeWhile (fun b => b ≠ 58) = key :=
    takeWhile_eq_iff.mpr ⟨58 :: t, rfl,
      fun b hb => decide_eq_true fun heq => h.colon_notMem (heq ▸ hb), by simp⟩
  rw [extractKey, htake]
  exact trim_of_trimmed h.trimmed_key

/-- The value of a field is what stands after the first colon. -/
theorem afterFirst_colon (h : Field line indent key value) (t : List UInt8) :
    afterFirst [58] (key ++ 58 :: t) = some t := by
  have hfirst : afterFirst [58] (key ++ 58 :: t) = afterFirst [58] (58 :: t) :=
    afterFirst_append_of_notMem h.colon_notMem (58 :: t)
  rw [hfirst, afterFirst, if_pos ⟨t, rfl⟩]
  rfl

/-- **The step on a field** gets its key, its value and its indentation. -/
theorem step (h : Field line indent key value) (s : Loader) :
    ∃ t, strip t = value ∧ s.step line = s.dispatch indent (key ++ 58 :: t) key value := by
  obtain ⟨t, ht, htrimmed, hindent⟩ := h.exists_trimmed
  refine ⟨t, ht, ?_⟩
  have hvalue : extractValue (key ++ 58 :: t) = value := by
    rw [extractValue, h.afterFirst_colon t]
    exact ht
  unfold Loader.step
  dsimp only
  rw [htrimmed, if_neg (by simp), hindent, h.extractKey_eq t, hvalue]

/-- A field is no blank line. -/
theorem not_blank (h : Field line indent key value) : ¬ Blank line := by
  obtain ⟨t, -, htrimmed, -⟩ := h.exists_trimmed
  intro hblank
  rw [Blank, htrimmed] at hblank
  exact absurd hblank (by simp)

end Field

/-- A blank line changes nothing. -/
theorem Blank.step {line : List UInt8} (h : Blank line) (s : Loader) : s.step line = .ok s :=
  if_pos h

/-- Blank lines can be left out. -/
theorem foldlM_filter (lines : List (List UInt8)) (s : Loader) :
    (lines.filter fun line => ¬ Blank line).foldlM Loader.step s = lines.foldlM Loader.step s := by
  induction lines generalizing s with
  | nil => rfl
  | cons line lines ih =>
    by_cases hblank : Blank line
    · rw [List.filter_cons_of_neg (by simpa using hblank), ih, List.foldlM_cons, hblank.step]
      rfl
    · rw [List.filter_cons_of_pos (by simpa using hblank), List.foldlM_cons, List.foldlM_cons]
      exact bind_congr fun s => ih s

/-! ## Values and lines as they are written -/

/-- `stoi` reads a printed `int`. -/
theorem stoi32_of_isInt {s : List UInt8} {v : Int32} (h : IsInt s v) : stoi32 s = .ok v := by
  obtain ⟨digits, n, hdigits, hs⟩ := h
  have hlo := v.le_toInt
  have hhi := v.toInt_lt
  have hstoi : stoi s = .ok v.toInt := by
    rw [stoi_eq_ok_iff]
    rcases hs with ⟨rfl, hv⟩ | ⟨rfl, hv⟩
    · exact ⟨false, n, hdigits.isNumeral, hv, by rw [intMax]; omega, by rw [intMax]; omega⟩
    · refine ⟨true, n, ⟨[], [45], digits, [], by simp, by simp, Or.inl ⟨rfl, rfl⟩, hdigits.ne_nil,
        hdigits.digits, by simp, hdigits.magnitude_eq⟩, hv, ?_⟩
      rw [intMax]
      omega
  rw [stoi32, hstoi]
  show Except.ok (Int32.ofInt v.toInt) = _
  rw [Int32.ofInt_toInt]

/-- An `int` as it is printed. -/
def printInt (v : Int32) : List UInt8 :=
  if v.toInt < 0 then 45 :: decimal v.toInt.natAbs else decimal v.toInt.natAbs

/-- A printed `int` is one. -/
theorem isInt_printInt (v : Int32) : IsInt (printInt v) v := by
  refine ⟨decimal v.toInt.natAbs, v.toInt.natAbs, isDecimal_decimal _, ?_⟩
  by_cases hneg : v.toInt < 0
  · exact Or.inr ⟨if_pos hneg, by omega⟩
  · exact Or.inl ⟨if_neg hneg, by omega⟩

/-- A text of visible characters. -/
theorem scalar_of_forall {s : List UInt8} (h : ∀ b ∈ s, isStripped b = false ∧ b ≠ 35) :
    Scalar s := by
  refine ⟨⟨fun b hb => (h b (List.mem_of_mem_head? hb)).1, fun b hb =>
    (h b (List.mem_of_mem_getLast? hb)).1⟩, fun hmem => (h 35 hmem).2 rfl, fun hmem => ?_⟩
  exact absurd (h 10 hmem).1 (by decide)

/-- A digit is neither stripped nor a comment sign. -/
theorem visible_of_isDigit {b : UInt8} (hb : isDigit b = true) : isStripped b = false ∧ b ≠ 35 := by
  refine ⟨Bool.eq_false_iff.mpr fun h => ?_, ?_⟩
  · simp only [isStripped, Bool.or_eq_true, decide_eq_true_eq] at h
    rcases h with (((rfl | rfl) | rfl) | rfl) | rfl <;> cases hb
  · rintro rfl
    cases hb

/-- A count needs no quotes. -/
theorem scalar_decimal (n : ℕ) : Scalar (decimal n) :=
  scalar_of_forall fun _ hb => visible_of_isDigit (isDigit_of_mem_decimal hb)

/-- An `int` needs no quotes. -/
theorem scalar_printInt (v : Int32) : Scalar (printInt v) := by
  unfold printInt
  split_ifs
  · refine scalar_of_forall (List.forall_mem_cons.mpr ⟨by decide, fun b hb => ?_⟩)
    exact visible_of_isDigit (isDigit_of_mem_decimal hb)
  · exact scalar_decimal _

/-- `key: value` -/
def plainLine (indent : ℕ) (key value : List UInt8) : List UInt8 :=
  List.replicate indent 32 ++ (key ++ 58 :: 32 :: value)

/-- `key: "value"` -/
def quotedLine (indent : ℕ) (key value : List UInt8) : List UInt8 :=
  List.replicate indent 32 ++ (key ++ 58 :: 32 :: 34 :: (value ++ [34]))

/-- `key:` -/
def keyLine (indent : ℕ) (key : List UInt8) : List UInt8 :=
  List.replicate indent 32 ++ (key ++ [58])

/-- A text that can be a key. -/
structure IsKey (key : List UInt8) : Prop where
  scalar : Scalar key
  colon_notMem : 58 ∉ key

instance (key : List UInt8) : Decidable (IsKey key) :=
  decidable_of_iff (Scalar key ∧ 58 ∉ key) ⟨fun h => ⟨h.1, h.2⟩, fun h => ⟨h.1, h.2⟩⟩

section Written

variable {key value : List UInt8} {indent : ℕ}

/-- A line with a bare value is a field. -/
theorem field_plainLine (hkey : IsKey key) (hvalue : Scalar value) :
    Field (plainLine indent key value) indent key value :=
  ⟨hkey.scalar.trimmed, hkey.colon_notMem, hkey.scalar.no_comment, hvalue.trimmed,
    hvalue.no_comment, [32], [], [], by simp [plainLine], by simp [isStripped], by simp, by simp⟩

/-- A line with a quoted value is a field of the same value. -/
theorem field_quotedLine (hkey : IsKey key) (hvalue : Scalar value) :
    Field (quotedLine indent key value) indent key value :=
  ⟨hkey.scalar.trimmed, hkey.colon_notMem, hkey.scalar.no_comment, hvalue.trimmed,
    hvalue.no_comment, [32, 34], [34], [], by simp [quotedLine], by simp [isStripped],
    by simp [isStripped], by simp⟩

/-- A line with a key alone is a field of the empty value. -/
theorem field_keyLine (hkey : IsKey key) : Field (keyLine indent key) indent key [] :=
  ⟨hkey.scalar.trimmed, hkey.colon_notMem, hkey.scalar.no_comment, Trimmed.nil, by simp, [], [],
    [], by simp [keyLine], by simp, by simp, by simp⟩

/-- A bare line has no line break. -/
theorem notMem_plainLine (hkey : IsKey key) (hvalue : Scalar value) :
    10 ∉ plainLine indent key value := by
  simp [plainLine, hkey.scalar.no_break, hvalue.no_break, List.mem_replicate]

/-- A quoted line has no line break. -/
theorem notMem_quotedLine (hkey : IsKey key) (hvalue : Scalar value) :
    10 ∉ quotedLine indent key value := by
  simp [quotedLine, hkey.scalar.no_break, hvalue.no_break, List.mem_replicate]

/-- A key line has no line break. -/
theorem notMem_keyLine (hkey : IsKey key) : 10 ∉ keyLine indent key := by
  simp [keyLine, hkey.scalar.no_break, List.mem_replicate]

end Written

/-! ## Texts -/

/-- The text of the lines. -/
def unlines (lines : List (List UInt8)) : List UInt8 := lines.flatMap fun line => line ++ [10]

/-- **Lines are read back as written.** -/
theorem pieces_unlines {lines : List (List UInt8)} (h : ∀ line ∈ lines, 10 ∉ line) :
    pieces 10 (unlines lines) = lines := by
  induction lines with
  | nil => rfl
  | cons line lines ih =>
    rw [List.forall_mem_cons] at h
    rw [unlines, List.flatMap_cons, List.append_assoc, List.singleton_append,
      pieces_append_cons h.1]
    exact congrArg (line :: ·) (ih h.2)

end ConfigLoader
