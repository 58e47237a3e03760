/-
# Scanning texts

What string searches and number conversions read off the front of a list of
bytes, as functions and as decompositions of the list:

* `afterFirst pat s` : what follows the first occurrence of `pat` in `s`;
* `pieces delim s` : what successive reads up to a delimiter extract;
* `strtol s` : the sign and the magnitude of the decimal number at the front of
  `s`, after white space, as the C function of this name reads it.
-/
import Mathlib.Data.List.Basic
import Mathlib.Data.List.TakeWhile
import Mathlib.Tactic.Common

namespace Scan

/-! ## Searching -/

section Search

variable {α : Type*} {pat : List α} {s rest : List α}

/-- What follows the first occurrence of `pat`. -/
def afterFirst [DecidableEq α] (pat : List α) : List α → Option (List α)
  | [] => if pat = [] then some [] else none
  | b :: s => if pat <+: b :: s then some ((b :: s).drop pat.length) else afterFirst pat s

/-- `before` ends where `pat` first occurs in `s`. -/
structure FirstAt (pat s before after : List α) : Prop where
  eq : s = before ++ (pat ++ after)
  first : ∀ before' after', s = before' ++ (pat ++ after') → before.length ≤ before'.length

theorem FirstAt.nil_iff {before after : List α} :
    FirstAt pat [] before after ↔ pat = [] ∧ before = [] ∧ after = [] := by
  constructor
  · rintro ⟨heq, -⟩
    simpa [eq_comm, and_left_comm] using heq
  · rintro ⟨rfl, rfl, rfl⟩
    exact ⟨rfl, fun _ _ _ => Nat.zero_le _⟩

theorem FirstAt.cons_iff {b : α} {before after : List α} :
    FirstAt pat (b :: s) before after ↔
      (before = [] ∧ b :: s = pat ++ after) ∨
      (¬ pat <+: b :: s ∧ ∃ before', before = b :: before' ∧ FirstAt pat s before' after) := by
  constructor
  · rintro ⟨heq, hfirst⟩
    cases before with
    | nil => exact Or.inl ⟨rfl, heq⟩
    | cons c before =>
      obtain ⟨rfl, hs⟩ := List.cons.inj heq
      refine Or.inr ⟨?_, before, rfl, hs, fun before' after' h => ?_⟩
      · rintro ⟨after', h⟩
        exact absurd (hfirst [] after' h.symm) (by simp)
      · have hle := hfirst (b :: before') after' (by rw [h, List.cons_append])
        simpa using hle
  · rintro (⟨rfl, h⟩ | ⟨hnot, before', rfl, heq, hfirst⟩)
    · exact ⟨h, fun _ _ _ => Nat.zero_le _⟩
    · refine ⟨by rw [heq, List.cons_append], fun before'' after'' h => ?_⟩
      cases before'' with
      | nil => exact absurd ⟨after'', h.symm⟩ hnot
      | cons c before'' =>
        obtain ⟨-, hs⟩ := List.cons.inj h
        exact Nat.succ_le_succ (hfirst before'' after'' hs)

/-- What occurs has a first occurrence. -/
theorem exists_firstAt [DecidableEq α] {b a : List α} (h : s = b ++ (pat ++ a)) :
    ∃ before after, FirstAt pat s before after := by
  induction b generalizing s with
  | nil => exact ⟨[], a, h, fun _ _ _ => Nat.zero_le _⟩
  | cons c b ih =>
    subst h
    by_cases hpat : pat <+: c :: (b ++ (pat ++ a))
    · obtain ⟨after, hafter⟩ := hpat
      exact ⟨[], after, hafter.symm, fun _ _ _ => Nat.zero_le _⟩
    · obtain ⟨before, after, hfirst⟩ := ih rfl
      exact ⟨c :: before, after, FirstAt.cons_iff.mpr (Or.inr ⟨hpat, before, rfl, hfirst⟩)⟩

/-- There is one first occurrence. -/
theorem FirstAt.unique {before after before' after' : List α} (h : FirstAt pat s before after)
    (h' : FirstAt pat s before' after') : before = before' ∧ after = after' := by
  have hlength := le_antisymm (h.first _ _ h'.eq) (h'.first _ _ h.eq)
  obtain ⟨hbefore, hrest⟩ := List.append_inj (h.eq.symm.trans h'.eq) hlength
  exact ⟨hbefore, List.append_cancel_left hrest⟩

/-- What follows the first occurrence does not matter. -/
theorem FirstAt.replace {before after : List α} (h : FirstAt pat s before after) (after' : List α) :
    FirstAt pat (before ++ (pat ++ after')) before after' := by
  refine ⟨rfl, fun b a heq => ?_⟩
  by_contra hlt
  have hprefix : b ++ pat <+: before ++ pat := by
    refine List.prefix_of_prefix_length_le ⟨a, by rw [heq, List.append_assoc]⟩
      ⟨after', List.append_assoc ..⟩ ?_
    rw [List.length_append, List.length_append]
    omega
  obtain ⟨t, ht⟩ := hprefix
  have hs : s = b ++ (pat ++ (t ++ after)) := by
    rw [h.eq, ← List.append_assoc, ← ht]
    simp only [List.append_assoc]
  exact hlt (h.first b _ hs)

/-- **The search finds the first occurrence.** -/
theorem afterFirst_eq_some_iff [DecidableEq α] :
    afterFirst pat s = some rest ↔ ∃ before, FirstAt pat s before rest := by
  induction s with
  | nil =>
    rw [afterFirst]
    by_cases h : pat = []
    · simp [h, FirstAt.nil_iff, eq_comm]
    · simp [h, FirstAt.nil_iff]
  | cons b s ih =>
    rw [afterFirst]
    by_cases h : pat <+: b :: s
    · rw [if_pos h]
      obtain ⟨after, hafter⟩ := h
      constructor
      · intro hrest
        refine ⟨[], FirstAt.cons_iff.mpr (Or.inl ⟨rfl, ?_⟩)⟩
        rw [← Option.some.inj hrest, ← hafter, List.drop_left]
      · rintro ⟨before, hbefore⟩
        rcases FirstAt.cons_iff.mp hbefore with ⟨-, heq⟩ | ⟨hnot, -⟩
        · rw [heq, List.drop_left]
        · exact absurd ⟨after, hafter⟩ hnot
    · rw [if_neg h, ih]
      constructor
      · rintro ⟨before, hbefore⟩
        exact ⟨b :: before, FirstAt.cons_iff.mpr (Or.inr ⟨h, before, rfl, hbefore⟩)⟩
      · rintro ⟨before, hbefore⟩
        rcases FirstAt.cons_iff.mp hbefore with ⟨-, heq⟩ | ⟨-, before', -, hbefore'⟩
        · exact absurd ⟨rest, heq.symm⟩ h
        · exact ⟨before', hbefore'⟩

theorem afterFirst_singleton_eq_none_iff [DecidableEq α] {a : α} :
    afterFirst [a] s = none ↔ a ∉ s := by
  induction s with
  | nil => simp [afterFirst]
  | cons b s ih =>
    rw [afterFirst, List.mem_cons, not_or, ← ih]
    by_cases hab : a = b
    · simp [hab]
    · simp [hab]

/-- The successive pieces up to a delimiter.  A delimiter at the end starts no
further piece. -/
def pieces [DecidableEq α] (delim : α) : List α → List (List α)
  | [] => []
  | b :: s =>
    if b = delim then [] :: pieces delim s
    else match pieces delim s with
      | [] => [[b]]
      | piece :: rest => (b :: piece) :: rest

end Search

/-- The longest prefix with a property, as a decomposition. -/
theorem takeWhile_eq_iff {α : Type*} {p : α → Bool} {s t : List α} :
    s.takeWhile p = t ↔
      ∃ rest, s = t ++ rest ∧ (∀ b ∈ t, p b = true) ∧ ∀ b ∈ rest.head?, p b = false := by
  constructor
  · rintro rfl
    refine ⟨s.dropWhile p, List.takeWhile_append_dropWhile.symm, fun b hb =>
      List.mem_takeWhile_imp hb, fun b hb => ?_⟩
    have hne : s.dropWhile p ≠ [] := fun h => by simp [h] at hb
    have hhead := List.head_dropWhile_not p hne
    rw [List.head?_eq_some_head hne, Option.mem_some_iff] at hb
    rwa [hb] at hhead
  · rintro ⟨rest, rfl, hall, hhead⟩
    rw [List.takeWhile_append_of_pos hall]
    cases rest with
    | nil => simp
    | cons b rest =>
      rw [List.takeWhile_cons_of_neg (by simpa using hhead b rfl), List.append_nil]

/-- What is left after the longest prefix with a property. -/
theorem dropWhile_eq_iff {α : Type*} {p : α → Bool} {s rest : List α} :
    s.dropWhile p = rest ↔
      ∃ t, s = t ++ rest ∧ (∀ b ∈ t, p b = true) ∧ ∀ b ∈ rest.head?, p b = false := by
  constructor
  · rintro rfl
    obtain ⟨rest, hs, hall, hhead⟩ := takeWhile_eq_iff.mp (rfl : s.takeWhile p = s.takeWhile p)
    have hrest : s.dropWhile p = rest :=
      List.append_cancel_left (List.takeWhile_append_dropWhile.trans hs)
    exact ⟨s.takeWhile p, by rwa [hrest], hall, by rwa [hrest]⟩
  · rintro ⟨t, rfl, hall, hhead⟩
    rw [List.dropWhile_append_of_pos hall]
    cases rest with
    | nil => simp
    | cons b rest => rw [List.dropWhile_cons_of_neg (by simpa using hhead b rfl)]

/-- Properties that agree on a list cut it at the same place. -/
theorem span_congr {α : Type*} {p q : α → Bool} {s : List α} (h : ∀ b ∈ s, p b = q b) :
    s.takeWhile p = s.takeWhile q ∧ s.dropWhile p = s.dropWhile q := by
  induction s with
  | nil => exact ⟨rfl, rfl⟩
  | cons b s ih =>
    rw [List.forall_mem_cons] at h
    obtain ⟨htake, hdrop⟩ := ih h.2
    rw [List.takeWhile_cons, List.takeWhile_cons, List.dropWhile_cons, List.dropWhile_cons, h.1,
      htake, hdrop]
    exact ⟨rfl, rfl⟩

/-! ## Decimal numbers -/

/-- The bytes `isspace` accepts in the `C` locale. -/
def isSpace (b : UInt8) : Bool := b = 32 || (9 ≤ b && b ≤ 13)

def isDigit (b : UInt8) : Bool := 48 ≤ b && b ≤ 57

/-- The number a list of decimal digits stands for. -/
def magnitude (digits : List UInt8) : ℕ :=
  digits.foldl (fun n b => 10 * n + (b.toNat - 48)) 0

/-- An optional sign: whether it is a minus, and what follows it. -/
def splitSign : List UInt8 → Bool × List UInt8
  | [] => (false, [])
  | b :: s => if b = 45 then (true, s) else if b = 43 then (false, s) else (false, b :: s)

/-- The sign and the magnitude of the number at the front of a text, or none when
there are no digits. -/
def strtol (s : List UInt8) : Option (Bool × ℕ) :=
  let (neg, s) := splitSign (s.dropWhile isSpace)
  let digits := s.takeWhile isDigit
  if digits = [] then none else some (neg, magnitude digits)

/-- The text is white space, an optional sign, digits of the value `n`, and
anything that does not start with a digit. -/
def IsNumeral (s : List UInt8) (neg : Bool) (n : ℕ) : Prop :=
  ∃ spaces sign digits rest, s = spaces ++ (sign ++ (digits ++ rest)) ∧
    (∀ b ∈ spaces, isSpace b = true) ∧
    ((sign = [45] ∧ neg = true) ∨ ((sign = [43] ∨ sign = []) ∧ neg = false)) ∧
    digits ≠ [] ∧ (∀ b ∈ digits, isDigit b = true) ∧ (∀ b ∈ rest.head?, isDigit b = false) ∧
    magnitude digits = n

/-- A text that starts with a digit has no sign. -/
theorem splitSign_of_digit {b : UInt8} (h : isDigit b = true) (s : List UInt8) :
    splitSign (b :: s) = (false, b :: s) := by
  rw [splitSign, if_neg, if_neg]
  · rintro rfl
    exact absurd h (by decide)
  · rintro rfl
    exact absurd h (by decide)

/-- The sign is split off. -/
theorem splitSign_append {sign digits rest : List UInt8} {neg : Bool}
    (hsign : (sign = [45] ∧ neg = true) ∨ ((sign = [43] ∨ sign = []) ∧ neg = false))
    (hne : digits ≠ []) (hdigits : ∀ b ∈ digits, isDigit b = true) :
    splitSign (sign ++ (digits ++ rest)) = (neg, digits ++ rest) := by
  rcases hsign with ⟨rfl, rfl⟩ | ⟨rfl | rfl, rfl⟩
  · rfl
  · rfl
  · cases digits with
    | nil => exact absurd rfl hne
    | cons b digits => exact splitSign_of_digit (hdigits b List.mem_cons_self) _

/-- What `splitSign` splits off is a sign. -/
theorem exists_sign (s : List UInt8) :
    ∃ sign, s = sign ++ (splitSign s).2 ∧ ((sign = [45] ∧ (splitSign s).1 = true) ∨
      ((sign = [43] ∨ sign = []) ∧ (splitSign s).1 = false)) := by
  cases s with
  | nil => exact ⟨[], rfl, Or.inr ⟨Or.inr rfl, rfl⟩⟩
  | cons b s =>
    rw [splitSign]
    by_cases hminus : b = 45
    · subst hminus
      exact ⟨[45], rfl, Or.inl ⟨rfl, rfl⟩⟩
    · rw [if_neg hminus]
      by_cases hplus : b = 43
      · subst hplus
        exact ⟨[43], rfl, Or.inr ⟨Or.inl rfl, rfl⟩⟩
      · rw [if_neg hplus]
        exact ⟨[], rfl, Or.inr ⟨Or.inr rfl, rfl⟩⟩

/-- A sign and digits do not start with white space. -/
theorem head?_not_isSpace {sign digits rest : List UInt8} {neg : Bool}
    (hsign : (sign = [45] ∧ neg = true) ∨ ((sign = [43] ∨ sign = []) ∧ neg = false))
    (hne : digits ≠ []) (hdigits : ∀ b ∈ digits, isDigit b = true) :
    ∀ b ∈ (sign ++ (digits ++ rest)).head?, isSpace b = false := by
  intro b hb
  rcases hsign with ⟨rfl, -⟩ | ⟨rfl | rfl, -⟩
  · obtain rfl : (45 : UInt8) = b := Option.some.inj hb
    decide
  · obtain rfl : (43 : UInt8) = b := Option.some.inj hb
    decide
  · cases digits with
    | nil => exact absurd rfl hne
    | cons d digits =>
      obtain rfl : d = b := Option.some.inj hb
      have hd := hdigits d List.mem_cons_self
      rw [isDigit, Bool.and_eq_true, decide_eq_true_iff, decide_eq_true_iff,
        UInt8.le_iff_toNat_le, UInt8.le_iff_toNat_le] at hd
      rw [isSpace, Bool.or_eq_false_iff, Bool.and_eq_false_iff, decide_eq_false_iff_not,
        decide_eq_false_iff_not, decide_eq_false_iff_not]
      have h48 : (48 : UInt8).toNat = 48 := rfl
      have h13 : (13 : UInt8).toNat = 13 := rfl
      refine ⟨?_, Or.inr fun h => ?_⟩
      · rintro rfl
        exact absurd hd.1 (by decide)
      · rw [UInt8.le_iff_toNat_le] at h
        omega

/-- **The conversion reads exactly the numerals.** -/
theorem strtol_eq_some_iff {s : List UInt8} {neg : Bool} {n : ℕ} :
    strtol s = some (neg, n) ↔ IsNumeral s neg n := by
  constructor
  · intro h
    unfold strtol at h
    dsimp only at h
    split_ifs at h with hne
    obtain ⟨hneg, hn⟩ := Prod.mk.inj (Option.some.inj h)
    obtain ⟨spaces, hs, hspaces, -⟩ := dropWhile_eq_iff.mp (rfl : s.dropWhile isSpace = _)
    obtain ⟨sign, hsplit, hsign⟩ := exists_sign (s.dropWhile isSpace)
    obtain ⟨rest, hrest, hdigits, hhead⟩ := takeWhile_eq_iff.mp
      (rfl : (splitSign (s.dropWhile isSpace)).2.takeWhile isDigit = _)
    rw [hneg] at hsign
    refine ⟨spaces, sign, _, rest, ?_, hspaces, hsign, hne, hdigits, hhead, hn⟩
    rw [← hrest, ← hsplit]
    exact hs
  · rintro ⟨spaces, sign, digits, rest, rfl, hspaces, hsign, hne, hdigits, hhead, rfl⟩
    have hdrop : (spaces ++ (sign ++ (digits ++ rest))).dropWhile isSpace
        = sign ++ (digits ++ rest) :=
      dropWhile_eq_iff.mpr ⟨spaces, rfl, hspaces, head?_not_isSpace hsign hne hdigits⟩
    have htake : (digits ++ rest).takeWhile isDigit = digits :=
      takeWhile_eq_iff.mpr ⟨rest, rfl, hdigits, hhead⟩
    unfold strtol
    rw [hdrop, splitSign_append hsign hne hdigits]
    dsimp only
    rw [htake, if_neg hne]

/-! ## Texts that are a number -/

/-- The text is decimal digits of the value `n`, and nothing else. -/
structure IsDecimal (s : List UInt8) (n : ℕ) : Prop where
  ne_nil : s ≠ []
  digits : ∀ b ∈ s, isDigit b = true
  magnitude_eq : magnitude s = n

theorem isDecimal_iff {s : List UInt8} {n : ℕ} :
    IsDecimal s n ↔ s ≠ [] ∧ s.all isDigit = true ∧ magnitude s = n := by
  rw [List.all_eq_true]
  exact ⟨fun h => ⟨h.1, h.2, h.3⟩, fun h => ⟨h.1, h.2.1, h.2.2⟩⟩

instance (s : List UInt8) (n : ℕ) : Decidable (IsDecimal s n) := decidable_of_iff' _ isDecimal_iff

theorem IsDecimal.unique {s : List UInt8} {m n : ℕ} (h : IsDecimal s m) (h' : IsDecimal s n) :
    m = n :=
  h.magnitude_eq.symm.trans h'.magnitude_eq

theorem IsDecimal.isNumeral {s : List UInt8} {n : ℕ} (h : IsDecimal s n) : IsNumeral s false n :=
  ⟨[], [], s, [], by rw [List.nil_append, List.nil_append, List.append_nil],
    fun _ hb => absurd hb List.not_mem_nil, Or.inr ⟨Or.inr rfl, rfl⟩, h.ne_nil, h.digits,
    (fun _ hb => by cases hb), h.magnitude_eq⟩

theorem IsDecimal.strtol {s : List UInt8} {n : ℕ} (h : IsDecimal s n) :
    strtol s = some (false, n) :=
  strtol_eq_some_iff.mpr h.isNumeral

theorem IsDecimal.notMem {s : List UInt8} {n : ℕ} (h : IsDecimal s n) {b : UInt8}
    (hb : isDigit b = false) : b ∉ s := by
  intro hmem
  rw [h.digits b hmem] at hb
  cases hb

end Scan
