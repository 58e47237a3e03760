/-
# Comma-separated values

A file is a line for each record, and a line the fields of its record, with commas between
them.  A field stands as it is, or between quotes with every quote in it doubled.  A writer
that puts between quotes whatever has a comma, a quote or a line break in it writes every
file for one list of records only (`fileText_injective`).
-/
import Mathlib.Data.List.Basic
import Mathlib.Tactic.Common

namespace Csv

/-- Every quote doubled. -/
def escape : List Char → List Char
  | [] => []
  | c :: s => if c = '"' then '"' :: '"' :: escape s else c :: escape s

def fieldText (quotes : List Char → Bool) (s : List Char) : List Char :=
  if quotes s then '"' :: (escape s ++ ['"']) else s

def recordText (quotes : List Char → Bool) (fields : List (List Char)) : List Char :=
  [','].intercalate (fields.map (fieldText quotes)) ++ ['\n']

def fileText (quotes : List Char → Bool) (records : List (List (List Char))) : List Char :=
  records.flatMap (recordText quotes)

/-- What stands without quotes has none of the three characters. -/
def Careful (quotes : List Char → Bool) : Prop :=
  ∀ s, quotes s = false → ∀ c ∈ s, c ≠ ',' ∧ c ≠ '"' ∧ c ≠ '\n'

/-- The characters after a field. -/
def Ends (c : Char) : Prop := c = ',' ∨ c = '\n'

theorem Ends.ne_quote {c : Char} (h : Ends c) : c ≠ '"' := by
  rcases h with rfl | rfl <;> decide

/-! ## Fields -/

/-- A field without quotes ends at the first comma or line break. -/
theorem bare_eq {x y r r' : List Char} {d e : Char} (hx : ∀ c ∈ x, ¬ Ends c)
    (hy : ∀ c ∈ y, ¬ Ends c) (hd : Ends d) (he : Ends e) (h : x ++ d :: r = y ++ e :: r') :
    x = y ∧ d :: r = e :: r' := by
  induction x generalizing y with
  | nil =>
    cases y with
    | nil => exact ⟨rfl, h⟩
    | cons c y => exact absurd hd ((List.cons.inj h).1 ▸ hy c List.mem_cons_self)
  | cons c x ih =>
    rw [List.forall_mem_cons] at hx
    cases y with
    | nil => exact absurd he ((List.cons.inj h).1 ▸ hx.1)
    | cons c' y =>
      rw [List.forall_mem_cons] at hy
      obtain ⟨rfl, htail⟩ := List.cons.inj h
      obtain ⟨rfl, hrest⟩ := ih hx.2 hy.2 htail
      exact ⟨rfl, hrest⟩

/-- A field between quotes ends at the first quote that is not doubled. -/
theorem escape_eq {x y r r' : List Char} {d e : Char} (hd : d ≠ '"') (he : e ≠ '"')
    (h : escape x ++ '"' :: d :: r = escape y ++ '"' :: e :: r') : x = y ∧ d :: r = e :: r' := by
  induction x generalizing y with
  | nil =>
    cases y with
    | nil => exact ⟨rfl, (List.cons.inj h).2⟩
    | cons c y =>
      rw [escape, escape] at h
      split_ifs at h with hc
      · exact absurd (List.cons.inj (List.cons.inj h).2).1 hd
      · exact absurd (List.cons.inj h).1.symm hc
  | cons c x ih =>
    cases y with
    | nil =>
      rw [escape, escape] at h
      split_ifs at h with hc
      · exact absurd (List.cons.inj (List.cons.inj h).2).1.symm he
      · exact absurd (List.cons.inj h).1 hc
    | cons c' y =>
      rw [escape, escape] at h
      split_ifs at h with hc hc' hc'
      · obtain ⟨rfl, hrest⟩ := ih (List.cons.inj (List.cons.inj h).2).2
        exact ⟨by rw [hc, hc'], hrest⟩
      · exact absurd (List.cons.inj h).1.symm hc'
      · exact absurd (List.cons.inj h).1 hc
      · obtain ⟨rfl, htail⟩ := List.cons.inj h
        obtain ⟨rfl, hrest⟩ := ih htail
        exact ⟨rfl, hrest⟩

variable {quotes : List Char → Bool}

/-- A field without quotes does not start with one. -/
theorem bare_ne_quoted {x s r : List Char} {d : Char} (hx : ∀ c ∈ x, c ≠ '"') (hd : d ≠ '"') :
    x ++ d :: r ≠ '"' :: s := by
  intro h
  cases x with
  | nil => exact hd (List.cons.inj h).1
  | cons c x => exact hx c List.mem_cons_self (List.cons.inj h).1

/-- **A field** and what follows it are determined by the text. -/
theorem fieldText_eq (hquotes : Careful quotes) {x y r r' : List Char} {d e : Char} (hd : Ends d)
    (he : Ends e) (h : fieldText quotes x ++ d :: r = fieldText quotes y ++ e :: r') :
    x = y ∧ d :: r = e :: r' := by
  have hbare : ∀ s, ¬ quotes s = true → ∀ c ∈ s, ¬ Ends c ∧ c ≠ '"' := by
    intro s hs c hc
    obtain ⟨hcomma, hquote, hbreak⟩ := hquotes s (Bool.eq_false_iff.mpr hs) c hc
    exact ⟨not_or.mpr ⟨hcomma, hbreak⟩, hquote⟩
  unfold fieldText at h
  split_ifs at h with hx hy hy
  · rw [List.cons_append, List.cons_append, List.append_assoc, List.append_assoc] at h
    exact escape_eq hd.ne_quote he.ne_quote (List.cons.inj h).2
  · exact absurd h.symm (bare_ne_quoted (fun c hc => (hbare y hy c hc).2) he.ne_quote)
  · exact absurd h (bare_ne_quoted (fun c hc => (hbare x hx c hc).2) hd.ne_quote)
  · exact bare_eq (fun c hc => (hbare x hx c hc).1) (fun c hc => (hbare y hy c hc).1) hd he h

/-! ## Records and files -/

theorem recordText_singleton (x : List Char) (r : List Char) :
    recordText quotes [x] ++ r = fieldText quotes x ++ '\n' :: r := by
  rw [recordText, List.map_singleton, List.intercalate_singleton, List.append_assoc]
  rfl

theorem recordText_cons_cons (x y : List Char) (fields : List (List Char)) (r : List Char) :
    recordText quotes (x :: y :: fields) ++ r
      = fieldText quotes x ++ ',' :: (recordText quotes (y :: fields) ++ r) := by
  rw [recordText, List.map_cons, List.map_cons, List.intercalate_cons_cons, ← List.map_cons,
    recordText, List.append_assoc, List.append_assoc, List.append_assoc, List.append_assoc]
  rfl

/-- **A record** and what follows it are determined by the text. -/
theorem recordText_eq (hquotes : Careful quotes) {xs ys : List (List Char)} {r r' : List Char}
    (hxs : xs ≠ []) (hys : ys ≠ []) (h : recordText quotes xs ++ r = recordText quotes ys ++ r') :
    xs = ys ∧ r = r' := by
  have hcomma : Ends ',' := Or.inl rfl
  have hbreak : Ends '\n' := Or.inr rfl
  induction xs generalizing ys with
  | nil => exact absurd rfl hxs
  | cons x xs ih =>
    obtain ⟨y, ys, rfl⟩ := List.exists_cons_of_ne_nil hys
    rcases xs with _ | ⟨x', xs⟩ <;> rcases ys with _ | ⟨y', ys⟩
    · rw [recordText_singleton, recordText_singleton] at h
      obtain ⟨rfl, hrest⟩ := fieldText_eq hquotes hbreak hbreak h
      exact ⟨rfl, (List.cons.inj hrest).2⟩
    · rw [recordText_singleton, recordText_cons_cons] at h
      exact absurd (List.cons.inj (fieldText_eq hquotes hbreak hcomma h).2).1 (by decide)
    · rw [recordText_singleton, recordText_cons_cons] at h
      exact absurd (List.cons.inj (fieldText_eq hquotes hcomma hbreak h).2).1 (by decide)
    · rw [recordText_cons_cons, recordText_cons_cons] at h
      obtain ⟨rfl, hrest⟩ := fieldText_eq hquotes hcomma hcomma h
      obtain ⟨heq, rfl⟩ := ih (List.cons_ne_nil _ _) (List.cons_ne_nil _ _) (List.cons.inj hrest).2
      exact ⟨by rw [heq], rfl⟩

theorem recordText_ne_nil (fields : List (List Char)) : recordText quotes fields ≠ [] :=
  List.append_ne_nil_of_right_ne_nil _ (List.cons_ne_nil _ _)

/-- **A file** is written for one list of records. -/
theorem fileText_injective (hquotes : Careful quotes) {rs rs' : List (List (List Char))}
    (hrs : ∀ xs ∈ rs, xs ≠ []) (hrs' : ∀ xs ∈ rs', xs ≠ [])
    (h : fileText quotes rs = fileText quotes rs') : rs = rs' := by
  unfold fileText at h
  induction rs generalizing rs' with
  | nil =>
    cases rs' with
    | nil => rfl
    | cons ys rs' =>
      rw [List.flatMap_cons] at h
      exact absurd h.symm (List.append_ne_nil_of_left_ne_nil (recordText_ne_nil ys) _)
  | cons xs rs ih =>
    rw [List.forall_mem_cons] at hrs
    cases rs' with
    | nil =>
      rw [List.flatMap_cons] at h
      exact absurd h (List.append_ne_nil_of_left_ne_nil (recordText_ne_nil xs) _)
    | cons ys rs' =>
      rw [List.forall_mem_cons] at hrs'
      rw [List.flatMap_cons, List.flatMap_cons] at h
      obtain ⟨rfl, hrest⟩ := recordText_eq hquotes hrs.1 hrs'.1 h
      rw [ih hrs.2 hrs'.2 hrest]

end Csv
