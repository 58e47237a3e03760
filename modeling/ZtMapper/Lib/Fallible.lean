/-
# Computations that may fail

When a computation in `Except` succeeds, and with what: sequences
(`bind_eq_ok_iff`), traversals of a list (`exists_mapM_ok_iff`, `foldlM_induct`), and
result sets, which are read row by row and may break off (`scan_eq_ok_iff`,
`complete_of_scan`).
-/
import Mathlib.Data.List.Forall2
import Mathlib.Tactic.Common

namespace Fallible

/-! ## Sequences and traversals -/

section

variable {ε ε' α β : Type}

theorem bind_eq_ok_iff {x : Except ε α} {f : α → Except ε β} {b : β} :
    (x >>= f) = .ok b ↔ ∃ a, x = .ok a ∧ f a = .ok b := by
  cases x with
  | error e => exact iff_of_false (fun h => by cases h) (fun ⟨_, h, _⟩ => by cases h)
  | ok a =>
    constructor
    · exact fun h => ⟨a, rfl, h⟩
    · rintro ⟨a', ha, h⟩
      obtain rfl := Except.ok.inj ha
      exact h

theorem exists_bind_ok_iff {x : Except ε α} {f : α → Except ε β} :
    (∃ b, (x >>= f) = .ok b) ↔ ∃ a, x = .ok a ∧ ∃ b, f a = .ok b := by
  simp only [bind_eq_ok_iff]
  constructor
  · rintro ⟨b, a, ha, hb⟩
    exact ⟨a, ha, b, hb⟩
  · rintro ⟨a, ha, b, hb⟩
    exact ⟨b, a, ha, hb⟩

theorem mapError_eq_ok_iff {x : Except ε α} {f : ε → ε'} {a : α} :
    x.mapError f = .ok a ↔ x = .ok a := by
  cases x with
  | error e => exact iff_of_false (fun h => by cases h) (fun h => by cases h)
  | ok a' => exact ⟨fun h => by rw [Except.ok.inj h], fun h => by rw [Except.ok.inj h]; rfl⟩

theorem exists_ite_ok_iff {p : Prop} [Decidable p] {a : α} {x : Except ε α} :
    (∃ r, (if p then .ok a else x) = .ok r) ↔ p ∨ ∃ r, x = .ok r := by
  by_cases hp : p
  · rw [if_pos hp]
    exact iff_of_true ⟨a, rfl⟩ (Or.inl hp)
  · rw [if_neg hp, or_iff_right hp]

theorem not_exists_error_eq_ok {e : ε} : ¬ ∃ r : α, Except.error e = .ok r := fun ⟨_, h⟩ => by cases h

/-- A conversion of every element succeeds when each does. -/
theorem exists_mapM_ok_iff {f : α → Except ε β} {l : List α} :
    (∃ r, l.mapM f = .ok r) ↔ ∀ a ∈ l, ∃ b, f a = .ok b := by
  induction l with
  | nil => exact iff_of_true ⟨[], rfl⟩ (fun a ha => absurd ha List.not_mem_nil)
  | cons a l ih =>
    rw [List.mapM_cons, exists_bind_ok_iff, List.forall_mem_cons, ← ih]
    constructor
    · rintro ⟨b, hb, h⟩
      obtain ⟨bs, hbs, -⟩ := exists_bind_ok_iff.mp h
      exact ⟨⟨b, hb⟩, bs, hbs⟩
    · rintro ⟨⟨b, hb⟩, bs, hbs⟩
      exact ⟨b, hb, exists_bind_ok_iff.mpr ⟨bs, hbs, _, rfl⟩⟩

/-- A conversion of every element that succeeds converts element by element. -/
theorem forall₂_of_mapM {f : α → Except ε β} {l : List α} {r : List β} (h : l.mapM f = .ok r) :
    List.Forall₂ (fun a b => f a = .ok b) l r := by
  induction l generalizing r with
  | nil =>
    obtain rfl := Except.ok.inj h
    exact .nil
  | cons a l ih =>
    rw [List.mapM_cons] at h
    obtain ⟨b, hb, h⟩ := bind_eq_ok_iff.mp h
    obtain ⟨bs, hbs, h⟩ := bind_eq_ok_iff.mp h
    obtain rfl := Except.ok.inj h
    exact .cons hb (ih hbs)

theorem mapM_eq_ok_iff {f : α → Except ε β} {l : List α} {r : List β} :
    l.mapM f = .ok r ↔ List.Forall₂ (fun a b => f a = .ok b) l r := by
  refine ⟨forall₂_of_mapM, fun h => ?_⟩
  induction h with
  | nil => rfl
  | cons hb _ ih =>
    rw [List.mapM_cons, bind_eq_ok_iff]
    exact ⟨_, hb, bind_eq_ok_iff.mpr ⟨_, ih, rfl⟩⟩

/-- What every step preserves holds after a loop that succeeds. -/
theorem foldlM_induct {f : β → α → Except ε β} (I : β → Prop)
    (hstep : ∀ b a b', I b → f b a = .ok b' → I b') {l : List α} {b b' : β} (hb : I b)
    (h : l.foldlM f b = .ok b') : I b' := by
  induction l generalizing b with
  | nil =>
    obtain rfl := Except.ok.inj h
    exact hb
  | cons a l ih =>
    rw [List.foldlM_cons] at h
    obtain ⟨c, hc, h⟩ := bind_eq_ok_iff.mp h
    exact ih (hstep b a c hb hc) h

end

/-! ## Result sets -/

/-- A result set: what scanning gives for the rows that are delivered, and the rows that
are lost when the iteration fails. -/
structure Rows (ε α : Type*) where
  delivered : List (Except ε α)
  lost : Option (List (Except ε α)) := none

namespace Rows

variable {ε α β : Type*}

/-- The rows of the query. -/
def all (r : Rows ε α) : List (Except ε α) := r.delivered ++ r.lost.getD []

/-- The iteration fails, which the loop does not see. -/
def Interrupted (r : Rows ε α) : Prop := r.lost.isSome = true

/-- A row that is delivered cannot be scanned. -/
def Unscannable (r : Rows ε α) : Prop := ∃ e, Except.error e ∈ r.delivered

/-- The loop over the delivered rows, with what its body does with a row. -/
def scan (add : β → α → β) (init : β) (r : Rows ε α) : Except ε β :=
  r.delivered.foldlM (fun acc row => row.map (add acc)) init

/-- The loop succeeds when every row that is delivered can be scanned. -/
theorem scan_eq_ok_iff {add : β → α → β} {init out : β} {r : Rows ε α} :
    r.scan add init = .ok out ↔
      ∃ vals : List α, r.delivered = vals.map Except.ok ∧ out = vals.foldl add init := by
  unfold scan
  induction r.delivered generalizing init with
  | nil =>
    constructor
    · exact fun h => ⟨[], rfl, (Except.ok.inj h).symm⟩
    · rintro ⟨vals, hvals, rfl⟩
      rw [List.map_eq_nil_iff.mp hvals.symm]
      rfl
  | cons row rows ih =>
    cases row with
    | error e =>
      refine iff_of_false (fun h => by cases h) ?_
      rintro ⟨vals, hvals, -⟩
      obtain ⟨v, -, hv⟩ := List.mem_map.mp (hvals ▸ List.mem_cons_self)
      cases hv
    | ok v =>
      refine (@ih (add init v)).trans ⟨?_, ?_⟩
      · rintro ⟨vals, rfl, rfl⟩
        exact ⟨v :: vals, rfl, rfl⟩
      · rintro ⟨vals, hvals, rfl⟩
        cases vals with
        | nil => cases hvals
        | cons v' vals =>
          obtain ⟨hv, hrows⟩ := List.cons.inj hvals
          rw [← Except.ok.inj hv]
          exact ⟨vals, hrows, rfl⟩

/-- Rows that can be scanned have values. -/
theorem exists_values {rows : List (Except ε α)} (h : ∀ e, Except.error e ∉ rows) :
    ∃ vals : List α, rows = vals.map Except.ok := by
  induction rows with
  | nil => exact ⟨[], rfl⟩
  | cons row rows ih =>
    obtain ⟨vals, rfl⟩ := ih fun e he => h e (List.mem_cons_of_mem _ he)
    cases row with
    | error e => exact absurd List.mem_cons_self (h e)
    | ok v => exact ⟨v :: vals, rfl⟩

theorem exists_scan_eq_ok_iff {add : β → α → β} {init : β} {r : Rows ε α} :
    (∃ out, r.scan add init = .ok out) ↔ ¬ r.Unscannable := by
  simp only [scan_eq_ok_iff]
  constructor
  · rintro ⟨out, vals, hvals, -⟩ ⟨e, he⟩
    obtain ⟨v, -, hv⟩ := List.mem_map.mp (hvals ▸ he)
    cases hv
  · intro h
    obtain ⟨vals, hvals⟩ := exists_values fun e he => h ⟨e, he⟩
    exact ⟨_, vals, hvals, rfl⟩

/-- `out` is what the loop would make of all rows. -/
def Complete (add : β → α → β) (init : β) (r : Rows ε α) (out : β) : Prop :=
  ∃ vals : List α, r.all = vals.map Except.ok ∧ out = vals.foldl add init

/-- Without a break the loop sees all rows. -/
theorem complete_of_scan {add : β → α → β} {init out : β} {r : Rows ε α} (h : ¬ r.Interrupted)
    (hscan : r.scan add init = .ok out) : Complete add init r out := by
  have hnone : r.lost = none := Option.not_isSome_iff_eq_none.mp h
  have hall : r.all = r.delivered := by
    rw [all, hnone]
    exact List.append_nil _
  obtain ⟨vals, hvals, hout⟩ := scan_eq_ok_iff.mp hscan
  exact ⟨vals, hall.trans hvals, hout⟩

end Rows

end Fallible
