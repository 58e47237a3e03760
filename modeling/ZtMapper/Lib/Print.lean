/-
# Printed texts

What the scanning functions read back from a text that a program has printed:
decimal numerals (`isDecimal_decimal`), pieces joined by a delimiter
(`pieces_intercalate`), and the tokens between the quotes of a text
(`afterFirst_intercalate`).
-/
import ZtMapper.Lib.Scan
import Mathlib.Data.Nat.Notation

namespace Scan

/-! ## Decimal numerals -/

/-- The decimal numeral of `n`, as the conversion `%u` prints it. -/
def decimal (n : ℕ) : List UInt8 := (Nat.toDigits 10 n).map fun c => UInt8.ofNat c.toNat

/-- A printed number has a digit. -/
theorem decimal_ne_nil (n : ℕ) : decimal n ≠ [] := by
  simp [decimal]

/-- The byte of a digit. -/
theorem toNat_of_isDigit {c : Char} (hc : c.isDigit = true) :
    (UInt8.ofNat c.toNat).toNat = c.toNat ∧ 48 ≤ c.toNat ∧ c.toNat ≤ 57 := by
  have h := Char.isDigit_iff_toNat.mp hc
  refine ⟨?_, h⟩
  rw [UInt8.toNat_ofNat_of_lt' (lt_of_le_of_lt h.2 (by decide))]

/-- A printed number has digits only. -/
theorem isDigit_of_mem_decimal {n : ℕ} {b : UInt8} (hb : b ∈ decimal n) : isDigit b = true := by
  obtain ⟨c, hc, rfl⟩ := List.mem_map.mp hb
  obtain ⟨htoNat, hlo, hhi⟩ :=
    toNat_of_isDigit (Nat.isDigit_of_mem_toDigits (by decide) (by decide) hc)
  rw [isDigit, Bool.and_eq_true, decide_eq_true_iff, decide_eq_true_iff, UInt8.le_iff_toNat_le,
    UInt8.le_iff_toNat_le, htoNat]
  exact ⟨hlo, hhi⟩

/-- **A printed numeral has its value.** -/
theorem magnitude_decimal (n : ℕ) : magnitude (decimal n) = n := by
  have hfold : ∀ (l : List Char) (m : ℕ), (∀ c ∈ l, c.isDigit = true) →
      (l.map fun c => UInt8.ofNat c.toNat).foldl (fun n b => 10 * n + (b.toNat - 48)) m
        = Nat.ofDigitChars 10 l m := by
    intro l
    induction l with
    | nil => exact fun m _ => rfl
    | cons c l ih =>
      intro m hl
      rw [List.map_cons, List.foldl_cons, Nat.ofDigitChars_cons,
        (toNat_of_isDigit (hl c List.mem_cons_self)).1]
      exact ih _ fun d hd => hl d (List.mem_cons_of_mem c hd)
  rw [magnitude, decimal, hfold _ _ fun c hc =>
    Nat.isDigit_of_mem_toDigits (by decide) (by decide) hc]
  exact Nat.ofDigitChars_toDigits (by decide) (by decide)

/-- A printed number is read as itself. -/
theorem isDecimal_decimal (n : ℕ) : IsDecimal (decimal n) n :=
  ⟨decimal_ne_nil n, fun _ hb => isDigit_of_mem_decimal hb, magnitude_decimal n⟩

/-! ## Joined pieces -/

/-- The delimiter stands before each later item. -/
theorem intercalate_cons_eq_flatMap {α : Type*} {delim : α} (p : List α) (ps : List (List α)) :
    [delim].intercalate (p :: ps) = p ++ ps.flatMap (delim :: ·) := by
  induction ps generalizing p with
  | nil => rw [List.intercalate_singleton, List.flatMap_nil, List.append_nil]
  | cons p' ps ih =>
    rw [List.intercalate_cons_cons, ih, List.flatMap_cons, List.append_assoc,
      List.singleton_append, List.cons_append]

/-- Pieces with the delimiter after each of them. -/
theorem flatMap_append_eq_intercalate {α : Type*} {delim : α} {ps : List (List α)} (h : ps ≠ []) :
    ps.flatMap (· ++ [delim]) = [delim].intercalate ps ++ [delim] := by
  induction ps with
  | nil => exact absurd rfl h
  | cons p ps ih =>
    cases ps with
    | nil => rw [List.intercalate_singleton, List.flatMap_cons, List.flatMap_nil, List.append_nil]
    | cons p' ps =>
      rw [List.flatMap_cons, ih (List.cons_ne_nil _ _), List.intercalate_cons_cons]
      simp only [List.append_assoc]

/-- A loop that prints the delimiter before every piece but the first. -/
theorem flatMap_zipIdx_delim {α β : Type*} (delim : List α) (f : β → List α) (b : β) (bs : List β) :
    ((b :: bs).zipIdx.flatMap fun (b, i) => (if i = 0 then [] else delim) ++ f b)
      = f b ++ bs.flatMap fun b => delim ++ f b := by
  have htail : ∀ {bs : List β} {k : ℕ}, 0 < k →
      ((bs.zipIdx k).flatMap fun (b, i) => (if i = 0 then [] else delim) ++ f b)
        = bs.flatMap fun b => delim ++ f b := by
    intro bs
    induction bs with
    | nil => exact fun _ => rfl
    | cons b bs ih =>
      intro k hk
      rw [List.zipIdx_cons, List.flatMap_cons, List.flatMap_cons, ih (Nat.succ_pos k)]
      dsimp only
      rw [if_neg (Nat.ne_of_gt hk)]
  rw [List.zipIdx_cons, List.flatMap_cons, htail (Nat.succ_pos 0)]
  rfl

/-- Write an item, with the delimiter before it unless it is the first. -/
def put {α : Type*} (delim : α) (s : List α × Bool) (item : List α) : List α × Bool :=
  (s.1 ++ ((if s.2 then [] else [delim]) ++ item), false)

/-- The loop that prints a delimiter before all but the first item. -/
theorem foldl_put_false {α : Type*} {delim : α} (out : List α) (items : List (List α)) :
    items.foldl (put delim) (out, false) = (out ++ items.flatMap (delim :: ·), false) := by
  induction items generalizing out with
  | nil => rw [List.foldl_nil, List.flatMap_nil, List.append_nil]
  | cons item items ih =>
    rw [List.foldl_cons, put, if_neg Bool.false_ne_true, ih, List.flatMap_cons]
    simp only [List.append_assoc, List.cons_append, List.nil_append]

/-- **A loop with a flag for the first item** joins the items. -/
theorem foldl_put {α : Type*} {delim : α} (out : List α) (items : List (List α)) :
    (items.foldl (put delim) (out, true)).1 = out ++ [delim].intercalate items := by
  cases items with
  | nil => exact (List.append_nil out).symm
  | cons item items =>
    rw [List.foldl_cons, put, if_pos rfl, List.nil_append, foldl_put_false,
      intercalate_cons_eq_flatMap, List.append_assoc]

/-- What stands in a joined text. -/
theorem mem_intercalate {α : Type*} {delim b : α} {ts : List (List α)}
    (hb : b ∈ [delim].intercalate ts) : b = delim ∨ ∃ t ∈ ts, b ∈ t := by
  cases ts with
  | nil => exact absurd hb List.not_mem_nil
  | cons t ts =>
    rw [intercalate_cons_eq_flatMap, List.mem_append] at hb
    rcases hb with hb | hb
    · exact Or.inr ⟨t, List.mem_cons_self, hb⟩
    · obtain ⟨s, hs, hb⟩ := List.mem_flatMap.mp hb
      rcases List.mem_cons.mp hb with rfl | hb
      · exact Or.inl rfl
      · exact Or.inr ⟨s, List.mem_cons_of_mem t hs, hb⟩

/-- A byte of none of the parts is not in the joined text. -/
theorem notMem_intercalate {α : Type*} {delim b : α} (hb : b ≠ delim) {ts : List (List α)}
    (hts : ∀ t ∈ ts, b ∉ t) : b ∉ [delim].intercalate ts := by
  intro hmem
  rcases mem_intercalate hmem with heq | ⟨t, ht, hmem⟩
  · exact hb heq
  · exact hts t ht hmem

section Joined

variable {α : Type*} [DecidableEq α]

/-- The first piece ends at the first delimiter. -/
theorem pieces_append_cons {delim : α} {p s : List α} (hp : delim ∉ p) :
    pieces delim (p ++ delim :: s) = p :: pieces delim s := by
  induction p with
  | nil => rw [List.nil_append, pieces, if_pos rfl]
  | cons b p ih =>
    rw [List.mem_cons, not_or] at hp
    rw [List.cons_append, pieces, if_neg (Ne.symm hp.1), ih hp.2]

/-- Without a delimiter there is one piece. -/
theorem pieces_of_notMem {delim : α} {p : List α} (hne : p ≠ []) (hp : delim ∉ p) :
    pieces delim p = [p] := by
  induction p with
  | nil => exact absurd rfl hne
  | cons b p ih =>
    rw [List.mem_cons, not_or] at hp
    rw [pieces, if_neg (Ne.symm hp.1)]
    cases p with
    | nil => rfl
    | cons c p => rw [ih (List.cons_ne_nil c p) hp.2]

/-- **Joined pieces are extracted again.** -/
theorem pieces_intercalate {delim : α} {ps : List (List α)} (hne : ∀ p ∈ ps, p ≠ [])
    (hps : ∀ p ∈ ps, delim ∉ p) : pieces delim ([delim].intercalate ps) = ps := by
  induction ps with
  | nil => rfl
  | cons p ps ih =>
    rw [List.forall_mem_cons] at hne hps
    cases ps with
    | nil => rw [List.intercalate_singleton, pieces_of_notMem hne.1 hps.1]
    | cons p' ps =>
      rw [List.intercalate_cons_cons, List.append_assoc, List.singleton_append,
        pieces_append_cons hps.1, ih hne.2 hps.2]

/-! ## Quoted tokens -/

/-- A text without the first element of the pattern is skipped. -/
theorem afterFirst_append_of_notMem {a : α} {pat t : List α} (ht : a ∉ t) (s : List α) :
    afterFirst (a :: pat) (t ++ s) = afterFirst (a :: pat) s := by
  induction t with
  | nil => rfl
  | cons b t ih =>
    rw [List.mem_cons, not_or] at ht
    rw [List.cons_append, afterFirst, if_neg, ih ht.2]
    rw [List.cons_prefix_cons]
    exact fun h => ht.1 h.1

/-- What precedes the first `q` is determined. -/
theorem eq_of_append_cons_eq_of_notMem {q : α} {t t' s s' : List α} (ht : q ∉ t) (ht' : q ∉ t')
    (h : t ++ q :: s = t' ++ q :: s') : t = t' := by
  have htake : ∀ {t : List α} (s : List α), q ∉ t → (t ++ q :: s).takeWhile (· ≠ q) = t := by
    intro t s ht
    refine takeWhile_eq_iff.mpr ⟨q :: s, rfl, fun b hb => ?_, fun b hb => ?_⟩
    · exact decide_eq_true fun heq => ht (heq ▸ hb)
    · obtain rfl := Option.some.inj hb
      simp
  rw [← htake s ht, h, htake s' ht']

/-- At a quote, the search for a quoted key compares the key with a whole token. -/
theorem afterFirst_quote {q : α} {key token : List α} (hkey : q ∉ key) (htoken : q ∉ token)
    (s : List α) :
    afterFirst (q :: (key ++ [q])) (q :: (token ++ q :: s))
      = if key = token then some s else afterFirst (q :: (key ++ [q])) (token ++ q :: s) := by
  have hiff : q :: (key ++ [q]) <+: q :: (token ++ q :: s) ↔ key = token := by
    rw [List.cons_prefix_cons]
    constructor
    · rintro ⟨-, rest, hrest⟩
      rw [List.append_assoc, List.singleton_append] at hrest
      exact eq_of_append_cons_eq_of_notMem hkey htoken hrest
    · rintro rfl
      exact ⟨rfl, s, by rw [List.append_assoc, List.singleton_append]⟩
  rw [afterFirst]
  by_cases h : key = token
  · rw [if_pos (hiff.mpr h), if_pos h, h]
    simp
  · rw [if_neg (fun hp => h (hiff.mp hp)), if_neg h]

/-- **The first token that is the key** is found, in a text that is its tokens with
quotes between them. -/
theorem afterFirst_intercalate {q : α} {key t : List α} {pre post : List (List α)}
    (hfree : ∀ u ∈ t :: (pre ++ key :: post), q ∉ u) (hnew : key ∉ pre) (hpost : post ≠ []) :
    afterFirst (q :: (key ++ [q])) ([q].intercalate (t :: (pre ++ key :: post)))
      = some ([q].intercalate post) := by
  have hkey : q ∉ key := hfree key (by simp)
  induction pre generalizing t with
  | nil =>
    obtain ⟨p, post, rfl⟩ := List.exists_cons_of_ne_nil hpost
    rw [List.nil_append, List.intercalate_cons_cons, List.intercalate_cons_cons, List.append_assoc,
      List.append_assoc, List.singleton_append, List.singleton_append,
      afterFirst_append_of_notMem (hfree t List.mem_cons_self), afterFirst_quote hkey hkey,
      if_pos rfl]
  | cons u pre ih =>
    rw [List.mem_cons, not_or] at hnew
    have htail : ∀ v ∈ u :: (pre ++ key :: post), q ∉ v := fun v hv =>
      hfree v (List.mem_cons_of_mem t hv)
    have hne : pre ++ key :: post ≠ [] := by simp
    rw [List.cons_append, List.intercalate_cons_cons, List.append_assoc, List.singleton_append,
      afterFirst_append_of_notMem (hfree t List.mem_cons_self), ← ih htail hnew.2]
    obtain ⟨v, rest, hrest⟩ := List.exists_cons_of_ne_nil hne
    rw [hrest, List.intercalate_cons_cons, List.append_assoc, List.singleton_append,
      afterFirst_quote hkey (htail u List.mem_cons_self), if_neg hnew.1]

end Joined

end Scan
