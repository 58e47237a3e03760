/-
# Nesting in JSON texts

A scan of a text follows the strings in it and counts the brackets outside of them.
Every text of the grammar leaves the scan as it found it (`Denotes.walk`), and inside
of a text between braces the scan is never back at its start.  So no text ends in
another one that starts with a brace (`IsText.not_isText_suffix`): a text that has lost
its beginning is not a text.
-/
import ZtMapper.Lib.Json
import ZtMapper.Lib.Runs

open Runs

namespace Json

/-- Where a scan is: outside of strings, in a string, or behind a backslash in one. -/
inductive Mode where
  | outside
  | inside
  | escape
  deriving DecidableEq, Repr

/-- A character takes the scan to a mode and a depth; `none` when no text goes on so. -/
def visit : Mode × ℕ → Char → Option (Mode × ℕ)
  | (.outside, d), c =>
    if c = '"' then some (.inside, d)
    else if c = '\\' then none
    else if c = '[' ∨ c = '\x7b' then some (.outside, d + 1)
    else if c = ']' ∨ c = '\x7d' then if d = 0 then none else some (.outside, d - 1)
    else some (.outside, d)
  | (.inside, d), c =>
    some (if c = '"' then .outside else if c = '\\' then .escape else .inside, d)
  | (.escape, d), c => if c = '\x7b' then none else some (.inside, d)

/-- A scan over a text. -/
def walk (s : Mode × ℕ) (t : List Char) : Option (Mode × ℕ) := reach visit s t

variable {s s' : Mode × ℕ} {m m' : Mode} {d d' : ℕ} {c : Char} {t u : List Char} {v w : Value}

/-- A text is walked part by part. -/
theorem walk_append : walk s (t ++ u) = (walk s t).bind fun s => walk s u := List.foldlM_append

/-- A text is walked character by character. -/
theorem walk_cons : walk s (c :: t) = (visit s c).bind fun s => walk s t := reach_cons

/-- A scan that comes to a state goes on from there. -/
theorem walk_append_of_eq (h : walk s t = some s') : walk s (t ++ u) = walk s' u := by
  rw [walk_append, h]
  rfl

/-- The walk after a character that is known. -/
theorem walk_cons_of_eq (h : visit s c = some s') : walk s (c :: t) = walk s' t := by
  rw [walk_cons, h]
  rfl

/-- The part of a scan before a cut. -/
theorem walk_of_append (h : walk s (t ++ u) = some s') :
    ∃ s₁, walk s t = some s₁ ∧ walk s₁ u = some s' := by
  rwa [walk_append, Option.bind_eq_some_iff] at h

/-! ## Characters that do not change the scan -/

/-- Outside of strings, `c` is neither a quote, a backslash nor a bracket. -/
def isQuiet (c : Char) : Bool := ! ['"', '\\', '[', ']', '\x7b', '\x7d'].contains c

/-- A quiet character changes nothing outside of strings. -/
theorem visit_quiet (hc : isQuiet c = true) : visit (.outside, d) c = some (.outside, d) := by
  have hne : ∀ b ∈ ['"', '\\', '[', ']', '\x7b', '\x7d'], c ≠ b := by
    rintro b hb rfl
    rw [isQuiet, List.contains_iff_mem.mpr hb] at hc
    exact Bool.false_ne_true hc
  have hopen : ¬ (c = '[' ∨ c = '\x7b') :=
    not_or.mpr ⟨hne _ (by decide), hne _ (by decide)⟩
  have hclose : ¬ (c = ']' ∨ c = '\x7d') :=
    not_or.mpr ⟨hne _ (by decide), hne _ (by decide)⟩
  rw [visit, if_neg (hne _ (by decide)), if_neg (hne _ (by decide)), if_neg hopen, if_neg hclose]

/-- Nor does a text of quiet characters. -/
theorem walk_quiet (ht : ∀ c ∈ t, isQuiet c = true) : walk (.outside, d) t = some (.outside, d) := by
  induction t with
  | nil => rfl
  | cons c t ih =>
    rw [List.forall_mem_cons] at ht
    rw [walk_cons_of_eq (visit_quiet ht.1), ih ht.2]

/-- Blanks are quiet. -/
theorem isQuiet_of_isWs (hc : isWs c = true) : isQuiet c = true := by
  simp only [isWs, Bool.or_eq_true, beq_iff_eq] at hc
  rcases hc with ((rfl | rfl) | rfl) | rfl <;> decide

/-- Blank text changes nothing. -/
theorem walk_blank (ht : Blank t) : walk (.outside, d) t = some (.outside, d) :=
  walk_quiet fun c hc => isQuiet_of_isWs (ht c hc)

/-- A digit is none of some characters. -/
theorem isQuiet_of_isDigit (hc : c.isDigit = true) : isQuiet c = true := by
  rw [isQuiet, Bool.not_eq_true', ← Bool.not_eq_true, List.contains_iff_mem]
  intro hmem
  have hall : ∀ b ∈ ['"', '\\', '[', ']', '\x7b', '\x7d'], b.isDigit = false :=
    @of_decide_eq_true _ (List.decidableBAll _ _) rfl
  exact Bool.false_ne_true ((hall c hmem).symm.trans hc)

/-- Digits are quiet. -/
theorem quiet_of_digits? {n : ℕ} (h : digits? t = some n) : ∀ c ∈ t, isQuiet c = true := by
  rw [digits?] at h
  split_ifs at h with hdigits
  exact fun c hc => isQuiet_of_isDigit (List.all_eq_true.mp hdigits.2 c hc)

/-- An exponent is quiet. -/
theorem quiet_of_exponent? {e : ℤ} (h : exponent? t = some e) : ∀ c ∈ t, isQuiet c = true := by
  cases t with
  | nil => exact fun c hc => absurd hc List.not_mem_nil
  | cons c s =>
    unfold exponent? at h
    dsimp only at h
    split_ifs at h with hc
    have hquiet : isQuiet c = true := by
      rw [not_and_or, not_not, not_not] at hc
      rcases hc with rfl | rfl <;> decide
    rw [List.forall_mem_cons]
    refine ⟨hquiet, ?_⟩
    -- a sign and digits, or digits
    split at h
    all_goals
      obtain ⟨n, hn, -⟩ := Option.map_eq_some_iff.mp h
      obtain ⟨m, hm, -⟩ := Option.bind_eq_some_iff.mp hn
    · exact List.forall_mem_cons.mpr ⟨by decide, quiet_of_digits? hm⟩
    · exact List.forall_mem_cons.mpr ⟨by decide, quiet_of_digits? hm⟩
    · exact quiet_of_digits? hm

/-- The digits in front of a text are quiet. -/
theorem quiet_takeWhile_isDigit (t : List Char) :
    ∀ c ∈ t.takeWhile Char.isDigit, isQuiet c = true :=
  fun _ hc => isQuiet_of_isDigit (List.mem_takeWhile_imp hc)

/-- A number without a sign is quiet. -/
theorem quiet_of_unsigned? {r : ℕ × ℤ} (h : unsigned? t = some r) : ∀ c ∈ t, isQuiet c = true := by
  have hrest : ∀ c ∈ t.dropWhile Char.isDigit, isQuiet c = true := by
    rw [unsigned?] at h
    split_ifs at h
    split at h
    · next s heq =>
      dsimp only at h
      split_ifs at h
      obtain ⟨e, he, -⟩ := Option.map_eq_some_iff.mp h
      rw [heq, List.forall_mem_cons, ← List.takeWhile_append_dropWhile (p := Char.isDigit) (l := s)]
      exact ⟨by decide, List.forall_mem_append.mpr ⟨quiet_takeWhile_isDigit s,
        quiet_of_exponent? he⟩⟩
    · obtain ⟨e, he, -⟩ := Option.map_eq_some_iff.mp h
      exact quiet_of_exponent? he
  rw [← List.takeWhile_append_dropWhile (p := Char.isDigit) (l := t)]
  exact List.forall_mem_append.mpr ⟨quiet_takeWhile_isDigit t, hrest⟩

/-- Literals and numbers are quiet. -/
theorem quiet_of_scalar? (h : scalar? t = some v) : ∀ c ∈ t, isQuiet c = true := by
  rw [scalar?] at h
  split_ifs at h with hnull htrue hfalse
  · subst hnull
    exact @of_decide_eq_true _ (List.decidableBAll _ _) rfl
  · subst htrue
    exact @of_decide_eq_true _ (List.decidableBAll _ _) rfl
  · subst hfalse
    exact @of_decide_eq_true _ (List.decidableBAll _ _) rfl
  · unfold number? at h
    split at h
    all_goals obtain ⟨r, hr, -⟩ := Option.map_eq_some_iff.mp h
    · exact List.forall_mem_cons.mpr ⟨by decide, quiet_of_unsigned? hr⟩
    · exact quiet_of_unsigned? hr

/-! ## Texts of the grammar -/

/-- Inside of a string only quotes and escapes matter. -/
theorem visit_inside (hquote : c ≠ '"') (hslash : c ≠ '\\') :
    visit (.inside, d) c = some (.inside, d) := by
  rw [visit, if_neg hquote, if_neg hslash]

/-- A part of a string without quotes and escapes. -/
theorem walk_inside (ht : ∀ c ∈ t, c ≠ '"' ∧ c ≠ '\\') :
    walk (.inside, d) t = some (.inside, d) := by
  induction t with
  | nil => rfl
  | cons c t ih =>
    rw [List.forall_mem_cons] at ht
    rw [walk_cons_of_eq (visit_inside ht.1.1 ht.1.2), ih ht.2]

/-- A brace is not escaped by one character. -/
theorem ne_brace_of_escaped? {e : Char} (he : escaped? e = some c) : e ≠ '\x7b' := by
  rintro rfl
  cases he

/-- A hexadecimal digit is neither a quote nor a backslash. -/
theorem ne_of_hexDigit? {n : ℕ} (h : hexDigit? c = some n) : c ≠ '"' ∧ c ≠ '\\' := by
  constructor <;>
  · rintro rfl
    cases h

/-- An escape changes nothing inside of a string. -/
theorem walk_escape {e : Char} (he : e ≠ '\x7b') :
    walk (.inside, d) ('\\' :: e :: t) = walk (.inside, d) t := by
  have hslash : visit (.inside, d) '\\' = some (.escape, d) := rfl
  have hnext : visit (.escape, d) e = some (.inside, d) := if_neg he
  rw [walk_cons_of_eq hslash, walk_cons_of_eq hnext]

/-- The text of a string stays inside of it. -/
theorem CharsText.walk {q : List Char} {ps : List Piece} (h : CharsText q ps) :
    Json.walk (.inside, d) q = some (.inside, d) := by
  induction h with
  | nil => rfl
  | plain hquote hslash hc h ih => rw [walk_cons_of_eq (visit_inside hquote hslash), ih]
  | escape he h ih => rw [walk_escape (ne_brace_of_escaped? he), ih]
  | @unicode a b c d u t ps hu h ih =>
    have hdigits : ∀ x ∈ [a, b, c, d], x ≠ '"' ∧ x ≠ '\\' := by
      simp only [hex4?, Option.bind_eq_bind, Option.bind_eq_some_iff] at hu
      obtain ⟨na, ha, nb, hb, nc, hc, nd, hd, -⟩ := hu
      simp only [List.forall_mem_cons]
      exact ⟨ne_of_hexDigit? ha, ne_of_hexDigit? hb, ne_of_hexDigit? hc, ne_of_hexDigit? hd,
        fun _ hx => absurd hx List.not_mem_nil⟩
    rw [walk_escape (by decide), ← ih]
    exact walk_append_of_eq (t := [a, b, c, d]) (walk_inside hdigits)

/-- A string in quotes, and the text after it. -/
theorem walk_quoted {q : List Char} {ps : List Piece} (h : CharsText q ps) :
    walk (.outside, d) ('"' :: (q ++ '"' :: t)) = walk (.outside, d) t := by
  have hopen : visit (.outside, d) '"' = some (.inside, d) := rfl
  have hclose : visit (.inside, d) '"' = some (.outside, d) := rfl
  rw [walk_cons_of_eq hopen, walk_append_of_eq h.walk, walk_cons_of_eq hclose]

/-- Blanks in front do not matter. -/
theorem walk_blank_append (ht : Blank t) : walk (.outside, d) (t ++ u) = walk (.outside, d) u :=
  walk_append_of_eq (walk_blank ht)

/-- A quiet character in front does not matter. -/
theorem walk_quiet_cons (hc : isQuiet c = true) :
    walk (.outside, d) (c :: t) = walk (.outside, d) t :=
  walk_cons_of_eq (visit_quiet hc)

/-- The name of a member ends outside of strings, where it started. -/
theorem KeyText.walk {n : List Char} {k : String} (h : KeyText n k) :
    Json.walk (.outside, d) n = some (.outside, d) := by
  obtain ⟨w, q, ps, w', hw, hw', hq, -, rfl⟩ := h
  rw [walk_blank_append hw, walk_quoted hq, walk_blank_append hw', walk_quiet_cons (by decide)]
  rfl

/-- A text between brackets, when the scan over the text is back where it was. -/
theorem walk_bracketed {l r : Char} (hl : l = '[' ∨ l = '\x7b') (hr : r = ']' ∨ r = '\x7d')
    (ht : walk (.outside, d + 1) t = some (.outside, d + 1)) :
    walk (.outside, d) (l :: (t ++ [r])) = some (.outside, d) := by
  have hopen : visit (.outside, d) l = some (.outside, d + 1) := by
    rcases hl with rfl | rfl <;> rfl
  have hclose : walk (.outside, d + 1) [r] = some (.outside, d) := by
    rcases hr with rfl | rfl <;> rfl
  rw [walk_cons_of_eq hopen, walk_append_of_eq ht, hclose]

/-- **A text of the grammar leaves the scan as it found it.** -/
theorem Denotes.walk {g : Goal} {r : g.Result} (h : Denotes g t r) (d : ℕ) :
    Json.walk (.outside, d) t = some (.outside, d) := by
  induction h generalizing d with
  | scalar hdelim ht => exact walk_quiet (quiet_of_scalar? ht)
  | string ht => exact walk_quoted (t := []) ht
  | emptyArray hw => exact walk_bracketed (by decide) (by decide) (walk_blank hw)
  | array h ih => exact walk_bracketed (by decide) (by decide) (ih (d + 1))
  | emptyObject hw => exact walk_bracketed (by decide) (by decide) (walk_blank hw)
  | object h ih => exact walk_bracketed (by decide) (by decide) (ih (d + 1))
  | lastElement hw hw' h ih =>
    rw [walk_blank_append hw, walk_append_of_eq (ih d), walk_blank hw']
  | element hw hw' h hs ih ihs =>
    rw [walk_blank_append hw, walk_append_of_eq (ih d), walk_blank_append hw',
      walk_quiet_cons (by decide), ihs]
  | lastMember hn hw hw' h ih =>
    rw [walk_append_of_eq hn.walk, walk_blank_append hw, walk_append_of_eq (ih d), walk_blank hw']
  | member hn hw hw' h hs ih ihs =>
    rw [walk_append_of_eq hn.walk, walk_blank_append hw, walk_append_of_eq (ih d),
      walk_blank_append hw', walk_quiet_cons (by decide), ihs]

/-- A JSON text ends outside of strings, at the depth where it started. -/
theorem IsText.walk (h : IsText t v) (d : ℕ) : Json.walk (.outside, d) t = some (.outside, d) := by
  obtain ⟨w, s, w', hw, hw', rfl, hs⟩ := h
  rw [walk_blank_append hw, walk_append_of_eq (hs.walk d), walk_blank hw']

/-! ## The ends of a text -/

/-- A scan that succeeds does so one level deeper. -/
theorem walk_succ (h : walk (m, d) t = some (m', d')) : walk (m, d + 1) t = some (m', d' + 1) := by
  induction t generalizing m d with
  | nil =>
    obtain ⟨rfl, rfl⟩ := Prod.mk.inj (Option.some.inj h)
    rfl
  | cons c t ih =>
    rw [walk_cons] at h
    obtain ⟨⟨m₁, d₁⟩, hc, ht⟩ := Option.bind_eq_some_iff.mp h
    have hdeeper : visit (m, d + 1) c = some (m₁, d₁ + 1) := by
      cases m with
      | outside =>
        unfold visit at hc ⊢
        dsimp only at hc ⊢
        split_ifs at hc ⊢ <;> (obtain ⟨rfl, rfl⟩ := Prod.mk.inj (Option.some.inj hc); grind)
      | inside =>
        obtain ⟨rfl, rfl⟩ := Prod.mk.inj (Option.some.inj hc)
        rfl
      | escape =>
        unfold visit at hc ⊢
        dsimp only at hc ⊢
        split_ifs at hc ⊢
        obtain ⟨rfl, rfl⟩ := Prod.mk.inj (Option.some.inj hc)
        rfl
    rw [walk_cons_of_eq hdeeper, ih ht]

/-- Two scans of which one is in a string where the other one is not. -/
def Opposite (m m' : Mode) : Prop :=
  m = .inside ∧ m' = .outside ∨ m = .outside ∧ m' = .inside

/-- They stay so: a backslash stands in no text outside of strings. -/
theorem Opposite.visit (hopp : Opposite m m') (hs : Json.visit (m, d) c = some s)
    (hs' : Json.visit (m', d') c = some s') : Opposite s.1 s'.1 := by
  have hstep : ∀ {d d' : ℕ} {s s' : Mode × ℕ}, Json.visit (.inside, d) c = some s →
      Json.visit (.outside, d') c = some s' → Opposite s.1 s'.1 := by
    intro d d' s s' hs hs'
    obtain rfl := Option.some.inj hs
    unfold Json.visit at hs'
    dsimp only at hs' ⊢
    by_cases hquote : c = '"'
    · rw [if_pos hquote] at hs' ⊢
      obtain rfl := Option.some.inj hs'
      exact Or.inr ⟨rfl, rfl⟩
    · by_cases hslash : c = '\\'
      · rw [if_neg hquote, if_pos hslash] at hs'
        cases hs'
      · rw [if_neg hquote, if_neg hslash] at hs' ⊢
        refine Or.inl ⟨rfl, ?_⟩
        split_ifs at hs' <;> (obtain rfl := Option.some.inj hs'; rfl)
  rcases hopp with ⟨rfl, rfl⟩ | ⟨rfl, rfl⟩
  · exact hstep hs hs'
  · exact (hstep hs' hs).symm.imp And.symm And.symm

/-- Two walks on opposite sides of a quote stay on opposite sides. -/
theorem Opposite.walk (hopp : Opposite m m') (hs : Json.walk (m, d) t = some s)
    (hs' : Json.walk (m', d') t = some s') : Opposite s.1 s'.1 := by
  induction t generalizing m m' d d' with
  | nil =>
    obtain rfl := Option.some.inj hs
    obtain rfl := Option.some.inj hs'
    exact hopp
  | cons c t ih =>
    rw [walk_cons] at hs hs'
    obtain ⟨⟨m₁, d₁⟩, hc, ht⟩ := Option.bind_eq_some_iff.mp hs
    obtain ⟨⟨m₂, d₂⟩, hc', ht'⟩ := Option.bind_eq_some_iff.mp hs'
    exact ih (hopp.visit hc hc') ht ht'

/-- What stands between the braces of a text leaves the scan as it found it. -/
theorem IsText.exists_inner (h : IsText ('\x7b' :: t) v) :
    ∃ u w, Blank w ∧ t = u ++ '\x7d' :: w ∧ ∀ d, Json.walk (.outside, d) u = some (.outside, d) := by
  obtain ⟨⟨ms, rfl⟩, s, w, hw, heq, hs⟩ := h.of_braces
  cases hs with
  | scalar hdelim ht =>
    obtain ⟨b, s', rfl⟩ := List.exists_cons_of_ne_nil (ne_nil_of_scalar? ht)
    rw [← (List.cons.inj heq).1] at hdelim
    exact absurd (hdelim _ List.mem_cons_self) (by decide)
  | @emptyObject u hu =>
    rw [List.cons_append, List.append_assoc] at heq
    exact ⟨u, w, hw, (List.cons.inj heq).2, fun d => walk_blank hu⟩
  | @object u ms hms =>
    rw [List.cons_append, List.append_assoc] at heq
    exact ⟨u, w, hw, (List.cons.inj heq).2, hms.walk⟩

/-- **No text ends in another one.**  What is left of a text between braces, from some
brace inside of it on, is not a text. -/
theorem IsText.not_isText_suffix {p q : List Char} (h : IsText ('\x7b' :: (p ++ '\x7b' :: q)) v) :
    ¬ IsText ('\x7b' :: q) w := by
  intro hsuffix
  obtain ⟨u, blanks, hblanks, heq, hu⟩ := h.exists_inner
  -- the second brace stands inside of the first one and its partner
  obtain ⟨u', rfl⟩ : ∃ u', u = p ++ '\x7b' :: u' := by
    rcases List.append_eq_append_iff.mp heq with ⟨a, rfl, ha⟩ | ⟨a, rfl, ha⟩
    · cases a with
      | nil => exact absurd (List.cons.inj ha).1 (by decide)
      | cons b a =>
        rw [(List.cons.inj ha).1]
        exact ⟨a, rfl⟩
    · cases a with
      | nil => exact absurd (List.cons.inj ha).1 (by decide)
      | cons b a =>
        have hmem : '\x7b' ∈ blanks := by
          rw [(List.cons.inj ha).2]
          exact List.mem_append_right _ List.mem_cons_self
        exact absurd (hblanks _ hmem) (by decide)
  obtain ⟨⟨m, e⟩, hp, -⟩ := walk_of_append (hu 0)
  have hwhole := h.walk 0
  have hopen : visit (.outside, 0) '\x7b' = some (.outside, 1) := rfl
  rw [walk_cons_of_eq hopen, walk_append_of_eq (walk_succ hp)] at hwhole
  have hrest := hsuffix.walk (e + 1)
  cases m with
  | outside =>
    rw [hwhole, Option.some.injEq, Prod.mk.injEq] at hrest
    exact absurd hrest.2 (Nat.succ_ne_zero e).symm
  | inside =>
    rcases Opposite.walk (Or.inl ⟨rfl, rfl⟩) hwhole hrest with ⟨h, -⟩ | ⟨-, h⟩ <;> cases h
  | escape =>
    have hstuck : visit (.escape, e + 1) '\x7b' = none := rfl
    rw [walk_cons, hstuck] at hwhole
    cases hwhole

/-! ## Suffixes in bytes -/

/-- The bytes of a text, the first character taken off. -/
theorem utf8_cons (c : Char) (cs : List Char) : utf8 (c :: cs) = String.utf8EncodeChar c ++ utf8 cs :=
  List.flatMap_cons

/-- ASCII characters with one byte are equal. -/
theorem ofNat_toNat_inj (hc : c.toNat < 128) {d : Char} (hd : d.toNat < 128)
    (h : UInt8.ofNat c.toNat = UInt8.ofNat d.toNat) : c = d := by
  have hnat := congrArg UInt8.toNat h
  rw [UInt8.toNat_ofNat_of_lt' (Nat.lt_trans hc (by decide)),
    UInt8.toNat_ofNat_of_lt' (Nat.lt_trans hd (by decide))] at hnat
  exact Char.toNat_inj.mp hnat

/-- A byte of ASCII among the bytes of a text is a character of it. -/
theorem exists_of_utf8_eq_append (hc : c.toNat < 128) {cs : List Char} {x y : List UInt8}
    (h : utf8 cs = x ++ UInt8.ofNat c.toNat :: y) :
    ∃ ds es, cs = ds ++ c :: es ∧ utf8 ds = x ∧ utf8 es = y := by
  induction cs generalizing x with
  | nil => exact absurd h (List.append_ne_nil_of_right_ne_nil x (List.cons_ne_nil _ _)).symm
  | cons d cs ih =>
    rw [utf8_cons] at h
    have hlater : ∀ z, x = String.utf8EncodeChar d ++ z →
        utf8 cs = z ++ UInt8.ofNat c.toNat :: y →
        ∃ ds es, d :: cs = ds ++ c :: es ∧ utf8 ds = x ∧ utf8 es = y := by
      intro z hx hz
      obtain ⟨ds, es, rfl, hds, hes⟩ := ih hz
      exact ⟨d :: ds, es, rfl, by rw [utf8_cons, hds, hx], hes⟩
    rcases List.append_eq_append_iff.mp h with ⟨z, hx, hz⟩ | ⟨z, hd, hz⟩
    · exact hlater z hx hz
    · cases z with
      | nil =>
        rw [List.append_nil] at hd
        exact hlater [] (by rw [hd, List.append_nil]) hz.symm
      | cons b z =>
        obtain ⟨rfl, hy⟩ := List.cons.inj hz
        rcases Nat.lt_or_ge d.toNat 128 with hascii | hwide
        · -- the byte is all of the character
          rw [utf8EncodeChar_ascii hascii] at hd
          rcases List.singleton_eq_append_iff.mp hd with ⟨rfl, hsame⟩ | ⟨-, hnil⟩
          · obtain ⟨hbyte, rfl⟩ := List.cons.inj hsame
            exact ⟨[], cs, by rw [ofNat_toNat_inj hc hascii hbyte, List.nil_append], rfl, hy.symm⟩
          · cases hnil
        · have hbyte := le_of_mem_utf8EncodeChar hwide
            (hd ▸ List.mem_append_right x List.mem_cons_self)
          rw [UInt8.toNat_ofNat_of_lt' (Nat.lt_trans hc (by decide))] at hbyte
          exact absurd hbyte (Nat.not_le.mpr hc)

/-- **What is left of the bytes of a text**, from a brace inside of it on, is no text. -/
theorem IsText.decodeBytes_suffix {x y : List UInt8} (h : IsText ('{' :: t) v)
    (hx : x ≠ []) (hbytes : utf8 ('{' :: t) = x ++ 123 :: y) : decodeBytes (123 :: y) = none := by
  obtain ⟨ds, es, hsplit, rfl, rfl⟩ := exists_of_utf8_eq_append (c := '{') (by decide) hbytes
  cases ds with
  | nil => exact absurd rfl hx
  | cons d ds =>
    obtain ⟨rfl, rfl⟩ := List.cons.inj hsplit
    have hsuffix : 123 :: utf8 es = utf8 ('{' :: es) := rfl
    rw [hsuffix, decodeBytes_utf8]
    refine Option.eq_none_iff_forall_ne_some.mpr fun w hw => ?_
    exact h.not_isText_suffix (decode_eq_some_iff.mp hw)

end Json
