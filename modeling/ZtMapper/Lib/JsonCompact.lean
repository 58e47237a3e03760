/-
# JSON texts made compact

The blanks outside of strings are dropped, and the characters that HTML treats in a special
way are written as escapes.  What a text denotes stays the same (`Denotes.compact`).
-/
import ZtMapper.Lib.JsonNesting

namespace Json

/-- The characters that are escaped for HTML, and for JavaScript. -/
def escapeHtml (c : Char) : List Char :=
  if c = '<' then ['\\', 'u', '0', '0', '3', 'c']
  else if c = '>' then ['\\', 'u', '0', '0', '3', 'e']
  else if c = '&' then ['\\', 'u', '0', '0', '2', '6']
  else if c = '\u2028' then ['\\', 'u', '2', '0', '2', '8']
  else if c = '\u2029' then ['\\', 'u', '2', '0', '2', '9']
  else [c]

/-- A text that is read from a mode on. -/
def compactFrom : Mode → List Char → List Char
  | _, [] => []
  | .outside, c :: s =>
    if isWs c then compactFrom .outside s
    else c :: compactFrom (if c = '"' then .inside else .outside) s
  | .inside, c :: s =>
    if c = '"' then c :: compactFrom .outside s
    else if c = '\\' then c :: compactFrom .escape s
    else escapeHtml c ++ compactFrom .inside s
  | .escape, c :: s => c :: compactFrom .inside s

def compact (t : List Char) : List Char := compactFrom .outside t

variable {m m' : Mode} {d d' : ℕ} {c : Char} {s t u w q : List Char} {v : Value}

/-! ## Parts of a text -/

/-- One character, in the mode that the scan is in. -/
theorem compactFrom_cons (h : visit (m, d) c = some (m', d')) (u : List Char) :
    compactFrom m (c :: u) = compactFrom m [c] ++ compactFrom m' u := by
  cases m with
  | outside =>
    have hmode : m' = if c = '"' then .inside else .outside := by
      unfold visit at h
      dsimp only at h
      split_ifs at h <;> simp_all
    rw [hmode, compactFrom, compactFrom]
    by_cases hws : isWs c = true
    · rw [if_pos hws, if_pos hws, compactFrom, List.nil_append]
      have hquote : c ≠ '"' := by
        rintro rfl
        exact absurd hws (by decide)
      rw [if_neg hquote]
    · rw [if_neg hws, if_neg hws]
      split <;> rfl
  | inside =>
    obtain ⟨rfl, -⟩ := Prod.mk.inj (Option.some.inj h)
    rw [compactFrom, compactFrom]
    split_ifs
    · rfl
    · rfl
    · rw [compactFrom, List.append_nil]
  | escape =>
    unfold visit at h
    dsimp only at h
    split_ifs at h
    obtain ⟨rfl, -⟩ := Prod.mk.inj (Option.some.inj h)
    rfl

/-- A text is made compact part by part. -/
theorem compactFrom_append (h : walk (m, d) t = some (m', d')) (u : List Char) :
    compactFrom m (t ++ u) = compactFrom m t ++ compactFrom m' u := by
  induction t generalizing m d with
  | nil =>
    obtain ⟨rfl, -⟩ := Prod.mk.inj (Option.some.inj h)
    rw [compactFrom, List.nil_append, List.nil_append]
  | cons c t ih =>
    rw [walk_cons] at h
    obtain ⟨⟨m₁, d₁⟩, hc, ht⟩ := Option.bind_eq_some_iff.mp h
    rw [List.cons_append, compactFrom_cons hc, compactFrom_cons hc t, ih ht, List.append_assoc]

/-- Compaction of one value after the other. -/
theorem compact_append (h : walk (.outside, 0) t = some (.outside, d)) (u : List Char) :
    compact (t ++ u) = compact t ++ compact u :=
  compactFrom_append h u

/-- Blanks are dropped. -/
theorem compact_blank (hw : Blank w) : compact w = [] := by
  induction w with
  | nil => rfl
  | cons c w ih =>
    rw [Blank, List.forall_mem_cons] at hw
    rw [compact, compactFrom, if_pos hw.1]
    exact ih hw.2

/-- Blanks in front are dropped. -/
theorem compact_blank_append (hw : Blank w) (u : List Char) : compact (w ++ u) = compact u := by
  rw [compact_append (walk_blank hw), compact_blank hw, List.nil_append]

/-- A character that is neither blank nor a quote. -/
theorem compact_cons (hws : isWs c = false) (hquote : c ≠ '"') (u : List Char) :
    compact (c :: u) = c :: compact u := by
  rw [compact, compactFrom, hws, if_neg Bool.false_ne_true, if_neg hquote]
  rfl

/-- Text that is no blank and opens no string is kept. -/
theorem compact_of_isDelim (ht : ∀ c ∈ t, isDelim c = false) : compact t = t := by
  induction t with
  | nil => rfl
  | cons c t ih =>
    rw [List.forall_mem_cons] at ht
    obtain ⟨hws, -, -, -, hquote⟩ := isWs_of_isDelim ht.1
    rw [compact_cons hws hquote, ih ht.2]

/-- A string is kept but for the escapes of HTML characters. -/
theorem compact_quoted {ps : List Piece} (hq : CharsText q ps) (u : List Char) :
    compact ('"' :: (q ++ '"' :: u)) = '"' :: (compactFrom .inside q ++ '"' :: compact u) := by
  have hopen : compact ('"' :: (q ++ '"' :: u)) = '"' :: compactFrom .inside (q ++ '"' :: u) := rfl
  rw [hopen, compactFrom_append (hq.walk (d := 0))]
  rfl

/-! ## Strings -/

/-- A character is written as itself or as an escape of its number. -/
theorem escapeHtml_cases (c : Char) : escapeHtml c = [c] ∨
    ∃ a b d e, escapeHtml c = ['\\', 'u', a, b, d, e] ∧ hex4? a b d e = some c.toNat ∧
      c.toNat < 0xD800 := by
  unfold escapeHtml
  split_ifs with h₁ h₂ h₃ h₄ h₅
  · exact Or.inr ⟨_, _, _, _, rfl, by rw [h₁]; rfl, by rw [h₁]; decide⟩
  · exact Or.inr ⟨_, _, _, _, rfl, by rw [h₂]; rfl, by rw [h₂]; decide⟩
  · exact Or.inr ⟨_, _, _, _, rfl, by rw [h₃]; rfl, by rw [h₃]; decide⟩
  · exact Or.inr ⟨_, _, _, _, rfl, by rw [h₄]; rfl, by rw [h₄]; decide⟩
  · exact Or.inr ⟨_, _, _, _, rfl, by rw [h₅]; rfl, by rw [h₅]; decide⟩
  · exact Or.inl rfl

/-- Hexadecimal digits need no escape. -/
theorem escapeHtml_of_hexDigit? {n : ℕ} (h : hexDigit? c = some n) : escapeHtml c = [c] := by
  have hne : ∀ b, hexDigit? b = none → c ≠ b := by
    rintro b hb rfl
    exact Option.some_ne_none n (h.symm.trans hb)
  rw [escapeHtml, if_neg (hne _ (by decide)), if_neg (hne _ (by decide)), if_neg (hne _ (by decide)),
    if_neg (hne _ (by decide)), if_neg (hne _ (by decide))]

/-- The pieces of a string before and after: some characters have become code units. -/
def Respelled (p p' : Piece) : Prop :=
  p' = p ∨ ∃ c : Char, c.toNat < 0xD800 ∧ p = .char c ∧ p' = .unit c.toNat

/-- A string spelled otherwise is the same string. -/
theorem ofPieces_respelled {ps ps' : List Piece} (h : List.Forall₂ Respelled ps ps') :
    ofPieces ps' = ofPieces ps := by
  fun_induction ofPieces ps generalizing ps' with
  | case1 =>
    cases h
    rfl
  | case2 c ps ih =>
    obtain _ | ⟨hp, hps⟩ := h
    rcases hp with rfl | ⟨_, hc, heq, rfl⟩
    · rw [ofPieces, ih hps]
    · obtain rfl := Piece.char.inj heq
      rw [ofPieces_unit hc, ih hps, Char.ofNat_toNat]
  | case3 u u' ps hpair ih =>
    obtain _ | ⟨hp, _ | ⟨hp', hps⟩⟩ := h
    obtain rfl | ⟨_, -, heq, -⟩ := hp
    · obtain rfl | ⟨_, -, heq, -⟩ := hp'
      · rw [ofPieces, if_pos hpair, ih hps]
      · cases heq
    · cases heq
  | case4 u u' ps hpair ih =>
    obtain _ | ⟨hp, _ | ⟨hp', hps⟩⟩ := h
    obtain rfl | ⟨_, -, heq, -⟩ := hp
    · obtain rfl | ⟨_, -, heq, -⟩ := hp'
      · rw [ofPieces, if_neg hpair, ih (.cons (Or.inl rfl) hps)]
      · cases heq
    · cases heq
  | case5 u ps hps ih =>
    obtain _ | ⟨hp, htail⟩ := h
    obtain rfl | ⟨_, -, heq, -⟩ := hp
    · cases htail with
      | nil => rfl
      | @cons p p' ps ps' hp' hrest =>
        have hrec := ih (.cons hp' hrest)
        rcases hp' with rfl | ⟨c, hc, rfl, rfl⟩
        · cases p' with
          | char c => exact congrArg (ofUnit u :: ·) hrec
          | unit u' => exact absurd rfl (hps u' ps)
        · -- the unit of a character is no second half of a pair
          have hlow : isLow c.toNat = false := by
            rw [isLow, decide_eq_false (by omega), Bool.false_and]
          have hself : ofPieces (.unit u :: .unit c.toNat :: ps') =
              ofUnit u :: ofPieces (.unit c.toNat :: ps') := by
            rw [ofPieces, hlow, Bool.and_false]
            rfl
          rw [hself, hrec]
    · cases heq

/-- **The text of a string made compact** is a text of the same string. -/
theorem CharsText.compactFrom {ps : List Piece} (h : CharsText q ps) :
    ∃ ps', CharsText (Json.compactFrom .inside q) ps' ∧ List.Forall₂ Respelled ps ps' := by
  induction h with
  | nil => exact ⟨[], .nil, .nil⟩
  | @plain c t ps hquote hslash hc h ih =>
    obtain ⟨ps', hps', hsame⟩ := ih
    rw [Json.compactFrom, if_neg hquote, if_neg hslash]
    rcases escapeHtml_cases c with hself | ⟨a, b, d, e, hescape, hu, hlt⟩
    · rw [hself]
      exact ⟨_, .plain hquote hslash hc hps', .cons (Or.inl rfl) hsame⟩
    · rw [hescape]
      exact ⟨_, .unicode hu hps', .cons (Or.inr ⟨c, hlt, rfl, rfl⟩) hsame⟩
  | escape he h ih =>
    obtain ⟨ps', hps', hsame⟩ := ih
    exact ⟨_, .escape he hps', .cons (Or.inl rfl) hsame⟩
  | @unicode a b c d u t ps hu h ih =>
    obtain ⟨ps', hps', hsame⟩ := ih
    have hdigit : ∀ {c : Char} {n : ℕ} (s : List Char), hexDigit? c = some n →
        Json.compactFrom .inside (c :: s) = c :: Json.compactFrom .inside s := by
      intro c n s hc
      obtain ⟨hquote, hslash⟩ := ne_of_hexDigit? hc
      rw [Json.compactFrom, if_neg hquote, if_neg hslash, escapeHtml_of_hexDigit? hc]
      rfl
    have hunit := hu
    simp only [hex4?, Option.bind_eq_bind, Option.bind_eq_some_iff] at hunit
    obtain ⟨na, ha, nb, hb, nc, hc, nd, hd, -⟩ := hunit
    have hslash : ∀ s, Json.compactFrom .inside ('\\' :: 'u' :: s) =
        '\\' :: 'u' :: Json.compactFrom .inside s := fun s => rfl
    rw [hslash, hdigit _ ha, hdigit _ hb, hdigit _ hc, hdigit _ hd]
    exact ⟨_, .unicode hu hps', .cons (Or.inl rfl) hsame⟩

/-- A key stays that key. -/
theorem compact_keyText {n : List Char} {k : String} (h : KeyText n k) : KeyText (compact n) k := by
  obtain ⟨w, q, ps, w', hw, hw', hq, rfl, rfl⟩ := h
  obtain ⟨ps', hps', hsame⟩ := hq.compactFrom
  rw [compact_blank_append hw, compact_quoted hq, compact_blank_append hw',
    compact_cons (by decide) (by decide)]
  exact ⟨[], _, ps', [], blank_nil, blank_nil, hps', by rw [ofPieces_respelled hsame], rfl⟩

/-! ## Texts of the grammar -/

/-- Brackets around a text. -/
theorem compact_bracketed {l r : Char} (hl : l = '[' ∨ l = '\x7b') (hr : r = ']' ∨ r = '\x7d')
    (ht : walk (.outside, 0) t = some (.outside, 0)) :
    compact (l :: (t ++ [r])) = l :: (compact t ++ [r]) := by
  have hopen : ∀ u, compact (l :: u) = l :: compact u := fun u => by
    rcases hl with rfl | rfl <;> exact compact_cons (by decide) (by decide) u
  have hclose : compact [r] = [r] := by
    rcases hr with rfl | rfl <;> rfl
  rw [hopen, compact_append ht, hclose]

/-- **A text made compact denotes the same.** -/
theorem Denotes.compact {g : Goal} {r : g.Result} (h : Denotes g t r) :
    Denotes g (Json.compact t) r := by
  have hnil := blank_nil
  induction h with
  | scalar hdelim ht =>
    rw [compact_of_isDelim hdelim]
    exact .scalar hdelim ht
  | @string t ps ht =>
    obtain ⟨ps', hps', hsame⟩ := ht.compactFrom
    rw [compact_quoted ht, ← ofPieces_respelled hsame]
    exact .string hps'
  | emptyArray hw =>
    rw [compact_bracketed (by decide) (by decide) (walk_blank hw), compact_blank hw]
    exact .emptyArray hnil
  | array h ih =>
    rw [compact_bracketed (by decide) (by decide) (h.walk 0)]
    exact .array ih
  | emptyObject hw =>
    rw [compact_bracketed (by decide) (by decide) (walk_blank hw), compact_blank hw]
    exact .emptyObject hnil
  | object h ih =>
    rw [compact_bracketed (by decide) (by decide) (h.walk 0)]
    exact .object ih
  | lastElement hw hw' h ih =>
    rw [compact_blank_append hw, compact_append (h.walk 0), compact_blank hw']
    exact .lastElement hnil hnil ih
  | element hw hw' h hs ih ihs =>
    rw [compact_blank_append hw, compact_append (h.walk 0), compact_blank_append hw',
      compact_cons (by decide) (by decide)]
    exact .element hnil hnil ih ihs
  | lastMember hn hw hw' h ih =>
    rw [compact_append hn.walk, compact_blank_append hw, compact_append (h.walk 0),
      compact_blank hw']
    exact .lastMember (compact_keyText hn) hnil hnil ih
  | member hn hw hw' h hs ih ihs =>
    rw [compact_append hn.walk, compact_blank_append hw, compact_append (h.walk 0),
      compact_blank_append hw', compact_cons (by decide) (by decide)]
    exact .member (compact_keyText hn) hnil hnil ih ihs

/-- **Compaction keeps the value.** -/
theorem IsText.compact (h : IsText t v) : Denotes .value (Json.compact t) v := by
  obtain ⟨w, s, w', hw, hw', rfl, hs⟩ := h
  rw [compact_blank_append hw, compact_append (hs.walk 0), compact_blank hw', List.append_nil]
  exact hs.compact

/-! ## Characters of printed strings -/

/-- A character as an encoder prints it that is safe for HTML. -/
def encodeChar (c : Char) : List Char :=
  if c = '"' ∨ c = '\\' then ['\\', c]
  else if c = '\x08' then ['\\', 'b']
  else if c = '\x0c' then ['\\', 'f']
  else if c = '\n' then ['\\', 'n']
  else if c = '\r' then ['\\', 'r']
  else if c = '\t' then ['\\', 't']
  else if c.toNat < 32 then
    ['\\', 'u', '0', '0', Nat.digitChar (c.toNat / 16), Nat.digitChar (c.toNat % 16)]
  else escapeHtml c

/-- An encoded character denotes it. -/
theorem itemText_encodeChar (c : Char) : ItemText (encodeChar c) c := by
  unfold encodeChar
  split_ifs with h₁ h₂ h₃ h₄ h₅ h₆ h₇
  · rcases h₁ with rfl | rfl <;> exact itemText_escape rfl
  · exact itemText_escape (by rw [h₂]; rfl)
  · exact itemText_escape (by rw [h₃]; rfl)
  · exact itemText_escape (by rw [h₄]; rfl)
  · exact itemText_escape (by rw [h₅]; rfl)
  · exact itemText_escape (by rw [h₆]; rfl)
  · have hhex : ∀ n < 32,
        hex4? '0' '0' (Nat.digitChar (n / 16)) (Nat.digitChar (n % 16)) = some n := by decide
    have hitem := itemText_unicode (hhex c.toNat h₇) (by omega)
    rwa [Char.ofNat_toNat] at hitem
  · obtain ⟨hquote, hslash⟩ := not_or.mp h₁
    rcases escapeHtml_cases c with hself | ⟨a, b, d, e, hescape, hu, hlt⟩
    · rw [hself]
      exact itemText_plain hquote hslash
        (Char.le_def.mpr (UInt32.le_iff_toNat_le.mpr (Nat.not_lt.mp h₇)))
    · rw [hescape]
      have hitem := itemText_unicode hu hlt
      rwa [Char.ofNat_toNat] at hitem

end Json
