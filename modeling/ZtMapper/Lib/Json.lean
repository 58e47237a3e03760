/-
# JSON texts

The grammar of JSON (RFC 8259) as a relation between texts and the values they
denote (`IsText`), and a decoder for it.  `decode_eq_some_iff` says that the
decoder accepts exactly the texts of the grammar and returns what they denote,
so a text denotes at most one value.
-/
import Mathlib.Data.List.TakeWhile
import Mathlib.Data.Nat.Notation
import Mathlib.Data.Int.Notation
import Mathlib.Tactic.Common

namespace Json

/-- `num m e` is the number `m · 10 ^ e`; the members of an object are in the order of
the text. -/
inductive Value where
  | null
  | bool (b : Bool)
  | num (m e : ℤ)
  | str (s : String)
  | arr (elements : List Value)
  | obj (members : List (String × Value))
  deriving Repr

/-! ## Blanks -/

def isWs (c : Char) : Bool := c == ' ' || c == '\t' || c == '\n' || c == '\r'

def Blank (w : List Char) : Prop := ∀ c ∈ w, isWs c = true

instance (w : List Char) : Decidable (Blank w) := List.decidableBAll _ w

def skipWs (s : List Char) : List Char := s.dropWhile isWs

/-- The characters that end a token. -/
def isDelim (c : Char) : Bool :=
  isWs c || ['[', ']', '\x7b', '\x7d', ',', ':', '"'].contains c

/-! ## Numbers and literals -/

def digits? (ds : List Char) : Option ℕ :=
  if ds ≠ [] ∧ ds.all Char.isDigit then some (Nat.ofDigitChars 10 ds 0) else none

/-- `[ ("e" / "E") [ "-" / "+" ] 1*DIGIT ]` -/
def exponent? : List Char → Option ℤ
  | [] => some 0
  | c :: s =>
    if c ≠ 'e' ∧ c ≠ 'E' then none
    else match s with
      | '-' :: ds => (digits? ds).map fun n => -(n : ℤ)
      | '+' :: ds => (digits? ds).map fun n => (n : ℤ)
      | ds => (digits? ds).map fun n => (n : ℤ)

/-- `int [ frac ] [ exp ]`, where `int` has no leading zero. -/
def unsigned? (t : List Char) : Option (ℕ × ℤ) :=
  let int := t.takeWhile Char.isDigit
  if int = [] ∨ (int.head? = some '0' ∧ int ≠ ['0']) then none
  else match t.dropWhile Char.isDigit with
    | '.' :: s =>
      let frac := s.takeWhile Char.isDigit
      if frac = [] then none
      else (exponent? (s.dropWhile Char.isDigit)).map fun e =>
        (Nat.ofDigitChars 10 (int ++ frac) 0, e - frac.length)
    | s => (exponent? s).map fun e => (Nat.ofDigitChars 10 int 0, e)

def number? : List Char → Option Value
  | '-' :: t => (unsigned? t).map fun (m, e) => .num (-(m : ℤ)) e
  | t => (unsigned? t).map fun (m, e) => .num (m : ℤ) e

/-- A literal name or a number. -/
def scalar? (t : List Char) : Option Value :=
  if t = ['n', 'u', 'l', 'l'] then some .null
  else if t = ['t', 'r', 'u', 'e'] then some (.bool true)
  else if t = ['f', 'a', 'l', 's', 'e'] then some (.bool false)
  else number? t

/-! ## Strings -/

/-- What one item of a string stands for: a character, or the UTF-16 code unit of a
`\u` escape. -/
inductive Piece where
  | char (c : Char)
  | unit (u : ℕ)
  deriving DecidableEq, Repr

def isHigh (u : ℕ) : Bool := 0xD800 ≤ u && u < 0xDC00

def isLow (u : ℕ) : Bool := 0xDC00 ≤ u && u < 0xE000

/-- The character of a code unit on its own; a lone surrogate is replaced. -/
def ofUnit (u : ℕ) : Char := if isHigh u || isLow u then '\uFFFD' else Char.ofNat u

/-- The characters of a string: two surrogates in a row are one character. -/
def ofPieces : List Piece → List Char
  | [] => []
  | .char c :: ps => c :: ofPieces ps
  | .unit u :: .unit u' :: ps =>
    if isHigh u && isLow u' then
      Char.ofNat (0x10000 + (u - 0xD800) * 0x400 + (u' - 0xDC00)) :: ofPieces ps
    else ofUnit u :: ofPieces (.unit u' :: ps)
  | .unit u :: ps => ofUnit u :: ofPieces ps

/-- The character of a two-character escape. -/
def escaped? (c : Char) : Option Char :=
  [('"', '"'), ('\\', '\\'), ('/', '/'), ('b', '\x08'), ('f', '\x0c'), ('n', '\n'),
    ('r', '\r'), ('t', '\t')].lookup c

def hexDigit? (c : Char) : Option ℕ :=
  if '0' ≤ c ∧ c ≤ '9' then some (c.toNat - 48)
  else if 'a' ≤ c ∧ c ≤ 'f' then some (c.toNat - 87)
  else if 'A' ≤ c ∧ c ≤ 'F' then some (c.toNat - 55)
  else none

def hex4? (a b c d : Char) : Option ℕ := do
  return (((← hexDigit? a) * 16 + (← hexDigit? b)) * 16 + (← hexDigit? c)) * 16 + (← hexDigit? d)

/-- The text of a string between its quotes. -/
inductive CharsText : List Char → List Piece → Prop
  | nil : CharsText [] []
  | plain {c : Char} {t : List Char} {ps : List Piece} (hquote : c ≠ '"') (hslash : c ≠ '\\')
      (hc : ' ' ≤ c) (h : CharsText t ps) : CharsText (c :: t) (.char c :: ps)
  | escape {e c : Char} {t : List Char} {ps : List Piece} (he : escaped? e = some c)
      (h : CharsText t ps) : CharsText ('\\' :: e :: t) (.char c :: ps)
  | unicode {a b c d : Char} {u : ℕ} {t : List Char} {ps : List Piece}
      (hu : hex4? a b c d = some u) (h : CharsText t ps) :
      CharsText ('\\' :: 'u' :: a :: b :: c :: d :: t) (.unit u :: ps)

/-! ## The grammar -/

/-- What a text is read as: a value, or what stands between the brackets of a nonempty
array or object. -/
inductive Goal where
  | value
  | elements
  | members
  deriving DecidableEq, Repr

@[reducible] def Goal.Result : Goal → Type
  | .value => Value
  | .elements => List Value
  | .members => List (String × Value)

/-- The name of a member, up to the colon. -/
def KeyText (t : List Char) (k : String) : Prop :=
  ∃ w q ps w', Blank w ∧ Blank w' ∧ CharsText q ps ∧ String.ofList (ofPieces ps) = k ∧
    t = w ++ '"' :: (q ++ '"' :: (w' ++ [':']))

inductive Denotes : (g : Goal) → List Char → g.Result → Prop
  | scalar {t : List Char} {v : Value} (hdelim : ∀ c ∈ t, isDelim c = false)
      (ht : scalar? t = some v) : Denotes .value t v
  | string {t : List Char} {ps : List Piece} (ht : CharsText t ps) :
      Denotes .value ('"' :: (t ++ ['"'])) (.str (String.ofList (ofPieces ps)))
  | emptyArray {w : List Char} (hw : Blank w) : Denotes .value ('[' :: (w ++ [']'])) (.arr [])
  | array {t : List Char} {vs : List Value} (h : Denotes .elements t vs) :
      Denotes .value ('[' :: (t ++ [']'])) (.arr vs)
  | emptyObject {w : List Char} (hw : Blank w) :
      Denotes .value ('\x7b' :: (w ++ ['\x7d'])) (.obj [])
  | object {t : List Char} {ms : List (String × Value)} (h : Denotes .members t ms) :
      Denotes .value ('\x7b' :: (t ++ ['\x7d'])) (.obj ms)
  | lastElement {w t w' : List Char} {v : Value} (hw : Blank w) (hw' : Blank w')
      (h : Denotes .value t v) : Denotes .elements (w ++ (t ++ w')) [v]
  | element {w t w' ts : List Char} {v : Value} {vs : List Value} (hw : Blank w) (hw' : Blank w')
      (h : Denotes .value t v) (hs : Denotes .elements ts vs) :
      Denotes .elements (w ++ (t ++ (w' ++ ',' :: ts))) (v :: vs)
  | lastMember {n w t w' : List Char} {k : String} {v : Value} (hn : KeyText n k) (hw : Blank w)
      (hw' : Blank w') (h : Denotes .value t v) :
      Denotes .members (n ++ (w ++ (t ++ w'))) [(k, v)]
  | member {n w t w' ts : List Char} {k : String} {v : Value} {ms : List (String × Value)}
      (hn : KeyText n k) (hw : Blank w) (hw' : Blank w') (h : Denotes .value t v)
      (hs : Denotes .members ts ms) :
      Denotes .members (n ++ (w ++ (t ++ (w' ++ ',' :: ts)))) ((k, v) :: ms)

/-- `s` is a JSON text that denotes `v`. -/
def IsText (s : List Char) (v : Value) : Prop :=
  ∃ w t w', Blank w ∧ Blank w' ∧ s = w ++ (t ++ w') ∧ Denotes .value t v

/-! ## The decoder -/

/-- The items of a string up to its closing quote, and the text after it. -/
def scanChars : List Char → Option (List Piece × List Char)
  | [] => none
  | '"' :: s => some ([], s)
  | '\\' :: 'u' :: a :: b :: c :: d :: s => do
    let u ← hex4? a b c d
    let (ps, rest) ← scanChars s
    return (.unit u :: ps, rest)
  | '\\' :: e :: s => do
    let c ← escaped? e
    let (ps, rest) ← scanChars s
    return (.char c :: ps, rest)
  | c :: s =>
    if c = '\\' ∨ c < ' ' then none
    else do
      let (ps, rest) ← scanChars s
      return (.char c :: ps, rest)
termination_by structural s => s

/-- The name of a member and the text after its colon. -/
def scanKey (s : List Char) : Option (String × List Char) :=
  match skipWs s with
  | '"' :: s => do
    let (ps, rest) ← scanChars s
    match skipWs rest with
    | ':' :: rest => some (String.ofList (ofPieces ps), rest)
    | _ => none
  | _ => none

/-- The parser, by recursive descent: what the front of a text denotes and the text after
it; the closing bracket of elements and members is read with them. -/
def parse : ℕ → (g : Goal) → List Char → Option (g.Result × List Char)
  | 0, _, _ => none
  | n + 1, .value, s =>
    match s with
    | '[' :: s =>
      match skipWs s with
      | ']' :: rest => some (.arr [], rest)
      | _ => (parse n .elements s).map fun (vs, rest) => (.arr vs, rest)
    | '\x7b' :: s =>
      match skipWs s with
      | '\x7d' :: rest => some (.obj [], rest)
      | _ => (parse n .members s).map fun (ms, rest) => (.obj ms, rest)
    | '"' :: s => (scanChars s).map fun (ps, rest) => (.str (String.ofList (ofPieces ps)), rest)
    | s => (scalar? (s.takeWhile (! isDelim ·))).map fun v => (v, s.dropWhile (! isDelim ·))
  | n + 1, .elements, s => do
    let (v, rest) ← parse n .value (skipWs s)
    match skipWs rest with
    | ',' :: rest => (parse n .elements rest).map fun (vs, rest) => (v :: vs, rest)
    | ']' :: rest => some ([v], rest)
    | _ => none
  | n + 1, .members, s => do
    let (k, rest) ← scanKey s
    let (v, rest) ← parse n .value (skipWs rest)
    match skipWs rest with
    | ',' :: rest => (parse n .members rest).map fun (ms, rest) => ((k, v) :: ms, rest)
    | '\x7d' :: rest => some ([(k, v)], rest)
    | _ => none

theorem parse_quote_succ (n : ℕ) (s : List Char) : parse (n + 1) .value ('"' :: s) =
    (scanChars s).map fun (ps, rest) => (.str (String.ofList (ofPieces ps)), rest) :=
  rfl

theorem parse_bracket_succ (n : ℕ) (s : List Char) : parse (n + 1) .value ('[' :: s) =
    match skipWs s with
    | ']' :: rest => some (.arr [], rest)
    | _ => (parse n .elements s).map fun (vs, rest) => (.arr vs, rest) :=
  rfl

theorem parse_brace_succ (n : ℕ) (s : List Char) : parse (n + 1) .value ('\x7b' :: s) =
    match skipWs s with
    | '\x7d' :: rest => some (.obj [], rest)
    | _ => (parse n .members s).map fun (ms, rest) => (.obj ms, rest) :=
  rfl

theorem parse_elements_succ (n : ℕ) (s : List Char) : parse (n + 1) .elements s = (do
    let (v, rest) ← parse n .value (skipWs s)
    match skipWs rest with
    | ',' :: rest => (parse n .elements rest).map fun (vs, rest) => (v :: vs, rest)
    | ']' :: rest => some ([v], rest)
    | _ => none) :=
  rfl

theorem parse_members_succ (n : ℕ) (s : List Char) : parse (n + 1) .members s = (do
    let (k, rest) ← scanKey s
    let (v, rest) ← parse n .value (skipWs rest)
    match skipWs rest with
    | ',' :: rest => (parse n .members rest).map fun (ms, rest) => ((k, v) :: ms, rest)
    | '\x7d' :: rest => some ([(k, v)], rest)
    | _ => none) :=
  rfl

/-- The value of a whole text; the parser enters at most two goals for a character. -/
def decode (s : List Char) : Option Value := do
  let (v, rest) ← parse (2 * s.length + 1) .value (skipWs s)
  if skipWs rest = [] then some v else none

/-! ## Blanks are skipped -/

/-- Blanks in front are skipped up to the first character that is none. -/
theorem skipWs_append {w : List Char} (hw : Blank w) {s : List Char}
    (hs : ∀ c ∈ s.head?, isWs c = false) : skipWs (w ++ s) = s := by
  rw [skipWs, List.dropWhile_append_of_pos hw]
  cases s with
  | nil => rfl
  | cons c s => rw [List.dropWhile_cons_of_neg (by simp [hs c rfl])]

/-- As `skipWs_append`, for a text whose first character is given. -/
theorem skipWs_append_cons {w : List Char} (hw : Blank w) {c : Char} (hc : isWs c = false)
    (s : List Char) : skipWs (w ++ c :: s) = c :: s :=
  skipWs_append hw fun d hd => by
    obtain rfl := Option.some.inj hd
    exact hc

/-- A text is blanks and what is left when they are skipped. -/
theorem exists_blank_append (s : List Char) : ∃ w, Blank w ∧ s = w ++ skipWs s :=
  ⟨s.takeWhile isWs, List.all_eq_true.mp List.all_takeWhile, List.takeWhile_append_dropWhile.symm⟩

/-! ## Strings are scanned -/

/-- A string of the grammar is scanned up to its closing quote, whatever follows. -/
theorem scanChars_append {q : List Char} {ps : List Piece} (h : CharsText q ps) (rest : List Char) :
    scanChars (q ++ '"' :: rest) = some (ps, rest) := by
  induction h with
  | nil => rfl
  | @plain c t ps hquote hslash hc h ih =>
    rw [List.cons_append, scanChars.eq_5 _ _ hquote (fun _ _ _ _ _ heq => absurd heq hslash)
      (fun _ _ heq => absurd heq hslash), if_neg (not_or.mpr ⟨hslash, Char.not_lt.mpr hc⟩), ih]
    rfl
  | @escape e c t ps he h ih =>
    have hu : e ≠ 'u' := by
      rintro rfl
      cases he
    rw [List.cons_append, List.cons_append, scanChars.eq_4 _ _
      (fun _ _ _ _ _ heq => absurd heq hu), he, ih]
    rfl
  | unicode hu h ih =>
    simp only [List.cons_append, scanChars.eq_3, hu, ih]
    rfl

/-- What is scanned up to a closing quote is a string of the grammar. -/
theorem exists_charsText {s : List Char} {ps : List Piece} {rest : List Char}
    (h : scanChars s = some (ps, rest)) : ∃ q, CharsText q ps ∧ s = q ++ '"' :: rest := by
  fun_induction scanChars s generalizing ps with
  | case1 => exact absurd h (by simp)
  | case2 s =>
    obtain ⟨rfl, rfl⟩ := Prod.mk.inj (Option.some.inj h)
    exact ⟨[], .nil, rfl⟩
  | case3 a b c d s ih =>
    simp only [Option.bind_eq_bind, Option.bind_eq_some_iff, Option.pure_def, Option.some.injEq,
      Prod.mk.injEq, Prod.exists] at h
    obtain ⟨u, hu, ps', rest', hscan, rfl, rfl⟩ := h
    obtain ⟨q, hq, rfl⟩ := ih hscan
    exact ⟨_, .unicode hu hq, rfl⟩
  | case4 e s _ ih =>
    simp only [Option.bind_eq_bind, Option.bind_eq_some_iff, Option.pure_def, Option.some.injEq,
      Prod.mk.injEq, Prod.exists] at h
    obtain ⟨c, hc, ps', rest', hscan, rfl, rfl⟩ := h
    obtain ⟨q, hq, rfl⟩ := ih hscan
    exact ⟨_, .escape hc hq, rfl⟩
  | case5 => exact absurd h (by simp)
  | case6 c s hquote _ _ hc ih =>
    simp only [Option.bind_eq_bind, Option.bind_eq_some_iff, Option.pure_def, Option.some.injEq,
      Prod.mk.injEq, Prod.exists] at h
    obtain ⟨ps', rest', hscan, rfl, rfl⟩ := h
    obtain ⟨q, hq, rfl⟩ := ih hscan
    rw [not_or] at hc
    exact ⟨_, .plain hquote hc.1 (Char.not_lt.mp hc.2) hq, rfl⟩

/-- The name of a member is scanned up to its colon, whatever follows. -/
theorem scanKey_append {t : List Char} {k : String} (h : KeyText t k) (rest : List Char) :
    scanKey (t ++ rest) = some (k, rest) := by
  obtain ⟨w, q, ps, w', hw, hw', hq, rfl, rfl⟩ := h
  have htext : w ++ '"' :: (q ++ '"' :: (w' ++ [':'])) ++ rest
      = w ++ '"' :: (q ++ '"' :: (w' ++ ':' :: rest)) := by simp
  rw [htext, scanKey, skipWs_append_cons hw (by decide)]
  simp only [scanChars_append hq, Option.bind_eq_bind, Option.bind_some]
  rw [skipWs_append_cons hw' (by decide)]
  rfl

/-- What is scanned up to a colon is the name of a member. -/
theorem exists_keyText {s : List Char} {k : String} {rest : List Char}
    (h : scanKey s = some (k, rest)) : ∃ t, KeyText t k ∧ s = t ++ rest := by
  obtain ⟨w, hw, hs⟩ := exists_blank_append s
  rw [scanKey] at h
  split at h
  · next s' hskip =>
    rw [hskip] at hs
    simp only [Option.bind_eq_bind, Option.bind_eq_some_iff, Prod.exists] at h
    obtain ⟨ps, rest', hscan, h⟩ := h
    obtain ⟨q, hq, rfl⟩ := exists_charsText hscan
    obtain ⟨w', hw', hs'⟩ := exists_blank_append rest'
    split at h
    · next rest'' hskip' =>
      obtain ⟨rfl, rfl⟩ := Prod.mk.inj (Option.some.inj h)
      rw [hskip'] at hs'
      exact ⟨_, ⟨w, q, ps, w', hw, hw', hq, rfl, rfl⟩, by rw [hs, hs']; simp⟩
    · exact absurd h (by simp)
  · exact absurd h (by simp)

/-! ## The grammar is parsed -/

/-- The bracket that is read with what stands before it. -/
def Goal.close : Goal → List Char
  | .value => []
  | .elements => [']']
  | .members => ['\x7d']

/-- The fuel that is enough for a text. -/
def Goal.cost (g : Goal) (t : List Char) : ℕ :=
  match g with
  | .value => 2 * t.length
  | _ => 2 * t.length + 1

/-- A value ends where a delimiter or the end of the text follows. -/
def Follows (g : Goal) (rest : List Char) : Prop :=
  g = .value → ∀ c ∈ rest.head?, isDelim c = true

/-- A value may end in front of blanks and a delimiter. -/
theorem follows_append_cons {w : List Char} (hw : Blank w) {c : Char} (hc : isDelim c = true)
    (s : List Char) : Follows .value (w ++ c :: s) := by
  intro _ d hd
  cases w with
  | nil =>
    obtain rfl := Option.some.inj hd
    exact hc
  | cons b w =>
    obtain rfl := Option.some.inj hd
    rw [isDelim, hw b List.mem_cons_self, Bool.true_or]

/-- A character that ends no token opens neither a string nor a bracket. -/
theorem isWs_of_isDelim {c : Char} (hc : isDelim c = false) :
    isWs c = false ∧ c ≠ '[' ∧ c ≠ ']' ∧ c ≠ '\x7b' ∧ c ≠ '"' := by
  rw [isDelim, Bool.or_eq_false_iff] at hc
  refine ⟨hc.1, ?_, ?_, ?_, ?_⟩ <;>
  · rintro rfl
    exact absurd hc.2 (by decide)

/-- No literal and no number is empty. -/
theorem ne_nil_of_scalar? {t : List Char} {v : Value} (h : scalar? t = some v) : t ≠ [] := by
  rintro rfl
  cases h

/-- A value starts with a character that neither is blank nor closes an array. -/
theorem Denotes.exists_cons {t : List Char} {v : Value} (h : Denotes .value t v) :
    ∃ c s, t = c :: s ∧ isWs c = false ∧ c ≠ ']' := by
  cases h with
  | scalar hdelim ht =>
    obtain ⟨c, s, rfl⟩ := List.exists_cons_of_ne_nil (ne_nil_of_scalar? ht)
    obtain ⟨hws, -, hclose, -⟩ := isWs_of_isDelim (hdelim c List.mem_cons_self)
    exact ⟨c, s, rfl, hws, hclose⟩
  | string => exact ⟨_, _, rfl, by decide, by decide⟩
  | emptyArray => exact ⟨_, _, rfl, by decide, by decide⟩
  | array => exact ⟨_, _, rfl, by decide, by decide⟩
  | emptyObject => exact ⟨_, _, rfl, by decide, by decide⟩
  | object => exact ⟨_, _, rfl, by decide, by decide⟩

/-- Blanks before a value are skipped. -/
theorem Denotes.skipWs_append {w t : List Char} {v : Value} (h : Denotes .value t v)
    (hw : Blank w) (s : List Char) : skipWs (w ++ (t ++ s)) = t ++ s := by
  obtain ⟨c, t, rfl, hc, -⟩ := h.exists_cons
  exact skipWs_append_cons hw hc _

/-- Elements do not start with the bracket of an empty array. -/
theorem Denotes.skipWs_elements {t : List Char} {vs : List Value} (h : Denotes .elements t vs)
    (s : List Char) : ∃ c s', skipWs (t ++ s) = c :: s' ∧ c ≠ ']' := by
  have hskip : ∀ {w t s : List Char} {v : Value}, Blank w → Denotes .value t v →
      ∃ c s', skipWs (w ++ (t ++ s)) = c :: s' ∧ c ≠ ']' := by
    intro w t s v hw hv
    obtain ⟨c, t, rfl, hc, hclose⟩ := hv.exists_cons
    exact ⟨c, _, skipWs_append_cons hw hc _, hclose⟩
  cases h with
  | lastElement hw hw' hv =>
    rw [List.append_assoc, List.append_assoc]
    exact hskip hw hv
  | element hw hw' hv hs =>
    rw [List.append_assoc, List.append_assoc]
    exact hskip hw hv

/-- Members start with a name. -/
theorem Denotes.skipWs_members {t : List Char} {ms : List (String × Value)}
    (h : Denotes .members t ms) (s : List Char) : ∃ s', skipWs (t ++ s) = '"' :: s' := by
  have hskip : ∀ {n s : List Char} {k : String}, KeyText n k →
      ∃ s', skipWs (n ++ s) = '"' :: s' := by
    rintro n s k ⟨w, q, ps, w', hw, -, -, -, rfl⟩
    rw [List.append_assoc]
    exact ⟨_, skipWs_append_cons hw (by decide) _⟩
  cases h with
  | lastMember hn =>
    rw [List.append_assoc]
    exact hskip hn
  | member hn =>
    rw [List.append_assoc]
    exact hskip hn

/-- A literal or number is parsed up to the delimiter behind it. -/
theorem parse_scalar {t : List Char} {v : Value} (hdelim : ∀ c ∈ t, isDelim c = false)
    (ht : scalar? t = some v) {rest : List Char} (hrest : Follows .value rest) (n : ℕ) :
    parse (n + 1) .value (t ++ rest) = some (v, rest) := by
  have htake : (t ++ rest).takeWhile (! isDelim ·) = t ∧
      (t ++ rest).dropWhile (! isDelim ·) = rest := by
    have hpos : ∀ c ∈ t, (! isDelim c) = true := fun c hc => by rw [hdelim c hc]; rfl
    rw [List.takeWhile_append_of_pos hpos, List.dropWhile_append_of_pos hpos]
    cases rest with
    | nil => exact ⟨List.append_nil t, rfl⟩
    | cons c s =>
      have hc : isDelim c = true := hrest rfl c rfl
      rw [List.takeWhile_cons_of_neg (by rw [hc]; decide),
        List.dropWhile_cons_of_neg (by rw [hc]; decide)]
      exact ⟨List.append_nil t, rfl⟩
  obtain ⟨c, t', rfl⟩ := List.exists_cons_of_ne_nil (ne_nil_of_scalar? ht)
  obtain ⟨-, harr, -, hobj, hquote⟩ := isWs_of_isDelim (hdelim c List.mem_cons_self)
  rw [parse, htake.1, htake.2, ht]
  · rfl
  · exact fun s heq => harr (List.cons.inj heq).1
  · exact fun s heq => hobj (List.cons.inj heq).1
  · exact fun s heq => hquote (List.cons.inj heq).1

/-- An array that does not close at once has elements. -/
theorem parse_array {s : List Char} (hs : ∃ c s', skipWs s = c :: s' ∧ c ≠ ']') (n : ℕ) :
    parse (n + 1) .value ('[' :: s)
      = (parse n .elements s).map fun (vs, rest) => (.arr vs, rest) := by
  obtain ⟨c, s', hskip, hc⟩ := hs
  rw [parse_bracket_succ]
  split
  · next heq =>
    rw [hskip] at heq
    exact absurd (List.cons.inj heq).1 hc
  · rfl

/-- An object whose first character is a quote has members. -/
theorem parse_object {s : List Char} (hs : ∃ s', skipWs s = '"' :: s') (n : ℕ) :
    parse (n + 1) .value ('\x7b' :: s)
      = (parse n .members s).map fun (ms, rest) => (.obj ms, rest) := by
  obtain ⟨s', hskip⟩ := hs
  rw [parse_brace_succ, hskip]
  rfl

/-- The last element of an array, when its value is parsed. -/
theorem parse_lastElement {n : ℕ} {w t w' rest : List Char} {v : Value} (hw : Blank w)
    (hw' : Blank w') (h : Denotes .value t v)
    (hparse : parse n .value (t ++ (w' ++ ']' :: rest)) = some (v, w' ++ ']' :: rest)) :
    parse (n + 1) .elements (w ++ (t ++ w') ++ ([']'] ++ rest)) = some ([v], rest) := by
  rw [parse_elements_succ, List.append_assoc, List.append_assoc, List.singleton_append,
    h.skipWs_append hw, hparse, Option.bind_eq_bind, Option.bind_some]
  simp only [skipWs_append_cons hw' (by decide : isWs ']' = false)]

/-- An element and those behind the comma. -/
theorem parse_element {n : ℕ} {w t w' ts rest : List Char} {v : Value} {vs : List Value}
    (hw : Blank w) (hw' : Blank w') (h : Denotes .value t v)
    (hparse : parse n .value (t ++ (w' ++ ',' :: (ts ++ ']' :: rest))) =
      some (v, w' ++ ',' :: (ts ++ ']' :: rest)))
    (hparses : parse n .elements (ts ++ ']' :: rest) = some (vs, rest)) :
    parse (n + 1) .elements (w ++ (t ++ (w' ++ ',' :: ts)) ++ ([']'] ++ rest)) =
      some (v :: vs, rest) := by
  rw [parse_elements_succ, List.append_assoc, List.append_assoc, List.append_assoc,
    List.cons_append, List.singleton_append, h.skipWs_append hw, hparse, Option.bind_eq_bind,
    Option.bind_some]
  simp only [skipWs_append_cons hw' (by decide : isWs ',' = false), hparses, Option.map_some]

/-- The last member of an object, when its value is parsed. -/
theorem parse_lastMember {n : ℕ} {k w t w' rest : List Char} {name : String} {v : Value}
    (hk : KeyText k name) (hw : Blank w) (hw' : Blank w') (h : Denotes .value t v)
    (hparse : parse n .value (t ++ (w' ++ '\x7d' :: rest)) = some (v, w' ++ '\x7d' :: rest)) :
    parse (n + 1) .members (k ++ (w ++ (t ++ w')) ++ (['\x7d'] ++ rest)) =
      some ([(name, v)], rest) := by
  rw [parse_members_succ, List.append_assoc, List.append_assoc, List.append_assoc,
    List.singleton_append, scanKey_append hk, Option.bind_eq_bind, Option.bind_some]
  dsimp only
  rw [h.skipWs_append hw, hparse, Option.bind_eq_bind, Option.bind_some]
  simp only [skipWs_append_cons hw' (by decide : isWs '\x7d' = false)]

/-- A member and those behind the comma. -/
theorem parse_member {n : ℕ} {k w t w' ts rest : List Char} {name : String} {v : Value}
    {ms : List (String × Value)} (hk : KeyText k name) (hw : Blank w) (hw' : Blank w')
    (h : Denotes .value t v)
    (hparse : parse n .value (t ++ (w' ++ ',' :: (ts ++ '\x7d' :: rest))) =
      some (v, w' ++ ',' :: (ts ++ '\x7d' :: rest)))
    (hparses : parse n .members (ts ++ '\x7d' :: rest) = some (ms, rest)) :
    parse (n + 1) .members (k ++ (w ++ (t ++ (w' ++ ',' :: ts))) ++ (['\x7d'] ++ rest)) =
      some ((name, v) :: ms, rest) := by
  rw [parse_members_succ, List.append_assoc, List.append_assoc, List.append_assoc,
    List.append_assoc, List.cons_append, List.singleton_append, scanKey_append hk,
    Option.bind_eq_bind, Option.bind_some]
  dsimp only
  rw [h.skipWs_append hw, hparse, Option.bind_eq_bind, Option.bind_some]
  simp only [skipWs_append_cons hw' (by decide : isWs ',' = false), hparses, Option.map_some]

/-- **Every text of the grammar is parsed**, up to the text that follows it. -/
theorem Denotes.parse {g : Goal} {t : List Char} {r : g.Result} (h : Denotes g t r) :
    ∀ {n : ℕ} {rest : List Char}, g.cost t < n → Follows g rest →
      Json.parse n g (t ++ (g.close ++ rest)) = some (r, rest) := by
  -- `cost` counts the nested calls, so that the parts of a text are parsed with one unit less
  induction h with
  | scalar hdelim ht =>
    rintro (_ | n) rest hn hrest
    · exact absurd hn (Nat.not_lt_zero _)
    · exact parse_scalar hdelim ht hrest n
  | string ht =>
    rintro (_ | n) rest hn -
    · exact absurd hn (Nat.not_lt_zero _)
    · rw [List.cons_append, parse_quote_succ, List.append_assoc, List.singleton_append, Goal.close,
        List.nil_append, scanChars_append ht]
      rfl
  | emptyArray hw =>
    rintro (_ | n) rest hn -
    · exact absurd hn (Nat.not_lt_zero _)
    · rw [List.cons_append, parse_bracket_succ, List.append_assoc, List.singleton_append,
        skipWs_append_cons hw (by decide)]
      rfl
  | @array t vs h ih =>
    rintro (_ | n) rest hn -
    · exact absurd hn (Nat.not_lt_zero _)
    · have hcost : Goal.elements.cost t < n := by
        simp only [Goal.cost, List.length_cons, List.length_append, List.length_nil] at hn ⊢
        omega
      rw [List.cons_append, List.append_assoc, parse_array (h.skipWs_elements _)]
      have hparse : Json.parse n .elements (t ++ ([']'] ++ rest)) = some (vs, rest) :=
        ih hcost (fun hg => by cases hg)
      rw [Goal.close, List.nil_append, hparse]
      rfl
  | emptyObject hw =>
    rintro (_ | n) rest hn -
    · exact absurd hn (Nat.not_lt_zero _)
    · rw [List.cons_append, parse_brace_succ, List.append_assoc, List.singleton_append,
        skipWs_append_cons hw (by decide)]
      rfl
  | @object t ms h ih =>
    rintro (_ | n) rest hn -
    · exact absurd hn (Nat.not_lt_zero _)
    · have hcost : Goal.members.cost t < n := by
        simp only [Goal.cost, List.length_cons, List.length_append, List.length_nil] at hn ⊢
        omega
      rw [List.cons_append, List.append_assoc, parse_object (h.skipWs_members _)]
      have hparse : Json.parse n .members (t ++ (['\x7d'] ++ rest)) = some (ms, rest) :=
        ih hcost (fun hg => by cases hg)
      rw [Goal.close, List.nil_append, hparse]
      rfl
  | @lastElement w t w' v hw hw' h ih =>
    rintro (_ | n) rest hn -
    · exact absurd hn (Nat.not_lt_zero _)
    · have hcost : Goal.value.cost t < n := by
        simp only [Goal.cost, List.length_append] at hn ⊢
        omega
      exact parse_lastElement hw hw' h
        (ih hcost (follows_append_cons hw' (by decide : isDelim ']' = true) rest))
  | @element w t w' ts v vs hw hw' h hs ih ihs =>
    rintro (_ | n) rest hn -
    · exact absurd hn (Nat.not_lt_zero _)
    · have hcost : Goal.value.cost t < n ∧ Goal.elements.cost ts < n := by
        simp only [Goal.cost, List.length_append, List.length_cons] at hn ⊢
        omega
      exact parse_element hw hw' h
        (ih hcost.1 (follows_append_cons hw' (by decide : isDelim ',' = true) (ts ++ ']' :: rest)))
        (ihs hcost.2 (fun hg => by cases hg))
  | @lastMember k w t w' name v hk hw hw' h ih =>
    rintro (_ | n) rest hn -
    · exact absurd hn (Nat.not_lt_zero _)
    · have hcost : Goal.value.cost t < n := by
        simp only [Goal.cost, List.length_append] at hn ⊢
        omega
      exact parse_lastMember hk hw hw' h
        (ih hcost (follows_append_cons hw' (by decide : isDelim '\x7d' = true) rest))
  | @member k w t w' ts name v ms hk hw hw' h hs ih ihs =>
    rintro (_ | n) rest hn -
    · exact absurd hn (Nat.not_lt_zero _)
    · have hcost : Goal.value.cost t < n ∧ Goal.members.cost ts < n := by
        simp only [Goal.cost, List.length_append, List.length_cons] at hn ⊢
        omega
      exact parse_member hk hw hw' h
        (ih hcost.1 (follows_append_cons hw' (by decide : isDelim ',' = true) (ts ++ '\x7d' :: rest)))
        (ihs hcost.2 (fun hg => by cases hg))

/-! ## What is parsed is in the grammar -/

/-- What is left of a text after the first value in it. -/
theorem denotes_of_parse_value {n : ℕ}
    (helements : ∀ {s : List Char} {vs : List Value} {rest : List Char},
      parse n .elements s = some (vs, rest) → ∃ t, s = t ++ ']' :: rest ∧ Denotes .elements t vs)
    (hmembers : ∀ {s : List Char} {ms : List (String × Value)} {rest : List Char},
      parse n .members s = some (ms, rest) → ∃ t, s = t ++ '\x7d' :: rest ∧ Denotes .members t ms)
    {s : List Char} {v : Value} {rest : List Char} (h : parse (n + 1) .value s = some (v, rest)) :
    ∃ t, s = t ++ rest ∧ Denotes .value t v := by
  -- an array, an object, a string, or a scalar up to the next delimiter
  rw [parse.eq_def] at h
  dsimp only at h
  split at h
  · next s =>
    obtain ⟨w, hw, hs⟩ := exists_blank_append s
    split at h
    · next rest' hskip =>
      obtain ⟨rfl, rfl⟩ := Prod.mk.inj (Option.some.inj h)
      rw [hskip] at hs
      exact ⟨_, by rw [hs]; simp, .emptyArray hw⟩
    · obtain ⟨⟨vs, rest'⟩, hparse, hv⟩ := Option.map_eq_some_iff.mp h
      obtain ⟨rfl, rfl⟩ := Prod.mk.inj hv
      obtain ⟨t, rfl, ht⟩ := helements hparse
      exact ⟨_, by simp, .array ht⟩
  · next s =>
    obtain ⟨w, hw, hs⟩ := exists_blank_append s
    split at h
    · next rest' hskip =>
      obtain ⟨rfl, rfl⟩ := Prod.mk.inj (Option.some.inj h)
      rw [hskip] at hs
      exact ⟨_, by rw [hs]; simp, .emptyObject hw⟩
    · obtain ⟨⟨ms, rest'⟩, hparse, hv⟩ := Option.map_eq_some_iff.mp h
      obtain ⟨rfl, rfl⟩ := Prod.mk.inj hv
      obtain ⟨t, rfl, ht⟩ := hmembers hparse
      exact ⟨_, by simp, .object ht⟩
  · obtain ⟨⟨ps, rest'⟩, hscan, hv⟩ := Option.map_eq_some_iff.mp h
    obtain ⟨rfl, rfl⟩ := Prod.mk.inj hv
    obtain ⟨q, hq, rfl⟩ := exists_charsText hscan
    exact ⟨_, by simp, .string hq⟩
  · obtain ⟨v', hscalar, hv⟩ := Option.map_eq_some_iff.mp h
    obtain ⟨rfl, rfl⟩ := Prod.mk.inj hv
    refine ⟨_, List.takeWhile_append_dropWhile.symm, .scalar (fun c hc => ?_) hscalar⟩
    exact Bool.not_eq_true' _ ▸ List.all_eq_true.mp List.all_takeWhile c hc

/-- **What the parser accepts is in the grammar.** -/
theorem denotes_of_parse {n : ℕ} : ∀ {g : Goal} {s : List Char} {r : g.Result} {rest : List Char},
    parse n g s = some (r, rest) → ∃ t, s = t ++ (g.close ++ rest) ∧ Denotes g t r := by
  -- on the fuel: every part of a text is parsed with one unit less
  induction n with
  | zero =>
    intro g s r rest h
    exact absurd h (by simp [parse])
  | succ n ih =>
    intro g s r rest h
    cases g with
    | value => exact denotes_of_parse_value (ih (g := .elements)) (ih (g := .members)) h
    | elements =>
      obtain ⟨⟨v, rest'⟩, hparse, htail⟩ := Option.bind_eq_some_iff.mp h
      obtain ⟨w, hw, hs⟩ := exists_blank_append s
      obtain ⟨t, hskip, ht⟩ := ih hparse
      obtain ⟨w', hw', hrest⟩ := exists_blank_append rest'
      rw [hskip, hrest] at hs
      dsimp only at htail
      split at htail
      · next s' hskip' =>
        obtain ⟨⟨vs, rest''⟩, hparses, hv⟩ := Option.map_eq_some_iff.mp htail
        obtain ⟨rfl, rfl⟩ := Prod.mk.inj hv
        obtain ⟨ts, rfl, hts⟩ := ih hparses
        rw [hskip'] at hs
        exact ⟨_, by rw [hs]; simp [Goal.close], .element hw hw' ht hts⟩
      · next s' hskip' =>
        obtain ⟨rfl, rfl⟩ := Prod.mk.inj (Option.some.inj htail)
        rw [hskip'] at hs
        exact ⟨_, by rw [hs]; simp [Goal.close], .lastElement hw hw' ht⟩
      · exact absurd htail (by simp)
    | members =>
      obtain ⟨⟨k, s'⟩, hkey, hbody⟩ := Option.bind_eq_some_iff.mp h
      obtain ⟨⟨v, rest'⟩, hparse, htail⟩ := Option.bind_eq_some_iff.mp hbody
      obtain ⟨m, hm, rfl⟩ := exists_keyText hkey
      obtain ⟨w, hw, hs⟩ := exists_blank_append s'
      obtain ⟨t, hskip, ht⟩ := ih hparse
      obtain ⟨w', hw', hrest⟩ := exists_blank_append rest'
      rw [hskip, hrest] at hs
      dsimp only at htail
      split at htail
      · next s'' hskip' =>
        obtain ⟨⟨ms, rest''⟩, hparses, hv⟩ := Option.map_eq_some_iff.mp htail
        obtain ⟨rfl, rfl⟩ := Prod.mk.inj hv
        obtain ⟨ts, rfl, hts⟩ := ih hparses
        rw [hskip'] at hs
        exact ⟨_, by rw [hs]; simp [Goal.close], .member hm hw hw' ht hts⟩
      · next s'' hskip' =>
        obtain ⟨rfl, rfl⟩ := Prod.mk.inj (Option.some.inj htail)
        rw [hskip'] at hs
        exact ⟨_, by rw [hs]; simp [Goal.close], .lastMember hm hw hw' ht⟩
      · exact absurd htail (by simp)

/-- **The decoder accepts exactly the texts of the grammar**, and returns what they
denote. -/
theorem decode_eq_some_iff {s : List Char} {v : Value} : decode s = some v ↔ IsText s v := by
  constructor
  · intro h
    obtain ⟨⟨v', rest⟩, hparse, h⟩ := Option.bind_eq_some_iff.mp h
    obtain ⟨w, hw, hs⟩ := exists_blank_append s
    obtain ⟨w', hw', hrest⟩ := exists_blank_append rest
    obtain ⟨t, hskip, ht⟩ := denotes_of_parse hparse
    dsimp only at h
    split at h
    · next hnil =>
      obtain rfl := Option.some.inj h
      rw [hnil, List.append_nil] at hrest
      exact ⟨w, t, rest, hw, hrest ▸ hw', by rw [hs, hskip]; rfl, ht⟩
    · exact absurd h (by simp)
  · rintro ⟨w, t, w', hw, hw', rfl, ht⟩
    have hcost : Goal.value.cost t < 2 * (w ++ (t ++ w')).length + 1 := by
      simp only [Goal.cost, List.length_append]
      omega
    have hfollows : Follows .value w' := by
      intro _ c hc
      rw [isDelim, hw' c (List.mem_of_mem_head? hc), Bool.true_or]
    have hparse := ht.parse hcost hfollows
    have hskip : skipWs w' = [] := by
      have := skipWs_append hw' (s := []) (fun c hc => by cases hc)
      rwa [List.append_nil] at this
    rw [Goal.close, List.nil_append] at hparse
    rw [decode, ht.skipWs_append hw, hparse, Option.bind_eq_bind, Option.bind_some]
    exact if_pos hskip

/-- A text denotes at most one value. -/
theorem IsText.unique {s : List Char} {v v' : Value} (h : IsText s v) (h' : IsText s v') :
    v = v' :=
  Option.some.inj ((decode_eq_some_iff.mpr h).symm.trans (decode_eq_some_iff.mpr h'))

/-- The text of a value ends where its reading ends: it is determined by what follows. -/
theorem Denotes.rest_unique {t t' rest rest' : List Char} {v v' : Value}
    (h : Denotes .value t v) (h' : Denotes .value t' v') (heq : t ++ rest = t' ++ rest')
    (hrest : Follows .value rest) (hrest' : Follows .value rest') : rest = rest' := by
  have hcost : ∀ {u : List Char}, u.length ≤ (t ++ rest).length →
      Goal.value.cost u < 2 * (t ++ rest).length + 1 := by
    intro u hu
    simp only [Goal.cost]
    omega
  have hparse := h.parse (hcost (by simp)) hrest
  have hparse' := h'.parse (hcost (by simp [heq])) hrest'
  rw [Goal.close, List.nil_append] at hparse hparse'
  rw [← heq, hparse] at hparse'
  exact (Prod.mk.inj (Option.some.inj hparse')).2

/-- A text between braces denotes an object, without blanks around it. -/
theorem IsText.of_braces {t : List Char} {v : Value} (h : IsText ('\x7b' :: t) v) :
    (∃ ms, v = .obj ms) ∧ ∃ s w, Blank w ∧ '\x7b' :: t = s ++ w ∧ Denotes .value s v := by
  obtain ⟨w, s, w', hw, hw', heq, hs⟩ := h
  obtain ⟨c, s', hcons, -, -⟩ := hs.exists_cons
  cases w with
  | cons b w =>
    obtain ⟨rfl, -⟩ := List.cons.inj heq
    exact absurd (hw _ List.mem_cons_self) (by decide)
  | nil =>
    refine ⟨?_, s, w', hw', heq, hs⟩
    have hc : c = '\x7b' := by
      rw [hcons] at heq
      exact (List.cons.inj heq).1.symm
    rw [hc] at hcons
    cases hs with
    | scalar hdelim =>
      rw [hcons] at hdelim
      exact absurd (hdelim _ List.mem_cons_self) (by decide)
    | string => exact absurd (List.cons.inj hcons).1 (by decide)
    | emptyArray => exact absurd (List.cons.inj hcons).1 (by decide)
    | array => exact absurd (List.cons.inj hcons).1 (by decide)
    | emptyObject => exact ⟨_, rfl⟩
    | object => exact ⟨_, rfl⟩

/-- Behind a text between braces, a longer text has blanks only. -/
theorem IsText.blank_of_append {t rest : List Char} {v v' : Value}
    (h : IsText ('\x7b' :: (t ++ ['\x7d'])) v)
    (h' : IsText ('\x7b' :: (t ++ ['\x7d']) ++ rest) v') (hrest : Follows .value rest) :
    Blank rest := by
  obtain ⟨-, s, w, hw, heq, hs⟩ := h.of_braces
  have hnil : w = [] := by
    by_contra hne
    have hlast : (s ++ w).getLast? = some '\x7d' := by
      rw [← heq, ← List.cons_append, List.getLast?_concat]
    obtain ⟨w₀, c, rfl⟩ : ∃ w₀ c, w = w₀ ++ [c] :=
      ⟨_, _, (List.dropLast_concat_getLast hne).symm⟩
    rw [← List.append_assoc, List.getLast?_concat, Option.some.injEq] at hlast
    have hws := hw c (List.mem_append_right _ (List.mem_singleton_self c))
    rw [hlast] at hws
    exact absurd hws (by decide)
  rw [hnil, List.append_nil] at heq
  obtain ⟨-, s', w', hw', heq', hs'⟩ := IsText.of_braces h'
  have hfollows : Follows .value w' := by
    intro _ c hc
    rw [isDelim, hw' c (List.mem_of_mem_head? hc), Bool.true_or]
  have hwhole : s ++ rest = s' ++ w' := by
    rw [← heq, ← heq']
    rfl
  rw [hs.rest_unique hs' hwhole hrest hfollows]
  exact hw'

/-! ## Printed values -/

/-- Decimal digits have no leading zero. -/
theorem head?_toDigits {n : ℕ} (h : (Nat.toDigits 10 n).head? = some '0') :
    Nat.toDigits 10 n = ['0'] := by
  induction n using Nat.strongRecOn with
  | ind n ih =>
    rcases Nat.lt_or_ge n 10 with hn | hn
    · rw [Nat.toDigits_of_lt_base hn] at h ⊢
      rw [Option.some.inj h]
    · -- the first digit is that of the quotient, which is not zero
      obtain ⟨c, ds, hds⟩ := List.exists_cons_of_ne_nil (Nat.toDigits_ne_nil (b := 10) (n := n / 10))
      have hhead : (Nat.toDigits 10 (n / 10)).head? = some '0' := by
        rw [Nat.toDigits_of_base_le (by decide) hn, hds] at h
        rw [hds]
        exact h
      have hdigits := ih (n / 10) (by omega) hhead
      have hvalue := Nat.ofDigitChars_toDigits (b := 10) (n := n / 10) (by decide) (by decide)
      rw [hdigits] at hvalue
      have : Nat.ofDigitChars 10 ['0'] 0 = 0 := by decide
      omega

/-- No digit ends a token. -/
theorem isDelim_of_isDigit {c : Char} (hc : c.isDigit = true) : isDelim c = false := by
  by_contra h
  rw [Bool.not_eq_false, isDelim, isWs, Bool.or_eq_true] at h
  simp only [Bool.or_eq_true, beq_iff_eq, List.contains_iff_mem, List.mem_cons, List.not_mem_nil,
    or_false] at h
  rcases h with (((rfl | rfl) | rfl) | rfl) | rfl | rfl | rfl | rfl | rfl | rfl | rfl | rfl <;> cases hc

/-- The decimal digits of a number are digits. -/
theorem isDigit_of_mem_toDigits {n : ℕ} {c : Char} (hc : c ∈ Nat.toDigits 10 n) :
    c.isDigit = true :=
  Nat.isDigit_of_mem_toDigits (by decide) (by decide) hc

/-- Decimal digits do not start with another character. -/
theorem toDigits_ne_cons {n : ℕ} {c : Char} (hc : c.isDigit = false) (s : List Char) :
    Nat.toDigits 10 n ≠ c :: s := by
  intro heq
  have := isDigit_of_mem_toDigits (n := n) (heq ▸ List.mem_cons_self)
  rw [hc] at this
  exact Bool.false_ne_true this

/-- The digits of a number are a number of the grammar. -/
theorem unsigned?_toDigits (n : ℕ) : unsigned? (Nat.toDigits 10 n) = some (n, 0) := by
  have htake : (Nat.toDigits 10 n).takeWhile Char.isDigit = Nat.toDigits 10 n :=
    List.takeWhile_eq_self_iff.mpr fun _ => isDigit_of_mem_toDigits
  have hdrop : (Nat.toDigits 10 n).dropWhile Char.isDigit = [] :=
    List.dropWhile_eq_nil_iff.mpr fun _ => isDigit_of_mem_toDigits
  have hzero : ¬ (Nat.toDigits 10 n = [] ∨
      ((Nat.toDigits 10 n).head? = some '0' ∧ Nat.toDigits 10 n ≠ ['0'])) :=
    not_or.mpr ⟨Nat.toDigits_ne_nil, fun h => h.2 (head?_toDigits h.1)⟩
  simp only [unsigned?, htake, hdrop, if_neg hzero, exponent?, Option.map_some,
    Nat.ofDigitChars_toDigits (by decide : 1 < 10) (by decide)]

/-- **A printed numeral denotes its number.** -/
theorem denotes_toDigits (n : ℕ) : Denotes .value (Nat.toDigits 10 n) (.num n 0) := by
  refine .scalar (fun c hc => isDelim_of_isDigit (isDigit_of_mem_toDigits hc)) ?_
  rw [scalar?, if_neg (toDigits_ne_cons (by decide) _), if_neg (toDigits_ne_cons (by decide) _),
    if_neg (toDigits_ne_cons (by decide) _),
    number?.eq_2 _ (fun s heq => toDigits_ne_cons (by decide) s heq), unsigned?_toDigits]
  rfl

/-- A printed integer. -/
def intText : ℤ → List Char
  | .ofNat n => Nat.toDigits 10 n
  | .negSucc n => '-' :: Nat.toDigits 10 (n + 1)

/-- Lean prints an integer as the grammar has it. -/
theorem toList_toString_int (z : ℤ) : (toString z).toList = intText z := by
  cases z with
  | ofNat n => exact String.toList_ofList
  | negSucc n =>
    show ("-" ++ toString (n + 1)).toList = _
    rw [String.toList_append]
    exact congrArg (List.cons '-') String.toList_ofList

/-- A printed integer denotes itself. -/
theorem denotes_intText (z : ℤ) : Denotes .value (intText z) (.num z 0) := by
  cases z with
  | ofNat n => exact denotes_toDigits n
  | negSucc n =>
    refine .scalar (fun c hc => ?_) ?_
    · rcases List.mem_cons.mp hc with rfl | hc
      · decide
      · exact isDelim_of_isDigit (isDigit_of_mem_toDigits hc)
    · have hne : ∀ {c : Char} {s t : List Char}, c ≠ '-' → '-' :: t ≠ c :: s :=
        fun hc heq => hc (List.cons.inj heq).1.symm
      rw [intText, scalar?, if_neg (hne (by decide)), if_neg (hne (by decide)),
        if_neg (hne (by decide)), number?, unsigned?_toDigits]
      rfl

/-- No character is blank text. -/
theorem blank_nil : Blank [] := fun _ hc => by cases hc

/-- A text of a value is a JSON text, without blanks around it. -/
theorem Denotes.isText {t : List Char} {v : Value} (h : Denotes .value t v) : IsText t v :=
  ⟨[], t, [], blank_nil, blank_nil, (List.append_nil t).symm, h⟩

/-- Blank texts put together are blank. -/
theorem Blank.append {w w' : List Char} (hw : Blank w) (hw' : Blank w') : Blank (w ++ w') :=
  fun c hc => (List.mem_append.mp hc).elim (hw c) (hw' c)

/-- Blanks around a text. -/
theorem IsText.pad {s w w' : List Char} {v : Value} (h : IsText s v) (hw : Blank w)
    (hw' : Blank w') : IsText (w ++ (s ++ w')) v := by
  obtain ⟨w₀, t, w₁, hw₀, hw₁, rfl, ht⟩ := h
  exact ⟨w ++ w₀, t, w₁ ++ w', hw.append hw₀, hw₁.append hw', by simp, ht⟩

/-- **Texts joined by commas** are the elements of an array, with blanks after them. -/
theorem denotes_elements (items : List (List Char × Value)) (hne : items ≠ [])
    (h : ∀ i ∈ items, IsText i.1 i.2) {w : List Char} (hw : Blank w) :
    Denotes .elements ([','].intercalate (items.map (·.1)) ++ w) (items.map (·.2)) := by
  induction items with
  | nil => exact absurd rfl hne
  | cons i items ih =>
    rw [List.forall_mem_cons] at h
    obtain ⟨hi, htail⟩ := h
    cases items with
    | nil =>
      obtain ⟨w₀, t, w₁, hw₀, hw₁, heq, ht⟩ := hi.pad blank_nil hw
      rw [List.map_singleton, List.map_singleton, List.intercalate_singleton,
        ← List.nil_append (i.1 ++ w), heq]
      exact .lastElement hw₀ hw₁ ht
    | cons i' items =>
      obtain ⟨w₀, t, w₁, hw₀, hw₁, hi, ht⟩ := hi
      have hcons := Denotes.element hw₀ hw₁ ht (ih (List.cons_ne_nil _ _) htail)
      rw [List.map_cons, List.map_cons, List.intercalate_cons_cons, hi]
      simpa using hcons

/-- An array as it is printed. -/
theorem denotes_array (items : List (List Char × Value)) (h : ∀ i ∈ items, IsText i.1 i.2)
    {w : List Char} (hw : Blank w) :
    Denotes .value ('[' :: ([','].intercalate (items.map (·.1)) ++ w ++ [']']))
      (.arr (items.map (·.2))) := by
  cases items with
  | nil => exact .emptyArray hw
  | cons i items => exact .array (denotes_elements _ (List.cons_ne_nil _ _) h hw)

/-- `t` is the name and the value of one member. -/
def MemberText (t : List Char) (m : String × Value) : Prop :=
  ∃ n s, t = n ++ s ∧ KeyText n m.1 ∧ IsText s m.2

/-- Blanks in front of a member do not matter. -/
theorem MemberText.pad {t w : List Char} {m : String × Value} (h : MemberText t m)
    (hw : Blank w) : MemberText (w ++ t) m := by
  obtain ⟨n, s, rfl, ⟨w₀, q, ps, w₁, hw₀, hw₁, hq, hm, rfl⟩, hs⟩ := h
  exact ⟨w ++ (w₀ ++ '"' :: (q ++ '"' :: (w₁ ++ [':']))), s, by simp,
    ⟨w ++ w₀, q, ps, w₁, hw.append hw₀, hw₁, hq, hm, by simp⟩, hs⟩

/-- **Members joined by commas** are the members of an object. -/
theorem denotes_members (items : List (List Char × String × Value)) (hne : items ≠ [])
    (h : ∀ i ∈ items, MemberText i.1 i.2) :
    Denotes .members ([','].intercalate (items.map (·.1))) (items.map (·.2)) := by
  induction items with
  | nil => exact absurd rfl hne
  | cons i items ih =>
    rw [List.forall_mem_cons] at h
    obtain ⟨⟨n, s, hi, hn, w, t, w', hw, hw', rfl, ht⟩, htail⟩ := h
    cases items with
    | nil =>
      rw [List.map_singleton, List.map_singleton, List.intercalate_singleton, hi]
      exact .lastMember hn hw hw' ht
    | cons i' items =>
      have hcons := Denotes.member hn hw hw' ht (ih (List.cons_ne_nil _ _) htail)
      rw [List.map_cons, List.map_cons, List.intercalate_cons_cons, hi]
      simpa using hcons

/-- A name in quotes, with no blanks around it. -/
theorem keyText_quoted {q : List Char} {ps : List Piece} (hq : CharsText q ps) :
    KeyText ('"' :: (q ++ ['"', ':'])) (String.ofList (ofPieces ps)) :=
  ⟨[], q, ps, [], blank_nil, blank_nil, hq, rfl, rfl⟩

/-- A code unit below the surrogates is a character of its own. -/
theorem ofPieces_unit {u : ℕ} (hu : u < 0xD800) (ps : List Piece) :
    ofPieces (.unit u :: ps) = Char.ofNat u :: ofPieces ps := by
  have hhigh : isHigh u = false := by
    rw [isHigh, decide_eq_false (by omega), Bool.false_and]
  have hlow : isLow u = false := by
    rw [isLow, decide_eq_false (by omega), Bool.false_and]
  have hself : ofUnit u = Char.ofNat u := by
    rw [ofUnit, hhigh, hlow]
    rfl
  rw [← hself]
  cases ps with
  | nil => rfl
  | cons p ps =>
    cases p with
    | char c => rfl
    | unit u' =>
      rw [ofPieces, hhigh, Bool.false_and]
      rfl

/-- `t` is one item of a string, and the character it stands for is `c`. -/
def ItemText (t : List Char) (c : Char) : Prop :=
  ∃ p, (∀ {t' : List Char} {ps : List Piece}, CharsText t' ps → CharsText (t ++ t') (p :: ps)) ∧
    ∀ ps, ofPieces (p :: ps) = c :: ofPieces ps

/-- A character that needs no escape stands for itself. -/
theorem itemText_plain {c : Char} (hquote : c ≠ '"') (hslash : c ≠ '\\') (hc : ' ' ≤ c) :
    ItemText [c] c :=
  ⟨.char c, .plain hquote hslash hc, fun _ => rfl⟩

/-- An escape of two characters stands for its character. -/
theorem itemText_escape {e c : Char} (he : escaped? e = some c) : ItemText ['\\', e] c :=
  ⟨.char c, .escape he, fun _ => rfl⟩

/-- A `\u` escape below the surrogates stands for its character. -/
theorem itemText_unicode {a b c d : Char} {u : ℕ} (hu : hex4? a b c d = some u)
    (hlt : u < 0xD800) : ItemText ['\\', 'u', a, b, c, d] (Char.ofNat u) :=
  ⟨.unit u, .unicode hu, ofPieces_unit hlt⟩

/-- **A string written item by item** denotes the string. -/
theorem exists_charsText_flatMap (f : Char → List Char) (cs : List Char)
    (h : ∀ c ∈ cs, ItemText (f c) c) :
    ∃ ps, CharsText (cs.flatMap f) ps ∧ ofPieces ps = cs := by
  induction cs with
  | nil => exact ⟨[], .nil, rfl⟩
  | cons c cs ih =>
    rw [List.forall_mem_cons] at h
    obtain ⟨⟨p, hp, hc⟩, htail⟩ := h
    obtain ⟨ps, hps, hcs⟩ := ih htail
    exact ⟨p :: ps, hp hps, by rw [hc, hcs]⟩

/-- A character that is written as itself. -/
def isPlain (c : Char) : Bool := c != '"' && c != '\\' && ' ' ≤ c

/-- Plain characters are the text of a string of themselves. -/
theorem exists_charsText_of_all {cs : List Char} (h : cs.all isPlain = true) :
    ∃ ps, CharsText cs ps ∧ ofPieces ps = cs := by
  have hitem : ∀ c ∈ cs, ItemText [c] c := by
    intro c hc
    have hplain := List.all_eq_true.mp h c hc
    rw [isPlain, Bool.and_eq_true, Bool.and_eq_true, decide_eq_true_iff] at hplain
    exact itemText_plain (bne_iff_ne.mp hplain.1.1) (bne_iff_ne.mp hplain.1.2) hplain.2
  have hself := exists_charsText_flatMap (fun c => [c]) cs hitem
  rwa [List.flatMap_singleton'] at hself

/-! ## Texts as bytes -/

/-- The UTF-8 encoding of a text. -/
def utf8 (cs : List Char) : List UInt8 := cs.flatMap String.utf8EncodeChar

/-- The value of a text in UTF-8. -/
def decodeBytes (b : List UInt8) : Option Value := do
  let s ← String.fromUTF8? b.toByteArray
  decode s.toList

/-- The bytes of a text, as an array. -/
theorem toByteArray_utf8 (cs : List Char) : (utf8 cs).toByteArray = cs.utf8Encode := rfl

/-- The bytes of a string are those of its characters. -/
theorem utf8_toList (s : String) : utf8 s.toList = s.toUTF8.data.toList := by
  rw [String.toUTF8_eq_toByteArray, ← String.utf8Encode_toList, ← toByteArray_utf8,
    List.toList_data_toByteArray]

/-- The bytes of a text are decoded to it. -/
theorem fromUTF8?_utf8 (cs : List Char) :
    String.fromUTF8? (utf8 cs).toByteArray = some (String.ofList cs) := by
  have hvalid : (utf8 cs).toByteArray.IsValidUTF8 := ByteArray.isValidUTF8_utf8Encode
  have hstring : String.fromUTF8 (utf8 cs).toByteArray hvalid = String.ofList cs :=
    String.toByteArray_inj.mp rfl
  rw [String.fromUTF8?, dif_pos hvalid, hstring]

/-- The bytes of a text denote what the text denotes. -/
theorem decodeBytes_utf8 (cs : List Char) : decodeBytes (utf8 cs) = decode cs := by
  rw [decodeBytes, fromUTF8?_utf8, Option.bind_eq_bind, Option.bind_some, String.toList_ofList]

/-- The bytes of two texts, one after the other. -/
theorem utf8_append (cs ds : List Char) : utf8 (cs ++ ds) = utf8 cs ++ utf8 ds :=
  List.flatMap_append

/-- An ASCII character is one byte. -/
theorem utf8EncodeChar_ascii {c : Char} (h : c.toNat < 128) :
    String.utf8EncodeChar c = [UInt8.ofNat c.toNat] :=
  if_pos (Nat.le_of_lt_succ h)

/-- An ASCII text has one byte for each character. -/
theorem utf8_ascii {cs : List Char} (h : ∀ c ∈ cs, c.toNat < 128) :
    utf8 cs = cs.map fun c => UInt8.ofNat c.toNat := by
  induction cs with
  | nil => rfl
  | cons c cs ih =>
    rw [List.forall_mem_cons] at h
    rw [List.map_cons, ← ih h.2, utf8, List.flatMap_cons, utf8EncodeChar_ascii h.1]
    rfl

/-- The bytes of a character outside ASCII are outside ASCII. -/
theorem le_of_mem_utf8EncodeChar {c : Char} (hc : 128 ≤ c.toNat) {b : UInt8}
    (hb : b ∈ String.utf8EncodeChar c) : 128 ≤ b.toNat := by
  have hle : ¬ c.val.toNat ≤ 0x7f := Nat.not_le.mpr hc
  rw [String.utf8EncodeChar, if_neg hle] at hb
  have hofNat : ∀ {m : ℕ}, 128 ≤ m → m < 256 → 128 ≤ (UInt8.ofNat m).toNat := by
    intro m hlo hhi
    rwa [UInt8.toNat_ofNat_of_lt' hhi]
  split at hb
  · simp only [List.mem_cons, List.not_mem_nil, or_false] at hb
    rcases hb with rfl | rfl <;> exact hofNat (by omega) (by omega)
  · split at hb
    · simp only [List.mem_cons, List.not_mem_nil, or_false] at hb
      rcases hb with rfl | rfl | rfl <;> exact hofNat (by omega) (by omega)
    · simp only [List.mem_cons, List.not_mem_nil, or_false] at hb
      rcases hb with rfl | rfl | rfl | rfl <;> exact hofNat (by omega) (by omega)

/-- The control characters of the bytes of a text are those of the text. -/
theorem lt_of_mem_utf8 {cs : List Char} {b : UInt8} (hb : b ∈ utf8 cs) (hlt : b.toNat < 32) :
    ∃ c ∈ cs, c.toNat < 32 ∧ b ∈ String.utf8EncodeChar c := by
  obtain ⟨c, hc, hb⟩ := List.mem_flatMap.mp hb
  refine ⟨c, hc, ?_, hb⟩
  rcases Nat.lt_or_ge c.toNat 128 with hascii | hwide
  · rw [utf8EncodeChar_ascii hascii, List.mem_singleton] at hb
    rwa [hb, UInt8.toNat_ofNat_of_lt' (Nat.lt_trans hascii (by decide))] at hlt
  · exact absurd (le_of_mem_utf8EncodeChar hwide hb) (by omega)

/-- A control character of a text is one of its bytes. -/
theorem mem_utf8_iff {c : Char} (hc : c.toNat < 32) {cs : List Char} :
    UInt8.ofNat c.toNat ∈ utf8 cs ↔ c ∈ cs := by
  have htoNat : ∀ {d : Char}, d.toNat < 32 → (UInt8.ofNat d.toNat).toNat = d.toNat := by
    intro d hd
    exact UInt8.toNat_ofNat_of_lt' (lt_of_lt_of_le hd (by decide))
  constructor
  · intro h
    obtain ⟨d, hd, hlt, hmem⟩ := lt_of_mem_utf8 h (by rwa [htoNat hc])
    rw [utf8EncodeChar_ascii (by omega), List.mem_singleton] at hmem
    have heq := congrArg UInt8.toNat hmem
    rw [htoNat hc, htoNat hlt] at heq
    rwa [Char.toNat_inj.mp heq]
  · intro h
    refine List.mem_flatMap.mpr ⟨c, h, ?_⟩
    rw [utf8EncodeChar_ascii (by omega)]
    exact List.mem_singleton_self _

end Json
