/-
# Block mappings of YAML

A block mapping whose values are plain scalars, double-quoted scalars, flow sequences
of plain scalars and empty mappings, or block mappings again.  It is written by `render`, one entry a line
and a nested mapping two columns to the right, and read by `readDocument`;
`readDocument_render` is the round trip.
-/
import Mathlib.Data.List.TakeWhile
import Mathlib.Tactic.Common
import ZtMapper.Lib.Lines
import ZtMapper.Lib.YamlComments

namespace Yaml

/-! ## Scalars -/

def isLetter (c : Char) : Bool :=
  (0x41 ≤ c.toNat && c.toNat ≤ 0x5a) || (0x61 ≤ c.toNat && c.toNat ≤ 0x7a)

def isDecimal (c : Char) : Bool := 0x30 ≤ c.toNat && c.toNat ≤ 0x39

def isWordChar (c : Char) : Bool :=
  isLetter c || isDecimal c || c = '-' || c = '.' || c = '/' || c = '_'

/-- A plain scalar. -/
@[ext] structure Word where
  chars : List Char
  nonempty : chars ≠ []
  plain : chars.all isWordChar = true

/-- A character of a line that is no comment. -/
def isLineChar (c : Char) : Bool := isTame c && c ≠ '#' && c ≠ mark

def isQuotedChar (c : Char) : Bool := isLineChar c && c ≠ '"' && c ≠ '\\'

/-- The text of a double-quoted scalar that has no escapes. -/
@[ext] structure Quoted where
  chars : List Char
  plain : chars.all isQuotedChar = true

/-- An item of a flow sequence: a plain scalar, or the empty mapping. -/
inductive Item where
  | word (w : Word)
  | empty

inductive Value where
  | plain (w : Word)
  | quoted (q : Quoted)
  | seq (items : List Item)

def Item.text : Item → List Char
  | .word w => w.chars
  | .empty => ['{', '}']

def itemsText : List Item → List Char
  | [] => []
  | [a] => a.text
  | a :: items => a.text ++ ',' :: ' ' :: itemsText items

def Value.text : Value → List Char
  | .plain w => w.chars
  | .quoted q => '"' :: (q.chars ++ ['"'])
  | .seq items => '[' :: (itemsText items ++ [']'])

/-- The characters of a plain scalar. -/
theorem Word.isWordChar_of_mem (w : Word) {c : Char} (hc : c ∈ w.chars) : isWordChar c = true :=
  List.all_eq_true.mp w.plain c hc

/-- A word has no character that is not one of a word. -/
theorem Word.not_mem (w : Word) {c : Char} (hc : isWordChar c = false) : c ∉ w.chars := fun hmem =>
  Bool.eq_false_iff.mp hc (w.isWordChar_of_mem hmem)

/-- The characters of a quoted scalar. -/
theorem Quoted.mem (q : Quoted) {c : Char} (hc : c ∈ q.chars) :
    isLineChar c = true ∧ c ≠ '"' ∧ c ≠ '\\' := by
  have hchar := List.all_eq_true.mp q.plain c hc
  unfold isQuotedChar at hchar
  simp only [Bool.and_eq_true, decide_eq_true_eq, and_assoc] at hchar
  exact hchar

/-- A plain scalar has a first character. -/
theorem Word.exists_cons (w : Word) : ∃ c cs, w.chars = c :: cs ∧ isWordChar c = true := by
  obtain ⟨c, cs, hw⟩ := List.exists_cons_of_ne_nil w.nonempty
  exact ⟨c, cs, hw, w.isWordChar_of_mem (hw ▸ List.mem_cons_self)⟩

/-- A character of a plain scalar is no space. -/
theorem ne_space_of_isWordChar {c : Char} (hc : isWordChar c = true) : c ≠ ' ' := fun heq => by
  rw [heq] at hc
  exact absurd hc (by decide)

/-- An item has no character but those of scalars and its braces. -/
theorem Item.not_mem (a : Item) {c : Char} (hc : isWordChar c = false) (hbrace : c ≠ '{')
    (hbrace' : c ≠ '}') : c ∉ a.text := by
  cases a with
  | word w => exact w.not_mem hc
  | empty =>
    intro hmem
    rcases List.mem_cons.mp hmem with h | h
    · exact hbrace h
    · exact hbrace' (List.mem_singleton.mp h)

/-- The text of an item is not empty. -/
theorem Item.text_ne_nil (a : Item) : a.text ≠ [] := by
  cases a with
  | word w => exact w.nonempty
  | empty => exact List.cons_ne_nil _ _

/-- The text of items has no other characters. -/
theorem not_mem_itemsText {c : Char} (hc : isWordChar c = false) (hother : c ∉ ['{', '}', ',', ' '])
    (items : List Item) : c ∉ itemsText items := by
  simp only [List.mem_cons, List.not_mem_nil, or_false, not_or] at hother
  obtain ⟨hbrace, hbrace', hcomma, hspace⟩ := hother
  induction items with
  | nil => exact List.not_mem_nil
  | cons a items ih =>
    have ha : c ∉ a.text := a.not_mem hc hbrace hbrace'
    cases items with
    | nil => exact ha
    | cons a' items =>
      unfold itemsText
      rw [List.mem_append, List.mem_cons, List.mem_cons]
      rintro (h | h | h | h)
      · exact ha h
      · exact hcomma h
      · exact hspace h
      · exact ih h

/-- An entry of a mapping: its column, its key, and its value unless that follows on
the next lines. -/
structure Line where
  indent : ℕ
  key : Word
  value : Option Value

def Line.text (l : Line) : List Char :=
  List.replicate l.indent ' ' ++ (l.key.chars ++ ':' :: (l.value.elim [] fun v => ' ' :: v.text))

/-- A mapping: its entries, with a value or with a mapping. -/
inductive Block where
  | nil
  | field (key : Word) (value : Value) (rest : Block)
  | nested (key : Word) (inner rest : Block)

namespace Block

/-- The entries by lines, in the column `n`. -/
def lines (n : ℕ) : Block → List Line
  | nil => []
  | field key value rest => ⟨n, key, some value⟩ :: rest.lines n
  | nested key inner rest => ⟨n, key, none⟩ :: (inner.lines (n + 2) ++ rest.lines n)

def render (b : Block) : List (List Char) := (b.lines 0).map Line.text

end Block

/-! ## Mappings by their keys -/

/-- What an entry has: a value or a mapping. -/
inductive Node where
  | value (v : Value)
  | block (b : Block)

namespace Block

def get? (k : List Char) : Block → Option Node
  | nil => none
  | field key value rest => if key.chars = k then some (.value value) else rest.get? k
  | nested key inner rest => if key.chars = k then some (.block inner) else rest.get? k

def keys : Block → List (List Char)
  | nil => []
  | field key _ rest => key.chars :: rest.keys
  | nested key _ rest => key.chars :: rest.keys

end Block

/-- The plain scalars of letters that do not stand for themselves. -/
def reserved : List (List Char) :=
  ["y", "Y", "yes", "Yes", "YES", "n", "N", "no", "No", "NO", "true", "True", "TRUE", "false",
    "False", "FALSE", "on", "On", "ON", "off", "Off", "OFF", "null", "Null", "NULL"].map
    String.toList

/-- A plain scalar that is a string. -/
def IsText (s : List Char) : Prop :=
  s.head?.any isLetter = true ∧ s.all isWordChar = true ∧ s ∉ reserved

instance (s : List Char) : Decidable (IsText s) := inferInstanceAs (Decidable (_ ∧ _))

/-- A word with a hyphen behind its first letter is a string. -/
theorem isText_of_hyphen {s : List Char} (hhead : s.head?.any isLetter = true)
    (hword : s.all isWordChar = true) (hhyphen : '-' ∈ s) : IsText s := by
  have hreserved : ∀ r ∈ reserved, '-' ∉ r := by decide
  exact ⟨hhead, hword, fun hmem => hreserved s hmem hhyphen⟩

/-- The keys of every mapping are different, and they are strings. -/
def Block.Regular : Block → Prop
  | .nil => True
  | .field key _ rest => IsText key.chars ∧ key.chars ∉ rest.keys ∧ rest.Regular
  | .nested key inner rest =>
    IsText key.chars ∧ key.chars ∉ rest.keys ∧ inner.Regular ∧ rest.Regular

/-! ## Reading -/

/-- The line between two documents. -/
def marker : List Char := ['-', '-', '-']

/-- The lines of the first document. -/
def firstDocument (ls : List (List Char)) : List (List Char) := ls.takeWhile (· ≠ marker)

/-- The next line, if there is one, is not in the column `n` or to the right of it. -/
def EndsBefore (n : ℕ) (ls : List Line) : Prop := ∀ l ∈ ls.head?, l.indent < n

/-- What ends before a column ends before one to the right of it. -/
theorem EndsBefore.mono {n m : ℕ} {ls : List Line} (h : EndsBefore n ls) (hnm : n ≤ m) :
    EndsBefore m ls := fun l hl => Nat.lt_of_lt_of_le (h l hl) hnm

/-- No entry is a marker between documents. -/
theorem Line.text_ne_marker (l : Line) : l.text ≠ marker := by
  intro heq
  have hcolon : ':' ∈ l.text := List.mem_append_right _ (List.mem_append_right _ List.mem_cons_self)
  rw [heq] at hcolon
  exact absurd hcolon (by decide)

/-- A written mapping up to a marker is the first document. -/
theorem firstDocument_render_append (b : Block) {ls : List (List Char)}
    (hls : ls.head? = none ∨ ls.head? = some marker) : firstDocument (b.render ++ ls) = b.render := by
  have hlines : ∀ line ∈ b.render, decide (line ≠ marker) = true := by
    intro line hline
    obtain ⟨l, -, rfl⟩ := List.mem_map.mp hline
    exact decide_eq_true l.text_ne_marker
  have hstop : firstDocument ls = [] := by
    cases ls with
    | nil => rfl
    | cons line ls =>
      rcases hls with h | h
      · cases h
      · obtain rfl := Option.some.inj h
        rfl
  unfold firstDocument at hstop ⊢
  rw [List.takeWhile_append_of_pos hlines, hstop, List.append_nil]

/-- A written mapping alone is the first document. -/
theorem firstDocument_render (b : Block) : firstDocument b.render = b.render := by
  have h : firstDocument (b.render ++ []) = b.render := firstDocument_render_append b (Or.inl rfl)
  rw [List.append_nil] at h
  exact h

end Yaml
