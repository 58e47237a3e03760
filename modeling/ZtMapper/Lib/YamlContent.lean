/-
# The content of a block mapping

The lines of a written block mapping are their own content, and comments behind them
are dropped.
-/
import ZtMapper.Lib.YamlBlocks

namespace Yaml

/-! ## The characters of a line -/

/-- Word characters are between the dash and the letter z. -/
theorem toNat_of_isWordChar {c : Char} (hc : isWordChar c = true) :
    0x2d ≤ c.toNat ∧ c.toNat ≤ 0x7a := by
  unfold isWordChar isLetter isDecimal at hc
  simp only [Bool.or_eq_true, Bool.and_eq_true, decide_eq_true_eq] at hc
  rcases hc with ((((hc | hc) | rfl) | rfl) | rfl) | rfl
  · omega
  · omega
  all_goals decide

/-- The characters of a plain scalar are allowed anywhere in a line. -/
theorem isLineChar_of_isWordChar {c : Char} (hc : isWordChar c = true) : isLineChar c = true := by
  have hrange := toNat_of_isWordChar hc
  have hprintable : isPrintable c = true := by
    unfold isPrintable
    simp only [Bool.or_eq_true, Bool.and_eq_true, decide_eq_true_eq]
    omega
  -- the other characters lie outside of the range
  have hother : ∀ d : Char, d.toNat < 0x2d ∨ 0x7a < d.toNat → c ≠ d := by
    rintro d hd rfl
    omega
  have hbreak : isBreak c = false := by
    unfold isBreak
    simp only [Bool.or_eq_false_iff, decide_eq_false_iff_not]
    exact ⟨⟨⟨⟨hother _ (by decide), hother _ (by decide)⟩, hother _ (by decide)⟩,
      hother _ (by decide)⟩, hother _ (by decide)⟩
  unfold isLineChar isTame
  rw [hprintable, hbreak, decide_eq_true (hother '#' (by decide)),
    decide_eq_true (hother mark (by decide))]
  rfl

/-- Items are written with line characters. -/
theorem isLineChar_of_mem_itemsText {items : List Item} {c : Char} (hc : c ∈ itemsText items) :
    isLineChar c = true := by
  have hitem : ∀ a : Item, ∀ c ∈ a.text, isLineChar c = true := by
    intro a c hc
    cases a with
    | word w => exact isLineChar_of_isWordChar (w.isWordChar_of_mem hc)
    | empty =>
      have hall : Item.empty.text.all isLineChar = true := by decide
      exact List.all_eq_true.mp hall c hc
  induction items with
  | nil => exact absurd hc List.not_mem_nil
  | cons a items ih =>
    cases items with
    | nil => exact hitem a c hc
    | cons a' items =>
      unfold itemsText at hc
      rw [List.mem_append, List.mem_cons, List.mem_cons] at hc
      rcases hc with h | rfl | rfl | h
      · exact hitem a c h
      · rfl
      · rfl
      · exact ih h

/-- Values are written with line characters. -/
theorem Value.isLineChar_of_mem {v : Value} {c : Char} (hc : c ∈ v.text) :
    isLineChar c = true := by
  cases v with
  | plain w => exact isLineChar_of_isWordChar (w.isWordChar_of_mem hc)
  | quoted q =>
    unfold Value.text at hc
    rw [List.mem_cons, List.mem_append, List.mem_singleton] at hc
    rcases hc with rfl | h | rfl
    · rfl
    · exact (q.mem h).1
    · rfl
  | seq items =>
    unfold Value.text at hc
    rw [List.mem_cons, List.mem_append, List.mem_singleton] at hc
    rcases hc with rfl | h | rfl
    · rfl
    · exact isLineChar_of_mem_itemsText h
    · rfl

/-- Lines are written with line characters. -/
theorem Line.isLineChar_of_mem {l : Line} {c : Char} (hc : c ∈ l.text) : isLineChar c = true := by
  unfold Line.text at hc
  rw [List.mem_append, List.mem_append, List.mem_cons] at hc
  rcases hc with h | h | rfl | h
  · rw [List.eq_of_mem_replicate h]
    rfl
  · exact isLineChar_of_isWordChar (l.key.isWordChar_of_mem h)
  · rfl
  · cases hvalue : l.value with
    | none =>
      rw [hvalue] at h
      exact absurd h List.not_mem_nil
    | some v =>
      rw [hvalue] at h
      rcases List.mem_cons.mp h with rfl | h
      · rfl
      · exact Value.isLineChar_of_mem h

/-! ## The content of a line -/

/-- No line is empty. -/
theorem Line.text_ne_nil (l : Line) : l.text ≠ [] := by
  unfold Line.text
  exact List.append_ne_nil_of_right_ne_nil _ (List.append_ne_nil_of_left_ne_nil l.key.nonempty _)

/-- No line starts with the byte order mark. -/
theorem Line.head?_text (l : Line) : l.text.head? ≠ some mark := by
  intro h
  have hmem : mark ∈ l.text := List.mem_of_mem_head? h
  exact absurd (Line.isLineChar_of_mem hmem) (by decide)

/-- No line holds the comment sign. -/
theorem Line.hash_not_mem (l : Line) : '#' ∉ l.text := fun hmem =>
  absurd (Line.isLineChar_of_mem hmem) (by decide)

/-- No value ends in a blank. -/
theorem Value.getLast?_text (v : Value) : ∃ c ∈ v.text.getLast?, c ≠ ' ' := by
  cases v with
  | plain w =>
    refine ⟨w.chars.getLast w.nonempty, List.getLast?_eq_some_getLast w.nonempty, ?_⟩
    exact ne_space_of_isWordChar (w.isWordChar_of_mem (List.getLast_mem _))
  | quoted q =>
    refine ⟨'"', ?_, by decide⟩
    change ('"' :: (q.chars ++ ['"'])).getLast? = some '"'
    rw [← List.cons_append, List.getLast?_concat]
  | seq items =>
    refine ⟨']', ?_, by decide⟩
    change ('[' :: (itemsText items ++ [']'])).getLast? = some ']'
    rw [← List.cons_append, List.getLast?_concat]

/-- No line ends in a blank. -/
theorem Line.getLast?_text (l : Line) : l.text.getLast? ≠ some ' ' := by
  obtain ⟨indent, key, value⟩ := l
  unfold Line.text
  cases value with
  | none =>
    change (List.replicate indent ' ' ++ (key.chars ++ [':'])).getLast? ≠ some ' '
    rw [← List.append_assoc, List.getLast?_concat]
    decide
  | some v =>
    obtain ⟨c, hc, hspace⟩ := v.getLast?_text
    have hbefore : List.replicate indent ' ' ++ (key.chars ++ ':' :: ' ' :: v.text) =
        (List.replicate indent ' ' ++ (key.chars ++ [':', ' '])) ++ v.text := by
      rw [List.append_assoc, List.append_assoc]
      rfl
    change (List.replicate indent ' ' ++ (key.chars ++ ':' :: ' ' :: v.text)).getLast? ≠ some ' '
    rw [hbefore, List.getLast?_append, Option.mem_def.mp hc, Option.some_or]
    exact fun heq => hspace (Option.some.inj heq)

/-- There is no comment to strip from a line. -/
theorem Line.uncomment_text (l : Line) : uncomment l.text = l.text :=
  uncomment_of_not_mem l.hash_not_mem l.head?_text l.getLast?_text

/-- A text without quotes does not open a quoted scalar. -/
theorem quoted_of_not_mem {s : List Char} (h : '"' ∉ s) (p : Place) :
    (s.foldl Place.next p).quoted = p.quoted := by
  induction s generalizing p with
  | nil => rfl
  | cons c cs ih =>
    have hc : c ≠ '"' := fun heq => h (heq ▸ List.mem_cons_self)
    rw [List.foldl_cons, ih fun hmem => h (List.mem_cons_of_mem _ hmem)]
    exact if_neg hc

/-- A value closes the quotes that it opens. -/
theorem Value.quoted_text (v : Value) (p : Place) :
    (v.text.foldl Place.next p).quoted = p.quoted := by
  cases v with
  | plain w => exact quoted_of_not_mem (w.not_mem (by decide)) p
  | quoted q =>
    have hquote : '"' ∉ q.chars := fun hmem => (q.mem hmem).2.1 rfl
    change (('"' :: (q.chars ++ ['"'])).foldl Place.next p).quoted = p.quoted
    rw [List.foldl_cons, List.foldl_append, List.foldl_cons, List.foldl_nil]
    change (!(q.chars.foldl Place.next (p.next '"')).quoted) = p.quoted
    rw [quoted_of_not_mem hquote]
    exact Bool.not_not p.quoted
  | seq items =>
    refine quoted_of_not_mem ?_ p
    change '"' ∉ '[' :: (itemsText items ++ [']'])
    rw [List.mem_cons, List.mem_append, List.mem_singleton]
    rintro (h | h | h)
    · exact absurd h (by decide)
    · exact not_mem_itemsText (by decide) (by decide) items h
    · exact absurd h (by decide)

/-- The quotes of a line are closed at its end. -/
theorem Line.quoted_text (l : Line) : (l.text.foldl Place.next {}).quoted = false := by
  have hindent : '"' ∉ List.replicate l.indent ' ' := fun hmem =>
    absurd (List.eq_of_mem_replicate hmem) (by decide)
  have hkey : '"' ∉ l.key.chars := l.key.not_mem (by decide)
  -- up to the colon there is no quote
  have hstart : ∀ s, ((List.replicate l.indent ' ' ++ (l.key.chars ++ ':' :: s)).foldl
      Place.next {}).quoted = (s.foldl Place.next ⟨false, false⟩).quoted := by
    intro s
    have hcolon : Place.next (l.key.chars.foldl Place.next
        ((List.replicate l.indent ' ').foldl Place.next {})) ':' = ⟨false, false⟩ := by
      change Place.mk (Place.quoted _) false = _
      rw [quoted_of_not_mem hkey, quoted_of_not_mem hindent]
    rw [List.foldl_append, List.foldl_append, List.foldl_cons, hcolon]
  unfold Line.text
  rw [hstart]
  cases l.value with
  | none => rfl
  | some v =>
    change ((' ' :: v.text).foldl Place.next ⟨false, false⟩).quoted = false
    rw [List.foldl_cons, Value.quoted_text]
    rfl

/-- The comment behind an entry is dropped. -/
theorem Line.uncomment_text_comment (l : Line) (n : ℕ) (comment : List Char) :
    uncomment (l.text ++ (List.replicate (n + 1) ' ' ++ '#' :: comment)) = l.text :=
  uncomment_append_comment l.hash_not_mem l.head?_text l.text_ne_nil l.getLast?_text
    l.quoted_text n comment


/-! ## The content of a mapping -/

/-- Line characters are tame. -/
theorem tame_of_isLineChar {s : List Char} (h : ∀ c ∈ s, isLineChar c = true) : Tame s := by
  refine List.all_eq_true.mpr fun c hc => ?_
  have hchar := h c hc
  unfold isLineChar at hchar
  simp only [Bool.and_eq_true] at hchar
  exact hchar.1.1

/-- A line is tame. -/
theorem Line.tame_text (l : Line) : Tame l.text := tame_of_isLineChar fun _ => Line.isLineChar_of_mem

/-- Nothing, or a comment behind some spaces. -/
def IsTrailing (s : List Char) : Prop :=
  Tame s ∧ (s = [] ∨ ∃ n comment, s = List.replicate (n + 1) ' ' ++ '#' :: comment)

/-- The lines of a mapping with comments behind them. -/
def annotate (ls : List Line) (comments : List (List Char)) : List (List Char) :=
  List.zipWith (fun l s => l.text ++ s) ls comments

/-- A trailing comment leaves nothing behind. -/
theorem Line.remaining_text_append (l : Line) {s : List Char} (hs : IsTrailing s) :
    remaining (Yaml.lines (l.text ++ s)) = [l.text] := by
  have huncomment : uncomment (l.text ++ s) = l.text := by
    rcases hs.2 with rfl | ⟨n, comment, rfl⟩
    · rw [List.append_nil, l.uncomment_text]
    · exact l.uncomment_text_comment n comment
  have htame : Tame (l.text ++ s) := l.tame_text.append hs.1
  have hne : uncomment (l.text ++ s) ≠ [] := by
    rw [huncomment]
    exact l.text_ne_nil
  rw [remaining_of_tame htame hne, huncomment]

/-- **Comments after the lines leave nothing behind.** -/
theorem flatMap_remaining_annotate {ls : List Line} {comments : List (List Char)}
    (hlength : ls.length ≤ comments.length) (hall : ∀ s ∈ comments, IsTrailing s) :
    ((annotate ls comments).flatMap fun line => remaining (lines line)) = ls.map Line.text := by
  induction ls generalizing comments with
  | nil => rfl
  | cons l ls ih =>
    cases comments with
    | nil => exact absurd hlength (Nat.not_succ_le_zero _)
    | cons s comments =>
      rw [annotate, List.zipWith_cons_cons, List.flatMap_cons, List.map_cons,
        l.remaining_text_append (hall s List.mem_cons_self)]
      exact congrArg (l.text :: ·) (ih (Nat.le_of_succ_le_succ hlength)
        fun s' hs' => hall s' (List.mem_cons_of_mem _ hs'))

/-- Lines with trailing comments are printable. -/
theorem all_isPrintable_annotate {ls : List Line} {comments : List (List Char)}
    (hall : ∀ s ∈ comments, IsTrailing s) :
    ((annotate ls comments).all fun line => line.all isPrintable) = true := by
  induction ls generalizing comments with
  | nil => rfl
  | cons l ls ih =>
    cases comments with
    | nil => rfl
    | cons s comments =>
      have htame : Tame (l.text ++ s) := l.tame_text.append (hall s List.mem_cons_self).1
      rw [annotate, List.zipWith_cons_cons, List.all_cons, htame.all]
      exact ih fun s' hs' => hall s' (List.mem_cons_of_mem _ hs')

end Yaml
