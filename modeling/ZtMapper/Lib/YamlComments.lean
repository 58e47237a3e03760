/-
# Comments of a YAML text

A text is cut into lines at the line breaks of YAML 1.1, the comment of every line is
dropped, and so are the lines that are blank then.  What is left is the content of the
text; a text with a character that YAML does not allow has none.

Text that is written into a comment may leave it at a line break.  `skip` follows the
text from inside a comment, and `skip_comment_iff` says that it stays in comments
exactly when it adds nothing to the content.
-/
import Mathlib.Data.List.DropRight
import Mathlib.Tactic.Common

namespace Yaml

/-! ## Characters -/

/-- A line break: LF, CR, NEL, LS or PS. -/
def isBreak (c : Char) : Bool :=
  c = '\n' || c = '\r' || c = '\u0085' || c = '\u2028' || c = '\u2029'

/-- A character that a text may have. -/
def isPrintable (c : Char) : Bool :=
  c = '\t' || c = '\n' || c = '\r' || (0x20 ≤ c.toNat && c.toNat ≤ 0x7e) || c = '\u0085' ||
    (0xa0 ≤ c.toNat && c.toNat ≤ 0xfffd) || 0x10000 ≤ c.toNat

/-- A character that may stand in a line. -/
def isTame (c : Char) : Bool := isPrintable c && !isBreak c

/-- The byte order mark, which may start a line. -/
def mark : Char := '\ufeff'

/-! ## Content -/

/-- The lines of a text. -/
def lines (text : List Char) : List (List Char) := text.splitOnP isBreak

/-- Where a line is read: inside a double-quoted scalar or not, and behind a space (or
at the start) or not. -/
structure Place where
  quoted : Bool := false
  spaced : Bool := true

def Place.next (p : Place) (c : Char) : Place where
  quoted := if c = '"' then !p.quoted else p.quoted
  spaced := c = ' '

/-- A line up to its comment. -/
def cutComment : Place → List Char → List Char
  | _, [] => []
  | p, c :: cs => if c = '#' ∧ p.spaced ∧ ¬ p.quoted then [] else c :: cutComment (p.next c) cs

/-- Drop the mark that starts a line. -/
def dropMark : List Char → List Char
  | [] => []
  | c :: cs => if c = mark then cs else c :: cs

/-- A line without its comment, and without the spaces in front of that. -/
def bare (line : List Char) : List Char := (cutComment {} line).rdropWhile (· = ' ')

def uncomment (line : List Char) : List Char := bare (dropMark line)

/-- What is left of some lines. -/
def remaining (ls : List (List Char)) : List (List Char) :=
  (ls.map uncomment).filter (· ≠ [])

/-- The content of a text. -/
def content (text : List Char) : Option (List (List Char)) :=
  if text.all isPrintable then some (remaining (lines text)) else none

variable {line xs ys : List Char} {ls ls' : List (List Char)} {c : Char}

/-- Text that may stand in one line. -/
def Tame (text : List Char) : Prop := text.all isTame = true

instance (text : List Char) : Decidable (Tame text) := inferInstanceAs (Decidable (_ = true))

/-- Texts that may stand in a line, one after the other. -/
theorem Tame.append (hxs : Tame xs) (hys : Tame ys) : Tame (xs ++ ys) := by
  unfold Tame
  rw [List.all_append, Bool.and_eq_true]
  exact ⟨hxs, hys⟩

/-- A text may stand in a line when each of its characters may. -/
theorem tame_cons_iff : Tame (c :: xs) ↔ isTame c = true ∧ Tame xs := by
  unfold Tame
  rw [List.all_cons, Bool.and_eq_true]

/-- A character that may stand in a line is no line break. -/
theorem isBreak_of_isTame (h : isTame c = true) : isBreak c = false := by
  unfold isTame at h
  rw [Bool.and_eq_true, Bool.not_eq_true'] at h
  exact h.2

/-- Text that may stand in a line is printable. -/
theorem Tame.all (h : Tame xs) : xs.all isPrintable = true := by
  refine List.all_eq_true.mpr fun c hc => ?_
  have hc' := List.all_eq_true.mp h c hc
  unfold isTame at hc'
  exact (Bool.and_eq_true_iff.mp hc').1

/-- What is left of lines, one after the other. -/
theorem remaining_append : remaining (ls ++ ls') = remaining ls ++ remaining ls' := by
  unfold remaining
  rw [List.map_append, List.filter_append]

/-- A line that is blank without its comment leaves nothing. -/
theorem remaining_cons_of_blank (h : uncomment line = []) :
    remaining (line :: ls) = remaining ls := by
  unfold remaining
  rw [List.map_cons, h]
  rfl

/-- A line with content leaves its content. -/
theorem remaining_cons_of_content (h : uncomment line ≠ []) :
    remaining (line :: ls) = uncomment line :: remaining ls := by
  unfold remaining
  rw [List.map_cons]
  exact List.filter_cons_of_pos (decide_eq_true h)

/-- Nothing is left exactly when every line is blank without its comment. -/
theorem remaining_cons_eq_nil_iff :
    remaining (line :: ls) = [] ↔ uncomment line = [] ∧ remaining ls = [] := by
  by_cases h : uncomment line = []
  · rw [remaining_cons_of_blank h, and_iff_right h]
  · rw [remaining_cons_of_content h]
    exact iff_of_false (List.cons_ne_nil _ _) fun hboth => h hboth.1

/-- The lines of a text up to a line break, and the lines behind it. -/
theorem lines_append_break (xs ys : List Char) (hc : isBreak c = true) :
    lines (xs ++ c :: ys) = lines xs ++ lines ys := List.splitOnP_append_cons xs ys hc

/-- Text that may stand in a line is one line. -/
theorem lines_of_tame (h : Tame xs) : lines xs = [xs] :=
  List.splitOnP_eq_singleton fun c hc => isBreak_of_isTame (List.all_eq_true.mp h c hc)

/-- A character that is no line break belongs to the first line. -/
theorem lines_cons_of_not_break (hc : isBreak c = false) :
    lines (c :: xs) = (lines xs).modifyHead (c :: ·) := by
  unfold lines
  rw [List.splitOnP_cons_eq_if_modifyHead, if_neg (Bool.eq_false_iff.mp hc)]

/-- A line break ends the first line. -/
theorem lines_cons_of_break (hc : isBreak c = true) : lines (c :: xs) = [] :: lines xs := by
  unfold lines
  rw [List.splitOnP_cons_eq_if_modifyHead, if_pos hc]

/-- Every text has a line. -/
theorem lines_ne_nil (xs : List Char) : lines xs ≠ [] := List.splitOnP_ne_nil _ _

/-! ## Lines without a comment -/

/-- Without a hash there is no comment yet. -/
theorem cutComment_append (h : '#' ∉ xs) (p : Place) (ys : List Char) :
    cutComment p (xs ++ ys) = xs ++ cutComment (xs.foldl Place.next p) ys := by
  induction xs generalizing p with
  | nil => rfl
  | cons c xs ih =>
    have hc : c ≠ '#' := fun heq => h (heq ▸ List.mem_cons_self)
    rw [List.cons_append, List.foldl_cons, cutComment, if_neg fun hcut => hc hcut.1,
      ih (fun hmem => h (List.mem_cons_of_mem _ hmem)), List.cons_append]

/-- A line without a hash has no comment. -/
theorem cutComment_of_not_mem (h : '#' ∉ xs) (p : Place) : cutComment p xs = xs := by
  have happend := cutComment_append h p []
  rwa [List.append_nil, cutComment, List.append_nil] at happend

/-- A line that does not start with the mark is kept. -/
theorem dropMark_of_head (h : xs.head? ≠ some mark) : dropMark xs = xs := by
  cases xs with
  | nil => rfl
  | cons c xs => exact if_neg fun heq => h (congrArg some heq)

/-- Spaces at the end are dropped. -/
theorem rdropWhile_space (hlast : line.getLast? ≠ some ' ') (n : ℕ) :
    (line ++ List.replicate n ' ').rdropWhile (· = ' ') = line := by
  induction n with
  | zero =>
    rw [List.replicate_zero, List.append_nil, List.rdropWhile_eq_self_iff]
    intro hne hspace
    rw [List.getLast?_eq_some_getLast hne] at hlast
    exact hlast (congrArg some (of_decide_eq_true hspace))
  | succ n ih =>
    rw [List.replicate_succ', ← List.append_assoc,
      List.rdropWhile_concat_pos (fun c => decide (c = ' ')) _ _ rfl, ih]

/-- A line that has no comment and does not end in a space stays as it is. -/
theorem uncomment_of_not_mem (hhash : '#' ∉ line) (hhead : line.head? ≠ some mark)
    (hlast : line.getLast? ≠ some ' ') : uncomment line = line := by
  unfold uncomment bare
  rw [dropMark_of_head hhead, cutComment_of_not_mem hhash]
  have hdrop := rdropWhile_space hlast 0
  rw [List.replicate_zero, List.append_nil] at hdrop
  exact hdrop

/-- A space in front of a line does not make it blank or not. -/
theorem bare_space : bare (' ' :: line) = [] ↔ bare line = [] := by
  have hcut : cutComment {} (' ' :: line) = ' ' :: cutComment {} line := rfl
  unfold bare
  rw [hcut, List.rdropWhile_eq_nil_iff, List.rdropWhile_eq_nil_iff, List.forall_mem_cons]
  exact and_iff_right rfl

/-- A line that starts with a hash is blank. -/
theorem bare_hash : bare ('#' :: line) = [] := rfl

/-- A line that starts with another character is not blank. -/
theorem bare_of_content (hspace : c ≠ ' ') (hhash : c ≠ '#') : bare (c :: line) ≠ [] := by
  have hcut : cutComment {} (c :: line) = c :: cutComment (Place.next {} c) line :=
    if_neg fun hcut => hhash hcut.1
  unfold bare
  rw [hcut, ne_eq, List.rdropWhile_eq_nil_iff, List.forall_mem_cons]
  exact fun hall => hspace (of_decide_eq_true hall.1)

/-- Spaces change nothing but that a comment may start. -/
theorem foldl_spaces (p : Place) (n : ℕ) :
    (List.replicate (n + 1) ' ').foldl Place.next p = ⟨p.quoted, true⟩ := by
  induction n generalizing p with
  | zero => rfl
  | succ n ih =>
    rw [List.replicate_succ, List.foldl_cons, ih]
    rfl

/-- A line with a comment behind some spaces, outside of a quoted scalar. -/
theorem uncomment_append_comment (hhash : '#' ∉ line) (hhead : line.head? ≠ some mark)
    (hne : line ≠ []) (hlast : line.getLast? ≠ some ' ')
    (hquoted : (line.foldl Place.next {}).quoted = false) (n : ℕ) (comment : List Char) :
    uncomment (line ++ (List.replicate (n + 1) ' ' ++ '#' :: comment)) = line := by
  have hspaces : '#' ∉ List.replicate (n + 1) ' ' := fun hmem =>
    absurd (List.eq_of_mem_replicate hmem) (by decide)
  have hcut : cutComment ⟨false, true⟩ ('#' :: comment) = [] := rfl
  have hmark : dropMark (line ++ (List.replicate (n + 1) ' ' ++ '#' :: comment)) =
      line ++ (List.replicate (n + 1) ' ' ++ '#' :: comment) := by
    refine dropMark_of_head ?_
    rw [List.head?_append_of_ne_nil _ hne]
    exact hhead
  -- the line and the spaces are kept by the cut, and the spaces are dropped behind it
  unfold uncomment bare
  rw [hmark, cutComment_append hhash, cutComment_append hspaces, foldl_spaces, hquoted, hcut,
    List.append_nil]
  exact rdropWhile_space hlast (n + 1)

/-! ## Texts by lines -/

/-- A text of lines, each with a line feed. -/
def unlines (ls : List (List Char)) : List Char := ls.flatMap (· ++ ['\n'])

/-- The lines of a text of lines, the first one taken off. -/
theorem lines_unlines_cons (line : List Char) (ls : List (List Char)) :
    lines (unlines (line :: ls)) = lines line ++ lines (unlines ls) := by
  unfold unlines
  rw [List.flatMap_cons, List.append_assoc]
  exact lines_append_break line _ rfl

/-- What is left of a text is what is left of its lines. -/
theorem remaining_unlines (ls : List (List Char)) :
    remaining (lines (unlines ls)) = ls.flatMap fun line => remaining (lines line) := by
  induction ls with
  | nil => rfl
  | cons line ls ih => rw [lines_unlines_cons, remaining_append, ih, List.flatMap_cons]

/-- A line with content leaves that content. -/
theorem remaining_of_tame (h : Tame line) (hne : uncomment line ≠ []) :
    remaining (lines line) = [uncomment line] := by
  rw [lines_of_tame h, remaining_cons_of_content hne]
  rfl

/-- What holds of line feeds and all lines holds of their text. -/
theorem all_unlines (p : Char → Bool) (hp : p '\n' = true) (ls : List (List Char)) :
    (unlines ls).all p = ls.all fun line => line.all p := by
  unfold unlines
  rw [List.all_flatMap]
  congr 1
  funext line
  rw [List.all_append, List.all_cons, hp]
  exact Bool.and_true _

/-! ## Text inside a comment -/

/-- Where text is that has been written into a comment: inside of a comment, at the
start of a line, or in a line that is blank up to here. -/
inductive Spot where
  | comment
  | start
  | blank
  deriving DecidableEq, Repr

/-- One more character of a blank line, unless it is content. -/
def nextBlank (c : Char) : Option Spot :=
  if isBreak c then some .start
  else if c = ' ' then some .blank
  else if c = '#' then some .comment
  else none

/-- One more character, unless it is content. -/
def Spot.next (c : Char) : Spot → Option Spot
  | .comment => some (if isBreak c then .start else .comment)
  | .start => if c = mark then some .blank else nextBlank c
  | .blank => nextBlank c

/-- A text from a spot on, unless it has content. -/
def skip : Spot → List Char → Option Spot
  | p, [] => some p
  | p, c :: cs => (p.next c).bind fun p' => skip p' cs

/-- What lies behind a spot has no content. -/
def Silent (text : List Char) : Spot → Prop
  | .comment => remaining (lines text).tail = []
  | .start => remaining (lines text) = []
  | .blank => bare ((lines text).headD []) = [] ∧ remaining (lines text).tail = []

/-- A text is skipped part by part. -/
theorem skip_append (p : Spot) (xs ys : List Char) :
    skip p (xs ++ ys) = (skip p xs).bind fun p' => skip p' ys := by
  induction xs generalizing p with
  | nil => rfl
  | cons c xs ih =>
    rw [List.cons_append, skip, skip, Option.bind_assoc]
    congr 1
    funext p'
    exact ih p'

/-- Nothing has no content. -/
theorem silent_nil (p : Spot) : Silent [] p := by
  cases p with
  | comment => rfl
  | start => rfl
  | blank => exact ⟨rfl, rfl⟩

section

variable {text h : List Char} {t : List (List Char)}

/-- Inside a comment, only the further lines matter. -/
theorem silent_comment_iff (hlines : lines text = h :: t) :
    Silent text .comment ↔ remaining t = [] := by
  unfold Silent
  rw [hlines, List.tail_cons]

/-- In a blank line, the rest of the line and the further lines matter. -/
theorem silent_blank_iff (hlines : lines text = h :: t) :
    Silent text .blank ↔ bare h = [] ∧ remaining t = [] := by
  unfold Silent
  rw [hlines, List.tail_cons, List.headD_cons]

/-- At the start of a line, that line and the further ones matter. -/
theorem silent_start_iff (hlines : lines text = h :: t) :
    Silent text .start ↔ uncomment h = [] ∧ remaining t = [] := by
  unfold Silent
  rw [hlines, remaining_cons_eq_nil_iff]

end

/-- The one successor of a spot is the one that counts. -/
theorem eq_some_and_iff {p : Spot} {P : Spot → Prop} :
    (∃ p', some p = some p' ∧ P p') ↔ P p := by
  simp only [Option.some.injEq, exists_eq_left']

/-- At a blank spot a line stays silent if its next character does and the rest does. -/
theorem silent_blank_cons :
    Silent (c :: xs) .blank ↔ ∃ p', nextBlank c = some p' ∧ Silent xs p' := by
  obtain ⟨h, t, hlines⟩ := List.exists_cons_of_ne_nil (lines_ne_nil xs)
  unfold nextBlank
  by_cases hbreak : isBreak c = true
  · rw [if_pos hbreak, eq_some_and_iff, silent_blank_iff (lines_cons_of_break hbreak)]
    exact and_iff_right rfl
  · have hcons : lines (c :: xs) = (c :: h) :: t := by
      rw [lines_cons_of_not_break (Bool.eq_false_iff.mpr hbreak), hlines, List.modifyHead_cons]
    rw [if_neg hbreak, silent_blank_iff hcons]
    -- a space, the start of a comment, or content
    split_ifs with hspace hhash
    · rw [eq_some_and_iff, silent_blank_iff hlines, hspace, bare_space]
    · rw [eq_some_and_iff, silent_comment_iff hlines, hhash]
      exact and_iff_right bare_hash
    · exact iff_of_false (fun hsilent => bare_of_content hspace hhash hsilent.1)
        fun ⟨_, hp', _⟩ => nomatch hp'

/-- A spot is silent exactly when the next one is. -/
theorem silent_cons (p : Spot) :
    Silent (c :: xs) p ↔ ∃ p', p.next c = some p' ∧ Silent xs p' := by
  obtain ⟨h, t, hlines⟩ := List.exists_cons_of_ne_nil (lines_ne_nil xs)
  cases p with
  | blank => exact silent_blank_cons
  | comment =>
    -- only a line break matters
    unfold Spot.next
    rw [eq_some_and_iff]
    by_cases hbreak : isBreak c = true
    · rw [if_pos hbreak, silent_comment_iff (lines_cons_of_break hbreak)]
      rfl
    · have hcons : lines (c :: xs) = (c :: h) :: t := by
        rw [lines_cons_of_not_break (Bool.eq_false_iff.mpr hbreak), hlines, List.modifyHead_cons]
      rw [if_neg hbreak, silent_comment_iff hcons, silent_comment_iff hlines]
  | start =>
    unfold Spot.next
    by_cases hmark : c = mark
    · have hcons : lines (c :: xs) = (c :: h) :: t := by
        rw [lines_cons_of_not_break (by rw [hmark]; rfl), hlines, List.modifyHead_cons]
      have hdrop : uncomment (c :: h) = bare h := congrArg bare (if_pos hmark)
      rw [if_pos hmark, eq_some_and_iff, silent_start_iff hcons, silent_blank_iff hlines, hdrop]
    · -- without a mark, the start of a line is a blank line
      rw [if_neg hmark, ← silent_blank_cons]
      by_cases hbreak : isBreak c = true
      · rw [silent_start_iff (lines_cons_of_break hbreak),
          silent_blank_iff (lines_cons_of_break hbreak)]
        rfl
      · have hcons : lines (c :: xs) = (c :: h) :: t := by
          rw [lines_cons_of_not_break (Bool.eq_false_iff.mpr hbreak), hlines,
            List.modifyHead_cons]
        have hkeep : uncomment (c :: h) = bare (c :: h) := congrArg bare (if_neg hmark)
        rw [silent_start_iff hcons, silent_blank_iff hcons, hkeep]

/-- Text stays out of the content exactly when it can be skipped. -/
theorem skip_isSome_iff (p : Spot) (text : List Char) :
    (skip p text).isSome = true ↔ Silent text p := by
  induction text generalizing p with
  | nil => exact iff_of_true rfl (silent_nil p)
  | cons c cs ih =>
    rw [silent_cons, skip]
    cases hnext : p.next c with
    | none => exact iff_of_false Bool.false_ne_true fun ⟨_, hp', _⟩ => nomatch hp'
    | some p' =>
      rw [Option.bind_some, eq_some_and_iff]
      exact ih p'

/-- A comment runs over any text without line breaks. -/
theorem skip_comment_of_tame (h : Tame xs) : skip .comment xs = some .comment := by
  induction xs with
  | nil => rfl
  | cons c cs ih =>
    obtain ⟨hc, hcs⟩ := tame_cons_iff.mp h
    have hnext : Spot.next c .comment = some .comment := by
      unfold Spot.next
      rw [if_neg (Bool.eq_false_iff.mp (isBreak_of_isTame hc))]
    rw [skip, hnext, Option.bind_some, ih hcs]

/-- Text of a line stays in the comment. -/
theorem skip_comment_append (h : Tame xs) (ys : List Char) :
    skip .comment (xs ++ ys) = skip .comment ys := by
  rw [skip_append, skip_comment_of_tame h, Option.bind_some]

/-- A comment line into which text has been written. -/
theorem remaining_comment_eq_nil_iff {start : List Char} (hhash : start.head? = some '#')
    (htame : Tame start) (text : List Char) :
    remaining (lines (start ++ text)) = [] ↔ (skip .comment text).isSome = true := by
  have hskip : skip .start (start ++ text) = skip .comment text := by
    cases start with
    | nil => cases hhash
    | cons c start =>
      obtain rfl := Option.some.inj hhash
      have hfirst : skip .start ('#' :: (start ++ text)) = skip .comment (start ++ text) := rfl
      rw [List.cons_append, hfirst, skip_comment_append (tame_cons_iff.mp htame).2]
  rw [← hskip, skip_isSome_iff]
  rfl

/-- Text that is followed by more of the comment has to be inside the comment at its
end, when that would be content of a line. -/
theorem skip_followed_isSome_iff {text mid rest : List Char}
    (htame : Tame mid) (hstart : skip .start mid = none)
    (hblank : skip .blank mid = none) :
    (skip .comment (text ++ (mid ++ rest))).isSome = true ↔
      skip .comment text = some .comment ∧ (skip .comment rest).isSome = true := by
  rw [skip_append]
  cases hskip : skip .comment text with
  | none => exact iff_of_false Bool.false_ne_true fun h => nomatch h.1
  | some p =>
    -- where the text has ended
    rw [Option.bind_some]
    cases p with
    | comment =>
      rw [skip_comment_append htame]
      exact (and_iff_right rfl).symm
    | start =>
      rw [skip_append, hstart]
      exact iff_of_false Bool.false_ne_true fun h => nomatch h.1
    | blank =>
      rw [skip_append, hblank]
      exact iff_of_false Bool.false_ne_true fun h => nomatch h.1

end Yaml
