/-
# Text messages

A message is a block of headers, an empty line and a body.  A line ends with LF, before
which a CR is not counted, and a line that starts with a blank continues the header
before it.

* `splitLines_eq_some_iff` : where the block of headers ends;
* `read_print_iff` : a printed message is read back with the names of its headers and
  its body exactly when every line break in a value is followed by a blank.
-/
import ZtMapper.Lib.Lines

namespace Message

/-! ## Lines -/

def chomp (l : List Char) : List Char := if l.getLast? = some '\r' then l.dropLast else l

/-- A line is empty when it has a carriage return at most. -/
theorem chomp_eq_nil_iff {l : List Char} : chomp l = [] ↔ l = [] ∨ l = ['\r'] := by
  unfold chomp
  constructor
  · split_ifs with h
    · intro hnil
      have hne : l ≠ [] := by
        rintro rfl
        cases h
      rw [List.getLast?_eq_some_getLast hne] at h
      have hl := List.dropLast_concat_getLast hne
      rw [hnil, Option.some.inj h] at hl
      exact Or.inr hl.symm
    · exact Or.inl
  · rintro (rfl | rfl)
    · exact if_neg (by simp)
    · exact if_pos rfl

/-- It starts with a blank. -/
def Continues (s : List Char) : Prop := s.head? = some ' ' ∨ s.head? = some '\t'

instance (s : List Char) : Decidable (Continues s) := inferInstanceAs (Decidable (_ ∨ _))

/-- A continuation line is not the blank line. -/
theorem Continues.chomp_ne_nil {l : List Char} (h : Continues l) : chomp l ≠ [] := by
  rw [Ne, chomp_eq_nil_iff]
  rintro (rfl | rfl)
  · exact absurd h (by decide)
  · exact absurd h (by decide)

/-- Every line break is followed by a blank. -/
def Folded : List Char → Prop
  | [] => True
  | c :: s => (c = '\n' → Continues s) ∧ Folded s

instance decidableFolded : DecidablePred Folded
  | [] => .isTrue trivial
  | c :: s =>
    have := decidableFolded s
    inferInstanceAs (Decidable ((c = '\n' → Continues s) ∧ Folded s))

section Folded

variable {s t : List Char} {c : Char}

/-- A text of one line is folded. -/
theorem folded_of_notMem (h : '\n' ∉ s) : Folded s := by
  induction s with
  | nil => exact trivial
  | cons b s ih =>
    rw [List.mem_cons, not_or] at h
    exact ⟨fun heq => absurd heq.symm h.1, ih h.2⟩

/-- What stands on the first line is free. -/
theorem folded_append_of_notMem (h : '\n' ∉ s) : Folded (s ++ t) ↔ Folded t := by
  induction s with
  | nil => exact Iff.rfl
  | cons b s ih =>
    rw [List.mem_cons, not_or] at h
    rw [List.cons_append, Folded, ih h.2]
    exact and_iff_right fun heq => absurd heq.symm h.1

/-- Whether a line continues is seen from its first character. -/
theorem continues_append_cons : Continues (s ++ c :: t) ↔ Continues (s ++ [c]) := by
  cases s with
  | nil => exact Iff.rfl
  | cons b s => exact Iff.rfl

/-- Foldedness can be checked line by line. -/
theorem folded_append_cons (hc : c ≠ '\n') :
    Folded (s ++ c :: t) ↔ Folded (s ++ [c]) ∧ Folded t := by
  induction s with
  | nil => simp [Folded, hc]
  | cons b s ih =>
    rw [List.cons_append, List.cons_append, Folded, Folded, ih, continues_append_cons, and_assoc]

/-- A character that starts no line break can be put at the end. -/
theorem folded_concat (hc : c ≠ '\n') (hblank : ¬ Continues [c]) :
    Folded (s ++ [c]) ↔ Folded s := by
  induction s with
  | nil => simp [Folded, hc]
  | cons b s ih =>
    have hhead : Continues (s ++ [c]) ↔ Continues s := by
      cases s with
      | nil => exact iff_of_false hblank (by decide)
      | cons d s => exact Iff.rfl
    rw [List.cons_append, Folded, Folded, ih, hhead]

/-- The first line continues as the text does. -/
theorem continues_iff_of_splitOn {l : List Char} {lines : List (List Char)}
    (h : s.splitOn '\n' = l :: lines) : Continues l ↔ Continues s := by
  cases lines with
  | nil => rw [(Lines.splitOn_eq_one_iff.mp h).1]
  | cons l' lines =>
    obtain ⟨rest, rfl, -, -⟩ := Lines.splitOn_eq_cons_cons_iff.mp h
    cases l with
    | nil => exact iff_of_false (by decide) (by simp [Continues])
    | cons b l => exact Iff.rfl

/-- Every line but the first starts with a blank. -/
theorem folded_iff : Folded s ↔ ∀ l ∈ (s.splitOn '\n').tail, Continues l := by
  induction s with
  | nil => simp [Folded]
  | cons c s ih =>
    obtain ⟨l, lines, hsplit⟩ := List.exists_cons_of_ne_nil (List.splitOn_ne_nil '\n' s)
    rw [hsplit, List.tail_cons] at ih
    rw [Folded, ih, List.splitOn_cons_eq_if_modifyHead, hsplit, ← continues_iff_of_splitOn hsplit]
    by_cases hc : c = '\n'
    · rw [if_pos (beq_iff_eq.mpr hc), List.tail_cons, List.forall_mem_cons]
      exact and_congr_left' (imp_iff_right hc)
    · rw [if_neg fun heq => hc (beq_iff_eq.mp heq), List.modifyHead_cons, List.tail_cons]
      exact and_iff_right fun heq => absurd heq hc

end Folded

/-! ## Reading -/

/-- The lines up to the first empty one, and the text after it. -/
def splitLines : List (List Char) → Option (List (List Char) × List Char)
  | l :: next :: rest =>
    if chomp l = [] then some ([], ['\n'].intercalate (next :: rest))
    else (splitLines (next :: rest)).map fun (lines, body) => (l :: lines, body)
  | _ => none

/-- The names of the headers that start in a block of lines. -/
def names (lines : List (List Char)) : List (List Char) :=
  (lines.filter (¬ Continues ·)).map fun l => l.takeWhile (· ≠ ':')

/-- The names of the headers of a message, and its body. -/
def read (s : List Char) : Option (List (List Char) × List Char) :=
  (splitLines (s.splitOn '\n')).map fun (lines, body) => (names lines, body)

/-- The headers end at the first blank line. -/
theorem splitLines_append {lines rest : List (List Char)} {l : List Char}
    (hlines : ∀ l ∈ lines, chomp l ≠ []) (hl : chomp l = []) (hrest : rest ≠ []) :
    splitLines (lines ++ l :: rest) = some (lines, ['\n'].intercalate rest) := by
  induction lines with
  | nil =>
    obtain ⟨next, rest, rfl⟩ := List.exists_cons_of_ne_nil hrest
    rw [List.nil_append, splitLines, if_pos hl]
  | cons b lines ih =>
    rw [List.forall_mem_cons] at hlines
    have hne : lines ++ l :: rest ≠ [] := by simp
    obtain ⟨next, more, hmore⟩ := List.exists_cons_of_ne_nil hne
    rw [List.cons_append, hmore, splitLines, if_neg hlines.1, ← hmore, ih hlines.2]
    rfl

/-- What `splitLines` finds: headers, a blank line and the body. -/
theorem exists_of_splitLines {all lines : List (List Char)} {body : List Char}
    (h : splitLines all = some (lines, body)) :
    ∃ l rest, all = lines ++ l :: rest ∧ (∀ l ∈ lines, chomp l ≠ []) ∧ chomp l = [] ∧
      rest ≠ [] ∧ body = ['\n'].intercalate rest := by
  induction all using splitLines.induct generalizing lines with
  | case1 l next rest hl =>
    rw [splitLines, if_pos hl] at h
    obtain ⟨rfl, rfl⟩ := Prod.ext_iff.mp (Option.some.inj h)
    exact ⟨l, next :: rest, rfl, by simp, hl, by simp, rfl⟩
  | case2 b next rest hb ih =>
    rw [splitLines, if_neg hb, Option.map_eq_some_iff] at h
    obtain ⟨⟨ls, body'⟩, hsome, heq⟩ := h
    obtain ⟨rfl, rfl⟩ := Prod.ext_iff.mp heq
    obtain ⟨l, more, hall, hls, hl, hne, hbody⟩ := ih hsome
    exact ⟨l, more, congrArg (b :: ·) hall, List.forall_mem_cons.mpr ⟨hb, hls⟩, hl, hne, hbody⟩
  | case3 all hall =>
    rw [splitLines] at h
    · exact absurd h (Option.some_ne_none _).symm
    · exact hall

/-- **Where the block of headers ends.** -/
theorem splitLines_eq_some_iff {all lines : List (List Char)} {body : List Char} :
    splitLines all = some (lines, body) ↔
      ∃ l rest, all = lines ++ l :: rest ∧ (∀ l ∈ lines, chomp l ≠ []) ∧ chomp l = [] ∧
        rest ≠ [] ∧ body = ['\n'].intercalate rest := by
  constructor
  · exact exists_of_splitLines
  · rintro ⟨l, rest, rfl, hlines, hl, hrest, rfl⟩
    exact splitLines_append hlines hl hrest

/-- The names of the headers, in order. -/
theorem names_append (lines lines' : List (List Char)) :
    names (lines ++ lines') = names lines ++ names lines' := by
  rw [names, List.filter_append, List.map_append]
  rfl

/-! ## Printing -/

/-- A header as it is printed, on a line that ends with CR LF or with LF. -/
structure Header where
  name : List Char
  value : List Char
  cr : Bool
  ne_nil : name ≠ []
  notMem : '\n' ∉ name ∧ ':' ∉ name
  not_continues : ¬ Continues name

namespace Header

/-- The line, without the LF. -/
def text (h : Header) : List Char :=
  h.name ++ ([':', ' '] ++ (h.value ++ if h.cr then ['\r'] else []))

def lines (h : Header) : List (List Char) := h.text.splitOn '\n'

variable (h : Header)

/-- A header is folded when its value is. -/
theorem folded_text : Folded h.text ↔ Folded h.value := by
  have htext : h.text = (h.name ++ [':', ' ']) ++ (h.value ++ if h.cr then ['\r'] else []) := by
    rw [text, List.append_assoc]
  have hfree : '\n' ∉ h.name ++ [':', ' '] := by
    rw [List.mem_append, not_or]
    exact ⟨h.notMem.1, by decide⟩
  rw [htext, folded_append_of_notMem hfree]
  split_ifs
  · exact folded_concat (by decide) (by decide)
  · rw [List.append_nil]

/-- The first line of a header has its name, and more. -/
theorem exists_lines : ∃ first rest, h.lines = first :: rest ∧ ¬ Continues first ∧
    chomp first ≠ [] ∧ first.takeWhile (· ≠ ':') = h.name := by
  obtain ⟨l, rest, hsplit⟩ := List.exists_cons_of_ne_nil
    (List.splitOn_ne_nil '\n' (' ' :: (h.value ++ if h.cr then ['\r'] else [])))
  have hfree : '\n' ∉ h.name ++ [':'] := by
    rw [List.mem_append, not_or]
    exact ⟨h.notMem.1, by decide⟩
  refine ⟨h.name ++ [':'] ++ l, rest, ?_, ?_, ?_, ?_⟩
  · have htext : h.text =
        (h.name ++ [':']) ++ ' ' :: (h.value ++ if h.cr then ['\r'] else []) := by
      rw [text, List.append_assoc]
      rfl
    rw [lines, htext, Lines.splitOn_append_of_notMem hfree, hsplit, List.modifyHead_cons]
  · obtain ⟨c, name, hname⟩ := List.exists_cons_of_ne_nil h.ne_nil
    have hnot := h.not_continues
    rw [hname] at hnot ⊢
    exact hnot
  · have hcolon : ':' ∈ h.name ++ [':'] ++ l := by simp
    rw [Ne, chomp_eq_nil_iff]
    rintro (heq | heq)
    · rw [heq] at hcolon
      exact absurd hcolon List.not_mem_nil
    · rw [heq] at hcolon
      exact absurd hcolon (by decide)
  · rw [List.append_assoc, List.takeWhile_append_of_pos, List.singleton_append,
      List.takeWhile_cons_of_neg (by simp), List.append_nil]
    exact fun c hc => decide_eq_true fun heq => h.notMem.2 (heq ▸ hc)

/-- The lines of a header are read as the header alone exactly when it is folded. -/
theorem names_lines : ∃ more, names h.lines = h.name :: more ∧ (more = [] ↔ Folded h.value) := by
  obtain ⟨first, rest, hlines, hfirst, -, hname⟩ := h.exists_lines
  refine ⟨names rest, ?_, ?_⟩
  · rw [hlines, names, List.filter_cons, if_pos (decide_eq_true hfirst), List.map_cons, hname]
    rfl
  · rw [← h.folded_text, folded_iff, ← lines, hlines, List.tail_cons, names, List.map_eq_nil_iff,
      List.filter_eq_nil_iff]
    simp only [decide_eq_true_eq, not_not]

/-- No line of a folded header is blank. -/
theorem chomp_ne_nil (hfolded : Folded h.value) {l : List Char} (hl : l ∈ h.lines) :
    chomp l ≠ [] := by
  obtain ⟨first, rest, hlines, -, hfirst, -⟩ := h.exists_lines
  rw [← h.folded_text, folded_iff, ← lines, hlines, List.tail_cons] at hfolded
  rw [hlines] at hl
  rcases List.mem_cons.mp hl with rfl | hl
  · exact hfirst
  · exact (hfolded l hl).chomp_ne_nil

end Header

def print (headers : List Header) (body : List Char) : List Char :=
  headers.flatMap (fun h => h.text ++ ['\n']) ++ '\n' :: body

variable {headers : List Header} {body : List Char}

/-- The lines of a printed message. -/
theorem splitOn_print : (print headers body).splitOn '\n' =
    headers.flatMap Header.lines ++ [] :: body.splitOn '\n' := by
  induction headers with
  | nil =>
    have h := List.splitOn_append_cons_self ([] : List Char) body (a := '\n')
    exact h
  | cons h headers ih =>
    have hprint : print (h :: headers) body = h.text ++ '\n' :: print headers body := by
      simp only [print, List.flatMap_cons, List.append_assoc, List.cons_append, List.nil_append]
    rw [hprint, List.splitOn_append_cons_self, ih, List.flatMap_cons, List.append_assoc]
    rfl

/-- Every header is read, and perhaps more than the headers. -/
theorem length_le_names (headers : List Header) :
    headers.length ≤ (names (headers.flatMap Header.lines)).length := by
  induction headers with
  | nil => exact Nat.zero_le _
  | cons h headers ih =>
    obtain ⟨more, hnames, -⟩ := h.names_lines
    rw [List.flatMap_cons, names_append, hnames, List.length_append, List.length_cons,
      List.length_cons]
    omega

/-- No more than the headers is read exactly when every value is folded. -/
theorem names_flatMap_eq_iff :
    names (headers.flatMap Header.lines) = headers.map (·.name) ↔ ∀ h ∈ headers, Folded h.value := by
  induction headers with
  | nil => simp [names]
  | cons h headers ih =>
    obtain ⟨more, hnames, hmore⟩ := h.names_lines
    rw [List.flatMap_cons, names_append, hnames, List.forall_mem_cons, List.map_cons,
      List.cons_append, List.cons_inj_right]
    refine Iff.trans ?_ (and_congr hmore ih)
    constructor
    · intro heq
      -- the other headers are all read, so that nothing more was read of this one
      have hcount := congrArg List.length heq
      have hrest := length_le_names headers
      rw [List.length_append, List.length_map] at hcount
      obtain rfl : more = [] := List.eq_nil_of_length_eq_zero (by omega)
      exact ⟨rfl, heq⟩
    · rintro ⟨rfl, heq⟩
      exact heq

/-- **A printed message is read back** exactly when every value is folded. -/
theorem read_print_iff :
    read (print headers body) = some (headers.map (·.name), body) ↔
      ∀ h ∈ headers, Folded h.value := by
  rw [read, Option.map_eq_some_iff]
  constructor
  · rintro ⟨⟨lines, body'⟩, hsplit, heq⟩
    obtain ⟨hnames, rfl⟩ := Prod.ext_iff.mp heq
    obtain ⟨l, rest, hall, -, -, hne, hbody⟩ := splitLines_eq_some_iff.mp hsplit
    have hfree : ∀ t ∈ rest, '\n' ∉ t := fun t ht => Lines.notMem_of_mem_splitOn
      (hall ▸ List.mem_append_right lines (List.mem_cons_of_mem l ht))
    have hrest : rest = body'.splitOn '\n' := by
      rw [hbody]
      exact (List.splitOn_intercalate '\n' hfree hne).symm
    -- the body is the same, so that the empty line before it is the printed one
    rw [splitOn_print, hrest] at hall
    obtain ⟨rfl, -⟩ := List.append_inj' hall rfl
    exact names_flatMap_eq_iff.mp hnames
  · intro hfolded
    refine ⟨(headers.flatMap Header.lines, body), ?_, ?_⟩
    · rw [splitOn_print]
      refine splitLines_eq_some_iff.mpr ⟨[], body.splitOn '\n', rfl, ?_, by decide,
        List.splitOn_ne_nil _ _, (List.intercalate_splitOn '\n').symm⟩
      intro l hl
      obtain ⟨h, hh, hl⟩ := List.mem_flatMap.mp hl
      exact h.chomp_ne_nil (hfolded h hh) hl
    · exact Prod.ext (names_flatMap_eq_iff.mpr hfolded) rfl

end Message
