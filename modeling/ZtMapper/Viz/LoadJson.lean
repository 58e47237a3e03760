/-
# The alerts of the graph renderer

`FileAlertHandler` writes alerts as lines, and `load_json` of the graph renderer reads
the file.  `loadJson_written_iff` says when it returns the list of the alerts: from two
alerts on, when every line is within the limits of the interpreter.  A lone alert is itself a
JSON text, and comes back as it is.
-/
import ZtMapper.Soc.ToJson
import ZtMapper.Lib.Fallible
import ZtMapper.Lib.Lines
import ZtMapper.Lib.Trim

open Json Scan Soc

namespace Viz

/-! ## `FileAlertHandler` -/

/-- `send`, on the content of the file. -/
def send (out : List UInt8) (alert : Alert) : List UInt8 := out ++ (toJson alert ++ [10])

/-- The file after a run: the constructor empties it. -/
def written (alerts : List Alert) : List UInt8 := alerts.foldl send []

/-! ## `load_json` -/

/-- The line ends of a file that is opened as text. -/
def universalNewlines : List Char → List Char
  | [] => []
  | '\r' :: '\n' :: s => '\n' :: universalNewlines s
  | '\r' :: s => '\n' :: universalNewlines s
  | c :: s => c :: universalNewlines s

/-- `read`, of a text in UTF-8. -/
def readText (b : List UInt8) : Option (List Char) :=
  (String.fromUTF8? b.toByteArray).map fun s => universalNewlines s.toList

/-- The characters of `str.isspace`. -/
def spaceChars : List Char :=
  ['\t', '\n', '\x0b', '\x0c', '\r', '\x1c', '\x1d', '\x1e', '\x1f', ' ', '\u0085', '\u00a0',
    '\u1680', '\u2000', '\u2001', '\u2002', '\u2003', '\u2004', '\u2005', '\u2006', '\u2007',
    '\u2008', '\u2009', '\u200a', '\u2028', '\u2029', '\u202f', '\u205f', '\u3000']

def isSpace (c : Char) : Bool := spaceChars.contains c

def strip (s : List Char) : List Char := trim isSpace s

/-- The lines that are not blank. -/
def pieces (content : List Char) : List (List Char) :=
  (content.splitOn '\n').filter (strip · ≠ [])

/-- How `json.loads` fails: with a `JSONDecodeError`, or with an error that is not caught, a
`RecursionError` for deep nesting or a `ValueError` for an integer of more than 4300 digits. -/
inductive LoadsError where
  | decode
  | limit
  deriving DecidableEq, Repr

/-- Where `json.loads` is called: in the function, or in the list comprehension, which may have
a frame of its own. -/
inductive Frame where
  | body
  | comprehension

/-- The value is nested at most `n` deep, and no integer of it has more than 4300 digits. -/
inductive Within : ℕ → Value → Prop
  | null {n : ℕ} : Within n .null
  | bool {n : ℕ} (b : Bool) : Within n (.bool b)
  | num {n : ℕ} {m e : ℤ} (h : (Nat.toDigits 10 m.natAbs).length ≤ 4300) : Within n (.num m e)
  | str {n : ℕ} (s : String) : Within n (.str s)
  | arr {n : ℕ} {vs : List Value} (h : ∀ v ∈ vs, Within n v) : Within (n + 1) (.arr vs)
  | obj {n : ℕ} {ms : List (String × Value)} (h : ∀ m ∈ ms, Within n m.2) : Within (n + 1) (.obj ms)

def Braced (s : List Char) : Prop := ∃ t, s = '\x7b' :: (t ++ ['\x7d'])

/-- The interpreter, by its `json.loads`, with what is documented of it.  A dictionary is its
members. -/
structure Python where
  loads : Frame → List Char → Except LoadsError Value
  /-- A JSON text is decoded, unless it exceeds a limit. -/
  loads_eq : ∀ {s v} frame, decode s = some v → loads frame s = .ok v ∨ loads frame s = .error .limit
  /-- The limits are above what is nested 100 deep. -/
  loads_of_within : ∀ {s v} frame, decode s = some v → Within 100 v → loads frame s = .ok v
  /-- There is no more room in the deeper frame. -/
  loads_comprehension : ∀ {s}, loads .body s = .error .limit → loads .comprehension s = .error .limit
  /-- Behind a JSON text, there are only blanks. -/
  loads_extra : ∀ {s r v} frame, Braced s → decode s = some v → loads frame s = .ok v →
    (∃ c ∈ r, isWs c = false) → loads frame (s ++ '\n' :: r) = .error .decode
  loads_braced : ∀ {s v} frame, Braced s → loads frame s = .ok v → ∃ ms, v = .obj ms

/-- The value of a content without blanks around it, and `none` for an error that is not
caught. -/
def loadContent (py : Python) (content : List Char) : Option Value :=
  if content = [] then some (.obj [])
  else match py.loads .body content with
    | .ok v => some v
    | .error .limit => none
    | .error .decode => match (pieces content).mapM (py.loads .comprehension) with
      | .ok vs => some (.arr vs)
      | .error .decode => some (.obj [])
      | .error .limit => none

/-- The argument is `none` when there is no such file, and the result when there is an error that
is not caught, as for a file that is not in UTF-8. -/
def loadJson (py : Python) (file : Option (List UInt8)) : Option Value :=
  match file with
  | none => some (.obj [])
  | some b => (readText b).bind fun text => loadContent py (strip text)

/-! ## Line ends -/

/-- A character in front leaves the last one. -/
theorem getLast?_cons_of_eq_some {s : List Char} {c d : Char} (h : s.getLast? = some c) :
    (d :: s).getLast? = some c := by
  cases s with
  | nil => cases h
  | cons b s => exact h

/-- Line ends are not made across a character, unless it is the LF after a CR. -/
theorem universalNewlines_append {s r : List Char} {c : Char}
    (h : s.getLast? = some '\r' → c ≠ '\n') :
    universalNewlines (s ++ c :: r) = universalNewlines s ++ universalNewlines (c :: r) := by
  fun_induction universalNewlines s with
  | case1 => rfl
  | case2 s ih =>
    rw [List.cons_append, List.cons_append, universalNewlines, ih, List.cons_append]
    exact fun hlast => h (getLast?_cons_of_eq_some (getLast?_cons_of_eq_some hlast))
  | case3 s hs ih =>
    have hhead : ∀ s', s ++ c :: r = '\n' :: s' → False := by
      intro s' heq
      cases s with
      | nil => exact h rfl (List.cons.inj heq).1
      | cons d s => exact hs s (by rw [(List.cons.inj heq).1])
    rw [List.cons_append, universalNewlines.eq_3 _ hhead, ih, List.cons_append]
    exact fun hlast => h (getLast?_cons_of_eq_some hlast)
  | case4 d s _ hd ih =>
    rw [List.cons_append, universalNewlines.eq_4 _ _ (fun _ heq _ => hd heq) hd, ih,
      List.cons_append]
    exact fun hlast => h (getLast?_cons_of_eq_some hlast)

/-- There is a line break where there was one of either kind. -/
theorem mem_universalNewlines {s : List Char} :
    '\n' ∈ universalNewlines s ↔ '\r' ∈ s ∨ '\n' ∈ s := by
  fun_induction universalNewlines s with
  | case1 => simp
  | case2 s ih => simp
  | case3 s hs ih => simp
  | case4 d s _ hd ih =>
    have hne : '\r' ≠ d := fun heq => hd heq.symm
    rw [List.mem_cons, List.mem_cons, List.mem_cons, ih, or_iff_right hne]
    exact or_left_comm

/-- Without a CR the text is read as it is. -/
theorem universalNewlines_of_notMem {s : List Char} (h : '\r' ∉ s) : universalNewlines s = s := by
  fun_induction universalNewlines s with
  | case1 => rfl
  | case2 s ih => simp at h
  | case3 s hs ih => simp at h
  | case4 d s _ _ ih => rw [ih fun hmem => h (List.mem_cons_of_mem d hmem)]

/-! ## Limits -/

/-- What is nested less deep is within a larger bound. -/
theorem Within.mono {n n' : ℕ} {v : Value} (h : Within n v) (hle : n ≤ n') : Within n' v := by
  induction h generalizing n' with
  | null => exact .null
  | bool b => exact .bool b
  | num h => exact .num h
  | str s => exact .str s
  | arr _ ih =>
    obtain ⟨m, rfl⟩ := Nat.exists_eq_add_of_le' hle
    exact .arr fun v hv => ih v hv (Nat.le_add_left _ _)
  | obj _ ih =>
    obtain ⟨m, rfl⟩ := Nat.exists_eq_add_of_le' hle
    exact .obj fun p hp => ih p hp (Nat.le_add_left _ _)

/-! ## Texts in braces -/

namespace Braced

variable {s : List Char}

/-- A text in braces ends with a brace. -/
theorem getLast? (h : Braced s) : s.getLast? = some '\x7d' := by
  obtain ⟨t, rfl⟩ := h
  rw [← List.cons_append, List.getLast?_concat]

/-- A text in braces has no blanks around it. -/
theorem trimmed (h : Braced s) : Trimmed isSpace s := by
  refine ⟨fun b hb => ?_, fun b hb => ?_⟩
  · obtain ⟨t, rfl⟩ := h
    rw [← Option.some.inj hb]
    decide
  · rw [h.getLast?] at hb
    rw [← Option.some.inj hb]
    decide

/-- Reading in text mode leaves the braces. -/
theorem universalNewlines (h : Braced s) : Braced (universalNewlines s) := by
  obtain ⟨t, rfl⟩ := h
  refine ⟨Viz.universalNewlines t, ?_⟩
  have hopen : ∀ r, Viz.universalNewlines ('\x7b' :: r) = '\x7b' :: Viz.universalNewlines r :=
    fun r => universalNewlines.eq_4 _ _ (fun _ heq => absurd heq (by decide)) (by decide)
  rw [hopen, universalNewlines_append fun _ => by decide]
  rfl

/-- Lines in braces are together in braces. -/
theorem intercalate {ts : List (List Char)} (hne : ts ≠ []) (h : ∀ t ∈ ts, Braced t) :
    Braced (['\n'].intercalate ts) := by
  induction ts with
  | nil => exact absurd rfl hne
  | cons t ts ih =>
    rw [List.forall_mem_cons] at h
    cases ts with
    | nil =>
      rw [List.intercalate_singleton]
      exact h.1
    | cons t' ts =>
      obtain ⟨⟨m, rfl⟩, htail⟩ := h
      obtain ⟨m', hm'⟩ := ih (List.cons_ne_nil _ _) htail
      rw [List.intercalate_cons_cons, hm']
      exact ⟨m ++ ['\x7d', '\n', '\x7b'] ++ m', by simp⟩

/-- Cut at a line break, both parts have something that is not blank. -/
theorem exists_of_mem (h : Braced s) (hmem : '\n' ∈ s) :
    ∃ p q, s = p ++ '\n' :: q ∧ (∃ c ∈ p, isSpace c = false) ∧ ∃ c ∈ q, isSpace c = false := by
  obtain ⟨p, q, hs, -⟩ := List.eq_append_cons_of_mem hmem
  refine ⟨p, q, hs, ⟨'\x7b', ?_, by decide⟩, '\x7d', ?_, by decide⟩
  · obtain ⟨t, ht⟩ := h
    rw [ht] at hs
    cases p with
    | nil => exact absurd (List.cons.inj hs).1 (by decide)
    | cons c p =>
      rw [(List.cons.inj hs).1]
      exact List.mem_cons_self
  · have hlast := h.getLast?
    rw [hs] at hlast
    cases q using List.reverseRecOn with
    | nil =>
      rw [List.getLast?_concat] at hlast
      exact absurd hlast (by decide)
    | append_singleton q c _ =>
      rw [← List.cons_append, ← List.append_assoc, List.getLast?_concat] at hlast
      rw [Option.some.inj hlast]
      exact List.mem_append_right _ (List.mem_singleton_self _)

end Braced

/-! ## The lines of the content -/

/-- The lines before and behind a line break. -/
theorem pieces_append_cons (s t : List Char) : pieces (s ++ '\n' :: t) = pieces s ++ pieces t := by
  rw [pieces, List.splitOn_append_cons_self, List.filter_append]
  rfl

/-- A text that is not blank has a line. -/
theorem pieces_ne_nil {s : List Char} (h : ∃ c ∈ s, isSpace c = false) : pieces s ≠ [] := by
  obtain ⟨c, hc, hspace⟩ := h
  have hjoin : ['\n'].intercalate (s.splitOn '\n') = s := List.intercalate_splitOn '\n'
  rw [← hjoin] at hc
  rcases mem_intercalate hc with rfl | ⟨t, ht, hct⟩
  · exact absurd hspace (by decide)
  · have hstrip : strip t ≠ [] := by
      intro hnil
      rw [strip, trim_eq_nil_iff] at hnil
      exact Bool.false_ne_true (hspace.symm.trans (hnil c hct))
    exact List.ne_nil_of_mem (List.mem_filter.mpr ⟨ht, decide_eq_true hstrip⟩)

/-- A text in braces without a line break is one line. -/
theorem Braced.pieces_of_notMem {s : List Char} (h : Braced s) (hmem : '\n' ∉ s) :
    pieces s = [s] := by
  have hne : s ≠ [] := by
    obtain ⟨t, rfl⟩ := h
    exact List.cons_ne_nil _ _
  have hstrip : strip s ≠ [] := by
    rwa [strip, trim_of_trimmed h.trimmed]
  rw [pieces, List.splitOn_eq_singleton hmem, List.filter_eq_self]
  simpa using hstrip

/-- A text with a line break has more than one line. -/
theorem Braced.length_pieces {s : List Char} (h : Braced s) :
    1 ≤ (pieces s).length ∧ ('\n' ∈ s → 2 ≤ (pieces s).length) := by
  have hpos : ∀ {t : List Char}, (∃ c ∈ t, isSpace c = false) → 1 ≤ (pieces t).length :=
    fun ht => List.length_pos_iff.mpr (pieces_ne_nil ht)
  constructor
  · obtain ⟨t, rfl⟩ := h
    exact hpos ⟨'\x7b', List.mem_cons_self, by decide⟩
  · intro hmem
    obtain ⟨p, q, rfl, hp, hq⟩ := h.exists_of_mem hmem
    rw [pieces_append_cons, List.length_append]
    exact Nat.add_le_add (hpos hp) (hpos hq)

/-- The lines of texts put together by line breaks. -/
theorem pieces_intercalate {ts : List (List Char)} (hne : ts ≠ []) :
    pieces (['\n'].intercalate ts) = ts.flatMap pieces := by
  rw [pieces, Lines.splitOn_intercalate_eq_flatMap hne, List.filter_flatMap]
  rfl

/-- Texts on one line each are their own lines. -/
theorem flatMap_pieces_of_notMem {ts : List (List Char)} (h : ∀ t ∈ ts, Braced t ∧ '\n' ∉ t) :
    ts.flatMap pieces = ts := by
  induction ts with
  | nil => rfl
  | cons t ts ih =>
    rw [List.forall_mem_cons] at h
    rw [List.flatMap_cons, h.1.1.pieces_of_notMem h.1.2, ih h.2]
    rfl

/-- As many lines as texts, when no text has a line break. -/
theorem length_flatMap_pieces {ts : List (List Char)} (h : ∀ t ∈ ts, Braced t) :
    ts.length ≤ (ts.flatMap pieces).length ∧
      ((ts.flatMap pieces).length = ts.length → ∀ t ∈ ts, '\n' ∉ t) := by
  induction ts with
  | nil => simp
  | cons t ts ih =>
    rw [List.forall_mem_cons] at h
    obtain ⟨hone, htwo⟩ := h.1.length_pieces
    obtain ⟨hle, hall⟩ := ih h.2
    rw [List.flatMap_cons, List.length_append, List.length_cons, List.forall_mem_cons]
    refine ⟨by omega, fun heq => ⟨fun hmem => ?_, hall (by omega)⟩⟩
    have := htwo hmem
    omega

/-! ## The file of some alerts -/

/-- The line of an alert, as characters. -/
def text (a : Alert) : List Char :=
  '\x7b' :: ([','].intercalate ((items a (if a.details = "" then "\x7b\x7d" else a.details).toList
    .null).map (·.1)) ++ ['\x7d'])

/-- The bytes of an alert are those of its line. -/
theorem toJson_eq_text (a : Alert) : toJson a = utf8 (text a) := toJson_eq a .null

/-- The line of an alert is in braces. -/
theorem braced_text (a : Alert) : Braced (text a) := ⟨_, rfl⟩

/-- The file is the lines, each with a line feed. -/
theorem written_eq (alerts : List Alert) :
    written alerts = utf8 ((alerts.map text).flatMap (· ++ ['\n'])) := by
  have hfold : ∀ out, alerts.foldl send out =
      out ++ utf8 ((alerts.map text).flatMap (· ++ ['\n'])) := by
    induction alerts with
    | nil => exact fun out => (List.append_nil out).symm
    | cons a alerts ih =>
      intro out
      rw [List.foldl_cons, ih, send, toJson_eq_text, List.map_cons, List.flatMap_cons, utf8_append,
        utf8_append, List.append_assoc]
      rfl
  exact hfold []

/-- The lines are read in text mode one by one. -/
theorem universalNewlines_lines {ts : List (List Char)} (h : ∀ t ∈ ts, Braced t) :
    universalNewlines (ts.flatMap (· ++ ['\n'])) =
      (ts.map universalNewlines).flatMap (· ++ ['\n']) := by
  induction ts with
  | nil => rfl
  | cons t ts ih =>
    rw [List.forall_mem_cons] at h
    have hlf : ∀ r, universalNewlines ('\n' :: r) = '\n' :: universalNewlines r :=
      fun r => universalNewlines.eq_4 _ _ (fun _ heq => absurd heq (by decide)) (by decide)
    rw [List.flatMap_cons, List.append_assoc, List.singleton_append,
      universalNewlines_append (by rw [h.1.getLast?]; decide), hlf, ih h.2, List.map_cons,
      List.flatMap_cons, List.append_assoc, List.singleton_append]

/-- The lines of the alerts as they are read in text mode. -/
def readLines (alerts : List Alert) : List (List Char) := (alerts.map text).map universalNewlines

variable {alerts : List Alert}

/-- Alerts have lines. -/
theorem readLines_ne_nil (hne : alerts ≠ []) : readLines alerts ≠ [] := by
  simpa [readLines] using hne

/-- The lines are in braces, also in text mode. -/
theorem braced_readLines : ∀ t ∈ readLines alerts, Braced t := by
  rw [readLines, List.map_map]
  exact List.forall_mem_map.mpr fun a _ => (braced_text a).universalNewlines

/-- The content is the lines of the alerts, with a line break between them. -/
theorem loadJson_written (py : Python) (hne : alerts ≠ []) :
    loadJson py (some (written alerts)) =
      loadContent py (['\n'].intercalate (readLines alerts)) := by
  have hbraced : ∀ t ∈ alerts.map text, Braced t :=
    List.forall_mem_map.mpr fun a _ => braced_text a
  have hcontent := Braced.intercalate (readLines_ne_nil hne) braced_readLines
  have hstrip := trim_append (l := []) (r := ['\n']) (by simp) hcontent.trimmed
    (List.forall_mem_singleton.mpr rfl)
  rw [loadJson, written_eq, readText, fromUTF8?_utf8, Option.map_some, Option.bind_some,
    String.toList_ofList, universalNewlines_lines hbraced, ← readLines,
    flatMap_append_eq_intercalate (readLines_ne_nil hne), strip,
    ← List.nil_append (['\n'].intercalate _ ++ ['\n']), hstrip]

/-! ## What is loaded -/

/-- The alert is written on one line, which is a JSON text that denotes `v`. -/
structure WellFormedLine (a : Alert) (v : Value) : Prop where
  notMem : 10 ∉ toJson a
  json : decodeBytes (toJson a) = some v

variable {vs : List Value} {a : Alert} {v : Value}

/-- The lines of the alerts whose details are JSON texts on one line are well formed. -/
theorem wellFormedLine_of_details (hlf : 10 ∉ bytes a.details)
    (hdetails : a.details = "" ∧ v = .obj [] ∨ a.details ≠ "" ∧ IsText a.details.toList v) :
    WellFormedLine a (.obj (fields a v)) :=
  ⟨notMem_toJson (by decide) hlf, decodeBytes_toJson hdetails⟩

/-- A line feed of the bytes is one of the characters. -/
theorem lf_notMem_text_iff : 10 ∉ toJson a ↔ '\n' ∉ text a := by
  rw [toJson_eq_text]
  exact not_congr (mem_utf8_iff (by decide : '\n'.toNat < 32))

/-- A CR of the bytes is one of the characters. -/
theorem cr_notMem_text_iff : 13 ∉ toJson a ↔ '\r' ∉ text a := by
  rw [toJson_eq_text]
  exact not_congr (mem_utf8_iff (by decide : '\r'.toNat < 32))

/-- The characters of a well-formed line are decoded. -/
theorem WellFormedLine.decode (h : WellFormedLine a v) : Json.decode (text a) = some v := by
  rw [← decodeBytes_utf8, ← toJson_eq_text]
  exact h.json

/-- A list is loaded when the content is no JSON text and every line of it is. -/
theorem loadJson_written_eq_arr_iff (py : Python) (hne : alerts ≠ []) :
    loadJson py (some (written alerts)) = some (.arr vs) ↔
      py.loads .body (['\n'].intercalate (readLines alerts)) = .error .decode ∧
        ((readLines alerts).flatMap pieces).mapM (py.loads .comprehension) = .ok vs := by
  have hcontent : Braced (['\n'].intercalate (readLines alerts)) :=
    Braced.intercalate (readLines_ne_nil hne) braced_readLines
  have hnil : ['\n'].intercalate (readLines alerts) ≠ [] := by
    obtain ⟨m, hm⟩ := hcontent
    rw [hm]
    exact List.cons_ne_nil _ _
  rw [loadJson_written py hne, loadContent, if_neg hnil, pieces_intercalate (readLines_ne_nil hne)]
  cases hloads : py.loads .body (['\n'].intercalate (readLines alerts)) with
  | ok v =>
    -- a text in braces is no list
    obtain ⟨ms, rfl⟩ := py.loads_braced .body hcontent hloads
    exact iff_of_false (fun h => by cases h) fun h => by cases h.1
  | error e =>
    cases e with
    | limit => exact iff_of_false (fun h => by cases h) fun h => by cases h.1
    | decode =>
      cases hlines : ((readLines alerts).flatMap pieces).mapM (py.loads .comprehension) with
      | ok vs' => simp
      | error e => cases e <;> exact iff_of_false (fun h => by cases h) fun h => by cases h.2

/-- Without a CR the lines are read as they were written. -/
theorem readLines_of_notMem (hcr : ∀ a ∈ alerts, 13 ∉ toJson a) :
    readLines alerts = alerts.map text := by
  rw [readLines, List.map_map]
  exact List.map_congr_left fun a ha =>
    universalNewlines_of_notMem (cr_notMem_text_iff.mp (hcr a ha))

/-- The lines are the alerts when no alert has a line break of its own, and each is within the
limits. -/
theorem mapM_loads_readLines_iff (py : Python) (h : List.Forall₂ WellFormedLine alerts vs) :
    ((readLines alerts).flatMap pieces).mapM (py.loads .comprehension) = .ok vs ↔
      (∀ a ∈ alerts, 13 ∉ toJson a) ∧
        ∀ a ∈ alerts, py.loads .comprehension (text a) ≠ .error .limit := by
  have hlf : ∀ a ∈ alerts, 10 ∉ toJson a :=
    ((List.forall₂_and_left alerts vs).mp (h.imp fun _ _ ha => ⟨ha.notMem, ha⟩)).1
  have hpieces : (alerts.map text).flatMap pieces = alerts.map text :=
    flatMap_pieces_of_notMem <| List.forall_mem_map.mpr fun a ha =>
      ⟨braced_text a, lf_notMem_text_iff.mp (hlf a ha)⟩
  constructor
  · intro hmapM
    have hcr : ∀ a ∈ alerts, 13 ∉ toJson a := by
      intro a ha
      have hlength := (Fallible.forall₂_of_mapM hmapM).length_eq
      have hlines : ∀ t ∈ readLines alerts, '\n' ∉ t := by
        apply (length_flatMap_pieces braced_readLines).2
        rw [hlength, ← h.length_eq, readLines, List.length_map, List.length_map]
      -- a CR is read as a line break
      refine cr_notMem_text_iff.mpr fun hmem => ?_
      exact hlines _ (List.mem_map_of_mem (List.mem_map_of_mem ha))
        (mem_universalNewlines.mpr (Or.inl hmem))
    refine ⟨hcr, ?_⟩
    rw [readLines_of_notMem hcr, hpieces] at hmapM
    have hloads := List.forall₂_map_left_iff.mp (Fallible.forall₂_of_mapM hmapM)
    refine ((List.forall₂_and_left alerts vs).mp (hloads.imp fun a v hv => ⟨?_, hv⟩)).1
    rw [hv]
    exact fun heq => by cases heq
  · rintro ⟨hcr, hlimit⟩
    rw [readLines_of_notMem hcr, hpieces, Fallible.mapM_eq_ok_iff, List.forall₂_map_left_iff]
    refine List.Forall₂.imp (fun a v ha => ?_) ((List.forall₂_and_left alerts vs).mpr ⟨hlimit, h⟩)
    exact (py.loads_eq .comprehension ha.2.decode).resolve_right ha.1

/-- A lone line is a JSON text, and several lines are none. -/
theorem loads_texts_eq_decode_iff (py : Python) (hne : alerts ≠ [])
    (h : List.Forall₂ WellFormedLine alerts vs)
    (hlimit : ∀ a ∈ alerts, py.loads .comprehension (text a) ≠ .error .limit) :
    py.loads .body (['\n'].intercalate (alerts.map text)) = .error .decode ↔ 2 ≤ alerts.length := by
  cases h with
  | nil => exact absurd rfl hne
  | @cons a v alerts vs ha hrest =>
    have hfirst : py.loads .body (text a) = .ok v :=
      (py.loads_eq .body ha.decode).resolve_right fun hbody =>
        hlimit a List.mem_cons_self (py.loads_comprehension hbody)
    cases hrest with
    | nil =>
      rw [List.map_singleton, List.intercalate_singleton, hfirst]
      exact iff_of_false (fun heq => by cases heq) (by simp)
    | @cons b w alerts vs hb hrest =>
      obtain ⟨m, hm⟩ := Braced.intercalate (List.cons_ne_nil (text b) (alerts.map text))
        (List.forall_mem_map.mpr fun a _ => braced_text a : ∀ t ∈ (b :: alerts).map text, Braced t)
      have hextra := py.loads_extra .body (braced_text a) ha.decode hfirst
        (r := ['\n'].intercalate ((b :: alerts).map text)) ⟨'\x7b', by rw [List.map_cons, hm]; simp, rfl⟩
      rw [List.map_cons, List.map_cons, List.intercalate_cons_cons, List.append_assoc]
      exact iff_of_true hextra (by simp)

/-- **When the alerts are loaded.**  The list of the alerts is returned from two alerts on,
when no line has a CR or exceeds a limit of the interpreter. -/
theorem loadJson_written_iff (py : Python) (hne : alerts ≠ [])
    (h : List.Forall₂ WellFormedLine alerts vs) :
    loadJson py (some (written alerts)) = some (.arr vs) ↔
      2 ≤ alerts.length ∧ (∀ a ∈ alerts, 13 ∉ toJson a) ∧
        ∀ a ∈ alerts, py.loads .comprehension (text a) ≠ .error .limit := by
  rw [loadJson_written_eq_arr_iff py hne, mapM_loads_readLines_iff py h]
  refine and_congr_left fun ⟨hcr, hlimit⟩ => ?_
  rw [readLines_of_notMem hcr, loads_texts_eq_decode_iff py hne h hlimit]

/-- A lone alert is loaded as itself. -/
theorem loadJson_written_singleton {py : Python} (hcr : 13 ∉ toJson a)
    (hloads : py.loads .body (text a) = .ok v) :
    loadJson py (some (written [a])) = some v := by
  rw [loadJson_written py (List.cons_ne_nil _ _), readLines, List.map_singleton, List.map_singleton,
    List.intercalate_singleton, universalNewlines_of_notMem (cr_notMem_text_iff.mp hcr), loadContent,
    hloads, text, if_neg (List.cons_ne_nil _ _)]

/-- A text in braces is an object. -/
theorem exists_obj_of_decode {s : List Char} (hs : Braced s) (h : Json.decode s = some v) :
    ∃ ms, v = .obj ms := by
  obtain ⟨t, rfl⟩ := hs
  exact (decode_eq_some_iff.mp h).of_braces.1

/-- A text and something behind it are no JSON text. -/
theorem decode_append_eq_none {s r : List Char} (hs : Braced s) (h : Json.decode s = some v)
    (hr : ∃ c ∈ r, isWs c = false) : Json.decode (s ++ '\n' :: r) = none := by
  by_contra hne
  obtain ⟨v', hv'⟩ := Option.ne_none_iff_exists'.mp hne
  obtain ⟨m, rfl⟩ := hs
  obtain ⟨c, hc, hws⟩ := hr
  have hblank := (decode_eq_some_iff.mp h).blank_of_append (decode_eq_some_iff.mp hv')
    (follows_append_cons blank_nil (by decide) r)
  exact Bool.false_ne_true (hws.symm.trans (hblank c (List.mem_cons_of_mem _ hc)))

/-- An interpreter without limits. -/
def Python.unlimited : Python where
  loads _ s := match decode s with
    | some v => .ok v
    | none => .error .decode
  loads_eq _ h := Or.inl (by rw [h])
  loads_of_within _ h _ := by rw [h]
  loads_comprehension h := h
  loads_extra _ hs h _ hr := by
    have hnone := decode_append_eq_none hs h hr
    rw [hnone]
  loads_braced _ hs h := by
    split at h
    · exact exists_obj_of_decode hs (by rw [← Except.ok.inj h]; assumption)
    · cases h

def scanAlert : Alert where
  type := "port_scan"
  source := "10.0.0.1"
  details := ""
  tags := []
  nodeName := ""
  namespace_ := ""

def scanValue : Value := .obj (fields scanAlert (.obj []))

/-- The line of the alert is well formed. -/
theorem wellFormedLine_scanAlert : WellFormedLine scanAlert scanValue :=
  wellFormedLine_of_details (by decide) (Or.inl ⟨rfl, rfl⟩)

/-- Without limits the line is loaded. -/
theorem loads_unlimited_scanAlert (frame : Frame) :
    Python.unlimited.loads frame (text scanAlert) = .ok scanValue := by
  have hloads := wellFormedLine_scanAlert.decode
  unfold Python.unlimited
  simp only [hloads]

/-- Two alerts are loaded as a list. -/
theorem loadJson_two_alerts :
    loadJson .unlimited (some (written [scanAlert, scanAlert])) =
      some (.arr [scanValue, scanValue]) := by
  have hlimit : Python.unlimited.loads .comprehension (text scanAlert) ≠ .error .limit := by
    rw [loads_unlimited_scanAlert]
    exact fun heq => by cases heq
  exact (loadJson_written_iff .unlimited (List.cons_ne_nil _ _) (.cons wellFormedLine_scanAlert
    (.cons wellFormedLine_scanAlert .nil))).mpr ⟨by decide, by decide, by simpa using hlimit⟩

/-- The file of one alert is loaded as a dictionary. -/
theorem loadJson_one_alert :
    WellFormedLine scanAlert scanValue ∧
      loadJson .unlimited (some (written [scanAlert])) = some scanValue ∧
      (∃ ms, scanValue = .obj ms) ∧ scanValue ≠ .arr [scanValue] := by
  refine ⟨wellFormedLine_scanAlert, ?_, ⟨_, rfl⟩, ?_⟩
  · exact loadJson_written_singleton (by decide) (loads_unlimited_scanAlert .body)
  · intro heq
    cases heq

end Viz
