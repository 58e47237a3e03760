/-
# `Alert::to_json`

The line an alert is written as.  `decode_toJson` decodes it again: the line is
a JSON object with exactly the fields of the alert, whatever its strings are.
-/
import ZtMapper.Soc.Alert
import ZtMapper.Lib.Json
import ZtMapper.Lib.Print

open Json Scan

namespace Soc

/-- The bytes of a string. -/
def bytes (s : String) : List UInt8 := s.toUTF8.data.toList

def Severity.toString : Severity → String
  | .low => "low"
  | .medium => "medium"
  | .high => "high"
  | .critical => "critical"

def Status.toString : Status → String
  | .new => "new"
  | .acknowledged => "ack"
  | .resolved => "resolved"
  | .suppressed => "suppressed"

/-- `%04x` -/
def hex4 (n : ℕ) : List UInt8 :=
  let digits := (Nat.toDigits 16 n).map fun c => UInt8.ofNat c.toNat
  List.replicate (4 - digits.length) 48 ++ digits

/-- The body of the loop of `escape_json`. -/
def escapeByte (c : UInt8) : List UInt8 :=
  match c with
  | 34 => bytes "\\\""
  | 92 => bytes "\\\\"
  | 10 => bytes "\\n"
  | 13 => bytes "\\r"
  | 9 => bytes "\\t"
  | c => if c < 0x20 then bytes "\\u" ++ hex4 c.toNat else [c]

def escapeJson (s : List UInt8) : List UInt8 := s.flatMap escapeByte

def toJson (a : Alert) : List UInt8 :=
  bytes "\x7b\"type\":\"" ++ escapeJson (bytes a.type) ++ bytes "\"" ++
  bytes ",\"source\":\"" ++ escapeJson (bytes a.source) ++ bytes "\"" ++
  bytes ",\"timestamp_ns\":" ++ decimal a.timestampNs.toNat ++
  bytes ",\"severity\":\"" ++ bytes a.severity.toString ++ bytes "\"" ++
  bytes ",\"status\":\"" ++ bytes a.status.toString ++ bytes "\"" ++
  (if a.incidentId = "" then []
    else bytes ",\"incident_id\":\"" ++ escapeJson (bytes a.incidentId) ++ bytes "\"") ++
  (if a.nodeName = "" then []
    else bytes ",\"node_name\":\"" ++ escapeJson (bytes a.nodeName) ++ bytes "\"") ++
  (if a.namespace_ = "" then []
    else bytes ",\"namespace\":\"" ++ escapeJson (bytes a.namespace_) ++ bytes "\"") ++
  (if a.tags = [] then []
    else bytes ",\"tags\":[" ++
      (a.tags.zipIdx.flatMap fun (tag, i) =>
        (if i = 0 then [] else bytes ",") ++ bytes "\"" ++ escapeJson (bytes tag) ++ bytes "\"") ++
      bytes "]") ++
  bytes ",\"details\":" ++ (if a.details = "" then bytes "\x7b\x7d" else bytes a.details) ++
  bytes "\x7d"

/-! ## The escapes -/

/-- The same escape on a character. -/
def escapeChar (c : Char) : List Char :=
  if c.toNat < 128 then (escapeByte (UInt8.ofNat c.toNat)).map fun b => Char.ofNat b.toNat else [c]

/-- The bytes of a string are the UTF-8 encoding of its characters. -/
theorem bytes_eq (s : String) : bytes s = utf8 s.toList := (utf8_toList s).symm

/-- The escape of an ASCII byte is ASCII. -/
theorem escapeByte_ascii {n : ℕ} (hn : n < 128) {b : UInt8} (hb : b ∈ escapeByte (UInt8.ofNat n)) :
    b.toNat < 128 := by
  have hall : ∀ n < 128, (escapeByte (UInt8.ofNat n)).all fun b => b.toNat < 128 := by decide
  exact of_decide_eq_true (List.all_eq_true.mp (hall n hn) b hb)

theorem escapeByte_control :
    ∀ n < 32, n = 9 ∨ n = 10 ∨ n = 13 ∨
      (escapeChar (Char.ofNat n)
        = ['\\', 'u', '0', '0', Nat.digitChar (n / 16), Nat.digitChar (n % 16)] ∧
      hex4? '0' '0' (Nat.digitChar (n / 16)) (Nat.digitChar (n % 16)) = some n) := by
  decide

/-- The character of a byte has the number of the byte. -/
theorem toNat_ofNat_byte (b : UInt8) : (Char.ofNat b.toNat).toNat = b.toNat := by
  have hlt := b.toNat_lt
  rw [Char.ofNat, dif_pos (Or.inl (by omega))]
  rfl

/-- Bytes from the blank on, but for the quote and the backslash, are left alone. -/
theorem escapeByte_self {b : UInt8} (hb : 32 ≤ b.toNat) (hquote : b ≠ 34) (hslash : b ≠ 92) :
    escapeByte b = [b] := by
  fun_cases escapeByte b with
  | case1 => exact absurd rfl hquote
  | case2 => exact absurd rfl hslash
  | case3 => exact absurd hb (by decide)
  | case4 => exact absurd hb (by decide)
  | case5 => exact absurd hb (by decide)
  | case6 c _ _ _ _ _ hlt => exact absurd (UInt8.lt_iff_toNat_lt.mp hlt) (Nat.not_lt.mpr hb)
  | case7 => rfl

/-- The bytes of a character are escaped together. -/
theorem escapeJson_utf8EncodeChar (c : Char) :
    escapeJson (String.utf8EncodeChar c) = utf8 (escapeChar c) := by
  rw [escapeChar]
  split
  · next hc =>
    have hbyte : String.utf8EncodeChar c = [UInt8.ofNat c.toNat] := utf8EncodeChar_ascii hc
    have hchar : ∀ b ∈ escapeByte (UInt8.ofNat c.toNat), (Char.ofNat b.toNat).toNat = b.toNat :=
      fun b _ => toNat_ofNat_byte b
    have hascii : ∀ d ∈ (escapeByte (UInt8.ofNat c.toNat)).map fun b => Char.ofNat b.toNat,
        d.toNat < 128 := by
      intro d hd
      obtain ⟨b, hb, rfl⟩ := List.mem_map.mp hd
      rw [hchar b hb]
      exact escapeByte_ascii hc hb
    rw [hbyte, escapeJson, List.flatMap_singleton, utf8_ascii hascii, List.map_map]
    have hid : ∀ b ∈ escapeByte (UInt8.ofNat c.toNat),
        ((fun c => UInt8.ofNat c.toNat) ∘ fun b => Char.ofNat b.toNat) b = id b := by
      intro b hb
      rw [Function.comp_apply, hchar b hb, UInt8.ofNat_toNat, id]
    rw [List.map_congr_left hid, List.map_id]
  · next hc =>
    have hself : ∀ b ∈ String.utf8EncodeChar c, escapeByte b = [b] := by
      intro b hb
      have hle := le_of_mem_utf8EncodeChar (Nat.not_lt.mp hc) hb
      refine escapeByte_self (le_trans (by decide) hle) ?_ ?_ <;>
      · rintro rfl
        exact absurd hle (by decide)
    rw [escapeJson, List.flatMap_congr hself, List.flatMap_singleton', utf8, List.flatMap_singleton]

/-- Escaping byte by byte is escaping character by character. -/
theorem escapeJson_utf8 (cs : List Char) :
    escapeJson (utf8 cs) = utf8 (cs.flatMap escapeChar) := by
  rw [escapeJson, utf8, utf8, List.flatMap_assoc, List.flatMap_assoc]
  exact congrArg (fun f => List.flatMap f cs) (funext escapeJson_utf8EncodeChar)

/-- An escaped character is one item of a string, and stands for the character. -/
theorem itemText_escapeChar (c : Char) : ItemText (escapeChar c) c := by
  have hself : Char.ofNat c.toNat = c := Char.ofNat_toNat c
  -- control characters have escapes, of which three are short ones
  rcases Nat.lt_or_ge c.toNat 32 with hcontrol | hprint
  · rcases escapeByte_control c.toNat hcontrol with h | h | h | ⟨htext, hhex⟩
    · rw [← hself, h]
      exact itemText_escape rfl
    · rw [← hself, h]
      exact itemText_escape rfl
    · rw [← hself, h]
      exact itemText_escape rfl
    · rw [hself] at htext
      have hitem := itemText_unicode hhex (by omega)
      rwa [hself, ← htext] at hitem
  · by_cases hquote : c = '"'
    · rw [hquote]
      exact itemText_escape rfl
    by_cases hslash : c = '\\'
    · rw [hslash]
      exact itemText_escape rfl
    -- all others are printed as they are, a byte of a longer encoding included
    have htext : escapeChar c = [c] := by
      rw [escapeChar]
      split
      · next hc =>
        have hbyte : (UInt8.ofNat c.toNat).toNat = c.toNat :=
          UInt8.toNat_ofNat_of_lt' (lt_trans hc (by decide))
        have hne : ∀ {n : ℕ}, n < 128 → c ≠ Char.ofNat n → UInt8.ofNat c.toNat ≠ UInt8.ofNat n := by
          intro n hn hcn heq
          have := congrArg UInt8.toNat heq
          rw [hbyte, UInt8.toNat_ofNat_of_lt' (lt_trans hn (by decide))] at this
          exact hcn (by rw [← this, hself])
        rw [escapeByte_self (by rw [hbyte]; exact hprint) (hne (by decide) hquote)
          (hne (by decide) hslash), List.map_singleton, hbyte, hself]
      · rfl
    rw [htext]
    exact itemText_plain hquote hslash hprint

/-- A string of the alert as it is printed. -/
def quote (s : String) : List Char := '"' :: (s.toList.flatMap escapeChar ++ ['"'])

/-- **A quoted string is read back** whatever its characters are. -/
theorem denotes_quote (s : String) : Denotes .value (quote s) (.str s) := by
  obtain ⟨ps, hps, hs⟩ := exists_charsText_flatMap escapeChar s.toList fun c _ =>
    itemText_escapeChar c
  have hdenotes := Denotes.string hps
  rwa [hs, String.ofList_toList] at hdenotes

/-! ## The line of an alert -/

/-- The members of an alert whose details have the value `v`; the optional ones are there
when they are not empty. -/
def fields (a : Alert) (v : Value) : List (String × Value) :=
  ([("type", .str a.type), ("source", .str a.source), ("timestamp_ns", .num a.timestampNs.toNat 0),
    ("severity", .str a.severity.toString), ("status", .str a.status.toString)] :
      List (String × Value)) ++
  (if a.incidentId = "" then [] else [("incident_id", .str a.incidentId)]) ++
  (if a.nodeName = "" then [] else [("node_name", .str a.nodeName)]) ++
  (if a.namespace_ = "" then [] else [("namespace", .str a.namespace_)]) ++
  (if a.tags = [] then [] else [("tags", .arr (a.tags.map .str))]) ++
  [("details", v)]

/-- A member with the text of its value. -/
def item (k : String) (t : List Char) (v : Value) : List Char × String × Value :=
  ('"' :: (k.toList ++ '"' :: ':' :: t), k, v)

def optionalItem (k : String) (s : String) : List (List Char × String × Value) :=
  if s = "" then [] else [item k (quote s) (.str s)]

def tagsText (tags : List String) : List Char :=
  '[' :: ([','].intercalate (tags.map quote) ++ [']'])

def tagsItem (tags : List String) : List (List Char × String × Value) :=
  if tags = [] then [] else [item "tags" (tagsText tags) (.arr (tags.map .str))]

/-- The members as they are printed, `t` the text of the details. -/
def items (a : Alert) (t : List Char) (v : Value) : List (List Char × String × Value) :=
  item "type" (quote a.type) (.str a.type) ::
  ([item "source" (quote a.source) (.str a.source),
    item "timestamp_ns" (Nat.toDigits 10 a.timestampNs.toNat) (.num a.timestampNs.toNat 0),
    item "severity" (quote a.severity.toString) (.str a.severity.toString),
    item "status" (quote a.status.toString) (.str a.status.toString)] ++
  (optionalItem "incident_id" a.incidentId ++
  (optionalItem "node_name" a.nodeName ++
  (optionalItem "namespace" a.namespace_ ++
  (tagsItem a.tags ++ [item "details" t v])))))

/-- The members written are the fields of the alert. -/
theorem map_items (a : Alert) (t : List Char) (v : Value) :
    (items a t v).map (·.2) = fields a v := by
  have hoptional : ∀ k s, (optionalItem k s).map (·.2) = if s = "" then [] else [(k, .str s)] := by
    intro k s
    rw [optionalItem]
    split <;> rfl
  have htags : (tagsItem a.tags).map (·.2)
      = if a.tags = [] then [] else [("tags", .arr (a.tags.map .str))] := by
    rw [tagsItem]
    split <;> rfl
  simp only [items, fields, List.map_cons, List.map_append, hoptional, htags, List.map_nil, item,
    List.append_assoc, List.cons_append, List.nil_append]

/-- The quoted string as `to_json` appends it. -/
theorem utf8_quote (s : String) :
    utf8 (quote s) = bytes "\"" ++ (escapeJson (bytes s) ++ bytes "\"") := by
  rw [bytes_eq s, escapeJson_utf8, quote, bytes_eq, ← utf8_append, ← utf8_append]
  rfl

/-- A number as `to_json` appends it. -/
theorem utf8_toDigits (n : ℕ) : utf8 (Nat.toDigits 10 n) = decimal n := by
  refine utf8_ascii fun c hc => ?_
  have := (toNat_of_isDigit (Nat.isDigit_of_mem_toDigits (by decide) (by decide) hc)).2.2
  omega

/-- A member after a comma. -/
theorem utf8_item (k : String) (t : List Char) (v : Value) :
    utf8 (',' :: (item k t v).1) = bytes ",\"" ++ (bytes k ++ (bytes "\":" ++ utf8 t)) := by
  rw [bytes_eq, bytes_eq, bytes_eq, ← utf8_append, ← utf8_append, ← utf8_append]
  simp [item]

/-- Encoding members one at a time. -/
theorem utf8_flatMap_comma (l : List (List Char × String × Value)) :
    utf8 ((l.map (·.1)).flatMap (',' :: ·)) = l.flatMap fun i => utf8 (',' :: i.1) := by
  rw [utf8, List.flatMap_assoc, List.flatMap_map]
  rfl

/-- An optional member is written exactly when it is not empty. -/
theorem flatMap_optionalItem (k s : String) :
    ((optionalItem k s).flatMap fun i => utf8 (',' :: i.1))
      = if s = "" then [] else bytes ",\"" ++ (bytes k ++ (bytes "\":" ++
        (bytes "\"" ++ (escapeJson (bytes s) ++ bytes "\"")))) := by
  rw [optionalItem]
  split
  · rfl
  · rw [List.flatMap_singleton, utf8_item, utf8_quote]

/-- The tags are written exactly when there are any. -/
theorem flatMap_tagsItem (tags : List String) :
    ((tagsItem tags).flatMap fun i => utf8 (',' :: i.1))
      = if tags = [] then []
        else bytes ",\"tags\":[" ++
          ((tags.zipIdx.flatMap fun (tag, i) =>
            (if i = 0 then [] else bytes ",") ++ bytes "\"" ++ escapeJson (bytes tag) ++
              bytes "\"") ++ bytes "]") := by
  rw [tagsItem]
  split
  · rfl
  · next hne =>
    obtain ⟨tag, tags, rfl⟩ := List.exists_cons_of_ne_nil hne
    have hloop := flatMap_zipIdx_delim (bytes ",")
      (fun tag => bytes "\"" ++ (escapeJson (bytes tag) ++ bytes "\"")) tag tags
    have hcomma : ∀ tag, bytes "," ++ utf8 (quote tag) = utf8 (',' :: quote tag) := fun _ => rfl
    simp only [List.append_assoc, ← utf8_quote, hcomma] at hloop ⊢
    rw [hloop, List.flatMap_singleton, utf8_item, tagsText, List.map_cons,
      intercalate_cons_eq_flatMap, List.flatMap_map]
    have htail : utf8 (tags.flatMap fun tag => ',' :: quote tag)
        = tags.flatMap fun tag => utf8 (',' :: quote tag) := List.flatMap_assoc
    have hopen : ∀ t : List UInt8, bytes ",\"" ++ (bytes "tags" ++ (bytes "\":" ++ (utf8 ['['] ++ t)))
        = bytes ",\"tags\":[" ++ t := fun _ => rfl
    have hbracket : ∀ t : List Char, '[' :: t = ['['] ++ t := fun _ => rfl
    rw [hbracket, utf8_append, utf8_append, utf8_append, htail, hopen]
    rfl

/-- The names of severities and statuses need no escapes. -/
theorem escapeJson_severity (x : Severity) : escapeJson (bytes x.toString) = bytes x.toString := by
  cases x <;> decide

/-- The names of the statuses need no escape. -/
theorem escapeJson_status (x : Status) : escapeJson (bytes x.toString) = bytes x.toString := by
  cases x <;> decide

/-- The first member, after the opening brace. -/
theorem utf8_item_type (s : String) (t : List UInt8) :
    utf8 ['\x7b'] ++ (utf8 (item "type" (quote s) (.str s)).1 ++ t)
      = bytes "\x7b\"type\":\"" ++ (escapeJson (bytes s) ++ (bytes "\"" ++ t)) := by
  have hopen : utf8 (item "type" (quote s) (.str s)).1 = bytes "\"type\":" ++ utf8 (quote s) := rfl
  rw [hopen, utf8_quote, List.append_assoc, List.append_assoc, List.append_assoc]
  rfl

/-- **The line is the members joined by commas.** -/
theorem toJson_eq (a : Alert) (v : Value) :
    toJson a = utf8 ('\x7b' :: ([','].intercalate
      ((items a (if a.details = "" then "\x7b\x7d" else a.details).toList v).map (·.1)) ++
        ['\x7d'])) := by
  have hdetails : utf8 (if a.details = "" then "\x7b\x7d" else a.details).toList
      = if a.details = "" then bytes "\x7b\x7d" else bytes a.details := by
    rw [← bytes_eq]
    split <;> rfl
  have hbrace : ∀ t : List Char, '\x7b' :: t = ['\x7b'] ++ t := fun _ => rfl
  -- the literals of the source are the pieces of a member
  have hsource : ∀ t, bytes ",\"" ++ (bytes "source" ++ (bytes "\":" ++ (bytes "\"" ++ t)))
      = bytes ",\"source\":\"" ++ t := fun _ => rfl
  have htimestamp : ∀ t, bytes ",\"" ++ (bytes "timestamp_ns" ++ (bytes "\":" ++ t))
      = bytes ",\"timestamp_ns\":" ++ t := fun _ => rfl
  have hseverity : ∀ t, bytes ",\"" ++ (bytes "severity" ++ (bytes "\":" ++ (bytes "\"" ++ t)))
      = bytes ",\"severity\":\"" ++ t := fun _ => rfl
  have hstatus : ∀ t, bytes ",\"" ++ (bytes "status" ++ (bytes "\":" ++ (bytes "\"" ++ t)))
      = bytes ",\"status\":\"" ++ t := fun _ => rfl
  have hincident : ∀ t, bytes ",\"" ++ (bytes "incident_id" ++ (bytes "\":" ++ (bytes "\"" ++ t)))
      = bytes ",\"incident_id\":\"" ++ t := fun _ => rfl
  have hnode : ∀ t, bytes ",\"" ++ (bytes "node_name" ++ (bytes "\":" ++ (bytes "\"" ++ t)))
      = bytes ",\"node_name\":\"" ++ t := fun _ => rfl
  have hnamespace : ∀ t, bytes ",\"" ++ (bytes "namespace" ++ (bytes "\":" ++ (bytes "\"" ++ t)))
      = bytes ",\"namespace\":\"" ++ t := fun _ => rfl
  have hlast : ∀ t, bytes ",\"" ++ (bytes "details" ++ (bytes "\":" ++ t))
      = bytes ",\"details\":" ++ t := fun _ => rfl
  have hclose : utf8 ['\x7d'] = bytes "\x7d" := rfl
  rw [items, List.map_cons, intercalate_cons_eq_flatMap, hbrace, utf8_append, utf8_append,
    utf8_append, utf8_flatMap_comma]
  simp only [List.flatMap_append, List.flatMap_cons, List.flatMap_nil, flatMap_optionalItem,
    flatMap_tagsItem, utf8_item, hdetails, utf8_quote, utf8_toDigits, escapeJson_severity,
    escapeJson_status, List.append_nil, List.append_assoc, utf8_item_type, hsource, htimestamp,
    hseverity, hstatus, hincident, hnode, hnamespace, hlast, hclose]
  unfold toJson
  simp only [List.append_assoc]

/-! ## What the line says -/

/-- The bytes that break a line. -/
def lineBreaks : List UInt8 := [10, 13]

/-- A text without control characters. -/
def Printable (t : List Char) : Prop := ∀ c ∈ t, 32 ≤ c.toNat

/-- Plain text is printable. -/
theorem printable_of_all {t : List Char} (h : t.all isPlain = true) : Printable t := by
  intro c hc
  have hplain := List.all_eq_true.mp h c hc
  rw [isPlain, Bool.and_eq_true, decide_eq_true_iff] at hplain
  exact hplain.2

/-- Escaped text has no control characters. -/
theorem le_of_mem_escapeByte {c b : UInt8} (hb : b ∈ escapeByte c) : 32 ≤ b.toNat := by
  rcases Nat.lt_or_ge c.toNat 32 with hcontrol | hprint
  · have hall : ∀ n < 32, (escapeByte (UInt8.ofNat n)).all fun b => 32 ≤ b.toNat := by decide
    refine of_decide_eq_true (List.all_eq_true.mp (hall c.toNat hcontrol) b ?_)
    rwa [UInt8.ofNat_toNat]
  · have hall : (escapeByte 34 ++ escapeByte 92).all fun b => 32 ≤ b.toNat := by decide
    by_cases hquote : c = 34
    · subst hquote
      exact of_decide_eq_true (List.all_eq_true.mp hall b (List.mem_append_left _ hb))
    by_cases hslash : c = 92
    · subst hslash
      exact of_decide_eq_true (List.all_eq_true.mp hall b (List.mem_append_right _ hb))
    rw [escapeByte_self hprint hquote hslash, List.mem_singleton] at hb
    rwa [hb]

/-- An escaped character is printable: control characters become `\u00xx`. -/
theorem printable_escapeChar (c : Char) : Printable (escapeChar c) := by
  rw [escapeChar]
  split
  · intro d hd
    obtain ⟨b, hb, rfl⟩ := List.mem_map.mp hd
    rw [toNat_ofNat_byte]
    exact le_of_mem_escapeByte hb
  · next hc =>
    intro d hd
    rw [List.mem_singleton.mp hd]
    omega

/-- A quoted string is one line, even if the string has line breaks. -/
theorem printable_quote (s : String) : Printable (quote s) := by
  intro c hc
  rw [quote, List.mem_cons, List.mem_append, List.mem_singleton] at hc
  rcases hc with rfl | hc | rfl
  · decide
  · obtain ⟨d, -, hd⟩ := List.mem_flatMap.mp hc
    exact printable_escapeChar d c hd
  · decide

/-- So is the list of tags. -/
theorem printable_tagsText (tags : List String) : Printable (tagsText tags) := by
  intro c hc
  rw [tagsText, List.mem_cons, List.mem_append, List.mem_singleton] at hc
  rcases hc with rfl | hc | rfl
  · decide
  · rcases mem_intercalate hc with rfl | ⟨t, ht, hc⟩
    · decide
    · obtain ⟨tag, -, rfl⟩ := List.mem_map.mp ht
      exact printable_quote tag c hc
  · decide

/-- The list of tags is read as an array of strings. -/
theorem denotes_tagsText (tags : List String) :
    Denotes .value (tagsText tags) (.arr (tags.map .str)) := by
  have harray := denotes_array (tags.map fun tag => (quote tag, .str tag)) (by
    intro i hi
    obtain ⟨tag, -, rfl⟩ := List.mem_map.mp hi
    exact (denotes_quote tag).isText) blank_nil
  rw [List.append_nil, List.map_map, List.map_map] at harray
  exact harray

/-- Every member has a plain name; its value is printed here, or is that of the details. -/
theorem item_of_mem_items {a : Alert} {t : List Char} {v : Value}
    {i : List Char × String × Value} (hi : i ∈ items a t v) :
    ∃ k s w, i = item k s w ∧ k.toList.all isPlain = true ∧
      (Printable s ∧ Denotes .value s w ∨ s = t ∧ w = v) := by
  have hquoted : ∀ {k s : String}, k.toList.all isPlain = true →
      ∃ k' s' w, item k (quote s) (.str s) = item k' s' w ∧ k'.toList.all isPlain = true ∧
      (Printable s' ∧ Denotes .value s' w ∨ s' = t ∧ w = v) := fun {k s} hk =>
    ⟨k, quote s, .str s, rfl, hk, Or.inl ⟨printable_quote s, denotes_quote s⟩⟩
  have hoptional : ∀ {k s : String}, k.toList.all isPlain = true → i ∈ optionalItem k s →
      ∃ k s w, i = item k s w ∧ k.toList.all isPlain = true ∧
      (Printable s ∧ Denotes .value s w ∨ s = t ∧ w = v) := by
    intro k s hk hmem
    rw [optionalItem] at hmem
    split at hmem
    · exact absurd hmem List.not_mem_nil
    · rw [List.mem_singleton.mp hmem]
      exact hquoted hk
  -- the first five members are always there, four are optional, and the details come last
  simp only [items, List.mem_cons, List.mem_append, List.not_mem_nil, or_false] at hi
  rcases hi with rfl | (rfl | rfl | rfl | rfl) | hi | hi | hi | hi | rfl
  · exact hquoted (by decide)
  · exact hquoted (by decide)
  · refine ⟨_, _, _, rfl, by decide, Or.inl ⟨fun c hc => ?_, denotes_toDigits _⟩⟩
    have hdigit := Nat.isDigit_of_mem_toDigits (by decide) (by decide) hc
    exact le_trans (by decide) (Char.isDigit_iff_toNat.mp hdigit).1
  · exact hquoted (by decide)
  · exact hquoted (by decide)
  · exact hoptional (by decide) hi
  · exact hoptional (by decide) hi
  · exact hoptional (by decide) hi
  · rw [tagsItem] at hi
    split at hi
    · exact absurd hi List.not_mem_nil
    · rw [List.mem_singleton.mp hi]
      exact ⟨_, _, _, rfl, by decide, Or.inl ⟨printable_tagsText _, denotes_tagsText _⟩⟩
  · exact ⟨_, _, _, rfl, by decide, Or.inr ⟨rfl, rfl⟩⟩

/-- Every member written is a member of an object. -/
theorem memberText_item {k : String} {t : List Char} {v : Value}
    (hk : k.toList.all isPlain = true) (ht : IsText t v) :
    MemberText (item k t v).1 (item k t v).2 := by
  obtain ⟨ps, hps, hk⟩ := exists_charsText_of_all hk
  have hkey := keyText_quoted hps
  rw [hk, String.ofList_toList] at hkey
  exact ⟨_, t, by simp [item], hkey, ht⟩

/-- A member has no control characters but those of its value. -/
theorem mem_item {k : String} {t : List Char} {v : Value} (hk : k.toList.all isPlain = true)
    {c : Char} (hc : c ∈ (item k t v).1) : 32 ≤ c.toNat ∨ c ∈ t := by
  rw [item, List.mem_cons, List.mem_append, List.mem_cons, List.mem_cons] at hc
  rcases hc with rfl | hc | rfl | rfl | hc
  · exact Or.inl (by decide)
  · exact Or.inl (printable_of_all hk c hc)
  · exact Or.inl (by decide)
  · exact Or.inl (by decide)
  · exact Or.inr hc

/-- Control characters in the line are those of the details. -/
theorem le_of_mem_toJson {a : Alert} {b : UInt8} (hb : b ∈ toJson a) :
    32 ≤ b.toNat ∨ b ∈ bytes a.details := by
  rcases Nat.lt_or_ge b.toNat 32 with hlt | hge
  · rw [toJson_eq a .null] at hb
    obtain ⟨c, hc, hcontrol, hbc⟩ := lt_of_mem_utf8 hb hlt
    have hdetails : c ∈ (if a.details = "" then "\x7b\x7d" else a.details).toList := by
      rw [List.mem_cons, List.mem_append, List.mem_singleton] at hc
      rcases hc with rfl | hc | rfl
      · exact absurd hcontrol (by decide)
      · rcases mem_intercalate hc with rfl | ⟨t, ht, hc⟩
        · exact absurd hcontrol (by decide)
        · obtain ⟨i, hi, rfl⟩ := List.mem_map.mp ht
          obtain ⟨k, s, w, rfl, hk, hs⟩ := item_of_mem_items hi
          rcases mem_item hk hc with hle | hcs
          · omega
          rcases hs with ⟨hprint, -⟩ | ⟨rfl, -⟩
          · exact absurd (hprint c hcs) (by omega)
          · exact hcs
      · exact absurd hcontrol (by decide)
    split at hdetails
    · have hbraces : "\x7b\x7d".toList.all isPlain = true := by decide
      exact absurd (printable_of_all hbraces c hdetails) (by omega)
    · rw [bytes_eq]
      exact Or.inr (List.mem_flatMap.mpr ⟨c, hdetails, hbc⟩)
  · exact Or.inl hge

/-- **A line break in `to_json` comes from the details**, the only field that is not escaped. -/
theorem notMem_toJson {a : Alert} {b : UInt8} (hb : b ∈ lineBreaks) (hnot : b ∉ bytes a.details) :
    b ∉ toJson a := by
  intro hmem
  rcases le_of_mem_toJson hmem with hle | hin
  · have hcontrol : lineBreaks.all fun b => b.toNat < 32 := by decide
    have := of_decide_eq_true (List.all_eq_true.mp hcontrol b hb)
    omega
  · exact hnot hin

/-- **What a reader decodes**: the fields of the alert, when the details are empty or a value. -/
theorem decodeBytes_toJson {a : Alert} {v : Value}
    (hdetails : a.details = "" ∧ v = .obj [] ∨ a.details ≠ "" ∧ IsText a.details.toList v) :
    decodeBytes (toJson a) = some (.obj (fields a v)) := by
  have htext : IsText (if a.details = "" then "\x7b\x7d" else a.details).toList v := by
    rcases hdetails with ⟨hempty, rfl⟩ | ⟨hne, hv⟩
    · rw [if_pos hempty]
      exact (Denotes.emptyObject blank_nil).isText
    · rwa [if_neg hne]
  have hmembers := denotes_members
    (items a (if a.details = "" then "\x7b\x7d" else a.details).toList v)
    (List.cons_ne_nil _ _) (by
      intro i hi
      obtain ⟨k, s, w, rfl, hk, ⟨-, hs⟩ | ⟨rfl, rfl⟩⟩ := item_of_mem_items hi
      · exact memberText_item hk hs.isText
      · exact memberText_item hk htext)
  rw [map_items] at hmembers
  rw [toJson_eq a v, decodeBytes_utf8, decode_eq_some_iff]
  exact (Denotes.object hmembers).isText

/-- **`to_json` writes one JSON object, and decoding it gives the alert back.**  The line
has no line break but those of the details, whose value is `v`, or the empty object when
there are none. -/
theorem decode_toJson (a : Alert) (v : Value)
    (hdetails : a.details = "" ∧ v = .obj [] ∨ a.details ≠ "" ∧ IsText a.details.toList v) :
    (∀ b ∈ lineBreaks, b ∉ bytes a.details → b ∉ toJson a) ∧
      decodeBytes (toJson a) = some (.obj (fields a v)) :=
  ⟨fun _ hb hnot => notMem_toJson hb hnot, decodeBytes_toJson hdetails⟩

/-- The decoded form of a port-scan alert. -/
theorem decode_toJson_scan :
    let a : Alert :=
      { type := "port_scan", source := "bad\"quote\nnewline", details := "\x7b\"freq\":42\x7d",
        timestampNs := 18446744073709551615, severity := .high, tags := ["scan", "\x01"],
        nodeName := "worker-1", namespace_ := "" }
    (∀ b ∈ lineBreaks, b ∉ bytes a.details → b ∉ toJson a) ∧
      decodeBytes (toJson a) = some (.obj
        [("type", .str "port_scan"), ("source", .str "bad\"quote\nnewline"),
          ("timestamp_ns", .num 18446744073709551615 0), ("severity", .str "high"),
          ("status", .str "new"), ("node_name", .str "worker-1"),
          ("tags", .arr [.str "scan", .str "\x01"]), ("details", .obj [("freq", .num 42 0)])]) := by
  have hdetails : IsText "\x7b\"freq\":42\x7d".toList (.obj [("freq", .num 42 0)]) :=
    decode_eq_some_iff.mp rfl
  exact decode_toJson _ _ (Or.inr ⟨by decide, hdetails⟩)

end Soc
