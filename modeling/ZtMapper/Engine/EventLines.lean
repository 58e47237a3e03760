/-
# Event lines: what the collectors print, `parse_event` reads

The two programs that feed the engine: `handle_event` of the eBPF collector and
`tcpdump_to_events.py`.  They print the same object with other separators
(`objectLine`), and the parser reads every field of it back, so the engine sees
the flow that was observed (`parseEvent_handleEvent`, `parseEvent_convert`).
-/
import ZtMapper.Engine.WellFormed

open Loop Pipeline Scan

namespace Engine

/-! ## `handle_event` -/

/-- `struct network_event_t`; the addresses are in network byte order. -/
structure NetworkEventT where
  srcIp : UInt32
  dstIp : UInt32
  dstPort : UInt16
  pid : UInt32
  timestampNs : UInt64
  deriving DecidableEq, Repr

/-- The byte order of the machine. -/
inductive Endian where
  | little
  | big
  deriving DecidableEq, Repr

/-- The bytes of a word in memory. -/
def memory (e : Endian) (x : UInt32) : List UInt8 :=
  match e with
  | .little => [x.toUInt8, (x >>> 8).toUInt8, (x >>> 16).toUInt8, (x >>> 24).toUInt8]
  | .big => [(x >>> 24).toUInt8, (x >>> 16).toUInt8, (x >>> 8).toUInt8, x.toUInt8]

/-- The host-byte-order value of an address in network byte order. -/
def ntohl (e : Endian) (x : UInt32) : UInt32 :=
  match e with
  | .little => ((x &&& 0xFF) <<< 24) ||| (((x >>> 8) &&& 0xFF) <<< 16) |||
      (((x >>> 16) &&& 0xFF) <<< 8) ||| ((x >>> 24) &&& 0xFF)
  | .big => x

/-- `inet_ntop(AF_INET, …)` on the four bytes of an address. -/
def inetNtop (octets : List UInt8) : List UInt8 :=
  [46].intercalate (octets.map fun b => decimal b.toNat)

def ipToStr (e : Endian) (ipNbo : UInt32) : List UInt8 := inetNtop (memory e ipNbo)

/-- What `handle_event` prints. -/
def handleEvent (e : Endian) (evt : NetworkEventT) : List UInt8 :=
  bytes "\x7b\"src_ip\":\"" ++ ipToStr e evt.srcIp ++
    bytes "\",\"dst_ip\":\"" ++ ipToStr e evt.dstIp ++
    bytes "\",\"dst_port\":" ++ decimal evt.dstPort.toNat ++
    bytes ",\"pid\":" ++ decimal evt.pid.toNat ++
    bytes ",\"timestamp_ns\":" ++ decimal evt.timestampNs.toNat ++ bytes "\x7d\n"

/-- The event with its addresses in host byte order. -/
def hostEvent (e : Endian) (evt : NetworkEventT) : NetworkEvent where
  srcIp := ntohl e evt.srcIp
  dstIp := ntohl e evt.dstIp
  dstPort := evt.dstPort
  pid := evt.pid
  timestampNs := evt.timestampNs

/-! ## `tcpdump_to_events.py` -/

/-- The parts of a regular expression without alternatives: fixed text, `\d+`, and
`\s+`. -/
inductive Part where
  | text (s : List UInt8)
  | digits
  | spaces
  deriving DecidableEq, Repr

/-- The ASCII bytes of `\s`. -/
def isReSpace (b : UInt8) : Bool := b = 32 || (9 ≤ b && b ≤ 13) || (28 ≤ b && b ≤ 31)

/-- The ASCII bytes of `\w`. -/
def isReWord (b : UInt8) : Bool :=
  isDigit b || (65 ≤ b && b ≤ 90) || (97 ≤ b && b ≤ 122) || b = 95

/-- The texts that the parts `\d+` match at the front of `s`.  No repetition is
followed by a part that could take a byte of it, so the longest one is taken. -/
def matchParts : List Part → List UInt8 → Option (List (List UInt8))
  | [], _ => some []
  | .text t :: re, s => if t <+: s then matchParts re (s.drop t.length) else none
  | .digits :: re, s =>
    if s.takeWhile isDigit = [] then none
    else (matchParts re (s.dropWhile isDigit)).map (s.takeWhile isDigit :: ·)
  | .spaces :: re, s =>
    if s.takeWhile isReSpace = [] then none else matchParts re (s.dropWhile isReSpace)

/-- The pattern of an address and a port. -/
def endpointRe : List Part :=
  [.digits, .text [46], .digits, .text [46], .digits, .text [46], .digits, .text [46], .digits]

/-- `LINE_RE` after its `\b`. -/
def lineRe : List Part :=
  [.text (bytes "IP"), .spaces] ++ endpointRe ++ [.spaces, .text (bytes ">"), .spaces] ++
    endpointRe ++ [.text (bytes ":"), .spaces, .text (bytes "Flags"), .spaces, .text (bytes "[S]")]

/-- The groups of `LINE_RE` that `main` uses. -/
structure LineMatch where
  src : List UInt8
  dst : List UInt8
  dport : List UInt8
  deriving DecidableEq, Repr

def groups : List (List UInt8) → Option LineMatch
  | [s1, s2, s3, s4, _sport, d1, d2, d3, d4, dport] =>
    some ⟨[46].intercalate [s1, s2, s3, s4], [46].intercalate [d1, d2, d3, d4], dport⟩
  | _ => none

/-- `LINE_RE.search`: the leftmost match that starts at a word boundary. -/
def searchFrom (afterWord : Bool) : List UInt8 → Option LineMatch
  | [] => none
  | b :: s =>
    match if afterWord then none else matchParts lineRe (b :: s) with
    | some texts => groups texts
    | none => searchFrom (isReWord b) s

/-- The search in a line of ASCII; the classes of a pattern for texts have more characters. -/
def search (line : List UInt8) : Option LineMatch := searchFrom false line

/-- The dictionary `evt` as `json.dumps` prints it; the addresses need no escapes. -/
def dumps (src dst : List UInt8) (dstPort pid timestampNs : ℕ) : List UInt8 :=
  bytes "\x7b\"src_ip\": \"" ++ src ++ bytes "\", \"dst_ip\": \"" ++ dst ++
    bytes "\", \"dst_port\": " ++ decimal dstPort ++ bytes ", \"pid\": " ++ decimal pid ++
    bytes ", \"timestamp_ns\": " ++ decimal timestampNs ++ bytes "\x7d"

/-- What `main` writes for a line, as the process `pid` at the time `timeNs`. -/
def convert (pid timeNs : ℕ) (line : List UInt8) : List UInt8 :=
  match search line with
  | none => []
  | some m => dumps m.src m.dst (magnitude m.dport) pid timeNs ++ [10]

/-- The line shows the flow of the event. -/
def Shows (e : Endian) (evt : NetworkEventT) (line : List UInt8) : Prop :=
  search line = some ⟨ipToStr e evt.srcIp, ipToStr e evt.dstIp, decimal evt.dstPort.toNat⟩

instance (e : Endian) (evt : NetworkEventT) (line : List UInt8) : Decidable (Shows e evt line) :=
  inferInstanceAs (Decidable (_ = _))

/-! ## The octets of an address -/

/-- Truncation to a byte is the mask of the low byte. -/
theorem toUInt32_toUInt8 (x : UInt32) : x.toUInt8.toUInt32 = x &&& 0xFF := by
  apply UInt32.toNat.inj
  rw [UInt8.toNat_toUInt32, UInt32.toNat_toUInt8, UInt32.toNat_and]
  exact (Nat.and_two_pow_sub_one_eq_mod x.toNat 8).symm

/-- The value of the low byte. -/
theorem toNat_toUInt8 (x : UInt32) : x.toUInt8.toNat = (x &&& 0xFF).toNat := by
  rw [← toUInt32_toUInt8, UInt8.toNat_toUInt32]

/-- The octets of a word, from the first one on. -/
theorem ipFromOctets_eq (a b c d : UInt8) :
    ipFromOctets a b c d = (((a.toUInt32 <<< 8 ||| b.toUInt32) <<< 8 ||| c.toUInt32) <<< 8) |||
      d.toUInt32 := by
  simp only [ipFromOctets, UInt32.shiftLeft_or]
  rw [← UInt32.shiftLeft_add (by decide) (by decide) (by decide),
    ← UInt32.shiftLeft_add (by decide) (by decide) (by decide),
    ← UInt32.shiftLeft_add (by decide) (by decide) (by decide)]
  rfl

/-- Shifting in a byte, while there is room, is multiplication by 256. -/
theorem toNat_shiftLeft_or {x : UInt32} (hx : x.toNat < 16777216) (b : UInt8) :
    (x <<< 8 ||| b.toUInt32).toNat = x.toNat * 256 + b.toNat := by
  have hb := b.toNat_lt
  have e8 : (8 : UInt32).toNat % 32 = 8 := rfl
  rw [UInt32.toNat_or, UInt32.toNat_shiftLeft, UInt8.toNat_toUInt32, e8, Nat.shiftLeft_eq,
    Nat.mod_eq_of_lt (by omega), ← Nat.shiftLeft_eq, ← Nat.shiftLeft_add_eq_or_of_lt (by omega),
    Nat.shiftLeft_eq]

/-- The address of four octets as a number. -/
theorem toNat_ipFromOctets (a b c d : UInt8) :
    (ipFromOctets a b c d).toNat
      = ((a.toNat * 256 + b.toNat) * 256 + c.toNat) * 256 + d.toNat := by
  have ha := a.toNat_lt
  have hb := b.toNat_lt
  have hc := c.toNat_lt
  have h1 := toNat_shiftLeft_or (x := a.toUInt32) (by rw [UInt8.toNat_toUInt32]; omega) b
  rw [UInt8.toNat_toUInt32] at h1
  have h2 := toNat_shiftLeft_or (x := a.toUInt32 <<< 8 ||| b.toUInt32) (by omega) c
  rw [ipFromOctets_eq, toNat_shiftLeft_or (by omega) d, h2, h1]

/-- **A word consists of its octets.** -/
theorem ipFromOctets_octets (x : UInt32) :
    ipFromOctets (x >>> 24).toUInt8 (x >>> 16).toUInt8 (x >>> 8).toUInt8 x.toUInt8 = x := by
  apply UInt32.toNat.inj
  have hx := x.toNat_lt
  have e8 : (8 : UInt32).toNat % 32 = 8 := rfl
  have e16 : (16 : UInt32).toNat % 32 = 16 := rfl
  have e24 : (24 : UInt32).toNat % 32 = 24 := rfl
  simp only [toNat_ipFromOctets, UInt32.toNat_toUInt8, UInt32.toNat_shiftRight, e8, e16, e24,
    Nat.shiftRight_eq_div_pow]
  omega

/-- In either byte order the four bytes in memory are the octets of `ntohl`. -/
theorem exists_memory (e : Endian) (x : UInt32) :
    ∃ a b c d, memory e x = [a, b, c, d] ∧ ipFromOctets a b c d = ntohl e x := by
  cases e with
  | little =>
    refine ⟨_, _, _, _, rfl, ?_⟩
    simp only [ipFromOctets, toUInt32_toUInt8]
    rfl
  | big => exact ⟨_, _, _, _, rfl, ipFromOctets_octets x⟩

/-! ## Addresses read back -/

/-- `inet_ntop` prints the address of its octets. -/
theorem isAddress_inetNtop (a b c d : UInt8) :
    IsAddress (inetNtop [a, b, c, d]) (ipFromOctets a b c d) := by
  refine ⟨a, b, c, d, _, rfl, ?_, rfl⟩
  rw [List.forall₂_map_left_iff]
  exact List.forall₂_same.mpr fun octet _ => isDecimal_decimal octet.toNat

/-! ## Fields read back -/

/-- A text that begins with the first of its tokens. -/
theorem exists_intercalate_cons {q : List UInt8} (t : List UInt8) (ts : List (List UInt8)) :
    ∃ rest, q.intercalate (t :: ts) = t ++ rest := by
  cases ts with
  | nil => exact ⟨[], by simp⟩
  | cons t' ts => exact ⟨q ++ q.intercalate (t' :: ts), by simp⟩

section Fields

variable {key : String} {t sep text : List UInt8} {post : List (List UInt8)}

/-- A digit is no blank, no quote, and does not end a value. -/
theorem not_special_of_isDigit {b : UInt8} (h : isDigit b = true) :
    isBlank b = false ∧ b ≠ 34 ∧ endsValue b = false := by
  rw [isDigit, Bool.and_eq_true, decide_eq_true_iff, decide_eq_true_iff] at h
  have hne : ∀ c : UInt8, c < 48 ∨ 57 < c → b ≠ c := by
    rintro c (hc | hc) rfl
    · exact absurd h.1 (UInt8.not_le.mpr hc)
    · exact absurd h.2 (UInt8.not_le.mpr hc)
  simp [isBlank, endsValue, hne 32 (by decide), hne 9 (by decide), hne 34 (by decide),
    hne 44 (by decide), hne 125 (by decide), hne 10 (by decide)]

/-- The colon after a key, and the blanks after it. -/
theorem afterFirst_colon (s : List UInt8) : afterFirst [58] (58 :: s) = some s := by
  rw [afterFirst, if_pos (by simp)]
  rfl

/-- The blanks after a colon are skipped. -/
theorem dropWhile_isBlank (hsep : ∀ b ∈ sep, isBlank b = true) {s : List UInt8}
    (hs : ∀ b ∈ s.head?, isBlank b = false) : (sep ++ s).dropWhile isBlank = s :=
  dropWhile_eq_iff.mpr ⟨sep, rfl, hsep, hs⟩

/-- **The text of a string member**, in a line given by its tokens. -/
theorem jsonStringValue_string (pre : List (List UInt8)) (hsep : ∀ b ∈ sep, isBlank b = true)
    (hfree : ∀ u ∈ t :: (pre ++ bytes key :: (58 :: sep) :: text :: post), 34 ∉ u)
    (hnew : bytes key ∉ pre) (hpost : post ≠ []) :
    jsonStringValue
      ([34].intercalate (t :: (pre ++ bytes key :: (58 :: sep) :: text :: post))) key = text := by
  have hkey : afterFirst (quoted key)
      ([34].intercalate (t :: (pre ++ bytes key :: (58 :: sep) :: text :: post)))
        = some ([34].intercalate ((58 :: sep) :: text :: post)) :=
    afterFirst_intercalate hfree hnew (List.cons_ne_nil _ _)
  have htext : 34 ∉ text := hfree text (by simp)
  unfold jsonStringValue
  rw [hkey]
  dsimp only
  rw [List.intercalate_cons_cons, List.append_assoc, List.cons_append, afterFirst_colon]
  dsimp only
  rw [List.singleton_append, dropWhile_isBlank hsep (by simp [isBlank]),
    List.intercalate_cons_of_ne_nil hpost, valueText, if_pos rfl, if_pos (by simp),
    List.append_assoc]
  exact takeWhile_eq_iff.mpr ⟨34 :: _, rfl, fun b hb => decide_eq_true fun h => htext (h ▸ hb),
    by simp⟩

/-- **The text of a number member**, in a line given by its tokens. -/
theorem jsonStringValue_number (pre : List (List UInt8)) {tail : List UInt8}
    (hsep : ∀ b ∈ sep, isBlank b = true)
    (hfree : ∀ u ∈ t :: (pre ++ bytes key :: (58 :: (sep ++ (text ++ tail))) :: post), 34 ∉ u)
    (hnew : bytes key ∉ pre) (hne : text ≠ []) (htext : ∀ b ∈ text, isDigit b = true)
    (htail : ∃ b ∈ tail.head?, endsValue b = true) :
    jsonStringValue
      ([34].intercalate (t :: (pre ++ bytes key :: (58 :: (sep ++ (text ++ tail))) :: post))) key
        = text := by
  have hkey : afterFirst (quoted key)
      ([34].intercalate (t :: (pre ++ bytes key :: (58 :: (sep ++ (text ++ tail))) :: post)))
        = some ([34].intercalate ((58 :: (sep ++ (text ++ tail))) :: post)) :=
    afterFirst_intercalate hfree hnew (List.cons_ne_nil _ _)
  obtain ⟨rest, hrest⟩ := exists_intercalate_cons (q := [34]) (58 :: (sep ++ (text ++ tail))) post
  obtain ⟨d, text, rfl⟩ := List.exists_cons_of_ne_nil hne
  obtain ⟨hblank, hquote, -⟩ := not_special_of_isDigit (htext d List.mem_cons_self)
  unfold jsonStringValue
  rw [hkey]
  dsimp only
  rw [hrest, List.cons_append, afterFirst_colon]
  dsimp only
  rw [List.append_assoc, dropWhile_isBlank hsep (by simpa using hblank), List.append_assoc,
    List.cons_append, valueText, if_neg hquote]
  refine takeWhile_eq_iff.mpr ⟨tail ++ rest, by simp, fun b hb => ?_, fun b hb => ?_⟩
  · rw [(not_special_of_isDigit (htext b hb)).2.2]
    rfl
  · obtain ⟨c, hc, hends⟩ := htail
    rw [List.head?_append, Option.mem_def.mp hc] at hb
    obtain rfl := Option.some.inj hb
    rw [hends]
    rfl

end Fields

/-! ## The lines -/

/-- The tokens of an event line, with `sep` after its commas and colons. -/
def objectTokens (sep src dst port pid ts : List UInt8) : List (List UInt8) :=
  [[123], bytes "src_ip", 58 :: sep, src, 44 :: sep, bytes "dst_ip", 58 :: sep, dst, 44 :: sep,
    bytes "dst_port", 58 :: (sep ++ (port ++ 44 :: sep)),
    bytes "pid", 58 :: (sep ++ (pid ++ 44 :: sep)),
    bytes "timestamp_ns", 58 :: (sep ++ (ts ++ [125]))]

/-- An event line is its tokens with quotes between them. -/
def objectLine (sep src dst port pid ts : List UInt8) : List UInt8 :=
  [34].intercalate (objectTokens sep src dst port pid ts)

/-- No quote, no newline and no letter, so none of the keys. -/
def Plain (t : List UInt8) : Prop := ∀ b ∈ t, b < 97 ∧ b ≠ 34 ∧ b ≠ 10

/-- A plain byte before plain text. -/
theorem Plain.cons {b : UInt8} {t : List UInt8} (hb : b < 97 ∧ b ≠ 34 ∧ b ≠ 10) (ht : Plain t) :
    Plain (b :: t) :=
  List.forall_mem_cons.mpr ⟨hb, ht⟩

/-- Plain texts put together. -/
theorem Plain.append {t t' : List UInt8} (ht : Plain t) (ht' : Plain t') : Plain (t ++ t') :=
  List.forall_mem_append.mpr ⟨ht, ht'⟩

/-- The bytes that structure a text: the quotes of a line, and the end of a line. -/
def IsMark (c : UInt8) : Prop := c = 34 ∨ c = 10

/-- Plain text has no quote, no letter and no line break. -/
theorem Plain.notMem {t : List UInt8} {c : UInt8} (ht : Plain t) (hc : IsMark c) : c ∉ t := by
  intro h
  rcases hc with rfl | rfl
  · exact (ht 34 h).2.1 rfl
  · exact (ht 10 h).2.2 rfl

/-- A key begins with a letter. -/
theorem Plain.bytes_ne {t : List UInt8} (ht : Plain t) {key : String}
    (hkey : ∃ b ∈ (bytes key).head?, 97 ≤ b) : bytes key ≠ t := by
  rintro rfl
  obtain ⟨b, hb, hle⟩ := hkey
  exact absurd (ht b (List.mem_of_head? hb)).1 (UInt8.not_lt.mpr hle)

/-- Digits are plain. -/
theorem plain_decimal (n : ℕ) : Plain (decimal n) := by
  intro b hb
  have h := isDigit_of_mem_decimal hb
  refine ⟨?_, (not_special_of_isDigit h).2.1, ?_⟩
  · rw [isDigit, Bool.and_eq_true, decide_eq_true_iff, decide_eq_true_iff] at h
    exact UInt8.lt_of_le_of_lt h.2 (by decide)
  · rintro rfl
    exact absurd h (by decide)

/-- A printed address is plain. -/
theorem plain_inetNtop (octets : List UInt8) : Plain (inetNtop octets) := by
  unfold inetNtop
  induction octets with
  | nil => exact fun b hb => absurd hb List.not_mem_nil
  | cons a octets ih =>
    cases octets with
    | nil => simpa using plain_decimal a.toNat
    | cons a' octets =>
      rw [List.map_cons, List.map_cons, List.intercalate_cons_cons]
      exact ((plain_decimal _).append (.cons (by decide) fun b hb =>
        absurd hb List.not_mem_nil)).append ih

section Line

variable {sep src dst port pid ts : List UInt8}

/-- The quotes of a line are those between its tokens, and it is one line. -/
theorem notMem_objectTokens {c : UInt8} (hc : IsMark c) (hsep : Plain sep) (hsrc : Plain src)
    (hdst : Plain dst) (hport : Plain port) (hpid : Plain pid) (hts : Plain ts) :
    ∀ u ∈ objectTokens sep src dst port pid ts, c ∉ u := by
  have hcolon : Plain (58 :: sep) := hsep.cons (by decide)
  have hcomma : Plain (44 :: sep) := hsep.cons (by decide)
  have hkeys : ∀ u ∈ [[123], bytes "src_ip", bytes "dst_ip", bytes "dst_port", bytes "pid",
      bytes "timestamp_ns", [125]], c ∉ u := by
    rcases hc with rfl | rfl
    · decide
    · decide
  have hend : c ∉ 58 :: (sep ++ (ts ++ [125])) := by
    have hclose := hkeys [125] (by simp)
    have hts' := (Plain.cons (b := 58) (by decide) (hsep.append hts)).notMem hc
    rw [← List.append_assoc, ← List.cons_append, List.mem_append, not_or]
    exact ⟨hts', hclose⟩
  simp only [List.forall_mem_cons] at hkeys
  obtain ⟨hopen, hkey1, hkey2, hkey3, hkey4, hkey5, -⟩ := hkeys
  simp only [objectTokens, List.forall_mem_cons]
  exact ⟨hopen, hkey1, hcolon.notMem hc, hsrc.notMem hc, hcomma.notMem hc, hkey2,
    hcolon.notMem hc, hdst.notMem hc, hcomma.notMem hc, hkey3,
    (Plain.cons (by decide) (hsep.append (hport.append hcomma))).notMem hc, hkey4,
    (Plain.cons (by decide) (hsep.append (hpid.append hcomma))).notMem hc, hkey5, hend,
    fun u hu => absurd hu List.not_mem_nil⟩

/-- **The five fields of an event line.** -/
theorem jsonStringValue_objectLine (hsep : ∀ b ∈ sep, b = 32) (hsrc : Plain src) (hdst : Plain dst)
    (hport : Plain port) (hpid : Plain pid) (hts : Plain ts)
    (hnumber : ∀ t ∈ [port, pid, ts], t ≠ [] ∧ ∀ b ∈ t, isDigit b = true) :
    jsonStringValue (objectLine sep src dst port pid ts) "src_ip" = src ∧
    jsonStringValue (objectLine sep src dst port pid ts) "dst_ip" = dst ∧
    jsonStringValue (objectLine sep src dst port pid ts) "dst_port" = port ∧
    jsonStringValue (objectLine sep src dst port pid ts) "pid" = pid ∧
    jsonStringValue (objectLine sep src dst port pid ts) "timestamp_ns" = ts := by
  have hblank : ∀ b ∈ sep, isBlank b = true := fun b hb => by rw [hsep b hb]; rfl
  have hsep : Plain sep := fun b hb => by rw [hsep b hb]; decide
  have hfree := notMem_objectTokens (Or.inl rfl) hsep hsrc hdst hport hpid hts
  have hcolon : Plain (58 :: sep) := hsep.cons (by decide)
  have hcomma : Plain (44 :: sep) := hsep.cons (by decide)
  have hport' : Plain (58 :: (sep ++ (port ++ 44 :: sep))) :=
    .cons (by decide) (hsep.append (hport.append hcomma))
  have hpid' : Plain (58 :: (sep ++ (pid ++ 44 :: sep))) :=
    .cons (by decide) (hsep.append (hpid.append hcomma))
  simp only [List.forall_mem_cons] at hnumber
  obtain ⟨⟨hport1, hport2⟩, ⟨hpid1, hpid2⟩, ⟨hts1, hts2⟩, -⟩ := hnumber
  -- no token before a key is that key: only keys begin with a letter
  refine ⟨?_, ?_, ?_, ?_, ?_⟩
  · exact jsonStringValue_string [] hblank hfree List.not_mem_nil (List.cons_ne_nil _ _)
  · refine jsonStringValue_string [bytes "src_ip", 58 :: sep, src, 44 :: sep] hblank hfree ?_
      (List.cons_ne_nil _ _)
    simp only [List.mem_cons, List.not_mem_nil, or_false, not_or]
    have hkey : ∃ b ∈ (bytes "dst_ip").head?, 97 ≤ b := by decide
    exact ⟨by decide, hcolon.bytes_ne hkey, hsrc.bytes_ne hkey, hcomma.bytes_ne hkey⟩
  · refine jsonStringValue_number [bytes "src_ip", 58 :: sep, src, 44 :: sep, bytes "dst_ip",
      58 :: sep, dst, 44 :: sep] hblank hfree ?_ hport1 hport2 ⟨44, rfl, rfl⟩
    simp only [List.mem_cons, List.not_mem_nil, or_false, not_or]
    have hkey : ∃ b ∈ (bytes "dst_port").head?, 97 ≤ b := by decide
    exact ⟨by decide, hcolon.bytes_ne hkey, hsrc.bytes_ne hkey, hcomma.bytes_ne hkey, by decide,
      hcolon.bytes_ne hkey, hdst.bytes_ne hkey, hcomma.bytes_ne hkey⟩
  · refine jsonStringValue_number [bytes "src_ip", 58 :: sep, src, 44 :: sep, bytes "dst_ip",
      58 :: sep, dst, 44 :: sep, bytes "dst_port", 58 :: (sep ++ (port ++ 44 :: sep))] hblank hfree
      ?_ hpid1 hpid2 ⟨44, rfl, rfl⟩
    simp only [List.mem_cons, List.not_mem_nil, or_false, not_or]
    have hkey : ∃ b ∈ (bytes "pid").head?, 97 ≤ b := by decide
    exact ⟨by decide, hcolon.bytes_ne hkey, hsrc.bytes_ne hkey, hcomma.bytes_ne hkey, by decide,
      hcolon.bytes_ne hkey, hdst.bytes_ne hkey, hcomma.bytes_ne hkey, by decide,
      hport'.bytes_ne hkey⟩
  · refine jsonStringValue_number [bytes "src_ip", 58 :: sep, src, 44 :: sep, bytes "dst_ip",
      58 :: sep, dst, 44 :: sep, bytes "dst_port", 58 :: (sep ++ (port ++ 44 :: sep)), bytes "pid",
      58 :: (sep ++ (pid ++ 44 :: sep))] hblank hfree ?_ hts1 hts2 ⟨125, rfl, rfl⟩
    simp only [List.mem_cons, List.not_mem_nil, or_false, not_or]
    have hkey : ∃ b ∈ (bytes "timestamp_ns").head?, 97 ≤ b := by decide
    exact ⟨by decide, hcolon.bytes_ne hkey, hsrc.bytes_ne hkey, hcomma.bytes_ne hkey, by decide,
      hcolon.bytes_ne hkey, hdst.bytes_ne hkey, hcomma.bytes_ne hkey, by decide,
      hport'.bytes_ne hkey, by decide, hpid'.bytes_ne hkey⟩

end Line

/-- **An event line** denotes its event, whatever blanks its separators have. -/
theorem reads_objectLine {sep : List UInt8} (hsep : ∀ b ∈ sep, b = 32)
    (a b c d a' b' c' d' : UInt8) (port : UInt16) (pid : UInt32) (ts : UInt64) :
    Reads (objectLine sep (inetNtop [a, b, c, d]) (inetNtop [a', b', c', d'])
        (decimal port.toNat) (decimal pid.toNat) (decimal ts.toNat))
      ⟨ipFromOctets a b c d, ipFromOctets a' b' c' d', port, pid, ts⟩ ∧
    HasText (objectLine sep (inetNtop [a, b, c, d]) (inetNtop [a', b', c', d'])
        (decimal port.toNat) (decimal pid.toNat) (decimal ts.toNat)) "timestamp_ns" := by
  obtain ⟨h1, h2, h3, h4, h5⟩ := jsonStringValue_objectLine hsep (plain_inetNtop [a, b, c, d])
    (plain_inetNtop [a', b', c', d']) (plain_decimal port.toNat) (plain_decimal pid.toNat)
    (plain_decimal ts.toNat) fun t ht => by
      simp only [List.mem_cons, List.not_mem_nil, or_false] at ht
      rcases ht with rfl | rfl | rfl
      all_goals exact ⟨decimal_ne_nil _, fun _ => isDigit_of_mem_decimal⟩
  have hfield : ∀ {line : List UInt8} {key : String} {text : List UInt8} {ip : UInt32},
      jsonStringValue line key = text → IsAddress text ip →
      ∃ text, HasField line key text ∧ IsAddress text ip := fun h hip =>
    ⟨_, (jsonStringValue_eq_iff hip.ne_nil).mp h, hip⟩
  have hnumber : ∀ {line : List UInt8} {key : String} {n : ℕ},
      jsonStringValue line key = decimal n → HasNumber line key n := fun h =>
    Or.inl ⟨_, (jsonStringValue_eq_iff (decimal_ne_nil _)).mp h, isDecimal_decimal _⟩
  refine ⟨⟨by simp [objectLine, objectTokens], hfield h1 (isAddress_inetNtop a b c d),
    hfield h2 (isAddress_inetNtop a' b' c' d'), hnumber h3, hnumber h4, hnumber h5⟩, ?_⟩
  rw [hasText_iff, h5]
  exact decimal_ne_nil _

/-- **An event line is read back**, whatever blanks its separators have. -/
theorem parseEvent_objectLine {sep : List UInt8} (hsep : ∀ b ∈ sep, b = 32)
    (a b c d a' b' c' d' : UInt8) (port : UInt16) (pid : UInt32) (ts : UInt64) :
    10 ∉ objectLine sep (inetNtop [a, b, c, d]) (inetNtop [a', b', c', d']) (decimal port.toNat)
        (decimal pid.toNat) (decimal ts.toNat) ∧
      parseEvent (objectLine sep (inetNtop [a, b, c, d]) (inetNtop [a', b', c', d'])
        (decimal port.toNat) (decimal pid.toNat) (decimal ts.toNat))
        = .ok (some ⟨ipFromOctets a b c d, ipFromOctets a' b' c' d', port, pid, ts⟩) := by
  have hsep' : Plain sep := fun b hb => by rw [hsep b hb]; decide
  constructor
  · exact notMem_intercalate (by decide) (notMem_objectTokens (Or.inr rfl) hsep'
      (plain_inetNtop _) (plain_inetNtop _) (plain_decimal _) (plain_decimal _) (plain_decimal _))
  · exact parseEvent_of_reads (reads_objectLine hsep a b c d a' b' c' d' port pid ts).1

/-- The line that the collector prints, as an object line without blanks. -/
theorem handleEvent_eq (e : Endian) (evt : NetworkEventT) :
    handleEvent e evt = objectLine [] (ipToStr e evt.srcIp) (ipToStr e evt.dstIp)
      (decimal evt.dstPort.toNat) (decimal evt.pid.toNat) (decimal evt.timestampNs.toNat)
        ++ [10] := by
  have h1 : bytes "\x7b\"src_ip\":\"" = 123 :: 34 :: (bytes "src_ip" ++ [34, 58, 34]) := by decide
  have h2 : bytes "\",\"dst_ip\":\"" = 34 :: 44 :: 34 :: (bytes "dst_ip" ++ [34, 58, 34]) := by
    decide
  have h3 : bytes "\",\"dst_port\":" = 34 :: 44 :: 34 :: (bytes "dst_port" ++ [34, 58]) := by
    decide
  have h4 : bytes ",\"pid\":" = 44 :: 34 :: (bytes "pid" ++ [34, 58]) := by decide
  have h5 : bytes ",\"timestamp_ns\":" = 44 :: 34 :: (bytes "timestamp_ns" ++ [34, 58]) := by
    decide
  have h6 : bytes "\x7d\n" = [125, 10] := by decide
  simp only [handleEvent, objectLine, objectTokens, h1, h2, h3, h4, h5, h6,
    List.intercalate_cons_cons, List.intercalate_singleton, List.append_assoc, List.cons_append,
    List.nil_append]

/-- The line that the generator prints, as an object line with a blank after each separator. -/
theorem dumps_eq (src dst : List UInt8) (dstPort pid timestampNs : ℕ) :
    dumps src dst dstPort pid timestampNs
      = objectLine [32] src dst (decimal dstPort) (decimal pid) (decimal timestampNs) := by
  have h1 : bytes "\x7b\"src_ip\": \"" = 123 :: 34 :: (bytes "src_ip" ++ [34, 58, 32, 34]) := by
    decide
  have h2 : bytes "\", \"dst_ip\": \""
      = 34 :: 44 :: 32 :: 34 :: (bytes "dst_ip" ++ [34, 58, 32, 34]) := by
    decide
  have h3 : bytes "\", \"dst_port\": "
      = 34 :: 44 :: 32 :: 34 :: (bytes "dst_port" ++ [34, 58, 32]) := by
    decide
  have h4 : bytes ", \"pid\": " = 44 :: 32 :: 34 :: (bytes "pid" ++ [34, 58, 32]) := by decide
  have h5 : bytes ", \"timestamp_ns\": "
      = 44 :: 32 :: 34 :: (bytes "timestamp_ns" ++ [34, 58, 32]) := by
    decide
  have h6 : bytes "\x7d" = [125] := by decide
  simp only [dumps, objectLine, objectTokens, h1, h2, h3, h4, h5, h6,
    List.intercalate_cons_cons, List.intercalate_singleton, List.append_assoc, List.cons_append,
    List.nil_append]

/-- **The collector's line** is one line, and `parse_event` reads the event back. -/
theorem parseEvent_handleEvent (e : Endian) (evt : NetworkEventT) :
    ∃ line, handleEvent e evt = line ++ [10] ∧ 10 ∉ line ∧
      parseEvent line = .ok (some (hostEvent e evt)) := by
  obtain ⟨a, b, c, d, hsrc, hsrc'⟩ := exists_memory e evt.srcIp
  obtain ⟨a', b', c', d', hdst, hdst'⟩ := exists_memory e evt.dstIp
  obtain ⟨hline, hparse⟩ := parseEvent_objectLine (fun b hb => absurd hb List.not_mem_nil)
    a b c d a' b' c' d' evt.dstPort evt.pid evt.timestampNs
  rw [hsrc', hdst'] at hparse
  refine ⟨_, handleEvent_eq e evt, ?_⟩
  rw [ipToStr, ipToStr, hsrc, hdst]
  exact ⟨hline, hparse⟩

/-- **The line of the script** for the same flow is read back as well. -/
theorem parseEvent_convert (e : Endian) (evt : NetworkEventT) {input : List UInt8}
    (hshows : Shows e evt input) :
    ∃ line, convert evt.pid.toNat evt.timestampNs.toNat input = line ++ [10] ∧ 10 ∉ line ∧
      parseEvent line = .ok (some (hostEvent e evt)) := by
  obtain ⟨a, b, c, d, hsrc, hsrc'⟩ := exists_memory e evt.srcIp
  obtain ⟨a', b', c', d', hdst, hdst'⟩ := exists_memory e evt.dstIp
  have hsep : ∀ b ∈ [(32 : UInt8)], b = 32 := fun b hb => List.mem_singleton.mp hb
  obtain ⟨hline, hparse⟩ := parseEvent_objectLine hsep a b c d a' b' c' d' evt.dstPort
    evt.pid evt.timestampNs
  rw [hsrc', hdst'] at hparse
  refine ⟨objectLine [32] (ipToStr e evt.srcIp) (ipToStr e evt.dstIp)
    (decimal evt.dstPort.toNat) (decimal evt.pid.toNat) (decimal evt.timestampNs.toNat), ?_, ?_⟩
  · unfold Shows at hshows
    rw [convert, hshows]
    dsimp only
    rw [dumps_eq, magnitude_decimal]
  · rw [ipToStr, ipToStr, hsrc, hdst]
    exact ⟨hline, hparse⟩

/-- **Both collectors are understood**: what either prints for an event is one line,
which the engine accepts and decodes to the event in host byte order. -/
theorem parseEvent_collected (e : Endian) (evt : NetworkEventT) :
    (∃ line, handleEvent e evt = line ++ [10] ∧ 10 ∉ line ∧
      parseEvent line = .ok (some (hostEvent e evt))) ∧
    ∀ input, Shows e evt input →
      ∃ line, convert evt.pid.toNat evt.timestampNs.toNat input = line ++ [10] ∧ 10 ∉ line ∧
        parseEvent line = .ok (some (hostEvent e evt)) :=
  ⟨parseEvent_handleEvent e evt, fun _ hshows => parseEvent_convert e evt hshows⟩

/-- A connection as `tcpdump` shows it on a machine that stores the low byte first. -/
theorem parseEvent_collected_syn :
    ∃ line, convert 7 123 (bytes "21:30:42.1 eth0 Out IP 10.244.1.5.3452 > 10.244.2.10.80: Flags [S], seq 1")
        = line ++ [10] ∧ 10 ∉ line ∧
      parseEvent line = .ok (some ⟨0x0AF40105, 0x0AF4020A, 80, 7, 123⟩) :=
  (parseEvent_collected .little ⟨0x0501F40A, 0x0A02F40A, 80, 7, 123⟩).2 _ (by decide)

/-- **A collector piped into the engine**: the lines of a sequence of events are
parsed to the events. -/
theorem parseLines_handleEvent (e : Endian) (evts : List NetworkEventT) :
    ∃ lines, evts.flatMap (handleEvent e) = lines.flatMap (· ++ [10]) ∧ (∀ line ∈ lines, 10 ∉ line) ∧
      parseLines lines = some (evts.map (hostEvent e)) := by
  induction evts with
  | nil => exact ⟨[], rfl, fun _ h => absurd h List.not_mem_nil, rfl⟩
  | cons evt evts ih =>
    obtain ⟨line, hprint, hline, hparse⟩ := parseEvent_handleEvent e evt
    obtain ⟨lines, hprints, hlines, hparses⟩ := ih
    refine ⟨line :: lines, ?_, List.forall_mem_cons.mpr ⟨hline, hlines⟩, ?_⟩
    · rw [List.flatMap_cons, List.flatMap_cons, hprint, hprints]
    · rw [parseLines, hparse]
      dsimp only
      rw [hparses]
      rfl

/-- **The engine behind a collector** runs as on the events themselves. -/
theorem reaches_handleEvent (e : Endian) (evts : List NetworkEventT) :
    ∃ lines, evts.flatMap (handleEvent e) = lines.flatMap (· ++ [10]) ∧ (∀ line ∈ lines, 10 ∉ line) ∧
      ∀ env cfg s outs, Returns (runLines env cfg lines) (s, outs) ↔
        Reaches env cfg (evts.map (hostEvent e)) s outs := by
  obtain ⟨lines, hprint, hlines, hparse⟩ := parseLines_handleEvent e evts
  refine ⟨lines, hprint, hlines, fun env cfg s outs => ?_⟩
  rw [reaches_lines_iff, hparse]
  constructor
  · rintro ⟨events, h, hrun⟩
    rwa [Option.some.inj h]
  · exact fun hrun => ⟨_, rfl, hrun⟩

/-! ## `ip_to_string` -/

/-- The printed address, octet by octet. -/
theorem toList_ipToString (ip : UInt32) :
    (ipToString ip).toList = Nat.toDigits 10 ((ip >>> 24) &&& 0xFF).toNat ++ '.' ::
      (Nat.toDigits 10 ((ip >>> 16) &&& 0xFF).toNat ++ '.' ::
        (Nat.toDigits 10 ((ip >>> 8) &&& 0xFF).toNat ++ '.' ::
          Nat.toDigits 10 (ip &&& 0xFF).toNat)) := by
  simp [ipToString]

/-- Numbers with the same digits are equal. -/
theorem toDigits_injective : Function.Injective (Nat.toDigits 10) := by
  intro m n h
  rw [← Nat.ofDigitChars_toDigits (n := m) (by decide : 1 < 10) le_rfl, h,
    Nat.ofDigitChars_toDigits (by decide) le_rfl]

/-- No digit is a dot. -/
theorem dot_notMem_toDigits (n : ℕ) : '.' ∉ Nat.toDigits 10 n := fun h =>
  absurd (Nat.isDigit_of_mem_toDigits (by decide) (by decide) h) (by decide)

/-- **Different addresses are printed differently.** -/
theorem ipToString_injective : Function.Injective ipToString := by
  intro x y h
  have hlist := congrArg String.toList h
  rw [toList_ipToString, toList_ipToString] at hlist
  have h24 := eq_of_append_cons_eq_of_notMem (dot_notMem_toDigits _) (dot_notMem_toDigits _) hlist
  rw [h24, List.append_cancel_left_eq, List.cons.injEq] at hlist
  have h16 := eq_of_append_cons_eq_of_notMem (dot_notMem_toDigits _) (dot_notMem_toDigits _) hlist.2
  rw [h16, List.append_cancel_left_eq, List.cons.injEq] at hlist
  have h8 := eq_of_append_cons_eq_of_notMem (dot_notMem_toDigits _) (dot_notMem_toDigits _)
    hlist.2.2
  rw [h8, List.append_cancel_left_eq, List.cons.injEq] at hlist
  have h24 := toDigits_injective h24
  have h16 := toDigits_injective h16
  have h8 := toDigits_injective h8
  have h0 := toDigits_injective hlist.2.2.2
  rw [← toNat_toUInt8, ← toNat_toUInt8] at h24 h16 h8 h0
  rw [← ipFromOctets_octets x, ← ipFromOctets_octets y, UInt8.toNat.inj h24, UInt8.toNat.inj h16,
    UInt8.toNat.inj h8, UInt8.toNat.inj h0]

end Engine
