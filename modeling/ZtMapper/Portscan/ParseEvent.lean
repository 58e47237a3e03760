/-
# The lines of the stand-alone tool

`parser.cpp` has an event parser of its own: event lines, and the lines of `tcpdump`
themselves.  On a line that denotes an event it agrees with the engine
(`parseEvent_of_reads`), and on a line of `tcpdump` with the script that converts it
(`parseEvent_of_shows`), although it packs addresses, converts numbers and knows white
space in other ways than they do.
-/
import ZtMapper.Engine.Distilled
import ZtMapper.Portscan.ParseArgs

open Engine (Endian Exception HasField HasNumber HasText IsAddress LineMatch NetworkEventT Part Reads
  Shows bytes endpointRe groups hasText_iff hostEvent isReSpace isReWord jsonStringValue
  jsonStringValue_eq_iff lineRe orZero stou stou_of_isDecimal stoul stoull toolEvent
  toUInt16_ofNat_toNat)
open Scan

namespace Portscan

/-! ## `parse_json` -/

/-- The first four pieces between dots, without a check that they are octets. -/
def parseIpv4 (s : List UInt8) : Except Exception UInt32 := do
  let octets ← ((pieces 46 s).take 4).mapM fun part => do return (← stoul part).toUInt32
  match octets with
  | [a, b, c, d] => return (a <<< 24) ||| (b <<< 16) ||| (c <<< 8) ||| d
  | _ => return 0

/-- The code of the engine's `json_string_value`. -/
def jsonField (json : List UInt8) (key : String) : List UInt8 := jsonStringValue json key

/-- A time that is missing or empty is read off the system clock. -/
def orNow (now : UInt64) (ts : List UInt8) : Except Exception UInt64 :=
  if ts = [] then .ok now else stoull ts

/-- `none` is the result `false`.  `now` is the reading of the system clock. -/
def parseJson (now : UInt64) (line : List UInt8) : Except Exception (Option NetworkEvent) := do
  if line.head? ≠ some 123 then return none
  let src := jsonField line "src_ip"
  let dst := jsonField line "dst_ip"
  let port := jsonField line "dst_port"
  let ts := jsonField line "timestamp_ns"
  if src = [] ∨ dst = [] then return none
  let srcIp ← parseIpv4 src
  let dstIp ← parseIpv4 dst
  let dstPort ← orZero stoul port
  let timestampNs ← orNow now ts
  return some ⟨srcIp, dstIp, dstPort.toUInt16, timestampNs⟩

/-! ## `parse_tcpdump` -/

/-- The texts that the parts `\d+` match at the front of `s`, where `space` is `\s`. -/
def matchParts (space : UInt8 → Bool) : List Part → List UInt8 → Option (List (List UInt8))
  | [], _ => some []
  | .text t :: re, s => if t <+: s then matchParts space re (s.drop t.length) else none
  | .digits :: re, s =>
    if s.takeWhile isDigit = [] then none
    else (matchParts space re (s.dropWhile isDigit)).map (s.takeWhile isDigit :: ·)
  | .spaces :: re, s =>
    if s.takeWhile space = [] then none else matchParts space re (s.dropWhile space)

/-- `std::regex_search` with the expression of the script: the leftmost match that starts
at a word boundary. -/
def searchFrom (space : UInt8 → Bool) (afterWord : Bool) : List UInt8 → Option LineMatch
  | [] => none
  | b :: s =>
    match if afterWord then none else matchParts space lineRe (b :: s) with
    | some texts => groups texts
    | none => searchFrom space (isReWord b) s

/-- In the classic locale `\s` is `std::isspace`. -/
def search (line : List UInt8) : Option LineMatch := searchFrom isSpace false line

def parseTcpdump (now : UInt64) (line : List UInt8) : Except Exception (Option NetworkEvent) :=
  match search line with
  | none => .ok none
  | some m => do
    let srcIp ← parseIpv4 m.src
    let dstIp ← parseIpv4 m.dst
    let dstPort ← stoul m.dport
    return some ⟨srcIp, dstIp, dstPort.toUInt16, now⟩

def parseEvent (now : UInt64) (line : List UInt8) : Except Exception (Option NetworkEvent) := do
  match ← parseJson now line with
  | some evt => return some evt
  | none => parseTcpdump now line

/-! ## Event lines -/

theorem toUInt32_ofNat_octet (b : UInt8) : (UInt64.ofNat b.toNat).toUInt32 = b.toUInt32 := by
  have hb := b.toNat_lt
  apply UInt32.toNat.inj
  rw [UInt64.toNat_toUInt32, UInt64.toNat_ofNat_of_lt' (lt_trans hb (by decide)),
    UInt8.toNat_toUInt32, Nat.mod_eq_of_lt (lt_trans hb (by decide))]

/-- **`parse_ipv4` reads addresses.** -/
theorem parseIpv4_of_isAddress {s : List UInt8} {ip : UInt32} (h : IsAddress s ip) :
    parseIpv4 s = .ok ip := by
  obtain ⟨a, b, c, d, parts, rfl, hparts, rfl⟩ := h
  have hoctet : ∀ {part : List UInt8} {octet : UInt8}, IsDecimal part octet.toNat →
      stoul part = .ok (UInt64.ofNat octet.toNat) := fun {_ octet} h =>
    stou_of_isDecimal "stoul" h (lt_trans octet.toNat_lt (by decide))
  unfold parseIpv4
  rw [Engine.pieces_of_forall₂ hparts]
  cases hparts with
  | cons ha hparts => cases hparts with
  | cons hb hparts => cases hparts with
  | cons hc hparts => cases hparts with
  | cons hd hparts =>
    cases hparts
    simp only [List.take, List.mapM_cons, List.mapM_nil, hoctet ha, hoctet hb, hoctet hc, hoctet hd]
    show Except.ok (((UInt64.ofNat a.toNat).toUInt32 <<< 24) |||
      ((UInt64.ofNat b.toNat).toUInt32 <<< 16) ||| ((UInt64.ofNat c.toNat).toUInt32 <<< 8) |||
      (UInt64.ofNat d.toNat).toUInt32) = _
    simp only [toUInt32_ofNat_octet]
    rfl

/-- The event with the time at which the tool reads it, when the line gives none. -/
def timed (now : UInt64) (line : List UInt8) (evt : NetworkEvent) : NetworkEvent :=
  if jsonField line "timestamp_ns" = [] then { evt with timestampNs := now } else evt

/-- **A line that denotes an event** is read by the tool as by the engine. -/
theorem parseEvent_of_reads {line : List UInt8} {evt} (h : Reads line evt)
    (now : UInt64) : parseEvent now line = .ok (some (timed now line (toolEvent evt))) := by
  obtain ⟨src, hsrc, hsrcIp⟩ := h.srcIp
  obtain ⟨dst, hdst, hdstIp⟩ := h.dstIp
  have hport := h.dstPort.orZero "stoul" (lt_trans evt.dstPort.toNat_lt (by decide))
  have hts := h.timestampNs.orZero "stoull" evt.timestampNs.toNat_lt
  have hmissing : ¬ (src = [] ∨ dst = []) := not_or.mpr ⟨hsrcIp.ne_nil, hdstIp.ne_nil⟩
  have htime : orNow now (jsonField line "timestamp_ns")
      = .ok (timed now line (toolEvent evt)).timestampNs := by
    unfold orNow timed jsonField
    unfold orZero at hts
    by_cases hnone : jsonStringValue line "timestamp_ns" = []
    · rw [if_pos hnone, if_pos hnone]
    · rw [if_neg hnone] at hts
      rw [if_neg hnone, if_neg hnone, stoull, hts, UInt64.ofNat_toNat]
      rfl
  have hjson : parseJson now line = .ok (some (timed now line (toolEvent evt))) := by
    unfold parseJson
    rw [if_neg (not_not.mpr h.isObject), jsonField, (jsonStringValue_eq_iff hsrcIp.ne_nil).mpr hsrc,
      jsonField, (jsonStringValue_eq_iff hdstIp.ne_nil).mpr hdst]
    dsimp only
    rw [if_neg hmissing, parseIpv4_of_isAddress hsrcIp, parseIpv4_of_isAddress hdstIp, htime, stoul,
      jsonField, hport]
    show Except.ok (some (⟨evt.srcIp, evt.dstIp, (UInt64.ofNat evt.dstPort.toNat).toUInt16,
      (timed now line (toolEvent evt)).timestampNs⟩ : NetworkEvent)) = _
    rw [toUInt16_ofNat_toNat]
    unfold timed
    split_ifs <;> rfl
  unfold parseEvent
  rw [hjson]
  rfl

/-- A line that the engine rejects is a line of `tcpdump`, or none. -/
theorem parseEvent_of_none {line : List UInt8} (h : Engine.parseEvent line = .ok none)
    (now : UInt64) : parseEvent now line = parseTcpdump now line := by
  have hnone := Engine.parseEvent_eq_none_iff.mp h
  rw [hasText_iff, hasText_iff] at hnone
  have hjson : parseJson now line = .ok none := by
    unfold parseJson
    by_cases hobject : line.head? = some 123
    · rw [if_neg (not_not.mpr hobject)]
      dsimp only
      refine if_pos ?_
      by_contra hboth
      rw [not_or] at hboth
      exact hnone ⟨hobject, hboth.1, hboth.2⟩
    · exact if_pos hobject
  unfold parseEvent
  rw [hjson]
  rfl

/-! ## Lines of `tcpdump` -/

/-- None of the four separators that only the script counts as white space. -/
def NoSeparators (line : List UInt8) : Prop := ∀ b ∈ line, ¬ (28 ≤ b ∧ b ≤ 31)

instance (line : List UInt8) : Decidable (NoSeparators line) :=
  List.decidableBAll (fun b => ¬ (28 ≤ b ∧ b ≤ 31)) line

theorem isReSpace_eq {line : List UInt8} (h : NoSeparators line) :
    ∀ b ∈ line, isSpace b = isReSpace b := by
  intro b hb
  have hnot : (28 ≤ b && b ≤ 31) = false := by simpa using h b hb
  rw [isReSpace, hnot, Bool.or_false]
  rfl

theorem matchParts_eq (re : List Part) {s : List UInt8} (h : ∀ b ∈ s, isSpace b = isReSpace b) :
    matchParts isSpace re s = Engine.matchParts re s := by
  induction re generalizing s with
  | nil => rfl
  | cons part re ih =>
    have hdrop : ∀ p : UInt8 → Bool, ∀ b ∈ s.dropWhile p, isSpace b = isReSpace b := fun p b hb =>
      h b ((List.dropWhile_sublist p).mem hb)
    cases part with
    | text t =>
      rw [matchParts, Engine.matchParts, ih fun b hb => h b (List.mem_of_mem_drop hb)]
    | digits => rw [matchParts, Engine.matchParts, ih (hdrop isDigit)]
    | spaces =>
      obtain ⟨htake, hrest⟩ := span_congr h
      rw [matchParts, Engine.matchParts, ih (hdrop isSpace), htake, hrest]

theorem searchFrom_eq (afterWord : Bool) {s : List UInt8} (h : ∀ b ∈ s, isSpace b = isReSpace b) :
    searchFrom isSpace afterWord s = Engine.searchFrom afterWord s := by
  induction s generalizing afterWord with
  | nil => rfl
  | cons b s ih =>
    rw [searchFrom, matchParts_eq lineRe h, ih (isReWord b) (List.forall_mem_cons.mp h).2]
    rfl

/-- The two expressions find the same. -/
theorem search_eq {line : List UInt8} (h : NoSeparators line) : search line = Engine.search line :=
  searchFrom_eq false (isReSpace_eq h)

/-- The event that a flow is read as at a time. -/
def seenAt (now : UInt64) (e : Endian) (evt : NetworkEventT) : NetworkEvent :=
  toolEvent (hostEvent e { evt with timestampNs := now })

/-- **A line that shows a flow** is read as the flow. -/
theorem parseEvent_of_shows {line : List UInt8} {e : Endian} {evt : NetworkEventT}
    (h : Shows e evt line) (hsep : NoSeparators line) (hobject : line.head? ≠ some 123)
    (now : UInt64) : parseEvent now line = .ok (some (seenAt now e evt)) := by
  have hjson : parseJson now line = .ok none := if_pos hobject
  obtain ⟨a, b, c, d, hsrc, hsrc'⟩ := Engine.exists_memory e evt.srcIp
  obtain ⟨a', b', c', d', hdst, hdst'⟩ := Engine.exists_memory e evt.dstIp
  have haddress : parseIpv4 (Engine.ipToStr e evt.srcIp) = .ok (Engine.ntohl e evt.srcIp) ∧
      parseIpv4 (Engine.ipToStr e evt.dstIp) = .ok (Engine.ntohl e evt.dstIp) := by
    rw [Engine.ipToStr, Engine.ipToStr, hsrc, hdst, ← hsrc', ← hdst']
    exact ⟨parseIpv4_of_isAddress (Engine.isAddress_inetNtop a b c d),
      parseIpv4_of_isAddress (Engine.isAddress_inetNtop a' b' c' d')⟩
  have hport : stoul (decimal evt.dstPort.toNat) = .ok (UInt64.ofNat evt.dstPort.toNat) :=
    stou_of_isDecimal "stoul" (isDecimal_decimal _) (lt_trans evt.dstPort.toNat_lt (by decide))
  have hsearch : search line = some _ := (search_eq hsep).trans h
  unfold parseEvent
  rw [hjson]
  show parseTcpdump now line = _
  unfold parseTcpdump
  rw [hsearch]
  dsimp only
  rw [haddress.1, haddress.2, hport]
  show Except.ok (some (⟨_, _, (UInt64.ofNat evt.dstPort.toNat).toUInt16, now⟩ : NetworkEvent)) = _
  rw [toUInt16_ofNat_toNat]
  rfl

end Portscan
