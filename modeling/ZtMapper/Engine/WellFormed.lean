/-
# Which lines are read as they are

A line is well formed when its addresses are four octets with dots between them
and its other fields are numbers in their ranges.  `parse_event` reads such a line
as it is (`parseEvent_of_reads`); every other line that has both addresses it
accepts with other values, or throws (`faithful_iff`).
-/
import ZtMapper.Engine.ParseEvent
import ZtMapper.Lib.Print

open Scan

namespace Engine

/-! ## Well-formed texts -/

/-- The text is four decimal octets with dots between them, and `ip` packs them. -/
def IsAddress (text : List UInt8) (ip : UInt32) : Prop :=
  ∃ (a b c d : UInt8) (parts : List (List UInt8)), text = [46].intercalate parts ∧
    List.Forall₂ (fun part (octet : UInt8) => IsDecimal part octet.toNat) parts [a, b, c, d] ∧
    ip = ipFromOctets a b c d

/-- The line has a text for the key; an empty one counts as missing. -/
def HasText (line : List UInt8) (key : String) : Prop := ∃ text ≠ [], HasField line key text

/-- The line gives the key the number `n`, which is 0 when there is none. -/
def HasNumber (line : List UInt8) (key : String) (n : ℕ) : Prop :=
  (∃ text, HasField line key text ∧ IsDecimal text n) ∨ (¬ HasText line key ∧ n = 0)

/-- The line denotes the event. -/
structure Reads (line : List UInt8) (evt : NetworkEvent) : Prop where
  isObject : line.head? = some 123
  srcIp : ∃ text, HasField line "src_ip" text ∧ IsAddress text evt.srcIp
  dstIp : ∃ text, HasField line "dst_ip" text ∧ IsAddress text evt.dstIp
  dstPort : HasNumber line "dst_port" evt.dstPort.toNat
  pid : HasNumber line "pid" evt.pid.toNat
  timestampNs : HasNumber line "timestamp_ns" evt.timestampNs.toNat

/-- Every field that the line has is an address, or a number in the range of its
type. -/
structure WellFormed (line : List UInt8) : Prop where
  address : ∀ key ∈ ["src_ip", "dst_ip"], ∀ text ≠ [], HasField line key text →
    ∃ ip, IsAddress text ip
  number : ∀ field ∈ [("dst_port", 2 ^ 16), ("pid", 2 ^ 32), ("timestamp_ns", 2 ^ 64)],
    ∀ text ≠ [], HasField line field.1 text → ∃ n < field.2, IsDecimal text n

/-- Exactly the lines that denote an event are accepted, with that event, and the
others are rejected. -/
structure Faithful (line : List UInt8) : Prop where
  accepts : ∀ evt, parseEvent line = .ok (some evt) ↔ Reads line evt
  rejects : (∀ evt, ¬ Reads line evt) → parseEvent line = .ok none

/-! ## Well-formed texts are read as they are -/

/-- `stoi` reads a decimal that fits an `int`. -/
theorem stoi_of_isDecimal {s : List UInt8} {n : ℕ} (h : IsDecimal s n) (hn : n < 2 ^ 31) :
    stoi s = .ok (n : ℤ) := by
  have hrange : -intMax - 1 ≤ (n : ℤ) ∧ (n : ℤ) ≤ intMax := by
    rw [intMax]
    omega
  unfold stoi
  rw [h.strtol]
  exact if_pos hrange

/-- `stoul` and `stoull` read a decimal that fits 64 bits. -/
theorem stou_of_isDecimal (what : String) {s : List UInt8} {n : ℕ} (h : IsDecimal s n)
    (hn : n < 2 ^ 64) : stou what s = .ok (UInt64.ofNat n) := by
  unfold stou
  rw [h.strtol]
  exact if_pos hn

/-- A byte as an `int` and back. -/
theorem ofInt_toNat (b : UInt8) : UInt8.ofInt (b.toNat : ℤ) = b := by
  have hb := b.toNat_lt
  apply UInt8.toNat.inj
  rw [UInt8.ofInt, Int.emod_eq_of_lt (by omega) (by omega), Int.toNat_natCast, UInt8.ofNat_toNat]

/-- The parts of an address are decimals. -/
theorem exists_isDecimal {parts : List (List UInt8)} {octets : List UInt8}
    (h : List.Forall₂ (fun part (octet : UInt8) => IsDecimal part octet.toNat) parts octets) :
    ∀ part ∈ parts, ∃ n, IsDecimal part n := by
  induction h with
  | nil => exact fun part hpart => absurd hpart List.not_mem_nil
  | cons hpart _ ih => exact List.forall_mem_cons.mpr ⟨⟨_, hpart⟩, ih⟩

/-- The parts of an address come out between the dots. -/
theorem pieces_of_forall₂ {parts : List (List UInt8)} {octets : List UInt8}
    (h : List.Forall₂ (fun part (octet : UInt8) => IsDecimal part octet.toNat) parts octets) :
    pieces 46 ([46].intercalate parts) = parts := by
  have hall := exists_isDecimal h
  refine pieces_intercalate (fun part hpart => ?_) fun part hpart => ?_
  · obtain ⟨n, hn⟩ := hall part hpart
    exact hn.ne_nil
  · obtain ⟨n, hn⟩ := hall part hpart
    exact hn.notMem (by decide)

/-- An address is not empty. -/
theorem IsAddress.ne_nil {text : List UInt8} {ip : UInt32} (h : IsAddress text ip) : text ≠ [] := by
  obtain ⟨a, b, c, d, parts, rfl, hparts, -⟩ := h
  intro hnil
  have hpieces := pieces_of_forall₂ hparts
  rw [hnil] at hpieces
  rw [← hpieces] at hparts
  cases hparts

/-- An address is made of digits and dots. -/
theorem IsAddress.notMem {text : List UInt8} {ip : UInt32} (h : IsAddress text ip) {b : UInt8}
    (hdigit : isDigit b = false) (hdot : b ≠ 46) : b ∉ text := by
  obtain ⟨a, b, c, d, parts, rfl, hparts, -⟩ := h
  refine notMem_intercalate hdot fun part hpart => ?_
  obtain ⟨n, hn⟩ := exists_isDecimal hparts part hpart
  exact hn.notMem hdigit

/-- **`parse_ip` reads addresses.** -/
theorem IsAddress.parseIp {text : List UInt8} {ip : UInt32} (h : IsAddress text ip) :
    parseIp text = .ok ip := by
  obtain ⟨a, b, c, d, parts, rfl, hparts, rfl⟩ := h
  have hoctet : ∀ {part : List UInt8} {octet : UInt8}, IsDecimal part octet.toNat →
      stoi part = .ok (octet.toNat : ℤ) := fun {_ octet} h =>
    stoi_of_isDecimal h (lt_trans octet.toNat_lt (by decide))
  unfold Engine.parseIp
  rw [pieces_of_forall₂ hparts]
  cases hparts with
  | cons ha hparts => cases hparts with
  | cons hb hparts => cases hparts with
  | cons hc hparts => cases hparts with
  | cons hd hparts =>
    cases hparts
    simp only [List.take, List.mapM_cons, List.mapM_nil, hoctet ha, hoctet hb, hoctet hc, hoctet hd]
    show Except.ok (ipFromOctets (UInt8.ofInt a.toNat) (UInt8.ofInt b.toNat) (UInt8.ofInt c.toNat)
      (UInt8.ofInt d.toNat)) = _
    simp only [ofInt_toNat]

/-- A field has a text when the value found is not empty. -/
theorem hasText_iff {line : List UInt8} {key : String} :
    HasText line key ↔ jsonStringValue line key ≠ [] :=
  exists_hasField_iff

/-- A field with a number is read as that number. -/
theorem HasNumber.orZero (what : String) {line : List UInt8} {key : String} {n : ℕ}
    (h : HasNumber line key n) (hn : n < 2 ^ 64) :
    orZero (stou what) (jsonStringValue line key) = .ok (UInt64.ofNat n) := by
  unfold Engine.orZero
  rcases h with ⟨text, hfield, hdecimal⟩ | ⟨hnone, rfl⟩
  · rw [(jsonStringValue_eq_iff hdecimal.ne_nil).mpr hfield, if_neg hdecimal.ne_nil]
    exact stou_of_isDecimal what hdecimal hn
  · rw [hasText_iff, not_not] at hnone
    rw [hnone, if_pos rfl]
    rfl

/-- A port through 64 bits and back. -/
theorem toUInt16_ofNat_toNat (x : UInt16) : (UInt64.ofNat x.toNat).toUInt16 = x := by
  have hx := x.toNat_lt
  apply UInt16.toNat.inj
  rw [UInt64.toNat_toUInt16, UInt64.toNat_ofNat_of_lt' (lt_trans hx (by decide)),
    Nat.mod_eq_of_lt hx]

/-- A process id through 64 bits and back. -/
theorem toUInt32_ofNat_toNat (x : UInt32) : (UInt64.ofNat x.toNat).toUInt32 = x := by
  have hx := x.toNat_lt
  apply UInt32.toNat.inj
  rw [UInt64.toNat_toUInt32, UInt64.toNat_ofNat_of_lt' (lt_trans hx (by decide)),
    Nat.mod_eq_of_lt hx]

/-- **A line that denotes an event** is accepted, with that event. -/
theorem parseEvent_of_reads {line : List UInt8} {evt : NetworkEvent} (h : Reads line evt) :
    parseEvent line = .ok (some evt) := by
  obtain ⟨src, hsrc, hsrcIp⟩ := h.srcIp
  obtain ⟨dst, hdst, hdstIp⟩ := h.dstIp
  have hport := h.dstPort.orZero "stoul" (lt_trans evt.dstPort.toNat_lt (by decide))
  have hpid := h.pid.orZero "stoul" (lt_trans evt.pid.toNat_lt (by decide))
  have hts := h.timestampNs.orZero "stoull" evt.timestampNs.toNat_lt
  have hmissing : ¬ (src = [] ∨ dst = []) := not_or.mpr ⟨hsrcIp.ne_nil, hdstIp.ne_nil⟩
  unfold parseEvent
  rw [if_neg (not_not.mpr h.isObject), (jsonStringValue_eq_iff hsrcIp.ne_nil).mpr hsrc,
    (jsonStringValue_eq_iff hdstIp.ne_nil).mpr hdst]
  dsimp only
  rw [if_neg hmissing, hsrcIp.parseIp, hdstIp.parseIp, stoul, hport, hpid, stoull, hts]
  show Except.ok (some (⟨evt.srcIp, evt.dstIp, (UInt64.ofNat evt.dstPort.toNat).toUInt16,
    (UInt64.ofNat evt.pid.toNat).toUInt32, UInt64.ofNat evt.timestampNs.toNat⟩ : NetworkEvent)) = _
  rw [toUInt16_ofNat_toNat, toUInt32_ofNat_toNat, UInt64.ofNat_toNat]

/-! ## The lines that denote an event -/

/-- A line that is read as an event is well formed. -/
theorem Reads.wellFormed {line : List UInt8} {evt : NetworkEvent} (h : Reads line evt) :
    WellFormed line := by
  have haddress : ∀ {key : String} {ip : UInt32},
      (∃ text, HasField line key text ∧ IsAddress text ip) →
      ∀ text ≠ [], HasField line key text → ∃ ip, IsAddress text ip := by
    rintro key ip ⟨text, hfield, hip⟩ text' hne hfield'
    rw [← (jsonStringValue_eq_iff hne).mpr hfield', (jsonStringValue_eq_iff hip.ne_nil).mpr hfield]
    exact ⟨ip, hip⟩
  have hnumber : ∀ {key : String} {n bound : ℕ}, HasNumber line key n → n < bound →
      ∀ text ≠ [], HasField line key text → ∃ n < bound, IsDecimal text n := by
    rintro key n bound (⟨text, hfield, hn⟩ | ⟨hnone, -⟩) hlt text' hne hfield'
    · rw [← (jsonStringValue_eq_iff hne).mpr hfield', (jsonStringValue_eq_iff hn.ne_nil).mpr hfield]
      exact ⟨n, hlt, hn⟩
    · exact absurd ⟨text', hne, hfield'⟩ hnone
  refine ⟨?_, ?_⟩
  · simp only [List.forall_mem_cons]
    exact ⟨haddress h.srcIp, haddress h.dstIp, fun _ hkey => absurd hkey List.not_mem_nil⟩
  · simp only [List.forall_mem_cons]
    exact ⟨hnumber h.dstPort evt.dstPort.toNat_lt, hnumber h.pid evt.pid.toNat_lt,
      hnumber h.timestampNs evt.timestampNs.toNat_lt, fun _ hkey => absurd hkey List.not_mem_nil⟩

/-- **A well-formed line** with both addresses denotes an event. -/
theorem WellFormed.reads {line : List UInt8} (h : WellFormed line)
    (hobject : line.head? = some 123) (hsrc : HasText line "src_ip")
    (hdst : HasText line "dst_ip") : ∃ evt, Reads line evt := by
  have hnumber : ∀ {key : String} {bound : ℕ},
      (key, bound) ∈ [("dst_port", 2 ^ 16), ("pid", 2 ^ 32), ("timestamp_ns", 2 ^ 64)] →
      0 < bound → ∃ n < bound, HasNumber line key n := by
    intro key bound hmem hpos
    by_cases htext : HasText line key
    · obtain ⟨text, hne, hfield⟩ := htext
      obtain ⟨n, hn, hdecimal⟩ := h.number _ hmem text hne hfield
      exact ⟨n, hn, Or.inl ⟨text, hfield, hdecimal⟩⟩
    · exact ⟨0, hpos, Or.inr ⟨htext, rfl⟩⟩
  obtain ⟨src, hne, hsrc⟩ := hsrc
  obtain ⟨srcIp, hsrcIp⟩ := h.address _ (by simp) src hne hsrc
  obtain ⟨dst, hne, hdst⟩ := hdst
  obtain ⟨dstIp, hdstIp⟩ := h.address _ (by simp) dst hne hdst
  obtain ⟨port, hport, hdstPort⟩ := hnumber (.head _) (by decide)
  obtain ⟨pid, hpid, hpidField⟩ := hnumber (.tail _ (.head _)) (by decide)
  obtain ⟨ts, hts, htsField⟩ := hnumber (.tail _ (.tail _ (.head _))) (by decide)
  refine ⟨⟨srcIp, dstIp, UInt16.ofNat port, UInt32.ofNat pid, UInt64.ofNat ts⟩, hobject,
    ⟨src, hsrc, hsrcIp⟩, ⟨dst, hdst, hdstIp⟩, ?_, ?_, ?_⟩
  · rwa [UInt16.toNat_ofNat_of_lt' hport]
  · rwa [UInt32.toNat_ofNat_of_lt' hpid]
  · rwa [UInt64.toNat_ofNat_of_lt' hts]

/-- A sequence that cannot succeed after its first part. -/
theorem bind_ne_ok {α β : Type} {x : Except Exception α} {f : α → Except Exception β} {r : β}
    (h : ∀ a, f a ≠ .ok r) : (x >>= f) ≠ .ok r := by
  cases x with
  | error e => exact fun heq => by cases heq
  | ok a => exact h a

/-- A line that is no object, or lacks an address, is rejected; no other line is. -/
theorem parseEvent_eq_none_iff {line : List UInt8} :
    parseEvent line = .ok none ↔
      ¬ (line.head? = some 123 ∧ HasText line "src_ip" ∧ HasText line "dst_ip") := by
  rw [hasText_iff, hasText_iff]
  unfold parseEvent
  dsimp only
  by_cases hobject : line.head? = some 123
  · rw [if_neg (not_not.mpr hobject)]
    by_cases hmissing : jsonStringValue line "src_ip" = [] ∨ jsonStringValue line "dst_ip" = []
    · rw [if_pos hmissing]
      refine iff_of_true rfl ?_
      rintro ⟨-, hsrc, hdst⟩
      rcases hmissing with h | h
      · exact hsrc h
      · exact hdst h
    · rw [if_neg hmissing]
      obtain ⟨hsrc, hdst⟩ := not_or.mp hmissing
      refine iff_of_false ?_ (not_not.mpr ⟨hobject, hsrc, hdst⟩)
      refine bind_ne_ok fun srcIp => bind_ne_ok fun dstIp => bind_ne_ok fun dstPort =>
        bind_ne_ok fun pid => bind_ne_ok fun timestampNs => ?_
      intro heq
      cases heq
  · rw [if_pos hobject]
    exact iff_of_true rfl fun h => hobject h.1

/-- What is parsed from a well-formed line is what it reads. -/
theorem WellFormed.reads_of_parseEvent {line : List UInt8} (h : WellFormed line)
    (hobject : line.head? = some 123) (hsrc : HasText line "src_ip") (hdst : HasText line "dst_ip")
    {evt : NetworkEvent} (hparse : parseEvent line = .ok (some evt)) : Reads line evt := by
  obtain ⟨evt', hevt⟩ := h.reads hobject hsrc hdst
  obtain rfl : evt' = evt :=
    Option.some.inj (Except.ok.inj ((parseEvent_of_reads hevt).symm.trans hparse))
  exact hevt

/-- A line is read faithfully when it is well formed, or no event at all. -/
theorem faithful_iff_wellFormed {line : List UInt8} :
    Faithful line ↔ (line.head? = some 123 → HasText line "src_ip" → HasText line "dst_ip" →
      WellFormed line) := by
  constructor
  · intro h hobject hsrc hdst
    by_contra hill
    have hnone := h.rejects fun evt hevt => hill hevt.wellFormed
    exact parseEvent_eq_none_iff.mp hnone ⟨hobject, hsrc, hdst⟩
  · intro h
    -- a line without an object or an address is no event, and `parse_event` returns none
    by_cases hboth : line.head? = some 123 ∧ HasText line "src_ip" ∧ HasText line "dst_ip"
    · obtain ⟨hobject, hsrc, hdst⟩ := hboth
      have hwell := h hobject hsrc hdst
      obtain ⟨evt, hevt⟩ := hwell.reads hobject hsrc hdst
      exact ⟨fun evt' => ⟨hwell.reads_of_parseEvent hobject hsrc hdst, parseEvent_of_reads⟩,
        fun hno => absurd hevt (hno evt)⟩
    · have hnone := parseEvent_eq_none_iff.mpr hboth
      refine ⟨fun evt => iff_of_false (fun hparse => ?_) fun hevt => ?_, fun _ => hnone⟩
      · cases hnone.symm.trans hparse
      · cases hnone.symm.trans (parseEvent_of_reads hevt)

/-- **The lines on which `parse_event` is right**, and the lines on which it is right
or throws. -/
theorem faithful_iff (line : List UInt8) :
    (Faithful line ↔ (line.head? = some 123 → HasText line "src_ip" → HasText line "dst_ip" →
      WellFormed line)) ∧
    ((∀ evt, parseEvent line = .ok (some evt) → Reads line evt) ↔
      (line.head? = some 123 → HasText line "src_ip" → HasText line "dst_ip" →
        Convertible line → WellFormed line)) := by
  refine ⟨faithful_iff_wellFormed, ?_⟩
  constructor
  · intro h hobject hsrc hdst hconv
    obtain ⟨r, hr⟩ := (parseEvent_returns_iff line).mpr fun _ _ _ => hconv
    cases r with
    | none => exact absurd ⟨hobject, hsrc, hdst⟩ (parseEvent_eq_none_iff.mp hr)
    | some evt => exact (h evt hr).wellFormed
  · intro h evt hparse
    obtain ⟨hobject, hsrc, hdst⟩ : line.head? = some 123 ∧ HasText line "src_ip" ∧
        HasText line "dst_ip" := by
      by_contra hnot
      cases (parseEvent_eq_none_iff.mpr hnot).symm.trans hparse
    have hconv := (parseEvent_returns_iff line).mp ⟨_, hparse⟩ hobject hsrc hdst
    exact (h hobject hsrc hdst hconv).reads_of_parseEvent hobject hsrc hdst hparse

/-- An octet that does not fit: the event is attributed to the host `0.0.0.1`. -/
theorem not_faithful_octet :
    parseEvent (bytes "\x7b\"src_ip\":\"256.0.0.1\",\"dst_ip\":\"10.0.0.1\"\x7d")
        = .ok (some ⟨1, 167772161, 0, 0, 0⟩) ∧
      ¬ Faithful (bytes "\x7b\"src_ip\":\"256.0.0.1\",\"dst_ip\":\"10.0.0.1\"\x7d") := by
  have hparse : parseEvent (bytes "\x7b\"src_ip\":\"256.0.0.1\",\"dst_ip\":\"10.0.0.1\"\x7d")
      = .ok (some ⟨1, 167772161, 0, 0, 0⟩) := by
    decide
  refine ⟨hparse, fun h => ?_⟩
  obtain ⟨text, hfield, hip⟩ := ((h.accepts _).mp hparse).srcIp
  have htext := (jsonStringValue_eq_iff hip.ne_nil).mpr hfield
  obtain ⟨a, b, c, d, parts, rfl, hparts, -⟩ := hip
  have hpieces := pieces_of_forall₂ hparts
  rw [← htext] at hpieces
  have hread : pieces 46 (jsonStringValue
      (bytes "\x7b\"src_ip\":\"256.0.0.1\",\"dst_ip\":\"10.0.0.1\"\x7d") "src_ip")
      = [[50, 53, 54], [48], [48], [49]] := by
    decide
  rw [hpieces.symm.trans hread] at hparts
  cases hparts with
  | cons ha hparts =>
    have hlarge : a.toNat = 256 := ha.unique (by decide)
    exact absurd a.toNat_lt (by omega)

end Engine
