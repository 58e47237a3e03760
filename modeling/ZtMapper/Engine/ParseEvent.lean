/-
# `parse_event`

The event parser of the engine on byte strings, with the exceptions of
`std::stoi` and its relatives.  `parseEvent_returns_iff` says on which lines no
exception escapes, and `reaches_lines_iff` what an exception does to a run of the
event loop, which has no handler.
-/
import ZtMapper.Engine.Runs
import ZtMapper.Lib.Fallible
import ZtMapper.Lib.Scan

open Fallible Loop Pipeline Scan

namespace Engine

/-- The exceptions of the standard conversions, with their texts. -/
inductive Exception where
  | invalidArgument (what : String)
  | outOfRange (what : String)
  deriving DecidableEq, Repr

/-- The bytes of a string literal. -/
def bytes (s : String) : List UInt8 := s.toUTF8.data.toList

/-- The string of the bytes, one character for each. -/
def text (s : List UInt8) : String := String.ofList (s.map fun b => Char.ofNat b.toNat)

/-! ## The conversions of the standard library -/

/-- `std::stoi`, whose result is an `int`. -/
def stoi (s : List UInt8) : Except Exception ℤ :=
  match strtol s with
  | none => .error (.invalidArgument "stoi")
  | some (neg, n) =>
    let v : ℤ := if neg then -n else n
    if -intMax - 1 ≤ v ∧ v ≤ intMax then .ok v else .error (.outOfRange "stoi")

/-- The conversions to 64 unsigned bits, in which a minus sign negates. -/
def stou (what : String) (s : List UInt8) : Except Exception UInt64 :=
  match strtol s with
  | none => .error (.invalidArgument what)
  | some (neg, n) =>
    if n < 2 ^ 64 then .ok (if neg then -UInt64.ofNat n else UInt64.ofNat n)
    else .error (.outOfRange what)

/-- `std::stoul`, for an `unsigned long` of 64 bits. -/
def stoul : List UInt8 → Except Exception UInt64 := stou "stoul"

def stoull : List UInt8 → Except Exception UInt64 := stou "stoull"

/-! ## `parse_event` -/

def isBlank (b : UInt8) : Bool := b = 32 || b = 9

/-- The bytes that end a numeric value: `,`, `}`, a blank, and a newline. -/
def endsValue (b : UInt8) : Bool := b = 44 || b = 125 || b = 32 || b = 9 || b = 10

/-- The text of a value: a string up to the closing quote, or what precedes the
end of a number. -/
def valueText : List UInt8 → List UInt8
  | [] => []
  | b :: s =>
    if b = 34 then
      if 34 ∈ s then s.takeWhile fun b => b ≠ 34 else []
    else (b :: s).takeWhile fun b => !endsValue b

/-- The key in quotes. -/
def quoted (key : String) : List UInt8 := 34 :: bytes key ++ [34]

def jsonStringValue (json : List UInt8) (key : String) : List UInt8 :=
  match afterFirst (quoted key) json with
  | none => []
  | some s =>
    match afterFirst [58] s with
    | none => []
    | some s => valueText (s.dropWhile isBlank)

def ipFromOctets (a b c d : UInt8) : UInt32 :=
  (a.toUInt32 <<< 24) ||| (b.toUInt32 <<< 16) ||| (c.toUInt32 <<< 8) ||| d.toUInt32

/-- The first four pieces between dots; the octets that are missing are 0. -/
def parseIp (ipStr : List UInt8) : Except Exception UInt32 := do
  let octets ← ((pieces 46 ipStr).take 4).mapM fun part => do return UInt8.ofInt (← stoi part)
  return ipFromOctets (octets.getD 0 0) (octets.getD 1 0) (octets.getD 2 0) (octets.getD 3 0)

/-- A field that is missing or empty is 0. -/
def orZero (convert : List UInt8 → Except Exception UInt64) (text : List UInt8) :
    Except Exception UInt64 :=
  if text = [] then .ok 0 else convert text

/-- `none` is the result `false`, and an event the result `true`. -/
def parseEvent (line : List UInt8) : Except Exception (Option NetworkEvent) := do
  if line.head? ≠ some 123 then return none
  let src := jsonStringValue line "src_ip"
  let dst := jsonStringValue line "dst_ip"
  let port := jsonStringValue line "dst_port"
  let pid := jsonStringValue line "pid"
  let ts := jsonStringValue line "timestamp_ns"
  if src = [] ∨ dst = [] then return none
  let srcIp ← parseIp src
  let dstIp ← parseIp dst
  let dstPort ← orZero stoul port
  let pid ← orZero stoul pid
  let timestampNs ← orZero stoull ts
  return some ⟨srcIp, dstIp, dstPort.toUInt16, pid.toUInt32, timestampNs⟩

/-- The loop body of `main` on one line: nothing catches an exception. -/
def lineStep (eng : Engine) (env : Env) (fuel : ℕ) (r : State × List Output) (line : List UInt8) :
    Option (State × List Output) :=
  match parseEvent line with
  | .error _ => none
  | .ok none => some r
  | .ok (some evt) => eng.runStep env fuel r evt

/-- The set-up and the loop over the lines of the input. -/
def runLines (env : Env) (cfg : PipelineConfig) (lines : List (List UInt8)) (fuel : ℕ) :
    Option (State × List Output) := do
  let (eng, s) ← setup env cfg
  lines.foldlM (eng.lineStep env fuel) (s, [])

/-! ## The texts of the fields -/

/-- The text of a value starts with a string in quotes, or is the number at the
front. -/
def IsValueText (value text : List UInt8) : Prop :=
  (∃ tail, value = 34 :: (text ++ 34 :: tail) ∧ 34 ∉ text) ∨
    (value.head? ≠ some 34 ∧ ∃ tail, value = text ++ tail ∧ (∀ b ∈ text, endsValue b = false) ∧
      ∀ b ∈ tail.head?, endsValue b = true)

/-- The line gives the key the text: after the first occurrence of the key in
quotes, the next colon, and blanks. -/
def HasField (line : List UInt8) (key : String) (text : List UInt8) : Prop :=
  ∃ before after mid rest blanks value, FirstAt (quoted key) line before after ∧
    FirstAt [58] after mid rest ∧ rest = blanks ++ value ∧ (∀ b ∈ blanks, isBlank b = true) ∧
    (∀ b ∈ value.head?, isBlank b = false) ∧ IsValueText value text

theorem valueText_eq_iff {value text : List UInt8} (hne : text ≠ []) :
    valueText value = text ↔ IsValueText value text := by
  cases value with
  | nil =>
    refine iff_of_false (fun h => hne h.symm) ?_
    rintro (⟨tail, heq, -⟩ | ⟨-, tail, heq, -⟩)
    · exact absurd heq (by simp)
    · exact hne (List.append_eq_nil_iff.mp heq.symm).1
  | cons b s =>
    rw [valueText, IsValueText]
    -- a value that begins with a quote ends before the next one, another value before a delimiter
    by_cases hquote : b = 34
    · subst hquote
      rw [if_pos rfl]
      by_cases hclosed : 34 ∈ s
      · rw [if_pos hclosed, takeWhile_eq_iff]
        constructor
        · rintro ⟨rest, rfl, hall, hhead⟩
          have hnot : (34 : UInt8) ∉ text := fun h => by simpa using hall 34 h
          cases rest with
          | nil => exact absurd (by simpa using hclosed) hnot
          | cons c rest =>
            obtain rfl : c = 34 := by simpa using hhead c rfl
            exact Or.inl ⟨rest, rfl, hnot⟩
        · rintro (⟨tail, heq, hnot⟩ | ⟨hhead, -⟩)
          · obtain ⟨-, rfl⟩ := List.cons.inj heq
            refine ⟨34 :: tail, rfl, fun c hc => ?_, ?_⟩
            · exact decide_eq_true fun h => hnot (h ▸ hc)
            · rintro c hc
              obtain rfl : 34 = c := Option.some.inj hc
              rfl
          · exact absurd rfl hhead
      · rw [if_neg hclosed]
        refine iff_of_false (fun h => hne h.symm) ?_
        rintro (⟨tail, heq, -⟩ | ⟨hhead, -⟩)
        · obtain ⟨-, rfl⟩ := List.cons.inj heq
          exact hclosed (by simp)
        · exact hhead rfl
    · rw [if_neg hquote, takeWhile_eq_iff]
      simp only [Bool.not_eq_true', Bool.not_eq_false']
      constructor
      · exact fun h => Or.inr ⟨by simpa using hquote, h⟩
      · rintro (⟨tail, heq, -⟩ | ⟨-, h⟩)
        · exact absurd (List.cons.inj heq).1 hquote
        · exact h

/-- **The field of a line**, as far as it has a text. -/
theorem jsonStringValue_eq_iff {line : List UInt8} {key : String} {text : List UInt8}
    (hne : text ≠ []) : jsonStringValue line key = text ↔ HasField line key text := by
  unfold jsonStringValue
  constructor
  · intro h
    cases hkey : afterFirst (quoted key) line with
    | none => rw [hkey] at h; exact absurd h.symm hne
    | some after =>
      cases hcolon : afterFirst [58] after with
      | none => simp only [hkey, hcolon] at h; exact absurd h.symm hne
      | some rest =>
        simp only [hkey, hcolon] at h
        obtain ⟨before, hbefore⟩ := afterFirst_eq_some_iff.mp hkey
        obtain ⟨mid, hmid⟩ := afterFirst_eq_some_iff.mp hcolon
        obtain ⟨blanks, hrest, hblanks, hhead⟩ :=
          dropWhile_eq_iff.mp (rfl : rest.dropWhile isBlank = _)
        exact ⟨before, after, mid, rest, blanks, _, hbefore, hmid, hrest, hblanks, hhead,
          (valueText_eq_iff hne).mp h⟩
  · rintro ⟨before, after, mid, rest, blanks, value, hbefore, hmid, hrest, hblanks, hhead, hvalue⟩
    rw [afterFirst_eq_some_iff.mpr ⟨before, hbefore⟩]
    dsimp only
    rw [afterFirst_eq_some_iff.mpr ⟨mid, hmid⟩]
    dsimp only
    rw [dropWhile_eq_iff.mpr ⟨blanks, hrest, hblanks, hhead⟩]
    exact (valueText_eq_iff hne).mpr hvalue

/-! ## The lines on which nothing is thrown -/

/-- The text starts with a decimal number in the range of `int`. -/
def IsInt (s : List UInt8) : Prop :=
  ∃ neg n, IsNumeral s neg n ∧ (n < 2 ^ 31 ∨ (neg = true ∧ n = 2 ^ 31))

/-- The text starts with a decimal number of at most 64 bits, perhaps negated. -/
def IsUnsigned (s : List UInt8) : Prop := ∃ neg n, IsNumeral s neg n ∧ n < 2 ^ 64

/-- The fields that are converted are numbers: the first four pieces of the two
addresses, and the other fields unless they are missing or empty. -/
structure Convertible (line : List UInt8) : Prop where
  address : ∀ key ∈ ["src_ip", "dst_ip"], ∀ text ≠ [], HasField line key text →
    ∀ part ∈ (pieces 46 text).take 4, IsInt part
  number : ∀ key ∈ ["dst_port", "pid", "timestamp_ns"], ∀ text ≠ [], HasField line key text →
    IsUnsigned text

/-- A conversion that checks the range of what `strtol` reads. -/
theorem exists_check_ok {α : Type} {s : List UInt8} {p : Bool → ℕ → Prop}
    [∀ neg n, Decidable (p neg n)] {f : Bool → ℕ → α} {e e' : Exception} :
    (∃ v, (match strtol s with
        | none => .error e
        | some (neg, n) => if p neg n then .ok (f neg n) else .error e' : Except Exception α) = .ok v) ↔
      ∃ neg n, IsNumeral s neg n ∧ p neg n := by
  simp only [← strtol_eq_some_iff]
  cases hread : strtol s with
  | none => exact iff_of_false (fun ⟨v, hv⟩ => by cases hv) fun ⟨neg, n, h, _⟩ => by cases h
  | some r =>
    obtain ⟨neg, n⟩ := r
    by_cases h : p neg n
    · exact iff_of_true ⟨_, if_pos h⟩ ⟨neg, n, rfl, h⟩
    · refine iff_of_false (fun ⟨v, hv⟩ => ?_) ?_
      · have hv' : (if p neg n then .ok (f neg n) else .error e' : Except Exception α) = .ok v := hv
        rw [if_neg h] at hv'
        cases hv'
      · rintro ⟨neg', n', heq, hp⟩
        obtain ⟨rfl, rfl⟩ := Prod.mk.inj (Option.some.inj heq)
        exact h hp

theorem stoi_ok_iff {s : List UInt8} : (∃ v, stoi s = .ok v) ↔ IsInt s := by
  have hrange : ∀ (neg : Bool) (n : ℕ), (-intMax - 1 ≤ (if neg then -(n : ℤ) else n) ∧
      (if neg then -(n : ℤ) else n) ≤ intMax) ↔ n < 2 ^ 31 ∨ (neg = true ∧ n = 2 ^ 31) := by
    intro neg n
    unfold intMax
    cases neg with
    | false => simp; omega
    | true => simp; omega
  unfold stoi IsInt
  rw [exists_check_ok (p := fun neg n => -intMax - 1 ≤ (if neg then -(n : ℤ) else n) ∧
    (if neg then -(n : ℤ) else n) ≤ intMax)]
  simp only [hrange]

theorem stou_ok_iff {what : String} {s : List UInt8} :
    (∃ v, stou what s = .ok v) ↔ IsUnsigned s :=
  exists_check_ok (p := fun _ n => n < 2 ^ 64)

theorem parseIp_ok_iff {s : List UInt8} :
    (∃ ip, parseIp s = .ok ip) ↔ ∀ part ∈ (pieces 46 s).take 4, IsInt part := by
  unfold parseIp
  rw [exists_bind_ok_iff]
  constructor
  · rintro ⟨octets, h, -⟩ part hpart
    obtain ⟨b, hb⟩ := exists_mapM_ok_iff.mp ⟨octets, h⟩ part hpart
    obtain ⟨v, hv, -⟩ := exists_bind_ok_iff.mp ⟨b, hb⟩
    exact stoi_ok_iff.mp ⟨v, hv⟩
  · intro hall
    obtain ⟨octets, h⟩ := exists_mapM_ok_iff.mpr fun part hpart => by
      obtain ⟨v, hv⟩ := stoi_ok_iff.mpr (hall part hpart)
      exact exists_bind_ok_iff.mpr ⟨v, hv, UInt8.ofInt v, rfl⟩
    exact ⟨octets, h, _, rfl⟩

/-- An optional number. -/
theorem orZero_ok_iff (what : String) {s : List UInt8} :
    (∃ v, orZero (stou what) s = .ok v) ↔ (s ≠ [] → IsUnsigned s) := by
  unfold orZero
  split_ifs with h
  · exact iff_of_true ⟨0, rfl⟩ fun hne => absurd h hne
  · rw [stou_ok_iff]
    exact ⟨fun hu _ => hu, fun hu => hu h⟩

/-- A condition on the text of a field. -/
theorem forall_hasField_iff {line : List UInt8} {key : String} {P : List UInt8 → Prop} :
    (∀ text ≠ [], HasField line key text → P text) ↔
      (jsonStringValue line key ≠ [] → P (jsonStringValue line key)) := by
  constructor
  · exact fun h hne => h _ hne ((jsonStringValue_eq_iff hne).mp rfl)
  · intro h text hne hfield
    obtain rfl := (jsonStringValue_eq_iff hne).mpr hfield
    exact h hne

theorem exists_hasField_iff {line : List UInt8} {key : String} :
    (∃ text ≠ [], HasField line key text) ↔ jsonStringValue line key ≠ [] := by
  constructor
  · rintro ⟨text, hne, hfield⟩
    rwa [(jsonStringValue_eq_iff hne).mpr hfield]
  · exact fun hne => ⟨_, hne, (jsonStringValue_eq_iff hne).mp rfl⟩

theorem convertible_iff {line : List UInt8} :
    Convertible line ↔
      (jsonStringValue line "src_ip" ≠ [] →
        ∀ part ∈ (pieces 46 (jsonStringValue line "src_ip")).take 4, IsInt part) ∧
      (jsonStringValue line "dst_ip" ≠ [] →
        ∀ part ∈ (pieces 46 (jsonStringValue line "dst_ip")).take 4, IsInt part) ∧
      (jsonStringValue line "dst_port" ≠ [] → IsUnsigned (jsonStringValue line "dst_port")) ∧
      (jsonStringValue line "pid" ≠ [] → IsUnsigned (jsonStringValue line "pid")) ∧
      (jsonStringValue line "timestamp_ns" ≠ [] →
        IsUnsigned (jsonStringValue line "timestamp_ns")) := by
  rw [← forall_hasField_iff (P := fun text => ∀ part ∈ (pieces 46 text).take 4, IsInt part),
    ← forall_hasField_iff (P := fun text => ∀ part ∈ (pieces 46 text).take 4, IsInt part),
    ← forall_hasField_iff (P := IsUnsigned), ← forall_hasField_iff (P := IsUnsigned),
    ← forall_hasField_iff (P := IsUnsigned)]
  constructor
  · exact fun h => ⟨h.address _ (by simp), h.address _ (by simp), h.number _ (by simp),
      h.number _ (by simp), h.number _ (by simp)⟩
  · rintro ⟨hsrc, hdst, hport, hpid, hts⟩
    exact ⟨by simpa using ⟨hsrc, hdst⟩, by simpa using ⟨hport, hpid, hts⟩⟩

/-- The five conversions, in the order of the source. -/
theorem exists_conversions_iff {src dst port pid ts : List UInt8} :
    (∃ r, (do
        let srcIp ← parseIp src
        let dstIp ← parseIp dst
        let dstPort ← orZero stoul port
        let pid ← orZero stoul pid
        let timestampNs ← orZero stoull ts
        return some (⟨srcIp, dstIp, dstPort.toUInt16, pid.toUInt32, timestampNs⟩ : NetworkEvent)
        : Except Exception (Option NetworkEvent)) = .ok r) ↔
      (∀ part ∈ (pieces 46 src).take 4, IsInt part) ∧ (∀ part ∈ (pieces 46 dst).take 4, IsInt part) ∧
      (port ≠ [] → IsUnsigned port) ∧ (pid ≠ [] → IsUnsigned pid) ∧ (ts ≠ [] → IsUnsigned ts) := by
  rw [← parseIp_ok_iff, ← parseIp_ok_iff, ← orZero_ok_iff "stoul",
    ← orZero_ok_iff "stoul", ← orZero_ok_iff "stoull"]
  simp only [exists_bind_ok_iff]
  constructor
  · rintro ⟨srcIp, hsrc, dstIp, hdst, dstPort, hport, pid', hpid, timestampNs, hts, -⟩
    exact ⟨⟨srcIp, hsrc⟩, ⟨dstIp, hdst⟩, ⟨dstPort, hport⟩, ⟨pid', hpid⟩, ⟨timestampNs, hts⟩⟩
  · rintro ⟨⟨srcIp, hsrc⟩, ⟨dstIp, hdst⟩, ⟨dstPort, hport⟩, ⟨pid', hpid⟩, ⟨timestampNs, hts⟩⟩
    exact ⟨srcIp, hsrc, dstIp, hdst, dstPort, hport, pid', hpid, timestampNs, hts, _, rfl⟩

/-- **Where `parse_event` returns**, `true` or `false`: on the lines that are not an
object, lack one of the two addresses, or whose fields can be converted. -/
theorem parseEvent_returns_iff (line : List UInt8) :
    (∃ r, parseEvent line = .ok r) ↔
      (line.head? = some 123 → (∃ text ≠ [], HasField line "src_ip" text) →
        (∃ text ≠ [], HasField line "dst_ip" text) → Convertible line) := by
  rw [exists_hasField_iff, exists_hasField_iff, convertible_iff]
  unfold parseEvent
  dsimp only
  by_cases hhead : line.head? = some 123
  · rw [if_neg (not_not.mpr hhead)]
    by_cases hmissing : jsonStringValue line "src_ip" = [] ∨ jsonStringValue line "dst_ip" = []
    · rw [if_pos hmissing]
      refine iff_of_true ⟨none, rfl⟩ fun _ hsrc hdst => ?_
      rcases hmissing with h | h
      · exact absurd h hsrc
      · exact absurd h hdst
    · rw [if_neg hmissing, exists_conversions_iff]
      obtain ⟨hsrc, hdst⟩ := not_or.mp hmissing
      constructor
      · rintro ⟨hsrcs, hdsts, hrest⟩ - - -
        exact ⟨fun _ => hsrcs, fun _ => hdsts, hrest⟩
      · intro h
        obtain ⟨hsrcs, hdsts, hrest⟩ := h hhead hsrc hdst
        exact ⟨hsrcs hsrc, hdsts hdst, hrest⟩
  · rw [if_pos hhead]
    exact iff_of_true ⟨none, rfl⟩ fun h => absurd h hhead

/-- A line with addresses that are not numbers. -/
theorem not_parseEvent_returns :
    ¬ ∃ r, parseEvent (bytes "\x7b\"src_ip\":\"a\",\"dst_ip\":\"b\"\x7d") = .ok r := by
  have herror : parseEvent (bytes "\x7b\"src_ip\":\"a\",\"dst_ip\":\"b\"\x7d")
      = .error (.invalidArgument "stoi") := by
    decide
  rintro ⟨r, hr⟩
  rw [herror] at hr
  cases hr

/-! ## Runs over lines -/

/-- The events of the lines, where none throws. -/
def parseLines : List (List UInt8) → Option (List NetworkEvent)
  | [] => some []
  | line :: lines =>
    match parseEvent line with
    | .error _ => none
    | .ok none => parseLines lines
    | .ok (some evt) => (parseLines lines).map (evt :: ·)

theorem foldlM_lineStep (eng : Engine) (env : Env) (fuel : ℕ) (lines : List (List UInt8))
    (r : State × List Output) :
    lines.foldlM (eng.lineStep env fuel) r
      = (parseLines lines).bind fun events => events.foldlM (eng.runStep env fuel) r := by
  induction lines generalizing r with
  | nil => rfl
  | cons line lines ih =>
    rw [List.foldlM_cons, lineStep, parseLines]
    cases hparse : parseEvent line with
    | error e => rfl
    | ok parsed =>
      cases parsed with
      | none => exact ih r
      | some evt =>
        dsimp only
        cases hlines : parseLines lines with
        | none =>
          refine Option.bind_eq_none_iff.mpr fun r' _ => ?_
          rw [ih r', hlines]
          rfl
        | some events =>
          have ih' : ∀ r', lines.foldlM (eng.lineStep env fuel) r'
              = events.foldlM (eng.runStep env fuel) r' := fun r' => by
            rw [ih r', hlines]
            rfl
          simp only [ih', Option.map_some, Option.bind_some, List.foldlM_cons]

/-- **A run over lines** returns exactly when every line can be parsed and the run
over their events returns. -/
theorem reaches_lines_iff {env : Env} {cfg : PipelineConfig} {lines : List (List UInt8)} {s : State}
    {outs : List Output} :
    Returns (runLines env cfg lines) (s, outs) ↔
      ∃ events, parseLines lines = some events ∧ Reaches env cfg events s outs := by
  have hrun : ∀ fuel, runLines env cfg lines fuel
      = (parseLines lines).bind fun events => run env cfg events fuel := by
    intro fuel
    unfold runLines run
    cases setup env cfg with
    | none => cases parseLines lines <;> rfl
    | some r => exact foldlM_lineStep r.1 env fuel lines (r.2, [])
  have hfun : runLines env cfg lines
      = fun fuel => (parseLines lines).bind fun events => run env cfg events fuel := funext hrun
  rw [hfun]
  cases hlines : parseLines lines with
  | none =>
    refine iff_of_false (fun ⟨n, hn⟩ => ?_) fun ⟨events, h, _⟩ => by cases h
    exact absurd (hn n le_rfl) (by simp)
  | some events =>
    constructor
    · exact fun h => ⟨events, rfl, h⟩
    · rintro ⟨events', h, hreach⟩
      obtain rfl := Option.some.inj h
      exact hreach

/-- No line of a run that returns has thrown. -/
theorem parseLines_isSome_iff {lines : List (List UInt8)} :
    (∃ events, parseLines lines = some events) ↔
      ∀ line ∈ lines, ∃ r, parseEvent line = .ok r := by
  induction lines with
  | nil => exact iff_of_true ⟨[], rfl⟩ fun line h => absurd h List.not_mem_nil
  | cons line lines ih =>
    rw [parseLines, List.forall_mem_cons, ← ih]
    cases hparse : parseEvent line with
    | error e =>
      refine iff_of_false (fun ⟨_, h⟩ => by cases h) fun h => ?_
      obtain ⟨r, hr⟩ := h.1
      cases hr
    | ok parsed =>
      cases parsed with
      | none => exact ⟨fun h => ⟨⟨_, rfl⟩, h⟩, fun h => h.2⟩
      | some evt =>
        constructor
        · rintro ⟨events, h⟩
          obtain ⟨rest, hrest, -⟩ := Option.map_eq_some_iff.mp h
          exact ⟨⟨_, rfl⟩, rest, hrest⟩
        · rintro ⟨-, rest, hrest⟩
          exact ⟨evt :: rest, by simp [hrest]⟩

end Engine
