/-
# `parse_cidr`

The CIDR parser of the configuration loader on byte strings.  It writes its two
output parameters, the length before it has looked at the address.
`strict_iff` says which texts it treats as the format `A.B.C.D/N` demands.
-/
import ZtMapper.Engine.WellFormed

open Engine Scan

namespace ConfigLoader

/-- The loop over the parts of the address; `none` is a value that is no octet. -/
def parseOctets : List (List UInt8) → Except Exception (Option (List UInt8))
  | [] => .ok (some [])
  | part :: parts => do
    let val ← stoi part
    if val < 0 ∨ 255 < val then return none
    else return (← parseOctets parts).map (UInt8.ofInt val :: ·)

/-- The result, and the values of the parameters `prefix` and `prefix_len` after the
call. -/
def parseCidr (cidr : List UInt8) (pfx : UInt32) (prefixLen : UInt8) :
    Except Exception Bool × UInt32 × UInt8 :=
  match afterFirst [47] cidr with
  | none => (.ok false, pfx, prefixLen)
  | some lenStr =>
    match stoi lenStr with
    | .error e => (.error e, pfx, prefixLen)
    | .ok len =>
      if len < 0 ∨ 32 < len then (.ok false, pfx, prefixLen)
      else
        let prefixLen := UInt8.ofInt len
        let ipStr := cidr.takeWhile fun b => b ≠ 47
        match parseOctets ((pieces 46 ipStr).take 4) with
        | .error e => (.error e, pfx, prefixLen)
        | .ok (some [a, b, c, d]) => (.ok true, ipFromOctets a b c d, prefixLen)
        | .ok _ => (.ok false, pfx, prefixLen)

/-! ## The format -/

/-- The text is an address, a slash and a length. -/
def IsCidr (s : List UInt8) (pfx : UInt32) (prefixLen : UInt8) : Prop :=
  ∃ address length, s = address ++ 47 :: length ∧ IsAddress address pfx ∧
    IsDecimal length prefixLen.toNat ∧ prefixLen ≤ 32

/-- The text is taken as the format demands, whatever the parameters were. -/
structure Strict (s : List UInt8) : Prop where
  accepts : ∀ pfx prefixLen, IsCidr s pfx prefixLen →
    ∀ pfx₀ prefixLen₀, parseCidr s pfx₀ prefixLen₀ = (.ok true, pfx, prefixLen)
  rejects : (∀ pfx prefixLen, ¬ IsCidr s pfx prefixLen) →
    ∀ pfx₀ prefixLen₀, parseCidr s pfx₀ prefixLen₀ = (.ok false, pfx₀, prefixLen₀)

/-- What follows the first slash starts with an `int` that is no length. -/
def BadLength (s : List UInt8) : Prop :=
  ∃ before rest neg n, FirstAt [47] s before rest ∧ IsNumeral rest neg n ∧
    if neg then 0 < n ∧ n ≤ 2 ^ 31 else 32 < n ∧ n < 2 ^ 31

/-! ## Valid texts -/

/-- The first slash of a text. -/
theorem firstAt_slash {before rest : List UInt8} (h : 47 ∉ before) :
    FirstAt [47] (before ++ 47 :: rest) before rest := by
  refine ⟨by simp, fun before' after' heq => ?_⟩
  by_contra hlt
  rw [List.singleton_append] at heq
  obtain ⟨t, rfl⟩ : before' <+: before :=
    List.prefix_of_prefix_length_le ⟨_, heq.symm⟩ ⟨_, rfl⟩ (by omega)
  cases t with
  | nil => exact hlt (by simp)
  | cons b t =>
    rw [List.append_assoc, List.append_cancel_left_eq, List.cons_append] at heq
    exact h (by simp [(List.cons.inj heq).1])

theorem parseOctets_of_forall₂ {parts : List (List UInt8)} {octets : List UInt8}
    (h : List.Forall₂ (fun part (octet : UInt8) => IsDecimal part octet.toNat) parts octets) :
    parseOctets parts = .ok (some octets) := by
  induction h with
  | nil => rfl
  | @cons part octet parts octets hpart _ ih =>
    have hlt := octet.toNat_lt
    rw [parseOctets, stoi_of_isDecimal hpart (lt_trans hlt (by decide)), ih]
    show (if (octet.toNat : ℤ) < 0 ∨ 255 < (octet.toNat : ℤ) then _ else _) = _
    rw [if_neg (by omega)]
    show Except.ok (some (UInt8.ofInt octet.toNat :: octets)) = _
    rw [ofInt_toNat]

/-- A text in the format is made of digits, dots and a slash. -/
theorem IsCidr.notMem {s : List UInt8} {pfx : UInt32} {prefixLen : UInt8}
    (h : IsCidr s pfx prefixLen) {b : UInt8} (hdigit : isDigit b = false) (hdot : b ≠ 46)
    (hslash : b ≠ 47) : b ∉ s := by
  obtain ⟨address, length, rfl, haddress, hlength, -⟩ := h
  rw [List.mem_append, List.mem_cons, not_or, not_or]
  exact ⟨haddress.notMem hdigit hdot, hslash, hlength.notMem hdigit⟩

/-- **A text in the format** is accepted, with its address and length. -/
theorem parseCidr_of_isCidr {s : List UInt8} {pfx : UInt32} {prefixLen : UInt8}
    (h : IsCidr s pfx prefixLen) (pfx₀ : UInt32) (prefixLen₀ : UInt8) :
    parseCidr s pfx₀ prefixLen₀ = (.ok true, pfx, prefixLen) := by
  obtain ⟨address, length, rfl, haddress, hlength, hle⟩ := h
  have hslash : 47 ∉ address := haddress.notMem (by decide) (by decide)
  have hafter : afterFirst [47] (address ++ 47 :: length) = some length :=
    afterFirst_eq_some_iff.mpr ⟨address, firstAt_slash hslash⟩
  have htake : (address ++ 47 :: length).takeWhile (fun b => b ≠ 47) = address :=
    takeWhile_eq_iff.mpr ⟨47 :: length, rfl, fun b hb => decide_eq_true fun heq => hslash (heq ▸ hb),
      by simp⟩
  have hrange : ¬ ((prefixLen.toNat : ℤ) < 0 ∨ 32 < (prefixLen.toNat : ℤ)) := by
    have := UInt8.le_iff_toNat_le.mp hle
    have h32 : (32 : UInt8).toNat = 32 := rfl
    omega
  obtain ⟨a, b, c, d, parts, rfl, hparts, rfl⟩ := haddress
  have htake4 : parts.take 4 = parts := List.take_of_length_le (le_of_eq hparts.length_eq)
  unfold parseCidr
  rw [hafter]
  dsimp only
  rw [stoi_of_isDecimal hlength (lt_trans prefixLen.toNat_lt (by decide))]
  dsimp only
  rw [if_neg hrange, htake, pieces_of_forall₂ hparts, htake4, parseOctets_of_forall₂ hparts,
    ofInt_toNat]

/-! ## Other texts -/

/-- The value that `stoi` reads. -/
theorem stoi_eq_ok_iff {s : List UInt8} {v : ℤ} :
    stoi s = .ok v ↔ ∃ neg n, IsNumeral s neg n ∧ v = (if neg then -(n : ℤ) else n) ∧
      -intMax - 1 ≤ v ∧ v ≤ intMax := by
  unfold stoi
  simp only [← strtol_eq_some_iff]
  cases hread : strtol s with
  | none => simp
  | some r =>
    obtain ⟨neg, n⟩ := r
    dsimp only
    constructor
    · intro h
      by_cases hrange : -intMax - 1 ≤ (if neg then -(n : ℤ) else n) ∧
          (if neg then -(n : ℤ) else n) ≤ intMax
      · rw [if_pos hrange] at h
        exact ⟨neg, n, rfl, (Except.ok.inj h).symm, Except.ok.inj h ▸ hrange⟩
      · rw [if_neg hrange] at h
        cases h
    · rintro ⟨neg', n', heq, rfl, hrange⟩
      obtain ⟨rfl, rfl⟩ := Prod.mk.inj (Option.some.inj heq)
      exact if_pos hrange

/-- The bad lengths, as the code reads them. -/
theorem badLength_iff {s : List UInt8} :
    BadLength s ↔ ∃ rest v, afterFirst [47] s = some rest ∧ stoi rest = .ok v ∧ (v < 0 ∨ 32 < v) := by
  simp only [stoi_eq_ok_iff, afterFirst_eq_some_iff, intMax]
  constructor
  · rintro ⟨before, rest, neg, n, hfirst, hnum, hn⟩
    cases neg with
    | true => exact ⟨rest, -(n : ℤ), ⟨before, hfirst⟩, ⟨true, n, hnum, rfl, by simp at hn; omega⟩,
        by simp at hn; omega⟩
    | false => exact ⟨rest, n, ⟨before, hfirst⟩, ⟨false, n, hnum, rfl, by simp at hn; omega⟩,
        by simp at hn; omega⟩
  · rintro ⟨rest, v, ⟨before, hfirst⟩, ⟨neg, n, hnum, rfl, hrange⟩, hbad⟩
    refine ⟨before, rest, neg, n, hfirst, hnum, ?_⟩
    cases neg with
    | true => simp at hbad hrange ⊢; omega
    | false => simp at hbad hrange ⊢; omega

theorem parseCidr_of_slashless {s : List UInt8} (hrest : afterFirst [47] s = none) (pfx : UInt32)
    (prefixLen : UInt8) : parseCidr s pfx prefixLen = (.ok false, pfx, prefixLen) := by
  rw [parseCidr, hrest]

theorem parseCidr_of_error {s rest : List UInt8} {e : Exception}
    (hrest : afterFirst [47] s = some rest) (hv : stoi rest = .error e) (pfx : UInt32)
    (prefixLen : UInt8) : parseCidr s pfx prefixLen = (.error e, pfx, prefixLen) := by
  unfold parseCidr
  rw [hrest]
  dsimp only
  rw [hv]

/-- A length out of the range is not stored. -/
theorem parseCidr_of_badRange {s rest : List UInt8} {v : ℤ} (hrest : afterFirst [47] s = some rest)
    (hv : stoi rest = .ok v) (hrange : v < 0 ∨ 32 < v) (pfx : UInt32) (prefixLen : UInt8) :
    parseCidr s pfx prefixLen = (.ok false, pfx, prefixLen) := by
  unfold parseCidr
  rw [hrest]
  dsimp only
  rw [hv]
  exact if_pos hrange

/-- A length in the range is written before the address is looked at. -/
theorem parseCidr_length {s rest : List UInt8} {v : ℤ} (hrest : afterFirst [47] s = some rest)
    (hv : stoi rest = .ok v) (hrange : ¬ (v < 0 ∨ 32 < v)) (pfx : UInt32) (prefixLen : UInt8) :
    (parseCidr s pfx prefixLen).2.2 = UInt8.ofInt v := by
  unfold parseCidr
  rw [hrest]
  dsimp only
  rw [hv]
  dsimp only
  rw [if_neg hrange]
  split <;> rfl

/-- The length is left alone, or at most 32. -/
theorem parseCidr_prefixLen_le (s : List UInt8) (pfx : UInt32) {prefixLen : UInt8}
    (h : prefixLen ≤ 32) : (parseCidr s pfx prefixLen).2.2 ≤ 32 := by
  cases hrest : afterFirst [47] s with
  | none =>
    rw [parseCidr_of_slashless hrest]
    exact h
  | some rest =>
    cases hv : stoi rest with
    | error e =>
      rw [parseCidr_of_error hrest hv]
      exact h
    | ok v =>
      by_cases hrange : v < 0 ∨ 32 < v
      · rw [parseCidr_of_badRange hrest hv hrange]
        exact h
      · rw [parseCidr_length hrest hv hrange, UInt8.le_iff_toNat_le, UInt8.ofInt]
        have hmod : v % 2 ^ 8 = v := by omega
        have hlt : v.toNat < UInt8.size := by
          have hsize : UInt8.size = 256 := rfl
          omega
        rw [hmod, UInt8.toNat_ofNat_of_lt' hlt, show (32 : UInt8).toNat = 32 from rfl]
        omega

/-- What is always refused is not a network. -/
theorem strict_of_refused {s : List UInt8}
    (hcall : ∀ pfx prefixLen, parseCidr s pfx prefixLen = (.ok false, pfx, prefixLen)) :
    Strict s where
  accepts := fun pfx prefixLen h => by
    cases (Prod.mk.inj ((hcall 0 0).symm.trans (parseCidr_of_isCidr h 0 0))).1
  rejects := fun _ => hcall

/-- A text that is always refused has no slash, or a length out of the range. -/
theorem badLength_of_refused {s : List UInt8}
    (hcall : ∀ pfx prefixLen, parseCidr s pfx prefixLen = (.ok false, pfx, prefixLen)) :
    47 ∉ s ∨ BadLength s := by
  rw [← afterFirst_singleton_eq_none_iff, badLength_iff]
  cases hrest : afterFirst [47] s with
  | none => exact Or.inl rfl
  | some rest =>
    cases hv : stoi rest with
    | error e =>
      have herror := (parseCidr_of_error hrest hv 0 0).symm.trans (hcall 0 0)
      cases (Prod.mk.inj herror).1
    | ok v =>
      by_cases hrange : v < 0 ∨ 32 < v
      · exact Or.inr ⟨rest, v, rfl, hv, hrange⟩
      · -- the length is lost, unless it was there before
        have hlength := congrArg (·.2.2) (hcall 0 (UInt8.ofInt v + 1))
        rw [parseCidr_length hrest hv hrange] at hlength
        exact absurd hlength (by simp)

/-- **The texts that `parse_cidr` treats as the format demands**. -/
theorem strict_iff (s : List UInt8) :
    Strict s ↔ (∃ pfx prefixLen, IsCidr s pfx prefixLen) ∨ 47 ∉ s ∨ BadLength s := by
  constructor
  · intro h
    by_cases hvalid : ∃ pfx prefixLen, IsCidr s pfx prefixLen
    · exact Or.inl hvalid
    · exact Or.inr (badLength_of_refused (h.rejects (by simpa using hvalid)))
  · rintro (⟨pfx, prefixLen, hvalid⟩ | hslash | hlength)
    · exact ⟨fun pfx prefixLen h => parseCidr_of_isCidr h,
        fun hno => absurd hvalid (hno pfx prefixLen)⟩
    · exact strict_of_refused
        (parseCidr_of_slashless (afterFirst_singleton_eq_none_iff.mpr hslash))
    · obtain ⟨rest, v, hrest, hv, hrange⟩ := badLength_iff.mp hlength
      exact strict_of_refused (parseCidr_of_badRange hrest hv hrange)

/-- A length with something after it. -/
theorem not_strict_tail :
    parseCidr (bytes "10.0.0.0/8x") 0 0 = (.ok true, 167772160, 8) ∧
      ¬ Strict (bytes "10.0.0.0/8x") := by
  have hcall : parseCidr (bytes "10.0.0.0/8x") 0 0 = (.ok true, 167772160, 8) := by decide
  refine ⟨hcall, fun h => ?_⟩
  have hrejects := h.rejects (fun _ _ hvalid =>
    hvalid.notMem (b := 120) (by decide) (by decide) (by decide) (by decide)) 0 0
  cases (Prod.mk.inj (hcall.symm.trans hrejects)).1

end ConfigLoader
