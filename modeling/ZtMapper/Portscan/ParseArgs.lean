/-
# The command line of the stand-alone tool

`parse_args` reads the options in order; a number that cannot be read is 0, or
leaves the option as it was, and a number is narrowed without a check.
`handled_iff` says with which command lines the sketch of the detector works, and
its window is the one that was asked for.
-/
import ZtMapper.Engine.ParseEvent
import ZtMapper.Lib.Fallible
import ZtMapper.Lib.Runs
import ZtMapper.Portscan.DetectorCorrect

open Engine Fallible Frequency Runs Scan Tumbling WindowLog

namespace Portscan

structure CliArgs where
  algo : List UInt8 := bytes "all"
  input : List UInt8 := []
  traceDir : List UInt8 := []
  alertsPath : List UInt8 := []
  comparisonPath : List UInt8 := []
  cmsWidth : UInt32 := 2048
  cmsDepth : UInt32 := 5
  mgK : UInt32 := 64
  threshold : UInt64 := 40
  windowS : UInt64 := 60
  traceAt : List UInt64 := [50, 100, 110, 120, 130, 140]
  deriving DecidableEq, Repr

/-- The result, and the value of `out` after the call. -/
def parseUint (s : List UInt8) (out : UInt64) : Bool × UInt64 :=
  match stoull s with
  | .ok v => (true, v)
  | .error _ => (false, out)

def parseCsvUints (s : List UInt8) : Except Exception (List UInt64) :=
  ((pieces 44 s).filter (· ≠ [])).mapM stoull

/-- The options that take a value, with their effects. -/
def options : List (List UInt8 × (List UInt8 → CliArgs → Except Exception CliArgs)) :=
  [(bytes "--algo", fun v a => .ok { a with algo := v }),
    (bytes "--input", fun v a => .ok { a with input := v }),
    (bytes "--trace-dir", fun v a => .ok { a with traceDir := v }),
    (bytes "--alerts", fun v a => .ok { a with alertsPath := v }),
    (bytes "--comparison", fun v a => .ok { a with comparisonPath := v }),
    (bytes "--cms-width", fun v a => .ok { a with cmsWidth := (parseUint v 0).2.toUInt32 }),
    (bytes "--cms-depth", fun v a => .ok { a with cmsDepth := (parseUint v 0).2.toUInt32 }),
    (bytes "--mg-k", fun v a => .ok { a with mgK := (parseUint v 0).2.toUInt32 }),
    (bytes "--threshold", fun v a => .ok { a with threshold := (parseUint v a.threshold).2 }),
    (bytes "--window-seconds", fun v a => .ok { a with windowS := (parseUint v a.windowS).2 }),
    (bytes "--trace-at", fun v a => do return { a with traceAt := ← parseCsvUints v })]

/-- The loop over the arguments after the program's name.  `none` is the result
`false`: for a last argument that is an option without its value, a request for help,
or not an option. -/
def parseArgs : List (List UInt8) → CliArgs → Except Exception (Option CliArgs)
  | [], a => .ok (some a)
  | [_], _ => .ok none
  | flag :: v :: argv, a =>
    match options.lookup flag with
    | none => .ok none
    | some set => do parseArgs argv (← set v a)

def makeCfg (a : CliArgs) (algo : List UInt8) : DetectorConfig where
  algo := text algo
  cmsWidth := a.cmsWidth
  cmsDepth := a.cmsDepth
  mgK := a.mgK
  threshold := a.threshold
  windowNs := a.windowS * 1000000000

/-! ## What is asked of a command line -/

/-- Every call of `process` is defined, and the frequency it looks at is at most the
number of events so far. -/
def Sound (cfg : DetectorConfig) : Prop :=
  ∀ d, PortScanDetector.create cfg = .ok d → ∀ (events : List NetworkEvent) (evt : NetworkEvent),
    ∃ d' outs, d.run events = some (d', outs) ∧
      ∃ e freq, (d'.maybeResetWindow evt.timestampNs).estimator.recordU32 evt.srcIp = some e ∧
        e.estimateU32 evt.srcIp = some freq ∧ freq.toNat ≤ events.length + 1

/-- When the command line asks for the sketch, the sketch works, and the window has
the length that was read. -/
def Handled (argv : List (List UInt8)) : Prop :=
  ∀ a, parseArgs argv {} = .ok (some a) → a.algo = bytes "cms" →
    Sound (makeCfg a a.algo) ∧ (makeCfg a a.algo).windowNs.toNat = a.windowS.toNat * 1000000000

/-- The values that the option is given, in order. -/
def values (flag : List UInt8) : List (List UInt8) → List (List UInt8)
  | f :: v :: argv => if f = flag then v :: values flag argv else values flag argv
  | _ => []

/-- The text starts with a number of 64 bits that is no multiple of `2 ^ 32`. -/
def IsDimension (v : List UInt8) : Prop :=
  ∃ neg n, IsNumeral v neg n ∧ n < 2 ^ 64 ∧ ¬ 2 ^ 32 ∣ n

/-- The options that configure the sketch have sensible last values.  For the window
the last value counts that is a number of 64 bits; a minus negates it modulo `2 ^ 64`. -/
structure InRange (argv : List (List UInt8)) : Prop where
  width : ∀ v ∈ (values (bytes "--cms-width") argv).getLast?, IsDimension v
  depth : ∀ v ∈ (values (bytes "--cms-depth") argv).getLast?, IsDimension v
  window : ∀ pre v post neg n, values (bytes "--window-seconds") argv = pre ++ v :: post →
    IsNumeral v neg n → n < 2 ^ 64 →
    (∀ v' ∈ post, ∀ neg n, IsNumeral v' neg n → 2 ^ 64 ≤ n) →
    (if neg then (2 ^ 64 - n) % 2 ^ 64 else n) ≤ 18446744073

/-! ## The last value counts -/

variable {argv : List (List UInt8)} {a a' : CliArgs} {flag v : List UInt8}

/-- The number read from a text, if there is one. -/
def readUint (v : List UInt8) : Option UInt64 := (stoull v).toOption

/-- A value that is not read leaves the default. -/
theorem parseUint_snd (v : List UInt8) (out : UInt64) :
    (parseUint v out).2 = (readUint v).getD out := by
  unfold parseUint readUint
  cases stoull v <;> rfl

/-- What an option does to the settings of the sketch and the window. -/
theorem options_spec {row : List UInt8 × (List UInt8 → CliArgs → Except Exception CliArgs)}
    (hrow : row ∈ options) (h : row.2 v a = .ok a') :
    a'.cmsWidth = (if row.1 = bytes "--cms-width" then (parseUint v 0).2.toUInt32 else a.cmsWidth) ∧
    a'.cmsDepth = (if row.1 = bytes "--cms-depth" then (parseUint v 0).2.toUInt32 else a.cmsDepth) ∧
    a'.windowS = (if row.1 = bytes "--window-seconds" then (parseUint v a.windowS).2
      else a.windowS) := by
  simp only [options, List.mem_cons, List.not_mem_nil, or_false] at hrow
  rcases hrow with rfl | rfl | rfl | rfl | rfl | rfl | rfl | rfl | rfl | rfl | rfl
  case inr.inr.inr.inr.inr.inr.inr.inr.inr.inr =>
    obtain ⟨xs, -, h⟩ := bind_eq_ok_iff.mp h
    obtain rfl := Except.ok.inj h
    exact ⟨rfl, rfl, rfl⟩
  all_goals
    obtain rfl := Except.ok.inj h
    exact ⟨rfl, rfl, rfl⟩

/-- The dimension that a value is narrowed to. -/
def dimension (v : List UInt8) : UInt32 := (parseUint v 0).2.toUInt32

/-- **The last value of an option counts**; for the window, the last one that can be
read. -/
theorem parseArgs_spec : ∀ {argv : List (List UInt8)} {a a' : CliArgs},
    parseArgs argv a = .ok (some a') →
      a'.cmsWidth = ((values (bytes "--cms-width") argv).map dimension).getLastD a.cmsWidth ∧
      a'.cmsDepth = ((values (bytes "--cms-depth") argv).map dimension).getLastD a.cmsDepth ∧
      a'.windowS = ((values (bytes "--window-seconds") argv).filterMap readUint).getLastD a.windowS
  | [], a, a', h => by
    obtain rfl := Option.some.inj (Except.ok.inj h)
    exact ⟨rfl, rfl, rfl⟩
  | [_], a, a', h => by cases Except.ok.inj h
  | flag :: v :: argv, a, a', h => by
    rw [parseArgs] at h
    cases hlookup : options.lookup flag with
    | none => rw [hlookup] at h; cases Except.ok.inj h
    | some set =>
      rw [hlookup] at h
      obtain ⟨a₁, hset, h⟩ := bind_eq_ok_iff.mp h
      have hmem : (flag, set) ∈ options := by
        obtain ⟨l₁, l₂, hsplit, -⟩ := List.lookup_eq_some_iff.mp hlookup
        rw [hsplit]
        simp
      obtain ⟨hwidth, hdepth, hwindow⟩ := options_spec hmem hset
      obtain ⟨hwidth', hdepth', hwindow'⟩ := parseArgs_spec h
      rw [hwidth', hdepth', hwindow', hwidth, hdepth, hwindow]
      refine ⟨?_, ?_, ?_⟩
      · rw [values]
        split_ifs
        · rw [List.map_cons, List.getLastD_cons]
          rfl
        · rfl
      · rw [values]
        split_ifs
        · rw [List.map_cons, List.getLastD_cons]
          rfl
        · rfl
      · rw [values, parseUint_snd]
        split_ifs
        · cases hread : readUint v with
          | none => rw [List.filterMap_cons_none hread]; rfl
          | some w => rw [List.filterMap_cons_some hread, List.getLastD_cons]; rfl
        · rfl

/-! ## Numbers -/

/-- What is read: a numeral below 2^64, and with a minus sign its negative modulo 2^64. -/
theorem readUint_eq_some_iff {v : List UInt8} {w : UInt64} :
    readUint v = some w ↔ ∃ neg n, IsNumeral v neg n ∧ n < 2 ^ 64 ∧
      w.toNat = if neg then (2 ^ 64 - n) % 2 ^ 64 else n := by
  unfold readUint stoull stou
  simp only [← strtol_eq_some_iff]
  cases hread : strtol v with
  | none => simp [Except.toOption]
  | some r =>
    obtain ⟨neg, n⟩ := r
    dsimp only
    by_cases hn : n < 2 ^ 64
    · have hof : (UInt64.ofNat n).toNat = n := UInt64.toNat_ofNat_of_lt' hn
      rw [if_pos hn]
      have hval : (if neg = true then -UInt64.ofNat n else UInt64.ofNat n).toNat
          = if neg then (2 ^ 64 - n) % 2 ^ 64 else n := by
        cases neg with
        | true => rw [if_pos rfl, if_pos rfl, UInt64.toNat_neg, hof]; rfl
        | false => exact hof
      constructor
      · intro h
        exact ⟨neg, n, rfl, hn, by rw [← Option.some.inj h, hval]⟩
      · rintro ⟨neg', n', heq, -, hw⟩
        obtain ⟨rfl, rfl⟩ := Prod.mk.inj (Option.some.inj heq)
        exact congrArg some (UInt64.toNat.inj (hval.trans hw.symm))
    · rw [if_neg hn]
      refine iff_of_false (by simp [Except.toOption]) ?_
      rintro ⟨neg', n', heq, hn', -⟩
      obtain ⟨rfl, rfl⟩ := Prod.mk.inj (Option.some.inj heq)
      exact hn hn'

/-- The truncation to 32 bits is zero for the multiples of 2^32. -/
theorem toUInt32_ne_zero_iff (w : UInt64) : w.toUInt32 ≠ 0 ↔ ¬ 2 ^ 32 ∣ w.toNat := by
  rw [Nat.dvd_iff_mod_eq_zero, not_iff_not, ← UInt32.toNat_inj, UInt64.toNat_toUInt32]
  rfl

/-- The dimensions that are not zero. -/
theorem dimension_ne_zero_iff : dimension v ≠ 0 ↔ IsDimension v := by
  unfold dimension IsDimension
  rw [parseUint_snd]
  constructor
  · intro h
    cases hread : readUint v with
    | none => exact absurd (by rw [hread]; rfl) h
    | some w =>
      obtain ⟨neg, n, hnum, hn, hw⟩ := readUint_eq_some_iff.mp hread
      rw [hread, Option.getD_some, toUInt32_ne_zero_iff, hw] at h
      refine ⟨neg, n, hnum, hn, fun hdvd => h ?_⟩
      cases neg with
      | true => rw [if_pos rfl]; omega
      | false => exact hdvd
  · rintro ⟨neg, n, hnum, hn, hdvd⟩
    obtain ⟨w, hw⟩ : ∃ w : UInt64, w.toNat = if neg then (2 ^ 64 - n) % 2 ^ 64 else n := by
      refine ⟨UInt64.ofNat (if neg then (2 ^ 64 - n) % 2 ^ 64 else n), UInt64.toNat_ofNat_of_lt' ?_⟩
      have hsize : UInt64.size = 2 ^ 64 := rfl
      split_ifs
      · omega
      · omega
    rw [readUint_eq_some_iff.mpr ⟨neg, n, hnum, hn, hw⟩, Option.getD_some, toUInt32_ne_zero_iff, hw]
    intro hdvd'
    cases neg with
    | true => rw [if_pos rfl] at hdvd'; omega
    | false => exact hdvd hdvd'

/-- A property of the last image of a list. -/
theorem getLastD_filterMap_iff {α β : Type} {f : α → Option β} {Q : β → Prop} {d : β} (hd : Q d)
    (l : List α) :
    Q ((l.filterMap f).getLastD d) ↔
      ∀ pre v post w, l = pre ++ v :: post → f v = some w → (∀ v' ∈ post, f v' = none) → Q w := by
  induction l using List.reverseRecOn with
  | nil => exact iff_of_true hd fun pre v post w heq => by simp at heq
  | append_singleton l x ih =>
    rw [List.filterMap_append]
    cases hx : f x with
    | some w =>
      rw [List.filterMap_cons_some hx, List.filterMap_nil, List.getLastD_concat]
      constructor
      · intro hw pre v post w' heq hv hpost
        rcases concat_eq_append_cons_iff.mp heq with ⟨-, rfl, -⟩ | ⟨post', rfl, -⟩
        · exact Option.some.inj (hx.symm.trans hv) ▸ hw
        · rw [hpost x (by simp)] at hx
          cases hx
      · exact fun h => h l x [] w rfl hx (by simp)
    | none =>
      -- the last element has no image, so that the image is that of an earlier one
      rw [List.filterMap_cons_none hx, List.filterMap_nil, List.append_nil, ih]
      constructor
      · intro h pre v post w heq hv hpost
        rcases concat_eq_append_cons_iff.mp heq with ⟨-, rfl, -⟩ | ⟨post', rfl, heq'⟩
        · rw [hx] at hv
          cases hv
        · exact h pre v post' w heq' hv fun v' hv' => hpost v' (List.mem_append_left _ hv')
      · rintro h pre v post w rfl hv hpost
        refine h pre v (post ++ [x]) w (by simp) hv fun v' hv' => ?_
        rcases List.mem_append.mp hv' with hv' | hv'
        · exact hpost v' hv'
        · rw [List.mem_singleton.mp hv', hx]

/-- The last option decides. -/
theorem getLastD_map_dimension_iff {l : List (List UInt8)} {d : UInt32} (hd : d ≠ 0) :
    (l.map dimension).getLastD d ≠ 0 ↔ ∀ v ∈ l.getLast?, IsDimension v := by
  rcases List.eq_nil_or_concat' l with rfl | ⟨l, v, rfl⟩
  · exact iff_of_true hd (by simp)
  · rw [List.map_append, List.map_singleton, List.getLastD_concat, dimension_ne_zero_iff,
      List.getLast?_concat]
    simp

/-! ## The detector -/

variable {cfg : DetectorConfig} {d : PortScanDetector}

/-- The detector is made with the dimensions given. -/
theorem create_cms (halgo : cfg.algo = "cms") (hnew : PortScanDetector.create cfg = .ok d) :
    d.estimator = .countMinSketch (.create cfg.cmsWidth cfg.cmsDepth) := by
  unfold PortScanDetector.create makeEstimator at hnew
  rw [if_pos halgo] at hnew
  rw [← Except.ok.inj hnew]

/-- A sketch with cells works, for every sequence of events. -/
theorem sound_of_pos (halgo : cfg.algo = "cms") (hw : 1 ≤ cfg.cmsWidth) (hd : 1 ≤ cfg.cmsDepth) :
    Sound cfg := by
  intro d hnew events evt
  have hest := create_cms halgo hnew
  have hfresh : d.estimator.Fresh := hest ▸ .countMinSketch hw cfg.cmsDepth
  obtain ⟨d', outs, hrun, hfollows, -⟩ := follows_run hnew hfresh events
  have hentered := follows_maybeResetWindow hfollows hfresh evt.timestampNs
  obtain ⟨e, freq, hrec, hfreq, hval, -⟩ := hentered.watch.counted hfresh evt
  refine ⟨d', outs, hrun, e, freq, hrec, hfreq, ?_⟩
  have hlen : (windowsOf cfg events).log.length = events.length := length_log events
  have hstream := length_stream_le NetworkEvent.srcIp (windowsOf cfg events).log
    (advance cfg.windowNs (windowsOf cfg events) evt.timestampNs).number
  rw [hval, hest]
  refine (Estimator.estimateAfter_countMinSketch_le hw hd _ _).trans ?_
  rw [List.length_append, List.length_singleton]
  exact Nat.succ_le_succ (hstream.trans (le_of_eq hlen))

/-- The first call of a new detector leaves the estimator as it is before it counts. -/
theorem estimator_first (hnew : PortScanDetector.create cfg = .ok d) (now : UInt64) :
    (d.maybeResetWindow now).estimator = d.estimator := by
  have hstart : d.windowStartNs = 0 := (follows_create hnew).windowStartNs_eq
  rw [PortScanDetector.maybeResetWindow, if_pos hstart]

/-- A sketch of depth 0 estimates the largest count for every key. -/
theorem estimate_create_zero (width : UInt32) (key : Key) :
    (CountMinSketch.create width 0).record key = some (CountMinSketch.create width 0) ∧
      (CountMinSketch.create width 0).estimate key = some CountMinSketch.uint64Max :=
  ⟨rfl, rfl⟩

/-- A sketch of width 0 divides by zero. -/
theorem record_create_zero {depth : UInt32} (hd : depth ≠ 0) (key : Key) :
    (CountMinSketch.create 0 depth).record key = none := by
  obtain ⟨n, hn⟩ : ∃ n, depth.toNat = n + 1 :=
    Nat.exists_eq_succ_of_ne_zero fun h => hd (UInt32.toNat.inj h)
  unfold CountMinSketch.record
  rw [show (CountMinSketch.create 0 depth).depth.toNat = n + 1 from hn, List.range_succ_eq_map,
    List.foldlM_cons]
  have hcol : (CountMinSketch.create 0 depth).col key 0 = none := by
    unfold CountMinSketch.col
    cases (CountMinSketch.create 0 depth).seeds[0]? <;> rfl
  rw [hcol]
  rfl

/-- The two spellings of a dimension that is there. -/
theorem one_le_iff (w : UInt32) : 1 ≤ w ↔ w ≠ 0 := by
  rw [UInt32.le_iff_toNat_le, ← UInt32.toNat_inj.ne]
  exact Nat.one_le_iff_ne_zero

/-- Without columns the remainder is undefined, without rows every estimate is the
largest number. -/
theorem pos_of_sound (halgo : cfg.algo = "cms") (h : Sound cfg) :
    cfg.cmsWidth ≠ 0 ∧ cfg.cmsDepth ≠ 0 := by
  obtain ⟨d, hnew⟩ : ∃ d, PortScanDetector.create cfg = .ok d := by
    unfold PortScanDetector.create makeEstimator
    rw [if_pos halgo]
    exact ⟨_, rfl⟩
  obtain ⟨d', outs, hrun, e, freq, hrec, hfreq, hle⟩ := h d hnew [] ⟨1, 2, 80, 1000⟩
  obtain ⟨rfl, rfl⟩ := Prod.mk.inj (Option.some.inj (show some (d, []) = some (d', outs) from hrun))
  rw [estimator_first hnew, create_cms halgo hnew] at hrec
  have hdepth : cfg.cmsDepth ≠ 0 := by
    intro hzero
    obtain ⟨hrec₀, hest₀⟩ := estimate_create_zero cfg.cmsWidth (u32Bytes 1)
    rw [hzero] at hrec
    change ((CountMinSketch.create cfg.cmsWidth 0).record (u32Bytes 1)).map _ = _ at hrec
    rw [hrec₀] at hrec
    obtain rfl := Option.some.inj hrec
    change (CountMinSketch.create cfg.cmsWidth 0).estimate (u32Bytes 1) = some freq at hfreq
    obtain rfl := Option.some.inj (hest₀.symm.trans hfreq)
    exact absurd hle (by decide)
  have hwidth : cfg.cmsWidth ≠ 0 := by
    intro hzero
    rw [hzero] at hrec
    change ((CountMinSketch.create 0 cfg.cmsDepth).record (u32Bytes 1)).map _ = _ at hrec
    rw [record_create_zero hdepth] at hrec
    cases hrec
  exact ⟨hwidth, hdepth⟩

/-- A sound sketch has both dimensions. -/
theorem sound_iff (halgo : cfg.algo = "cms") : Sound cfg ↔ cfg.cmsWidth ≠ 0 ∧ cfg.cmsDepth ≠ 0 :=
  ⟨pos_of_sound halgo, fun h =>
    sound_of_pos halgo ((one_le_iff _).mpr h.1) ((one_le_iff _).mpr h.2)⟩

/-! ## Command lines -/

/-- What is not read. -/
theorem readUint_eq_none_iff :
    readUint v = none ↔ ∀ neg n, IsNumeral v neg n → 2 ^ 64 ≤ n := by
  rw [Option.eq_none_iff_forall_ne_some]
  constructor
  · intro h neg n hnum
    by_contra hlt
    have hlt' : (if neg then (2 ^ 64 - n) % 2 ^ 64 else n) < UInt64.size := by
      have hsize : UInt64.size = 2 ^ 64 := rfl
      split_ifs
      · omega
      · omega
    exact h (UInt64.ofNat (if neg then (2 ^ 64 - n) % 2 ^ 64 else n)) (readUint_eq_some_iff.mpr
      ⟨neg, n, hnum, not_le.mp hlt, UInt64.toNat_ofNat_of_lt' hlt'⟩)
  · intro h w hw
    obtain ⟨neg, n, hnum, hn, -⟩ := readUint_eq_some_iff.mp hw
    exact absurd (h neg n hnum) (not_le.mpr hn)

/-- The window that was asked for fits. -/
theorem windowNs_makeCfg (a : CliArgs) (algo : List UInt8) :
    (makeCfg a algo).windowNs.toNat = a.windowS.toNat * 1000000000
      ↔ a.windowS.toNat ≤ 18446744073 := by
  have hmul : (makeCfg a algo).windowNs.toNat = a.windowS.toNat * 1000000000 % 2 ^ 64 :=
    UInt64.toNat_mul _ _
  have hlt := a.windowS.toNat_lt
  rw [hmul]
  omega

/-- The window that is in range, told from the last option that is read. -/
theorem window_iff {l : List (List UInt8)} :
    ((l.filterMap readUint).getLastD 60).toNat ≤ 18446744073 ↔
      ∀ pre v post neg n, l = pre ++ v :: post → IsNumeral v neg n → n < 2 ^ 64 →
        (∀ v' ∈ post, ∀ neg n, IsNumeral v' neg n → 2 ^ 64 ≤ n) →
        (if neg then (2 ^ 64 - n) % 2 ^ 64 else n) ≤ 18446744073 := by
  rw [getLastD_filterMap_iff (Q := fun w : UInt64 => w.toNat ≤ 18446744073)
    (show (60 : UInt64).toNat ≤ 18446744073 by decide)]
  simp only [readUint_eq_none_iff]
  constructor
  · intro h pre v post neg n heq hnum hn hpost
    have hlt : (if neg then (2 ^ 64 - n) % 2 ^ 64 else n) < UInt64.size := by
      have hsize : UInt64.size = 2 ^ 64 := rfl
      split_ifs
      · omega
      · omega
    have hw := UInt64.toNat_ofNat_of_lt' hlt
    have hle := h pre v post _ heq (readUint_eq_some_iff.mpr ⟨neg, n, hnum, hn, hw⟩) hpost
    rwa [hw] at hle
  · intro h pre v post w heq hread hpost
    obtain ⟨neg, n, hnum, hn, hw⟩ := readUint_eq_some_iff.mp hread
    rw [hw]
    exact h pre v post neg n heq hnum hn hpost

/-- The arguments in range, told from what `parse_args` returns. -/
theorem inRange_iff {a : CliArgs} (h : parseArgs argv {} = .ok (some a)) :
    InRange argv ↔ (a.cmsWidth ≠ 0 ∧ a.cmsDepth ≠ 0) ∧ a.windowS.toNat ≤ 18446744073 := by
  obtain ⟨hwidth, hdepth, hwindow⟩ := parseArgs_spec h
  rw [hwidth, hdepth, hwindow, getLastD_map_dimension_iff (by decide),
    getLastD_map_dimension_iff (by decide), window_iff]
  exact ⟨fun h => ⟨⟨h.width, h.depth⟩, h.window⟩, fun h => ⟨h.1.1, h.1.2, h.2⟩⟩

/-- **The command lines that are handled**: those that are not accepted or ask for
another algorithm, and those with options in range. -/
theorem handled_iff (argv : List (List UInt8)) :
    Handled argv ↔
      ∀ a, parseArgs argv {} = .ok (some a) → a.algo = bytes "cms" → InRange argv := by
  unfold Handled
  refine forall_congr' fun a => forall_congr' fun hargs => forall_congr' fun halgo => ?_
  have hcms : (makeCfg a a.algo).algo = "cms" := by
    rw [halgo]
    exact show text (bytes "cms") = "cms" by decide
  rw [inRange_iff hargs, sound_iff hcms, windowNs_makeCfg]
  rfl

/-- A sketch without columns. -/
theorem not_handled_zeroWidth :
    parseArgs [bytes "--algo", bytes "cms", bytes "--cms-width", bytes "0"] {}
        = .ok (some { algo := bytes "cms", cmsWidth := 0 }) ∧
      ¬ Handled [bytes "--algo", bytes "cms", bytes "--cms-width", bytes "0"] := by
  have hargs : parseArgs [bytes "--algo", bytes "cms", bytes "--cms-width", bytes "0"] {}
      = .ok (some { algo := bytes "cms", cmsWidth := 0 }) := by decide +kernel
  refine ⟨hargs, fun h => ?_⟩
  exact ((sound_iff (by decide)).mp (h _ hargs rfl).1).1 rfl

end Portscan
