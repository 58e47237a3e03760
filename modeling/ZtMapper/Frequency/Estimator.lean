/-
# `dsa::frequency::Estimator`

The interface and its three implementations, with the `uint32_t` convenience
calls.  An estimator that was reset is the freshly constructed one, so what it
answers is a function of the keys recorded since (`estimateAfter`); the last
section bounds that function for each implementation.
-/
import ZtMapper.Frequency.HashMapExact
import ZtMapper.Frequency.HeavyHitters
import ZtMapper.Frequency.CountMinSketchCorrect

namespace Frequency

/-- An object behind an `Estimator` pointer. -/
inductive Estimator where
  | countMinSketch (c : CountMinSketch)
  | hashMapExact (h : HashMapExact)
  | heavyHitters (h : HeavyHitters)

/-- The bytes of a `uint32_t`, least significant first. -/
def u32Bytes (v : UInt32) : Key :=
  [v.toUInt8, (v >>> 8).toUInt8, (v >>> 16).toUInt8, (v >>> 24).toUInt8]

namespace Estimator

def record (e : Estimator) (key : Key) : Option Estimator :=
  match e with
  | .countMinSketch c => (c.record key).map .countMinSketch
  | .hashMapExact h => some (.hashMapExact (h.record key))
  | .heavyHitters h => some (.heavyHitters (h.record key))

def estimate (e : Estimator) (key : Key) : Option UInt64 :=
  match e with
  | .countMinSketch c => c.estimate key
  | .hashMapExact h => some (h.estimate key)
  | .heavyHitters h => some (h.estimate key)

def reset (e : Estimator) : Estimator :=
  match e with
  | .countMinSketch c => .countMinSketch c.reset
  | .hashMapExact h => .hashMapExact h.reset
  | .heavyHitters h => .heavyHitters h.reset

def recordU32 (e : Estimator) (v : UInt32) : Option Estimator := e.record (u32Bytes v)

def estimateU32 (e : Estimator) (v : UInt32) : Option UInt64 := e.estimate (u32Bytes v)

/-- A sequence of `record_u32` calls. -/
def recordAll (e : Estimator) (s : List UInt32) : Option Estimator := s.foldlM recordU32 e

theorem recordAll_append (e : Estimator) (s : List UInt32) (x : UInt32) :
    e.recordAll (s ++ [x]) = (e.recordAll s).bind fun e => e.recordU32 x := by
  rw [recordAll, List.foldlM_append, recordAll]
  cases s.foldlM recordU32 e with
  | none => rfl
  | some e' => simp

/-- The answer for `x` after the keys `s`, as a number. -/
def estimateAfter (e : Estimator) (s : List UInt32) (x : UInt32) : ℕ :=
  match (e.recordAll s).bind fun e => e.estimateU32 x with
  | some v => v.toNat
  | none => 0

/-- An answer is a 64-bit number. -/
theorem exists_toNat_estimateAfter (e : Estimator) (s : List UInt32) (x : UInt32) :
    ∃ v : UInt64, v.toNat = e.estimateAfter s x := by
  unfold estimateAfter
  cases (e.recordAll s).bind fun e => e.estimateU32 x with
  | none => exact ⟨0, rfl⟩
  | some v => exact ⟨v, rfl⟩

end Estimator

/-! ## Keys of addresses -/

theorem u32Bytes_injective : Function.Injective u32Bytes := by
  intro v w h
  simp only [u32Bytes, List.cons.injEq, and_true, ← UInt8.toNat_inj, UInt32.toNat_toUInt8,
    UInt32.toNat_shiftRight, Nat.shiftRight_eq_div_pow] at h
  obtain ⟨h0, h8, h16, h24⟩ := h
  have hv := UInt32.toNat_lt v
  have hw := UInt32.toNat_lt w
  rw [← UInt32.toNat_inj]
  have e8 : (8 : UInt32).toNat % 32 = 8 := rfl
  have e16 : (16 : UInt32).toNat % 32 = 16 := rfl
  have e24 : (24 : UInt32).toNat % 32 = 24 := rfl
  rw [e8] at h8
  rw [e16] at h16
  rw [e24] at h24
  omega

theorem count_map_u32Bytes (s : List UInt32) (x : UInt32) :
    (s.map u32Bytes).count (u32Bytes x) = s.count x :=
  List.count_map_of_injective s u32Bytes u32Bytes_injective x

namespace Estimator

/-! ## Runs of one implementation -/

/-- The calls that record a stream of addresses. -/
def calls (s : List UInt32) : List Call := s.map fun x => .record (u32Bytes x)

theorem calls_append (s : List UInt32) (x : UInt32) :
    calls (s ++ [x]) = calls s ++ [.record (u32Bytes x)] := by
  rw [calls, List.map_append]
  rfl

@[simp] theorem sinceReset_calls (s : List UInt32) : sinceReset (calls s) = s.map u32Bytes := by
  have h : calls s = (s.map u32Bytes).map Call.record := by
    rw [calls, List.map_map]
    rfl
  rw [h, sinceReset_map_record]

theorem recordAll_countMinSketch (c : CountMinSketch) (s : List UInt32) :
    (countMinSketch c).recordAll s = (c.run (calls s)).map .countMinSketch := by
  induction s using List.reverseRecOn with
  | nil => rfl
  | append_singleton s x ih =>
    rw [recordAll_append, ih, calls_append, CountMinSketch.run_append]
    cases c.run (calls s) <;> rfl

theorem recordAll_hashMapExact (h : HashMapExact) (s : List UInt32) :
    (hashMapExact h).recordAll s = some (.hashMapExact (h.run (calls s))) := by
  induction s using List.reverseRecOn with
  | nil => rfl
  | append_singleton s x ih =>
    rw [recordAll_append, ih, calls_append, HashMapExact.run_append]
    rfl

theorem recordAll_heavyHitters (h : HeavyHitters) (s : List UInt32) :
    (heavyHitters h).recordAll s = some (.heavyHitters (h.run (calls s))) := by
  induction s using List.reverseRecOn with
  | nil => rfl
  | append_singleton s x ih =>
    rw [recordAll_append, ih, calls_append, HeavyHitters.run_append]
    rfl

/-! ## Fresh estimators -/

/-- A newly constructed estimator whose remainders are defined. -/
inductive Fresh : Estimator → Prop
  | countMinSketch {width : UInt32} (hw : 1 ≤ width) (depth : UInt32) :
      Fresh (.countMinSketch (.create width depth))
  | hashMapExact : Fresh (.hashMapExact .create)
  | heavyHitters {k : UInt32} {h : HeavyHitters} (hnew : HeavyHitters.create k = .ok h) :
      Fresh (.heavyHitters h)

/-- **A fresh estimator never fails**, and `reset()` makes it fresh again. -/
theorem Fresh.recordAll {e : Estimator} (h : e.Fresh) (s : List UInt32) :
    ∃ e', e.recordAll s = some e' ∧ e'.reset = e ∧
      ∀ x, ∃ v, e'.estimateU32 x = some v ∧ v.toNat = e.estimateAfter s x := by
  suffices key : ∃ e', e.recordAll s = some e' ∧ e'.reset = e ∧
      ∀ x, ∃ v, e'.estimateU32 x = some v by
    obtain ⟨e', hrun, hreset, hest⟩ := key
    refine ⟨e', hrun, hreset, fun x => ?_⟩
    obtain ⟨v, hv⟩ := hest x
    exact ⟨v, hv, by rw [estimateAfter, hrun, Option.bind_some, hv]⟩
  cases h with
  | @countMinSketch width hw depth =>
    obtain ⟨c, hrun, hs, hwidth, hdepth⟩ := CountMinSketch.stores_run hw depth (calls s)
    refine ⟨.countMinSketch c, ?_, ?_, fun x => ?_⟩
    · rw [recordAll_countMinSketch, hrun]
      rfl
    · have hreset := (CountMinSketch.stores_create width depth).eq_of_perm
        (CountMinSketch.stores_reset hs) (List.Perm.refl []) hwidth hdepth
      exact congrArg Estimator.countMinSketch hreset
    · obtain ⟨v, hv, -⟩ := CountMinSketch.estimate_cases hs (hwidth ▸ hw) (u32Bytes x)
      exact ⟨v, hv⟩
  | hashMapExact =>
    exact ⟨_, recordAll_hashMapExact _ s, rfl, fun x => ⟨_, rfl⟩⟩
  | @heavyHitters k h hnew =>
    exact ⟨_, recordAll_heavyHitters h s,
      congrArg Estimator.heavyHitters (HeavyHitters.reset_run hnew (calls s)), fun x => ⟨_, rfl⟩⟩

/-! ## What is answered -/

/-- The exact counter answers the frequency, modulo `2^64`. -/
theorem estimateAfter_hashMapExact (s : List UInt32) (x : UInt32) :
    (hashMapExact .create).estimateAfter s x = s.count x % 2 ^ 64 := by
  rw [estimateAfter, recordAll_hashMapExact, Option.bind_some]
  show ((HashMapExact.create.run (calls s)).estimate (u32Bytes x)).toNat = _
  rw [HashMapExact.estimate_run, sinceReset_calls, count_map_u32Bytes]
  rfl

/-- The counters of fewer than `2^64` keys do not wrap. -/
theorem estimateAfter_hashMapExact_of_lt {s : List UInt32} (hs : s.length < 2 ^ 64) (x : UInt32) :
    (hashMapExact .create).estimateAfter s x = s.count x := by
  rw [estimateAfter_hashMapExact]
  exact Nat.mod_eq_of_lt (lt_of_le_of_lt List.count_le_length hs)

/-- The heavy hitters never overestimate, and err by at most `|s| / k`. -/
theorem estimateAfter_heavyHitters {k : UInt32} {h : HeavyHitters}
    (hnew : HeavyHitters.create k = .ok h) {s : List UInt32} (hs : s.length < 2 ^ 64) (x : UInt32) :
    (heavyHitters h).estimateAfter s x ≤ s.count x ∧
      k.toNat * (s.count x - (heavyHitters h).estimateAfter s x) ≤ s.length := by
  have hlen : (sinceReset (calls s)).length < 2 ^ 64 := by
    rwa [sinceReset_calls, List.length_map]
  have hest := HeavyHitters.estimate_run hnew (calls s) hlen (u32Bytes x)
  rw [sinceReset_calls, count_map_u32Bytes, List.length_map] at hest
  rw [estimateAfter, recordAll_heavyHitters, Option.bind_some]
  exact hest

/-- The heavy hitters answer the counter of the summary. -/
theorem estimateAfter_heavyHitters_eq {k : UInt32} {h : HeavyHitters}
    (hnew : HeavyHitters.create k = .ok h) {s : List UInt32} (hs : s.length < 2 ^ 64) (x : UInt32) :
    (heavyHitters h).estimateAfter s x
      = (MisraGries.summary k.toNat (s.map u32Bytes)).count (u32Bytes x) := by
  have hlen : (s.map u32Bytes).length < 2 ^ 64 := by rwa [List.length_map]
  have hstores := HeavyHitters.stores_run hnew (calls s) (by rwa [sinceReset_calls])
  rw [sinceReset_calls] at hstores
  rw [estimateAfter, recordAll_heavyHitters, Option.bind_some]
  show ((h.run (calls s)).counters.value (u32Bytes x)).toNat = _
  rw [hstores.value_eq, UInt64.toNat_ofNat_of_lt' (HeavyHitters.count_summary_lt
    (HeavyHitters.create_k_pos hnew) hlen (u32Bytes x))]

/-- The sketch answers the least of the cells of the key, one for each row; the cells
wrap. -/
theorem estimateAfter_cells {width depth : UInt32} (hw : 1 ≤ width) (hd : 1 ≤ depth)
    (s : List UInt32) (x : UInt32) :
    (∀ i < depth.toNat, (countMinSketch (.create width depth)).estimateAfter s x
        ≤ CountMinSketch.load width (s.map u32Bytes) i
          (CountMinSketch.column width i (u32Bytes x)) % 2 ^ 64) ∧
      ∃ i < depth.toNat, (countMinSketch (.create width depth)).estimateAfter s x
        = CountMinSketch.load width (s.map u32Bytes) i
          (CountMinSketch.column width i (u32Bytes x)) % 2 ^ 64 := by
  obtain ⟨c, hrun, hst, hwidth, hdepth⟩ := CountMinSketch.stores_run hw depth (calls s)
  rw [sinceReset_calls] at hst
  obtain ⟨e, he, hle, i, hi, hei⟩ :=
    CountMinSketch.estimate_spec hst (hwidth ▸ hw) (hdepth ▸ hd) (u32Bytes x)
  have hafter : (countMinSketch (.create width depth)).estimateAfter s x = e.toNat := by
    rw [estimateAfter, recordAll_countMinSketch, hrun]
    show (match c.estimate (u32Bytes x) with | some v => v.toNat | none => 0) = e.toNat
    rw [he]
  rw [hwidth, hdepth] at hle
  rw [hwidth] at hei
  rw [hdepth] at hi
  rw [hafter]
  refine ⟨fun i hi => ?_, i, hi, ?_⟩
  · exact UInt64.le_iff_toNat_le.mp (hle i hi)
  · rw [hei]
    rfl

/-- A sketch with cells answers at most the number of its keys. -/
theorem estimateAfter_countMinSketch_le {width depth : UInt32} (hw : 1 ≤ width) (hd : 1 ≤ depth)
    (s : List UInt32) (x : UInt32) :
    (countMinSketch (.create width depth)).estimateAfter s x ≤ s.length := by
  obtain ⟨-, i, -, hcell⟩ := estimateAfter_cells hw hd s x
  have hload := CountMinSketch.load_le_length width (s.map u32Bytes) i
    (CountMinSketch.column width i (u32Bytes x))
  rw [List.length_map] at hload
  rw [hcell]
  exact (Nat.mod_le _ _).trans hload

/-- The sketch never underestimates, nor exceeds the length of the stream. -/
theorem estimateAfter_countMinSketch {width depth : UInt32} (hw : 1 ≤ width) (hd : 1 ≤ depth)
    {s : List UInt32} (hs : s.length < 2 ^ 64) (x : UInt32) :
    s.count x ≤ (countMinSketch (.create width depth)).estimateAfter s x ∧
      (countMinSketch (.create width depth)).estimateAfter s x ≤ s.length := by
  obtain ⟨-, i, -, hcell⟩ := estimateAfter_cells hw hd s x
  have hload := CountMinSketch.load_le_length width (s.map u32Bytes) i
    (CountMinSketch.column width i (u32Bytes x))
  have hcount := CountMinSketch.count_le_load width (s.map u32Bytes) i (u32Bytes x)
  rw [List.length_map] at hload
  rw [count_map_u32Bytes] at hcount
  rw [hcell, Nat.mod_eq_of_lt (lt_of_le_of_lt hload hs)]
  exact ⟨hcount, hload⟩

/-- A sketch whose first row has one column for two keys forgets both when the
cell overflows. -/
theorem estimateAfter_collision {width depth : UInt32} (hw : 1 ≤ width) (hd : 1 ≤ depth)
    {x y : UInt32} (hcol : CountMinSketch.column width 0 (u32Bytes y)
      = CountMinSketch.column width 0 (u32Bytes x)) {n : ℕ} (hn : n + 1 = 2 ^ 64) :
    (countMinSketch (.create width depth)).estimateAfter (List.replicate n y ++ [x]) x = 0 := by
  have hpos : 0 < depth.toNat := UInt32.le_iff_toNat_le.mp hd
  have hload : CountMinSketch.load width ((List.replicate n y ++ [x]).map u32Bytes) 0
      (CountMinSketch.column width 0 (u32Bytes x)) = 2 ^ 64 := by
    rw [← hn, CountMinSketch.load, List.map_append, List.map_replicate, List.map_singleton,
      List.countP_append, List.countP_replicate, if_pos (decide_eq_true hcol),
      List.countP_singleton, if_pos (decide_eq_true rfl)]
  have hzero := (estimateAfter_cells hw hd (List.replicate n y ++ [x]) x).1 0 hpos
  rw [hload, Nat.mod_self] at hzero
  exact Nat.le_zero.mp hzero

end Estimator

end Frequency
