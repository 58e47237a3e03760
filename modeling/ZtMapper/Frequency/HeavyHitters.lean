/-
# `dsa::frequency::HeavyHitters`

The bounded-counter summary over `uint64_t` counters.  As long as fewer than
`2^64` keys are recorded between two resets no counter wraps around, the map
stores the summary of `Lib/MisraGries.lean`, and the documented guarantees hold
(`guarantee`).  From `2^64` records of one key on they do not
(`not_guarantee_replicate`).
-/
import ZtMapper.Lib.MisraGries
import ZtMapper.Frequency.Counters
import Mathlib.Tactic.NormNum

open Unordered

namespace Frequency

/-- The class.  The constructor admits no `k` below `2`. -/
structure HeavyHitters where
  k : UInt32
  n : UInt64
  counters : Counters
  two_le : 2 ≤ k

namespace HeavyHitters

/-- The constructor. -/
def create (k : UInt32) : Except String HeavyHitters :=
  if h : 2 ≤ k then .ok { k := k, n := 0, counters := ∅, two_le := h }
  else .error "HeavyHitters: k must be >= 2"

/-- `if (--cur->second == 0)` the entry is erased. -/
def decrement (v : UInt64) : Option UInt64 := if v - 1 = 0 then none else some (v - 1)

/-- What `record` makes of `counters_`: an increment, a new entry while there is
room, or the decrement-all phase. -/
def recordCounters (k : UInt32) (counters : Counters) (key : Key) : Counters :=
  match counters.lookup key with
  | some v => counters.insert key (v + 1)
  | none =>
    if counters.keys.card + 1 < k.toNat then counters.insert key 1
    else filterMapValues decrement counters

def record (h : HeavyHitters) (key : Key) : HeavyHitters :=
  { h with n := h.n + 1, counters := recordCounters h.k h.counters key }

def estimate (h : HeavyHitters) (key : Key) : UInt64 := h.counters.value key

def reset (h : HeavyHitters) : HeavyHitters := { h with counters := ∅, n := 0 }

def activeCounters (h : HeavyHitters) : ℕ := h.counters.keys.card

def apply (h : HeavyHitters) : Call → HeavyHitters
  | .record key => h.record key
  | .reset => h.reset

def run (h : HeavyHitters) (calls : List Call) : HeavyHitters := calls.foldl apply h

theorem run_append (h : HeavyHitters) (calls : List Call) (call : Call) :
    h.run (calls ++ [call]) = (h.run calls).apply call := by
  rw [run, List.foldl_append]
  rfl

theorem create_eq_ok {k : UInt32} {h : HeavyHitters} (hnew : create k = .ok h) :
    h.k = k ∧ h.counters = ∅ := by
  unfold create at hnew
  split_ifs at hnew
  cases hnew
  exact ⟨rfl, rfl⟩

theorem k_apply (h : HeavyHitters) (call : Call) : (h.apply call).k = h.k := by
  cases call <;> rfl

@[simp] theorem k_run (h : HeavyHitters) (calls : List Call) : (h.run calls).k = h.k := by
  induction calls using List.reverseRecOn with
  | nil => rfl
  | append_singleton calls call ih => rw [run_append, k_apply, ih]

/-- `reset()` takes any run back to the constructed object. -/
theorem reset_run {k : UInt32} {h : HeavyHitters} (hnew : create k = .ok h) (calls : List Call) :
    (h.run calls).reset = h := by
  have hk := k_run h calls
  generalize h.run calls = h' at hk
  unfold create at hnew
  split_ifs at hnew
  cases hnew
  cases h'
  cases hk
  rfl

/-! ## The counters store the summary -/

/-- The decrement phase takes one copy of every key, in whatever order the loop
meets them. -/
theorem stores_decrement {m : Counters} {c : Multiset Key} (h : m.Stores c)
    (hcard : c.card < 2 ^ 64) : Counters.Stores (filterMapValues decrement m) (c - c.dedup) := by
  intro x
  have hle : c.count x < 2 ^ 64 := lt_of_le_of_lt (Multiset.count_le_card x c) hcard
  have hcount := MisraGries.count_sub_dedup c x
  rw [lookup_filterMapValues, h x]
  by_cases hx : x ∈ c
  · have hpos := Multiset.count_pos.mpr hx
    have hsub : UInt64.ofNat (c.count x) - 1 = UInt64.ofNat (c.count x - 1) := by
      rw [UInt64.ofNat_sub hpos]
      rfl
    have hzero : UInt64.ofNat (c.count x - 1) = 0 ↔ c.count x - 1 = 0 := by
      rw [← UInt64.toNat_inj, UInt64.toNat_ofNat_of_lt' (lt_of_le_of_lt (Nat.sub_le _ _) hle)]
      rfl
    rw [if_pos hx, Option.bind_some, decrement, hsub, hcount]
    by_cases hone : c.count x - 1 = 0
    · have hnot : x ∉ c - c.dedup := by
        rw [← Multiset.count_eq_zero, hcount]
        exact hone
      rw [if_pos (hzero.mpr hone), if_neg hnot]
    · have hmem : x ∈ c - c.dedup := by
        rw [← Multiset.count_pos, hcount]
        omega
      rw [if_neg (fun h0 => hone (hzero.mp h0)), if_pos hmem]
  · have hnot : x ∉ c - c.dedup := fun hm => hx (Multiset.mem_of_le (Multiset.sub_le_self _ _) hm)
    rw [if_neg hx, if_neg hnot]
    rfl

/-- One `record` call is one step of the summary. -/
theorem stores_recordCounters {m : Counters} {c : Multiset Key} (hs : m.Stores c)
    (hcard : c.card < 2 ^ 64) (k : UInt32) (x : Key) :
    (recordCounters k m x).Stores (MisraGries.record k.toNat c x) := by
  have hlookup := hs x
  have hinc := hs.increment x
  rw [hs.value_eq] at hinc
  unfold recordCounters MisraGries.record
  by_cases hx : x ∈ c
  · rw [if_pos hx] at hlookup
    rw [hlookup, if_pos (Or.inl hx)]
    exact hinc
  · rw [if_neg hx] at hlookup
    rw [hlookup]
    dsimp only
    rw [hs.card_keys]
    by_cases hroom : c.dedup.card + 1 < k.toNat
    · rw [if_pos hroom, if_pos (Or.inr hroom)]
      rw [Multiset.count_eq_zero_of_notMem hx] at hinc
      exact hinc
    · rw [if_neg hroom, if_neg (not_or.mpr ⟨hx, hroom⟩)]
      exact stores_decrement hs hcard

theorem create_k_pos {k : UInt32} {h : HeavyHitters} (hnew : create k = .ok h) : 0 < k.toNat := by
  have h2 := UInt32.le_iff_toNat_le.mp h.two_le
  rw [(create_eq_ok hnew).1] at h2
  exact lt_of_lt_of_le (by decide) h2

/-- **The whole run**: the counters store the summary of the stream since the
last reset, if that stayed below `2^64` records. -/
theorem stores_run {k : UInt32} {h : HeavyHitters} (hnew : create k = .ok h)
    (calls : List Call) (hlen : (sinceReset calls).length < 2 ^ 64) :
    (h.run calls).counters.Stores (MisraGries.summary k.toNat (sinceReset calls)) := by
  obtain ⟨hk, hempty⟩ := create_eq_ok hnew
  have hpos := create_k_pos hnew
  induction calls using List.reverseRecOn with
  | nil =>
    show h.counters.Stores 0
    rw [hempty]
    exact Counters.stores_empty
  | append_singleton calls call ih =>
    rw [run_append, sinceReset_append]
    rw [sinceReset_append] at hlen
    cases call with
    | record x =>
      have hlt : (sinceReset calls).length < 2 ^ 64 := by
        rw [Call.extend, List.length_append] at hlen
        omega
      rw [Call.extend, MisraGries.summary_append]
      have hstep := stores_recordCounters (ih hlt)
        (lt_of_le_of_lt (MisraGries.card_summary_le hpos _) hlt) k x
      show (recordCounters (h.run calls).k _ x).Stores _
      rwa [k_run, hk]
    | reset => exact Counters.stores_empty

/-! ## The guarantees -/

/-- What the class promises of the stream `s` since the last reset: at most
`k - 1` counters, none of them zero, no overestimate, and an error of at most
`|s| / k`; hence every key more frequent than that is counted. -/
structure Guarantee (h : HeavyHitters) (s : List Key) : Prop where
  counters_le : h.activeCounters ≤ h.k.toNat - 1
  one_le : ∀ x v, h.counters.lookup x = some v → 1 ≤ v
  estimate_le : ∀ x, (h.estimate x).toNat ≤ s.count x
  error_le : ∀ x, h.k.toNat * (s.count x - (h.estimate x).toNat) ≤ s.length
  frequent : ∀ x, s.length < h.k.toNat * s.count x → 0 < h.estimate x

/-- No counter comes near the wrap-around. -/
theorem count_summary_lt {k : UInt32} (hk : 0 < k.toNat) {s : List Key} (hlen : s.length < 2 ^ 64)
    (x : Key) : (MisraGries.summary k.toNat s).count x < 2 ^ 64 :=
  calc (MisraGries.summary k.toNat s).count x ≤ (MisraGries.summary k.toNat s).card :=
        Multiset.count_le_card x _
    _ ≤ s.length := MisraGries.card_summary_le hk s
    _ < 2 ^ 64 := hlen

/-- An estimate errs on one side only, and by at most `|s| / k`. -/
theorem estimate_run {k : UInt32} {h : HeavyHitters} (hnew : create k = .ok h) (calls : List Call)
    (hlen : (sinceReset calls).length < 2 ^ 64) (x : Key) :
    ((h.run calls).estimate x).toNat ≤ (sinceReset calls).count x ∧
      k.toNat * ((sinceReset calls).count x - ((h.run calls).estimate x).toNat)
        ≤ (sinceReset calls).length := by
  have hpos := create_k_pos hnew
  have hest : ((h.run calls).estimate x).toNat
      = (MisraGries.summary k.toNat (sinceReset calls)).count x := by
    rw [estimate, (stores_run hnew calls hlen).value_eq,
      UInt64.toNat_ofNat_of_lt' (count_summary_lt hpos hlen x)]
  rw [hest, ← count_coe]
  exact ⟨MisraGries.count_summary_le hpos _ x, MisraGries.mul_sub_count_le hpos _ x⟩

/-- **The guarantees hold** at every point of every run with fewer than `2^64`
records since the last reset. -/
theorem guarantee {k : UInt32} {h : HeavyHitters} (hnew : create k = .ok h) (calls : List Call)
    (hlen : (sinceReset calls).length < 2 ^ 64) : Guarantee (h.run calls) (sinceReset calls) := by
  have hpos := create_k_pos hnew
  have hk : (h.run calls).k = k := (k_run h calls).trans (create_eq_ok hnew).1
  have hs := stores_run hnew calls hlen
  refine ⟨?_, fun x v hv => ?_, fun x => (estimate_run hnew calls hlen x).1,
    fun x => hk.symm ▸ (estimate_run hnew calls hlen x).2, fun x hx => ?_⟩
  · rw [activeCounters, hs.card_keys, hk]
    exact Nat.le_sub_one_of_lt (MisraGries.card_dedup_summary_lt hpos _)
  · rw [hs x] at hv
    split_ifs at hv with hx
    obtain rfl := Option.some.inj hv
    rw [UInt64.le_iff_toNat_le, UInt64.toNat_ofNat_of_lt' (count_summary_lt hpos hlen x)]
    exact Multiset.one_le_count_iff_mem.mpr hx
  · -- a zero estimate would be an error of the whole frequency
    rw [hk] at hx
    rw [UInt64.lt_iff_toNat_lt]
    by_contra hzero
    have hz : ((h.run calls).estimate x).toNat = 0 := by
      simpa using hzero
    have herr := (estimate_run hnew calls hlen x).2
    rw [hz, Nat.sub_zero] at herr
    omega

/-- Three keys and two counters. -/
theorem guarantee_three :
    ∃ h, create 3 = .ok h ∧
      Guarantee (h.run ([[1], [1], [2], [3]].map Call.record)) [[1], [1], [2], [3]] := by
  obtain ⟨h, hnew⟩ : ∃ h, create 3 = .ok h := ⟨_, rfl⟩
  exact ⟨h, hnew, guarantee hnew ([[1], [1], [2], [3]].map Call.record) (by decide)⟩

/-! ## Beyond `2^64` records -/

/-- Records of one key only count it, modulo `2^64`. -/
theorem lookup_run_replicate {k : UInt32} {h : HeavyHitters} (hnew : create k = .ok h) (x : Key)
    (n : ℕ) :
    (h.run (List.replicate (n + 1) (.record x))).counters.lookup x
      = some (UInt64.ofNat (n + 1)) := by
  obtain ⟨hk, hempty⟩ := create_eq_ok hnew
  have h2 := UInt32.le_iff_toNat_le.mp h.two_le
  induction n with
  | zero =>
    show (recordCounters h.k h.counters x).lookup x = _
    have hroom : (∅ : Counters).keys.card + 1 < h.k.toNat := lt_of_lt_of_le (by decide) h2
    rw [hempty, recordCounters, Finmap.lookup_empty]
    dsimp only
    rw [if_pos hroom, Finmap.lookup_insert]
    rfl
  | succ n ih =>
    rw [List.replicate_succ', run_append]
    show (recordCounters _ _ x).lookup x = _
    rw [recordCounters, ih]
    dsimp only
    rw [Finmap.lookup_insert, UInt64.ofNat_add (n + 1) 1]
    rfl

/-- After `2^64` records of one key its counter is back at zero. -/
theorem not_guarantee_replicate :
    ∃ h, create 2 = .ok h ∧
      ¬ Guarantee (h.run (List.replicate (2 ^ 64) (.record [0])))
        (sinceReset (List.replicate (2 ^ 64) (.record [0]))) := by
  obtain ⟨h, hnew⟩ : ∃ h, create 2 = .ok h := ⟨_, rfl⟩
  refine ⟨h, hnew, fun hg => ?_⟩
  have hlookup := lookup_run_replicate hnew [0] (2 ^ 64 - 1)
  rw [Nat.sub_add_cancel (by norm_num)] at hlookup
  exact absurd (hg.one_le [0] _ hlookup) (by decide)

end HeavyHitters

end Frequency
