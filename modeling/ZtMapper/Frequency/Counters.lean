/-
# Streams of keys and maps of counters

The calls an `Estimator` receives, the stream they amount to, and the counter
maps of `HashMapExact` and `HeavyHitters`.  Keys are byte strings and counters
are 64-bit words, so a counter holds a multiplicity modulo `2^64`.
-/
import ZtMapper.Lib.Unordered
import Mathlib.Data.Multiset.Count

open Unordered

namespace Frequency

/-- The bytes behind the arguments `key`, `key_len`. -/
abbrev Key := List UInt8

/-- `f(x)` may be read off the stream or off its multiset. -/
theorem count_coe (s : List Key) (x : Key) : (s : Multiset Key).count x = s.count x := by
  rw [Multiset.coe_count]
  congr 1
  exact lawful_beq_subsingleton _ _

theorem coe_append_singleton (s : List Key) (x : Key) :
    ((s ++ [x] : List Key) : Multiset Key) = x ::ₘ (s : Multiset Key) :=
  Multiset.coe_eq_coe.mpr (List.perm_append_singleton x s)

/-- The mutating calls of the interface. -/
inductive Call where
  | record (key : Key)
  | reset
  deriving DecidableEq, Repr

/-- The effect of a call on the stream recorded since the last reset. -/
def Call.extend (s : List Key) : Call → List Key
  | .record key => s ++ [key]
  | .reset => []

/-- The stream recorded since construction or the last `reset()`. -/
def sinceReset (calls : List Call) : List Key := calls.foldl Call.extend []

theorem sinceReset_append (calls : List Call) (call : Call) :
    sinceReset (calls ++ [call]) = call.extend (sinceReset calls) := by
  rw [sinceReset, List.foldl_append]
  rfl

/-- Without a reset the stream is the list of the recorded keys. -/
theorem sinceReset_map_record (s : List Key) : sinceReset (s.map Call.record) = s := by
  induction s using List.reverseRecOn with
  | nil => rfl
  | append_singleton s x ih =>
    rw [List.map_append, List.map_singleton, sinceReset_append, ih]
    rfl

/-! ## Counter maps -/

/-- The type of `counts_` and `counters_`. -/
abbrev Counters := Map Key UInt64

/-- The map has an entry for each element of `c`, holding its multiplicity. -/
def Counters.Stores (m : Counters) (c : Multiset Key) : Prop :=
  ∀ x, m.lookup x = if x ∈ c then some (UInt64.ofNat (c.count x)) else none

/-- `it != end ? it->second : 0` -/
def Counters.value (m : Counters) (x : Key) : UInt64 := (m.lookup x).getD 0

namespace Counters

variable {m : Counters} {c : Multiset Key}

theorem stores_empty : Stores ∅ 0 := fun _ => rfl

theorem Stores.value_eq (h : m.Stores c) (x : Key) : m.value x = UInt64.ofNat (c.count x) := by
  rw [value, h x]
  split_ifs with hx
  · rfl
  · rw [Multiset.count_eq_zero_of_notMem hx]
    rfl

theorem Stores.mem_keys (h : m.Stores c) (x : Key) : x ∈ m.keys ↔ x ∈ c := by
  rw [Finmap.mem_keys, ← Finmap.lookup_isSome, h x]
  split_ifs with hx
  · exact iff_of_true rfl hx
  · exact iff_of_false Bool.false_ne_true hx

/-- The entries are as many as the distinct elements. -/
theorem Stores.card_keys (h : m.Stores c) : m.keys.card = c.dedup.card := by
  have hkeys : m.keys = c.toFinset := by
    ext x
    rw [h.mem_keys, Multiset.mem_toFinset]
  rw [hkeys, Multiset.card_toFinset]

/-- Adding `1` to a counter, which starts at `0`. -/
theorem Stores.increment (h : m.Stores c) (x : Key) :
    Stores (m.insert x (m.value x + 1)) (x ::ₘ c) := by
  intro y
  rw [lookup_insert_eq]
  by_cases hy : y = x
  · rw [if_pos hy, hy, if_pos (Multiset.mem_cons_self x c), h.value_eq, Multiset.count_cons_self,
      UInt64.ofNat_add]
    rfl
  · rw [if_neg hy, h y, Multiset.count_cons_of_ne hy]
    simp only [Multiset.mem_cons, hy, false_or]

end Counters

end Frequency
