/-
# `dsa::frequency::HashMapExact`

One counter for each key that occurred.  The counters are the multiplicities of
the stream, up to the wrap-around of `uint64_t`.
-/
import ZtMapper.Frequency.Counters

open Unordered

namespace Frequency

structure HashMapExact where
  counts : Counters

namespace HashMapExact

def create : HashMapExact := ⟨∅⟩

/-- `counts_[k]++` -/
def record (h : HashMapExact) (key : Key) : HashMapExact :=
  ⟨h.counts.insert key (h.counts.value key + 1)⟩

def estimate (h : HashMapExact) (key : Key) : UInt64 := h.counts.value key

def reset (_ : HashMapExact) : HashMapExact := ⟨∅⟩

def apply (h : HashMapExact) : Call → HashMapExact
  | .record key => h.record key
  | .reset => h.reset

def run (h : HashMapExact) (calls : List Call) : HashMapExact := calls.foldl apply h

theorem run_append (h : HashMapExact) (calls : List Call) (call : Call) :
    h.run (calls ++ [call]) = (h.run calls).apply call := by
  rw [run, List.foldl_append]
  rfl

/-- **The counters are the multiplicities** of the stream since the last reset. -/
theorem stores_run (calls : List Call) :
    (create.run calls).counts.Stores (sinceReset calls : Multiset Key) := by
  induction calls using List.reverseRecOn with
  | nil => exact Counters.stores_empty
  | append_singleton calls call ih =>
    rw [run_append, sinceReset_append]
    cases call with
    | record x =>
      show Counters.Stores _ ((sinceReset calls ++ [x] : List Key) : Multiset Key)
      rw [coe_append_singleton]
      exact ih.increment x
    | reset => exact Counters.stores_empty

theorem estimate_run (calls : List Call) (x : Key) :
    (create.run calls).estimate x = UInt64.ofNat ((sinceReset calls).count x) := by
  rw [estimate, (stores_run calls).value_eq, count_coe]

end HashMapExact

end Frequency
