/-
# An estimator under tumbling windows

The part the engine and the stand-alone detector have in common: an estimator
that is reset when a window ends, and the set of the keys that already alerted
in the window.  `Watch` relates the two to the log of the windows; it survives
the end of a window (`Watch.ended`) and the recording of an event
(`Watch.counted`), which raises an alert exactly where the log says so.
-/
import ZtMapper.Lib.Tumbling
import ZtMapper.Lib.WindowLog
import ZtMapper.Frequency.Estimator

open Tumbling WindowLog

namespace Frequency

variable {E : Type*} {key : E → UInt32} {e₀ : Estimator} {t : ℕ}

/-- The estimator holds the keys of the current window, and the alerted keys are
those that went over the threshold in it. -/
structure Watch (key : E → UInt32) (e₀ : Estimator) (t : ℕ) (s : Windows E)
    (estimator : Estimator) (alerted : Finset UInt32) : Prop where
  estimator_eq : e₀.recordAll (stream key s.log s.number) = some estimator
  alerted_iff : ∀ x, x ∈ alerted ↔ Crossed key e₀.estimateAfter t s.log (s.number, x)
  le_number : ∀ p ∈ s.log, p.1 ≤ s.number

namespace Watch

variable {s : Windows E} {estimator : Estimator} {alerted : Finset UInt32}

theorem init (key : E → UInt32) (e₀ : Estimator) (t : ℕ) (start : UInt64) :
    Watch key e₀ t ⟨start, 0, []⟩ e₀ ∅ where
  estimator_eq := rfl
  alerted_iff := fun x => iff_of_false (Finset.notMem_empty x) (not_crossed (by simp) x)
  le_number := by simp

/-- Neither depends on where the window started. -/
theorem restart (h : Watch key e₀ t s estimator alerted) (start : UInt64) :
    Watch key e₀ t { s with start := start } estimator alerted :=
  ⟨h.estimator_eq, h.alerted_iff, h.le_number⟩

/-- `reset()` and `clear()` at the end of a window. -/
theorem ended (h : Watch key e₀ t s estimator alerted) (hfresh : e₀.Fresh) (start : UInt64) :
    Watch key e₀ t ⟨start, s.number + 1, s.log⟩ estimator.reset ∅ := by
  have hnew : ∀ p ∈ s.log, p.1 ≠ s.number + 1 := fun p hp => by
    have := h.le_number p hp
    omega
  refine ⟨?_, fun x => ?_, fun p hp => (h.le_number p hp).trans (Nat.le_succ _)⟩
  · obtain ⟨e', hrun, hreset, -⟩ := hfresh.recordAll (stream key s.log s.number)
    rw [h.estimator_eq] at hrun
    rw [Option.some.inj hrun, hreset, stream_eq_nil hnew]
    rfl
  · exact iff_of_false (Finset.notMem_empty x) (not_crossed hnew x)

/-- **Recording an event**: the estimate is the one of the log, the alerted keys
follow, and the new entry is raised when the code raises an alert. -/
theorem counted (h : Watch key e₀ t s estimator alerted) (hfresh : e₀.Fresh) (evt : E) :
    ∃ estimator' freq, estimator.recordU32 (key evt) = some estimator' ∧
      estimator'.estimateU32 (key evt) = some freq ∧
      freq.toNat = e₀.estimateAfter (stream key s.log s.number ++ [key evt]) (key evt) ∧
      Watch key e₀ t (count s evt) estimator'
        (if t < freq.toNat ∧ key evt ∉ alerted then insert (key evt) alerted else alerted) ∧
      (Raised key e₀.estimateAfter t (count s evt).log s.log.length
        ↔ t < freq.toNat ∧ key evt ∉ alerted) := by
  obtain ⟨estimator', hrun, -, hest⟩ :=
    hfresh.recordAll (stream key s.log s.number ++ [key evt])
  obtain ⟨freq, hfreq, hval⟩ := hest (key evt)
  have hrec : estimator.recordU32 (key evt) = some estimator' := by
    rw [Estimator.recordAll_append, h.estimator_eq] at hrun
    exact hrun
  have hraised : Raised key e₀.estimateAfter t (s.log ++ [(s.number, evt)]) s.log.length ↔ _ :=
    raised_append_last s.number evt
  rw [← hval, ← h.alerted_iff] at hraised
  refine ⟨estimator', freq, hrec, hfreq, hval, ⟨?_, fun x => ?_, ?_⟩, hraised⟩
  · show e₀.recordAll (stream key (s.log ++ [(s.number, evt)]) s.number) = _
    rw [stream_append_self, hrun]
  · show _ ↔ Crossed key _ t (s.log ++ [(s.number, evt)]) (s.number, x)
    rw [crossed_append, ← h.alerted_iff, ← hval, Prod.mk.injEq]
    by_cases hcond : t < freq.toNat ∧ key evt ∉ alerted
    · rw [if_pos hcond, Finset.mem_insert]
      have ht := hcond.1
      tauto
    · -- either below the threshold, or alerted before
      rw [if_neg hcond]
      constructor
      · exact Or.inl
      · rintro (hx | ⟨⟨-, rfl⟩, ht⟩)
        · exact hx
        · by_contra hx
          exact hcond ⟨ht, hx⟩
  · intro p hp
    rcases List.mem_append.mp hp with hp | hp
    · exact h.le_number p hp
    · rw [List.mem_singleton.mp hp]
      exact le_rfl

end Watch

end Frequency
