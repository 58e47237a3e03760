/-
# Alerts out of order

`Process` sets `LastSeenNS` to the time of the alert at hand, also when an earlier
alert was later.  `keepsSpan_iff` says for which runs the state of an incident still
spans the times of its lifetime, and no alert within the window of an accepted one
starts an incident.
-/
import ZtMapper.Lib.Runs
import ZtMapper.Aggregator.Lifetime

open Unordered Runs

namespace Aggregator

/-- Two times are at most the window apart. -/
def Within (window s t : Int64) : Prop :=
  s.toInt - t.toInt ≤ window.toInt ∧ t.toInt - s.toInt ≤ window.toInt

instance (window s t : Int64) : Decidable (Within window s t) := inferInstanceAs (Decidable (_ ∧ _))

/-- The state of an incident tells the earliest and the latest time of its
lifetime. -/
structure Spans (st : IncidentState) (life : List Entry) : Prop where
  last_mem : ∃ e ∈ life, e.2 = st.lastSeenNs
  le_last : ∀ e ∈ life, e.2 ≤ st.lastSeenNs
  first_mem : ∃ e ∈ life, e.2 = st.firstSeenNs
  first_le : ∀ e ∈ life, st.firstSeenNs ≤ e.2

theorem spans_started (a : Alert) (now : Int64) : Spans (started a now) [(a, now)] where
  last_mem := ⟨_, List.mem_singleton_self _, rfl⟩
  le_last := fun e he => by rw [List.mem_singleton.mp he]; exact Int64.le_refl now
  first_mem := ⟨_, List.mem_singleton_self _, rfl⟩
  first_le := fun e he => by rw [List.mem_singleton.mp he]; exact Int64.le_refl now

/-- One more alert keeps the span exactly when it is not earlier than the last. -/
theorem Spans.absorbed_iff {st : IncidentState} {life : List Entry} (h : Spans st life) (a : Alert)
    (now : Int64) : Spans (absorbed st a now) (life ++ [(a, now)]) ↔ st.lastSeenNs ≤ now := by
  constructor
  · intro habs
    obtain ⟨e, he, heq⟩ := h.last_mem
    rw [← heq]
    exact habs.le_last e (List.mem_append_left _ he)
  · intro hle
    obtain ⟨e, he, heq⟩ := h.last_mem
    refine ⟨⟨_, List.mem_append_right _ (List.mem_singleton_self _), rfl⟩, fun e' he' => ?_, ?_,
      fun e' he' => ?_⟩
    · rcases List.mem_append.mp he' with he' | he'
      · exact Int64.le_trans (h.le_last e' he') hle
      · rw [List.mem_singleton.mp he']
        exact Int64.le_refl now
    · obtain ⟨e', he', heq'⟩ := h.first_mem
      exact ⟨e', List.mem_append_left _ he', heq'⟩
    · rcases List.mem_append.mp he' with he' | he'
      · exact h.first_le e' he'
      · rw [List.mem_singleton.mp he']
        exact Int64.le_trans (heq ▸ h.first_le e he) hle

/-- An alert not earlier than the last one, and with which the incident is expired,
is not within the window of an alert of the lifetime. -/
theorem Spans.not_within {c : Correlator} {st : IncidentState} {life : List Entry} (h : Spans st life)
    {now : Int64} (hle : st.lastSeenNs ≤ now) (hexp : c.Expired now st) :
    ∀ e ∈ life, ¬ Within c.window now e.2 := by
  rintro e he ⟨hnear, -⟩
  have hlast := Int64.le_iff_toInt_le.mp (h.le_last e he)
  have hnow := Int64.le_iff_toInt_le.mp hle
  have hdiff := Int64.lt_iff_toInt_lt.mp hexp
  have hpos := Int64.lt_iff_toInt_lt.mp c.window_pos
  rw [Int64.toInt_sub, Int.bmod_def] at hdiff
  have hlo := st.lastSeenNs.le_toInt
  have hhi := now.toInt_lt
  rw [Int64.toInt_zero] at hpos
  split_ifs at hdiff <;> omega

/-! ## One operation -/

namespace Traced

/-- Every incident spans its lifetime. -/
def Spanned (t : Traced) : Prop :=
  ∀ key st, t.corr.incidents.lookup key = some st → Spans st (t.life key)

/-- An alert within the window of an accepted one does not start an incident. -/
def Absorbs (t : Traced) : Op → Prop
  | .process a clock => ¬ a.Malformed →
      (∃ e ∈ t.life a.key, Within t.corr.window (a.time clock) e.2) → ¬ t.corr.StartsFresh a clock
  | .evictExpired _ => True

/-- An alert that finds an incident of its key is not earlier than the last alert.
The exception is an alert that is earlier by so much that the `int64` difference
wraps beyond the window, and that is far from every accepted alert. -/
def InSequence (t : Traced) : Op → Prop
  | .process a clock => ¬ a.Malformed → ∀ st ∈ t.corr.incidents.lookup a.key,
      st.lastSeenNs ≤ a.time clock ∨ (t.corr.Expired (a.time clock) st ∧
        ∀ e ∈ t.life a.key, ¬ Within t.corr.window (a.time clock) e.2)
  | .evictExpired _ => True

variable {t : Traced} {a : Alert} {clock : Int64}

/-- Storing the state of one incident, with its lifetime. -/
theorem spanned_put_iff (h : t.Spanned) (key : String) (st : IncidentState) (life : List Entry) :
    Spanned ⟨t.corr.put key st, Function.update t.life key life⟩ ↔ Spans st life := by
  constructor
  · intro hput
    have hspans := hput key st (Correlator.lookup_put_self _ _ _)
    dsimp only at hspans
    rwa [Function.update_self] at hspans
  · intro hspans k st' hk
    dsimp only at hk ⊢
    rw [Correlator.lookup_put] at hk
    split_ifs at hk with heq
    · obtain rfl := Option.some.inj hk
      rw [heq, Function.update_self]
      exact hspans
    · rw [Function.update_of_ne heq]
      exact h k st' hk

/-- An alert that starts an incident. -/
theorem spanned_fresh_iff (htracked : Tracked t) (h : t.Spanned) (hmal : ¬ a.Malformed)
    (hfresh : t.corr.StartsFresh a clock) :
    (t.step (.process a clock)).Spanned ∧ t.Absorbs (.process a clock) ↔
      t.InSequence (.process a clock) := by
  rw [step_fresh hmal hfresh, spanned_put_iff h, and_iff_right (spans_started a _)]
  constructor
  · intro habsorbs _ st hst
    exact Or.inr ⟨hfresh st hst, fun e he hnear => habsorbs hmal ⟨e, he, hnear⟩ hfresh⟩
  · rintro hseq - ⟨e, he, hnear⟩ -
    cases hst : t.corr.incidents.lookup a.key with
    | none =>
      rw [htracked.none_eq _ hst] at he
      exact List.not_mem_nil he
    | some st =>
      rcases hseq hmal st hst with hle | ⟨-, hfar⟩
      · exact (h _ st hst).not_within hle (hfresh st hst) e he hnear
      · exact hfar e he hnear

/-- An alert that is absorbed. -/
theorem spanned_live_iff (h : t.Spanned) (hmal : ¬ a.Malformed) {st : IncidentState}
    (hlive : t.corr.Live a clock st) :
    (t.step (.process a clock)).Spanned ∧ t.Absorbs (.process a clock) ↔
      t.InSequence (.process a clock) := by
  rw [step_live hmal hlive, spanned_put_iff h, (h _ st hlive.1).absorbed_iff]
  constructor
  · rintro ⟨hle, -⟩ - st' hst'
    obtain rfl := Option.some.inj (hlive.1.symm.trans hst')
    exact Or.inl hle
  · intro hseq
    refine ⟨?_, fun _ _ hfresh => Correlator.startsFresh_iff.mp hfresh st hlive⟩
    rcases hseq hmal st hlive.1 with hle | ⟨hexp, -⟩
    · exact hle
    · exact absurd hexp hlive.2

theorem spanned_step_iff (htracked : Tracked t) (h : t.Spanned) (op : Op) :
    (t.step op).Spanned ∧ t.Absorbs op ↔ t.InSequence op := by
  cases op with
  | process a clock =>
    by_cases hmal : a.Malformed
    · rw [step_malformed t hmal]
      exact iff_of_true ⟨h, fun hnot => absurd hmal hnot⟩ fun hnot => absurd hmal hnot
    by_cases hfresh : t.corr.StartsFresh a clock
    · exact spanned_fresh_iff htracked h hmal hfresh
    · obtain ⟨st, hlive⟩ := Correlator.exists_live hfresh
      exact spanned_live_iff h hmal hlive
  | evictExpired clock =>
    refine iff_of_true ⟨fun key st hst => ?_, trivial⟩ trivial
    obtain ⟨hlookup, hlife⟩ := lookup_step_evictExpired hst
    rw [hlife]
    exact h key st hlookup

end Traced

/-! ## Runs -/

/-- In every state of a run every incident spans its lifetime, and no alert within
the window of an accepted one starts an incident. -/
structure KeepsSpan (c : Correlator) (ops : List Op) : Prop where
  spanned : ∀ pre, pre <+: ops → (trace c pre).Spanned
  absorbs : Along (fun pre op => (trace c pre).Absorbs op) ops

theorem keepsSpan_concat {c : Correlator} {ops : List Op} {op : Op} :
    KeepsSpan c (ops ++ [op]) ↔
      KeepsSpan c ops ∧ (trace c (ops ++ [op])).Spanned ∧ (trace c ops).Absorbs op := by
  constructor
  · rintro ⟨hspanned, habsorbs⟩
    obtain ⟨halong, hop⟩ := along_concat.mp habsorbs
    exact ⟨⟨fun pre hpre => hspanned pre (hpre.trans (List.prefix_append _ _)), halong⟩,
      hspanned _ List.prefix_rfl, hop⟩
  · rintro ⟨⟨hspanned, halong⟩, hlast, hop⟩
    refine ⟨fun pre hpre => ?_, along_concat.mpr ⟨halong, hop⟩⟩
    rcases List.prefix_concat_iff.mp hpre with rfl | hpre
    · exact hlast
    · exact hspanned pre hpre

/-- **Incidents keep their span** exactly along the runs whose alerts are in
sequence. -/
theorem keepsSpan_iff (window : Int64) (hwindow : 0 < window) (ops : List Op) :
    KeepsSpan (newCorrelator window hwindow) ops ↔
      Along (fun pre op => (trace (newCorrelator window hwindow) pre).InSequence op) ops := by
  refine along_iff (G := KeepsSpan (newCorrelator window hwindow)) ⟨fun pre hpre => ?_, along_nil⟩
    (fun ops op h => (keepsSpan_concat.mp h).1) ?_ ops
  · rw [List.prefix_nil.mp hpre]
    exact fun key st hst => absurd hst (by simp [trace, Traced.run, newCorrelator])
  · intro ops op hgood _
    rw [keepsSpan_concat, and_iff_right hgood, trace, Traced.run_append]
    exact Traced.spanned_step_iff (tracked_run (tracked_start window hwindow) ops)
      (hgood.spanned ops List.prefix_rfl) op

/-- Alerts in order, the second within the window of the first. -/
theorem keepsSpan_iff_sorted :
    let c := newCorrelator 60 (by decide)
    let ops : List Op := [.process ⟨"scan", "10.0.0.1", 50, "low", "", "", "n1", "", [], "", none⟩ 0,
      .process ⟨"scan", "10.0.0.1", 100, "low", "", "", "n2", "", [], "", none⟩ 0]
    KeepsSpan c ops ↔ Along (fun pre op => (trace c pre).InSequence op) ops :=
  keepsSpan_iff 60 (by decide) _

/-- An alert of 50 after one of 100 moves `LastSeenNS` back, and one of 115, within
the window of 60 of the first, starts an incident. -/
theorem not_keepsSpan :
    let c := newCorrelator 60 (by decide)
    let a : Alert := ⟨"scan", "10.0.0.1", 100, "low", "", "", "n1", "", [], "", none⟩
    let b : Alert := ⟨"scan", "10.0.0.1", 50, "low", "", "", "n2", "", [], "", none⟩
    let d : Alert := ⟨"scan", "10.0.0.1", 115, "low", "", "", "n1", "", [], "", none⟩
    let ops : List Op := [.process a 0, .process b 0, .process d 0]
    ¬ KeepsSpan c ops := by
  intro c a b d ops h
  have habsorbs : (trace c [.process a 0, .process b 0]).Absorbs (.process d 0) :=
    h.absorbs _ _ [] rfl
  exact habsorbs (by decide) ⟨(a, 100), by decide, by decide⟩ (by decide)

end Aggregator
