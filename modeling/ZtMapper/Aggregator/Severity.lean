/-
# The severity of a cross-node emission

`Process` upgrades the severity of the alert that brings in the second node, and
does not look at the severities before it in the lifetime.  `neverLowers_iff` says
along which runs the emitted severity is at least all of them: no upgraded alert
may rank two or more below an alert of its lifetime.
-/
import ZtMapper.Aggregator.Lifetime
import ZtMapper.Lib.Runs

open Runs

namespace Aggregator

/-- The severities of an alert, from the lowest. -/
def severities : List String := ["low", "medium", "high", "critical"]

/-- The place of a severity among them. -/
def rank (s : String) : ℕ := severities.idxOf s

theorem rank_le_three {s : String} (h : s ∈ severities) : rank s ≤ 3 :=
  Nat.le_of_lt_succ (List.idxOf_lt_length_of_mem h)

/-- An upgrade is one rank, up to the highest. -/
theorem rank_upgradeSeverity {s : String} (h : s ∈ severities) :
    rank (upgradeSeverity s) = min (rank s + 1) 3 := by
  simp only [severities, List.mem_cons, List.not_mem_nil, or_false] at h
  rcases h with rfl | rfl | rfl | rfl <;> decide

/-- The alerts among some operations carry one of the four. -/
def Rated (ops : List Op) : Prop := ∀ a clock, Op.process a clock ∈ ops → a.severity ∈ severities

/-! ## The property and the condition -/

/-- A cross-node emission ranks at least as high as the alerts before it. -/
def EmitsAtLeast (reply : Reply) (before : List Entry) : Prop :=
  ∀ out ∈ reply.out, ∀ info ∈ out.correlation, info.crossNode = true →
    ∀ e ∈ before, rank e.1.severity ≤ rank out.severity

/-- The reply to an alert, against the alerts before it in its lifetime. -/
def KeepsSeverity (c : Correlator) (pre : List Op) : Op → Prop
  | .process a clock => ¬ a.Malformed →
    EmitsAtLeast ((c.run pre).process a clock).2
      (lifetime c (pre ++ [.process a clock]) a.key).dropLast
  | .evictExpired _ => True

/-- No cross-node emission of the run ranks below an alert that was already processed
in its lifetime. -/
def NeverLowers (c : Correlator) (ops : List Op) : Prop := Along (KeepsSeverity c) ops

/-- The alert brings in the second node of a live incident. -/
def Joins (c : Correlator) (a : Alert) (clock : Int64) : Prop :=
  ∃ st, c.Live a clock st ∧ ¬ 2 ≤ st.nodes.card ∧ 2 ≤ (recordNode st.nodes a.nodeName).card

/-- An alert that brings in the second node is at most one rank below the alerts
of the incident. -/
def StaysNear (c : Correlator) (pre : List Op) : Op → Prop
  | .process a clock => ¬ a.Malformed → Joins (c.run pre) a clock →
    ∀ e ∈ lifetime c pre a.key, rank e.1.severity ≤ rank a.severity + 1
  | .evictExpired _ => True

/-! ## One alert -/

section Step

variable {c : Correlator} {a : Alert} {clock : Int64} {st : IncidentState}

theorem joins_iff (hlive : c.Live a clock st) :
    Joins c a clock ↔ ¬ 2 ≤ st.nodes.card ∧ 2 ≤ (recordNode st.nodes a.nodeName).card := by
  constructor
  · rintro ⟨st', hlive', hcards⟩
    obtain rfl : st' = st := Option.some.inj (hlive'.1.symm.trans hlive.1)
    exact hcards
  · exact fun hcards => ⟨st, hlive, hcards⟩

/-- What is emitted to an alert of a live incident, on which the claim of being
cross-node rests. -/
theorem emitsAtLeast_update (hlive : c.Live a clock st) (now : Int64) (before : List Entry) :
    EmitsAtLeast (c.update st a now).2 before ↔
      (Joins c a clock → ∀ e ∈ before, rank e.1.severity ≤ rank (upgradeSeverity a.severity)) := by
  rw [joins_iff hlive]
  unfold Correlator.update
  dsimp only
  by_cases hcards : ¬ 2 ≤ st.nodes.card ∧ 2 ≤ (absorbed st a now).nodes.card
  · rw [if_pos hcards]
    constructor
    · exact fun h _ => h _ rfl _ rfl rfl
    · rintro h out hout info - -
      obtain rfl := Option.some.inj hout
      exact h hcards
  · rw [if_neg hcards]
    exact iff_of_true (fun out hout => absurd hout (Option.not_mem_none _))
      (fun hjoins => absurd hjoins hcards)

/-- Every alert of a lifetime carries one of the four. -/
def Traced.AllRated (t : Traced) : Prop := ∀ key, ∀ e ∈ t.life key, e.1.severity ∈ severities

theorem Traced.AllRated.step {t : Traced} (h : t.AllRated) {op : Op} (hop : Rated [op]) :
    (t.step op).AllRated := by
  intro key e he
  cases op with
  | process a clock =>
    have ha : a.severity ∈ severities := hop a clock (List.mem_singleton_self _)
    by_cases hmal : a.Malformed
    · rw [Traced.step_malformed t hmal] at he
      exact h key e he
    by_cases hkey : key = a.key
    · subst hkey
      by_cases hfresh : t.corr.StartsFresh a clock
      · rw [Traced.life_fresh hmal hfresh, List.mem_singleton] at he
        rwa [he]
      · obtain ⟨st, hlive⟩ := Correlator.exists_live hfresh
        rw [Traced.life_live hmal hlive, List.mem_append, List.mem_singleton] at he
        rcases he with he | rfl
        · exact h _ e he
        · exact ha
    · rw [Traced.life_of_ne hkey] at he
      exact h key e he
  | evictExpired clock =>
    have hmem : e ∈ if ((t.corr.evictExpired clock).incidents.lookup key).isSome then t.life key
        else [] := he
    split_ifs at hmem
    · exact h key e hmem
    · exact absurd hmem List.not_mem_nil

/-- The reply to one alert, after any run. -/
theorem emitsAtLeast_process {t : Traced} (ht : t.AllRated) (hmal : ¬ a.Malformed)
    (ha : a.severity ∈ severities) (clock : Int64) :
    EmitsAtLeast (t.corr.process a clock).2 ((t.step (.process a clock)).life a.key).dropLast ↔
      (Joins t.corr a clock →
        ∀ e ∈ t.life a.key, rank e.1.severity ≤ rank a.severity + 1) := by
  by_cases hfresh : t.corr.StartsFresh a clock
  · rw [Traced.life_fresh hmal hfresh]
    refine iff_of_true (fun _ _ _ _ _ e he => absurd he List.not_mem_nil) ?_
    rintro ⟨st, hlive, -⟩
    exact absurd hlive (Correlator.startsFresh_iff.mp hfresh st)
  · obtain ⟨st, hlive⟩ := Correlator.exists_live hfresh
    rw [Traced.life_live hmal hlive, List.dropLast_concat, Correlator.process_live hmal hlive,
      emitsAtLeast_update hlive, rank_upgradeSeverity ha]
    -- an earlier alert ranks at most 3, so that the upper end of the ranks does not matter
    refine imp_congr_right fun _ => forall₂_congr fun e he => ?_
    have hle : rank e.1.severity ≤ 3 := rank_le_three (ht _ e he)
    omega

end Step

/-! ## Runs -/

theorem rated_run {t : Traced} (ht : t.AllRated) {ops : List Op} (h : Rated ops) :
    (t.run ops).AllRated := by
  induction ops using List.reverseRecOn with
  | nil => exact ht
  | append_singleton ops op ih =>
    rw [Traced.run_append]
    refine (ih fun a clock hmem => h a clock (List.mem_append_left _ hmem)).step ?_
    exact fun a clock hmem => h a clock (List.mem_append_right _ hmem)

/-- **When an upgrade lowers nothing.**  Along any run of alerts with the four
severities and evictions, every cross-node emission ranks at least as high as the
alerts already processed in its lifetime if and only if no alert that brings in a
second node is two or more ranks below one of them. -/
theorem neverLowers_iff (window : Int64) (hwindow : 0 < window) (ops : List Op) (h : Rated ops) :
    NeverLowers (newCorrelator window hwindow) ops ↔
      Along (StaysNear (newCorrelator window hwindow)) ops := by
  refine forall₄_congr fun pre op post heq => ?_
  cases op with
  | process a clock =>
    have hpre : Rated pre := fun b clock' hmem =>
      h b clock' (heq ▸ List.mem_append_left _ hmem)
    have ha : a.severity ∈ severities :=
      h a clock (heq ▸ List.mem_append_right _ List.mem_cons_self)
    have hrated : (trace (newCorrelator window hwindow) pre).AllRated :=
      rated_run (fun _ e he => absurd he List.not_mem_nil) hpre
    refine imp_congr_right fun hmal => ?_
    have hstep := emitsAtLeast_process hrated hmal ha clock
    rw [trace, Traced.corr_run] at hstep
    rw [lifetime, Traced.run_append]
    exact hstep
  | evictExpired clock => exact Iff.rfl

/-- A high alert of one node, then a medium one of another. -/
theorem neverLowers_iff_medium :
    let c := newCorrelator 60 (by decide)
    let ops : List Op := [.process ⟨"scan", "10.0.0.1", 100, "high", "", "", "n1", "", [], "", none⟩ 7,
      .process ⟨"scan", "10.0.0.1", 120, "medium", "", "", "n2", "", [], "", none⟩ 7]
    NeverLowers c ops ↔ Along (StaysNear c) ops := by
  refine neverLowers_iff 60 (by decide) _ fun a clock hmem => ?_
  rw [List.mem_cons, List.mem_singleton] at hmem
  rcases hmem with heq | heq
  · rw [(Op.process.inj heq).1]
    decide
  · rw [(Op.process.inj heq).1]
    decide

/-- A critical alert of one node, then a low one of another, which is emitted as a
medium one. -/
theorem not_neverLowers_critical :
    ¬ NeverLowers (newCorrelator 60 (by decide))
      [.process ⟨"scan", "10.0.0.1", 100, "critical", "", "", "n1", "", [], "", none⟩ 7,
        .process ⟨"scan", "10.0.0.1", 120, "low", "", "", "n2", "", [], "", none⟩ 7] := by
  intro h
  exact absurd (h [.process ⟨"scan", "10.0.0.1", 100, "critical", "", "", "n1", "", [], "", none⟩ 7]
    (.process ⟨"scan", "10.0.0.1", 120, "low", "", "", "n2", "", [], "", none⟩ 7) [] rfl
    (by decide) _ rfl _ rfl rfl _ List.mem_cons_self) (by decide)

end Aggregator
