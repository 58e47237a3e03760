/-
# When a window is reset

The engine and the stand-alone detector compute the age of a window by an
unsigned subtraction.  `resets_late_iff` says exactly in which runs this agrees
with the integers: a reset only past the end of the window, and a start that
never moves back.
-/
import ZtMapper.Engine.Windows
import ZtMapper.Portscan.DetectorCorrect

open Pipeline Tumbling

/-- The window logic on one event, as over the integers: what was counted is
`kept` unless it is `cleared`, it is cleared only on an event later than the end
of the window, and a start that is set does not decrease. -/
structure ResetsLate (length start now start' : UInt64) (cleared kept : Prop) : Prop where
  kept : ¬ cleared → kept
  late : cleared → start.toNat + length.toNat < now.toNat
  start_le : start ≠ 0 → start ≤ start'

theorem resetsLate_iff_forward {length start now start' : UInt64} {cleared kept : Prop}
    (hstart : start' = startAt length start now) (hcleared : cleared ↔ ends length start now = true)
    (hkept : ¬ cleared → kept) :
    ResetsLate length start now start' cleared kept ↔ Forward length start now := by
  rw [← forward_iff, hstart]
  exact ⟨fun h => ⟨fun hends => h.late (hcleared.mpr hends), h.start_le⟩,
    fun h => ⟨hkept, fun hc => h.1 (hcleared.mp hc), h.2⟩⟩

/-! ## The detector -/

namespace Portscan

variable {cfg : DetectorConfig} {d d' : PortScanDetector} {evt : NetworkEvent}
  {events : List NetworkEvent}

/-- What `process` does after the window logic. -/
theorem process_eq {emitted : Bool} (h : d.process evt = some (d', emitted)) :
    d'.cfg = (d.maybeResetWindow evt.timestampNs).cfg ∧
      d'.windowStartNs = (d.maybeResetWindow evt.timestampNs).windowStartNs ∧
      d'.windowId = (d.maybeResetWindow evt.timestampNs).windowId ∧
      (d.maybeResetWindow evt.timestampNs).estimator.recordU32 evt.srcIp = some d'.estimator ∧
      (d.maybeResetWindow evt.timestampNs).alertedInWindow ⊆ d'.alertedInWindow := by
  unfold PortScanDetector.process at h
  simp only [Option.bind_eq_bind, Option.bind_eq_some_iff] at h
  obtain ⟨e, he, freq, -, h⟩ := h
  split_ifs at h
  · obtain ⟨rfl, -⟩ := Prod.mk.inj (Option.some.inj h)
    exact ⟨rfl, rfl, rfl, he, Finset.subset_insert _ _⟩
  · obtain ⟨rfl, -⟩ := Prod.mk.inj (Option.some.inj h)
    exact ⟨rfl, rfl, rfl, he, Finset.Subset.refl _⟩

/-- The state before the last event of a run. -/
theorem run_concat {outs : List PortScanDetector.Output}
    (h : d.run (events ++ [evt]) = some (d', outs)) :
    ∃ d₁ outs₁ emitted, d.run events = some (d₁, outs₁) ∧ d₁.process evt = some (d', emitted) := by
  rw [run_append, Option.bind_eq_some_iff] at h
  obtain ⟨⟨d₁, outs₁⟩, hrun, hstep⟩ := h
  simp only [PortScanDetector.runStep, Option.bind_eq_bind, Option.bind_eq_some_iff] at hstep
  obtain ⟨⟨d₂, emitted⟩, hproc, heq⟩ := hstep
  obtain ⟨rfl, -⟩ := Prod.mk.inj (Option.some.inj heq)
  exact ⟨d₁, outs₁, emitted, hrun, hproc⟩

/-- The start of the window of a run. -/
theorem start_of_run (hnew : PortScanDetector.create cfg = .ok d)
    {outs : List PortScanDetector.Output} (h : d.run events = some (d', outs)) :
    d'.cfg = cfg ∧ d'.windowStartNs = (windowsOf cfg events).start := by
  induction events using List.reverseRecOn generalizing d' outs with
  | nil =>
    obtain ⟨rfl, -⟩ := Prod.mk.inj (Option.some.inj h)
    have hfollows := follows_create hnew
    exact ⟨hfollows.cfg_eq, hfollows.windowStartNs_eq⟩
  | append_singleton events evt ih =>
    obtain ⟨d₁, outs₁, emitted, hrun, hproc⟩ := run_concat h
    obtain ⟨hcfg, hstart⟩ := ih hrun
    obtain ⟨hcfg', hstart', -⟩ := process_eq hproc
    refine ⟨hcfg'.trans ((cfg_maybeResetWindow d₁ _).trans hcfg), ?_⟩
    rw [hstart', windowStartNs_maybeResetWindow, hcfg, hstart]
    exact (congrArg Windows.start (windows_append events evt)).symm

/-- The last event of a run, by the condition on its timestamp. -/
theorem resetsLate_iff (hnew : PortScanDetector.create cfg = .ok d) {d₁ d₂ : PortScanDetector}
    {outs₁ outs₂ : List PortScanDetector.Output} (h₁ : d.run events = some (d₁, outs₁))
    (h₂ : d.run (events ++ [evt]) = some (d₂, outs₂)) :
    ResetsLate cfg.windowNs d₁.windowStartNs evt.timestampNs d₂.windowStartNs
        (d₂.windowId ≠ d₁.windowId)
        (d₁.estimator.recordU32 evt.srcIp = some d₂.estimator ∧
          d₁.alertedInWindow ⊆ d₂.alertedInWindow) ↔
      Forward cfg.windowNs (windowsOf cfg events).start evt.timestampNs := by
  obtain ⟨d₁', outs₁', emitted, hrun, hproc⟩ := run_concat h₂
  obtain ⟨rfl, -⟩ := Prod.mk.inj (Option.some.inj (h₁.symm.trans hrun))
  obtain ⟨hcfg, hstart⟩ := start_of_run hnew h₁
  obtain ⟨-, hstart', hid, hrec, hsub⟩ := process_eq hproc
  have hwindow := maybeResetWindow_eq d₁ evt.timestampNs
  rw [windowStartNs_maybeResetWindow, hcfg] at hstart'
  rw [hcfg] at hwindow
  rw [← hstart]
  have hcleared : d₂.windowId ≠ d₁.windowId
      ↔ ends cfg.windowNs d₁.windowStartNs evt.timestampNs = true := by
    rw [hid, hwindow]
    split_ifs with hends
    · exact iff_of_true (by simp) hends
    · exact iff_of_false (fun h => h rfl) hends
  refine resetsLate_iff_forward hstart' hcleared fun hnot => ?_
  rw [hwindow, if_neg (fun h => hnot (hcleared.mpr h))] at hrec hsub
  exact ⟨hrec, hsub⟩

/-- The initial parts of a run are runs. -/
theorem run_prefix {pre : List NetworkEvent} (hpre : pre <+: events)
    {outs : List PortScanDetector.Output} (h : d.run events = some (d', outs)) :
    ∃ d₁ outs₁, d.run pre = some (d₁, outs₁) := by
  obtain ⟨rest, rfl⟩ := hpre
  rw [PortScanDetector.run, List.foldlM_append, Option.bind_eq_bind, Option.bind_eq_some_iff] at h
  obtain ⟨r, hr, -⟩ := h
  exact ⟨r.1, r.2, hr⟩

end Portscan

/-! ## The engine -/

namespace Engine

variable {env : Env} {cfg : PipelineConfig} {s₁ s₂ : State} {events : List NetworkEvent}
  {evt : NetworkEvent} {outs : List Output} {out : Output}

/-- The last event of a run, by the condition on its timestamp. -/
theorem resetsLate_iff (h₁ : Reaches env cfg events s₁ outs)
    (h₂ : Reaches env cfg (events ++ [evt]) s₂ (outs ++ [out])) :
    ResetsLate (windowNs cfg) s₁.windowStartNs evt.timestampNs s₂.windowStartNs
        (out.windowReset = true)
        (s₁.freqEstimator.recordU32 evt.srcIp = some s₂.freqEstimator ∧
          s₁.alertedSources ⊆ s₂.alertedSources) ↔
      Forward (windowNs cfg) (windowsOf cfg events).start evt.timestampNs := by
  obtain ⟨eng, s₀, hsetup⟩ := h₁.exists_setup
  obtain ⟨s₁', outs', out', hrun, hstep, houts⟩ := h₂.stepped hsetup
  obtain ⟨rfl, rfl⟩ := h₁.unique hrun
  obtain rfl : out = out' := by simpa using houts
  obtain ⟨hreset, hstart, hkeep⟩ := entered_eq_of_start cfg s₁ evt
  have hcfg := (created_of_setup hsetup).cfg_eq
  have hcleared : out.windowReset = ends (windowNs cfg) s₁.windowStartNs evt.timestampNs := by
    rw [hstep.windowReset_eq, hcfg, hreset]
  rw [← h₁.inWindows.windowStartNs_eq]
  refine resetsLate_iff_forward ?_ (by rw [hcleared]) fun hnot => ?_
  · rw [hstep.windowStartNs_eq, hcfg, hstart]
  · obtain ⟨hrec, hsub⟩ := hstep.counted
    rw [hcfg] at hrec hsub
    rw [if_neg (fun h => hnot (hcleared.trans h))] at hkeep
    rw [hkeep.1] at hrec
    rw [hkeep.2] at hsub
    exact ⟨hrec, hsub⟩

end Engine

/-! ## Both programs -/

/-- **Exactly the runs whose events are all `Forward`** reset their windows as
over the integers: at each event no window is open yet, or the event is not
older than the start of the window, or it is older by so much that the wrapped
difference is within the length of the window. -/
theorem resets_late_iff {env : Engine.Env} {cfg : Pipeline.PipelineConfig} {s : Engine.State}
    {events : List NetworkEvent} {outs : List Engine.Output}
    (h : Engine.Reaches env cfg events s outs)
    {dcfg : Portscan.DetectorConfig} {d d' : Portscan.PortScanDetector}
    {devents : List Portscan.NetworkEvent} {douts : List Portscan.PortScanDetector.Output}
    (hnew : Portscan.PortScanDetector.create dcfg = .ok d) (hd : d.run devents = some (d', douts)) :
    ((∀ pre evt s₁ outs₁ s₂ out, pre ++ [evt] <+: events →
        Engine.Reaches env cfg pre s₁ outs₁ →
        Engine.Reaches env cfg (pre ++ [evt]) s₂ (outs₁ ++ [out]) →
        ResetsLate (Engine.windowNs cfg) s₁.windowStartNs evt.timestampNs s₂.windowStartNs
          (out.windowReset = true)
          (s₁.freqEstimator.recordU32 evt.srcIp = some s₂.freqEstimator ∧
            s₁.alertedSources ⊆ s₂.alertedSources)) ↔
      ∀ pre evt, pre ++ [evt] <+: events →
        Forward (Engine.windowNs cfg) (Engine.windowsOf cfg pre).start evt.timestampNs) ∧
    ((∀ pre evt d₁ outs₁ d₂ outs₂, pre ++ [evt] <+: devents → d.run pre = some (d₁, outs₁) →
        d.run (pre ++ [evt]) = some (d₂, outs₂) →
        ResetsLate dcfg.windowNs d₁.windowStartNs evt.timestampNs d₂.windowStartNs
          (d₂.windowId ≠ d₁.windowId)
          (d₁.estimator.recordU32 evt.srcIp = some d₂.estimator ∧
            d₁.alertedInWindow ⊆ d₂.alertedInWindow)) ↔
      ∀ pre evt, pre ++ [evt] <+: devents →
        Forward dcfg.windowNs (Portscan.windowsOf dcfg pre).start evt.timestampNs) := by
  constructor
  · obtain ⟨eng, s₀, hsetup⟩ := h.exists_setup
    refine ⟨fun hlate pre evt hpre => ?_, fun hforward pre evt s₁ outs₁ s₂ out hpre h₁ h₂ =>
      (Engine.resetsLate_iff h₁ h₂).mpr (hforward pre evt hpre)⟩
    -- the run up to the event exists, so that the condition is tried on it
    obtain ⟨rest, rfl⟩ := hpre
    obtain ⟨s₂, outs₂, h₂, -⟩ := h.of_append hsetup
    obtain ⟨s₁, outs₁, out, h₁, -, rfl⟩ := h₂.stepped hsetup
    exact (Engine.resetsLate_iff h₁ h₂).mp
      (hlate pre evt s₁ outs₁ s₂ out (List.prefix_append _ _) h₁ h₂)
  · refine ⟨fun hlate pre evt hpre => ?_, fun hforward pre evt d₁ outs₁ d₂ outs₂ hpre h₁ h₂ =>
      (Portscan.resetsLate_iff hnew h₁ h₂).mpr (hforward pre evt hpre)⟩
    obtain ⟨d₂, outs₂, h₂⟩ := Portscan.run_prefix hpre hd
    obtain ⟨d₁, outs₁, h₁⟩ := Portscan.run_prefix ((List.prefix_append _ _).trans hpre) hd
    exact (Portscan.resetsLate_iff hnew h₁ h₂).mp (hlate pre evt d₁ outs₁ d₂ outs₂ hpre h₁ h₂)

/-- One event in the engine, and two connections of one host in the detector, the
second one stamped later. -/
theorem resets_late_iff_later :
    ∃ env s outs d d₁ d₂ outs₁ outs₂,
      Engine.Reaches env (.plain "count_min_sketch" "tarjan") [⟨1, 9, 80, 7, 10⟩] s outs ∧
      Portscan.PortScanDetector.create { algo := "hashmap" } = .ok d ∧
      d.run [⟨1, 9, 80, 5⟩] = some (d₁, outs₁) ∧
      d.run [⟨1, 9, 80, 5⟩, ⟨1, 9, 80, 10⟩] = some (d₂, outs₂) ∧
      ResetsLate 60000000000 d₁.windowStartNs 10 d₂.windowStartNs (d₂.windowId ≠ d₁.windowId)
        (d₁.estimator.recordU32 1 = some d₂.estimator ∧
          d₁.alertedInWindow ⊆ d₂.alertedInWindow) := by
  obtain ⟨env⟩ := (inferInstance : Nonempty Engine.Env)
  obtain ⟨eng, s₀, hsetup⟩ :=
    Engine.exists_setup (.plain "count_min_sketch" "tarjan") rfl rfl rfl rfl env
  obtain ⟨s, outs, h⟩ := Engine.exists_reaches_of_size hsetup ⟨100, by decide⟩
    [⟨1, 9, 80, 7, 10⟩] fun _ => lt_of_le_of_lt (Engine.numVertices_graphOf_le _) (by decide)
  obtain ⟨d, hnew, hfresh⟩ : ∃ d, Portscan.PortScanDetector.create { algo := "hashmap" } = .ok d ∧
      d.estimator.Fresh := ⟨_, rfl, .hashMapExact⟩
  obtain ⟨d₁, outs₁, h₁, -⟩ := Portscan.follows_run hnew hfresh [⟨1, 9, 80, 5⟩]
  obtain ⟨d₂, outs₂, h₂, -⟩ :=
    Portscan.follows_run hnew hfresh [⟨1, 9, 80, 5⟩, ⟨1, 9, 80, 10⟩]
  refine ⟨env, s, outs, d, d₁, d₂, outs₁, outs₂, h, hnew, h₁, h₂, ?_⟩
  refine (resets_late_iff h hnew h₂).2.mpr (fun pre evt hpre => ?_)
    [⟨1, 9, 80, 5⟩] ⟨1, 9, 80, 10⟩ d₁ outs₁ d₂ outs₂ List.prefix_rfl h₁ h₂
  obtain ⟨rest, hrest⟩ := hpre
  cases pre with
  | nil => exact Or.inl rfl
  | cons e pre =>
    cases pre with
    | nil =>
      obtain ⟨rfl, rfl⟩ : e = ⟨1, 9, 80, 5⟩ ∧ evt = ⟨1, 9, 80, 10⟩ := by
        simp at hrest
        exact ⟨hrest.1, hrest.2.1⟩
      exact Or.inr (Or.inl (by decide))
    | cons e' pre => exact absurd (congrArg List.length hrest) (by simp)

/-- After an event at `10`, an event at `5` resets a window of 60 seconds and
moves its start back, in both programs. -/
theorem resets_older :
    (∀ env, ∃ s₁ s₂ out₁ out₂,
      Engine.Reaches env (.plain "count_min_sketch" "tarjan") [⟨1, 9, 80, 7, 10⟩] s₁ [out₁] ∧
      Engine.Reaches env (.plain "count_min_sketch" "tarjan")
        [⟨1, 9, 80, 7, 10⟩, ⟨1, 9, 80, 7, 5⟩] s₂ [out₁, out₂] ∧
      ¬ ResetsLate 60000000000 s₁.windowStartNs 5 s₂.windowStartNs (out₂.windowReset = true)
        (s₁.freqEstimator.recordU32 1 = some s₂.freqEstimator ∧
          s₁.alertedSources ⊆ s₂.alertedSources)) ∧
    ∃ d d₁ d₂ outs₁ outs₂,
      Portscan.PortScanDetector.create { algo := "cms" } = .ok d ∧
      d.run [⟨1, 9, 80, 10⟩] = some (d₁, outs₁) ∧
      d.run [⟨1, 9, 80, 10⟩, ⟨1, 9, 80, 5⟩] = some (d₂, outs₂) ∧
      ¬ ResetsLate 60000000000 d₁.windowStartNs 5 d₂.windowStartNs (d₂.windowId ≠ d₁.windowId)
        (d₁.estimator.recordU32 1 = some d₂.estimator ∧
          d₁.alertedInWindow ⊆ d₂.alertedInWindow) := by
  constructor
  · intro env
    obtain ⟨eng, s₀, hsetup⟩ :=
      Engine.exists_setup (.plain "count_min_sketch" "tarjan") rfl rfl rfl rfl env
    obtain ⟨s₂, outs, h₂⟩ := Engine.exists_reaches_of_size hsetup ⟨100, by decide⟩
      ([⟨1, 9, 80, 7, 10⟩] ++ [⟨1, 9, 80, 7, 5⟩])
      fun _ => lt_of_le_of_lt (Engine.numVertices_graphOf_le _) (by decide)
    obtain ⟨s₁, outs₁, out₂, h₁, -, rfl⟩ := h₂.stepped hsetup
    have hlen := h₁.counters.2.2
    obtain ⟨out₁, rfl⟩ := List.length_eq_one_iff.mp hlen
    refine ⟨s₁, s₂, out₁, out₂, h₁, h₂, fun h => ?_⟩
    -- `5 - 10` wraps, far beyond the length of the window
    have hforward := (Engine.resetsLate_iff h₁ h₂).mp h
    unfold Forward at hforward
    exact absurd hforward (by decide)
  · obtain ⟨d, hnew, hfresh⟩ : ∃ d, Portscan.PortScanDetector.create { algo := "cms" } = .ok d ∧
        d.estimator.Fresh := ⟨_, rfl, .countMinSketch (by decide) 5⟩
    obtain ⟨d₁, outs₁, h₁, -⟩ := Portscan.follows_run hnew hfresh [⟨1, 9, 80, 10⟩]
    obtain ⟨d₂, outs₂, h₂, -⟩ :=
      Portscan.follows_run hnew hfresh ([⟨1, 9, 80, 10⟩] ++ [⟨1, 9, 80, 5⟩])
    refine ⟨d, d₁, d₂, outs₁, outs₂, hnew, h₁, h₂, fun h => ?_⟩
    have hforward := (Portscan.resetsLate_iff hnew h₁ h₂).mp h
    unfold Forward at hforward
    exact absurd hforward (by decide)
