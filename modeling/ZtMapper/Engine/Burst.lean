/-
# Bursts of connections

A source with more than `2 t` connections within the length of a window is
alerted in a window that holds one of them (`burst_alerted`): the burst meets at
most two windows, and the larger half of it exceeds the threshold `t` there.
The sketch needs fewer than `2^64` events for this, and the algorithms that
count vertices in an `int` fewer than `2^31` addresses.
-/
import ZtMapper.Engine.Windows

open Frequency Loop Pipeline Tumbling WindowLog

namespace Engine

variable {eng : Engine} {env : Env} {cfg : PipelineConfig} {s₀ s : State}
  {events : List NetworkEvent} {outs : List Output}

/-- A connection of the source `x` in the interval that starts at `a` and is as
long as a window. -/
def InBurst (cfg : PipelineConfig) (x : UInt32) (a : ℕ) (evt : NetworkEvent) : Prop :=
  evt.srcIp = x ∧ a ≤ evt.timestampNs.toNat ∧
    (evt.timestampNs.toNat : ℤ) ≤ a + cfg.windowSeconds.toInt * 1000000000

instance (cfg : PipelineConfig) (x : UInt32) (a : ℕ) (evt : NetworkEvent) :
    Decidable (InBurst cfg x a evt) :=
  inferInstanceAs (Decidable (_ ∧ _))

/-- A `port_scan` alert for `x` is emitted in a window that contains an event of
the burst. -/
def BurstAlerted (cfg : PipelineConfig) (x : UInt32) (a : ℕ) (events : List NetworkEvent)
    (outs : List Output) : Prop :=
  ∃ i j out alert evt, outs[i]? = some out ∧ alert ∈ out.alerts ∧ alert.type = "port_scan" ∧
    alert.source = ipToString x ∧ events[j]? = some evt ∧ InBurst cfg x a evt ∧
    windowOf outs i = windowOf outs j

/-- The streams and configurations in question. -/
structure BurstInput (cfg : PipelineConfig) (events : List NetworkEvent) (x : UInt32) (a : ℕ) :
    Prop where
  threshold_nonneg : 0 ≤ cfg.frequency.threshold.toInt
  window_nonneg : 0 ≤ cfg.windowSeconds.toInt
  one_le_interval : 1 ≤ cfg.sccIntervalSeconds.toInt
  interval_le : cfg.sccIntervalSeconds.toInt ≤ 100000000
  positive : ∀ evt ∈ events, evt.timestampNs ≠ 0
  ordered : events.Pairwise fun evt evt' => evt.timestampNs ≤ evt'.timestampNs
  many : 2 * cfg.frequency.threshold.toInt.toNat + 1
    ≤ events.countP fun evt => InBurst cfg x a evt

/-- The estimators for which a burst is not missed. -/
def Counting (cfg : PipelineConfig) (events : List NetworkEvent) : Prop :=
  cfg.frequency.name = "hash_map_exact" ∨
    (cfg.frequency.name = "count_min_sketch" ∧ events.length < 2 ^ 64)

/-- What the log says of an event of the run. -/
theorem InWindows.of_getElem? (h : InWindows cfg events s outs) (hlen : outs.length = events.length)
    {i : ℕ} {p : ℕ × NetworkEvent} (hp : (windowsOf cfg events).log[i]? = some p) :
    events[i]? = some p.2 ∧ windowOf outs i = p.1 ∧ ∃ out, outs[i]? = some out := by
  have hsnd : (windowsOf cfg events).log.map (·.2) = events := map_snd_log events
  have hlt : i < outs.length := by
    have hi := (List.getElem?_eq_some_iff.mp hp).1
    have hlog : (windowsOf cfg events).log.length = events.length := length_log events
    omega
  refine ⟨?_, ?_, _, List.getElem?_eq_getElem hlt⟩
  · rw [← hsnd, List.getElem?_map, hp]
    rfl
  · have hfst := congrArg (·[i]?) h.windows_eq
    simp only [List.getElem?_map, hp, Option.map_some, List.getElem?_range hlt] at hfst
    exact (Option.some.inj hfst).symm

/-- One connection more than the threshold is over it. -/
theorem lt_estimateAfter {e₀ : Estimator} (hcreate : createEstimator cfg.frequency.name = .ok e₀)
    (hcounting : Counting cfg events) {t : ℕ} (ht : t + 1 < 2 ^ 64) {l : List UInt32} {x : UInt32}
    (hcount : l.count x = t + 1) (hlen : l.length ≤ events.length) : t < e₀.estimateAfter l x := by
  rcases hcounting with hname | ⟨hname, hlt⟩
  · rw [hname] at hcreate
    obtain rfl : Estimator.hashMapExact .create = e₀ := Except.ok.inj hcreate
    rw [Estimator.estimateAfter_hashMapExact, hcount, Nat.mod_eq_of_lt ht]
    omega
  · rw [hname] at hcreate
    obtain rfl : Estimator.countMinSketch (.create 2048 5) = e₀ := Except.ok.inj hcreate
    have hle := (Estimator.estimateAfter_countMinSketch (by decide : (1 : UInt32) ≤ 2048)
      (by decide : (1 : UInt32) ≤ 5) (lt_of_le_of_lt hlen hlt) x).1
    omega

/-- **A raised entry is seen**: the alert at the event, and the window it is in. -/
theorem exists_alert_of_raised (hsetup : setup env cfg = some (eng, s₀))
    (h : Reaches env cfg events s outs) {i w : ℕ} {x : UInt32}
    (hentry : entry NetworkEvent.srcIp (windowsOf cfg events).log i = some (w, x))
    (hraised : Raised NetworkEvent.srcIp s₀.freqEstimator.estimateAfter (thresholdOf cfg)
      (windowsOf cfg events).log i) :
    ∃ out alert, outs[i]? = some out ∧ alert ∈ out.alerts ∧ alert.type = "port_scan" ∧
      alert.source = ipToString x ∧ windowOf outs i = w := by
  obtain ⟨p, hp, heq⟩ := Option.map_eq_some_iff.mp hentry
  obtain ⟨rfl, rfl⟩ := Prod.mk.inj heq
  obtain ⟨hevt, hwindow, out, hout⟩ := h.inWindows.of_getElem? h.counters.2.2 hp
  have houtput := (h.scanning hsetup).outputs i p.2 out hevt hout
  rw [if_pos hraised] at houtput
  obtain ⟨alert, halert, htype⟩ := houtput.1
  exact ⟨out, alert, hout, halert, htype, (houtput.2 alert halert htype).1, hwindow⟩

theorem thresholdOf_eq {x : UInt32} {a : ℕ} (hinput : BurstInput cfg events x a) :
    thresholdOf cfg = cfg.frequency.threshold.toInt.toNat ∧ thresholdOf cfg + 1 < 2 ^ 64 := by
  have hlt := cfg.frequency.threshold.toInt_lt
  have ht : thresholdOf cfg = cfg.frequency.threshold.toInt.toNat :=
    toNat_ofInt hinput.threshold_nonneg (by omega)
  exact ⟨ht, by omega⟩

/-- The larger half of the burst lies in one window. -/
theorem BurstInput.exists_window {x : UInt32} {a : ℕ} (hinput : BurstInput cfg events x a) :
    ∃ p ∈ (windowsOf cfg events).log, InBurst cfg x a p.2 ∧ thresholdOf cfg + 1
      ≤ (stream NetworkEvent.srcIp (windowsOf cfg events).log p.1).count x := by
  have hsnd : (windowsOf cfg events).log.map (·.2) = events := map_snd_log events
  have hcount : 2 * thresholdOf cfg + 1
      ≤ (windowsOf cfg events).log.countP fun p => decide (InBurst cfg x a p.2) := by
    rw [(thresholdOf_eq hinput).1]
    refine hinput.many.trans_eq ?_
    conv_lhs => rw [← hsnd, List.countP_map]
    rfl
  obtain ⟨w, hw⟩ := exists_window_of_burst (ordered_windows hinput.positive hinput.ordered)
    (fun evt => decide (InBurst cfg x a evt)) (a := a) (fun evt hevt => by
      obtain ⟨-, hlo', hhi'⟩ := of_decide_eq_true hevt
      have hns := windowNs_eq hinput.window_nonneg
      omega) hcount
  obtain ⟨p, hp, hpw⟩ := List.countP_pos_iff.mp (lt_of_lt_of_le (Nat.succ_pos _) hw)
  rw [Bool.and_eq_true, decide_eq_true_iff, decide_eq_true_iff] at hpw
  obtain ⟨rfl, hburst⟩ := hpw
  refine ⟨p, hp, hburst, ?_⟩
  rw [count_stream]
  refine hw.trans (List.countP_mono_left fun q _ hq => ?_)
  rw [Bool.and_eq_true, decide_eq_true_iff, decide_eq_true_iff] at hq
  exact decide_eq_true ⟨hq.1, hq.2.1⟩

/-- **No burst hides between two windows.** -/
theorem burst_alerted (hsetup : setup env cfg = some (eng, s₀)) {x : UInt32} {a : ℕ}
    (hinput : BurstInput cfg events x a) (hcounting : Counting cfg events)
    (hsize : eng.CountsVertices → (graphOf events).numVertices < 2 ^ 31) :
    ∃ s outs, Reaches env cfg events s outs ∧ BurstAlerted cfg x a events outs := by
  obtain ⟨m, hm, -⟩ := sccPeriod_eq hinput.one_le_interval hinput.interval_le
  obtain ⟨s, outs, hrun⟩ := exists_reaches_of_size hsetup ⟨m, hm⟩ events hsize
  refine ⟨s, outs, hrun, ?_⟩
  obtain ⟨p, hp, hburst, hstream⟩ := hinput.exists_window
  obtain ⟨j, hj⟩ := List.getElem?_of_mem hp
  obtain ⟨hevt, hwindowj, -⟩ := hrun.inWindows.of_getElem? hrun.counters.2.2 hj
  -- the entry at which the count of the window exceeds the threshold
  obtain ⟨i, hi, hcounti⟩ := exists_count_eq (Nat.succ_pos _) hstream
  have hover : Over NetworkEvent.srcIp s₀.freqEstimator.estimateAfter (thresholdOf cfg)
      (windowsOf cfg events).log i := by
    refine ⟨_, hi, lt_estimateAfter (created_of_setup hsetup).estimator_eq hcounting
      (thresholdOf_eq hinput).2 hcounti ?_⟩
    calc _ ≤ (stream NetworkEvent.srcIp (windowsOf cfg events).log p.1).length :=
          (stream_take_sublist _ _ _ _).length_le
      _ ≤ (windowsOf cfg events).log.length := length_stream_le _ _ _
      _ = events.length := length_log events
  obtain ⟨k, -, hentry, hraised⟩ := exists_raised_le hover
  obtain ⟨out, alert, hout, halert, htype, hsource, hwindowk⟩ :=
    exists_alert_of_raised hsetup hrun (hentry.trans hi) hraised
  exact ⟨k, j, out, alert, p.2, hout, halert, htype, hsource, hevt, hburst,
    hwindowk.trans hwindowj.symm⟩

/-- A threshold for the source frequencies, and a check every ten events. -/
def alertingConfig (estimator detector : String) (threshold : Int32) : PipelineConfig :=
  { PipelineConfig.plain estimator detector with
    frequency := { name := estimator, threshold := threshold }
    sccIntervalSeconds := 1 }

/-- Three connections of one host in 20 nanoseconds, with the threshold 1. -/
theorem burst_alerted_three :
    ∃ env s outs,
      Reaches env (alertingConfig "count_min_sketch" "tarjan" 1)
        [⟨1, 9, 80, 7, 10⟩, ⟨1, 9, 81, 7, 20⟩, ⟨1, 9, 82, 7, 30⟩] s outs ∧
      BurstAlerted (alertingConfig "count_min_sketch" "tarjan" 1) 1 10
        [⟨1, 9, 80, 7, 10⟩, ⟨1, 9, 81, 7, 20⟩, ⟨1, 9, 82, 7, 30⟩] outs := by
  obtain ⟨env⟩ := (inferInstance : Nonempty Env)
  obtain ⟨eng, s₀, hsetup⟩ :=
    exists_setup (alertingConfig "count_min_sketch" "tarjan" 1) rfl rfl rfl rfl env
  exact ⟨env, burst_alerted hsetup ⟨by decide, by decide, by decide, by decide, by decide,
    by decide, by decide⟩ (Or.inr ⟨rfl, by decide⟩)
    fun _ => lt_of_le_of_lt (numVertices_graphOf_le _) (by decide)⟩

/-! ## Where a burst is missed -/

/-- `n` connections of the host `1472`, then one of the host `1`, all at one time. -/
def flood (n : ℕ) : List NetworkEvent :=
  List.replicate n ⟨1472, 9, 80, 7, 1⟩ ++ [⟨1, 9, 80, 7, 1⟩]

/-- One connection of each of the hosts `0, …, n - 1` to itself. -/
def wide (n : ℕ) : List NetworkEvent :=
  (List.range n).map fun i => ⟨UInt32.ofNat i, UInt32.ofNat i, 80, 7, 1⟩

theorem burstInput_of_time_eq (estimator detector : String) {events : List NetworkEvent}
    {x : UInt32} (hone : ∀ evt ∈ events, evt.timestampNs = 1)
    (hx : ∃ evt ∈ events, evt.srcIp = x) :
    BurstInput (alertingConfig estimator detector 0) events x 1 := by
  refine ⟨?_, ?_, ?_, ?_, fun evt h => ?_, ?_, ?_⟩
  · show (0 : ℤ) ≤ (0 : Int32).toInt
    decide
  · show (0 : ℤ) ≤ (60 : Int32).toInt
    decide
  · show (1 : ℤ) ≤ (1 : Int32).toInt
    decide
  · show (1 : Int32).toInt ≤ (100000000 : ℤ)
    decide
  · rw [hone evt h]
    decide
  · refine List.pairwise_of_forall_mem_list fun evt h evt' h' => ?_
    rw [hone evt h, hone evt' h']
    exact UInt64.le_refl 1
  · obtain ⟨evt, h, rfl⟩ := hx
    refine List.countP_pos_iff.mpr ⟨evt, h, decide_eq_true ⟨rfl, ?_⟩⟩
    rw [hone evt h]
    show 1 ≤ (1 : UInt64).toNat ∧ ((1 : UInt64).toNat : ℤ) ≤ (1 : ℕ) + (60 : Int32).toInt * 1000000000
    decide

/-- `Kosaraju` and `BFS` count no vertices. -/
theorem Created.not_countsVertices (h : Created cfg eng s₀) (hscc : cfg.scc.name = "kosaraju")
    (hreach : cfg.reachability.name = "bfs") : ¬ eng.CountsVertices := by
  have h1 := h.scc_eq
  have h2 := h.reachability_eq
  rw [hscc] at h1
  rw [hreach] at h2
  rw [CountsVertices, ← Except.ok.inj h1, ← Except.ok.inj h2]
  simp

/-- The sketch of the engine has lost the count of the host `1` at the end of the flood. -/
theorem not_burstAlerted_flood (env : Env) {n : ℕ} (hn : n + 1 = 2 ^ 64) :
    ∃ s outs, Reaches env (alertingConfig "count_min_sketch" "kosaraju" 0) (flood n) s outs ∧
      ¬ BurstAlerted (alertingConfig "count_min_sketch" "kosaraju" 0) 1 1 (flood n) outs := by
  obtain ⟨eng, s₀, hsetup⟩ :=
    exists_setup (alertingConfig "count_min_sketch" "kosaraju" 0) rfl rfl rfl rfl env
  have hcreated := created_of_setup hsetup
  obtain ⟨s, outs, hrun⟩ := exists_reaches_of_size hsetup ⟨10, by decide⟩ (flood n) fun h =>
    absurd h (hcreated.not_countsVertices rfl rfl)
  refine ⟨s, outs, hrun, ?_⟩
  rintro ⟨i, j, out, alert, evt, hout, halert, htype, hsource, -⟩
  have hlen := hrun.counters.2.2
  have hi : i < (flood n).length := hlen ▸ (List.getElem?_eq_some_iff.mp hout).1
  have houtput := (hrun.scanning hsetup).outputs i _ out (List.getElem?_eq_getElem hi) hout
  split_ifs at houtput with hraised
  · -- the alert is about the host `1`, so it is at the last event
    have hsrc := (houtput.2 alert halert htype).1
    rw [hsource] at hsrc
    have hlog : (windowsOf (alertingConfig "count_min_sketch" "kosaraju" 0) (flood n)).log
        = (flood n).map (Prod.mk 0) := log_of_time_eq (t := 1) fun e he => by
      rcases List.mem_append.mp he with he | he
      · rw [List.eq_of_mem_replicate he]
      · rw [List.mem_singleton.mp he]
    have hne : NetworkEvent.srcIp ⟨1472, 9, 80, 7, 1⟩ ≠ NetworkEvent.srcIp ⟨1, 9, 80, 7, 1⟩ := by
      decide
    have hone : (flood n)[i].srcIp = 1 := by
      rcases List.mem_append.mp (List.getElem_mem hi) with h | h
      · rw [List.eq_of_mem_replicate h] at hsrc
        exact absurd hsrc (by decide)
      · rw [List.mem_singleton.mp h]
    have hentry : entry NetworkEvent.srcIp ((flood n).map (Prod.mk 0)) i = some (0, 1) := by
      rw [entry, List.getElem?_map, List.getElem?_eq_getElem hi, ← hone]
      rfl
    have hover := hraised.1
    rw [hlog] at hover
    have hest := (over_replicate_append hne hentry).2.2.mp hover
    have he₀ : s₀.freqEstimator = .countMinSketch (.create 2048 5) :=
      (Except.ok.inj hcreated.estimator_eq).symm
    have hcell : CountMinSketch.column 2048 0 (u32Bytes 1472)
        = CountMinSketch.column 2048 0 (u32Bytes 1) := by
      decide +kernel
    rw [he₀, Estimator.estimateAfter_collision (by decide) (by decide) hcell hn] at hest
    exact absurd hest (Nat.not_lt_zero _)
  · exact houtput alert halert htype

/-- `Tarjan` has no result on the graph of so many hosts, and its check is due. -/
theorem not_reaches_wide (env : Env) {n : ℕ} (hlo : 2 ^ 31 ≤ n) (hhi : n ≤ 2 ^ 32)
    (hmod : n % 10 = 0) {s : State} {outs : List Output} :
    ¬ Reaches env (alertingConfig "hash_map_exact" "tarjan" 0) (wide n) s outs := by
  intro h
  obtain ⟨hgraph, htotal, -⟩ := h.counters
  obtain ⟨eng, s₀, hsetup⟩ := h.exists_setup
  have hcreated := created_of_setup hsetup
  have hvertices : n ≤ (graphOf (wide n)).numVertices := by
    have hsub : ((List.range n).map UInt32.ofNat).toFinset ⊆ (graphOf (wide n)).vertices := by
      intro v hv
      obtain ⟨i, hi, rfl⟩ := List.mem_map.mp (List.mem_toFinset.mp hv)
      exact srcIp_mem_graphOf (List.mem_map_of_mem (f := fun i =>
        (⟨UInt32.ofNat i, UInt32.ofNat i, 80, 7, 1⟩ : NetworkEvent)) hi)
    have hcard := Finset.card_le_card hsub
    rwa [List.toFinset_card_of_nodup (DirectedGraph.nodup_map_ofNat hhi), List.length_map,
      List.length_range] at hcard
  -- the check is due at the last event, when all hosts are in the graph
  obtain ⟨m, rfl⟩ : ∃ m, n = m + 1 := ⟨n - 1, by omega⟩
  have hsplit : wide (m + 1) = wide m ++ [⟨UInt32.ofNat m, UInt32.ofNat m, 80, 7, 1⟩] := by
    rw [wide, List.range_succ, List.map_append]
    rfl
  have hlen : (wide (m + 1)).length = m + 1 := by rw [wide, List.length_map, List.length_range]
  rw [hlen] at htotal
  rw [hsplit] at h
  obtain ⟨s₁, outs₁, out, -, hstep, -⟩ := h.stepped hsetup
  obtain ⟨_, sccAlerts, -, -, period, hperiod, hcheck⟩ := hstep.alerts_eq
  rw [hcreated.cfg_eq] at hperiod
  have hten : period = 10 := Option.some.inj (hperiod.symm.trans rfl)
  rw [hten] at hcheck
  have hdue : s.totalEvents % 10 = 0 := by
    rw [htotal]
    apply UInt64.toNat.inj
    rw [UInt64.toNat_mod, UInt64.toNat_ofNat_of_lt' (lt_of_le_of_lt hhi (by decide))]
    exact hmod
  have hsize := hcheck.size hdue (Except.ok.inj hcreated.scc_eq).symm
  rw [hgraph] at hsize
  omega

/-- **A burst is missed** by the sketch when its counters wrap, and by an engine
that stops at a check of `Tarjan` over too many hosts. -/
theorem not_burst_alerted :
    ((BurstInput (alertingConfig "count_min_sketch" "kosaraju" 0) (flood (2 ^ 64 - 1)) 1 1 ∧
      ∀ env, ∃ s outs,
        Reaches env (alertingConfig "count_min_sketch" "kosaraju" 0) (flood (2 ^ 64 - 1)) s outs ∧
        ¬ BurstAlerted (alertingConfig "count_min_sketch" "kosaraju" 0) 1 1 (flood (2 ^ 64 - 1))
          outs) ∧
    BurstInput (alertingConfig "hash_map_exact" "tarjan" 0) (wide (2 ^ 31 + 2)) 0 1 ∧
      ∀ env, ¬ ∃ s outs,
        Reaches env (alertingConfig "hash_map_exact" "tarjan" 0) (wide (2 ^ 31 + 2)) s outs) := by
  have hn : 2 ^ 64 - 1 + 1 = 2 ^ 64 := Nat.sub_add_cancel (by norm_num)
  have hlo : 2 ^ 31 ≤ 2 ^ 31 + 2 := Nat.le_add_right _ _
  have hhi : 2 ^ 31 + 2 ≤ 2 ^ 32 := by norm_num
  have hmod : (2 ^ 31 + 2) % 10 = 0 := by norm_num
  generalize 2 ^ 64 - 1 = n at hn ⊢
  generalize 2 ^ 31 + 2 = m at hlo hhi hmod ⊢
  refine ⟨⟨?_, fun env => not_burstAlerted_flood env hn⟩, ?_, ?_⟩
  · refine burstInput_of_time_eq _ _ (fun evt h => ?_) ⟨_, List.mem_append_right _ List.mem_cons_self, rfl⟩
    rcases List.mem_append.mp h with h | h
    · rw [List.eq_of_mem_replicate h]
    · rw [List.mem_singleton.mp h]
  · refine burstInput_of_time_eq _ _ (fun evt h => ?_)
      ⟨_, List.mem_map.mpr ⟨0, List.mem_range.mpr (by omega), rfl⟩, rfl⟩
    obtain ⟨i, -, rfl⟩ := List.mem_map.mp h
    rfl
  · rintro env ⟨s, outs, h⟩
    exact not_reaches_wide env hlo hhi hmod h

end Engine
