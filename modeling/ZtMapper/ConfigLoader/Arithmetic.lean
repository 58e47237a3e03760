/-
# The numbers of a loaded configuration in the event loop

No setting is validated when a configuration is loaded.  The arithmetic of the event
loop on the window, the threshold and the interval of the component check means what
it says exactly for the settings `InRange` (`loopSound_iff`).
-/
import ZtMapper.Engine.Start
import ZtMapper.Engine.Windows

open Engine hiding bytes
open Fallible Frequency Pipeline Soc Tumbling

namespace ConfigLoader

/-! ## The arithmetic -/

/-- The names of the algorithms are registered. -/
structure Registered (cfg : Pipeline.PipelineConfig) : Prop where
  frequency : cfg.frequency.name ∈ ["count_min_sketch", "hash_map_exact", "heavy_hitters"]
  scc : cfg.scc.name ∈ ["tarjan", "kosaraju"]
  reachability : cfg.reachability.name ∈ ["bfs", "dijkstra"]
  ipClassifier : cfg.ipClassifier.name = "lpm_trie"

/-- The operations of the loop body in the state `s` agree with the integers. -/
structure Meaningful (cfg : Pipeline.PipelineConfig) (s : State) (evt : NetworkEvent) : Prop where
  window : ((windowNs cfg).toNat : ℤ) = cfg.windowSeconds.toInt * 1000000000
  threshold : ∀ e freq, (entered cfg s evt).1.freqEstimator.recordU32 evt.srcIp = some e →
    e.estimateU32 evt.srcIp = some freq →
    (freq > UInt64.ofInt cfg.frequency.threshold.toInt
      ↔ (freq.toNat : ℤ) > cfg.frequency.threshold.toInt)
  product : -intMax - 1 ≤ cfg.sccIntervalSeconds.toInt * 10 ∧
    cfg.sccIntervalSeconds.toInt * 10 ≤ intMax
  modulus : UInt64.ofInt (cfg.sccIntervalSeconds.toInt * 10) ≠ 0

/-- The arithmetic is meaningful at every event that an engine reaches with the
configuration of the file, once it has started. -/
def LoopSound {F : Type} [DecidableEq F] (first : CIDREntry) (file : List UInt8) (w : World F)
    (sinks : Sinks F) (env : Env) (events : List NetworkEvent) : Prop :=
  ∀ c, loadConfig first file = .ok c → ∀ cfg, Configures c cfg →
    (∃ r, start w env c cfg sinks = some r) → ∀ pre evt, pre ++ [evt] <+: events → ∀ s outs, Reaches env cfg pre s outs → Meaningful cfg s evt

/-- The settings with which nothing wraps, and the check has a modulus. -/
structure InRange (c : PipelineConfig) : Prop where
  window : 0 ≤ c.windowSeconds.toInt
  threshold : 0 ≤ c.frequency.threshold.toInt
  interval : c.sccIntervalSeconds.toInt ≠ 0
  interval_le : -214748364 ≤ c.sccIntervalSeconds.toInt ∧ c.sccIntervalSeconds.toInt ≤ 214748364

/-! ## The set-up -/

variable {c : PipelineConfig} {cfg : Pipeline.PipelineConfig} {env : Env} {eng : Engine}
  {s₀ : State}

theorem exists_createEstimator_iff {name : String} :
    (∃ e, createEstimator name = .ok e)
      ↔ name ∈ ["count_min_sketch", "hash_map_exact", "heavy_hitters"] := by
  unfold createEstimator
  simp only [List.mem_cons, List.not_mem_nil, or_false]
  constructor
  · rintro ⟨e, he⟩
    split_ifs at he with h₁ h₂ h₃
    · exact Or.inl h₁
    · exact Or.inr (Or.inl h₂)
    · exact Or.inr (Or.inr h₃)
  · rintro (rfl | rfl | rfl) <;> exact ⟨_, rfl⟩

/-- **The loop is entered** exactly when the names are registered. -/
theorem registered_iff : Registered cfg ↔ ∃ eng s₀, setup env cfg = some (eng, s₀) := by
  rw [exists_setup_iff_names, exists_createEstimator_iff, ← List.mem_pair, ← List.mem_pair]
  constructor
  · exact fun h => ⟨h.frequency, h.scc, h.reachability, h.ipClassifier⟩
  · exact fun ⟨hfrequency, hscc, hreach, hip⟩ => ⟨hfrequency, hscc, hreach, hip⟩

/-! ## The first event -/

/-- A registered estimator answers at most the number of its keys. -/
theorem estimateAfter_le_length {name : String} {e : Estimator} (he : createEstimator name = .ok e)
    {s : List UInt32} (hs : s.length < 2 ^ 64) (x : UInt32) : e.estimateAfter s x ≤ s.length := by
  unfold createEstimator at he
  split_ifs at he
  · obtain rfl := Except.ok.inj he
    exact Estimator.estimateAfter_countMinSketch_le (by decide) (by decide) s x
  · obtain rfl := Except.ok.inj he
    rw [Estimator.estimateAfter_hashMapExact_of_lt hs]
    exact List.count_le_length
  · cases hnew : HeavyHitters.create 64 with
    | error msg => rw [hnew] at he; cases he
    | ok hh =>
      rw [hnew] at he
      obtain rfl := Except.ok.inj he
      exact (Estimator.estimateAfter_heavyHitters hnew hs x).1.trans List.count_le_length

/-- The frequency of the first event is at most 1. -/
theorem exists_freq_first (hsetup : setup env cfg = some (eng, s₀)) (evt : NetworkEvent) :
    ∃ e freq, (entered cfg s₀ evt).1.freqEstimator.recordU32 evt.srcIp = some e ∧
      e.estimateU32 evt.srcIp = some freq ∧ freq.toNat ≤ 1 := by
  have hcreated := created_of_setup hsetup
  have hfresh := fresh_of_createEstimator hcreated.estimator_eq
  have hrun := reaches_nil hsetup
  have hwatch := watch_entered hfresh (hrun.scanning hsetup).watch hrun.inWindows.windowStartNs_eq evt
  obtain ⟨e, freq, hrec, hest, hval, -⟩ := hwatch.counted hfresh evt
  refine ⟨e, freq, hrec, hest, ?_⟩
  have hlog : (advance (windowNs cfg) (windowsOf cfg []) evt.timestampNs).log = [] := rfl
  rw [hval, hlog]
  exact estimateAfter_le_length hcreated.estimator_eq (s := [evt.srcIp]) (by simp) evt.srcIp

/-! ## Casts -/

theorem gt_ofInt_iff {x : ℤ} (h0 : 0 ≤ x) (hlt : x < 2 ^ 64) (freq : UInt64) :
    freq > UInt64.ofInt x ↔ (freq.toNat : ℤ) > x := by
  rw [gt_iff_lt, UInt64.lt_iff_toNat_lt, toNat_ofInt h0 hlt]
  omega

/-- A negative threshold becomes larger than every small frequency. -/
theorem not_gt_ofInt {x : ℤ} (hneg : x < 0) (hlo : -2147483648 ≤ x) {freq : UInt64}
    (hfreq : freq.toNat ≤ 1) : ¬ freq > UInt64.ofInt x := by
  have hmod : x % 2 ^ 64 = x + 2 ^ 64 := by omega
  have hlt : (x + 2 ^ 64).toNat < UInt64.size := by
    have hsize : UInt64.size = 2 ^ 64 := rfl
    omega
  have hnat : (UInt64.ofInt x).toNat = (x + 2 ^ 64).toNat := by
    rw [UInt64.ofInt, hmod, UInt64.toNat_ofNat_of_lt' hlt]
  rw [gt_iff_lt, UInt64.lt_iff_toNat_lt, hnat]
  omega

theorem ofInt_ne_zero {x : ℤ} (hne : x ≠ 0) (hlo : -2 ^ 64 < x) (hhi : x < 2 ^ 64) :
    UInt64.ofInt x ≠ 0 := by
  intro h
  have hnat := congrArg UInt64.toNat h
  have hlt : (x % 2 ^ 64).toNat < UInt64.size := by
    have hsize : UInt64.size = 2 ^ 64 := rfl
    omega
  rw [UInt64.ofInt, UInt64.toNat_ofNat_of_lt' hlt, show (0 : UInt64).toNat = 0 from rfl] at hnat
  omega

/-! ## The settings that are handled -/

theorem meaningful_of_inRange (hcfg : Configures c cfg) (h : InRange c) (s : State)
    (evt : NetworkEvent) : Meaningful cfg s evt := by
  have hthreshold : cfg.frequency.threshold = c.frequency.threshold := by rw [hcfg.frequency_eq]; rfl
  have hlt := c.frequency.threshold.toInt_lt
  obtain ⟨hlo, hhi⟩ := h.interval_le
  refine ⟨windowNs_eq (by rw [hcfg.windowSeconds_eq]; exact h.window), fun e freq _ _ => ?_, ?_, ?_⟩
  · rw [hthreshold]
    exact gt_ofInt_iff h.threshold (by omega) freq
  · rw [hcfg.sccIntervalSeconds_eq, intMax]
    omega
  · rw [hcfg.sccIntervalSeconds_eq]
    have hne := h.interval
    exact ofInt_ne_zero (by omega) (by omega) (by omega)

/-- The first event shows every setting that is out of range. -/
theorem inRange_of_meaningful (hcfg : Configures c cfg) (hsetup : setup env cfg = some (eng, s₀))
    {evt : NetworkEvent} (h : Meaningful cfg s₀ evt) : InRange c := by
  have hwindow := h.window
  have hproduct := h.product
  have hmodulus := h.modulus
  rw [hcfg.windowSeconds_eq] at hwindow
  rw [hcfg.sccIntervalSeconds_eq] at hproduct hmodulus
  rw [intMax] at hproduct
  refine ⟨by omega, ?_, fun hzero => ?_, by omega⟩
  · obtain ⟨e, freq, hrec, hest, hfreq⟩ := exists_freq_first hsetup evt
    have hiff := h.threshold e freq hrec hest
    rw [show cfg.frequency.threshold = c.frequency.threshold by rw [hcfg.frequency_eq]; rfl] at hiff
    have hlo := c.frequency.threshold.le_toInt
    by_contra hneg
    refine not_gt_ofInt (not_le.mp hneg) (by omega) hfreq (hiff.mpr ?_)
    omega
  · rw [hzero] at hmodulus
    exact hmodulus rfl

/-- **The files whose numbers mean what they say** in the event loop: those that
configure no engine or one that does not start, and those with settings in range, once
there is an event. -/
theorem loopSound_iff {F : Type} [DecidableEq F] (first : CIDREntry) (file : List UInt8)
    (w : World F) (sinks : Sinks F) (env : Env) (events : List NetworkEvent) :
    LoopSound first file w sinks env events ↔
      ∀ c, loadConfig first file = .ok c → ∀ cfg, Configures c cfg →
        Registered cfg → Startable w c → events ≠ [] → InRange c := by
  constructor
  · intro h c hc cfg hcfg hregistered hstartable hne
    obtain ⟨eng, s₀, hsetup⟩ := registered_iff.mp hregistered
    have hstart : ∃ r, start w env c cfg sinks = some r :=
      exists_start_iff.mpr ⟨⟨eng, s₀, hsetup⟩, hstartable⟩
    obtain ⟨evt, rest, rfl⟩ := List.exists_cons_of_ne_nil hne
    have hfirst : [] ++ [evt] <+: evt :: rest := ⟨rest, rfl⟩
    exact inRange_of_meaningful hcfg hsetup
      (h c hc cfg hcfg hstart [] evt hfirst s₀ [] (reaches_nil hsetup))
  · intro h c hc cfg hcfg hstart pre evt hpre s outs hrun
    have hne : events ≠ [] := by
      rintro rfl
      simp at hpre
    exact meaningful_of_inRange hcfg
      (h c hc cfg hcfg (registered_iff.mpr hrun.exists_setup) (exists_start_iff.mp hstart).2 hne)
      s evt

/-! ## An interval of no seconds -/

/-- Registered algorithms, and an interval of 0. -/
def zeroIntervalFile : List UInt8 :=
  bytes "algorithms:
  frequency_estimator:
    name: hash_map_exact
  scc_detector:
    name: tarjan
  reachability:
    name: bfs
  ip_classifier:
    name: lpm_trie
analysis:
  scc_interval_seconds: 0
"

def zeroInterval : PipelineConfig where
  frequency := { name := bytes "hash_map_exact" }
  scc := { name := bytes "tarjan" }
  reachability := { name := bytes "bfs" }
  ipClassifier := { name := bytes "lpm_trie" }
  sccIntervalSeconds := 0

theorem loadConfig_zeroIntervalFile :
    loadConfig ⟨0, 0, 0, []⟩ zeroIntervalFile = .ok zeroInterval := by
  decide +kernel

theorem configures_zeroInterval :
    Configures zeroInterval { Pipeline.PipelineConfig.plain "hash_map_exact" "tarjan" with
      sccIntervalSeconds := 0 } :=
  ⟨by decide, by decide, by decide, by decide, rfl, rfl, rfl, rfl, rfl, rfl⟩

/-- An interval of 0 is loaded, and makes the modulus of the check 0 at the first event of an
engine that starts. -/
theorem not_loopSound_zeroInterval :
    loadConfig ⟨0, 0, 0, []⟩ zeroIntervalFile = .ok zeroInterval ∧
      ∃ env, ¬ LoopSound (F := Unit) ⟨0, 0, 0, []⟩ zeroIntervalFile
        ⟨fun _ => true, fun _ => some (), fun _ => true⟩ ⟨fun _ => [], [], [], []⟩ env
        [⟨1, 2, 80, 0, 1000⟩] := by
  refine ⟨loadConfig_zeroIntervalFile, ?_⟩
  obtain ⟨env⟩ := (inferInstance : Nonempty Env)
  refine ⟨env, fun h => ?_⟩
  have hregistered : Registered { Pipeline.PipelineConfig.plain "hash_map_exact" "tarjan" with
      sccIntervalSeconds := 0 } := ⟨by decide, by decide, by decide, rfl⟩
  have hcreated : ∃ eng s₀, setup env { Pipeline.PipelineConfig.plain "hash_map_exact" "tarjan" with
      sccIntervalSeconds := 0 } = some (eng, s₀) := registered_iff.mp hregistered
  obtain ⟨eng, s₀, hsetup⟩ := hcreated
  have hstartable : Startable (F := Unit) ⟨fun _ => true, fun _ => some (), fun _ => true⟩
      zeroInterval := startable_of_opens (fun _ => rfl) (fun _ => rfl) rfl
  have hfirst : [] ++ [⟨1, 2, 80, 0, 1000⟩] <+: [(⟨1, 2, 80, 0, 1000⟩ : NetworkEvent)] := ⟨[], rfl⟩
  exact (h _ loadConfig_zeroIntervalFile _ configures_zeroInterval
    (exists_start_iff.mpr ⟨⟨eng, s₀, hsetup⟩, hstartable⟩) [] _ hfirst s₀ []
    (reaches_nil hsetup)).modulus rfl

end ConfigLoader
