/-
# Loading a rendered configuration

A configuration written in the layout of the documented file is loaded again
(`loadConfig_render`).  A section is seen through what it does to the configuration
that the loader would return (`Sets`); a section consists of entries, and the file of
sections.
-/
import ZtMapper.ConfigLoader.Networks
import ZtMapper.Engine.EventLines

open Engine Scan

namespace ConfigLoader

/-! ## The layout -/

def algorithmLines (sub : String) (a : AlgorithmConfig) : List (List UInt8) :=
  [keyLine 2 (bytes sub),
    quotedLine 4 (bytes "name") a.name,
    keyLine 4 (bytes "params"),
    plainLine 6 (bytes "width") (printInt a.width),
    plainLine 6 (bytes "depth") (printInt a.depth),
    plainLine 6 (bytes "threshold") (printInt a.threshold),
    plainLine 6 (bytes "max_hops") (printInt a.maxHops)]

/-- `A.B.C.D/n` -/
def cidrText (net : CIDREntry) : List UInt8 :=
  inetNtop [(net.pfx >>> 24).toUInt8, (net.pfx >>> 16).toUInt8, (net.pfx >>> 8).toUInt8,
    net.pfx.toUInt8] ++ 47 :: decimal net.prefixLen.toNat

def networkLines (net : CIDREntry) : List (List UInt8) :=
  [quotedLine 2 (bytes "- cidr") (cidrText net),
    plainLine 4 (bytes "label") (printInt net.label),
    quotedLine 4 (bytes "name") net.name]

/-- A handler with its parameters in the given order. -/
def handlerLines (h : AlertHandlerEntry) (ps : List (List UInt8 × List UInt8)) :
    List (List UInt8) :=
  quotedLine 2 (bytes "- name") h.name ::
    if ps = [] then [] else keyLine 4 (bytes "params") :: ps.map fun p => quotedLine 6 p.1 p.2

def ruleLines (r : SeverityRule) : List (List UInt8) :=
  [quotedLine 2 (bytes "- type") r.alertType, quotedLine 4 (bytes "severity") r.severity]

/-- The sections of the file, with the parameters of the handlers in the given orders. -/
def renderLines (cfg : PipelineConfig) (orders : List (List (List UInt8 × List UInt8))) :
    List (List UInt8) :=
  keyLine 0 (bytes "algorithms") ::
      (algorithmLines "frequency_estimator" cfg.frequency ++
        algorithmLines "scc_detector" cfg.scc ++
        algorithmLines "reachability" cfg.reachability ++
        algorithmLines "ip_classifier" cfg.ipClassifier) ++
    keyLine 0 (bytes "networks") :: cfg.networks.flatMap networkLines ++
    [keyLine 0 (bytes "event_source"),
      quotedLine 2 (bytes "type") cfg.eventSourceType,
      quotedLine 2 (bytes "path") cfg.eventSourcePath] ++
    [keyLine 0 (bytes "analysis"),
      plainLine 2 (bytes "window_seconds") (printInt cfg.windowSeconds),
      plainLine 2 (bytes "scc_interval_seconds") (printInt cfg.sccIntervalSeconds),
      plainLine 2 (bytes "snapshot_interval_seconds") (printInt cfg.snapshotIntervalSeconds)] ++
    [keyLine 0 (bytes "output"),
      quotedLine 2 (bytes "alerts_file") cfg.alertsFile,
      quotedLine 2 (bytes "graph_file") cfg.graphFile,
      quotedLine 2 (bytes "stats_file") cfg.statsFile] ++
    keyLine 0 (bytes "alert_handlers") ::
      (cfg.alertHandlers.zip orders).flatMap (fun p => handlerLines p.1 p.2) ++
    keyLine 0 (bytes "severity_rules") :: cfg.severityRules.flatMap ruleLines ++
    [keyLine 0 (bytes "soc"),
      quotedLine 2 (bytes "node_name") cfg.nodeName,
      quotedLine 2 (bytes "namespace") cfg.namespace_]

/-- The file is the configuration in the documented layout. -/
def Renders (cfg : PipelineConfig) (file : List UInt8) : Prop :=
  ∃ orders, List.Forall₂ (fun h ps => Unordered.Lists ps h.params) cfg.alertHandlers orders ∧
    file = unlines (renderLines cfg orders)

/-! ## Configurations that the layout can hold -/

/-- The key of a parameter. -/
structure IsParamKey (key : List UInt8) : Prop where
  isKey : IsKey key
  head_ne : key.head? ≠ some 45
  ne_name : key ≠ bytes "name"
  ne_params : key ≠ bytes "params"

structure Storable (cfg : PipelineConfig) : Prop where
  algorithms : ∀ a ∈ [cfg.frequency, cfg.scc, cfg.reachability, cfg.ipClassifier], Scalar a.name
  networks : ∀ net ∈ cfg.networks, Scalar net.name ∧ net.name ≠ [] ∧ net.prefixLen ≤ 32
  texts : ∀ s ∈ [cfg.eventSourceType, cfg.eventSourcePath, cfg.alertsFile, cfg.graphFile,
    cfg.statsFile, cfg.nodeName, cfg.namespace_], Scalar s
  handlers : ∀ h ∈ cfg.alertHandlers, Scalar h.name ∧
    ∀ key val, h.params.lookup key = some val → IsParamKey key ∧ Scalar val
  rules : ∀ r ∈ cfg.severityRules, Scalar r.alertType ∧ Scalar r.severity

/-! ## What lines do to the configuration -/

/-- In the section `x`, the lines change the configuration by `f`, and stay in it. -/
def SetsIn (x : Section) (lines : List (List UInt8)) (f : PipelineConfig → PipelineConfig) : Prop :=
  ∀ s : Loader, s.sect = x → ∃ s', lines.foldlM Loader.step s = .ok s' ∧ s'.sect = x ∧
    s'.saveNet.cfg = f s.saveNet.cfg

/-- From everywhere, the lines change the configuration by `f`. -/
def Sets (lines : List (List UInt8)) (f : PipelineConfig → PipelineConfig) : Prop :=
  ∀ s : Loader, ∃ s', lines.foldlM Loader.step s = .ok s' ∧ s'.saveNet.cfg = f s.saveNet.cfg

variable {s : Loader} {x : Section} {line key value : List UInt8}
  {lines lines' : List (List UInt8)} {f g : PipelineConfig → PipelineConfig} {i : ℕ}

/-- Lines that set fields of one section, one after the other. -/
theorem SetsIn.append (h : SetsIn x lines f) (h' : SetsIn x lines' g) :
    SetsIn x (lines ++ lines') (g ∘ f) := by
  intro s hs
  obtain ⟨s₁, hrun₁, hs₁, hcfg₁⟩ := h s hs
  obtain ⟨s₂, hrun₂, hs₂, hcfg₂⟩ := h' s₁ hs₁
  refine ⟨s₂, ?_, hs₂, by rw [hcfg₂, hcfg₁]; rfl⟩
  rw [List.foldlM_append, hrun₁]
  exact hrun₂

/-- The entries of a list, which are added one after the other. -/
theorem SetsIn.flatMap {α β : Type} {entry : α → List (List UInt8)} {out : α → β}
    {add : List β → PipelineConfig → PipelineConfig} (hnil : ∀ cfg, add [] cfg = cfg)
    (happend : ∀ bs bs' cfg, add bs' (add bs cfg) = add (bs ++ bs') cfg) {as : List α}
    (h : ∀ a ∈ as, SetsIn x (entry a) (add [out a])) :
    SetsIn x (as.flatMap entry) (add (as.map out)) := by
  induction as with
  | nil => exact fun s hs => ⟨s, rfl, hs, (hnil _).symm⟩
  | cons a as ih =>
    rw [List.forall_mem_cons] at h
    have hadd : add (List.map out (a :: as)) = add (as.map out) ∘ add [out a] :=
      funext fun cfg => (happend [out a] (as.map out) cfg).symm
    rw [List.flatMap_cons, hadd]
    exact h.1.append (ih h.2)

/-- Lines that set fields from any section on, one after the other. -/
theorem Sets.append (h : Sets lines f) (h' : Sets lines' g) : Sets (lines ++ lines') (g ∘ f) := by
  intro s
  obtain ⟨s₁, hrun₁, hcfg₁⟩ := h s
  obtain ⟨s₂, hrun₂, hcfg₂⟩ := h' s₁
  refine ⟨s₂, ?_, by rw [hcfg₂, hcfg₁]; rfl⟩
  rw [List.foldlM_append, hrun₁]
  exact hrun₂

/-- A section is its header and its lines. -/
theorem SetsIn.sets (h : SetsIn x lines f) (hopens : opens line = some x) :
    Sets (line :: lines) f := by
  intro s
  obtain ⟨s', hrun, -, hcfg⟩ := h (s.opened x) rfl
  refine ⟨s', ?_, ?_⟩
  · rw [List.foldlM_cons, step_of_opens hopens]
    exact hrun
  · rw [hcfg, Loader.cfg_saveNet, Loader.cfg_saveNet]
    rfl

/-- Lines that change the configuration, and none of its networks. -/
theorem setsIn_of_run
    (hrun : ∀ s : Loader, s.sect = x → ∃ s', lines.foldlM Loader.step s = .ok s' ∧ s'.sect = x ∧
      s'.currentNet = s.currentNet ∧ s'.cfg = f s.cfg)
    (hf : ∀ cfg nets, f { cfg with networks := nets } = { f cfg with networks := nets }) :
    SetsIn x lines f := by
  intro s hs
  obtain ⟨s', hlines, hs', hnet, hcfg⟩ := hrun s hs
  have hnets : (f s.cfg).networks = s.cfg.networks := by
    have h := congrArg PipelineConfig.networks (hf s.cfg s.cfg.networks)
    exact h
  refine ⟨s', hlines, hs', ?_⟩
  rw [Loader.cfg_saveNet, Loader.cfg_saveNet, hnet, hcfg, hnets]
  exact (hf s.cfg _).symm

/-- One such line. -/
theorem setsIn_field (hstep : ∀ s : Loader, s.sect = x → s.step line = .ok { s with cfg := f s.cfg })
    (hf : ∀ cfg nets, f { cfg with networks := nets } = { f cfg with networks := nets }) :
    SetsIn x [line] f := by
  refine setsIn_of_run (fun s hs => ⟨{ s with cfg := f s.cfg }, ?_, hs, rfl, rfl⟩) hf
  rw [List.foldlM_cons, hstep s hs]
  rfl

/-! ## Sections of plain fields -/

/-- A field of the section `event_source`. -/
theorem step_eventSource (h : Field line (i + 1) key value) (hs : s.sect = .eventSource) :
    s.step line = .ok (s.eventSource key value) := by
  obtain ⟨t, -, hstep⟩ := h.step s
  rw [hstep, Loader.dispatch, if_neg (Nat.succ_ne_zero i), hs]

/-- A field of the section `analysis`. -/
theorem step_analysis (h : Field line (i + 1) key value) (hs : s.sect = .analysis) :
    s.step line = s.analysis key value := by
  obtain ⟨t, -, hstep⟩ := h.step s
  rw [hstep, Loader.dispatch, if_neg (Nat.succ_ne_zero i), hs]

/-- A field of the section `output`. -/
theorem step_output (h : Field line (i + 1) key value) (hs : s.sect = .output) :
    s.step line = .ok (s.output key value) := by
  obtain ⟨t, -, hstep⟩ := h.step s
  rw [hstep, Loader.dispatch, if_neg (Nat.succ_ne_zero i), hs]

/-- A field of the section `soc`. -/
theorem step_soc (h : Field line (i + 1) key value) (hs : s.sect = .soc) :
    s.step line = .ok (s.soc key value) := by
  obtain ⟨t, -, hstep⟩ := h.step s
  rw [hstep, Loader.dispatch, if_neg (Nat.succ_ne_zero i), hs]

/-- The two fields of the event source are read back. -/
theorem setsIn_eventSource {type path : List UInt8} (htype : Scalar type) (hpath : Scalar path) :
    SetsIn .eventSource [quotedLine 2 (bytes "type") type, quotedLine 2 (bytes "path") path]
      fun cfg => { cfg with eventSourceType := type, eventSourcePath := path } := by
  have h₁ : SetsIn .eventSource [quotedLine 2 (bytes "type") type]
      fun cfg => { cfg with eventSourceType := type } :=
    setsIn_field (fun s hs => step_eventSource (field_quotedLine (by decide) htype) hs) fun _ _ => rfl
  have h₂ : SetsIn .eventSource [quotedLine 2 (bytes "path") path]
      fun cfg => { cfg with eventSourcePath := path } :=
    setsIn_field (fun s hs => step_eventSource (field_quotedLine (by decide) hpath) hs) fun _ _ => rfl
  exact h₁.append h₂

/-- The three files of the output are read back. -/
theorem setsIn_output {alerts graph stats : List UInt8} (halerts : Scalar alerts)
    (hgraph : Scalar graph) (hstats : Scalar stats) :
    SetsIn .output [quotedLine 2 (bytes "alerts_file") alerts,
        quotedLine 2 (bytes "graph_file") graph, quotedLine 2 (bytes "stats_file") stats]
      fun cfg => { cfg with alertsFile := alerts, graphFile := graph, statsFile := stats } := by
  have h₁ : SetsIn .output [quotedLine 2 (bytes "alerts_file") alerts]
      fun cfg => { cfg with alertsFile := alerts } :=
    setsIn_field (fun s hs => step_output (field_quotedLine (by decide) halerts) hs) fun _ _ => rfl
  have h₂ : SetsIn .output [quotedLine 2 (bytes "graph_file") graph]
      fun cfg => { cfg with graphFile := graph } :=
    setsIn_field (fun s hs => step_output (field_quotedLine (by decide) hgraph) hs) fun _ _ => rfl
  have h₃ : SetsIn .output [quotedLine 2 (bytes "stats_file") stats]
      fun cfg => { cfg with statsFile := stats } :=
    setsIn_field (fun s hs => step_output (field_quotedLine (by decide) hstats) hs) fun _ _ => rfl
  exact h₁.append (h₂.append h₃)

/-- The names of the node and the namespace are read back. -/
theorem setsIn_soc {nodeName namespace_ : List UInt8} (hnode : Scalar nodeName)
    (hnamespace : Scalar namespace_) :
    SetsIn .soc [quotedLine 2 (bytes "node_name") nodeName,
        quotedLine 2 (bytes "namespace") namespace_]
      fun cfg => { cfg with nodeName := nodeName, namespace_ := namespace_ } := by
  have h₁ : SetsIn .soc [quotedLine 2 (bytes "node_name") nodeName]
      fun cfg => { cfg with nodeName := nodeName } :=
    setsIn_field (fun s hs => step_soc (field_quotedLine (by decide) hnode) hs) fun _ _ => rfl
  have h₂ : SetsIn .soc [quotedLine 2 (bytes "namespace") namespace_]
      fun cfg => { cfg with namespace_ := namespace_ } :=
    setsIn_field (fun s hs => step_soc (field_quotedLine (by decide) hnamespace) hs) fun _ _ => rfl
  exact h₁.append h₂

/-- The three numbers of the analysis are read back. -/
theorem setsIn_analysis (window scc snapshot : Int32) :
    SetsIn .analysis [plainLine 2 (bytes "window_seconds") (printInt window),
        plainLine 2 (bytes "scc_interval_seconds") (printInt scc),
        plainLine 2 (bytes "snapshot_interval_seconds") (printInt snapshot)]
      fun cfg => { cfg with
        windowSeconds := window, sccIntervalSeconds := scc, snapshotIntervalSeconds := snapshot } := by
  have h₁ : SetsIn .analysis [plainLine 2 (bytes "window_seconds") (printInt window)]
      fun cfg => { cfg with windowSeconds := window } := by
    refine setsIn_field (fun s hs => ?_) fun _ _ => rfl
    rw [step_analysis (field_plainLine (by decide) (scalar_printInt window)) hs, Loader.analysis,
      if_pos rfl, stoi32_of_isInt (isInt_printInt window)]
    rfl
  have h₂ : SetsIn .analysis [plainLine 2 (bytes "scc_interval_seconds") (printInt scc)]
      fun cfg => { cfg with sccIntervalSeconds := scc } := by
    refine setsIn_field (fun s hs => ?_) fun _ _ => rfl
    rw [step_analysis (field_plainLine (by decide) (scalar_printInt scc)) hs, Loader.analysis,
      if_neg (by decide), if_pos rfl, stoi32_of_isInt (isInt_printInt scc)]
    rfl
  have h₃ : SetsIn .analysis [plainLine 2 (bytes "snapshot_interval_seconds") (printInt snapshot)]
      fun cfg => { cfg with snapshotIntervalSeconds := snapshot } := by
    refine setsIn_field (fun s hs => ?_) fun _ _ => rfl
    rw [step_analysis (field_plainLine (by decide) (scalar_printInt snapshot)) hs, Loader.analysis,
      if_neg (by decide), if_neg (by decide), if_pos rfl, stoi32_of_isInt (isInt_printInt snapshot)]
    rfl
  exact h₁.append (h₂.append h₃)

/-! ## Algorithms -/

/-- Change the configuration of one algorithm. -/
def mapTarget (sub : Section) (f : AlgorithmConfig → AlgorithmConfig) (cfg : PipelineConfig) :
    PipelineConfig :=
  match sub with
  | .freq => { cfg with frequency := f cfg.frequency }
  | .scc => { cfg with scc := f cfg.scc }
  | .reach => { cfg with reachability := f cfg.reachability }
  | .ipclass => { cfg with ipClassifier := f cfg.ipClassifier }
  | _ => cfg

/-- Two changes of one algorithm are one change. -/
theorem mapTarget_mapTarget (sub : Section) (f g : AlgorithmConfig → AlgorithmConfig)
    (cfg : PipelineConfig) : mapTarget sub g (mapTarget sub f cfg) = mapTarget sub (g ∘ f) cfg := by
  cases sub <;> rfl

/-- A setting that never fails is a change of the algorithm. -/
theorem setTarget_eq_mapTarget {sub : Section} {set : AlgorithmConfig → Except Exception AlgorithmConfig}
    {f : AlgorithmConfig → AlgorithmConfig} (h : ∀ a, set a = .ok (f a)) (cfg : PipelineConfig) :
    Loader.setTarget sub set cfg = .ok (mapTarget sub f cfg) := by
  unfold Loader.setTarget
  cases sub <;> simp only [h] <;> rfl

/-- In its sub-section, the lines change the configuration of an algorithm by `f`. -/
def SetsTarget (sub : Section) (lines : List (List UInt8)) (f : AlgorithmConfig → AlgorithmConfig) :
    Prop :=
  ∀ s : Loader, s.sect = .algorithms → s.algoSub = sub →
    ∃ s', lines.foldlM Loader.step s = .ok s' ∧ s'.sect = .algorithms ∧ s'.algoSub = sub ∧
      s'.currentNet = s.currentNet ∧ s'.cfg = mapTarget sub f s.cfg

section Target

variable {sub : Section} {f g : AlgorithmConfig → AlgorithmConfig}

/-- No line sets nothing. -/
theorem SetsTarget.nil : SetsTarget sub [] id :=
  fun s hs hsub => ⟨s, rfl, hs, hsub, rfl, by cases sub <;> rfl⟩

/-- A line that sets a parameter, and the lines behind it. -/
theorem SetsTarget.cons (h : SetsTarget sub [line] f) (h' : SetsTarget sub lines g) :
    SetsTarget sub (line :: lines) (g ∘ f) := by
  intro s hs hsub
  obtain ⟨s₁, hrun₁, hs₁, hsub₁, hnet₁, hcfg₁⟩ := h s hs hsub
  obtain ⟨s₂, hrun₂, hs₂, hsub₂, hnet₂, hcfg₂⟩ := h' s₁ hs₁ hsub₁
  refine ⟨s₂, ?_, hs₂, hsub₂, hnet₂.trans hnet₁, ?_⟩
  · rw [← List.singleton_append, List.foldlM_append, hrun₁]
    exact hrun₂
  · rw [hcfg₂, hcfg₁, mapTarget_mapTarget]

/-- A field of the section `algorithms`. -/
theorem step_algorithms (h : Field line (i + 1) key value) (hs : s.sect = .algorithms) :
    s.step line = s.algorithms (i + 1) key value := by
  obtain ⟨t, -, hstep⟩ := h.step s
  rw [hstep, Loader.dispatch, if_neg (Nat.succ_ne_zero i), hs]

/-- A line that sets a parameter, whatever the flag `in_params` is at its indentation. -/
theorem setsTarget_field (h : Field line (i + 1) key value)
    (hkey : Loader.algorithmOf key = none) (hparams : key ≠ bytes "params")
    (hset : ∀ flag a, Loader.setParam (flag || 6 ≤ i + 1) key value a = .ok (f a)) :
    SetsTarget sub [line] f := by
  intro s hs hsub
  refine ⟨{ s with cfg := mapTarget sub f s.cfg, inParams := s.inParams && 4 < i + 1 }, ?_, hs, hsub,
    rfl, rfl⟩
  rw [List.foldlM_cons, step_algorithms h hs, Loader.algorithms]
  rw [hkey, ite_self]
  dsimp only
  rw [if_neg hparams, hsub, setTarget_eq_mapTarget (hset _)]
  rfl

/-- The line `params:` sets nothing. -/
theorem setsTarget_params : SetsTarget sub [keyLine 4 (bytes "params")] id := by
  intro s hs hsub
  refine ⟨{ s with inParams := true }, ?_, hs, hsub, rfl, by cases sub <;> rfl⟩
  rw [List.foldlM_cons, step_algorithms (field_keyLine (by decide)) hs, Loader.algorithms]
  rfl

/-- A number at the indentation of the parameters. -/
theorem setsTarget_int {key : List UInt8} (hkey : IsKey key) (hsub : Loader.algorithmOf key = none)
    (hparams : key ≠ bytes "params") (v : Int32)
    (hset : ∀ val a, stoi32 val = .ok v → Loader.setParam true key val a = .ok (f a)) :
    SetsTarget sub [plainLine 6 key (printInt v)] f := by
  refine setsTarget_field (field_plainLine hkey (scalar_printInt v)) hsub hparams fun flag a => ?_
  rw [decide_eq_true (le_refl 6), Bool.or_true]
  exact hset _ a (stoi32_of_isInt (isInt_printInt v))

end Target

/-- The name and the parameters of an algorithm are read back. -/
theorem setsIn_algorithm {sub : String} {x : Section} {a : AlgorithmConfig}
    (hkey : IsKey (bytes sub)) (hsub : Loader.algorithmOf (bytes sub) = some x)
    (ha : Scalar a.name) : SetsIn .algorithms (algorithmLines sub a) (mapTarget x fun _ => a) := by
  have hname : SetsTarget x [quotedLine 4 (bytes "name") a.name] fun b => { b with name := a.name } :=
    setsTarget_field (field_quotedLine (by decide) ha) (by decide) (by decide) fun _ _ => rfl
  have hwidth : SetsTarget x [plainLine 6 (bytes "width") (printInt a.width)]
      fun b => { b with width := a.width } :=
    setsTarget_int (by decide) (by decide) (by decide) a.width fun val b hval => by
      rw [Loader.setParam, if_neg (by decide), if_pos rfl, if_pos rfl, hval]
      rfl
  have hdepth : SetsTarget x [plainLine 6 (bytes "depth") (printInt a.depth)]
      fun b => { b with depth := a.depth } :=
    setsTarget_int (by decide) (by decide) (by decide) a.depth fun val b hval => by
      rw [Loader.setParam, if_neg (by decide), if_pos rfl, if_neg (by decide), if_pos rfl, hval]
      rfl
  have hthreshold : SetsTarget x [plainLine 6 (bytes "threshold") (printInt a.threshold)]
      fun b => { b with threshold := a.threshold } :=
    setsTarget_int (by decide) (by decide) (by decide) a.threshold fun val b hval => by
      rw [Loader.setParam, if_neg (by decide), if_pos rfl, if_neg (by decide), if_neg (by decide),
        if_pos rfl, hval]
      rfl
  have hhops : SetsTarget x [plainLine 6 (bytes "max_hops") (printInt a.maxHops)]
      fun b => { b with maxHops := a.maxHops } :=
    setsTarget_int (by decide) (by decide) (by decide) a.maxHops fun val b hval => by
      rw [Loader.setParam, if_neg (by decide), if_pos rfl, if_neg (by decide), if_neg (by decide),
        if_neg (by decide), if_pos rfl, hval]
      rfl
  have hall := hname.cons (setsTarget_params.cons (hwidth.cons (hdepth.cons (hthreshold.cons
    (hhops.cons SetsTarget.nil)))))
  -- the key of the algorithm leaves the parameters of the one before it
  refine setsIn_of_run (fun s hs => ?_) fun cfg nets => by cases x <;> rfl
  obtain ⟨s', hrun, hs', -, hnet, hcfg⟩ := hall { s with inParams := s.inParams && false, algoSub := x } hs rfl
  refine ⟨s', ?_, hs', hnet, hcfg⟩
  rw [algorithmLines, List.foldlM_cons, step_algorithms (field_keyLine hkey) hs, Loader.algorithms]
  rw [if_pos (by decide), hsub]
  exact hrun

/-! ## Networks -/

/-- The text of a network is one that `parse_cidr` reads as it. -/
theorem isCidr_cidrText {net : CIDREntry} (h : net.prefixLen ≤ 32) :
    IsCidr (cidrText net) net.pfx net.prefixLen := by
  refine ⟨_, _, rfl, ?_, isDecimal_decimal _, h⟩
  have haddress := isAddress_inetNtop (net.pfx >>> 24).toUInt8 (net.pfx >>> 16).toUInt8
    (net.pfx >>> 8).toUInt8 net.pfx.toUInt8
  rwa [ipFromOctets_octets] at haddress

/-- A valid text is visible. -/
theorem IsCidr.scalar {s : List UInt8} {pfx : UInt32} {prefixLen : UInt8}
    (h : IsCidr s pfx prefixLen) : Scalar s := by
  refine scalar_of_forall fun b hb => ?_
  by_contra hvisible
  refine h.notMem (b := b) ?_ ?_ ?_ hb
  · exact Bool.eq_false_iff.mpr fun hdigit => hvisible (visible_of_isDigit hdigit)
  · rintro rfl
    exact hvisible (by decide)
  · rintro rfl
    exact hvisible (by decide)

/-- An entry of the networks is read back. -/
theorem setsIn_network {net : CIDREntry} (hname : Scalar net.name) (hne : net.name ≠ [])
    (hlen : net.prefixLen ≤ 32) :
    SetsIn .networks (networkLines net) fun cfg => { cfg with networks := cfg.networks ++ [net] } := by
  intro s hs
  have hcidr := isCidr_cidrText hlen
  refine ⟨s.addEntry net, ?_, (s.sect_addEntry net).trans hs, ?_⟩
  · rw [networkLines, List.foldlM_cons, step_cidr (field_quotedLine (by decide) hcidr.scalar) hs,
      parseCidr_of_isCidr hcidr]
    show [_, _].foldlM Loader.step (s.addEntry ⟨net.pfx, net.prefixLen, 0, []⟩) = _
    rw [List.foldlM_cons, step_label (field_plainLine (by decide) (scalar_printInt net.label))
      ((s.sect_addEntry _).trans hs) (isInt_printInt net.label)]
    show [_].foldlM Loader.step (s.addEntry ⟨net.pfx, net.prefixLen, net.label, []⟩) = _
    rw [List.foldlM_cons, step_name (field_quotedLine (by decide) hname) ((s.sect_addEntry _).trans hs)]
    rfl
  · rw [Loader.cfg_saveNet, Loader.saved, if_pos (show (s.addEntry net).currentNet.name ≠ [] from hne)]
    rfl

/-! ## Handlers and rules -/

/-- A change of the last element of a list. -/
theorem modify_concat {α : Type} (l : List α) (a : α) (f : α → α) :
    (l ++ [a]).modify l.length f = l ++ [f a] := by
  induction l with
  | nil => rfl
  | cons b l ih => rw [List.cons_append, List.length_cons, List.modify_succ_cons, ih]; rfl

/-- A field of the section `alert_handlers`. -/
theorem step_alertHandlers (h : Field line (i + 1) key value) (hs : s.sect = .alertHandlers) :
    ∃ t, strip t = value ∧ s.step line = .ok (s.alertHandlers (key ++ 58 :: t) key value) := by
  obtain ⟨t, ht, hstep⟩ := h.step s
  exact ⟨t, ht, by rw [hstep, Loader.dispatch, if_neg (Nat.succ_ne_zero i), hs]⟩

/-- A field of the section `severity_rules`. -/
theorem step_severityRules (h : Field line (i + 1) key value) (hs : s.sect = .severityRules) :
    ∃ t, strip t = value ∧ s.step line = .ok (s.severityRules (key ++ 58 :: t) key value) := by
  obtain ⟨t, ht, hstep⟩ := h.step s
  exact ⟨t, ht, by rw [hstep, Loader.dispatch, if_neg (Nat.succ_ne_zero i), hs]⟩

/-- The state in which the last handler `h` is being filled. -/
def Loader.filling (s : Loader) (hs : List AlertHandlerEntry) (h : AlertHandlerEntry) (b : Bool) :
    Loader :=
  { s with cfg.alertHandlers := hs ++ [h], currentHandler := some hs.length, inHandlerParams := b }

/-- The line with the name of a handler adds an entry. -/
theorem step_newHandler {name : List UInt8} (hname : Scalar name) (hs : s.sect = .alertHandlers) :
    s.step (quotedLine 2 (bytes "- name") name)
      = .ok (s.filling s.cfg.alertHandlers ⟨name, ∅⟩ false) := by
  have hfield : Field (quotedLine 2 (bytes "- name") name) 2 (bytes "- name") name :=
    field_quotedLine (by decide) hname
  obtain ⟨t, rfl, hstep⟩ := step_alertHandlers hfield hs
  rw [hstep, Loader.alertHandlers, if_pos (Field.head?_eq_dash_iff.mpr (by decide))]
  rfl

/-- The line `params:` of a handler opens its parameters. -/
theorem step_handlerParams {hs : List AlertHandlerEntry} {h : AlertHandlerEntry}
    (hsect : s.sect = .alertHandlers) :
    (s.filling hs h false).step (keyLine 4 (bytes "params")) = .ok (s.filling hs h true) := by
  have hfield : Field (keyLine 4 (bytes "params")) 4 (bytes "params") [] := field_keyLine (by decide)
  obtain ⟨t, -, hstep⟩ := step_alertHandlers (s := s.filling hs h false) hfield hsect
  rw [hstep, Loader.alertHandlers, if_neg (mt Field.head?_eq_dash_iff.mp (by decide))]
  rfl

/-- A parameter of the last handler. -/
theorem step_handlerParam {hs : List AlertHandlerEntry} {name : List UInt8}
    {m : Unordered.Map (List UInt8) (List UInt8)} {key val : List UInt8} (hkey : IsParamKey key)
    (hval : Scalar val) (hsect : s.sect = .alertHandlers) :
    (s.filling hs ⟨name, m⟩ true).step (quotedLine 6 key val)
      = .ok (s.filling hs ⟨name, m.insert key val⟩ true) := by
  have hfield : Field (quotedLine 6 key val) 6 key val := field_quotedLine hkey.isKey hval
  obtain ⟨t, -, hstep⟩ := step_alertHandlers (s := s.filling hs ⟨name, m⟩ true) hfield hsect
  rw [hstep, Loader.alertHandlers, if_neg (mt Field.head?_eq_dash_iff.mp hkey.head_ne)]
  show Except.ok (if key = bytes "name" then _ else _) = _
  rw [if_neg hkey.ne_name, if_neg hkey.ne_params]
  exact congrArg (fun hs' => Except.ok ({ s.filling hs ⟨name, m⟩ true with
    cfg.alertHandlers := hs' } : Loader)) (modify_concat hs ⟨name, m⟩ _)

/-- All parameters of the last handler. -/
theorem foldlM_handlerParams {hs : List AlertHandlerEntry} {name : List UInt8}
    {m : Unordered.Map (List UInt8) (List UInt8)} {ps : List (List UInt8 × List UInt8)}
    (hps : ∀ p ∈ ps, IsParamKey p.1 ∧ Scalar p.2) (hsect : s.sect = .alertHandlers) :
    (ps.map fun p => quotedLine 6 p.1 p.2).foldlM Loader.step (s.filling hs ⟨name, m⟩ true)
      = .ok (s.filling hs ⟨name, ps.foldl (fun m p => m.insert p.1 p.2) m⟩ true) := by
  induction ps generalizing m with
  | nil => rfl
  | cons p ps ih =>
    rw [List.forall_mem_cons] at hps
    rw [List.map_cons, List.foldlM_cons, step_handlerParam hps.1.1 hps.1.2 hsect]
    exact ih hps.2

/-- A handler is read back with its parameters, in any order of them. -/
theorem setsIn_handler {h : AlertHandlerEntry} {ps : List (List UInt8 × List UInt8)}
    (hname : Scalar h.name) (hps : ∀ p ∈ ps, IsParamKey p.1 ∧ Scalar p.2)
    (hlists : Unordered.Lists ps h.params) :
    SetsIn .alertHandlers (handlerLines h ps)
      fun cfg => { cfg with alertHandlers := cfg.alertHandlers ++ [h] } := by
  refine setsIn_of_run (fun s hs => ?_) fun _ _ => rfl
  have hmap : ps.foldl (fun m p => m.insert p.1 p.2) ∅ = h.params :=
    Unordered.insertAll_of_lists hlists
  rw [handlerLines, List.foldlM_cons, step_newHandler hname hs]
  by_cases hnil : ps = []
  · subst hnil
    obtain ⟨name, params⟩ := h
    obtain rfl : ∅ = params := hmap
    exact ⟨s.filling s.cfg.alertHandlers ⟨name, ∅⟩ false, rfl, hs, rfl, rfl⟩
  · rw [if_neg hnil]
    refine ⟨s.filling s.cfg.alertHandlers h true, ?_, hs, rfl, rfl⟩
    show (keyLine 4 (bytes "params") :: ps.map fun p => quotedLine 6 p.1 p.2).foldlM Loader.step
      (s.filling s.cfg.alertHandlers ⟨h.name, ∅⟩ false) = _
    rw [List.foldlM_cons, step_handlerParams hs]
    show (ps.map fun p => quotedLine 6 p.1 p.2).foldlM Loader.step
      (s.filling s.cfg.alertHandlers ⟨h.name, ∅⟩ true) = _
    rw [foldlM_handlerParams hps hs, hmap]

/-- A severity rule is read back. -/
theorem setsIn_rule {r : SeverityRule} (htype : Scalar r.alertType) (hseverity : Scalar r.severity) :
    SetsIn .severityRules (ruleLines r)
      fun cfg => { cfg with severityRules := cfg.severityRules ++ [r] } := by
  refine setsIn_of_run (fun s hs => ?_) fun _ _ => rfl
  have hfield₁ : Field (quotedLine 2 (bytes "- type") r.alertType) 2 (bytes "- type") r.alertType :=
    field_quotedLine (by decide) htype
  have hfield₂ : Field (quotedLine 4 (bytes "severity") r.severity) 4 (bytes "severity") r.severity :=
    field_quotedLine (by decide) hseverity
  obtain ⟨t, ht, hstep⟩ := step_severityRules hfield₁ hs
  rw [Loader.severityRules, if_pos (Field.head?_eq_dash_iff.mpr (by decide))] at hstep
  rw [ruleLines, List.foldlM_cons, hstep]
  -- the rule that the second line completes
  let s₁ : Loader := { s with
    cfg.severityRules := s.cfg.severityRules ++ [⟨r.alertType, []⟩]
    currentRule := some s.cfg.severityRules.length }
  have hentry : Loader.entryValue (bytes "type:") (bytes "- type" ++ 58 :: t) = r.alertType := ht
  rw [hentry]
  obtain ⟨t', -, hstep'⟩ := step_severityRules (s := s₁) hfield₂ hs
  rw [Loader.severityRules, if_neg (mt Field.head?_eq_dash_iff.mp (by decide))] at hstep'
  have hlast := hstep'.trans (congrArg (fun rules => Except.ok ({ s₁ with
    cfg.severityRules := rules } : Loader)) (modify_concat s.cfg.severityRules ⟨r.alertType, []⟩
      fun r' => { r' with severity := r.severity }))
  refine ⟨{ s₁ with cfg.severityRules := s.cfg.severityRules ++ [r] }, ?_, hs, rfl, rfl⟩
  show [_].foldlM Loader.step s₁ = _
  rw [List.foldlM_cons, hlast]
  rfl

/-! ## The file -/

variable {cfg : PipelineConfig} {orders : List (List (List UInt8 × List UInt8))}
  {file : List UInt8}

/-- The parameters of a handler, in the order in which they are listed. -/
theorem Storable.params (hcfg : Storable cfg)
    (horders : List.Forall₂ (fun h ps => Unordered.Lists ps h.params) cfg.alertHandlers orders) :
    ∀ q ∈ cfg.alertHandlers.zip orders, Scalar q.1.name ∧
      (∀ p ∈ q.2, IsParamKey p.1 ∧ Scalar p.2) ∧ Unordered.Lists q.2 q.1.params := by
  rintro ⟨h, ps⟩ hq
  have hlists : Unordered.Lists ps h.params := (List.forall₂_iff_zip.mp horders).2 hq
  obtain ⟨hname, hparams⟩ := hcfg.handlers h (List.of_mem_zip hq).1
  exact ⟨hname, fun p hp => hparams p.1 p.2 (hlists.mem_iff.mp hp), hlists⟩

/-- The section of the algorithms is read back. -/
theorem sets_algorithms (hcfg : Storable cfg) :
    Sets (keyLine 0 (bytes "algorithms") ::
        (algorithmLines "frequency_estimator" cfg.frequency ++
          algorithmLines "scc_detector" cfg.scc ++
          algorithmLines "reachability" cfg.reachability ++
          algorithmLines "ip_classifier" cfg.ipClassifier))
      fun c => { c with
        frequency := cfg.frequency, scc := cfg.scc, reachability := cfg.reachability
        ipClassifier := cfg.ipClassifier } := by
  have halgorithms := hcfg.algorithms
  simp only [List.forall_mem_cons] at halgorithms
  obtain ⟨hfreq, hscc, hreach, hip, -⟩ := halgorithms
  have h₁ : SetsIn .algorithms (algorithmLines "frequency_estimator" cfg.frequency)
      (mapTarget .freq fun _ => cfg.frequency) := setsIn_algorithm (by decide) (by decide) hfreq
  have h₂ : SetsIn .algorithms (algorithmLines "scc_detector" cfg.scc)
      (mapTarget .scc fun _ => cfg.scc) := setsIn_algorithm (by decide) (by decide) hscc
  have h₃ : SetsIn .algorithms (algorithmLines "reachability" cfg.reachability)
      (mapTarget .reach fun _ => cfg.reachability) := setsIn_algorithm (by decide) (by decide) hreach
  have h₄ : SetsIn .algorithms (algorithmLines "ip_classifier" cfg.ipClassifier)
      (mapTarget .ipclass fun _ => cfg.ipClassifier) := setsIn_algorithm (by decide) (by decide) hip
  exact (((h₁.append h₂).append h₃).append h₄).sets (by decide)

/-- The section of the networks is read back. -/
theorem sets_networks (hcfg : Storable cfg) :
    Sets (keyLine 0 (bytes "networks") :: cfg.networks.flatMap networkLines)
      fun c => { c with networks := c.networks ++ cfg.networks } := by
  let add : List CIDREntry → PipelineConfig → PipelineConfig := fun nets c =>
    { c with networks := c.networks ++ nets }
  have hall : ∀ net ∈ cfg.networks, SetsIn .networks (networkLines net) (add [id net]) :=
    fun net hnet =>
      have h := hcfg.networks net hnet
      setsIn_network h.1 h.2.1 h.2.2
  have hsection := SetsIn.flatMap (fun c => by simp [add]) (fun _ _ c => by simp [add]) hall
  rw [List.map_id] at hsection
  exact hsection.sets (by decide)

/-- The section of the alert handlers is read back. -/
theorem sets_alertHandlers (hcfg : Storable cfg)
    (horders : List.Forall₂ (fun h ps => Unordered.Lists ps h.params) cfg.alertHandlers orders) :
    Sets (keyLine 0 (bytes "alert_handlers") ::
        (cfg.alertHandlers.zip orders).flatMap fun p => handlerLines p.1 p.2)
      fun c => { c with alertHandlers := c.alertHandlers ++ cfg.alertHandlers } := by
  let add : List AlertHandlerEntry → PipelineConfig → PipelineConfig := fun handlers c =>
    { c with alertHandlers := c.alertHandlers ++ handlers }
  have hall : ∀ p ∈ cfg.alertHandlers.zip orders,
      SetsIn .alertHandlers (handlerLines p.1 p.2) (add [p.1]) := fun p hp =>
    have h := hcfg.params horders p hp
    setsIn_handler h.1 h.2.1 h.2.2
  have hsection := SetsIn.flatMap (fun c => by simp [add]) (fun _ _ c => by simp [add]) hall
  rw [List.map_fst_zip (le_of_eq horders.length_eq)] at hsection
  exact hsection.sets (by decide)

/-- The section of the severity rules is read back. -/
theorem sets_severityRules (hcfg : Storable cfg) :
    Sets (keyLine 0 (bytes "severity_rules") :: cfg.severityRules.flatMap ruleLines)
      fun c => { c with severityRules := c.severityRules ++ cfg.severityRules } := by
  let add : List SeverityRule → PipelineConfig → PipelineConfig := fun rules c =>
    { c with severityRules := c.severityRules ++ rules }
  have hall : ∀ r ∈ cfg.severityRules, SetsIn .severityRules (ruleLines r) (add [id r]) :=
    fun r hr =>
      have h := hcfg.rules r hr
      setsIn_rule h.1 h.2
  have hsection := SetsIn.flatMap (fun c => by simp [add]) (fun _ _ c => by simp [add]) hall
  rw [List.map_id] at hsection
  exact hsection.sets (by decide)

/-- **The rendered lines** set every field of the configuration. -/
theorem sets_renderLines (hcfg : Storable cfg)
    (horders : List.Forall₂ (fun h ps => Unordered.Lists ps h.params) cfg.alertHandlers orders) :
    ∃ f, Sets (renderLines cfg orders) f ∧ f {} = cfg := by
  have htexts := hcfg.texts
  simp only [List.forall_mem_cons] at htexts
  obtain ⟨htype, hpath, halerts, hgraph, hstats, hnode, hnamespace, -⟩ := htexts
  have hsource := (setsIn_eventSource htype hpath).sets
    (show opens (keyLine 0 (bytes "event_source")) = _ by decide)
  have hanalysis := (setsIn_analysis cfg.windowSeconds cfg.sccIntervalSeconds
    cfg.snapshotIntervalSeconds).sets (show opens (keyLine 0 (bytes "analysis")) = _ by decide)
  have houtput := (setsIn_output halerts hgraph hstats).sets
    (show opens (keyLine 0 (bytes "output")) = _ by decide)
  have hsoc := (setsIn_soc hnode hnamespace).sets (show opens (keyLine 0 (bytes "soc")) = _ by decide)
  have hall := (((((((sets_algorithms hcfg).append (sets_networks hcfg)).append hsource).append
    hanalysis).append houtput).append (sets_alertHandlers hcfg horders)).append
    (sets_severityRules hcfg)).append hsoc
  refine ⟨_, hall, ?_⟩
  simp only [Function.comp_apply, List.nil_append]

/-! ## No line is broken -/

/-- The lines of an algorithm have no line break inside. -/
theorem notMem_algorithmLines {sub : String} {a : AlgorithmConfig} (hkey : IsKey (bytes sub))
    (ha : Scalar a.name) : ∀ line ∈ algorithmLines sub a, 10 ∉ line := by
  simp only [algorithmLines, List.forall_mem_cons]
  exact ⟨notMem_keyLine hkey, notMem_quotedLine (by decide) ha, notMem_keyLine (by decide),
    notMem_plainLine (by decide) (scalar_printInt _), notMem_plainLine (by decide) (scalar_printInt _),
    notMem_plainLine (by decide) (scalar_printInt _), notMem_plainLine (by decide) (scalar_printInt _),
    fun _ h => absurd h List.not_mem_nil⟩

/-- The lines of a network have no line break inside. -/
theorem notMem_networkLines {net : CIDREntry} (hname : Scalar net.name) (hlen : net.prefixLen ≤ 32) :
    ∀ line ∈ networkLines net, 10 ∉ line := by
  simp only [networkLines, List.forall_mem_cons]
  exact ⟨notMem_quotedLine (by decide) (isCidr_cidrText hlen).scalar,
    notMem_plainLine (by decide) (scalar_printInt _), notMem_quotedLine (by decide) hname,
    fun _ h => absurd h List.not_mem_nil⟩

/-- The lines of a handler have no line break inside. -/
theorem notMem_handlerLines {h : AlertHandlerEntry} {ps : List (List UInt8 × List UInt8)}
    (hname : Scalar h.name) (hps : ∀ p ∈ ps, IsParamKey p.1 ∧ Scalar p.2) :
    ∀ line ∈ handlerLines h ps, 10 ∉ line := by
  rw [handlerLines, List.forall_mem_cons]
  refine ⟨notMem_quotedLine (by decide) hname, ?_⟩
  by_cases hnil : ps = []
  · rw [if_pos hnil]
    exact fun _ h => absurd h List.not_mem_nil
  · rw [if_neg hnil, List.forall_mem_cons, List.forall_mem_map]
    exact ⟨notMem_keyLine (by decide), fun p hp => notMem_quotedLine (hps p hp).1.isKey (hps p hp).2⟩

/-- The lines of a rule have no line break inside. -/
theorem notMem_ruleLines {r : SeverityRule} (htype : Scalar r.alertType)
    (hseverity : Scalar r.severity) : ∀ line ∈ ruleLines r, 10 ∉ line := by
  simp only [ruleLines, List.forall_mem_cons]
  exact ⟨notMem_quotedLine (by decide) htype, notMem_quotedLine (by decide) hseverity,
    fun _ h => absurd h List.not_mem_nil⟩

/-- No line of a file has a line break inside. -/
theorem notMem_renderLines (hcfg : Storable cfg)
    (horders : List.Forall₂ (fun h ps => Unordered.Lists ps h.params) cfg.alertHandlers orders) :
    ∀ line ∈ renderLines cfg orders, 10 ∉ line := by
  have halgorithms := hcfg.algorithms
  have htexts := hcfg.texts
  simp only [List.forall_mem_cons] at halgorithms htexts
  obtain ⟨hfreq, hscc, hreach, hip, -⟩ := halgorithms
  obtain ⟨htype, hpath, halerts, hgraph, hstats, hnode, hnamespace, -⟩ := htexts
  have hnil : ∀ line ∈ ([] : List (List UInt8)), 10 ∉ line := fun _ h => absurd h List.not_mem_nil
  have hnetworks : ∀ line ∈ cfg.networks.flatMap networkLines, 10 ∉ line := by
    refine List.forall_mem_flatMap.mpr fun net hnet => ?_
    obtain ⟨hname, -, hlen⟩ := hcfg.networks net hnet
    exact notMem_networkLines hname hlen
  have hhandlers : ∀ line ∈ (cfg.alertHandlers.zip orders).flatMap fun p => handlerLines p.1 p.2,
      10 ∉ line := by
    refine List.forall_mem_flatMap.mpr fun p hp => ?_
    obtain ⟨hname, hps, -⟩ := hcfg.params horders p hp
    exact notMem_handlerLines hname hps
  have hrules : ∀ line ∈ cfg.severityRules.flatMap ruleLines, 10 ∉ line := by
    refine List.forall_mem_flatMap.mpr fun r hr => ?_
    exact notMem_ruleLines (hcfg.rules r hr).1 (hcfg.rules r hr).2
  -- the eight sections, in the order of the file
  simp only [renderLines, List.forall_mem_append, List.forall_mem_cons]
  refine ⟨⟨⟨⟨⟨⟨⟨?_, ?_⟩, ?_⟩, ?_⟩, ?_⟩, ?_⟩, ?_⟩, ?_⟩
  · exact ⟨by decide, ⟨⟨notMem_algorithmLines (by decide) hfreq,
      notMem_algorithmLines (by decide) hscc⟩, notMem_algorithmLines (by decide) hreach⟩,
      notMem_algorithmLines (by decide) hip⟩
  · exact ⟨by decide, hnetworks⟩
  · exact ⟨by decide, notMem_quotedLine (by decide) htype, notMem_quotedLine (by decide) hpath, hnil⟩
  · exact ⟨by decide, notMem_plainLine (by decide) (scalar_printInt _),
      notMem_plainLine (by decide) (scalar_printInt _),
      notMem_plainLine (by decide) (scalar_printInt _), hnil⟩
  · exact ⟨by decide, notMem_quotedLine (by decide) halerts, notMem_quotedLine (by decide) hgraph,
      notMem_quotedLine (by decide) hstats, hnil⟩
  · exact ⟨by decide, hhandlers⟩
  · exact ⟨by decide, hrules⟩
  · exact ⟨by decide, notMem_quotedLine (by decide) hnode, notMem_quotedLine (by decide) hnamespace,
      hnil⟩

/-- **A rendered configuration is loaded again**, in whatever order the parameters of
the handlers are written. -/
theorem loadConfig_render {cfg : PipelineConfig} {file : List UInt8} (hcfg : Storable cfg)
    (hfile : Renders cfg file) (first : CIDREntry) : loadConfig first file = .ok cfg := by
  obtain ⟨orders, horders, rfl⟩ := hfile
  obtain ⟨f, hsets, hf⟩ := sets_renderLines hcfg horders
  obtain ⟨s', hrun, hcfg'⟩ := hsets (.init first)
  unfold loadConfig loadLines
  rw [pieces_unlines (notMem_renderLines hcfg horders), hrun]
  show Except.ok s'.saveNet.cfg = _
  rw [hcfg', ← hf]
  rfl

/-- Every configuration has a text. -/
theorem exists_renders (cfg : PipelineConfig) : ∃ file, Renders cfg file := by
  have horders : ∀ hs : List AlertHandlerEntry,
      ∃ orders, List.Forall₂ (fun h ps => Unordered.Lists ps h.params) hs orders := by
    intro hs
    induction hs with
    | nil => exact ⟨[], .nil⟩
    | cons h hs ih =>
      obtain ⟨ps, hps⟩ := Unordered.exists_lists h.params
      obtain ⟨orders, hall⟩ := ih
      exact ⟨ps :: orders, .cons hps hall⟩
  obtain ⟨orders, hall⟩ := horders cfg.alertHandlers
  exact ⟨_, orders, hall, rfl⟩

/-- A configuration with a network, a handler and a rule. -/
def sample : PipelineConfig where
  frequency := { name := bytes "count_min_sketch", threshold := -40 }
  scc := { name := bytes "tarjan" }
  reachability := { name := bytes "bfs" }
  ipClassifier := { name := bytes "lpm_trie" }
  networks := [⟨184549376, 8, 1, bytes "pod network: all"⟩]
  eventSourceType := bytes "file"
  alertHandlers := [⟨bytes "nats", Unordered.insertAll some [(bytes "url", bytes "nats://nats.soc:4222")]⟩]
  severityRules := [⟨bytes "port_scan", bytes "high"⟩]

/-- The sample can be stored. -/
theorem storable_sample : Storable sample := by
  refine ⟨?_, ?_, ?_, ?_, ?_⟩
  · simp only [List.forall_mem_cons]
    exact ⟨by decide, by decide, by decide, by decide, fun _ h => absurd h List.not_mem_nil⟩
  · exact List.forall_mem_singleton.mpr ⟨by decide, by decide, by decide⟩
  · simp only [List.forall_mem_cons]
    exact ⟨by decide, by decide, by decide, by decide, by decide, by decide, by decide,
      fun _ h => absurd h List.not_mem_nil⟩
  · refine List.forall_mem_singleton.mpr ⟨by decide, fun key val hlookup => ?_⟩
    obtain ⟨pre, x, post, hsplit, hx, -⟩ := Unordered.lookup_insertAll.mp hlookup
    have hmem : (key, val) ∈ [(bytes "url", bytes "nats://nats.soc:4222")] := by
      rw [hsplit, ← Option.some.inj hx]
      simp
    obtain ⟨rfl, rfl⟩ := Prod.mk.inj (List.mem_singleton.mp hmem)
    exact ⟨⟨by decide, by decide, by decide, by decide⟩, by decide⟩
  · exact List.forall_mem_singleton.mpr ⟨by decide, by decide⟩

/-- The sample comes back. -/
theorem loadConfig_render_sample :
    ∃ file, Renders sample file ∧ loadConfig ⟨7, 40, 9, []⟩ file = .ok sample := by
  obtain ⟨file, hfile⟩ := exists_renders sample
  exact ⟨file, hfile, loadConfig_render storable_sample hfile ⟨7, 40, 9, []⟩⟩

end ConfigLoader
