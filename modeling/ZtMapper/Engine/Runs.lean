/-
# Runs of the engine

`Reaches` says that a run over a list of events returns, with its final state
and the outputs of the events.  Invariants are proved along such runs by
`Reaches.invariant`, and `exists_reaches` shows that a run returns when every
event of it is `Defined`.
-/
import ZtMapper.Engine.Step
import ZtMapper.Lib.Fallible

open Fallible Frequency Loop Pipeline

namespace Engine

variable {eng : Engine} {env : Env} {cfg : PipelineConfig} {s₀ s s' : State} {evt : NetworkEvent}
  {events : List NetworkEvent} {outs : List Output} {out : Output}

instance : Nonempty Env :=
  ⟨{ getenv := fun _ => none
     order := fun _ _ => Classical.arbitrary _
     orderT := fun _ _ => Classical.arbitrary _
     listing := fun _ m => (m.entries.map fun e => (e.1, e.2)).toList
     listing_spec := fun _ _ => Multiset.coe_toList _ }⟩

/-! ## The set-up -/

/-- What a successful set-up has created. -/
structure Created (cfg : PipelineConfig) (eng : Engine) (s₀ : State) : Prop where
  cfg_eq : eng.cfg = cfg
  estimator_eq : createEstimator cfg.frequency.name = .ok s₀.freqEstimator
  scc_eq : createSccDetector cfg.scc.name = .ok eng.sccDetector
  reachability_eq : createReachability cfg.reachability.name = .ok eng.reachability
  labelled : ∀ ip, ∃ l, eng.ipClassifier.lookup ip = some l
  state_eq : s₀ = .init s₀.freqEstimator

/-- The configured networks are inserted, whatever they are. -/
theorem refines_populate {t : LPMTrie} {m : LPMTrie.Table} (h : LPMTrie.Refines t m)
    (networks : List CIDREntry) :
    ∃ t' m', populate t networks = some t' ∧ LPMTrie.Refines t' m' := by
  induction networks generalizing t m with
  | nil => exact ⟨t, m, rfl, h⟩
  | cons net networks ih =>
    obtain ⟨t', hins, h'⟩ := LPMTrie.refines_insert h net.pfx net.prefixLen_le net.label
    obtain ⟨t'', m'', hrun, h''⟩ := ih h'
    refine ⟨t'', m'', ?_, h''⟩
    rw [populate, List.foldlM_cons, hins]
    exact hrun

/-- A value is there when nothing was thrown. -/
theorem toOption_eq_some {α : Type} {e : Except String α} {a : α} :
    e.toOption = some a ↔ e = .ok a := by
  cases e with
  | error msg => simp [Except.toOption]
  | ok b => simp [Except.toOption]

/-- The one registered classifier starts empty. -/
theorem createIpClassifier_eq {name : String} {t : LPMTrie}
    (h : createIpClassifier name = .ok t) : t = .empty := by
  unfold createIpClassifier at h
  split_ifs at h
  exact (Except.ok.inj h).symm

/-- **The set-up** has created what the four names stand for. -/
theorem created_of_setup (h : setup env cfg = some (eng, s₀)) : Created cfg eng s₀ := by
  unfold setup at h
  simp only [Option.bind_eq_bind, Option.bind_eq_some_iff, toOption_eq_some] at h
  obtain ⟨e, he, det, hdet, reach, hreach, t, ht, t', ht', heq⟩ := h
  obtain ⟨rfl, rfl⟩ := Prod.mk.inj (Option.some.inj heq)
  refine ⟨rfl, he, hdet, hreach, fun ip => ?_, rfl⟩
  rw [createIpClassifier_eq ht] at ht'
  obtain ⟨t'', m, hpop, href⟩ := refines_populate LPMTrie.refines_empty cfg.networks
  obtain rfl := Option.some.inj (ht'.symm.trans hpop)
  obtain ⟨o, -, hlookup⟩ := LPMTrie.lookup_spec href ip
  exact ⟨_, hlookup⟩

/-- The set-up succeeds for registered names. -/
theorem exists_setup (cfg : PipelineConfig) {e : Estimator} {det : SccDetector} {reach : ReachabilityAnalyzer}
    (he : createEstimator cfg.frequency.name = .ok e) (hdet : createSccDetector cfg.scc.name = .ok det)
    (hreach : createReachability cfg.reachability.name = .ok reach)
    (hip : cfg.ipClassifier.name = "lpm_trie") (env : Env) :
    ∃ eng s₀, setup env cfg = some (eng, s₀) := by
  obtain ⟨t, m, hpop, -⟩ := refines_populate LPMTrie.refines_empty cfg.networks
  obtain ⟨r, hr⟩ : ∃ r, setup env cfg = some r := by
    unfold setup
    rw [he, hdet, hreach, createIpClassifier, if_pos hip]
    simp only [Except.toOption, Option.bind_eq_bind, Option.bind_some, hpop]
    exact ⟨_, rfl⟩
  exact ⟨r.1, r.2, hr⟩

/-- The detectors that are registered. -/
theorem exists_createSccDetector_iff {name : String} :
    (∃ det, createSccDetector name = .ok det) ↔ name = "tarjan" ∨ name = "kosaraju" := by
  unfold createSccDetector
  rw [exists_ite_ok_iff, exists_ite_ok_iff, or_iff_left not_exists_error_eq_ok]

/-- The analyzers that are registered. -/
theorem exists_createReachability_iff {name : String} :
    (∃ reach, createReachability name = .ok reach) ↔ name = "bfs" ∨ name = "dijkstra" := by
  unfold createReachability
  rw [exists_ite_ok_iff, exists_ite_ok_iff, or_iff_left not_exists_error_eq_ok]

/-- The classifiers that are registered. -/
theorem exists_createIpClassifier_iff {name : String} :
    (∃ t, createIpClassifier name = .ok t) ↔ name = "lpm_trie" := by
  unfold createIpClassifier
  rw [exists_ite_ok_iff, or_iff_left not_exists_error_eq_ok]

/-- The set-up succeeds exactly when the four names are registered, whatever the
other settings are. -/
theorem exists_setup_iff_names : (∃ eng s₀, setup env cfg = some (eng, s₀)) ↔
    (∃ e, createEstimator cfg.frequency.name = .ok e) ∧
      (cfg.scc.name = "tarjan" ∨ cfg.scc.name = "kosaraju") ∧
      (cfg.reachability.name = "bfs" ∨ cfg.reachability.name = "dijkstra") ∧
      cfg.ipClassifier.name = "lpm_trie" := by
  constructor
  · rintro ⟨eng, s₀, hsetup⟩
    have hcreated := created_of_setup hsetup
    unfold setup at hsetup
    simp only [Option.bind_eq_bind, Option.bind_eq_some_iff, toOption_eq_some] at hsetup
    obtain ⟨-, -, -, -, -, -, t, ht, -⟩ := hsetup
    exact ⟨⟨_, hcreated.estimator_eq⟩, exists_createSccDetector_iff.mp ⟨_, hcreated.scc_eq⟩,
      exists_createReachability_iff.mp ⟨_, hcreated.reachability_eq⟩,
      exists_createIpClassifier_iff.mp ⟨t, ht⟩⟩
  · rintro ⟨⟨e, he⟩, hscc, hreach, hip⟩
    obtain ⟨det, hdet⟩ := exists_createSccDetector_iff.mpr hscc
    obtain ⟨reach, hreach⟩ := exists_createReachability_iff.mpr hreach
    exact exists_setup cfg he hdet hreach hip env

/-- The registered estimators are fresh. -/
theorem fresh_of_createEstimator {name : String} {e : Estimator}
    (h : createEstimator name = .ok e) : e.Fresh := by
  unfold createEstimator at h
  split_ifs at h
  · obtain rfl := Except.ok.inj h
    exact .countMinSketch (by decide) 5
  · obtain rfl := Except.ok.inj h
    exact .hashMapExact
  · cases hnew : HeavyHitters.create 64 with
    | error msg => rw [hnew] at h; cases h
    | ok hh =>
      rw [hnew] at h
      obtain rfl := Except.ok.inj h
      exact .heavyHitters hnew

/-! ## Runs event by event -/

/-- The run over the events returns. -/
def Reaches (env : Env) (cfg : PipelineConfig) (events : List NetworkEvent) (s : State)
    (outs : List Output) : Prop :=
  Returns (run env cfg events) (s, outs)

/-- A run reaches one state. -/
theorem Reaches.unique (h : Reaches env cfg events s outs) {outs' : List Output}
    (h' : Reaches env cfg events s' outs') : s = s' ∧ outs = outs' :=
  Prod.mk.inj (Returns.unique h h')

/-- A run needs a set-up. -/
theorem Reaches.exists_setup (h : Reaches env cfg events s outs) :
    ∃ eng s₀, setup env cfg = some (eng, s₀) := by
  obtain ⟨n, hn⟩ := h
  have hrun : run env cfg events n = some (s, outs) := hn n le_rfl
  unfold run at hrun
  cases hsetup : setup env cfg with
  | none => rw [hsetup] at hrun; exact absurd hrun (by simp)
  | some r => exact ⟨r.1, r.2, rfl⟩

/-- After a set-up that succeeds, reaching is the loop's return. -/
theorem reaches_iff (hsetup : setup env cfg = some (eng, s₀)) :
    Reaches env cfg events s outs ↔
      Returns (fun n => events.foldlM (eng.runStep env n) (s₀, [])) (s, outs) := by
  unfold Reaches
  have hrun : run env cfg events = fun n => events.foldlM (eng.runStep env n) (s₀, []) := by
    funext n
    rw [run, hsetup]
    rfl
  rw [hrun]

/-- Every round settles, and so does the whole run. -/
theorem settles_runStep (eng : Engine) (env : Env) (r : State × List Output)
    (evt : NetworkEvent) : Settles fun n => eng.runStep env n r evt :=
  Outcome.settles ((outcome_step eng env r.2.length r.1 evt).bind fun _ _ =>
    outcome_some (Q := fun _ => True) trivial)

/-- More fuel never changes what a run returns. -/
theorem settles_run (env : Env) (cfg : PipelineConfig) (events : List NetworkEvent) :
    Settles (run env cfg events) := by
  unfold run
  cases setup env cfg with
  | none => exact outcome_none trivial
  | some r =>
    exact outcome_foldlM (fun n => r.1.runStep env n) True (fun _ _ => True) events
      (fun _ evt _ s _ _ => settles_runStep r.1 env s evt) trivial

/-- Without events the state is the initial one. -/
theorem reaches_nil (hsetup : setup env cfg = some (eng, s₀)) : Reaches env cfg [] s₀ [] :=
  (reaches_iff hsetup).mpr (returns_const rfl)

/-- A run over one more event. -/
theorem reaches_concat (hsetup : setup env cfg = some (eng, s₀)) :
    Reaches env cfg (events ++ [evt]) s outs ↔
      ∃ s₁ outs₁ out, Reaches env cfg events s₁ outs₁ ∧
        Returns (fun fuel => eng.step env fuel outs₁.length s₁ evt) (s, out) ∧
        outs = outs₁ ++ [out] := by
  rw [reaches_iff hsetup, returns_foldlM_concat (settles_runStep eng env)]
  constructor
  · rintro ⟨⟨s₁, outs₁⟩, hrun, hstep⟩
    obtain ⟨⟨s', out⟩, hret, hconst⟩ :=
      Returns.of_bind (outcome_step eng env outs₁.length s₁ evt).settles hstep
    obtain ⟨rfl, rfl⟩ := Prod.mk.inj (hconst.unique (returns_const rfl))
    exact ⟨s₁, outs₁, out, (reaches_iff hsetup).mpr hrun, hret, rfl⟩
  · rintro ⟨s₁, outs₁, out, hrun, hret, rfl⟩
    exact ⟨(s₁, outs₁), (reaches_iff hsetup).mp hrun, hret.bind (returns_const rfl)⟩

/-- The last event of a run. -/
theorem Reaches.stepped (hsetup : setup env cfg = some (eng, s₀))
    (h : Reaches env cfg (events ++ [evt]) s outs) :
    ∃ s₁ outs₁ out, Reaches env cfg events s₁ outs₁ ∧ Stepped eng s₁ evt s out ∧
      outs = outs₁ ++ [out] := by
  obtain ⟨s₁, outs₁, out, hrun, hret, rfl⟩ := (reaches_concat hsetup).mp h
  exact ⟨s₁, outs₁, out, hrun, (outcome_step eng env outs₁.length s₁ evt).of_returns hret, rfl⟩

/-- Every initial part of a run is a run. -/
theorem Reaches.of_append (hsetup : setup env cfg = some (eng, s₀)) {rest : List NetworkEvent}
    (h : Reaches env cfg (events ++ rest) s outs) :
    ∃ s₁ outs₁, Reaches env cfg events s₁ outs₁ ∧ outs₁ <+: outs := by
  induction rest using List.reverseRecOn generalizing s outs with
  | nil =>
    rw [List.append_nil] at h
    exact ⟨s, outs, h, List.prefix_rfl⟩
  | append_singleton rest evt ih =>
    rw [← List.append_assoc] at h
    obtain ⟨s₁, outs₁, out, hrun, -, rfl⟩ := h.stepped hsetup
    obtain ⟨s₂, outs₂, hrun₂, hprefix⟩ := ih hrun
    exact ⟨s₂, outs₂, hrun₂, hprefix.trans (List.prefix_append _ _)⟩

/-- **The invariant rule**: what the initial state has and every event preserves
holds after every run. -/
theorem Reaches.invariant {P : List NetworkEvent → State → List Output → Prop}
    (hsetup : setup env cfg = some (eng, s₀)) (hnil : P [] s₀ [])
    (hstep : ∀ events evt s outs s' out, Reaches env cfg events s outs → P events s outs →
      Stepped eng s evt s' out → P (events ++ [evt]) s' (outs ++ [out]))
    (h : Reaches env cfg events s outs) : P events s outs := by
  induction events using List.reverseRecOn generalizing s outs with
  | nil =>
    obtain ⟨rfl, rfl⟩ := h.unique (reaches_nil hsetup)
    exact hnil
  | append_singleton events evt ih =>
    obtain ⟨s₁, outs₁, out, hrun, hstepped, rfl⟩ := h.stepped hsetup
    exact hstep events evt s₁ outs₁ s out hrun (ih hrun) hstepped

/-- **A run returns** when every event of it is defined in the state it meets. -/
theorem exists_reaches (hsetup : setup env cfg = some (eng, s₀)) (events : List NetworkEvent)
    (hdef : ∀ pre evt, pre ++ [evt] <+: events → ∀ s outs, Reaches env cfg pre s outs →
      Defined eng s evt) :
    ∃ s outs, Reaches env cfg events s outs := by
  induction events using List.reverseRecOn with
  | nil => exact ⟨s₀, [], reaches_nil hsetup⟩
  | append_singleton events evt ih =>
    obtain ⟨s, outs, hrun⟩ := ih fun pre evt' hpre =>
      hdef pre evt' (hpre.trans (List.prefix_append _ _))
    have hdefined := hdef events evt List.prefix_rfl s outs hrun
    obtain ⟨⟨s', out⟩, hret, -⟩ := (outcome_step eng env outs.length s evt).returns
      (not_not.mpr hdefined)
    exact ⟨s', outs ++ [out], (reaches_concat hsetup).mpr ⟨s, outs, out, hrun, hret, rfl⟩⟩

/-! ## The graph and the counters of a run -/

/-- The communication graph of the events. -/
def graphOf (events : List NetworkEvent) : DirectedGraph := events.foldl buildGraph .empty

/-- The graph grows by one edge an event. -/
theorem graphOf_append (events : List NetworkEvent) (evt : NetworkEvent) :
    graphOf (events ++ [evt]) = buildGraph (graphOf events) evt := by
  rw [graphOf, List.foldl_append]
  rfl

/-- An address that has been seen stays. -/
theorem vertices_graphOf_mono {pre : List NetworkEvent} (h : pre <+: events) :
    (graphOf pre).vertices ⊆ (graphOf events).vertices := by
  obtain ⟨rest, rfl⟩ := h
  induction rest using List.reverseRecOn with
  | nil => rw [List.append_nil]
  | append_singleton rest evt ih =>
    rw [← List.append_assoc, graphOf_append, vertices_buildGraph]
    exact ih.trans ((Finset.subset_insert _ _).trans (Finset.subset_insert _ _))

/-- The source of every event is a vertex. -/
theorem srcIp_mem_graphOf {evt : NetworkEvent} (h : evt ∈ events) :
    evt.srcIp ∈ (graphOf events).vertices := by
  induction events using List.reverseRecOn with
  | nil => exact absurd h List.not_mem_nil
  | append_singleton events e ih =>
    rw [graphOf_append, vertices_buildGraph]
    rcases List.mem_append.mp h with h | h
    · exact Finset.mem_insert_of_mem (Finset.mem_insert_of_mem (ih h))
    · rw [List.mem_singleton.mp h]
      exact Finset.mem_insert_of_mem (Finset.mem_insert_self _ _)

/-- Every event adds at most two vertices. -/
theorem numVertices_graphOf_le (events : List NetworkEvent) :
    (graphOf events).numVertices ≤ 2 * events.length := by
  induction events using List.reverseRecOn with
  | nil => exact le_rfl
  | append_singleton events evt ih =>
    rw [graphOf_append, DirectedGraph.numVertices, vertices_buildGraph, List.length_append,
      List.length_singleton]
    have h1 := Finset.card_insert_le evt.srcIp (graphOf events).vertices
    have h2 := Finset.card_insert_le evt.dstIp (insert evt.srcIp (graphOf events).vertices)
    rw [DirectedGraph.numVertices] at ih
    omega

/-- The simplest facts about a run. -/
theorem Reaches.counters (h : Reaches env cfg events s outs) :
    s.graph = graphOf events ∧ s.totalEvents = UInt64.ofNat events.length ∧
      outs.length = events.length := by
  obtain ⟨eng, s₀, hsetup⟩ := h.exists_setup
  have hstate := (created_of_setup hsetup).state_eq
  refine h.invariant (P := fun events s outs => s.graph = graphOf events ∧
    s.totalEvents = UInt64.ofNat events.length ∧ outs.length = events.length) hsetup ?_ ?_
  · rw [hstate]
    exact ⟨rfl, rfl, rfl⟩
  · rintro events evt s outs s' out - ⟨hgraph, htotal, hlen⟩ hstepped
    refine ⟨?_, ?_, ?_⟩
    · rw [hstepped.graph_eq, hgraph, graphOf_append]
    · rw [hstepped.totalEvents_eq, htotal, List.length_append, UInt64.ofNat_add]
      rfl
    · rw [List.length_append, List.length_append, hlen]
      rfl

/-! ## Casts of the configuration -/

/-- A value in range is stored as it is. -/
theorem toNat_ofInt {x : ℤ} (h0 : 0 ≤ x) (hlt : x < 2 ^ 64) : (UInt64.ofInt x).toNat = x.toNat := by
  rw [UInt64.ofInt, Int.emod_eq_of_lt h0 hlt, UInt64.toNat_ofNat_of_lt']
  have : x.toNat < 2 ^ 64 := by omega
  exact this

/-- The divisor of the check, for the intervals that have one. -/
theorem sccPeriod_eq (hlo : 1 ≤ cfg.sccIntervalSeconds.toInt)
    (hhi : cfg.sccIntervalSeconds.toInt ≤ 100000000) :
    ∃ m, sccPeriod cfg = some m ∧ (m.toNat : ℤ) = cfg.sccIntervalSeconds.toInt * 10 := by
  have hnat := toNat_ofInt (x := cfg.sccIntervalSeconds.toInt * 10) (by omega) (by omega)
  have hne : UInt64.ofInt (cfg.sccIntervalSeconds.toInt * 10) ≠ 0 := by
    intro h
    rw [h] at hnat
    have : (0 : UInt64).toNat = 0 := rfl
    omega
  refine ⟨_, if_pos ⟨?_, ?_, hne⟩, by rw [hnat]; omega⟩
  · rw [intMax]
    omega
  · rw [intMax]
    omega

/-- A window of at least no seconds in nanoseconds. -/
theorem windowNs_eq (h : 0 ≤ cfg.windowSeconds.toInt) :
    ((windowNs cfg).toNat : ℤ) = cfg.windowSeconds.toInt * 1000000000 := by
  have hlt := cfg.windowSeconds.toInt_lt
  have hnat := toNat_ofInt h (by omega)
  have h9 : (1000000000 : UInt64).toNat = 1000000000 := rfl
  rw [windowNs, UInt64.toNat_mul, hnat, h9, Nat.mod_eq_of_lt (by omega)]
  omega

end Engine
