/-
# The start of the engine

Before the event loop `main` creates the algorithms, opens the event file if one is
configured, and makes the alert handlers; where one of these fails, it ends.  The loop is
entered exactly when the names are registered and the configuration is `Startable`.
-/
import ZtMapper.ConfigLoader.Networks
import ZtMapper.Engine.HandlerChain
import ZtMapper.Engine.Runs

open Engine hiding bytes
open Soc

namespace ConfigLoader

/-! ## The configuration of the engine -/

def engineAlgorithm (a : AlgorithmConfig) : Pipeline.AlgorithmConfig where
  name := text a.name
  width := a.width
  depth := a.depth
  threshold := a.threshold
  maxHops := a.maxHops

/-- The engine runs with the loaded configuration. -/
structure Configures (c : PipelineConfig) (cfg : Pipeline.PipelineConfig) : Prop where
  frequency_eq : cfg.frequency = engineAlgorithm c.frequency
  scc_eq : cfg.scc = engineAlgorithm c.scc
  reachability_eq : cfg.reachability = engineAlgorithm c.reachability
  ipClassifier_eq : cfg.ipClassifier = engineAlgorithm c.ipClassifier
  networks_eq : cfg.networks.map (fun net => (net.pfx, net.prefixLen, net.label))
    = c.networks.map fun net => (net.pfx, net.prefixLen, net.label)
  windowSeconds_eq : cfg.windowSeconds = c.windowSeconds
  sccIntervalSeconds_eq : cfg.sccIntervalSeconds = c.sccIntervalSeconds
  severityRules_eq : cfg.severityRules
    = c.severityRules.map fun r => ⟨text r.alertType, text r.severity⟩
  nodeName_eq : cfg.nodeName = text c.nodeName
  namespace_eq : cfg.namespace_ = text c.namespace_

/-- Every loaded configuration is one of the engine. -/
theorem exists_configures {first : CIDREntry} {file : List UInt8} {c : PipelineConfig}
    (hfirst : first.prefixLen ≤ 32) (h : loadConfig first file = .ok c) :
    ∃ cfg, Configures c cfg := by
  have hlen := prefixLen_le_of_loadConfig hfirst h
  refine ⟨{
    frequency := engineAlgorithm c.frequency
    scc := engineAlgorithm c.scc
    reachability := engineAlgorithm c.reachability
    ipClassifier := engineAlgorithm c.ipClassifier
    networks := c.networks.pmap (fun net hnet => ⟨net.pfx, net.prefixLen, net.label, hnet⟩) hlen
    windowSeconds := c.windowSeconds
    sccIntervalSeconds := c.sccIntervalSeconds
    severityRules := c.severityRules.map fun r => ⟨text r.alertType, text r.severity⟩
    nodeName := text c.nodeName
    namespace_ := text c.namespace_ }, ?_⟩
  refine ⟨rfl, rfl, rfl, rfl, ?_, rfl, rfl, rfl, rfl, rfl⟩
  rw [List.map_pmap]
  exact List.pmap_eq_map (f := fun net : CIDREntry => (net.pfx, net.prefixLen, net.label)) hlen

/-! ## The start -/

variable {F : Type}

/-- What `main` meets before the loop: the event files that can be opened, and what the
constructors of the handlers meet. -/
structure World (F : Type) where
  opensEvents : List UInt8 → Bool
  handlers : Surroundings F

/-- `main` up to the loop.  A name that is not registered ends it by an exception, an event
file or a handler that fails by `return 1`. -/
def start [DecidableEq F] (w : World F) (env : Env) (c : PipelineConfig)
    (cfg : Pipeline.PipelineConfig) (sinks : Sinks F) :
    Option (Engine × State × List (AlertHandler F) × Sinks F) := do
  let (eng, s₀) ← setup env cfg
  if c.eventSourceType = bytes "file" ∧ w.opensEvents c.eventSourcePath = false then none
  else
    let (chain, sinks) ← buildChain w.handlers (entriesOf c) sinks
    return (eng, s₀, chain, sinks)

/-- The event file can be opened if one is configured, and every handler can be made. -/
structure Startable (w : World F) (c : PipelineConfig) : Prop where
  events : c.eventSourceType = bytes "file" → w.opensEvents c.eventSourcePath = true
  handlers : ∀ e ∈ entriesOf c, Creatable w.handlers e

/-- **The loop is entered** exactly when the algorithms are created and the configuration
is startable. -/
theorem exists_start_iff [DecidableEq F] {w : World F} {env : Env} {c : PipelineConfig}
    {cfg : Pipeline.PipelineConfig} {sinks : Sinks F} :
    (∃ r, start w env c cfg sinks = some r) ↔
      (∃ eng s₀, setup env cfg = some (eng, s₀)) ∧ Startable w c := by
  unfold start
  simp only [Option.bind_eq_bind]
  constructor
  · rintro ⟨r, hr⟩
    obtain ⟨⟨eng, s₀⟩, hsetup, hr⟩ := Option.bind_eq_some_iff.mp hr
    dsimp only at hr
    split_ifs at hr with hfile
    obtain ⟨chain, hchain, -⟩ := Option.bind_eq_some_iff.mp hr
    refine ⟨⟨eng, s₀, hsetup⟩, fun htype => ?_, exists_buildChain_iff.mp ⟨chain, hchain⟩⟩
    exact Bool.not_eq_false _ ▸ fun hopens => hfile ⟨htype, hopens⟩
  · rintro ⟨⟨eng, s₀, hsetup⟩, hstart⟩
    obtain ⟨chain, hchain⟩ := exists_buildChain_iff.mpr hstart.handlers
    have hfile : ¬ (c.eventSourceType = bytes "file" ∧ w.opensEvents c.eventSourcePath = false) :=
      fun ⟨htype, hopens⟩ => absurd (hstart.events htype) (by rw [hopens]; exact Bool.false_ne_true)
    refine ⟨(eng, s₀, chain), ?_⟩
    rw [hsetup, Option.bind_some]
    dsimp only
    rw [if_neg hfile, hchain]
    rfl

/-- Where all files can be opened, a configuration without handlers is startable. -/
theorem startable_of_opens {w : World F} {c : PipelineConfig} {f : F}
    (hevents : ∀ path, w.opensEvents path = true) (hopens : ∀ path, w.handlers.opens path = some f)
    (hnone : c.alertHandlers = []) : Startable w c := by
  refine ⟨fun _ => hevents _, fun e he => ?_⟩
  rw [entriesOf, if_pos hnone] at he
  obtain rfl := List.mem_singleton.mp he
  exact Or.inl ⟨f, rfl, hopens _⟩

end ConfigLoader
