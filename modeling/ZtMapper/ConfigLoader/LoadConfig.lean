/-
# `load_config`

The configuration loader on the bytes of the file: a state machine over lines,
with the section, the sub-section and the entries that are being filled.  An
exception of `stoi` escapes.  The numbers of the first `current_net` are
uninitialised in the source; they are an argument.
-/
import ZtMapper.ConfigLoader.ParseCidr
import ZtMapper.Lib.Trim
import ZtMapper.Lib.Unordered

open Engine Scan

namespace ConfigLoader

/-! ## `PipelineConfig` -/

structure AlertHandlerEntry where
  name : List UInt8
  params : Unordered.Map (List UInt8) (List UInt8)
  deriving DecidableEq

structure SeverityRule where
  alertType : List UInt8
  severity : List UInt8
  deriving DecidableEq

structure CIDREntry where
  pfx : UInt32
  prefixLen : UInt8
  label : Int32
  name : List UInt8
  deriving DecidableEq

structure AlgorithmConfig where
  name : List UInt8 := []
  width : Int32 := 2048
  depth : Int32 := 5
  threshold : Int32 := 100
  maxHops : Int32 := 3
  deriving DecidableEq

structure PipelineConfig where
  frequency : AlgorithmConfig := {}
  scc : AlgorithmConfig := {}
  reachability : AlgorithmConfig := {}
  ipClassifier : AlgorithmConfig := {}
  networks : List CIDREntry := []
  eventSourceType : List UInt8 := []
  eventSourcePath : List UInt8 := []
  windowSeconds : Int32 := 60
  sccIntervalSeconds : Int32 := 10
  snapshotIntervalSeconds : Int32 := 5
  alertsFile : List UInt8 := bytes "output/alerts.json"
  graphFile : List UInt8 := bytes "output/graph.json"
  statsFile : List UInt8 := bytes "output/stats.json"
  alertHandlers : List AlertHandlerEntry := []
  severityRules : List SeverityRule := []
  nodeName : List UInt8 := []
  namespace_ : List UInt8 := []
  deriving DecidableEq

/-! ## Lines -/

/-- The characters `" \t\r\n\""`. -/
def isStripped (b : UInt8) : Bool := b = 32 || b = 9 || b = 13 || b = 10 || b = 34

/-- `trim` of the source. -/
abbrev strip (s : List UInt8) : List UInt8 := trim isStripped s

def extractValue (line : List UInt8) : List UInt8 :=
  match afterFirst [58] line with
  | none => []
  | some rest => strip rest

/-- A line without a colon is a key. -/
def extractKey (line : List UInt8) : List UInt8 := strip (line.takeWhile (· ≠ 58))

def stripComment (line : List UInt8) : List UInt8 := line.takeWhile (· ≠ 35)

/-- `line.find_first_not_of(' ')` -/
def indentOf (line : List UInt8) : ℕ := (line.takeWhile (· = 32)).length

/-- `stoi`, stored in an `int`. -/
def stoi32 (val : List UInt8) : Except Exception Int32 := do return Int32.ofInt (← stoi val)

/-! ## The state machine -/

inductive Section where
  | none | algorithms | freq | scc | reach | ipclass | networks | netEntry | eventSource
  | analysis | output | alertHandlers | severityRules | soc
  deriving DecidableEq, Repr

/-- The local variables of the loop.  The pointers to the current handler and rule
are positions in the lists of the configuration. -/
structure Loader where
  cfg : PipelineConfig
  sect : Section
  algoSub : Section
  currentNet : CIDREntry
  inParams : Bool
  currentHandler : Option ℕ
  inHandlerParams : Bool
  currentRule : Option ℕ

namespace Loader

def init (first : CIDREntry) : Loader where
  cfg := {}
  sect := .none
  algoSub := .none
  currentNet := { first with name := [] }
  inParams := false
  currentHandler := none
  inHandlerParams := false
  currentRule := none

/-- The section that a top-level key opens. -/
def sectionOf (key : List UInt8) : Option Section :=
  if key = bytes "algorithms" then some .algorithms
  else if key = bytes "networks" then some .networks
  else if key = bytes "event_source" then some .eventSource
  else if key = bytes "analysis" then some .analysis
  else if key = bytes "output" then some .output
  else if key = bytes "alert_handlers" then some .alertHandlers
  else if key = bytes "severity_rules" then some .severityRules
  else if key = bytes "soc" then some .soc
  else none

/-- A line without indentation; an unknown key leaves the section as it is. -/
def topLevel (s : Loader) (key : List UInt8) : Loader :=
  { s with
    inParams := false
    inHandlerParams := false
    currentHandler := none
    sect := (sectionOf key).getD s.sect }

/-- The algorithm that a key names. -/
def algorithmOf (key : List UInt8) : Option Section :=
  if key = bytes "frequency_estimator" then some .freq
  else if key = bytes "scc_detector" then some .scc
  else if key = bytes "reachability" then some .reach
  else if key = bytes "ip_classifier" then some .ipclass
  else none

/-- A setting of the target algorithm. -/
def setParam (inParams : Bool) (key val : List UInt8) (target : AlgorithmConfig) :
    Except Exception AlgorithmConfig :=
  if key = bytes "name" then .ok { target with name := val }
  else if inParams then
    if key = bytes "width" then do return { target with width := ← stoi32 val }
    else if key = bytes "depth" then do return { target with depth := ← stoi32 val }
    else if key = bytes "threshold" then do return { target with threshold := ← stoi32 val }
    else if key = bytes "max_hops" then do return { target with maxHops := ← stoi32 val }
    else .ok target
  else .ok target

/-- Change the configuration of the algorithm that the sub-section is about. -/
def setTarget (sub : Section) (set : AlgorithmConfig → Except Exception AlgorithmConfig)
    (cfg : PipelineConfig) : Except Exception PipelineConfig :=
  match sub with
  | .freq => do return { cfg with frequency := ← set cfg.frequency }
  | .scc => do return { cfg with scc := ← set cfg.scc }
  | .reach => do return { cfg with reachability := ← set cfg.reachability }
  | .ipclass => do return { cfg with ipClassifier := ← set cfg.ipClassifier }
  | _ => .ok cfg

def algorithms (s : Loader) (indent : ℕ) (key val : List UInt8) : Except Exception Loader :=
  -- a line at the level of the sub-sections ends the parameters
  let inParams := s.inParams && 4 < indent
  match (if indent ≤ 4 then algorithmOf key else none) with
  | some sub => .ok { s with inParams := inParams, algoSub := sub }
  | none =>
    if key = bytes "params" then .ok { s with inParams := true }
    else do
      let cfg ← setTarget s.algoSub (setParam (inParams || 6 ≤ indent) key val) s.cfg
      return { s with cfg := cfg, inParams := inParams }

/-- Save the current network; one without a name is dropped. -/
def saveNet (s : Loader) : Loader :=
  if s.currentNet.name ≠ [] then { s with cfg.networks := s.cfg.networks ++ [s.currentNet] } else s

/-- The result of `parse_cidr` is not looked at. -/
def networks (s : Loader) (trimmed key val : List UInt8) : Except Exception Loader :=
  if key = bytes "- cidr" ∨
      (trimmed.head? = some 45 ∧ (afterFirst (bytes "cidr") trimmed).isSome) then
    let s := { s.saveNet with currentNet := { pfx := 0, prefixLen := 0, label := 0, name := [] } }
    match afterFirst (bytes "cidr:") trimmed with
    | none => .ok s
    | some rest =>
      match parseCidr (strip rest) 0 0 with
      | (.error e, _) => .error e
      | (.ok _, pfx, prefixLen) =>
        .ok { s with currentNet.pfx := pfx, currentNet.prefixLen := prefixLen }
  else if key = bytes "label" then do return { s with currentNet.label := ← stoi32 val }
  else if key = bytes "name" then .ok { s with currentNet.name := val }
  else .ok s

def eventSource (s : Loader) (key val : List UInt8) : Loader :=
  if key = bytes "type" then { s with cfg.eventSourceType := val }
  else if key = bytes "path" then { s with cfg.eventSourcePath := val }
  else s

def analysis (s : Loader) (key val : List UInt8) : Except Exception Loader :=
  if key = bytes "window_seconds" then do return { s with cfg.windowSeconds := ← stoi32 val }
  else if key = bytes "scc_interval_seconds" then do
    return { s with cfg.sccIntervalSeconds := ← stoi32 val }
  else if key = bytes "snapshot_interval_seconds" then do
    return { s with cfg.snapshotIntervalSeconds := ← stoi32 val }
  else .ok s

def output (s : Loader) (key val : List UInt8) : Loader :=
  if key = bytes "alerts_file" then { s with cfg.alertsFile := val }
  else if key = bytes "graph_file" then { s with cfg.graphFile := val }
  else if key = bytes "stats_file" then { s with cfg.statsFile := val }
  else s

/-- What follows the key in the first line of a list entry. -/
def entryValue (key trimmed : List UInt8) : List UInt8 :=
  match afterFirst key trimmed with
  | none => []
  | some rest => strip rest

def alertHandlers (s : Loader) (trimmed key val : List UInt8) : Loader :=
  if trimmed.head? = some 45 then
    { s with
      cfg.alertHandlers := s.cfg.alertHandlers ++ [⟨entryValue (bytes "name:") trimmed, ∅⟩]
      currentHandler := some s.cfg.alertHandlers.length
      inHandlerParams := false }
  else match s.currentHandler with
    | none => s
    | some i =>
      if key = bytes "name" then
        { s with
          cfg.alertHandlers := s.cfg.alertHandlers.modify i fun h => { h with name := val }
          inHandlerParams := false }
      else if key = bytes "params" then { s with inHandlerParams := true }
      else if s.inHandlerParams then
        { s with
          cfg.alertHandlers := s.cfg.alertHandlers.modify i fun h =>
            { h with params := h.params.insert key val } }
      else s

def severityRules (s : Loader) (trimmed key val : List UInt8) : Loader :=
  if trimmed.head? = some 45 then
    { s with
      cfg.severityRules := s.cfg.severityRules ++ [⟨entryValue (bytes "type:") trimmed, []⟩]
      currentRule := some s.cfg.severityRules.length }
  else match s.currentRule with
    | none => s
    | some i =>
      if key = bytes "type" then
        { s with cfg.severityRules := s.cfg.severityRules.modify i fun r => { r with alertType := val } }
      else if key = bytes "severity" then
        { s with cfg.severityRules := s.cfg.severityRules.modify i fun r => { r with severity := val } }
      else s

def soc (s : Loader) (key val : List UInt8) : Loader :=
  if key = bytes "node_name" then { s with cfg.nodeName := val }
  else if key = bytes "namespace" then { s with cfg.namespace_ := val }
  else s

/-- The loop body on a line that is not blank. -/
def dispatch (s : Loader) (indent : ℕ) (trimmed key val : List UInt8) : Except Exception Loader :=
  if indent = 0 then .ok (s.topLevel key)
  else match s.sect with
    | .algorithms => s.algorithms indent key val
    | .networks => s.networks trimmed key val
    | .eventSource => .ok (s.eventSource key val)
    | .analysis => s.analysis key val
    | .output => .ok (s.output key val)
    | .alertHandlers => .ok (s.alertHandlers trimmed key val)
    | .severityRules => .ok (s.severityRules trimmed key val)
    | .soc => .ok (s.soc key val)
    | _ => .ok s

/-- The loop body. -/
def step (s : Loader) (line : List UInt8) : Except Exception Loader :=
  let line := stripComment line
  let trimmed := strip line
  if trimmed = [] then .ok s
  else s.dispatch (indentOf line) trimmed (extractKey trimmed) (extractValue trimmed)

end Loader

/-- The loop over the lines, and the last network. -/
def loadLines (first : CIDREntry) (lines : List (List UInt8)) : Except Exception PipelineConfig := do
  let s ← lines.foldlM Loader.step (.init first)
  return s.saveNet.cfg

def loadConfig (first : CIDREntry) (file : List UInt8) : Except Exception PipelineConfig :=
  loadLines first (pieces 10 file)

end ConfigLoader
