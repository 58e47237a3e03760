/-
# `pipeline::PipelineConfig` and the registry

The part of the configuration that the event loop reads, the factories that
`register_all_algorithms` registers, and the severity rules.  A CIDR entry
carries the bound on its prefix length that `parse_cidr` enforces.
-/
import ZtMapper.Frequency.Estimator
import ZtMapper.Graph.Reachability
import ZtMapper.Graph.SccDetector
import ZtMapper.Soc.Alert
import ZtMapper.Trie.LpmTrieCorrect

open Frequency

namespace Pipeline

/-- A severity override for one type of alert. -/
structure SeverityRule where
  alertType : String
  severity : String
  deriving DecidableEq, Repr

structure CIDREntry where
  pfx : UInt32
  prefixLen : UInt8
  label : Int32
  prefixLen_le : prefixLen ≤ 32

/-- `width` and `depth` are the dimensions of a `CountMinSketch`. -/
structure AlgorithmConfig where
  name : String
  width : Int32 := 2048
  depth : Int32 := 5
  threshold : Int32 := 100
  maxHops : Int32 := 3
  deriving DecidableEq, Repr

structure PipelineConfig where
  frequency : AlgorithmConfig
  scc : AlgorithmConfig
  reachability : AlgorithmConfig
  ipClassifier : AlgorithmConfig
  networks : List CIDREntry
  windowSeconds : Int32 := 60
  sccIntervalSeconds : Int32 := 10
  severityRules : List SeverityRule
  nodeName : String
  namespace_ : String

/-- The default configuration, for an estimator and an SCC detector. -/
def PipelineConfig.plain (estimator detector : String) : PipelineConfig where
  frequency := { name := estimator }
  scc := { name := detector }
  reachability := { name := "bfs" }
  ipClassifier := { name := "lpm_trie" }
  networks := []
  severityRules := []
  nodeName := ""
  namespace_ := ""

/-! ## `register_all_algorithms` -/

/-- The factories take no parameters: the dimensions of the sketch are constants. -/
def createEstimator (name : String) : Except String Estimator :=
  if name = "count_min_sketch" then .ok (.countMinSketch (.create 2048 5))
  else if name = "hash_map_exact" then .ok (.hashMapExact .create)
  else if name = "heavy_hitters" then (HeavyHitters.create 64).map .heavyHitters
  else .error ("Unknown algorithm: " ++ name)

def createSccDetector (name : String) : Except String SccDetector :=
  if name = "tarjan" then .ok .tarjan
  else if name = "kosaraju" then .ok .kosaraju
  else .error ("Unknown algorithm: " ++ name)

def createReachability (name : String) : Except String ReachabilityAnalyzer :=
  if name = "bfs" then .ok .bfs
  else if name = "dijkstra" then .ok .dijkstra
  else .error ("Unknown algorithm: " ++ name)

def createIpClassifier (name : String) : Except String LPMTrie :=
  if name = "lpm_trie" then .ok .empty
  else .error ("Unknown algorithm: " ++ name)

/-- Insert the configured networks. -/
def populate (t : LPMTrie) (networks : List CIDREntry) : Option LPMTrie :=
  networks.foldlM (fun t net => t.insert net.pfx net.prefixLen net.label) t

/-! ## Alert metadata -/

def parseSeverity (s : String) (fallback : Soc.Severity) : Soc.Severity :=
  if s = "low" then .low
  else if s = "medium" then .medium
  else if s = "high" then .high
  else if s = "critical" then .critical
  else fallback

/-- The first rule for the type decides, else a default. -/
def severityFor (type : String) (rules : List SeverityRule) : Soc.Severity :=
  match rules.find? fun r => r.alertType = type with
  | some r => parseSeverity r.severity .medium
  | none =>
    if type = "blast_radius" then .high
    else if type = "scc_anomaly" then .high
    else if type = "port_scan" then .medium
    else .medium

/-- The configured node name, falling back to environment variables. -/
def resolveNodeName (getenv : String → Option String) (fromConfig : String) : String :=
  if fromConfig ≠ "" then fromConfig
  else match getenv "NODE_NAME" with
    | some e => e
    | none => (getenv "HOSTNAME").getD ""

def resolveNamespace (getenv : String → Option String) (fromConfig : String) : String :=
  if fromConfig ≠ "" then fromConfig
  else (getenv "POD_NAMESPACE").getD ""

end Pipeline
