/-
# The event loop of the pipeline engine

`main` after its set-up: for every event, the sliding window, the frequency
estimate and its alerts, the communication graph, and the periodic SCC check.
The iteration orders of the hash containers and the environment variables come
from an `Env`, arbitrary in every theorem.  `none` stands for undefined
behaviour, an escaping exception, or a loop that ran out of fuel.
-/
import ZtMapper.Engine.Config

open Frequency Pipeline Unordered

/-- `dsa::NetworkEvent` -/
structure NetworkEvent where
  srcIp : UInt32
  dstIp : UInt32
  dstPort : UInt16
  pid : UInt32
  timestampNs : UInt64
  deriving DecidableEq, Repr

/-- The objects `main` creates before the loop. -/
structure Engine where
  cfg : PipelineConfig
  sccDetector : SccDetector
  reachability : ReachabilityAnalyzer
  ipClassifier : LPMTrie
  nodeName : String
  namespace_ : String

namespace Engine

/-- What a run finds in its surroundings: the environment variables, and for
the event number `n` the iteration orders of a graph, of its transpose, and of a
reachability result. -/
structure Env where
  getenv : String → Option String
  order : ℕ → (g : DirectedGraph) → g.Order
  orderT : (n : ℕ) → (g : DirectedGraph) → (g.transpose (order n g)).Order
  listing : ℕ → ReachabilityResult → List (Vertex × ℤ)
  listing_spec : ∀ n m, (listing n m : Multiset (Vertex × ℤ)) = m.entries.map fun e => (e.1, e.2)

/-- The processing state. -/
structure State where
  freqEstimator : Estimator
  graph : DirectedGraph
  lastSccs : List Component
  totalEvents : UInt64
  alertsCount : UInt64
  windowStartNs : UInt64
  alertedSources : Finset UInt32
  prevNontrivialSccs : ℕ

/-- The processing state before the loop. -/
def State.init (freqEstimator : Estimator) : State where
  freqEstimator := freqEstimator
  graph := .empty
  lastSccs := []
  totalEvents := 0
  alertsCount := 0
  windowStartNs := 0
  alertedSources := ∅
  prevNontrivialSccs := 0

/-- What one event makes visible: whether a window reset is logged, and the
alerts sent to the handlers. -/
structure Output where
  windowReset : Bool
  alerts : List Soc.Alert
  deriving DecidableEq, Repr

/-- The creation of the algorithms in `main`.  The event file and the alert handlers, which
`main` opens next and whose failure ends it by `return 1`, are in `start`. -/
def setup (env : Env) (cfg : PipelineConfig) : Option (Engine × State) := do
  let freqEstimator ← (createEstimator cfg.frequency.name).toOption
  let sccDetector ← (createSccDetector cfg.scc.name).toOption
  let reachability ← (createReachability cfg.reachability.name).toOption
  let ipClassifier ← (createIpClassifier cfg.ipClassifier.name).toOption
  let ipClassifier ← populate ipClassifier cfg.networks
  return (
    { cfg := cfg
      sccDetector := sccDetector
      reachability := reachability
      ipClassifier := ipClassifier
      nodeName := resolveNodeName env.getenv cfg.nodeName
      namespace_ := resolveNamespace env.getenv cfg.namespace_ },
    State.init freqEstimator)

/-! ## Alerts -/

def ipToString (ip : UInt32) : String :=
  toString ((ip >>> 24) &&& 0xFF).toNat ++ "." ++ toString ((ip >>> 16) &&& 0xFF).toNat ++ "." ++
    toString ((ip >>> 8) &&& 0xFF).toNat ++ "." ++ toString (ip &&& 0xFF).toNat

/-- An alert with the metadata of the engine. -/
def makeAlert (eng : Engine) (type source details : String) (timestampNs : UInt64)
    (tags : List String) : Soc.Alert where
  type := type
  source := source
  details := details
  timestampNs := timestampNs
  severity := severityFor type eng.cfg.severityRules
  tags := tags
  nodeName := eng.nodeName
  namespace_ := eng.namespace_

def portScanDetails (freq : UInt64) (threshold srcLabel : Int32) (srcIp : UInt32) : String :=
  "\x7b\"estimated_frequency\":" ++ toString freq.toNat ++
    ",\"threshold\":" ++ toString threshold.toInt ++
    ",\"src_label\":" ++ toString srcLabel.toInt ++
    ",\"src_ip\":\"" ++ ipToString srcIp ++ "\"" ++
    ",\"description\":\"Source IP exceeded connection frequency threshold — possible port scan\"\x7d"

def blastRadiusDetails (srcIp : UInt32) (maxHops : Int32) (blast : List (Vertex × ℤ)) : String :=
  "\x7b\"source\":\"" ++ ipToString srcIp ++
    "\",\"max_hops\":" ++ toString maxHops.toInt ++
    ",\"reachable_count\":" ++ toString blast.length ++
    ",\"reachable\":[" ++
    ",".intercalate (blast.map fun (v, dist) =>
      "\x7b\"ip\":\"" ++ ipToString v ++ "\",\"hops\":" ++ toString dist ++ "\x7d") ++ "]\x7d"

def sccDetails (scc : Component) : String :=
  "\x7b\"scc_size\":" ++ toString scc.length ++
    ",\"members\":[" ++ ",".intercalate (scc.map fun v => "\"" ++ ipToString v ++ "\"") ++
    "],\"description\":\"Strongly connected component detected — possible architecture violation or lateral movement\"\x7d"

def portScanAlert (eng : Engine) (evt : NetworkEvent) (srcLabel : Int32) (freq : UInt64) :
    Soc.Alert :=
  eng.makeAlert "port_scan" (ipToString evt.srcIp)
    (portScanDetails freq eng.cfg.frequency.threshold srcLabel evt.srcIp) evt.timestampNs
    ["port_scan"]

def blastRadiusAlert (eng : Engine) (evt : NetworkEvent) (blast : List (Vertex × ℤ)) : Soc.Alert :=
  eng.makeAlert "blast_radius" (ipToString evt.srcIp)
    (blastRadiusDetails evt.srcIp eng.cfg.reachability.maxHops blast) evt.timestampNs
    ["blast_radius", "lateral_movement"]

/-- The source is `scc[0]`. -/
def sccAlert (eng : Engine) (evt : NetworkEvent) (scc : Component) : Soc.Alert :=
  eng.makeAlert "scc_anomaly" ((scc.head?.map ipToString).getD "") (sccDetails scc)
    evt.timestampNs ["scc", "architecture_violation"]

/-! ## The phases of the loop body -/

/-- `static_cast<uint64_t>(cfg.window_seconds) * 1'000'000'000ULL` -/
def windowNs (cfg : PipelineConfig) : UInt64 :=
  1000000000 * UInt64.ofInt cfg.windowSeconds.toInt

/-- Initialize or reset the window; the flag tells whether it was reset. -/
def resetWindow (cfg : PipelineConfig) (s : State) (timestampNs : UInt64) : State × Bool :=
  let start := if s.windowStartNs = 0 then timestampNs else s.windowStartNs
  if timestampNs - start > windowNs cfg then
    ({ s with
      freqEstimator := s.freqEstimator.reset
      alertedSources := ∅
      windowStartNs := timestampNs }, true)
  else ({ s with windowStartNs := start }, false)

/-- The `port_scan` alert, and the `blast_radius` alert that follows it when the
source is a vertex of the graph. -/
def portScan (eng : Engine) (env : Env) (fuel n : ℕ) (s : State) (evt : NetworkEvent)
    (srcLabel : Int32) (freq : UInt64) : Option (State × List Soc.Alert) :=
  if freq > UInt64.ofInt eng.cfg.frequency.threshold.toInt ∧ evt.srcIp ∉ s.alertedSources then
    let s := { s with
      alertedSources := insert evt.srcIp s.alertedSources
      alertsCount := s.alertsCount + 1 }
    let alert := eng.portScanAlert evt srcLabel freq
    if s.graph.hasVertex evt.srcIp then do
      let blast ← eng.reachability.reachableWithin (env.order n s.graph) evt.srcIp
        eng.cfg.reachability.maxHops.toInt fuel
      return ({ s with alertsCount := s.alertsCount + 1 },
        [alert, eng.blastRadiusAlert evt (env.listing n blast)])
    else some (s, [alert])
  else some (s, [])

/-- Build the communication graph. -/
def buildGraph (graph : DirectedGraph) (evt : NetworkEvent) : DirectedGraph :=
  let graph := if graph.hasVertex evt.srcIp then graph else graph.addVertex evt.srcIp
  let graph := if graph.hasVertex evt.dstIp then graph else graph.addVertex evt.dstIp
  graph.addEdge evt.srcIp evt.dstIp

/-- `static_cast<uint64_t>(cfg.scc_interval_seconds * 10)` as a divisor: the
product has type `int`, and a remainder by zero is undefined. -/
def sccPeriod (cfg : PipelineConfig) : Option UInt64 :=
  let product := cfg.sccIntervalSeconds.toInt * 10
  if -intMax - 1 ≤ product ∧ product ≤ intMax ∧ UInt64.ofInt product ≠ 0 then
    some (UInt64.ofInt product)
  else none

/-- The periodic SCC check. -/
def sccCheck (eng : Engine) (env : Env) (fuel n : ℕ) (s : State) (evt : NetworkEvent) :
    Option (State × List Soc.Alert) := do
  let period ← sccPeriod eng.cfg
  if s.totalEvents % period = 0 then
    let sccs ← eng.sccDetector.findSccs (env.order n s.graph) (env.orderT n s.graph) fuel
    let s := { s with lastSccs := sccs }
    let nontrivial := sccs.countP fun scc => scc.length > 1
    if nontrivial > s.prevNontrivialSccs then
      let alerts := (sccs.filter fun scc => scc.length > 1).map (eng.sccAlert evt)
      return ({ s with
        alertsCount := s.alertsCount + UInt64.ofNat alerts.length
        prevNontrivialSccs := nontrivial }, alerts)
    else return (s, [])
  else return (s, [])

/-- The loop body on the event number `n`. -/
def step (eng : Engine) (env : Env) (fuel n : ℕ) (s : State) (evt : NetworkEvent) :
    Option (State × Output) := do
  let s := { s with totalEvents := s.totalEvents + 1 }
  let (s, windowReset) := resetWindow eng.cfg s evt.timestampNs
  let srcLabel ← eng.ipClassifier.lookup evt.srcIp
  let _dstLabel ← eng.ipClassifier.lookup evt.dstIp
  let freqEstimator ← s.freqEstimator.recordU32 evt.srcIp
  let freq ← freqEstimator.estimateU32 evt.srcIp
  let s := { s with freqEstimator := freqEstimator }
  let (s, scanAlerts) ← eng.portScan env fuel n s evt srcLabel freq
  let s := { s with graph := buildGraph s.graph evt }
  let (s, sccAlerts) ← eng.sccCheck env fuel n s evt
  return (s, { windowReset := windowReset, alerts := scanAlerts ++ sccAlerts })

/-- One event of a run. -/
def runStep (eng : Engine) (env : Env) (fuel : ℕ) (r : State × List Output)
    (evt : NetworkEvent) : Option (State × List Output) := do
  let (s, out) ← eng.step env fuel r.2.length r.1 evt
  return (s, r.2 ++ [out])

/-- The set-up and the loop over the events: the state after the last event, and
the outputs of the events. -/
def run (env : Env) (cfg : PipelineConfig) (events : List NetworkEvent) (fuel : ℕ) :
    Option (State × List Output) := do
  let (eng, s) ← setup env cfg
  events.foldlM (eng.runStep env fuel) (s, [])

end Engine
