/-
# `portscan::PortScanDetector`

The detector of the stand-alone tool: an estimator under tumbling windows, with
one alert for each source and window.  `process` is undefined where the
estimator is.
-/
import ZtMapper.Frequency.Estimator

open Frequency

namespace Portscan

structure NetworkEvent where
  srcIp : UInt32
  dstIp : UInt32
  dstPort : UInt16
  timestampNs : UInt64
  deriving DecidableEq, Repr

/-- `eventIndex` counts events from `1`. -/
structure Alert where
  algo : String
  srcIp : UInt32
  freq : UInt64
  timestampNs : UInt64
  windowId : UInt64
  eventIndex : UInt64
  deriving DecidableEq, Repr

structure DetectorConfig where
  algo : String
  cmsWidth : UInt32 := 2048
  cmsDepth : UInt32 := 5
  mgK : UInt32 := 64
  threshold : UInt64 := 40
  windowNs : UInt64 := 60 * 1000000000
  deriving DecidableEq, Repr

def makeEstimator (cfg : DetectorConfig) : Except String Estimator :=
  if cfg.algo = "cms" then .ok (.countMinSketch (.create cfg.cmsWidth cfg.cmsDepth))
  else if cfg.algo = "mg" then (HeavyHitters.create cfg.mgK).map .heavyHitters
  else if cfg.algo = "hashmap" then .ok (.hashMapExact .create)
  else .error ("unknown algo: " ++ cfg.algo)

structure PortScanDetector where
  cfg : DetectorConfig
  estimator : Estimator
  alertedInWindow : Finset UInt32
  alerts : List Alert
  totalEvents : UInt64
  windowStartNs : UInt64
  windowId : UInt64

namespace PortScanDetector

/-- The constructor. -/
def create (cfg : DetectorConfig) : Except String PortScanDetector :=
  (makeEstimator cfg).map fun estimator =>
    { cfg := cfg
      estimator := estimator
      alertedInWindow := ∅
      alerts := []
      totalEvents := 0
      windowStartNs := 0
      windowId := 0 }

def maybeResetWindow (d : PortScanDetector) (nowNs : UInt64) : PortScanDetector :=
  if d.windowStartNs = 0 then { d with windowStartNs := nowNs }
  else if nowNs - d.windowStartNs > d.cfg.windowNs then
    { d with
      estimator := d.estimator.reset
      alertedInWindow := ∅
      windowStartNs := nowNs
      windowId := d.windowId + 1 }
  else d

/-- The new detector, and whether the event raised an alert. -/
def process (d : PortScanDetector) (evt : NetworkEvent) : Option (PortScanDetector × Bool) := do
  let d := d.maybeResetWindow evt.timestampNs
  let estimator ← d.estimator.recordU32 evt.srcIp
  let freq ← estimator.estimateU32 evt.srcIp
  let d := { d with estimator := estimator, totalEvents := d.totalEvents + 1 }
  if freq > d.cfg.threshold ∧ evt.srcIp ∉ d.alertedInWindow then
    let alert : Alert :=
      { algo := d.cfg.algo
        srcIp := evt.srcIp
        freq := freq
        timestampNs := evt.timestampNs
        windowId := d.windowId
        eventIndex := d.totalEvents }
    return ({ d with
      alertedInWindow := insert evt.srcIp d.alertedInWindow
      alerts := d.alerts ++ [alert] }, true)
  else return (d, false)

/-- What is seen of one call: its result, and the window the event was counted in. -/
structure Output where
  emitted : Bool
  windowId : UInt64
  deriving DecidableEq, Repr

/-- One call in a sequence of calls. -/
def runStep (r : PortScanDetector × List Output) (evt : NetworkEvent) :
    Option (PortScanDetector × List Output) := do
  let (d, emitted) ← r.1.process evt
  return (d, r.2 ++ [{ emitted := emitted, windowId := d.windowId }])

/-- A sequence of calls: the final detector, and the outputs of the calls. -/
def run (d : PortScanDetector) (events : List NetworkEvent) :
    Option (PortScanDetector × List Output) :=
  events.foldlM runStep (d, [])

end PortScanDetector

end Portscan
