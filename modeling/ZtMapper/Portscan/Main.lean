/-
# The stand-alone tool as a program

`main` reads the lines of the input, runs a detector for each algorithm over them, and
writes the alerts of all of them as one JSON array, which has them in this order
(`decode_writeAlertsJson`).  On a file that both programs read alike, what it reports with
the sketch is what the engine reports (`Engine.tool_reports_scans`).
-/
import ZtMapper.Engine.AlertLines
import ZtMapper.Portscan.ParseEvent

open Engine (Exception HasText Reads bytes ipToString isPlain_of_mem_ipToString objectText
  objectValue printedItem_address printedItem_nat printedItem_plain)
open Fallible Json Scan

namespace Portscan

/-! ## `main` -/

/-- The loop body on a line that is parsed at a time: nothing catches an exception. -/
def lineStep (r : PortScanDetector × List PortScanDetector.Output) (l : UInt64 × List UInt8) :
    Option (PortScanDetector × List PortScanDetector.Output) :=
  match parseEvent l.1 l.2 with
  | .error _ => none
  | .ok none => some r
  | .ok (some evt) => PortScanDetector.runStep r evt

/-- One detector over the lines. -/
def detect (cfg : DetectorConfig) (lines : List (UInt64 × List UInt8)) : Option PortScanDetector :=
  match PortScanDetector.create cfg with
  | .error _ => none
  | .ok d => (lines.foldlM lineStep (d, [])).map (·.1)

/-- The lines of the input that are not empty. -/
def inputLines (input : List UInt8) : List (List UInt8) := (pieces 10 input).filter (· ≠ [])

def algos (a : CliArgs) : List (List UInt8) :=
  if a.algo = bytes "all" then [bytes "cms", bytes "mg", bytes "hashmap"] else [a.algo]

/-- The detectors after their runs.  Detector `i` parses line `j` at the time `clock i j`. -/
def detectors (a : CliArgs) (clock : ℕ → ℕ → UInt64) (input : List UInt8) :
    Option (List PortScanDetector) :=
  (algos a).zipIdx.mapM fun (algo, i) =>
    detect (makeCfg a algo) ((inputLines input).zipIdx.map fun (line, j) => (clock i j, line))

/-- The code of the engine's `ip_to_string`. -/
def ipv4ToString (ip : UInt32) : String := ipToString ip

def alertText (a : Alert) : String :=
  "  \x7b\"algo\":\"" ++ a.algo ++ "\"" ++ ",\"src_ip\":\"" ++ ipv4ToString a.srcIp ++ "\"" ++
    ",\"freq\":" ++ toString a.freq.toNat ++ ",\"timestamp_ns\":" ++ toString a.timestampNs.toNat ++
    ",\"window_id\":" ++ toString a.windowId.toNat ++ ",\"event_index\":" ++
    toString a.eventIndex.toNat ++ "\x7d"

/-- Write an alert, after a comma unless it is the first one. -/
def putAlert (s : String × Bool) (a : Alert) : String × Bool :=
  (s.1 ++ (if s.2 then "" else ",\n") ++ alertText a, false)

/-- What is written to the file of `--alerts`. -/
def writeAlertsJson (dets : List PortScanDetector) : String :=
  (dets.foldl (fun s d => d.alerts.foldl putAlert s) ("[\n", true)).1 ++ "\n]\n"

/-! ## The file of alerts -/

def alertItems (a : Alert) : List (String × List Char × Value) :=
  [("algo", '"' :: (a.algo.toList ++ ['"']), .str a.algo),
    ("src_ip", Engine.addressText a.srcIp, Engine.addressValue a.srcIp),
    ("freq", Nat.toDigits 10 a.freq.toNat, .num a.freq.toNat 0),
    ("timestamp_ns", Nat.toDigits 10 a.timestampNs.toNat, .num a.timestampNs.toNat 0),
    ("window_id", Nat.toDigits 10 a.windowId.toNat, .num a.windowId.toNat 0),
    ("event_index", Nat.toDigits 10 a.eventIndex.toNat, .num a.eventIndex.toNat 0)]

/-- What the file says of an alert. -/
def alertValue (a : Alert) : Value :=
  .obj [("algo", .str a.algo), ("src_ip", .str (ipv4ToString a.srcIp)), ("freq", .num a.freq.toNat 0),
    ("timestamp_ns", .num a.timestampNs.toNat 0), ("window_id", .num a.windowId.toNat 0),
    ("event_index", .num a.eventIndex.toNat 0)]

theorem toList_alertText (a : Alert) :
    (alertText a).toList = ' ' :: ' ' :: objectText (alertItems a) := by
  have h₁ : "  \x7b\"algo\":\"".toList
      = ' ' :: ' ' :: '\x7b' :: '"' :: ("algo".toList ++ ['"', ':', '"']) := by
    decide
  have h₂ : "\"".toList = ['"'] := by decide
  have h₃ : ",\"src_ip\":\"".toList = ',' :: '"' :: ("src_ip".toList ++ ['"', ':', '"']) := by decide
  have h₄ : ",\"freq\":".toList = ',' :: '"' :: ("freq".toList ++ ['"', ':']) := by decide
  have h₅ : ",\"timestamp_ns\":".toList = ',' :: '"' :: ("timestamp_ns".toList ++ ['"', ':']) := by
    decide
  have h₆ : ",\"window_id\":".toList = ',' :: '"' :: ("window_id".toList ++ ['"', ':']) := by decide
  have h₇ : ",\"event_index\":".toList = ',' :: '"' :: ("event_index".toList ++ ['"', ':']) := by
    decide
  have h₈ : "\x7d".toList = ['\x7d'] := by decide
  unfold alertText ipv4ToString objectText printObject alertItems Engine.addressText
  simp only [String.toList_append, Engine.toList_toString_nat, h₁, h₂, h₃, h₄, h₅, h₆, h₇, h₈,
    List.map_cons, List.map_nil, memberText, List.intercalate_cons_cons, List.intercalate_singleton,
    List.append_assoc, List.cons_append, List.nil_append]

theorem denotes_alertItems {a : Alert} (h : a.algo.toList.all isPlain = true) :
    Denotes .value (objectText (alertItems a)) (alertValue a) := by
  refine Engine.denotes_objectText ?_
  unfold alertItems
  simp only [List.forall_mem_cons]
  exact ⟨printedItem_plain (by decide) h, printedItem_address (by decide) _,
    printedItem_nat (by decide) _, printedItem_nat (by decide) _, printedItem_nat (by decide) _,
    printedItem_nat (by decide) _, fun _ hi => absurd hi List.not_mem_nil⟩

/-- What the loop writes for alerts after the first one. -/
theorem foldl_putAlert (out : String) (alerts : List Alert) :
    (alerts.foldl putAlert (out, false)).1.toList
      = out.toList ++ alerts.flatMap fun a => ',' :: '\n' :: (alertText a).toList := by
  induction alerts generalizing out with
  | nil => exact (List.append_nil _).symm
  | cons a alerts ih =>
    have hcomma : ",\n".toList = [',', '\n'] := by decide
    rw [List.foldl_cons, putAlert, if_neg Bool.false_ne_true, ih, List.flatMap_cons,
      String.toList_append, String.toList_append, hcomma]
    simp only [List.append_assoc, List.cons_append, List.nil_append]

theorem writeAlertsJson_eq (dets : List PortScanDetector) :
    writeAlertsJson dets = ((dets.flatMap (·.alerts)).foldl putAlert ("[\n", true)).1 ++ "\n]\n" := by
  rw [writeAlertsJson, List.foldl_flatMap]

/-- An alert in the file, after the line break. -/
def alertElement (a : Alert) : List Char × Value := ('\n' :: (alertText a).toList, alertValue a)

/-- The text of the file. -/
theorem toList_writeAlertsJson (dets : List PortScanDetector) :
    ∃ w, Blank w ∧ (writeAlertsJson dets).toList =
      '[' :: ([','].intercalate (((dets.flatMap (·.alerts)).map alertElement).map (·.1)) ++ w ++ [']'])
        ++ ['\n'] := by
  have hopen : "[\n".toList = ['[', '\n'] := by decide
  have hclose : "\n]\n".toList = ['\n', ']', '\n'] := by decide
  rw [writeAlertsJson_eq, String.toList_append, hclose]
  cases dets.flatMap (·.alerts) with
  | nil =>
    refine ⟨['\n', '\n'], by decide, ?_⟩
    rw [List.foldl_nil, hopen]
    rfl
  | cons a alerts =>
    refine ⟨['\n'], by decide, ?_⟩
    rw [List.foldl_cons, putAlert, if_pos rfl, foldl_putAlert, String.toList_append,
      String.toList_append, hopen, List.map_cons, List.map_cons, intercalate_cons_eq_flatMap,
      List.map_map, List.flatMap_map]
    simp only [alertElement, Function.comp_apply, String.toList_empty, List.append_assoc,
      List.cons_append, List.nil_append]

/-- **The file of alerts** is one JSON array of the alerts of all detectors, in order. -/
theorem decode_writeAlertsJson {dets : List PortScanDetector}
    (h : ∀ d ∈ dets, ∀ a ∈ d.alerts, a.algo.toList.all isPlain = true) :
    decode (writeAlertsJson dets).toList
      = some (.arr ((dets.flatMap (·.alerts)).map alertValue)) := by
  obtain ⟨w, hw, htext⟩ := toList_writeAlertsJson dets
  have hitems : ∀ i ∈ (dets.flatMap (·.alerts)).map alertElement, IsText i.1 i.2 := by
    refine List.forall_mem_map.mpr fun a ha => ?_
    obtain ⟨d, hd, ha⟩ := List.mem_flatMap.mp ha
    have hpad := (denotes_alertItems (h d hd a ha)).isText.pad (w := ['\n', ' ', ' ']) (by decide)
      blank_nil
    rw [List.append_nil] at hpad
    rw [alertElement, toList_alertText]
    exact hpad
  have hvalues : ((dets.flatMap (·.alerts)).map alertElement).map (·.2)
      = (dets.flatMap (·.alerts)).map alertValue := List.map_map
  have harray := denotes_array _ hitems hw
  rw [hvalues] at harray
  rw [decode_eq_some_iff, htext]
  exact harray.isText.pad blank_nil (by decide)

/-! ## Runs over lines -/

/-- The events of the lines, where none throws. -/
def parseLines : List (UInt64 × List UInt8) → Option (List NetworkEvent)
  | [] => some []
  | l :: lines =>
    match parseEvent l.1 l.2 with
    | .error _ => none
    | .ok none => parseLines lines
    | .ok (some evt) => (parseLines lines).map (evt :: ·)

theorem foldlM_lineStep (lines : List (UInt64 × List UInt8))
    (r : PortScanDetector × List PortScanDetector.Output) : lines.foldlM lineStep r
      = (parseLines lines).bind fun events => events.foldlM PortScanDetector.runStep r := by
  induction lines generalizing r with
  | nil => rfl
  | cons l lines ih =>
    rw [List.foldlM_cons, lineStep, parseLines]
    cases hparse : parseEvent l.1 l.2 with
    | error e => rfl
    | ok parsed =>
      cases parsed with
      | none => exact ih r
      | some evt =>
        dsimp only
        cases hlines : parseLines lines with
        | none =>
          refine Option.bind_eq_none_iff.mpr fun r' _ => ?_
          rw [ih r', hlines]
          rfl
        | some events =>
          rw [Option.map_some, Option.bind_some, List.foldlM_cons]
          refine Option.bind_congr fun r' _ => ?_
          rw [ih r', hlines]
          rfl

/-- **A detector over lines** is one over their events. -/
theorem detect_eq_some {cfg : DetectorConfig} {d : PortScanDetector}
    (hnew : PortScanDetector.create cfg = .ok d) {lines : List (UInt64 × List UInt8)}
    {events : List NetworkEvent} (hlines : parseLines lines = some events) :
    detect cfg lines = (d.run events).map (·.1) := by
  rw [detect, hnew]
  dsimp only
  rw [foldlM_lineStep, hlines]
  rfl

theorem algo_of_mem {cfg : DetectorConfig} {e₀ : Frequency.Estimator} {s : Tumbling.Windows NetworkEvent}
    {d : PortScanDetector} (h : Follows cfg e₀ s d) {a : Alert} (ha : a ∈ d.alerts) :
    a.algo = cfg.algo := by
  obtain ⟨i, -, hi⟩ := (h.mem_alerts a).mp ha
  obtain ⟨p, -, rfl⟩ := Option.map_eq_some_iff.mp hi
  rfl

end Portscan
