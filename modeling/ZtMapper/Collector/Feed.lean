/-
# The engine behind the collector

The engine reads what the collector prints.  However the probes interleave, and whatever
the collector misses, a port scan is reported of a pod that has made connections, and with
exact counters of one that has made more of them than the threshold
(`port_scans_are_of_pods`).
-/
import ZtMapper.Collector.Monitor
import ZtMapper.Engine.Burst
import ZtMapper.Lib.LinePositions

open Collector (FromPod InPodNetwork Monitor MonitorEvent connections podConnections printed received)
open Frequency Lines Loop Pipeline Runs WindowLog

namespace Engine

variable {e : Endian} {m : Monitor} {ops : List MonitorEvent} {env : Env} {cfg : PipelineConfig}
  {s : State} {outs : List Output}

/-- What the collector has printed is read as the events of some connections of pods. -/
theorem reaches_of_stdout (h : reach (Monitor.step e) (Monitor.start e) ops = some m)
    (hrun : Returns (runLines env cfg (cut 10 m.stdout.flatten).1) (s, outs)) :
    ∃ seen : List Collector.NetworkEvent, seen.Sublist (podConnections e ops) ∧
      Reaches env cfg (seen.map fun c => hostEvent e (received c)) s outs := by
  obtain ⟨seen, hsub, htold, -⟩ := Monitor.exists_told h
  have hseen : m.stdout = (seen.take m.stdout.length).map (printed e) := by
    rw [List.map_take, ← htold]
    exact (List.take_left' rfl).symm
  obtain ⟨lines, htext, hlines, hreaches⟩ :=
    reaches_handleEvent e ((seen.take m.stdout.length).map received)
  have hflatten : m.stdout.flatten = unlines 10 lines := by
    rw [hseen, ← List.flatMap_def, unlines, ← htext, List.flatMap_map]
    rfl
  rw [hflatten, cut_unlines hlines] at hrun
  refine ⟨seen.take m.stdout.length, (List.take_sublist _ _).trans hsub, ?_⟩
  have hevents := (hreaches env cfg s outs).mp hrun
  rwa [List.map_map] at hevents

/-- The output that holds an alert, and its event. -/
theorem Reaches.exists_index {events : List NetworkEvent} (h : Reaches env cfg events s outs)
    {a : Soc.Alert} (ha : a ∈ outs.flatMap (·.alerts)) :
    ∃ (i : ℕ) (evt : NetworkEvent) (out : Output), events[i]? = some evt ∧ outs[i]? = some out ∧
      a ∈ out.alerts := by
  obtain ⟨out, hout, hmem⟩ := List.mem_flatMap.mp ha
  obtain ⟨i, hi⟩ := List.getElem?_of_mem hout
  have hlt : i < events.length := by
    rw [← h.counters.2.2]
    exact (List.getElem?_eq_some_iff.mp hi).1
  exact ⟨i, events[i], out, List.getElem?_eq_getElem hlt, hi, hmem⟩

/-- With exact counters, an entry that is over has as many entries of its key. -/
theorem lt_countP_of_over {events : List NetworkEvent} {i : ℕ} {evt : NetworkEvent}
    (hevt : events[i]? = some evt)
    (hover : Over NetworkEvent.srcIp (Estimator.hashMapExact .create).estimateAfter (thresholdOf cfg)
      (windowsOf cfg events).log i) :
    thresholdOf cfg < events.countP fun evt' => evt'.srcIp = evt.srcIp := by
  obtain ⟨p, hp, hlt⟩ := hover
  have hsnd : (windowsOf cfg events).log.map (·.2) = events := Tumbling.map_snd_log events
  have hkey : p.2 = evt.srcIp := by
    obtain ⟨q, hq, rfl⟩ := Option.map_eq_some_iff.mp hp
    have hmap := congrArg (·[i]?) hsnd
    simp only [List.getElem?_map, hq, hevt, Option.map_some] at hmap
    rw [← Option.some.inj hmap]
  rw [Estimator.estimateAfter_hashMapExact, hkey] at hlt
  calc thresholdOf cfg
      < (stream NetworkEvent.srcIp ((windowsOf cfg events).log.take (i + 1)) p.1).count evt.srcIp :=
        lt_of_lt_of_le hlt (Nat.mod_le _ _)
    _ ≤ (stream NetworkEvent.srcIp (windowsOf cfg events).log p.1).count evt.srcIp :=
        (stream_take_sublist _ _ _ _).count_le _
    _ ≤ (windowsOf cfg events).log.countP fun q => q.2.srcIp = evt.srcIp := by
        rw [count_stream]
        exact List.countP_mono_left fun q _ hq => by simpa using (of_decide_eq_true hq).2
    _ = events.countP fun evt' => evt'.srcIp = evt.srcIp := by
        conv_rhs => rw [← hsnd, List.countP_map]
        rfl

/-- **A reported scan is a pod's.**  In every run of the collector and of the engine on
what it has printed, the source of a `port_scan` alert is an address of the pod network
from which a connection has been made; with exact counters, more connections than the
threshold. -/
theorem port_scans_are_of_pods (h : reach (Monitor.step e) (Monitor.start e) ops = some m)
    (hrun : Returns (runLines env cfg (cut 10 m.stdout.flatten).1) (s, outs)) {a : Soc.Alert}
    (ha : a ∈ outs.flatMap (·.alerts)) (htype : a.type = "port_scan") :
    ∃ ip, InPodNetwork ip ∧ a.source = ipToString ip ∧
      (∃ c ∈ connections ops, ntohl e c.srcIp = ip) ∧
      (cfg.frequency.name = "hash_map_exact" →
        thresholdOf cfg < (connections ops).countP fun c => ntohl e c.srcIp = ip) := by
  obtain ⟨seen, hsub, hreaches⟩ := reaches_of_stdout h hrun
  obtain ⟨eng, s₀, hsetup⟩ := hreaches.exists_setup
  obtain ⟨i, evt, out, hevt, hout, hmem⟩ := hreaches.exists_index ha
  have houtput := (hreaches.scanning hsetup).outputs i evt out hevt hout
  split_ifs at houtput with hraised
  swap
  · exact absurd htype (houtput a hmem)
  -- the event is the one of a connection that a pod has made
  obtain ⟨c, hc, rfl⟩ := List.mem_map.mp (List.mem_of_getElem? hevt)
  obtain ⟨hmade, hpod⟩ := List.mem_filter.mp (hsub.mem hc)
  refine ⟨ntohl e c.srcIp, of_decide_eq_true hpod, (houtput.2 a hmem htype).1, ⟨c, hmade, rfl⟩,
    fun hname => ?_⟩
  have hestimator : s₀.freqEstimator = .hashMapExact .create := by
    have hcreate := (created_of_setup hsetup).estimator_eq
    rw [hname] at hcreate
    exact (Except.ok.inj hcreate).symm
  rw [hestimator] at hraised
  refine (lt_countP_of_over hevt hraised.1).trans_le ?_
  rw [List.countP_map]
  exact (hsub.trans List.filter_sublist).countP_le

/-- A connection of a pod that the engine counts over the threshold `0`. -/
theorem port_scans_are_of_pods_one :
    ∃ env m s outs a, reach (Monitor.step .little) (Monitor.start .little) Monitor.filling = some m ∧
      Returns (runLines env (alertingConfig "hash_map_exact" "tarjan" 0) (cut 10 m.stdout.flatten).1)
        (s, outs) ∧ a ∈ outs.flatMap (·.alerts) ∧
      ∃ ip, InPodNetwork ip ∧ a.source = ipToString ip ∧
        (∃ c ∈ connections Monitor.filling, ntohl .little c.srcIp = ip) ∧
        ("hash_map_exact" = "hash_map_exact" →
          thresholdOf (alertingConfig "hash_map_exact" "tarjan" 0) <
            (connections Monitor.filling).countP fun c => ntohl .little c.srcIp = ip) := by
  obtain ⟨env⟩ := (inferInstance : Nonempty Env)
  obtain ⟨eng, s₀, hsetup⟩ :=
    exists_setup (alertingConfig "hash_map_exact" "tarjan" 0) rfl rfl rfl rfl env
  obtain ⟨lines, htext, hlines, hreaches⟩ :=
    reaches_handleEvent .little [received ⟨0x0501F40A, 0x0A02F40A, 80, 0, 10⟩]
  obtain ⟨s, outs, hrun⟩ := exists_reaches_of_size hsetup ⟨10, rfl⟩
    [hostEvent .little (received ⟨0x0501F40A, 0x0A02F40A, 80, 0, 10⟩)]
    fun _ => lt_of_le_of_lt (numVertices_graphOf_le _) (by decide)
  have hestimator : s₀.freqEstimator = .hashMapExact .create :=
    (Except.ok.inj (created_of_setup hsetup).estimator_eq).symm
  obtain ⟨out, a, hout, ha, htype, -⟩ := exists_alert_of_raised hsetup hrun (i := 0) (w := 0)
    (x := 0x0AF40105) rfl (by
      rw [hestimator]
      exact ⟨by decide, fun j hj => absurd hj (Nat.not_lt_zero j)⟩)
  have hmem : a ∈ outs.flatMap (·.alerts) :=
    List.mem_flatMap.mpr ⟨out, List.mem_of_getElem? hout, ha⟩
  have hprinted : (reach (Monitor.step .little) (Monitor.start .little) Monitor.filling).map
      (·.stdout) = some [printed .little ⟨0x0501F40A, 0x0A02F40A, 80, 0, 10⟩] := by decide
  obtain ⟨m, hm, hstdout⟩ := Option.map_eq_some_iff.mp hprinted
  have hcut : (cut 10 m.stdout.flatten).1 = lines := by
    have hflatten : m.stdout.flatten = unlines 10 lines := by
      rw [hstdout, List.flatten_singleton, unlines, ← htext, List.flatMap_singleton]
      rfl
    rw [hflatten, cut_unlines hlines]
  have hreturns := (hreaches env (alertingConfig "hash_map_exact" "tarjan" 0) s outs).mpr hrun
  rw [← hcut] at hreturns
  exact ⟨env, m, s, outs, a, hm, hreturns, hmem, port_scans_are_of_pods hm hreturns hmem htype⟩

end Engine
