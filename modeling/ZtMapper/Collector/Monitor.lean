/-
# The collector at work

The probes of the kernel module, `populate_cidr_map`, the ring buffer and
`handle_event`, in any interleaving: the probes are attached before the table is filled,
and the buffer is read after that.  `connections` is what an observer with an unbounded
memory sees.  What the collector prints is a part of it, in its order and without a
foreign line (`tells_connections`); it is all of it exactly when every connection of a pod
returns at a good time (`tells_all_iff`).
-/
import ZtMapper.Collector.CidrMap
import ZtMapper.Collector.SockStore

open Engine (Endian NetworkEventT handleEvent ntohl)
open Runs Unordered

namespace Collector

/-! ## The program -/

/-- The record of the ring buffer, as the user-space program reads it. -/
def received (evt : NetworkEvent) : NetworkEventT where
  srcIp := evt.srcIp
  dstIp := evt.dstIp
  dstPort := evt.dstPort
  pid := evt.pid
  timestampNs := evt.timestampNs

/-- The line that a record becomes. -/
def printed (e : Endian) (evt : NetworkEvent) : List UInt8 := handleEvent e (received evt)

/-- `cidrMap` and the entries that `populate_cidr_map` has not come to, the records that
have not been read, and what has been printed. -/
structure Monitor where
  probes : State := {}
  cidrMap : CidrMap := ∅
  pending : List CidrEntry
  ring : List NetworkEvent := []
  stdout : List (List UInt8) := []
  stderr : List String := []

/-- The probes are attached, and the table is empty. -/
def Monitor.start (e : Endian) : Monitor := { pending := entries e }

/-- A thread enters or leaves `tcp_v4_connect` (with the sockets, whether the ring buffer
has room, and the clock); the next entry is inserted or fails; a record is read. -/
inductive MonitorEvent where
  | entry (pidTgid sk : UInt64)
  | ret (pidTgid : UInt64) (code : Int32) (sock : UInt64 → SockCommon) (reserves : Bool)
      (ktime : UInt64)
  | populate (inserted : Bool)
  | poll

namespace Monitor

/-- What the return probe meets. -/
def kernel (e : Endian) (s : Monitor) (sock : UInt64 → SockCommon) (reserves : Bool)
    (ktime : UInt64) : Kernel where
  sock := sock
  label := s.cidrMap.label e
  reserves := reserves
  ktime := ktime

def warning (entry : CidrEntry) : String := "Warning: failed to insert CIDR " ++ entry.desc ++ "\n"

def step (e : Endian) (s : Monitor) : MonitorEvent → Option Monitor
  | .entry t sk => (s.probes.step (.entry t sk)).map fun p => { s with probes := p }
  | .ret t code sock reserves ktime =>
    let k := s.kernel e sock reserves ktime
    (s.probes.step (.ret t code k)).map fun p =>
      { s with
        probes := p
        ring := s.ring ++ (connectReturn k s.probes.store t code).2.toList }
  | .populate inserted =>
    match s.pending with
    | [] => none
    | entry :: pending =>
      if inserted then some { s with pending := pending, cidrMap := s.cidrMap.update e entry }
      else some { s with pending := pending, stderr := s.stderr ++ [warning entry] }
  | .poll =>
    -- the buffer is opened when the table has been filled
    match s.pending, s.ring with
    | [], evt :: ring => some { s with ring := ring, stdout := s.stdout ++ [printed e evt] }
    | _, _ => none

end Monitor

/-! ## The connections of a run -/

/-- The connection of a thread, with the socket of its entry at the time of its return. -/
def connection (sock : UInt64 → SockCommon) (ktime pidTgid sk : UInt64) : NetworkEvent where
  srcIp := (sock sk).rcvSaddr
  dstIp := (sock sk).daddr
  dstPort := bswap16 (sock sk).dport
  pid := (pidTgid >>> 32).toUInt32
  timestampNs := ktime

/-- An observer who forgets no socket. -/
structure Observer where
  inside : SockMap := ∅
  made : List NetworkEvent := []

/-- The connection that a return completes. -/
def Observer.completed (o : Observer) (t : UInt64) (code : Int32) (sock : UInt64 → SockCommon)
    (ktime : UInt64) : List NetworkEvent :=
  if Proceeds code then (o.inside.lookup t).toList.map (connection sock ktime t) else []

def Observer.step (o : Observer) : MonitorEvent → Observer
  | .entry t sk => { o with inside := o.inside.insert t sk }
  | .ret t code sock _ ktime =>
    { inside := o.inside.erase t, made := o.made ++ o.completed t code sock ktime }
  | .populate _ => o
  | .poll => o

def observe (ops : List MonitorEvent) : Observer := ops.foldl Observer.step {}

/-- The connections of a run, in the order of their returns. -/
def connections (ops : List MonitorEvent) : List NetworkEvent := (observe ops).made

/-- The connection comes from a pod. -/
def FromPod (e : Endian) (evt : NetworkEvent) : Prop := InPodNetwork (ntohl e evt.srcIp)

instance (e : Endian) (evt : NetworkEvent) : Decidable (FromPod e evt) :=
  inferInstanceAs (Decidable (InPodNetwork _))

/-- The connections of pods. -/
def podConnections (e : Endian) (ops : List MonitorEvent) : List NetworkEvent :=
  (connections ops).filter fun evt => FromPod e evt

/-- The observation goes event by event. -/
theorem observe_concat (ops : List MonitorEvent) (op : MonitorEvent) :
    observe (ops ++ [op]) = (observe ops).step op := by
  unfold observe
  rw [List.foldl_append]
  rfl

/-- The connections grow by that of the event. -/
theorem podConnections_concat (e : Endian) (ops : List MonitorEvent) (op : MonitorEvent) :
    podConnections e (ops ++ [op]) = podConnections e ops ++
      match op with
      | .ret t code sock _ ktime =>
        ((observe ops).completed t code sock ktime).filter fun evt => FromPod e evt
      | _ => [] := by
  unfold podConnections connections
  rw [observe_concat]
  cases op with
  | ret t code sock reserves ktime => exact List.filter_append _ _
  | entry t sk => exact (List.append_nil _).symm
  | populate inserted => exact (List.append_nil _).symm
  | poll => exact (List.append_nil _).symm

/-! ## One step -/

namespace Monitor

variable {e : Endian} {s s' : Monitor} {op : MonitorEvent} {ops : List MonitorEvent}

/-- The lines that the collector has printed or is going to print. -/
def told (e : Endian) (s : Monitor) : List (List UInt8) := s.stdout ++ s.ring.map (printed e)

/-- The connection of a pod that returns finds the table ready, room in the ring buffer,
and its key. -/
def Catches (e : Endian) (s : Monitor) : MonitorEvent → Prop
  | .ret t code sock reserves _ =>
    ∀ sk, s.probes.inside.lookup t = some sk → Proceeds code →
      InPodNetwork (ntohl e (sock sk).rcvSaddr) →
        s.cidrMap.Ready e ∧ reserves = true ∧ t ∈ s.probes.store
  | _ => True

/-- A thread inside has its own socket stored, or none. -/
def OwnKeys (p : State) : Prop :=
  ∀ t sk sk', p.inside.lookup t = some sk → p.store.lookup t = some sk' → sk' = sk

/-- The table holds some entries of the array, and all that have been reached when there
is no warning. -/
structure TableOk (e : Endian) (s : Monitor) : Prop where
  holds : ∃ done, s.cidrMap.Holds e done ∧ done ⊆ entries e ∧
    (s.stderr = [] → done ++ s.pending = entries e)
  pending : s.pending ⊆ entries e

/-- What is looked up after an update is the new entry or an old one. -/
theorem lookup_update {m : SockMap} {t t' sk sk' : UInt64} (h : (update m t sk).lookup t' = some sk') :
    (t' = t ∧ sk' = sk) ∨ (t' ≠ t ∧ m.lookup t' = some sk') := by
  unfold update at h
  split_ifs at h with hroom
  · rw [lookup_insert_eq] at h
    split_ifs at h with heq
    · exact Or.inl ⟨heq, (Option.some.inj h).symm⟩
    · exact Or.inr ⟨heq, h⟩
  · -- there is no room, and so no key of the thread
    refine Or.inr ⟨?_, h⟩
    rintro rfl
    refine hroom (Or.inl ?_)
    rw [← Finmap.lookup_isSome, h]
    rfl

/-- Every thread looks up its own entry only. -/
theorem ownKeys_step {p p' : State} {event : Event} (h : OwnKeys p) (hstep : p.step event = some p') :
    OwnKeys p' := by
  rcases State.step_cases hstep with ⟨t, sk, rfl, -, rfl⟩ | ⟨t, code, k, rfl, -, rfl⟩
  · intro t' sk₁ sk₂ hinside hstore
    dsimp only at hinside hstore
    rw [lookup_insert_eq] at hinside
    rcases lookup_update hstore with ⟨rfl, rfl⟩ | ⟨hne, hold⟩
    · rw [if_pos rfl] at hinside
      exact Option.some.inj hinside
    · rw [if_neg hne] at hinside
      exact h t' sk₁ sk₂ hinside hold
  · intro t' sk₁ sk₂ hinside hstore
    dsimp only at hinside hstore
    rw [lookup_erase_eq] at hinside
    split_ifs at hinside with heq
    split_ifs at hstore with hcode
    · rw [lookup_erase_eq, if_neg heq] at hstore
      exact h t' sk₁ sk₂ hinside hstore
    · exact h t' sk₁ sk₂ hinside hstore

/-- What a step has done to the probes, the table and the lines. -/
theorem step_cases (h : s.step e op = some s') :
    (∃ t sk, op = .entry t sk ∧ s.probes.step (.entry t sk) = some s'.probes ∧
        s'.cidrMap = s.cidrMap ∧ s'.pending = s.pending ∧ s'.stderr = s.stderr ∧
        s'.told e = s.told e) ∨
      (∃ t code sock reserves ktime, op = .ret t code sock reserves ktime ∧
        s.probes.step (.ret t code (s.kernel e sock reserves ktime)) = some s'.probes ∧
        s'.cidrMap = s.cidrMap ∧ s'.pending = s.pending ∧ s'.stderr = s.stderr ∧
        s'.told e = s.told e ++ ((connectReturn (s.kernel e sock reserves ktime) s.probes.store t
          code).2.toList.map (printed e))) ∨
      (∃ inserted entry, op = .populate inserted ∧ s.pending = entry :: s'.pending ∧
        s'.probes = s.probes ∧ s'.told e = s.told e ∧
        s'.cidrMap = (if inserted then s.cidrMap.update e entry else s.cidrMap) ∧
        s'.stderr = if inserted then s.stderr else s.stderr ++ [warning entry]) ∨
      (op = .poll ∧ s'.probes = s.probes ∧ s'.cidrMap = s.cidrMap ∧ s'.pending = s.pending ∧
        s'.stderr = s.stderr ∧ s'.told e = s.told e) := by
  cases op with
  | entry t sk =>
    obtain ⟨p, hp, rfl⟩ := Option.map_eq_some_iff.mp h
    exact Or.inl ⟨t, sk, rfl, hp, rfl, rfl, rfl, rfl⟩
  | ret t code sock reserves ktime =>
    obtain ⟨p, hp, rfl⟩ := Option.map_eq_some_iff.mp h
    refine Or.inr (Or.inl ⟨t, code, sock, reserves, ktime, rfl, hp, rfl, rfl, rfl, ?_⟩)
    unfold told
    rw [List.map_append, List.append_assoc]
  | populate inserted =>
    refine Or.inr (Or.inr (Or.inl ?_))
    unfold step at h
    dsimp only at h
    cases hpending : s.pending with
    | nil => rw [hpending] at h; cases h
    | cons entry pending =>
      rw [hpending] at h
      dsimp only at h
      split_ifs at h with hok
      · obtain rfl := Option.some.inj h
        exact ⟨inserted, entry, rfl, rfl, rfl, rfl, (if_pos hok).symm, (if_pos hok).symm⟩
      · obtain rfl := Option.some.inj h
        exact ⟨inserted, entry, rfl, rfl, rfl, rfl, (if_neg hok).symm, (if_neg hok).symm⟩
  | poll =>
    refine Or.inr (Or.inr (Or.inr ?_))
    unfold step at h
    dsimp only at h
    cases hpending : s.pending with
    | cons entry pending => rw [hpending] at h; cases h
    | nil =>
      cases hring : s.ring with
      | nil => rw [hpending, hring] at h; cases h
      | cons evt ring =>
        rw [hpending, hring] at h
        obtain rfl := Option.some.inj h
        refine ⟨rfl, rfl, rfl, rfl, rfl, ?_⟩
        unfold told
        rw [hring]
        simp

/-- The table of labels stays as loaded. -/
theorem tableOk_step (h : s.TableOk e) (hstep : s.step e op = some s') : s'.TableOk e := by
  obtain ⟨done, hholds, hdone, hwhole⟩ := h.holds
  -- the other steps leave the table as it is
  have hsame : s'.cidrMap = s.cidrMap → s'.pending = s.pending → s'.stderr = s.stderr →
      s'.TableOk e := by
    intro hmap hpending hstderr
    exact ⟨⟨done, hmap ▸ hholds, hdone, by rw [hstderr, hpending]; exact hwhole⟩,
      hpending ▸ h.pending⟩
  rcases step_cases hstep with ⟨t, sk, -, -, hmap, hpending, hstderr, -⟩ |
    ⟨t, code, sock, reserves, ktime, -, -, hmap, hpending, hstderr, -⟩ |
    ⟨inserted, entry, -, hpending, -, -, hmap, hstderr⟩ | ⟨-, -, hmap, hpending, hstderr, -⟩
  · exact hsame hmap hpending hstderr
  · exact hsame hmap hpending hstderr
  · have hsub := h.pending
    rw [hpending, List.cons_subset] at hsub
    refine ⟨?_, hsub.2⟩
    rw [hmap, hstderr]
    split_ifs
    · refine ⟨done ++ [entry], hholds.update hdone hsub.1, ?_, fun hnone => ?_⟩
      · exact List.append_subset.mpr ⟨hdone, List.cons_subset.mpr ⟨hsub.1, List.nil_subset _⟩⟩
      · rw [List.append_assoc, ← hwhole hnone, hpending]
        rfl
    · exact ⟨done, hholds, hdone, fun hnone => absurd hnone (by simp)⟩
  · exact hsame hmap hpending hstderr

/-- What the probe submits for a socket. -/
theorem submit_kernel (e : Endian) (s : Monitor) (sock : UInt64 → SockCommon) (reserves : Bool)
    (ktime t sk : UInt64) : submit (s.kernel e sock reserves ktime) t sk =
      if s.cidrMap.label e (sock sk).rcvSaddr ≠ some 1 then none
      else if reserves = false then none else some (connection sock ktime t sk) :=
  rfl

/-- **A return** tells the connection of a pod when it catches it, and nothing else. -/
theorem toList_connectReturn (htable : s.TableOk e) (hown : OwnKeys s.probes) {t sk : UInt64}
    (hinside : s.probes.inside.lookup t = some sk) {o : Observer} (ho : o.inside = s.probes.inside)
    (code : Int32) (sock : UInt64 → SockCommon) (reserves : Bool) (ktime : UInt64) :
    let pods := (o.completed t code sock ktime).filter fun evt => FromPod e evt
    let out := (connectReturn (s.kernel e sock reserves ktime) s.probes.store t code).2.toList
    (out = pods ∧ s.Catches e (.ret t code sock reserves ktime)) ∨
      (out = [] ∧ pods.length = 1 ∧ ¬ s.Catches e (.ret t code sock reserves ktime)) := by
  intro pods out
  obtain ⟨done, hholds, hdone, -⟩ := htable.holds
  have hcatches : s.Catches e (.ret t code sock reserves ktime) ↔ (Proceeds code →
      FromPod e (connection sock ktime t sk) →
        s.cidrMap.Ready e ∧ reserves = true ∧ t ∈ s.probes.store) := by
    constructor
    · exact fun h => h sk hinside
    · intro h sk' hsk'
      obtain rfl := Option.some.inj (hinside.symm.trans hsk')
      exact h
  by_cases hcode : Proceeds code
  swap
  · refine Or.inl ⟨?_, hcatches.mpr fun h => absurd h hcode⟩
    simp only [out, pods, connectReturn, Observer.completed, if_neg hcode, if_pos hcode]
    rfl
  have hpods : pods = if FromPod e (connection sock ktime t sk) then [connection sock ktime t sk]
      else [] := by
    simp only [pods, Observer.completed, if_pos hcode, ho, hinside, Option.toList_some,
      List.map_cons, List.map_nil, List.filter_cons, List.filter_nil, decide_eq_true_iff]
  -- what the probe does when it finds the socket
  have hsubmit : t ∈ s.probes.store → out = if s.cidrMap.Ready e ∧
      FromPod e (connection sock ktime t sk) ∧ reserves = true then [connection sock ktime t sk]
      else [] := by
    intro hmem
    obtain ⟨sk', hsk'⟩ := Finmap.mem_iff.mp hmem
    obtain rfl := hown t sk sk' hinside hsk'
    have hlabel : s.cidrMap.label e (sock sk').rcvSaddr = some 1 ↔
        s.cidrMap.Ready e ∧ FromPod e (connection sock ktime t sk') := hholds.label_eq_one_iff hdone
    simp only [out, connectReturn, if_neg (not_not_intro hcode), hsk', submit_kernel]
    by_cases hone : s.cidrMap.label e (sock sk').rcvSaddr = some 1
    · obtain ⟨hready, hpod⟩ := hlabel.mp hone
      rw [if_neg (not_not_intro hone)]
      cases reserves with
      | false => simp
      | true => simp [hready, hpod]
    · rw [if_pos hone]
      refine (if_neg fun h => hone (hlabel.mpr ⟨h.1, h.2.1⟩)).symm
  have hnone : t ∉ s.probes.store → out = [] := by
    intro hmem
    simp only [out, connectReturn, Finmap.lookup_eq_none.mpr hmem, if_neg (not_not_intro hcode)]
    rfl
  rw [hpods, hcatches]
  by_cases hpod : FromPod e (connection sock ktime t sk)
  · rw [if_pos hpod]
    by_cases hgood : s.cidrMap.Ready e ∧ reserves = true ∧ t ∈ s.probes.store
    · refine Or.inl ⟨?_, fun _ _ => hgood⟩
      rw [hsubmit hgood.2.2, if_pos ⟨hgood.1, hpod, hgood.2.1⟩]
    · refine Or.inr ⟨?_, rfl, fun h => hgood (h hcode hpod)⟩
      by_cases hmem : t ∈ s.probes.store
      · rw [hsubmit hmem, if_neg fun h => hgood ⟨h.1, h.2.2, hmem⟩]
      · exact hnone hmem
  · rw [if_neg hpod]
    refine Or.inl ⟨?_, fun _ h => absurd h hpod⟩
    by_cases hmem : t ∈ s.probes.store
    · rw [hsubmit hmem, if_neg fun h => hpod h.2.1]
    · exact hnone hmem

/-! ## Runs -/

/-- The observer has seen the same threads enter. -/
theorem inside_observe (h : reach (step e) (start e) ops = some s) :
    (observe ops).inside = s.probes.inside := by
  induction ops using List.reverseRecOn generalizing s with
  | nil =>
    obtain rfl := Option.some.inj h
    rfl
  | append_singleton ops op ih =>
    obtain ⟨s₁, hs₁, hop⟩ := reach_concat_eq_some.mp h
    have hbefore := ih hs₁
    rw [observe_concat]
    rcases step_cases hop with ⟨t, sk, rfl, hprobe, -⟩ | ⟨t, code, sock, reserves, ktime, rfl, hprobe, -⟩ |
      ⟨inserted, entry, rfl, -, hprobes, -⟩ | ⟨rfl, hprobes, -⟩
    · rcases State.step_cases hprobe with ⟨t', sk', heq, -, hs⟩ | ⟨t', code, k, heq, -⟩
      · cases heq
        rw [hs]
        show (observe ops).inside.insert t sk = _
        rw [hbefore]
      · cases heq
    · rcases State.step_cases hprobe with ⟨t', sk', heq, -⟩ | ⟨t', code', k', heq, -, hs⟩
      · cases heq
      · cases heq
        rw [hs]
        show (observe ops).inside.erase t = _
        rw [hbefore]
    · rw [hprobes]
      exact hbefore
    · rw [hprobes]
      exact hbefore

/-- Threads keep to their own entries in every run. -/
theorem ownKeys_of_reach (h : reach (step e) (start e) ops = some s) : OwnKeys s.probes := by
  refine reach_invariant (I := fun s : Monitor => OwnKeys s.probes) ?_ ?_ h
  · intro t sk sk' hinside
    cases hinside
  · intro s op s' hown hstep
    rcases step_cases hstep with ⟨t, sk, -, hprobe, -⟩ | ⟨t, code, sock, reserves, ktime, -, hprobe, -⟩ |
      ⟨inserted, entry, -, -, hprobes, -⟩ | ⟨-, hprobes, -⟩
    · exact ownKeys_step hown hprobe
    · exact ownKeys_step hown hprobe
    · exact hprobes ▸ hown
    · exact hprobes ▸ hown

/-- The table is as loaded in every run. -/
theorem tableOk_of_reach (h : reach (step e) (start e) ops = some s) : s.TableOk e :=
  reach_invariant ⟨⟨[], CidrMap.holds_empty, List.nil_subset _, fun _ => rfl⟩, List.Subset.refl _⟩
    (fun _ _ _ htable hstep => tableOk_step htable hstep) h

/-- The table is whole when `populate_cidr_map` has ended without a warning. -/
theorem holds_of_reach (h : reach (step e) (start e) ops = some s) (hpending : s.pending = [])
    (hstderr : s.stderr = []) : s.cidrMap.Holds e (entries e) := by
  obtain ⟨done, hholds, -, hwhole⟩ := (tableOk_of_reach h).holds
  have hall := hwhole hstderr
  rw [hpending, List.append_nil] at hall
  exact hall ▸ hholds

/-- An operation catches what there is to catch, after a run. -/
def Caught (e : Endian) (pre : List MonitorEvent) (op : MonitorEvent) : Prop :=
  ∀ s, reach (step e) (start e) pre = some s → s.Catches e op

/-- What a step adds to the lines, and to the connections of pods. -/
theorem told_concat {s₁ : Monitor} (h : reach (step e) (start e) ops = some s₁)
    (hop : s₁.step e op = some s) : ∃ out pods,
      s.told e = s₁.told e ++ out.map (printed e) ∧
      podConnections e (ops ++ [op]) = podConnections e ops ++ pods ∧
      ((out = pods ∧ s₁.Catches e op) ∨ (out = [] ∧ pods.length = 1 ∧ ¬ s₁.Catches e op)) := by
  rw [podConnections_concat]
  rcases step_cases hop with ⟨t, sk, rfl, -, -, -, -, htold⟩ |
    ⟨t, code, sock, reserves, ktime, rfl, hprobe, -, -, -, htold⟩ |
    ⟨inserted, entry, rfl, -, -, htold, -⟩ | ⟨rfl, -, -, -, -, htold⟩
  · exact ⟨[], [], by rw [htold]; exact (List.append_nil _).symm, rfl, Or.inl ⟨rfl, trivial⟩⟩
  · have hmem : t ∈ s₁.probes.inside := by
      rcases State.step_cases hprobe with ⟨t', sk', heq, -⟩ | ⟨t', code', k', heq, hmem, -⟩
      · cases heq
      · cases heq
        exact hmem
    obtain ⟨sk, hsk⟩ := Finmap.mem_iff.mp hmem
    exact ⟨_, _, htold, rfl, toList_connectReturn (tableOk_of_reach h) (ownKeys_of_reach h) hsk
      (inside_observe h) code sock reserves ktime⟩
  · exact ⟨[], [], by rw [htold]; exact (List.append_nil _).symm, rfl, Or.inl ⟨rfl, trivial⟩⟩
  · exact ⟨[], [], by rw [htold]; exact (List.append_nil _).symm, rfl, Or.inl ⟨rfl, trivial⟩⟩

/-- The lines of a run are those of some connections of pods, and of all of them when
nothing goes by. -/
theorem exists_told (h : reach (step e) (start e) ops = some s) :
    ∃ seen : List NetworkEvent, seen.Sublist (podConnections e ops) ∧
      s.told e = seen.map (printed e) ∧ (seen.length = (podConnections e ops).length ↔ Along (Caught e) ops) := by
  induction ops using List.reverseRecOn generalizing s with
  | nil =>
    obtain rfl := Option.some.inj h
    exact ⟨[], List.Sublist.refl _, rfl, iff_of_true rfl along_nil⟩
  | append_singleton ops op ih =>
    obtain ⟨s₁, hs₁, hop⟩ := reach_concat_eq_some.mp h
    obtain ⟨seen, hsub, htold, hiff⟩ := ih hs₁
    obtain ⟨out, pods, hlines, hpods, hout⟩ := told_concat hs₁ hop
    have hcaught : Caught e ops op ↔ s₁.Catches e op := by
      constructor
      · exact fun hc => hc s₁ hs₁
      · intro hc t ht
        obtain rfl := Option.some.inj (hs₁.symm.trans ht)
        exact hc
    have hle := hsub.length_le
    refine ⟨seen ++ out, ?_, by rw [hlines, htold, List.map_append], ?_⟩
    · rw [hpods]
      refine hsub.append ?_
      rcases hout with ⟨rfl, -⟩ | ⟨rfl, -, -⟩
      · exact List.Sublist.refl _
      · exact List.nil_sublist _
    · rw [hpods, along_concat, hcaught, ← hiff, List.length_append, List.length_append]
      rcases hout with ⟨rfl, hc⟩ | ⟨rfl, hlen, hc⟩
      · rw [and_iff_left hc]
        omega
      · refine iff_of_false ?_ fun h => hc h.2
        rw [hlen, List.length_nil]
        omega

/-- **Every line is true**: in every run, what the collector prints is a part of the
connections that pods have made, each with its own socket, in the order of their returns. -/
theorem tells_connections (h : reach (step e) (start e) ops = some s) :
    (s.stdout ++ s.ring.map (printed e)).Sublist ((podConnections e ops).map (printed e)) := by
  obtain ⟨seen, hsub, htold, -⟩ := exists_told h
  have hlines : s.stdout ++ s.ring.map (printed e) = seen.map (printed e) := htold
  rw [hlines]
  exact hsub.map _

/-- Two threads connect while the table is filled: a pod's, and one of the node. -/
def filling : List MonitorEvent :=
  let sock : UInt64 → SockCommon := fun sk =>
    ⟨0x0A02F40A, 0x5000, if sk = 100 then 0x0501F40A else 0x0100A8C0⟩
  [.entry 1 100, .populate true, .entry 2 200, .populate false, .ret 1 0 sock true 10, .populate true,
    .ret 2 (-115) sock true 20, .populate true, .populate true, .poll]

/-- A run that fills the ring buffer. -/
theorem tells_connections_filling :
    ∃ s, reach (step .little) (start .little) filling = some s ∧
      (s.stdout ++ s.ring.map (printed .little)).Sublist
        ((podConnections .little filling).map (printed .little)) := by
  have hrun : (reach (step .little) (start .little) filling).isSome = true := by decide
  obtain ⟨s, hs⟩ := Option.isSome_iff_exists.mp hrun
  exact ⟨s, hs, tells_connections hs⟩

/-- **Nothing goes by** exactly when every connection of a pod returns when the table knows
the pod network, the ring buffer has room, and the thread's key is stored. -/
theorem tells_all_iff (h : reach (step e) (start e) ops = some s) :
    s.stdout ++ s.ring.map (printed e) = (podConnections e ops).map (printed e) ↔
      Along (Caught e) ops := by
  obtain ⟨seen, hsub, htold, hiff⟩ := exists_told h
  have hlines : s.stdout ++ s.ring.map (printed e) = seen.map (printed e) := htold
  rw [← hiff, hlines]
  constructor
  · intro heq
    have hlen := congrArg List.length heq
    rwa [List.length_map, List.length_map] at hlen
  · exact fun hlen => by rw [hsub.eq_of_length hlen]

/-- The line of the pod, and no other one. -/
theorem tells_all_iff_filling :
    ∃ s, reach (step .little) (start .little) filling = some s ∧
      (s.stdout ++ s.ring.map (printed .little) =
          (podConnections .little filling).map (printed .little) ↔ Along (Caught .little) filling) ∧
      podConnections .little filling = [⟨0x0501F40A, 0x0A02F40A, 80, 0, 10⟩] := by
  have hrun : (reach (step .little) (start .little) filling).isSome = true := by decide
  obtain ⟨s, hs⟩ := Option.isSome_iff_exists.mp hrun
  exact ⟨s, hs, tells_all_iff hs, by decide⟩

end Monitor

end Collector
