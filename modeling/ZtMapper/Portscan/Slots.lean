/-
# How many sources `mg` counts exactly

The `mg` detector has one counter less than `--mg-k`.  While no window has more sources
than counters, it raises the alerts of `hashmap`, event for event; one source more, and
it can miss a scan (`mg_exact_iff`).
-/
import ZtMapper.Portscan.Agreement

open Frequency Tumbling WindowLog

namespace Portscan

variable {cfg : DetectorConfig} {events : List NetworkEvent}

/-- The sources of the events in a window. -/
def sourcesIn (cfg : DetectorConfig) (events : List NetworkEvent) (w : ℕ) : Finset UInt32 :=
  (stream NetworkEvent.srcIp (windowsOf cfg events).log w).toFinset

/-- The two detectors raise the same alerts, each under its own name. -/
def SameAlerts (cfg : DetectorConfig) (events : List NetworkEvent) : Prop :=
  ∃ mg hashmap mgOuts hashmapOuts,
    runAlgo cfg "mg" events = some (mg, mgOuts) ∧
    runAlgo cfg "hashmap" events = some (hashmap, hashmapOuts) ∧
    mg.alerts = hashmap.alerts.map fun a => { a with algo := "mg" }

/-! ## Estimates for few sources and for many -/

theorem card_toFinset_map_u32Bytes (s : List UInt32) :
    (s.map u32Bytes).toFinset.card = s.toFinset.card := by
  rw [← Finset.card_image_of_injective s.toFinset u32Bytes_injective]
  congr 1
  ext key
  simp

/-- With room for every source the estimate is exact. -/
theorem estimateAfter_of_few {k : UInt32} {h : HeavyHitters} (hnew : HeavyHitters.create k = .ok h)
    {s : List UInt32} (hs : s.length < 2 ^ 64) (hfew : s.toFinset.card < k.toNat) (x : UInt32) :
    (Estimator.heavyHitters h).estimateAfter s x = s.count x := by
  rw [← card_toFinset_map_u32Bytes] at hfew
  rw [Estimator.estimateAfter_heavyHitters_eq hnew hs, MisraGries.summary_eq_coe hfew,
    count_coe, count_map_u32Bytes]

/-- With one source too many every estimate lacks what the decrement took. -/
theorem estimateAfter_of_many {k : UInt32} {h : HeavyHitters} (hnew : HeavyHitters.create k = .ok h)
    {s : List UInt32} (hs : s.length < 2 ^ 64) (hmany : k.toNat ≤ s.toFinset.card) (x : UInt32) :
    (Estimator.heavyHitters h).estimateAfter s x + k.toNat ≤ s.length := by
  rw [← card_toFinset_map_u32Bytes] at hmany
  have hcard := MisraGries.card_summary_add_le (HeavyHitters.create_k_pos hnew) hmany
  have hcount := Multiset.count_le_card (u32Bytes x) (MisraGries.summary k.toNat (s.map u32Bytes))
  rw [List.length_map] at hcard
  rw [Estimator.estimateAfter_heavyHitters_eq hnew hs]
  omega

/-- Every other source of a stream takes an event of its own. -/
theorem card_toFinset_add_count_le (s : List UInt32) (x : UInt32) :
    s.toFinset.card + s.count x ≤ s.length + 1 := by
  induction s with
  | nil => exact Nat.zero_le _
  | cons y s ih =>
    rw [List.toFinset_cons, List.count_cons, List.length_cons]
    have hinsert := Finset.card_insert_le y s.toFinset
    by_cases hyx : y = x
    · subst hyx
      rw [if_pos (by simp)]
      by_cases hy : y ∈ s
      · rw [Finset.insert_eq_of_mem (List.mem_toFinset.mpr hy)]
        omega
      · have hlen := List.toFinset_card_le s
        rw [List.count_eq_zero_of_not_mem hy]
        omega
    · rw [if_neg (by simpa using hyx)]
      omega

/-! ## Few sources -/

/-- Where one of the two estimates is over the threshold, they agree: there is a counter for
every source, as a scan and `k` sources do not fit into the stream. -/
theorem estimates_agree {k : UInt32} {h : HeavyHitters} (hnew : HeavyHitters.create k = .ok h)
    {s : List UInt32} (hs : s.length < 2 ^ 64) {t : ℕ}
    (hfew : s.toFinset.card < k.toNat ∨ 2 ^ 64 ≤ t + k.toNat) {x : UInt32}
    (hover : t < (Estimator.heavyHitters h).estimateAfter s x ∨
      t < (Estimator.hashMapExact .create).estimateAfter s x) :
    (Estimator.heavyHitters h).estimateAfter s x
      = (Estimator.hashMapExact .create).estimateAfter s x := by
  have hle := (Estimator.estimateAfter_heavyHitters hnew hs x).1
  rw [Estimator.estimateAfter_hashMapExact_of_lt hs] at hover ⊢
  have hcount : t < s.count x := hover.elim (fun hmg => lt_of_lt_of_le hmg hle) id
  have htotal := card_toFinset_add_count_le s x
  refine estimateAfter_of_few hnew hs ?_ x
  rcases hfew with hfew | hlarge
  · exact hfew
  · omega

/-- **Enough counters**: the two detectors raise the same alerts. -/
theorem sameAlerts_of_few (hk : 2 ≤ cfg.mgK) (hlen : events.length < 2 ^ 64)
    (hfew : ∀ w, (sourcesIn cfg events w).card < cfg.mgK.toNat ∨
      2 ^ 64 ≤ cfg.threshold.toNat + cfg.mgK.toNat) : SameAlerts cfg events := by
  obtain ⟨h, hnew, hmake⟩ := makeEstimator_mg cfg hk
  obtain ⟨mg, mgOuts, hmg, hmgFollows, -⟩ := follows_runAlgo hmake (.heavyHitters hnew) events
  obtain ⟨hashmap, hashmapOuts, hhash, hhashFollows, -⟩ :=
    follows_runAlgo (makeEstimator_hashmap cfg) .hashMapExact events
  refine ⟨mg, hashmap, mgOuts, hashmapOuts, hmg, hhash, ?_⟩
  have hlog : (windowsOf cfg events).log.length = events.length := length_log events
  have hagree : ∀ i p, entry NetworkEvent.srcIp (windowsOf cfg events).log i = some p →
      cfg.threshold.toNat < (Estimator.heavyHitters h).estimateAfter
          (stream NetworkEvent.srcIp ((windowsOf cfg events).log.take (i + 1)) p.1) p.2 ∨
        cfg.threshold.toNat < (Estimator.hashMapExact .create).estimateAfter
          (stream NetworkEvent.srcIp ((windowsOf cfg events).log.take (i + 1)) p.1) p.2 →
      (Estimator.heavyHitters h).estimateAfter
          (stream NetworkEvent.srcIp ((windowsOf cfg events).log.take (i + 1)) p.1) p.2
        = (Estimator.hashMapExact .create).estimateAfter
          (stream NetworkEvent.srcIp ((windowsOf cfg events).log.take (i + 1)) p.1) p.2 := by
    intro i p _
    -- a part of the window has no more sources than the window
    have hsub := stream_take_sublist NetworkEvent.srcIp (windowsOf cfg events).log (i + 1) p.1
    have hcard := Finset.card_le_card fun y hy =>
      List.mem_toFinset.mpr (hsub.subset (List.mem_toFinset.mp hy))
    have hle := hsub.length_le.trans (length_stream_le NetworkEvent.srcIp _ p.1)
    exact estimates_agree hnew (lt_of_le_of_lt hle (hlog.trans_lt hlen))
      ((hfew p.1).imp_left (lt_of_le_of_lt hcard))
  have hover := over_congr hagree
  have hraised : raisedOf { cfg with algo := "mg" } (.heavyHitters h) (windowsOf cfg events).log
      = raisedOf { cfg with algo := "hashmap" } (.hashMapExact .create)
        (windowsOf cfg events).log := by
    refine List.filter_congr fun i _ => ?_
    rw [decide_eq_decide]
    exact raised_iff_of_over hover i
  rw [hmgFollows.alerts_eq, hhashFollows.alerts_eq, hraised, List.map_filterMap]
  refine List.filterMap_congr fun i hi => ?_
  obtain ⟨p, hp, hpover⟩ := (mem_raised.mp hi).1
  have hfreq := hagree i p hp (Or.inr hpover)
  obtain ⟨q, hq, rfl⟩ := Option.map_eq_some_iff.mp hp
  rw [alertAt, alertAt, hq, Option.map_some, Option.map_some, Option.map_some]
  dsimp only at hfreq ⊢
  rw [hfreq]

/-! ## Many sources -/

/-- `t` events of the source `0`, one event of each of `k - 1` others, and one more of `0`. -/
def scanAmong (t k : ℕ) : List UInt32 :=
  List.replicate t 0 ++ (List.range (k - 1)).map fun j => UInt32.ofNat (j + 1)

theorem ofNat_injOn {m n : ℕ} (hm : m < 2 ^ 32) (hn : n < 2 ^ 32)
    (h : UInt32.ofNat m = UInt32.ofNat n) : m = n := by
  rw [← UInt32.toNat_inj, UInt32.toNat_ofNat_of_lt' hm, UInt32.toNat_ofNat_of_lt' hn] at h
  exact h

theorem length_scanAmong {t k : ℕ} (hk : 0 < k) :
    (scanAmong t k ++ [0]).length = t + k := by
  rw [scanAmong, List.length_append, List.length_append, List.length_replicate, List.length_map,
    List.length_range, List.length_singleton]
  omega

theorem count_scanAmong {t k : ℕ} (hk : k < 2 ^ 32) : (scanAmong t k).count 0 = t := by
  have hnone : (0 : UInt32) ∉ (List.range (k - 1)).map fun j => UInt32.ofNat (j + 1) := by
    intro hmem
    obtain ⟨j, hj, hzero⟩ := List.mem_map.mp hmem
    have hlt := List.mem_range.mp hj
    exact absurd (ofNat_injOn (n := 0) (by omega) (by omega) hzero) (Nat.succ_ne_zero j)
  rw [scanAmong, List.count_append, List.count_replicate_self, List.count_eq_zero_of_not_mem hnone]
  rfl

theorem card_scanAmong {t k : ℕ} (hk : 0 < k) (hlt : k < 2 ^ 32) :
    (scanAmong t k ++ [0]).toFinset.card = k := by
  have himage : (scanAmong t k ++ [0]).toFinset = (Finset.range k).image UInt32.ofNat := by
    ext y
    rw [scanAmong]
    simp only [List.mem_toFinset, List.mem_append, List.mem_replicate, List.mem_map,
      List.mem_range, List.mem_singleton, Finset.mem_image, Finset.mem_range]
    constructor
    · rintro ((⟨-, rfl⟩ | ⟨j, hj, rfl⟩) | rfl)
      · exact ⟨0, hk, rfl⟩
      · exact ⟨j + 1, by omega, rfl⟩
      · exact ⟨0, hk, rfl⟩
    · rintro ⟨j, hj, rfl⟩
      cases j with
      | zero => exact Or.inr rfl
      | succ j => exact Or.inl (Or.inr ⟨j, by omega, rfl⟩)
  rw [himage, Finset.card_image_of_injOn, Finset.card_range]
  intro m hm n hn h
  have hm := Finset.mem_range.mp hm
  have hn := Finset.mem_range.mp hn
  exact ofNat_injOn (by omega) (by omega) h

/-- An event of each source, all at one time. -/
def connectionsOf (s : List UInt32) : List NetworkEvent := s.map fun x => ⟨x, 9, 80, 1⟩

theorem log_connectionsOf (cfg : DetectorConfig) (s : List UInt32) :
    (windowsOf cfg (connectionsOf s)).log = (connectionsOf s).map (Prod.mk 0) := by
  refine log_of_time_eq (t := 1) fun e he => ?_
  obtain ⟨x, -, rfl⟩ := List.mem_map.mp he
  rfl

/-- The stream of the window up to an event. -/
theorem stream_take_connectionsOf (cfg : DetectorConfig) (s : List UInt32) (n : ℕ) :
    stream NetworkEvent.srcIp ((windowsOf cfg (connectionsOf s)).log.take n) 0 = s.take n := by
  rw [log_connectionsOf, ← List.map_take, stream_map_mk, connectionsOf, List.map_take, List.map_map]
  exact congrArg (List.take n) (List.map_id s)

theorem entry_connectionsOf (cfg : DetectorConfig) (s : List UInt32) (i : ℕ) :
    entry NetworkEvent.srcIp (windowsOf cfg (connectionsOf s)).log i = s[i]?.map (Prod.mk 0) := by
  rw [entry, log_connectionsOf, connectionsOf, List.getElem?_map, List.getElem?_map, Option.map_map,
    Option.map_map]
  rfl

theorem card_sourcesIn_connectionsOf_le (cfg : DetectorConfig) (s : List UInt32) (w : ℕ) :
    (sourcesIn cfg (connectionsOf s) w).card ≤ s.toFinset.card := by
  have hlen : (windowsOf cfg (connectionsOf s)).log.length = s.length :=
    (length_log _).trans (List.length_map _)
  have hstream := stream_take_connectionsOf cfg s s.length
  rw [← hlen, List.take_length, hlen, List.take_length] at hstream
  by_cases hw : w = 0
  · rw [sourcesIn, hw, hstream]
  · have hnil : stream NetworkEvent.srcIp (windowsOf cfg (connectionsOf s)).log w = [] := by
      refine stream_eq_nil fun e he => ?_
      rw [log_connectionsOf] at he
      obtain ⟨evt, -, rfl⟩ := List.mem_map.mp he
      exact Ne.symm hw
    rw [sourcesIn, hnil]
    exact Nat.zero_le _

/-- **One source too many**: `hashmap` alerts the source `0`, and `mg` does not. -/
theorem not_sameAlerts_of_many (hk : 2 ≤ cfg.mgK)
    (hsize : cfg.threshold.toNat + cfg.mgK.toNat < 2 ^ 64) :
    ¬ SameAlerts cfg (connectionsOf (scanAmong cfg.threshold.toNat cfg.mgK.toNat ++ [0])) := by
  have hk2 : 2 ≤ cfg.mgK.toNat := UInt32.le_iff_toNat_le.mp hk
  have hlt := cfg.mgK.toNat_lt
  have hlength := length_scanAmong (t := cfg.threshold.toNat) (show 0 < cfg.mgK.toNat by omega)
  have hcount := count_scanAmong (t := cfg.threshold.toNat) hlt
  have hcard := card_scanAmong (t := cfg.threshold.toNat) (show 0 < cfg.mgK.toNat by omega) hlt
  generalize scanAmong cfg.threshold.toNat cfg.mgK.toNat = l at hlength hcount hcard
  obtain ⟨h, hnew, hmake⟩ := makeEstimator_mg cfg hk
  obtain ⟨mg, mgOuts, hmg, hmgFollows, -⟩ :=
    follows_runAlgo hmake (.heavyHitters hnew) (connectionsOf (l ++ [0]))
  obtain ⟨hashmap, hashmapOuts, hhash, hhashFollows, -⟩ :=
    follows_runAlgo (makeEstimator_hashmap cfg) .hashMapExact (connectionsOf (l ++ [0]))
  rintro ⟨mg', hashmap', mgOuts', hashmapOuts', hmg', hhash', hsame⟩
  obtain ⟨rfl, -⟩ := Prod.mk.inj (Option.some.inj (hmg.symm.trans hmg'))
  obtain ⟨rfl, -⟩ := Prod.mk.inj (Option.some.inj (hhash.symm.trans hhash'))
  have hlen : (l ++ [0]).length < 2 ^ 64 := hlength.trans_lt hsize
  -- the last event is over for `hashmap`
  have hlast : entry NetworkEvent.srcIp (windowsOf cfg (connectionsOf (l ++ [0]))).log l.length
      = some (0, 0) := by
    rw [entry_connectionsOf, List.getElem?_concat_length]
    rfl
  have hover : Over NetworkEvent.srcIp (Estimator.hashMapExact .create).estimateAfter
      cfg.threshold.toNat (windowsOf cfg (connectionsOf (l ++ [0]))).log l.length := by
    refine ⟨_, hlast, ?_⟩
    dsimp only
    rw [stream_take_connectionsOf, List.take_of_length_le (by simp),
      Estimator.estimateAfter_hashMapExact_of_lt hlen, List.count_append, hcount]
    exact Nat.lt_succ_self _
  obtain ⟨j, -, hj, hraised⟩ := exists_raised_le hover
  obtain ⟨b, hb, -, hsrc, -⟩ :=
    alertAt_eq_some { cfg with algo := "hashmap" } (.hashMapExact .create) (hj.trans hlast)
  have hmem : b ∈ hashmap.alerts := (hhashFollows.mem_alerts b).mpr ⟨j, hraised, hb⟩
  -- and no event of the source is over for `mg`
  have hmem' : { b with algo := "mg" } ∈ mg.alerts := hsame ▸ List.mem_map_of_mem hmem
  obtain ⟨i, ⟨⟨p, hp, hlarge⟩, -⟩, halert⟩ := (hmgFollows.mem_alerts _).mp hmem'
  obtain ⟨b', hb', -, hsrc', -⟩ := alertAt_eq_some { cfg with algo := "mg" } (.heavyHitters h) hp
  have hp2 : p.2 = 0 := by
    rw [← hsrc', ← Option.some.inj (halert.symm.trans hb')]
    exact hsrc
  rw [entry_connectionsOf] at hp
  obtain ⟨x, hx, rfl⟩ := Option.map_eq_some_iff.mp hp
  rw [stream_take_connectionsOf, hp2] at hlarge
  change cfg.threshold.toNat < _ at hlarge
  have hi : i ≤ l.length := by
    have hlt := (List.getElem?_eq_some_iff.mp hx).1
    rw [List.length_append, List.length_singleton] at hlt
    omega
  rcases hi.lt_or_eq with hi | rfl
  · rw [List.take_append_of_le_length (by omega)] at hlarge
    have hshort : (l.take (i + 1)).length < 2 ^ 64 :=
      lt_of_le_of_lt ((List.length_take_le' _ _).trans (by simp)) hlen
    have hle := (Estimator.estimateAfter_heavyHitters hnew hshort 0).1
    have hpart := (List.take_sublist (i + 1) l).count_le 0
    omega
  · rw [List.take_of_length_le (by simp)] at hlarge
    have hle := estimateAfter_of_many hnew hlen hcard.ge 0
    omega

/-! ## The capacity -/

/-- **The capacity of `mg`**: it raises the alerts of `hashmap` on all events whose windows
have at most `n` sources, exactly if it has a counter for each of `n` sources, or no window
can have a scan and as many sources as `--mg-k`. -/
theorem mg_exact_iff (cfg : DetectorConfig) (hk : 2 ≤ cfg.mgK) (n : ℕ) :
    (∀ events : List NetworkEvent, events.length < 2 ^ 64 →
      (∀ w, (sourcesIn cfg events w).card ≤ n) → SameAlerts cfg events) ↔
    n < cfg.mgK.toNat ∨ 2 ^ 64 ≤ cfg.threshold.toNat + cfg.mgK.toNat := by
  constructor
  · intro hall
    by_contra hnot
    obtain ⟨hn, hsize⟩ := not_or.mp hnot
    have hn := Nat.not_lt.mp hn
    have hsize := Nat.not_le.mp hsize
    have hpos : 0 < cfg.mgK.toNat := HeavyHitters.create_k_pos (makeEstimator_mg cfg hk).choose_spec.1
    refine not_sameAlerts_of_many hk hsize (hall _ ?_ fun w => ?_)
    · rw [connectionsOf, List.length_map, length_scanAmong hpos]
      exact hsize
    · calc (sourcesIn cfg _ w).card
          ≤ (scanAmong cfg.threshold.toNat cfg.mgK.toNat ++ [0]).toFinset.card :=
            card_sourcesIn_connectionsOf_le cfg _ w
        _ = cfg.mgK.toNat := card_scanAmong hpos cfg.mgK.toNat_lt
        _ ≤ n := hn
  · intro hroom events hlen hfew
    exact sameAlerts_of_few hk hlen fun w =>
      hroom.imp_left fun hn => lt_of_le_of_lt (hfew w) hn

/-- With the options that the tool has by default, 63 sources are counted exactly, and 64
are not. -/
theorem mg_exact_iff_default :
    (∀ events : List NetworkEvent, events.length < 2 ^ 64 →
      (∀ w, (sourcesIn { algo := "" } events w).card ≤ 63) → SameAlerts { algo := "" } events) ∧
    ¬ ∀ events : List NetworkEvent, events.length < 2 ^ 64 →
      (∀ w, (sourcesIn { algo := "" } events w).card ≤ 64) → SameAlerts { algo := "" } events :=
  ⟨(mg_exact_iff { algo := "" } (by decide) 63).mpr (Or.inl (by decide)), fun hall =>
    absurd ((mg_exact_iff { algo := "" } (by decide) 64).mp hall) (by decide)⟩

end Portscan
