/-
# One classification

The networks of the collector's table and those of the engine's deployed configuration are
written down twice, in two byte orders and for two tries.  `classes_agree` compares them on
every address: the engine's label is the collector's, where a loopback address and one
outside all networks are external.
-/
import ZtMapper.Collector.Monitor
import ZtMapper.Engine.Runs

open Collector (CidrEntry CidrMap Monitor MonitorEvent entries eq_of_nested keyBits keyBits_eq
  bits_lpmKey ntohl_htonl)
open LongestMatch LPMTrie Pipeline Runs Unordered

namespace Engine

/-- The prefixes of `networks` in the deployed configuration, with their lengths and labels. -/
def deployedNetworks : List (UInt32 × UInt8 × Int32) :=
  [(0x0AF40000, 16, 1), (0x0A600000, 12, 2), (0xC0A80000, 16, 3), (0xAC100000, 12, 4), (0, 0, 0)]

/-- The configuration has the deployed networks, in some order. -/
def Deployed (cfg : PipelineConfig) : Prop :=
  (cfg.networks.map fun net => (net.pfx, net.prefixLen, net.label)).Perm deployedNetworks

/-- The engine's label for an answer of the collector's table. -/
def classOf : Option UInt32 → Int32
  | some l => if l = 5 then 0 else l.toInt32
  | none => 0

variable {e : Endian} {cfg : PipelineConfig} {env : Env} {eng : Engine} {s₀ : State}

/-- The table of the engine's trie. -/
def networkTable (networks : List CIDREntry) : Table :=
  networks.foldl (fun m net => m.insert (key net.pfx net.prefixLen) net.label) ∅

theorem refines_networkTable {t t' : LPMTrie} {m : Table} (h : Refines t m)
    {networks : List CIDREntry} (hpop : populate t networks = some t') :
    Refines t' (networks.foldl (fun m net => m.insert (key net.pfx net.prefixLen) net.label) m) := by
  induction networks generalizing t m with
  | nil =>
    obtain rfl := Option.some.inj hpop
    exact h
  | cons net networks ih =>
    obtain ⟨t₁, hins, h₁⟩ := refines_insert h net.pfx net.prefixLen_le net.label
    rw [populate, List.foldlM_cons, hins] at hpop
    exact ih h₁ hpop

/-- **The engine's label of an address** is the longest match of its table. -/
theorem lookup_of_setup (hsetup : setup env cfg = some (eng, s₀)) (ip : UInt32) {o : Option Int32}
    (hmatch : IsLongestMatch (networkTable cfg.networks).lookup (bits ip 32) o) :
    eng.ipClassifier.lookup ip = some (o.getD (-1)) := by
  unfold setup at hsetup
  simp only [Option.bind_eq_bind, Option.bind_eq_some_iff, toOption_eq_some] at hsetup
  obtain ⟨e₀, -, det, -, analyzer, -, t, ht, t', hpop, heq⟩ := hsetup
  obtain ⟨rfl, -⟩ := Prod.mk.inj (Option.some.inj heq)
  rw [createIpClassifier_eq ht] at hpop
  obtain ⟨o', hmatch', hlookup⟩ := lookup_spec (refines_networkTable refines_empty hpop) ip
  rw [hlookup, hmatch.unique hmatch']

/-- The deployed networks are the entries of the collector but the last, and the default. -/
theorem lookup_networkTable_iff (h : Deployed cfg) (e : Endian) {k : List Bool} {v : Int32} :
    (networkTable cfg.networks).lookup k = some v ↔ (k = [] ∧ v = 0) ∨
      ∃ entry ∈ entries e, entry.label ≠ 5 ∧ entry.key.bits e = k ∧ entry.label.toInt32 = v := by
  have hkeys : (cfg.networks.map fun net => key net.pfx net.prefixLen).Perm
      (deployedNetworks.map fun n => key n.1 n.2.1) := by
    have hmap := h.map fun n => key n.1 n.2.1
    rwa [List.map_map] at hmap
  have hnodup : (cfg.networks.map fun net => key net.pfx net.prefixLen).Nodup :=
    hkeys.nodup_iff.mpr (by decide)
  have hmem : ∀ k v, (∃ net ∈ cfg.networks, key net.pfx net.prefixLen = k ∧ net.label = v) ↔
      ∃ n ∈ deployedNetworks, key n.1 n.2.1 = k ∧ n.2.2 = v := by
    intro k v
    simp only [← h.mem_iff, List.mem_map, exists_exists_and_eq_and]
  rw [networkTable, lookup_foldl_insert hnodup, hmem]
  simp only [Finmap.lookup_empty, reduceCtorEq, and_false, or_false]
  unfold deployedNetworks entries
  simp only [List.mem_cons, List.not_mem_nil, or_false, exists_eq_or_imp, exists_eq_left,
    bits_lpmKey e ⟨16, _⟩ (show (16 : UInt32).toNat ≤ 32 by decide),
    bits_lpmKey e ⟨12, _⟩ (show (12 : UInt32).toNat ≤ 32 by decide), ntohl_htonl]
  -- the lengths and the labels are the same numbers of other types
  have h16 : ∀ p, key p 16 = bits p (UInt32.toNat 16) := fun p => rfl
  have h12 : ∀ p, key p 12 = bits p (UInt32.toNat 12) := fun p => rfl
  have hnil : key 0 0 = k ∧ 0 = v ↔ k = [] ∧ v = 0 := by
    rw [show key 0 0 = [] from rfl, eq_comm, @eq_comm _ v]
  rw [hnil, h16, h12, h16, h12]
  simp only [show UInt32.toInt32 1 = 1 from rfl, show UInt32.toInt32 2 = 2 from rfl,
    show UInt32.toInt32 3 = 3 from rfl, show UInt32.toInt32 4 = 4 from rfl, ne_eq, not_true_eq_false,
    false_and, or_false, show ¬ (1 : UInt32) = 5 by decide, show ¬ (2 : UInt32) = 5 by decide,
    show ¬ (3 : UInt32) = 5 by decide, show ¬ (4 : UInt32) = 5 by decide, not_false_eq_true, true_and]
  -- the default is the last of the deployed networks
  rw [or_comm (a := k = [] ∧ v = 0)]
  simp only [or_assoc]

/-- The engine with the deployed networks labels every address as a whole table does. -/
theorem classes_agree_of_holds (hsetup : setup env cfg = some (eng, s₀)) (h : Deployed cfg)
    {m : CidrMap} (hm : m.Holds e (entries e)) (addr : UInt32) :
    eng.ipClassifier.lookup (ntohl e addr) = some (classOf (m.label e addr)) := by
  have hlabel : ∀ l, m.label e addr = some l ↔ ∃ entry ∈ entries e,
      entry.key.bits e <+: keyBits e addr ∧ entry.label = l :=
    fun l => hm.label_eq_some_iff (List.Subset.refl _)
  have hword : keyBits e addr = bits (ntohl e addr) 32 := keyBits_eq e addr
  -- a network around the address is the only one of the collector's
  have honly : ∀ {entry k}, entry ∈ entries e → entry.key.bits e <+: keyBits e addr →
      k <+: keyBits e addr → ((networkTable cfg.networks).lookup k).isSome → k ≠ [] →
      k = entry.key.bits e ∧ entry.label ≠ 5 := by
    intro entry k hentry hpre hk hsome hne
    obtain ⟨v, hv⟩ := Option.isSome_iff_exists.mp hsome
    rcases (lookup_networkTable_iff h e).mp hv with ⟨rfl, -⟩ | ⟨entry', hentry', hlabel', rfl, -⟩
    · exact absurd rfl hne
    · rcases List.prefix_or_prefix_of_prefix hpre hk with hle | hle
      · rw [eq_of_nested hentry hentry' hle]
        exact ⟨rfl, hlabel'⟩
      · rw [← eq_of_nested hentry' hentry hle]
        exact ⟨rfl, hlabel'⟩
  -- where no network of the engine is around the address, the default is its match
  have hdefault : (∀ k, k <+: keyBits e addr → ((networkTable cfg.networks).lookup k).isSome → k = []) →
      eng.ipClassifier.lookup (ntohl e addr) = some 0 := by
    intro hnil
    refine lookup_of_setup hsetup _ (o := some 0) ⟨[], List.nil_prefix,
      (lookup_networkTable_iff h e).mpr (Or.inl ⟨rfl, rfl⟩), fun k hk hsome => ?_⟩
    rw [hnil k (hword ▸ hk) hsome]
  cases hl : m.label e addr with
  | none =>
    refine hdefault fun k hk hsome => by_contra fun hne => ?_
    obtain ⟨v, hv⟩ := Option.isSome_iff_exists.mp hsome
    rcases (lookup_networkTable_iff h e).mp hv with ⟨rfl, -⟩ | ⟨entry, hentry, -, rfl, -⟩
    · exact hne rfl
    · rw [(hlabel entry.label).mpr ⟨entry, hentry, hk, rfl⟩] at hl
      cases hl
  | some l =>
    obtain ⟨entry, hentry, hpre, rfl⟩ := (hlabel l).mp hl
    unfold classOf
    dsimp only
    split_ifs with hloop
    · exact hdefault fun k hk hsome => by_contra fun hne => (honly hentry hpre hk hsome hne).2 hloop
    · refine lookup_of_setup hsetup _ (o := some entry.label.toInt32) ⟨entry.key.bits e, hword ▸ hpre,
        (lookup_networkTable_iff h e).mpr (Or.inr ⟨entry, hentry, hloop, rfl, rfl⟩),
        fun k hk hsome => ?_⟩
      by_cases hne : k = []
      · rw [hne]
        exact Nat.zero_le _
      · rw [(honly hentry hpre (hword ▸ hk) hsome hne).1]

/-- **One classification**: in every run of the collector, when `populate_cidr_map` has ended
without a warning, an engine with the deployed networks labels every address as the kernel
does. -/
theorem classes_agree (hsetup : setup env cfg = some (eng, s₀)) (h : Deployed cfg) {m : Monitor}
    {ops : List MonitorEvent} (hreach : reach (Monitor.step e) (Monitor.start e) ops = some m)
    (hpending : m.pending = []) (hstderr : m.stderr = []) (addr : UInt32) :
    eng.ipClassifier.lookup (ntohl e addr) = some (classOf (m.cidrMap.label e addr)) :=
  classes_agree_of_holds hsetup h (Monitor.holds_of_reach hreach hpending hstderr) addr

/-- The default configuration with the deployed networks. -/
def deployedConfig : PipelineConfig :=
  { PipelineConfig.plain "count_min_sketch" "tarjan" with
    networks := [⟨0x0AF40000, 16, 1, by decide⟩, ⟨0x0A600000, 12, 2, by decide⟩,
      ⟨0xC0A80000, 16, 3, by decide⟩, ⟨0xAC100000, 12, 4, by decide⟩, ⟨0, 0, 0, by decide⟩] }

/-- The table is filled, and a pod's address is asked for. -/
theorem classes_agree_pod :
    ∃ env eng s₀ m, setup env deployedConfig = some (eng, s₀) ∧
      reach (Monitor.step .little) (Monitor.start .little) (List.replicate 5 (.populate true)) = some m ∧
      eng.ipClassifier.lookup (ntohl .little 0x0501F40A) =
        some (classOf (m.cidrMap.label .little 0x0501F40A)) := by
  obtain ⟨env⟩ := (inferInstance : Nonempty Env)
  obtain ⟨eng, s₀, hsetup⟩ := exists_setup deployedConfig rfl rfl rfl rfl env
  have hrun : (reach (Monitor.step .little) (Monitor.start .little)
      (List.replicate 5 (.populate true))).map (fun m => (m.pending, m.stderr)) = some ([], []) := rfl
  obtain ⟨m, hm, hresult⟩ := Option.map_eq_some_iff.mp hrun
  obtain ⟨hpending, hstderr⟩ := Prod.mk.inj hresult
  exact ⟨env, eng, s₀, m, hsetup, hm,
    classes_agree hsetup (List.Perm.refl _) hm hpending hstderr _⟩

end Engine
