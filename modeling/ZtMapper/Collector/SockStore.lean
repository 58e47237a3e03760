/-
# `sock_store`

The probes of `tcp_v4_connect` in the kernel module.  The entry probe stores the socket
of a thread under its `pid_tgid`, and the return probe takes it out.  Any number of
threads enter and return in any order; the map is bounded, and an update of a new key
fails when it is full.
-/
import ZtMapper.Lib.Runs
import ZtMapper.Lib.Unordered

open Unordered Runs

namespace Collector

/-! ## The probes -/

structure NetworkEvent where
  srcIp : UInt32
  dstIp : UInt32
  dstPort : UInt16
  pid : UInt32
  timestampNs : UInt64
  deriving DecidableEq, Repr

/-- The fields of `__sk_common` that the return probe reads. -/
structure SockCommon where
  daddr : UInt32
  dport : UInt16
  rcvSaddr : UInt32
  deriving DecidableEq, Repr

/-- What the return probe meets in the kernel: the sockets, `cidr_map`, whether the ring
buffer has room, and the clock. -/
structure Kernel where
  sock : UInt64 → SockCommon
  label : UInt32 → Option UInt32
  reserves : Bool
  ktime : UInt64

/-- The sockets by `pid_tgid`. -/
abbrev SockMap := Map UInt64 UInt64

/-- `max_entries` of `sock_store` -/
def maxEntries : ℕ := 4096

/-- `bpf_map_update_elem` with `BPF_ANY`, whose error is ignored. -/
def update (m : SockMap) (key value : UInt64) : SockMap :=
  if key ∈ m ∨ m.keys.card < maxEntries then m.insert key value else m

/-- `tcp_v4_connect_entry` -/
def connectEntry (m : SockMap) (pidTgid sk : UInt64) : SockMap := update m pidTgid sk

/-- `__builtin_bswap16` -/
def bswap16 (n : UInt16) : UInt16 := (n <<< 8) ||| (n >>> 8)

/-- The event of a connection, when its source is a pod and the buffer has room. -/
def submit (k : Kernel) (pidTgid sk : UInt64) : Option NetworkEvent :=
  if k.label (k.sock sk).rcvSaddr ≠ some 1 then none
  else if k.reserves = false then none
  else some
    { srcIp := (k.sock sk).rcvSaddr
      dstIp := (k.sock sk).daddr
      dstPort := bswap16 (k.sock sk).dport
      pid := (pidTgid >>> 32).toUInt32
      timestampNs := k.ktime }

/-- A code on which the return probe proceeds: success, or `-EINPROGRESS`. -/
def Proceeds (ret : Int32) : Prop := ret = 0 ∨ ret = -115

instance (ret : Int32) : Decidable (Proceeds ret) := inferInstanceAs (Decidable (_ ∨ _))

/-- `tcp_v4_connect_return` -/
def connectReturn (k : Kernel) (m : SockMap) (pidTgid : UInt64) (ret : Int32) :
    SockMap × Option NetworkEvent :=
  if ¬ Proceeds ret then (m, none)
  else match m.lookup pidTgid with
    | none => (m, none)
    | some sk => (m.erase pidTgid, submit k pidTgid sk)

/-! ## The threads -/

/-- The map, and the sockets of the threads between entry and return. -/
structure State where
  store : SockMap := ∅
  inside : SockMap := ∅

inductive Event where
  | entry (pidTgid sk : UInt64)
  | ret (pidTgid : UInt64) (code : Int32) (k : Kernel)

namespace State

/-- A thread that is outside enters, or one that is inside returns. -/
def step (s : State) : Event → Option State
  | .entry t sk =>
    if t ∈ s.inside then none
    else some ⟨connectEntry s.store t sk, s.inside.insert t sk⟩
  | .ret t code k =>
    if t ∈ s.inside then some ⟨(connectReturn k s.store t code).1, s.inside.erase t⟩ else none

/-- Every key belongs to a thread between entry and return. -/
def OnlyInside (s : State) : Prop := ∀ t ∈ s.store, t ∈ s.inside

/-- The threads between entry and return are no more than the map has room for. -/
def Roomy (s : State) : Prop := s.inside.keys.card ≤ maxEntries

/-- Every thread between entry and return has its socket stored. -/
def Stored (s : State) : Prop :=
  ∀ t sk, s.inside.lookup t = some sk → s.store.lookup t = some sk

/-- A return does not leave a key behind: it proceeds, or there is no key. -/
def CleansUp (s : State) : Event → Prop
  | .entry _ _ => True
  | .ret t code _ => Proceeds code ∨ t ∉ s.store

/-- A return that proceeds finds the socket of its own entry. -/
def FindsOwn (s : State) : Event → Prop
  | .entry _ _ => True
  | .ret t code _ => Proceeds code → ∃ sk, s.inside.lookup t = some sk ∧ s.store.lookup t = some sk

variable {s s' : State} {e : Event} {t t' sk : UInt64}

theorem mem_update {m : SockMap} (h : t' ∈ update m t sk) : t' = t ∨ t' ∈ m := by
  unfold update at h
  split_ifs at h
  · exact Finmap.mem_insert.mp h
  · exact Or.inr h

/-- What a return leaves in the map. -/
theorem store_connectReturn (k : Kernel) (m : SockMap) (t : UInt64) (code : Int32) :
    (connectReturn k m t code).1 = if Proceeds code then m.erase t else m := by
  unfold connectReturn
  by_cases hcode : Proceeds code
  · rw [if_neg (not_not_intro hcode), if_pos hcode]
    cases hlookup : m.lookup t with
    | none =>
      -- there is nothing to erase
      refine Finmap.ext_lookup fun t' => ?_
      rw [lookup_erase_eq]
      split_ifs with heq
      · rw [heq]
        exact hlookup
      · rfl
    | some sk => rfl
  · rw [if_pos hcode, if_neg hcode]

/-- What a step has done. -/
theorem step_cases (h : s.step e = some s') :
    (∃ t sk, e = .entry t sk ∧ t ∉ s.inside ∧
        s' = ⟨update s.store t sk, s.inside.insert t sk⟩) ∨
      ∃ t code k, e = .ret t code k ∧ t ∈ s.inside ∧
        s' = ⟨if Proceeds code then s.store.erase t else s.store, s.inside.erase t⟩ := by
  cases e with
  | entry t sk =>
    unfold step at h
    dsimp only at h
    split_ifs at h with ht
    exact Or.inl ⟨t, sk, rfl, ht, (Option.some.inj h).symm⟩
  | ret t code k =>
    unfold step at h
    dsimp only at h
    split_ifs at h with ht
    rw [store_connectReturn] at h
    exact Or.inr ⟨t, code, k, rfl, ht, (Option.some.inj h).symm⟩

/-- A step keeps the keys inside exactly when it cleans up. -/
theorem onlyInside_step_iff (h : s.OnlyInside) (hstep : s.step e = some s') :
    s'.OnlyInside ↔ s.CleansUp e := by
  rcases step_cases hstep with ⟨t, sk, rfl, -, rfl⟩ | ⟨t, code, k, rfl, -, rfl⟩
  · -- the only new key is of the thread that enters
    refine iff_of_true (fun t' ht' => ?_) trivial
    rcases mem_update ht' with rfl | hold
    · exact Finmap.mem_insert.mpr (Or.inl rfl)
    · exact Finmap.mem_insert.mpr (Or.inr (h t' hold))
  · have hcleans : CleansUp s (.ret t code k) ↔ Proceeds code ∨ t ∉ s.store := Iff.rfl
    rw [hcleans]
    unfold OnlyInside
    dsimp only
    split_ifs with hcode
    · refine iff_of_true (fun t' ht' => ?_) (Or.inl hcode)
      obtain ⟨hne, hold⟩ := Finmap.mem_erase.mp ht'
      exact Finmap.mem_erase.mpr ⟨hne, h t' hold⟩
    · -- the map is as it was, and the thread is outside
      rw [or_iff_right hcode]
      constructor
      · exact fun hinside hmem => (Finmap.mem_erase.mp (hinside t hmem)).1 rfl
      · intro hnot t' ht'
        have hne : t' ≠ t := fun heq => hnot (heq ▸ ht')
        exact Finmap.mem_erase.mpr ⟨hne, h t' ht'⟩

/-- While the keys are inside, a map with as many entries as threads has room. -/
theorem update_of_roomy (h : s.OnlyInside) (ht : t ∉ s.inside)
    (hroomy : (s.inside.insert t sk).keys.card ≤ maxEntries) :
    update s.store t sk = s.store.insert t sk := by
  refine if_pos (Or.inr ?_)
  have hsub : s.store.keys ⊆ s.inside.keys := fun t' ht' =>
    Finmap.mem_keys.mpr (h t' (Finmap.mem_keys.mp ht'))
  -- the thread that enters is one more inside
  have hle := Finset.card_le_card hsub
  have hcard : (s.inside.insert t sk).keys.card = s.inside.keys.card + 1 := by
    rw [keys_insert]
    exact Finset.card_insert_of_notMem fun hmem => ht (Finmap.mem_keys.mp hmem)
  omega

theorem stored_step (h : s.Stored) (hinside : s.OnlyInside) (hstep : s.step e = some s')
    (hroomy : s'.Roomy) : s'.Stored := by
  rcases step_cases hstep with ⟨t, sk, rfl, ht, rfl⟩ | ⟨t, code, k, rfl, -, rfl⟩
  · intro t' sk' hlookup
    dsimp only at hlookup ⊢
    rw [update_of_roomy hinside ht hroomy, lookup_insert_eq]
    rw [lookup_insert_eq] at hlookup
    split_ifs at hlookup ⊢ with heq
    · exact hlookup
    · exact h t' sk' hlookup
  · intro t' sk' hlookup
    dsimp only at hlookup ⊢
    rw [lookup_erase_eq] at hlookup
    split_ifs at hlookup with heq
    split_ifs
    · rw [lookup_erase_eq, if_neg heq]
      exact h t' sk' hlookup
    · exact h t' sk' hlookup

theorem findsOwn_of_stored (h : s.Stored) (hstep : s.step e = some s') : s.FindsOwn e := by
  rcases step_cases hstep with ⟨t, sk, rfl, -, -⟩ | ⟨t, code, k, rfl, ht, -⟩
  · trivial
  · intro _
    obtain ⟨sk, hsk⟩ := Finmap.mem_iff.mp ht
    exact ⟨sk, hsk, h t sk hsk⟩

end State

/-! ## Runs -/

open State

variable {s : State} {events : List Event}

/-- A property of every state of a run. -/
def Throughout (P : State → Prop) (events : List Event) : Prop :=
  ∀ pre post s, events = pre ++ post → reach step {} pre = some s → P s

/-- A property of every step of a run. -/
def EveryStep (P : State → Event → Prop) (pre : List Event) (e : Event) : Prop :=
  ∀ s, reach step {} pre = some s → P s e

theorem Throughout.of_append {P : State → Prop} {rest : List Event}
    (h : Throughout P (events ++ rest)) : Throughout P events := by
  intro pre post s heq
  exact h pre (post ++ rest) s (by rw [heq, List.append_assoc])

theorem Throughout.last {P : State → Prop} (h : Throughout P events)
    (hreach : reach step {} events = some s) : P s :=
  h events [] s (List.append_nil events).symm hreach

theorem onlyInside_of_reach (hreach : reach step {} events = some s)
    (hcleans : Along (EveryStep CleansUp) events) : s.OnlyInside := by
  induction events using List.reverseRecOn generalizing s with
  | nil =>
    rw [← Option.some.inj hreach]
    exact fun t ht => absurd ht (Finmap.notMem_empty)
  | append_singleton events e ih =>
    obtain ⟨hbefore, hlast⟩ := along_concat.mp hcleans
    obtain ⟨s₁, hs₁, hstep⟩ := reach_concat_eq_some.mp hreach
    exact (onlyInside_step_iff (ih hs₁ hbefore) hstep).mpr (hlast s₁ hs₁)

theorem stored_of_reach (hreach : reach step {} events = some s)
    (hinside : Throughout OnlyInside events) (hroomy : Throughout Roomy events) : s.Stored := by
  induction events using List.reverseRecOn generalizing s with
  | nil =>
    rw [← Option.some.inj hreach]
    intro t sk hlookup
    cases hlookup
  | append_singleton events e ih =>
    obtain ⟨s₁, hs₁, hstep⟩ := reach_concat_eq_some.mp hreach
    have hstored := ih hs₁ hinside.of_append hroomy.of_append
    exact stored_step hstored (hinside.of_append.last hs₁) hstep (hroomy.last hreach)

/-- **The map holds the threads that are inside**, in every state of a run, and every
return that proceeds finds its own socket while there is room for all threads, exactly
when every return cleans up. -/
theorem sockStore_iff (hreach : reach step {} events = some s) :
    (Throughout OnlyInside events ∧
        (Throughout Roomy events → Along (EveryStep FindsOwn) events)) ↔
      Along (EveryStep CleansUp) events := by
  constructor
  · rintro ⟨hinside, -⟩ pre e post heq s₁ hs₁
    obtain ⟨s₁', s₂, hs₁', hstep, hs₂⟩ := reach_split hreach heq
    obtain rfl := Option.some.inj (hs₁.symm.trans hs₁')
    have hnext : s₂.OnlyInside :=
      hinside (pre ++ [e]) post s₂ (by rw [heq, List.append_assoc]; rfl) hs₂
    exact (onlyInside_step_iff (hinside pre (e :: post) s₁ heq hs₁) hstep).mp hnext
  · intro hcleans
    have hinside : Throughout OnlyInside events := fun pre post s₁ heq hs₁ =>
      onlyInside_of_reach hs₁ (Along.of_append (heq ▸ hcleans))
    refine ⟨hinside, fun hroomy pre e post heq s₁ hs₁ => ?_⟩
    obtain ⟨s₁', s₂, hs₁', hstep, -⟩ := reach_split hreach heq
    obtain rfl := Option.some.inj (hs₁.symm.trans hs₁')
    have hpre : Throughout OnlyInside pre := Throughout.of_append (heq ▸ hinside)
    have hroomy' : Throughout Roomy pre := Throughout.of_append (heq ▸ hroomy)
    exact findsOwn_of_stored (stored_of_reach hs₁ hpre hroomy') hstep

/-- A thread connects, and another one at the same time. -/
theorem sockStore_iff_two :
    let k : Kernel := ⟨fun _ => ⟨0, 0, 0⟩, fun _ => none, true, 0⟩
    let events : List Event := [.entry 1 100, .entry 2 200, .ret 1 0 k, .ret 2 (-115) k]
    (Throughout OnlyInside events ∧
        (Throughout Roomy events → Along (EveryStep FindsOwn) events)) ↔
      Along (EveryStep CleansUp) events := by
  intro k events
  have hrun : (reach step {} events).isSome = true := by decide
  obtain ⟨s, hs⟩ := Option.isSome_iff_exists.mp hrun
  exact sockStore_iff hs

/-- A connection is refused: its key stays in the map. -/
theorem not_sockStore :
    let k : Kernel := ⟨fun _ => ⟨0, 0, 0⟩, fun _ => none, true, 0⟩
    let events : List Event := [.entry 1 100, .ret 1 (-111) k]
    (reach step {} events).isSome = true ∧ ¬ Throughout OnlyInside events := by
  intro k events
  refine ⟨by decide, fun hinside => ?_⟩
  have hrun : (reach step {} events).map (fun s => (decide (1 ∈ s.store), decide (1 ∈ s.inside))) =
      some (true, false) := by decide
  obtain ⟨s, hs, hresult⟩ := Option.map_eq_some_iff.mp hrun
  obtain ⟨hstore, houtside⟩ := Prod.mk.inj hresult
  exact of_decide_eq_false houtside (hinside.last hs 1 (of_decide_eq_true hstore))

/-! ## Refused connections -/

/-- A connection that is refused. -/
def refused (k : Kernel) (t : UInt64) : List Event := [.entry t t, .ret t (-111) k]

theorem not_proceeds_refused : ¬ Proceeds (-111) := by decide

/-- A thread that enters an empty kernel and is refused leaves its key, if there is
room for it. -/
theorem reach_refused (k : Kernel) {t : UInt64} (hreach : reach step {} events = some s)
    (houtside : s.inside = ∅) (hroom : s.store.keys.card < maxEntries) :
    reach step {} (events ++ refused k t) = some ⟨s.store.insert t t, ∅⟩ := by
  have hsplit : events ++ refused k t = (events ++ [.entry t t]) ++ [.ret t (-111) k] := by
    rw [List.append_assoc]
    rfl
  have hentry : s.step (.entry t t) = some ⟨s.store.insert t t, s.inside.insert t t⟩ := by
    have hnot : t ∉ s.inside := houtside ▸ Finmap.notMem_empty
    have hupdate : update s.store t t = s.store.insert t t := if_pos (Or.inr hroom)
    unfold step connectEntry
    dsimp only
    rw [if_neg hnot, hupdate]
  have hempty : (s.inside.insert t t).erase t = ∅ := by
    refine Finmap.ext_lookup fun t' => ?_
    rw [lookup_erase_eq, lookup_insert_eq, houtside]
    split_ifs <;> rfl
  have hret : step ⟨s.store.insert t t, s.inside.insert t t⟩ (.ret t (-111) k) =
      some ⟨s.store.insert t t, ∅⟩ := by
    have hmem : t ∈ s.inside.insert t t := Finmap.mem_insert.mpr (Or.inl rfl)
    unfold step
    dsimp only
    rw [if_pos hmem, store_connectReturn, if_neg not_proceeds_refused, hempty]
  rw [hsplit, reach_concat_eq_some]
  exact ⟨_, reach_concat_eq_some.mpr ⟨s, hreach, hentry⟩, hret⟩

/-- Refused connections fill the map, one key for each thread. -/
theorem keys_of_refused (k : Kernel) {ts : List UInt64} (hnodup : ts.Nodup)
    (hlength : ts.length ≤ maxEntries) :
    ∃ s, reach step {} (ts.flatMap (refused k)) = some s ∧ s.store.keys = ts.toFinset ∧
      s.inside = ∅ := by
  induction ts using List.reverseRecOn with
  | nil => exact ⟨{}, rfl, rfl, rfl⟩
  | append_singleton ts t ih =>
    rw [List.length_append, List.length_singleton] at hlength
    have hbefore := (List.nodup_append.mp hnodup).1
    obtain ⟨s, hs, hkeys, houtside⟩ := ih hbefore (Nat.le_of_succ_le hlength)
    have hroom : s.store.keys.card < maxEntries := by
      rw [hkeys, List.toFinset_card_of_nodup hbefore]
      exact hlength
    refine ⟨⟨s.store.insert t t, ∅⟩, ?_, ?_, rfl⟩
    · rw [List.flatMap_append, List.flatMap_singleton]
      exact reach_refused k hs houtside hroom
    · dsimp only
      rw [keys_insert, hkeys, List.toFinset_append, Finset.insert_eq, Finset.union_comm]
      rfl

/-- **Refused connections blind the collector.**  After as many threads as the map has
room for have been refused, the connection of another thread makes no event, although
no other thread is inside. -/
theorem unseen_of_refused (k : Kernel) {ts : List UInt64} (hnodup : ts.Nodup)
    (hfull : ts.length = maxEntries) {t : UInt64} (ht : t ∉ ts) (sk : UInt64) :
    ∃ s, reach step {} (ts.flatMap (refused k) ++ [.entry t sk]) = some s ∧
      s.inside.keys = {t} ∧ ∀ k' code, (connectReturn k' s.store t code).2 = none := by
  obtain ⟨s, hs, hkeys, houtside⟩ := keys_of_refused k hnodup (Nat.le_of_eq hfull)
  have hnot : t ∉ s.store := by
    rw [← Finmap.mem_keys, hkeys, List.mem_toFinset]
    exact ht
  have hupdate : update s.store t sk = s.store := by
    refine if_neg (not_or.mpr ⟨hnot, ?_⟩)
    rw [hkeys, List.toFinset_card_of_nodup hnodup, hfull]
    exact Nat.lt_irrefl _
  refine ⟨⟨s.store, s.inside.insert t sk⟩, reach_concat_eq_some.mpr ⟨s, hs, ?_⟩, ?_, ?_⟩
  · have hnot' : t ∉ s.inside := houtside ▸ Finmap.notMem_empty
    unfold step connectEntry
    dsimp only
    rw [if_neg hnot', hupdate]
  · dsimp only
    rw [keys_insert, houtside]
    rfl
  · intro k' code
    unfold connectReturn
    rw [Finmap.lookup_eq_none.mpr hnot]
    split_ifs <;> rfl

end Collector
