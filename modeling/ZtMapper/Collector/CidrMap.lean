/-
# `cidr_map`

The collector's table of networks: an LPM trie of the kernel, which `populate_cidr_map`
fills and the return probe asks for the class of a source.  The keys are bytes in network
order, the engine's `LPMTrie` has words in host order; `keyBits_eq` relates the two, and
`lookup_cidrMap_iff` says what a table with any part of the entries answers.
-/
import ZtMapper.Engine.EventLines
import ZtMapper.Trie.LpmTrieCorrect
import Mathlib.Data.Nat.Bitwise

open Engine LongestMatch Unordered

namespace Collector

/-! ## Keys -/

/-- The host-byte-order value in network byte order. -/
def htonl (e : Endian) (x : UInt32) : UInt32 := ntohl e x

/-- The bits of an address as the kernel compares them: byte by byte in memory, the high
bit of a byte first. -/
def keyBits (e : Endian) (addr : UInt32) : List Bool :=
  (memory e addr).flatMap fun b => (List.range 8).map fun i => b.toNat.testBit (7 - i)

/-- `struct lpm_key` -/
structure LpmKey where
  prefixlen : UInt32
  addr : UInt32
  deriving DecidableEq, Repr

/-- The bits that are significant. -/
def LpmKey.bits (e : Endian) (key : LpmKey) : List Bool :=
  (keyBits e key.addr).take key.prefixlen.toNat

/-- An element of the array `entries` of `populate_cidr_map`. -/
structure CidrEntry where
  key : LpmKey
  label : UInt32
  desc : String
  deriving DecidableEq, Repr

def entries (e : Endian) : List CidrEntry :=
  [⟨⟨16, htonl e 0x0AF40000⟩, 1, "pod_network"⟩,
    ⟨⟨12, htonl e 0x0A600000⟩, 2, "service_network"⟩,
    ⟨⟨16, htonl e 0xC0A80000⟩, 3, "node_network"⟩,
    ⟨⟨12, htonl e 0xAC100000⟩, 4, "private_172"⟩,
    ⟨⟨8, htonl e 0x7F000000⟩, 5, "loopback"⟩]

/-- The contents of `cidr_map`. -/
abbrev CidrMap := Map (List Bool) UInt32

/-- `bpf_map_update_elem` on `cidr_map`, when it succeeds. -/
def CidrMap.update (e : Endian) (m : CidrMap) (entry : CidrEntry) : CidrMap :=
  m.insert (entry.key.bits e) entry.label

/-- `bpf_map_lookup_elem` on `cidr_map` with a whole address. -/
def CidrMap.label (e : Endian) (m : CidrMap) (addr : UInt32) : Option UInt32 :=
  longest m.lookup (LpmKey.bits e ⟨32, addr⟩)

/-- The address, in host byte order, is in `10.244.0.0/16`. -/
def InPodNetwork (ip : UInt32) : Prop := ip >>> 16 = 0x0AF4

instance (ip : UInt32) : Decidable (InPodNetwork ip) := inferInstanceAs (Decidable (_ = _))

/-! ## Bits in memory -/

/-- A byte more on the right. -/
theorem testBit_mul_256_add (n : ℕ) (b : UInt8) (i : ℕ) :
    (n * 256 + b.toNat).testBit i = if i < 8 then b.toNat.testBit i else n.testBit (i - 8) := by
  have h := Nat.testBit_two_pow_mul_add n (show b.toNat < 2 ^ 8 from b.toNat_lt) i
  rwa [Nat.mul_comm] at h

/-- The bits of four bytes are the bits of the word. -/
theorem bits_ipFromOctets (a b c d : UInt8) :
    LPMTrie.bits (ipFromOctets a b c d) 32 =
      [a, b, c, d].flatMap fun b => (List.range 8).map fun i => b.toNat.testBit (7 - i) := by
  have hbit : ∀ i, LPMTrie.bit (ipFromOctets a b c d) i =
      (((a.toNat * 256 + b.toNat) * 256 + c.toNat) * 256 + d.toNat).testBit (31 - i) := fun i => by
    rw [LPMTrie.bit, toNat_ipFromOctets]
  unfold LPMTrie.bits LPMTrie.bitsFrom
  simp only [List.range', List.map_cons, List.map_nil, hbit, testBit_mul_256_add]
  rfl

/-- The kernel compares the bits of the address in network order. -/
theorem keyBits_eq (e : Endian) (addr : UInt32) : keyBits e addr = LPMTrie.bits (ntohl e addr) 32 := by
  obtain ⟨a, b, c, d, hmemory, hword⟩ := exists_memory e addr
  rw [← hword, bits_ipFromOctets, keyBits, hmemory]

/-- The first bits of an address. -/
theorem take_bits (val : UInt32) {m n : ℕ} (h : m ≤ n) :
    (LPMTrie.bits val n).take m = LPMTrie.bits val m := by
  unfold LPMTrie.bits LPMTrie.bitsFrom
  rw [← List.map_take, List.take_range'_of_length_ge h]

/-- The number of bits taken. -/
theorem length_bits (val : UInt32) (n : ℕ) : (LPMTrie.bits val n).length = n := by
  unfold LPMTrie.bits LPMTrie.bitsFrom
  rw [List.length_map, List.length_range']

/-- The first bits of two words, as a division. -/
theorem bits_eq_iff {x y : UInt32} {n : ℕ} (hn : n ≤ 32) :
    LPMTrie.bits x n = LPMTrie.bits y n ↔ x.toNat / 2 ^ (32 - n) = y.toNat / 2 ^ (32 - n) := by
  unfold LPMTrie.bits LPMTrie.bitsFrom
  rw [List.map_inj_left]
  constructor
  · intro h
    refine Nat.eq_of_testBit_eq fun i => ?_
    rw [Nat.testBit_div_two_pow, Nat.testBit_div_two_pow]
    by_cases hi : i < n
    · have hbit := h (n - 1 - i) (by simp; omega)
      unfold LPMTrie.bit at hbit
      rwa [show 31 - (n - 1 - i) = i + (32 - n) by omega] at hbit
    · -- the words have no more bits
      have hpow : 2 ^ 32 ≤ 2 ^ (i + (32 - n)) := Nat.pow_le_pow_right (by decide) (by omega)
      rw [Nat.testBit_lt_two_pow (lt_of_lt_of_le x.toNat_lt hpow),
        Nat.testBit_lt_two_pow (lt_of_lt_of_le y.toNat_lt hpow)]
  · intro h i hi
    have hlt : i < n := by simpa using hi
    have hbit := congrArg (Nat.testBit · (n - 1 - i)) h
    simp only [Nat.testBit_div_two_pow] at hbit
    unfold LPMTrie.bit
    rwa [show 31 - i = n - 1 - i + (32 - n) by omega]

/-- When the first bits of one word begin another one. -/
theorem bits_prefix_iff {x y : UInt32} {n : ℕ} (hn : n ≤ 32) :
    LPMTrie.bits x n <+: LPMTrie.bits y 32 ↔ x.toNat / 2 ^ (32 - n) = y.toNat / 2 ^ (32 - n) := by
  rw [← bits_eq_iff hn, List.prefix_iff_eq_take, length_bits, take_bits y hn]

/-- The bits of a key of at most 32. -/
theorem bits_lpmKey (e : Endian) (key : LpmKey) (h : key.prefixlen.toNat ≤ 32) :
    key.bits e = LPMTrie.bits (ntohl e key.addr) key.prefixlen.toNat := by
  rw [LpmKey.bits, keyBits_eq, take_bits _ h]

/-- The bytes of a word, the lowest one first. -/
theorem memory_ipFromOctets (a b c d : UInt8) : memory .little (ipFromOctets a b c d) = [d, c, b, a] := by
  have hword := toNat_ipFromOctets a b c d
  have ha := a.toNat_lt
  have hb := b.toNat_lt
  have hc := c.toNat_lt
  have hd := d.toNat_lt
  have e8 : (8 : UInt32).toNat % 32 = 8 := rfl
  have e16 : (16 : UInt32).toNat % 32 = 16 := rfl
  have e24 : (24 : UInt32).toNat % 32 = 24 := rfl
  unfold memory
  simp only [List.cons.injEq, and_true, ← UInt8.toNat_inj, UInt32.toNat_toUInt8,
    UInt32.toNat_shiftRight, e8, e16, e24, Nat.shiftRight_eq_div_pow]
  omega

/-- To network order and back. -/
theorem ntohl_htonl (e : Endian) (x : UInt32) : ntohl e (htonl e x) = x := by
  cases e with
  | big => rfl
  | little =>
    obtain ⟨a, b, c, d, hmemory, hword⟩ := exists_memory .little x
    have hback : memory .little (htonl .little x) = [d, c, b, a] := by
      rw [htonl, ← hword, memory_ipFromOctets]
    obtain ⟨a', b', c', d', hmemory', hword'⟩ := exists_memory .little (htonl .little x)
    rw [hmemory'] at hback
    obtain ⟨rfl, rfl, rfl, rfl⟩ : a' = d ∧ b' = c ∧ c' = b ∧ d' = a := by simpa using hback
    -- the bytes are those of the word, from the last one on
    unfold memory at hmemory
    obtain ⟨h0, h8, h16, h24⟩ : x.toUInt8 = d' ∧ (x >>> 8).toUInt8 = c' ∧ (x >>> 16).toUInt8 = b' ∧
      (x >>> 24).toUInt8 = a' := by simpa using hmemory
    rw [← hword', ← h0, ← h8, ← h16, ← h24]
    exact ipFromOctets_octets x

/-! ## What the table answers -/

section Label

variable {e : Endian} {m : CidrMap} {done : List CidrEntry} {entry entry' : CidrEntry}

/-- No network of the array contains another one. -/
theorem eq_of_nested (h : entry ∈ entries e) (h' : entry' ∈ entries e)
    (hpre : entry.key.bits e <+: entry'.key.bits e) : entry = entry' := by
  have hall : ∀ a ∈ entries e, ∀ b ∈ entries e, a.key.bits e <+: b.key.bits e → a = b := by
    cases e <;> decide
  exact hall entry h entry' h' hpre

/-- The table holds these entries. -/
def CidrMap.Holds (e : Endian) (m : CidrMap) (done : List CidrEntry) : Prop :=
  ∀ k l, m.lookup k = some l ↔ ∃ entry ∈ done, entry.key.bits e = k ∧ entry.label = l

/-- The empty map holds nothing. -/
theorem CidrMap.holds_empty : CidrMap.Holds e ∅ [] := fun k l =>
  iff_of_false (fun h => by cases h) fun ⟨entry, h, _⟩ => absurd h List.not_mem_nil

/-- An update adds its entry. -/
theorem CidrMap.Holds.update (h : m.Holds e done) (hdone : done ⊆ entries e)
    (hentry : entry ∈ entries e) : (m.update e entry).Holds e (done ++ [entry]) := by
  intro k l
  unfold CidrMap.update
  rw [lookup_insert_eq]
  split_ifs with hk
  · constructor
    · rintro heq
      exact ⟨entry, by simp, hk.symm, Option.some.inj heq⟩
    · rintro ⟨other, hmem, hbits, rfl⟩
      -- the key determines the entry
      rcases List.mem_append.mp hmem with hold | hnew
      · rw [eq_of_nested hentry (hdone hold) (by rw [hbits, hk])]
      · rw [List.mem_singleton.mp hnew]
  · rw [h k l]
    constructor
    · rintro ⟨other, hmem, hrest⟩
      exact ⟨other, List.mem_append_left _ hmem, hrest⟩
    · rintro ⟨other, hmem, hbits, hlabel⟩
      rcases List.mem_append.mp hmem with hold | hnew
      · exact ⟨other, hold, hbits, hlabel⟩
      · rw [List.mem_singleton.mp hnew] at hbits
        exact absurd hbits.symm hk

/-- **The label of an address** is that of the network it is in. -/
theorem CidrMap.Holds.label_eq_some_iff (h : m.Holds e done) (hdone : done ⊆ entries e)
    {addr l : UInt32} : m.label e addr = some l ↔
      ∃ entry ∈ done, entry.key.bits e <+: keyBits e addr ∧ entry.label = l := by
  have hfree : ∀ k k', (m.lookup k).isSome → (m.lookup k').isSome → k <+: k' → k = k' := by
    intro k k' hk hk' hpre
    obtain ⟨l, hl⟩ := Option.isSome_iff_exists.mp hk
    obtain ⟨l', hl'⟩ := Option.isSome_iff_exists.mp hk'
    obtain ⟨a, ha, rfl, -⟩ := (h k l).mp hl
    obtain ⟨b, hb, rfl, -⟩ := (h k' l').mp hl'
    rw [eq_of_nested (hdone ha) (hdone hb) hpre]
  have hwhole : LpmKey.bits e ⟨32, addr⟩ = keyBits e addr := by
    rw [bits_lpmKey e ⟨32, addr⟩ (le_refl 32), keyBits_eq]
    rfl
  rw [CidrMap.label, longest_eq_some_iff hfree, hwhole]
  constructor
  · rintro ⟨k, hk, hget⟩
    obtain ⟨entry, hmem, rfl, hlabel⟩ := (h k l).mp hget
    exact ⟨entry, hmem, hk, hlabel⟩
  · rintro ⟨entry, hmem, hk, hlabel⟩
    exact ⟨_, hk, (h _ l).mpr ⟨entry, hmem, rfl, hlabel⟩⟩

/-- When an address is in the network of an entry. -/
theorem bits_prefix_keyBits_iff {n c addr : UInt32} (hn : n.toNat ≤ 32) :
    LpmKey.bits e ⟨n, htonl e c⟩ <+: keyBits e addr ↔
      c.toNat / 2 ^ (32 - n.toNat) = (ntohl e addr).toNat / 2 ^ (32 - n.toNat) := by
  rw [bits_lpmKey e ⟨n, htonl e c⟩ hn, ntohl_htonl, keyBits_eq, bits_prefix_iff hn]

/-- The entry of the pod network. -/
def podEntry (e : Endian) : CidrEntry := ⟨⟨16, htonl e 0x0AF40000⟩, 1, "pod_network"⟩

/-- The pod network is loaded. -/
theorem podEntry_mem : podEntry e ∈ entries e := List.mem_cons_self

/-- An address matches the pod entry when it is in the pod network. -/
theorem inPodNetwork_iff {addr : UInt32} :
    (podEntry e).key.bits e <+: keyBits e addr ↔ InPodNetwork (ntohl e addr) := by
  unfold podEntry
  dsimp only
  rw [bits_prefix_keyBits_iff (by decide), InPodNetwork, ← UInt32.toNat_inj,
    UInt32.toNat_shiftRight, Nat.shiftRight_eq_div_pow]
  exact eq_comm

/-- The table knows the pod network. -/
def CidrMap.Ready (e : Endian) (m : CidrMap) : Prop := (podEntry e).key.bits e ∈ m

instance (m : CidrMap) : Decidable (m.Ready e) := inferInstanceAs (Decidable (_ ∈ m))

/-- **The label of pods**: `1` is the answer for the pod network, as soon as the table
knows it, and for no other address. -/
theorem CidrMap.Holds.label_eq_one_iff (h : m.Holds e done) (hdone : done ⊆ entries e)
    {addr : UInt32} : m.label e addr = some 1 ↔ m.Ready e ∧ InPodNetwork (ntohl e addr) := by
  have hone : ∀ a ∈ entries e, a.label = 1 → a = podEntry e := by cases e <;> decide
  have hready : m.Ready e ↔ podEntry e ∈ done := by
    rw [CidrMap.Ready, ← Finmap.lookup_isSome, Option.isSome_iff_exists]
    constructor
    · rintro ⟨l, hl⟩
      obtain ⟨entry, hmem, hbits, -⟩ := (h _ l).mp hl
      rwa [eq_of_nested podEntry_mem (hdone hmem) (by rw [hbits])]
    · exact fun hmem => ⟨1, (h _ 1).mpr ⟨podEntry e, hmem, rfl, rfl⟩⟩
  rw [h.label_eq_some_iff hdone, hready, ← inPodNetwork_iff (e := e)]
  constructor
  · rintro ⟨entry, hmem, hpre, hlabel⟩
    obtain rfl := hone entry (hdone hmem) hlabel
    exact ⟨hmem, hpre⟩
  · rintro ⟨hmem, hpre⟩
    exact ⟨podEntry e, hmem, hpre, rfl⟩

end Label

end Collector
