/-
# `LPMTrie` refines a finite map

The abstract trie is a finite map from words of bits to labels: the key of
`(prefix, len)` is the word of the first `len` bits of `prefix`.  Each operation
of the trie is related to the one of the map by `Refines` (`refines_insert`,
`refines_remove`, `lookup_spec`), and so is a sequence of calls (`run_refines`).
-/
import ZtMapper.Lib.LongestMatch
import ZtMapper.Lib.Unordered
import ZtMapper.Trie.LpmTrie

open LongestMatch Unordered

namespace LPMTrie

/-! ## Bits -/

/-- The bit of `val` at position `pos`, counted from the most significant one. -/
def bit (val : UInt32) (pos : ℕ) : Bool := val.toNat.testBit (31 - pos)

/-- The `n` bits of `val` from position `i` on. -/
def bitsFrom (val : UInt32) (i n : ℕ) : List Bool := (List.range' i n).map (bit val)

/-- The first `n` bits of `val`. -/
def bits (val : UInt32) (n : ℕ) : List Bool := bitsFrom val 0 n

theorem bitsFrom_zero (val : UInt32) (i : ℕ) : bitsFrom val i 0 = [] := rfl

theorem bitsFrom_succ (val : UInt32) (i n : ℕ) :
    bitsFrom val i (n + 1) = bit val i :: bitsFrom val (i + 1) n := rfl

theorem getBit_eq (val : UInt32) (pos : ℕ) (h : pos ≤ 31) :
    getBit val pos = some (bit val pos) := by
  have hshift : (UInt32.ofNat (31 - pos)).toNat = 31 - pos :=
    UInt32.toNat_ofNat_of_lt' (lt_of_le_of_lt (Nat.sub_le 31 pos) (by decide))
  have hmod : (31 - pos) % 32 = 31 - pos := Nat.mod_eq_of_lt (by omega)
  have hval : (val >>> UInt32.ofNat (31 - pos) &&& 1).toNat = val.toNat / 2 ^ (31 - pos) % 2 := by
    rw [UInt32.toNat_and, UInt32.toNat_shiftRight, hshift, hmod, Nat.shiftRight_eq_div_pow]
    exact Nat.and_one_is_mod _
  rw [getBit, if_pos h, bit, Nat.testBit_eq_decide_div_mod_eq, beq_eq_decide, ← hval]
  congr 2
  exact propext UInt32.toNat_inj.symm

/-! ## What a node stores -/

/-- The label stored under a word of bits. -/
def Node.get : Node → List Bool → Option Int32
  | .null, _ => none
  | .node _ label hasPrefix, [] => if hasPrefix then some label else none
  | .node children _ _, b :: k => (children b).get k

/-- The number of nodes. -/
def Node.card : Node → ℕ
  | .null => 0
  | .node children _ _ => (children false).card + (children true).card + 1

@[simp] theorem Node.get_null (k : List Bool) : Node.null.get k = none := rfl

@[simp] theorem Node.get_fresh (k : List Bool) : Node.fresh.get k = none := by
  cases k <;> rfl

/-- A change of one word of a child is a change of one word of the node. -/
theorem Node.get_update {children : Bool → Node} {label : Int32} {hasPrefix : Bool} {b : Bool}
    {child : Node} {w : List Bool} {o : Option Int32}
    (h : ∀ k, child.get k = if k = w then o else (children b).get k) (k : List Bool) :
    (Node.node (Function.update children b child) label hasPrefix).get k
      = if k = b :: w then o else (Node.node children label hasPrefix).get k := by
  cases k with
  | nil =>
    rw [if_neg (List.cons_ne_nil b w).symm]
    rfl
  | cons c k =>
    rw [Node.get, Node.get]
    by_cases hc : c = b
    · rw [hc, Function.update_self, h k]
      by_cases hk : k = w
      · rw [if_pos hk, if_pos (congrArg _ hk)]
      · rw [if_neg hk, if_neg (fun he => hk (List.cons.inj he).2)]
    · rw [Function.update_of_ne hc, if_neg (fun he => hc (List.cons.inj he).1)]

/-- Replacing one child changes the number of nodes by the difference. -/
theorem Node.card_update (children : Bool → Node) (label : Int32) (hasPrefix : Bool)
    (b : Bool) (child : Node) :
    (Node.node (Function.update children b child) label hasPrefix).card + (children b).card
      = (Node.node children label hasPrefix).card + child.card := by
  rw [Node.card, Node.card]
  cases b
  · rw [Function.update_self, Function.update_of_ne (by decide)]
    omega
  · rw [Function.update_self, Function.update_of_ne (by decide)]
    omega

/-- The best label after looking at a node. -/
theorem Node.best_eq {t : Node} (ht : t ≠ .null) (best : Int32) :
    t.best best = some ((t.get []).getD best) := by
  cases t with
  | null => exact absurd rfl ht
  | node children label hasPrefix => cases hasPrefix <;> rfl

/-! ## `insert` -/

/-- The child `insert` goes on with stores what was there before. -/
theorem Node.ensure_spec (t : Node) :
    ∃ child created, t.ensure = (child, created) ∧ child ≠ .null ∧
      (∀ k, child.get k = t.get k) ∧ child.card = t.card + created := by
  cases t with
  | null => exact ⟨.fresh, 1, rfl, Node.noConfusion, Node.get_fresh, rfl⟩
  | node children label hasPrefix => exact ⟨_, 0, rfl, Node.noConfusion, fun _ => rfl, rfl⟩

/-- Where `insert` puts the label: the word of bits it walked along. -/
theorem insertFrom_spec (pfx : UInt32) (label : Int32) (n : ℕ) :
    ∀ (i : ℕ) (t : Node), t ≠ .null → i + n ≤ 32 →
      ∃ t' created, insertFrom pfx label i n t
          = some (t', created, (t.get (bitsFrom pfx i n)).isNone) ∧
        t' ≠ .null ∧ t'.card = t.card + created ∧
        ∀ k, t'.get k = if k = bitsFrom pfx i n then some label else t.get k := by
  induction n with
  | zero =>
    intro i t ht _
    -- at the end of the word the node itself is marked
    cases t with
    | null => exact absurd rfl ht
    | node children l hasPrefix =>
      refine ⟨.node children label true, 0, ?_, Node.noConfusion, rfl, fun k => ?_⟩
      · rw [insertFrom, bitsFrom_zero]
        cases hasPrefix <;> rfl
      · rw [bitsFrom_zero]
        cases k with
        | nil => rfl
        | cons c k => rw [if_neg (List.cons_ne_nil c k)]; rfl
  | succ n ih =>
    intro i t ht hi
    cases t with
    | null => exact absurd rfl ht
    | node children l hasPrefix =>
      have hbit := getBit_eq pfx i (by omega)
      obtain ⟨child, created, hens, hne, hget, hcard⟩ := (children (bit pfx i)).ensure_spec
      obtain ⟨child', created', hrec, hne', hcard', hget'⟩ := ih (i + 1) child hne (by omega)
      refine ⟨.node (Function.update children (bit pfx i) child') l hasPrefix,
        created + created', ?_, Node.noConfusion, ?_,
        Node.get_update (w := bitsFrom pfx (i + 1) n) fun k => ?_⟩
      · rw [insertFrom, hbit]
        simp only [Option.bind_eq_bind, Option.bind_some, hens, hrec, hget]
        rfl
      · have := Node.card_update children l hasPrefix (bit pfx i) child'
        omega
      · rw [hget' k, hget k]

/-! ## `remove` -/

/-- `remove` fails when nothing is stored under its word, and otherwise unmarks
that word only. -/
theorem removeFrom_spec (pfx : UInt32) (n : ℕ) :
    ∀ (i : ℕ) (t : Node), t ≠ .null → i + n ≤ 32 →
      (t.get (bitsFrom pfx i n) = none ∧ removeFrom pfx i n t = some none) ∨
        ((t.get (bitsFrom pfx i n)).isSome ∧ ∃ t', removeFrom pfx i n t = some (some t') ∧
          t' ≠ .null ∧ t'.card = t.card ∧
          ∀ k, t'.get k = if k = bitsFrom pfx i n then none else t.get k) := by
  induction n with
  | zero =>
    intro i t ht _
    cases t with
    | null => exact absurd rfl ht
    | node children l hasPrefix =>
      cases hasPrefix with
      | false => exact Or.inl ⟨rfl, rfl⟩
      | true =>
        refine Or.inr ⟨rfl, .node children (-1) false, rfl, Node.noConfusion, rfl, fun k => ?_⟩
        rw [bitsFrom_zero]
        cases k with
        | nil => rfl
        | cons c k => rw [if_neg (List.cons_ne_nil c k)]; rfl
  | succ n ih =>
    intro i t ht hi
    cases t with
    | null => exact absurd rfl ht
    | node children l hasPrefix =>
      have hbit := getBit_eq pfx i (by omega)
      have hword : (Node.node children l hasPrefix).get (bitsFrom pfx i (n + 1))
          = (children (bit pfx i)).get (bitsFrom pfx (i + 1) n) := rfl
      rw [removeFrom, hbit, hword]
      simp only [Option.bind_eq_bind, Option.bind_some]
      -- without a child nothing is stored under the word
      cases hc : children (bit pfx i) with
      | null => exact Or.inl ⟨rfl, rfl⟩
      | node ch l' h' =>
        have hne : children (bit pfx i) ≠ .null := by
          rw [hc]
          exact Node.noConfusion
        rw [← hc]
        rcases ih (i + 1) _ hne (by omega) with ⟨hnone, hrec⟩ | ⟨hsome, child', hrec, -, hcard, hget⟩
        · refine Or.inl ⟨hnone, ?_⟩
          simp only [hrec]
          rfl
        · refine Or.inr ⟨hsome, .node (Function.update children (bit pfx i) child') l hasPrefix,
            ?_, Node.noConfusion, ?_, Node.get_update hget⟩
          · simp only [hrec]
            rfl
          · have := Node.card_update children l hasPrefix (bit pfx i) child'
            omega

/-! ## `lookup` -/

/-- The loop of `lookup` finds the longest match in the subtree, and falls back
on the best label so far. -/
theorem lookupFrom_spec (ip : UInt32) (n : ℕ) :
    ∀ (i : ℕ) (t : Node), t ≠ .null → i + n ≤ 32 →
      ∃ o, IsLongestMatch t.get (bitsFrom ip i n) o ∧
        ∀ best, lookupFrom ip i n t ((t.get []).getD best) = some (o.getD best) := by
  induction n with
  | zero =>
    intro i t ht _
    refine ⟨t.get [], isLongestMatch_nil t.get, fun best => ?_⟩
    cases t with
    | null => exact absurd rfl ht
    | node children l hasPrefix => rfl
  | succ n ih =>
    intro i t ht hi
    cases t with
    | null => exact absurd rfl ht
    | node children l hasPrefix =>
      have hbit := getBit_eq ip i (by omega)
      rw [bitsFrom_succ]
      -- the word goes on in the child of its first bit
      suffices hchild : ∃ o, IsLongestMatch (children (bit ip i)).get (bitsFrom ip (i + 1) n) o ∧
          ∀ best, lookupFrom ip i (n + 1) (.node children l hasPrefix) best
            = some (o.getD best) by
        obtain ⟨o, hmatch, hloop⟩ := hchild
        refine ⟨_, isLongestMatch_cons hmatch, fun best => ?_⟩
        rw [hloop]
        cases o <;> rfl
      cases hc : children (bit ip i) with
      | null =>
        refine ⟨none, isLongestMatch_empty _, fun best => ?_⟩
        rw [lookupFrom, hbit]
        simp only [Option.bind_eq_bind, Option.bind_some, hc]
        rfl
      | node ch l' h' =>
        obtain ⟨o, hmatch, hloop⟩ := ih (i + 1) (.node ch l' h') Node.noConfusion (by omega)
        refine ⟨o, hmatch, fun best => ?_⟩
        have hbest := Node.best_eq (t := .node ch l' h') Node.noConfusion best
        rw [lookupFrom, hbit]
        simp only [Option.bind_eq_bind, Option.bind_some, hc, hbest]
        exact hloop best

/-! ## The abstract map -/

/-- Words of bits with their labels. -/
abbrev Table := Map (List Bool) Int32

/-- The key of `(prefix, len)`. -/
def key (pfx : UInt32) (prefixLen : UInt8) : List Bool := bits pfx prefixLen.toNat

/-- `insert` overwrites; `remove` answers whether the key is present and deletes
only it. -/
def Table.apply (m : Table) : Op → Table × Option Bool
  | .insert pfx len label => (Finmap.insert (key pfx len) label m, none)
  | .remove pfx len => (Finmap.erase (key pfx len) m, some (decide (key pfx len ∈ m)))

/-- A sequence of calls on the map. -/
def Table.run : List Op → Table → Table × List (Option Bool)
  | [], m => (m, [])
  | op :: ops, m => ((run ops (m.apply op).1).1, (m.apply op).2 :: (run ops (m.apply op).1).2)

/-- The call passes a prefix length of an IPv4 address. -/
def Op.Valid : Op → Prop
  | .insert _ len _ => len ≤ 32
  | .remove _ len => len ≤ 32

instance (op : Op) : Decidable op.Valid := by
  cases op <;> exact inferInstanceAs (Decidable (_ ≤ _))

/-- The trie stores the map, and its two counters are right. -/
structure Refines (t : LPMTrie) (m : Table) : Prop where
  root_ne : t.root ≠ .null
  get_eq : ∀ k, t.root.get k = m.lookup k
  count_eq : t.count = m.keys.card
  nodeCount_eq : t.nodeCount = t.root.card

theorem refines_empty : Refines empty ∅ where
  root_ne := Node.noConfusion
  get_eq := fun k => Node.get_fresh k
  count_eq := rfl
  nodeCount_eq := rfl

theorem refines_insert {t : LPMTrie} {m : Table} (h : Refines t m) (pfx : UInt32) {len : UInt8}
    (hlen : len ≤ 32) (label : Int32) :
    ∃ t', t.insert pfx len label = some t' ∧
      Refines t' (Finmap.insert (key pfx len) label m) := by
  have hlen' : 0 + len.toNat ≤ 32 := by
    rw [zero_add]
    exact UInt8.le_iff_toNat_le.mp hlen
  obtain ⟨root, created, hrun, hne, hcard, hget⟩ :=
    insertFrom_spec pfx label len.toNat 0 t.root h.root_ne hlen'
  rw [h.get_eq] at hrun
  refine ⟨_, by rw [insert, hrun]; rfl, hne, fun k => ?_, ?_, ?_⟩
  · show root.get k = _
    rw [lookup_insert_eq, ← h.get_eq]
    exact hget k
  · show (if _ then t.count + 1 else t.count) = _
    rw [keys_insert, h.count_eq]
    by_cases hmem : key pfx len ∈ m
    · rw [Finset.insert_eq_of_mem (Finmap.mem_keys.mpr hmem), if_neg]
      rw [Option.isNone_iff_eq_none, Finmap.lookup_eq_none]
      exact not_not.mpr hmem
    · rw [Finset.card_insert_of_notMem (fun hk => hmem (Finmap.mem_keys.mp hk)), if_pos]
      rw [Option.isNone_iff_eq_none, Finmap.lookup_eq_none]
      exact hmem
  · show t.nodeCount + created = root.card
    rw [hcard, h.nodeCount_eq]

theorem refines_remove {t : LPMTrie} {m : Table} (h : Refines t m) (pfx : UInt32) {len : UInt8}
    (hlen : len ≤ 32) :
    ∃ t', t.remove pfx len = some (t', decide (key pfx len ∈ m)) ∧
      Refines t' (Finmap.erase (key pfx len) m) := by
  have hlen' : 0 + len.toNat ≤ 32 := by
    rw [zero_add]
    exact UInt8.le_iff_toNat_le.mp hlen
  rcases removeFrom_spec pfx len.toNat 0 t.root h.root_ne hlen' with
    ⟨hnone, hrun⟩ | ⟨hsome, root, hrun, hne, hcard, hget⟩
  · have hmem : key pfx len ∉ m := by
      rw [← Finmap.lookup_eq_none, ← h.get_eq]
      exact hnone
    refine ⟨t, ?_, ?_⟩
    · rw [remove, hrun, decide_eq_false hmem]
      rfl
    -- there is nothing to erase
    · have herase : Finmap.erase (key pfx len) m = m := by
        refine Finmap.ext_lookup fun k => ?_
        rw [lookup_erase_eq]
        by_cases hk : k = key pfx len
        · rw [if_pos hk, hk, Finmap.lookup_eq_none.mpr hmem]
        · rw [if_neg hk]
      rwa [herase]
  · have hmem : key pfx len ∈ m := by
      rw [← Finmap.lookup_isSome, ← h.get_eq]
      exact hsome
    refine ⟨{ t with root := root, count := t.count - 1 }, ?_, hne, fun k => ?_, ?_, ?_⟩
    · rw [remove, hrun, decide_eq_true hmem]
      rfl
    · rw [lookup_erase_eq, ← h.get_eq]
      exact hget k
    · show t.count - 1 = _
      rw [Finmap.keys_erase, Finset.card_erase_of_mem (Finmap.mem_keys.mpr hmem), h.count_eq]
    · exact h.nodeCount_eq.trans hcard.symm

/-- **One call** keeps the refinement and returns what the map says. -/
theorem refines_apply {t : LPMTrie} {m : Table} (h : Refines t m) {op : Op} (hop : op.Valid) :
    ∃ t', t.apply op = some (t', (m.apply op).2) ∧ Refines t' (m.apply op).1 := by
  cases op with
  | insert pfx len label =>
    obtain ⟨t', hrun, ht'⟩ := refines_insert h pfx hop label
    exact ⟨t', by rw [apply, hrun]; rfl, ht'⟩
  | remove pfx len =>
    obtain ⟨t', hrun, ht'⟩ := refines_remove h pfx hop
    exact ⟨t', by rw [apply, hrun]; rfl, ht'⟩

/-- **Any sequence of calls** keeps the refinement. -/
theorem refines_run {ops : List Op} (hops : ∀ op ∈ ops, op.Valid) :
    ∀ {t : LPMTrie} {m : Table}, Refines t m →
      ∃ t', run ops t = some (t', (m.run ops).2) ∧ Refines t' (m.run ops).1 := by
  induction ops with
  | nil => intro t m h; exact ⟨t, rfl, h⟩
  | cons op ops ih =>
    intro t m h
    obtain ⟨t', hrun, h'⟩ := refines_apply h (hops op List.mem_cons_self)
    obtain ⟨t'', hrun', h''⟩ := ih (fun o ho => hops o (List.mem_cons_of_mem op ho)) h'
    exact ⟨t'', by rw [run, hrun]; simp only [Option.bind_eq_bind, Option.bind_some, hrun']; rfl, h''⟩

/-- `lookup` returns the label of the longest matching key, or `-1`. -/
theorem lookup_spec {t : LPMTrie} {m : Table} (h : Refines t m) (ip : UInt32) :
    ∃ o, IsLongestMatch m.lookup (bits ip 32) o ∧ t.lookup ip = some (o.getD (-1)) := by
  obtain ⟨o, hmatch, hloop⟩ := lookupFrom_spec ip 32 0 t.root h.root_ne le_rfl
  have hget : t.root.get = m.lookup := funext h.get_eq
  refine ⟨o, hget ▸ hmatch, ?_⟩
  rw [lookup, Node.best_eq h.root_ne]
  exact hloop (-1)

/-- **The trie refines the map**: after any sequence of calls with prefix lengths
up to 32, every `remove` has answered as the map does, `size()` is the number of
keys, and every address gets the label of its longest matching key. -/
theorem run_refines (ops : List Op) (hops : ∀ op ∈ ops, op.Valid) :
    ∃ t, run ops empty = some (t, (Table.run ops ∅).2) ∧
      t.size = (Table.run ops ∅).1.keys.card ∧
      ∀ ip, ∃ o, IsLongestMatch (Table.run ops ∅).1.lookup (bits ip 32) o ∧
        t.lookup ip = some (o.getD (-1)) := by
  obtain ⟨t, hrun, h⟩ := refines_run hops refines_empty
  exact ⟨t, hrun, h.count_eq, lookup_spec h⟩

/-- A `/16` inside a `/8`, removed again. -/
theorem run_refines_nested :
    ∃ t, run [.insert 0x0A000000 8 1, .insert 0x0AF40000 16 2, .remove 0x0AF4FFFF 16] empty
        = some (t, [none, none, some true]) ∧ t.size = 1 := by
  obtain ⟨t, hrun, hsize, -⟩ := run_refines
    [.insert 0x0A000000 8 1, .insert 0x0AF40000 16 2, .remove 0x0AF4FFFF 16] (by decide)
  exact ⟨t, hrun.trans (congrArg (fun o => some (t, o)) (by decide)), hsize.trans (by decide)⟩

end LPMTrie
