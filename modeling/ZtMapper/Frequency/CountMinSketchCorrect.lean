/-
# What a `CountMinSketch` estimates

A cell holds, modulo `2^64`, how many of the recorded keys have its column in
its row (`stores_run`); an estimate is the least of the cells of a key
(`estimate_spec`).  Below `2^64` records that is the least number of colliding
occurrences, which is at least the frequency of the key (`estimate_collisions`).
-/
import ZtMapper.Frequency.CountMinSketch
import Mathlib.Algebra.BigOperators.Group.Finset.Basic
import Mathlib.Algebra.Order.BigOperators.Group.Finset
import Mathlib.Order.Bounds.Defs

namespace Frequency

namespace CountMinSketch

/-! ## Tables -/

/-- The table with `f i j` in row `i` and column `j`. -/
def tableOf (depth width : ℕ) (f : ℕ → ℕ → UInt64) : List (List UInt64) :=
  (List.range depth).map fun i => (List.range width).map (f i)

variable {depth width : ℕ} {f : ℕ → ℕ → UInt64}

/-- A row of a tabulated function. -/
theorem row_tableOf {i : ℕ} (hi : i < depth) :
    (tableOf depth width f)[i]? = some ((List.range width).map (f i)) := by
  rw [tableOf, List.getElem?_map, List.getElem?_range hi]
  rfl

/-- A cell of a tabulated function. -/
theorem cell_tableOf {i j : ℕ} (hi : i < depth) (hj : j < width) :
    cell (tableOf depth width f) i j = some (f i j) := by
  rw [cell, row_tableOf hi, Option.bind_some, List.getElem?_map, List.getElem?_range hj]
  rfl

/-- Setting one cell of a tabulated row. -/
theorem set_map_range {α : Type*} (g : ℕ → α) (n i : ℕ) (a : α) :
    ((List.range n).map g).set i a = (List.range n).map fun j => if j = i then a else g j := by
  refine List.ext_getElem (by simp) fun j _ _ => ?_
  rw [List.getElem_set, List.getElem_map, List.getElem_map, List.getElem_range]
  simp only [eq_comm]

/-- Incrementing one cell. -/
theorem bump_tableOf {i j : ℕ} (hi : i < depth) (hj : j < width) :
    bump (tableOf depth width f) i j
      = some (tableOf depth width fun i' j' => if i' = i ∧ j' = j then f i' j' + 1 else f i' j') := by
  have hcell : ((List.range width).map (f i))[j]? = some (f i j) := by
    rw [List.getElem?_map, List.getElem?_range hj]
    rfl
  rw [bump, row_tableOf hi]
  simp only [Option.bind_eq_bind, Option.bind_some, hcell]
  show some _ = some _
  rw [tableOf, set_map_range, tableOf]
  congr 1
  refine List.map_congr_left fun i' _ => ?_
  by_cases hi' : i' = i
  · rw [if_pos hi', hi', set_map_range]
    refine List.map_congr_left fun j' _ => ?_
    by_cases hj' : j' = j
    · rw [if_pos hj', if_pos ⟨rfl, hj'⟩, hj']
    · rw [if_neg hj', if_neg (fun h => hj' h.2)]
  · rw [if_neg hi']
    refine List.map_congr_left fun j' _ => ?_
    rw [if_neg (fun h => hi' h.1)]

/-- The loop of `record` over the first `n` rows, for a key with column `j i` in
row `i`. -/
theorem foldlM_bump {col : ℕ → Option ℕ} {j : ℕ → ℕ}
    (hcol : ∀ i < depth, col i = some (j i) ∧ j i < width) (n : ℕ) (hn : n ≤ depth) :
    (List.range n).foldlM (fun table i => do bump table i (← col i)) (tableOf depth width f)
      = some (tableOf depth width fun i j' => if i < n ∧ j' = j i then f i j' + 1 else f i j') := by
  induction n with
  | zero => simp
  | succ n ih =>
    obtain ⟨hcoln, hj⟩ := hcol n (by omega)
    rw [List.range_succ, List.foldlM_append, ih (by omega)]
    simp only [Option.bind_eq_bind, Option.bind_some, List.foldlM_cons, List.foldlM_nil, hcoln]
    rw [bump_tableOf (by omega) hj, Option.bind_some]
    show some _ = some _
    congr 2
    funext i j'
    -- row `n` is new, the rows before it have been visited
    by_cases hi : i = n
    · subst hi
      simp
    · have hlt : i < n + 1 ↔ i < n := by omega
      simp [hi, hlt]

/-- `std::min` is below both arguments. -/
theorem stdMin_le (a b : UInt64) : stdMin a b ≤ a ∧ stdMin a b ≤ b := by
  unfold stdMin
  split_ifs with h
  · exact ⟨UInt64.le_of_lt h, UInt64.le_refl b⟩
  · exact ⟨UInt64.le_refl a, UInt64.not_lt.mp h⟩

/-- `std::min` is one of its arguments. -/
theorem stdMin_eq_or (a b : UInt64) : stdMin a b = a ∨ stdMin a b = b := by
  unfold stdMin
  split_ifs with h
  · exact Or.inr rfl
  · exact Or.inl rfl

/-- The loop of `estimate` over the first `n` rows takes the minimum. -/
theorem foldlM_stdMin {g : ℕ → Option UInt64} {v : ℕ → UInt64} (n : ℕ)
    (hg : ∀ i < n, g i = some (v i)) (init : UInt64) :
    ∃ e, (List.range n).foldlM (fun minVal i => do return stdMin minVal (← g i)) init = some e ∧
      (∀ i < n, e ≤ v i) ∧ (e = init ∨ ∃ i < n, e = v i) := by
  induction n with
  | zero => exact ⟨init, rfl, by simp, Or.inl rfl⟩
  | succ n ih =>
    obtain ⟨e, he, hle, hmem⟩ := ih fun i hi => hg i (by omega)
    obtain ⟨hmin, hminv⟩ := stdMin_le e (v n)
    refine ⟨stdMin e (v n), ?_, fun i hi => ?_, ?_⟩
    · rw [List.range_succ, List.foldlM_append, he]
      simp [hg n (Nat.lt_succ_self n)]
    · rcases Nat.lt_succ_iff_lt_or_eq.mp hi with hi | rfl
      · exact UInt64.le_trans hmin (hle i hi)
      · exact hminv
    · rcases stdMin_eq_or e (v n) with h | h
      · rw [h]
        exact hmem.imp_right fun ⟨i, hi, hv⟩ => ⟨i, by omega, hv⟩
      · exact Or.inr ⟨n, Nat.lt_succ_self n, h⟩

/-! ## The cells count collisions -/

/-- The column of `key` in row `i`. -/
def column (width : UInt32) (i : ℕ) (key : Key) : ℕ := (hash key (seed i) % width).toNat

/-- The hash is taken modulo the width. -/
theorem column_lt {width : UInt32} (hw : 1 ≤ width) (i : ℕ) (key : Key) :
    column width i key < width.toNat := by
  rw [column, UInt32.toNat_mod]
  exact Nat.mod_lt _ (UInt32.le_iff_toNat_le.mp hw)

/-- The number of records in `s` with column `j` in row `i`. -/
def load (width : UInt32) (s : List Key) (i j : ℕ) : ℕ :=
  s.countP fun y => decide (column width i y = j)

/-- One more record adds one to its column. -/
theorem load_append (width : UInt32) (s : List Key) (x : Key) (i j : ℕ) :
    load width (s ++ [x]) i j = load width s i j + if column width i x = j then 1 else 0 := by
  rw [load, List.countP_append, List.countP_singleton]
  simp only [decide_eq_true_iff]
  rfl

/-- The table after the stream `s`. -/
def tableAfter (width depth : UInt32) (s : List Key) : List (List UInt64) :=
  tableOf depth.toNat width.toNat fun i j => UInt64.ofNat (load width s i j)

/-- The sketch has its seeds, and the table of the stream `s`. -/
structure Stores (c : CountMinSketch) (s : List Key) : Prop where
  seeds_eq : c.seeds = (List.range c.depth.toNat).map seed
  table_eq : c.table = tableAfter c.width c.depth s

/-- The zero table. -/
theorem tableOf_zero (depth width : ℕ) :
    tableOf depth width (fun _ _ => 0) = List.replicate depth (List.replicate width 0) := by
  unfold tableOf
  rw [List.map_const', List.map_const', List.length_range, List.length_range]

/-- A new sketch stores nothing. -/
theorem stores_create (width depth : UInt32) : (create width depth).Stores [] where
  seeds_eq := rfl
  table_eq := (tableOf_zero depth.toNat width.toNat).symm

/-- A reset sketch stores nothing. -/
theorem stores_reset {c : CountMinSketch} {s : List Key} (h : c.Stores s) : c.reset.Stores [] where
  seeds_eq := h.seeds_eq
  table_eq := by
    unfold reset
    dsimp only
    rw [h.table_eq, tableAfter, tableOf, List.map_map]
    refine List.map_congr_left fun i _ => ?_
    rw [Function.comp_apply, List.map_map]
    rfl

/-- The column looked up is that of the key. -/
theorem col_eq {c : CountMinSketch} {s : List Key} (h : c.Stores s) (hw : 1 ≤ c.width) (key : Key)
    {i : ℕ} (hi : i < c.depth.toNat) : c.col key i = some (column c.width i key) := by
  have hne : c.width ≠ 0 := by
    intro h0
    rw [h0] at hw
    exact absurd hw (by decide)
  rw [col, h.seeds_eq, List.getElem?_map, List.getElem?_range hi]
  exact if_neg hne

/-- **One record** adds one to the load of the column of the key in every row. -/
theorem stores_record {c : CountMinSketch} {s : List Key} (h : c.Stores s) (hw : 1 ≤ c.width)
    (x : Key) : ∃ c', c.record x = some c' ∧ c'.Stores (s ++ [x]) ∧
      c'.width = c.width ∧ c'.depth = c.depth := by
  have hloop := foldlM_bump (f := fun i j => UInt64.ofNat (load c.width s i j))
    (fun i hi => ⟨col_eq h hw x hi, column_lt hw i x⟩) c.depth.toNat le_rfl
  have htable : (tableOf c.depth.toNat c.width.toNat fun i j =>
        if i < c.depth.toNat ∧ j = column c.width i x then UInt64.ofNat (load c.width s i j) + 1
        else UInt64.ofNat (load c.width s i j))
      = tableAfter c.width c.depth (s ++ [x]) := by
    refine List.map_congr_left fun i hi => List.map_congr_left fun j _ => ?_
    beta_reduce
    rw [load_append]
    by_cases hj : j = column c.width i x
    · rw [if_pos ⟨List.mem_range.mp hi, hj⟩, if_pos hj.symm, UInt64.ofNat_add]
      rfl
    · rw [if_neg (fun h => hj h.2), if_neg (fun h => hj h.symm)]
      rfl
  refine ⟨{ c with table := tableAfter c.width c.depth (s ++ [x]) }, ?_, ⟨h.seeds_eq, rfl⟩, rfl, rfl⟩
  rw [record, h.table_eq, tableAfter, hloop, htable]
  rfl

/-- An estimate is at most the cells of the key, and is one of them or the
initial value. -/
theorem estimate_cases {c : CountMinSketch} {s : List Key} (h : c.Stores s) (hw : 1 ≤ c.width)
    (x : Key) :
    ∃ e, c.estimate x = some e ∧
      (∀ i < c.depth.toNat, e ≤ UInt64.ofNat (load c.width s i (column c.width i x))) ∧
      (e = uint64Max ∨
        ∃ i < c.depth.toNat, e = UInt64.ofNat (load c.width s i (column c.width i x))) := by
  have hg : ∀ i < c.depth.toNat, ((c.col x i).bind fun col => cell c.table i col)
      = some (UInt64.ofNat (load c.width s i (column c.width i x))) := by
    intro i hi
    rw [col_eq h hw x hi, Option.bind_some, h.table_eq, tableAfter,
      cell_tableOf hi (column_lt hw i x)]
  obtain ⟨e, he, hle, hmem⟩ := foldlM_stdMin c.depth.toNat hg uint64Max
  refine ⟨e, ?_, hle, hmem⟩
  rw [estimate, ← he]
  congr 1
  funext minVal i
  cases c.col x i <;> rfl

/-- **An estimate** is the least load, modulo `2^64`, of the columns of the key. -/
theorem estimate_spec {c : CountMinSketch} {s : List Key} (h : c.Stores s) (hw : 1 ≤ c.width)
    (hd : 1 ≤ c.depth) (x : Key) :
    ∃ e, c.estimate x = some e ∧
      (∀ i < c.depth.toNat, e ≤ UInt64.ofNat (load c.width s i (column c.width i x))) ∧
      ∃ i < c.depth.toNat, e = UInt64.ofNat (load c.width s i (column c.width i x)) := by
  obtain ⟨e, he, hle, hmem⟩ := estimate_cases h hw x
  refine ⟨e, he, hle, ?_⟩
  rcases hmem with rfl | hmem
  · -- the initial value survives only if the cells are as large
    have hpos : 0 < c.depth.toNat := UInt32.le_iff_toNat_le.mp hd
    refine ⟨0, hpos, UInt64.le_antisymm (hle 0 hpos) ?_⟩
    rw [UInt64.le_iff_toNat_le]
    exact Nat.le_sub_one_of_lt (UInt64.toNat_lt _)
  · exact hmem

/-! ## Runs -/

/-- A run grows by one call. -/
theorem run_append (c : CountMinSketch) (calls : List Call) (call : Call) :
    c.run (calls ++ [call]) = (c.run calls).bind fun c => c.apply call := by
  rw [run, List.foldlM_append]
  cases h : calls.foldlM apply c with
  | none => rw [run, h]; rfl
  | some c' =>
    rw [run, h]
    simp

/-- **The whole run**: the sketch stores the stream since the last reset. -/
theorem stores_run {width : UInt32} (hw : 1 ≤ width) (depth : UInt32) (calls : List Call) :
    ∃ c, (create width depth).run calls = some c ∧ c.Stores (sinceReset calls) ∧
      c.width = width ∧ c.depth = depth := by
  induction calls using List.reverseRecOn with
  | nil => exact ⟨_, rfl, stores_create width depth, rfl, rfl⟩
  | append_singleton calls call ih =>
    obtain ⟨c, hrun, hs, hwidth, hdepth⟩ := ih
    rw [run_append, hrun, Option.bind_some, sinceReset_append]
    cases call with
    | record x =>
      obtain ⟨c', hrec, hs', hwidth', hdepth'⟩ := stores_record hs (hwidth ▸ hw) x
      exact ⟨c', hrec, hs', hwidth'.trans hwidth, hdepth'.trans hdepth⟩
    | reset => exact ⟨c.reset, rfl, stores_reset hs, hwidth, hdepth⟩

/-! ## Loads as collisions -/

/-- A cell counts records of the stream only. -/
theorem load_le_length (width : UInt32) (s : List Key) (i j : ℕ) : load width s i j ≤ s.length :=
  List.countP_le_length

/-- A key is among those that have its column. -/
theorem count_le_load (width : UInt32) (s : List Key) (i : ℕ) (x : Key) :
    s.count x ≤ load width s i (column width i x) := by
  refine List.countP_mono_left fun y _ hy => ?_
  rw [beq_iff_eq.mp hy]
  exact decide_eq_true rfl

/-- The load of a column is the sum of the frequencies of the keys that have it. -/
theorem load_eq_sum (width : UInt32) (s : List Key) (i j : ℕ) :
    load width s i j = ∑ y ∈ s.toFinset with column width i y = j, s.count y := by
  rw [load, List.countP_eq_length_filter, ← List.sum_toFinset_count_eq_length, List.toFinset_filter]
  refine Finset.sum_congr ?_ fun y hy => ?_
  · simp only [decide_eq_true_eq]
  · rw [Finset.mem_filter] at hy
    rw [← count_coe, Multiset.coe_count]
    exact @List.count_filter _ instBEqOfDecidableEq _ _ _ _ (decide_eq_true hy.2)

/-- The order of the records does not matter to a cell. -/
theorem load_perm {s s' : List Key} (h : s'.Perm s) (width : UInt32) (i j : ℕ) :
    load width s' i j = load width s i j :=
  h.countP_eq _

/-- Two streams with the same keys leave the same sketch. -/
theorem Stores.eq_of_perm {c c' : CountMinSketch} {s s' : List Key} (h : c.Stores s)
    (h' : c'.Stores s') (hperm : s'.Perm s) (hwidth : c'.width = c.width)
    (hdepth : c'.depth = c.depth) : c' = c := by
  have htable : c'.table = c.table := by
    rw [h.table_eq, h'.table_eq, hwidth, hdepth, tableAfter, tableAfter]
    simp only [load_perm hperm]
  have hseeds : c'.seeds = c.seeds := by
    rw [h.seeds_eq, h'.seeds_eq, hdepth]
  cases c
  cases c'
  simp_all

/-- **Below `2^64` records** an estimate is the least, over the rows, of the number
of records that collide with the key.  So it is at least the frequency of the
key, at most the length of the stream, and blind to the order of the stream. -/
theorem estimate_collisions (width depth : UInt32) (hw : 1 ≤ width) (hd : 1 ≤ depth)
    (calls : List Call) (hlen : (sinceReset calls).length < 2 ^ 64) (x : Key) :
    ∃ c e, (create width depth).run calls = some c ∧ c.estimate x = some e ∧
      IsLeast {n | ∃ i < depth.toNat, n = ∑ y ∈ (sinceReset calls).toFinset with
          column width i y = column width i x, (sinceReset calls).count y} e.toNat ∧
      (sinceReset calls).count x ≤ e.toNat ∧ e.toNat ≤ (sinceReset calls).length ∧
      ∀ calls', (sinceReset calls').Perm (sinceReset calls) →
        ∃ c', (create width depth).run calls' = some c' ∧ c'.estimate x = some e := by
  obtain ⟨c, hrun, hs, hwidth, hdepth⟩ := stores_run hw depth calls
  obtain ⟨e, he, hle, i, hi, hei⟩ := estimate_spec hs (hwidth ▸ hw) (hdepth ▸ hd) x
  rw [hwidth, hdepth] at hle
  rw [hwidth] at hei
  rw [hdepth] at hi
  have hload : ∀ i j, (UInt64.ofNat (load width (sinceReset calls) i j)).toNat
      = load width (sinceReset calls) i j := fun i j =>
    UInt64.toNat_ofNat_of_lt' (lt_of_le_of_lt (load_le_length width _ i j) hlen)
  -- the estimate is the smallest counter, and a counter is the load of its column
  refine ⟨c, e, hrun, he, ⟨⟨i, hi, ?_⟩, ?_⟩, ?_, ?_, fun calls' hperm => ?_⟩
  · rw [hei, hload, load_eq_sum]
  · rintro n ⟨i', hi', rfl⟩
    rw [← load_eq_sum, ← hload]
    exact UInt64.le_iff_toNat_le.mp (hle i' hi')
  · rw [hei, hload]
    exact count_le_load width _ i x
  · rw [hei, hload]
    exact load_le_length width _ i _
  · obtain ⟨c', hrun', hs', hwidth', hdepth'⟩ := stores_run hw depth calls'
    rw [hs.eq_of_perm hs' hperm (hwidth'.trans hwidth.symm) (hdepth'.trans hdepth.symm)] at hrun'
    exact ⟨c, hrun', he⟩

/-- Three records in a sketch of two rows. -/
theorem estimate_collisions_small :
    ∃ c e, (create 4 2).run [.record [1], .record [2], .record [1]] = some c ∧
      c.estimate [1] = some e ∧ 2 ≤ e.toNat ∧ e.toNat ≤ 3 := by
  obtain ⟨c, e, hrun, he, -, hcount, hlen, -⟩ := estimate_collisions 4 2 (by decide) (by decide)
    [.record [1], .record [2], .record [1]] (by decide) [1]
  exact ⟨c, e, hrun, he, hcount, hlen⟩

end CountMinSketch

end Frequency
