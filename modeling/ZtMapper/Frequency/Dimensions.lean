/-
# Sketches of different dimensions

A key is overestimated when every row of the sketch has another key in its
column, and answered exactly when it is alone in some row.  For any two
dimensions of which one is `2048 × 5` there are keys that crowd one key in one
sketch and leave it alone in the other (`exists_crowd`).
-/
import ZtMapper.Frequency.Estimator
import Mathlib.Data.Int.ModEq
import Mathlib.Data.Nat.Prime.Basic

namespace Frequency

open CountMinSketch Estimator

/-- None of the keys `ys` has the column of `x` in row `i`. -/
def Apart (width : UInt32) (i : ℕ) (ys : List UInt32) (x : UInt32) : Prop :=
  ∀ y ∈ ys, column width i (u32Bytes y) ≠ column width i (u32Bytes x)

/-- In every row one of the keys `ys` has the column of `x`. -/
def Crowded (width depth : UInt32) (ys : List UInt32) (x : UInt32) : Prop :=
  ∀ i < depth.toNat, ∃ y ∈ ys, column width i (u32Bytes y) = column width i (u32Bytes x)

/-- In some row none of the keys `ys` has the column of `x`. -/
def Alone (width depth : UInt32) (ys : List UInt32) (x : UInt32) : Prop :=
  ∃ i < depth.toNat, Apart width i ys x

instance (width : UInt32) (i : ℕ) (ys : List UInt32) (x : UInt32) :
    Decidable (Apart width i ys x) :=
  List.decidableBAll _ ys

instance (width depth : UInt32) (ys : List UInt32) (x : UInt32) :
    Decidable (Crowded width depth ys x) :=
  @Nat.decidableBallLT _ _ fun _ _ => List.decidableBEx _ ys

/-- Every key of `ys` `n` times, then `x`. -/
def crowd (n : ℕ) (ys : List UInt32) (x : UInt32) : List UInt32 :=
  ys.flatMap (List.replicate n) ++ [x]

variable {width depth : UInt32} {ys : List UInt32} {x : UInt32}

theorem Alone.ne (h : Alone width depth ys x) : ∀ y ∈ ys, y ≠ x := by
  obtain ⟨i, -, hcol⟩ := h
  rintro y hy rfl
  exact hcol y hy rfl

theorem length_crowd (n : ℕ) (ys : List UInt32) (x : UInt32) :
    (crowd n ys x).length = ys.length * n + 1 := by
  rw [crowd, List.length_append, List.length_singleton, List.length_flatMap]
  simp [List.map_const']

theorem countP_crowd (p : UInt32 → Bool) (n : ℕ) (ys : List UInt32) {x : UInt32} (hx : p x = true) :
    (crowd n ys x).countP p = n * ys.countP p + 1 := by
  rw [crowd, List.countP_append, List.countP_singleton, if_pos hx]
  congr 1
  induction ys with
  | nil => rfl
  | cons y ys ih =>
    rw [List.flatMap_cons, List.countP_append, ih, List.countP_replicate, List.countP_cons,
      Nat.mul_add, Nat.add_comm]
    split <;> simp

/-- The load of the column of `x`. -/
theorem load_crowd (width : UInt32) (n : ℕ) (ys : List UInt32) (x : UInt32) (i : ℕ) :
    load width ((crowd n ys x).map u32Bytes) i (column width i (u32Bytes x))
      = n * (ys.countP fun y => column width i (u32Bytes y) = column width i (u32Bytes x)) + 1 := by
  rw [load, List.countP_map]
  exact countP_crowd (fun y => column width i (u32Bytes y) = column width i (u32Bytes x)) n ys
    (decide_eq_true rfl)

/-- **A crowded key is overestimated.** -/
theorem lt_estimateAfter_crowd (hw : 1 ≤ width) (hd : 1 ≤ depth) (h : Crowded width depth ys x)
    {n : ℕ} (hlen : ys.length * n + 1 < 2 ^ 64) :
    n < (countMinSketch (.create width depth)).estimateAfter (crowd n ys x) x := by
  obtain ⟨-, i, hi, hcell⟩ := estimateAfter_cells hw hd (crowd n ys x) x
  have hload := load_le_length width ((crowd n ys x).map u32Bytes) i (column width i (u32Bytes x))
  rw [List.length_map, length_crowd] at hload
  rw [hcell, Nat.mod_eq_of_lt (lt_of_le_of_lt hload hlen), load_crowd]
  obtain ⟨y, hy, hcol⟩ := h i hi
  have hpos : 0 < ys.countP fun y => column width i (u32Bytes y) = column width i (u32Bytes x) :=
    List.countP_pos_iff.mpr ⟨y, hy, decide_eq_true hcol⟩
  exact Nat.lt_succ_of_le (Nat.le_mul_of_pos_right n hpos)

/-- **A key that is alone is answered exactly.** -/
theorem estimateAfter_crowd (hw : 1 ≤ width) (hd : 1 ≤ depth) (h : Alone width depth ys x)
    {n : ℕ} (hlen : ys.length * n + 1 < 2 ^ 64) :
    (countMinSketch (.create width depth)).estimateAfter (crowd n ys x) x = 1 := by
  obtain ⟨i, hi, hcol⟩ := h
  apply Nat.le_antisymm
  · have hcell := (estimateAfter_cells hw hd (crowd n ys x) x).1 i hi
    have hnone : (ys.countP fun y => column width i (u32Bytes y) = column width i (u32Bytes x)) = 0 :=
      List.countP_eq_zero.mpr fun y hy heq => hcol y hy (of_decide_eq_true heq)
    rwa [load_crowd, hnone, Nat.mul_zero] at hcell
  · have hcount := (estimateAfter_countMinSketch hw hd
      (lt_of_eq_of_lt (length_crowd n ys x) hlen) x).1
    refine le_trans ?_ hcount
    exact List.one_le_count_iff.mpr (List.mem_append_right _ List.mem_cons_self)

/-! ## Telling two dimensions apart -/

/-- The hash of an address in row `i`. -/
def hashOf (i : ℕ) (x : UInt32) : ℕ := (hash (u32Bytes x) (seed i)).toNat

theorem column_eq (width : UInt32) (i : ℕ) (x : UInt32) :
    column width i (u32Bytes x) = hashOf i x % width.toNat :=
  UInt32.toNat_mod _ _

/-- The partners of the key `1`: two keys that have its column in row `i` of width `2048`. -/
def partners : ℕ → UInt32 × UInt32
  | 0 => (1472, 3793)
  | 1 => (4238, 7059)
  | 2 => (761, 2332)
  | 3 => (2446, 4281)
  | _ => (285, 482)

/-- The partner that does not have the column of the key `1` in the first row, for a
width that does not divide `2048`. -/
def partner (width : UInt32) (i : ℕ) : UInt32 :=
  if column width 0 (u32Bytes (partners i).1) = column width 0 (u32Bytes 1) then (partners i).2
  else (partners i).1

theorem column_partner (width : UInt32) :
    ∀ i < 5, column 2048 i (u32Bytes (partner width i)) = column 2048 i (u32Bytes 1) := by
  have hboth : ∀ i < 5, column 2048 i (u32Bytes (partners i).1) = column 2048 i (u32Bytes 1) ∧
      column 2048 i (u32Bytes (partners i).2) = column 2048 i (u32Bytes 1) := by
    decide +kernel
  intro i hi
  rw [partner]
  split
  · exact (hboth i hi).2
  · exact (hboth i hi).1

theorem column_partner_ne {width : UInt32} (hdvd : ¬ width.toNat ∣ 2048) :
    ∀ i < 5, column width 0 (u32Bytes (partner width i)) ≠ column width 0 (u32Bytes 1) := by
  have hgcd : ∀ i < 5, Int.gcd (hashOf 0 1 - hashOf 0 (partners i).1)
      (hashOf 0 1 - hashOf 0 (partners i).2) ∣ 2048 := by
    decide +kernel
  intro i hi
  rw [partner]
  split
  · next hfirst =>
    -- the width would divide both differences, and so a divisor of 2048
    intro hsecond
    rw [column_eq, column_eq] at hfirst hsecond
    have h1 := Nat.modEq_iff_dvd.mp hfirst
    have h2 := Nat.modEq_iff_dvd.mp hsecond
    exact hdvd ((Int.natCast_dvd_natCast.mp (Int.dvd_coe_gcd h1 h2)).trans (hgcd i hi))
  · next hfirst => exact hfirst

/-- The keys whose columns are equal for a multiple of the width. -/
theorem column_eq_of_dvd {width : UInt32} {m i : ℕ} {x y : UInt32} (hdvd : width.toNat ∣ m)
    (h : hashOf i y % m = hashOf i x % m) :
    column width i (u32Bytes y) = column width i (u32Bytes x) := by
  rw [column_eq, column_eq]
  exact Nat.ModEq.of_dvd hdvd h

theorem column_ne_of_dvd {width : UInt32} {m i : ℕ} {x y : UInt32} (hdvd : m ∣ width.toNat)
    (h : hashOf i y % m ≠ hashOf i x % m) :
    column width i (u32Bytes y) ≠ column width i (u32Bytes x) := by
  rw [column_eq, column_eq]
  exact fun heq => h (Nat.ModEq.of_dvd hdvd heq)

/-- **A sketch of other dimensions than `2048 × 5`** differs from that one on some crowd. -/
theorem exists_crowd (hw : 1 ≤ width) (hd : 1 ≤ depth) (hne : ¬ (width = 2048 ∧ depth = 5)) :
    ∃ ys : List UInt32, ys.length ≤ 5 ∧
      (Crowded 2048 5 ys 1 ∧ Alone width depth ys 1 ∨
        Crowded width depth ys 1 ∧ Alone 2048 5 ys 1) := by
  have hpos : 0 < depth.toNat := UInt32.le_iff_toNat_le.mp hd
  by_cases hdvd : width.toNat ∣ 2048
  · obtain ⟨k, hk, hwidth⟩ := (Nat.dvd_prime_pow Nat.prime_two).mp (show width.toNat ∣ 2 ^ 11 from hdvd)
    rcases Nat.eq_zero_or_pos k with rfl | hkpos
    · -- one column crowds every key
      have hone : ∀ i y, column width i (u32Bytes y) = column width i (u32Bytes 1) := by
        intro i y
        rw [column_eq, column_eq, hwidth, pow_zero, Nat.mod_one, Nat.mod_one]
      refine ⟨[2], by decide, Or.inr ⟨fun i _ => ⟨2, List.mem_cons_self, hone i 2⟩, 0, by decide, ?_⟩⟩
      decide +kernel
    have heven : 2 ∣ width.toNat := by
      rw [hwidth]
      exact dvd_pow_self 2 (Nat.ne_of_gt hkpos)
    rcases Nat.lt_or_ge 5 depth.toNat with hdeep | hshallow
    · -- a sixth row tells the keys apart by a parity
      refine ⟨[3793, 4238, 761, 2446, 3136], by decide, Or.inl ⟨?_, 5, hdeep, fun y hy => ?_⟩⟩
      · decide +kernel
      · refine column_ne_of_dvd heven ?_
        have hodd : Apart 2 5 [3793, 4238, 761, 2446, 3136] 1 := by decide +kernel
        have hy' := hodd y hy
        rwa [column_eq, column_eq] at hy'
    · rcases Nat.lt_or_ge k 11 with hsmall | hlarge
      · -- half the columns crowd keys that were apart
        have hhalf : width.toNat ∣ 1024 := by
          rw [hwidth]
          exact pow_dvd_pow 2 (show k ≤ 10 by omega)
        refine ⟨[8508, 1663, 709, 2446, 140], by decide, Or.inr ⟨fun i hi => ?_, 0, by decide, ?_⟩⟩
        · have hrow : Crowded 1024 5 [8508, 1663, 709, 2446, 140] 1 := by decide +kernel
          obtain ⟨y, hy, hcol⟩ := hrow i (lt_of_lt_of_le hi hshallow)
          rw [column_eq, column_eq] at hcol
          exact ⟨y, hy, column_eq_of_dvd hhalf hcol⟩
        · decide +kernel
      · -- the same width with fewer rows
        have heq : width = 2048 := by
          refine UInt32.toNat.inj ?_
          rw [hwidth, show k = 11 by omega]
          rfl
        subst heq
        have hfour : depth.toNat ≤ 4 := by
          rcases Nat.lt_or_ge depth.toNat 5 with h | h
          · omega
          · exact absurd ⟨rfl, UInt32.toNat.inj (show depth.toNat = 5 by omega)⟩ hne
        refine ⟨[1472, 4238, 761, 2446], by decide, Or.inr ⟨fun i hi => ?_, 4, by decide, ?_⟩⟩
        · have hrow : Crowded 2048 4 [1472, 4238, 761, 2446] 1 := by decide +kernel
          exact hrow i (lt_of_lt_of_le hi hfour)
        · decide +kernel
  · -- the first row separates one partner of each row
    refine ⟨(List.range 5).map (partner width), by simp, Or.inl ⟨fun i hi => ?_, 0, hpos, ?_⟩⟩
    · exact ⟨_, List.mem_map_of_mem (List.mem_range.mpr hi), column_partner width i hi⟩
    · intro y hy
      obtain ⟨i, hi, rfl⟩ := List.mem_map.mp hy
      exact column_partner_ne hdvd i (List.mem_range.mp hi)

end Frequency
