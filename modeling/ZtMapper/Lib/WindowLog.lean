/-
# Alerts over a log of windows

A log lists the events of a run with the number of the window each was counted
in.  An estimator is given as a function of the stream of keys of a window; an
entry of the log is *over* when the estimate of its key, with the entry itself
counted, exceeds a threshold, and it is *raised* when it is the first such entry
of its key in its window.

* `raised_append_last` : when one more entry is raised, in terms of the keys that
  already went over in its window;
* `exists_raised_le` : the first entry of a key that is over is raised;
* `Raised.mono` : an estimator that dominates another raises every alert of the
  other, at the same entry or earlier;
* `exists_count_eq` : the entry at which the frequency of a key reaches a value;
* `raised_iff_count_eq` : an exact estimator raises where the frequency of a key
  becomes one more than the threshold.
-/
import Mathlib.Data.List.Basic
import Mathlib.Data.List.Count
import Mathlib.Data.List.Infix
import Mathlib.Data.List.Induction
import Mathlib.Order.Nat
import Mathlib.Tactic.Common

namespace WindowLog

variable {E S : Type*} (key : E → S)

/-! ## Logs -/

/-- The keys counted in the window `w`, in order. -/
def stream (log : List (ℕ × E)) (w : ℕ) : List S :=
  (log.filter fun e => e.1 = w).map fun e => key e.2

/-- The window and the key of an entry. -/
def entry (log : List (ℕ × E)) (i : ℕ) : Option (ℕ × S) :=
  log[i]?.map fun e => (e.1, key e.2)

variable {key} {log : List (ℕ × E)}

/-- An event joins the stream of its window. -/
theorem stream_append_self (w : ℕ) (e : E) :
    stream key (log ++ [(w, e)]) w = stream key log w ++ [key e] := by
  simp [stream]

/-- An event leaves the streams of other windows. -/
theorem stream_append_of_ne {v w : ℕ} (h : v ≠ w) (e : E) :
    stream key (log ++ [(v, e)]) w = stream key log w := by
  simp [stream, h]

/-- A window no entry belongs to has seen nothing. -/
theorem stream_eq_nil {w : ℕ} (h : ∀ e ∈ log, e.1 ≠ w) : stream key log w = [] := by
  rw [stream, List.map_eq_nil_iff, List.filter_eq_nil_iff]
  exact fun e he => by simpa using h e he

/-- A stream is no longer than the log. -/
theorem length_stream_le (key : E → S) (log : List (ℕ × E)) (w : ℕ) : (stream key log w).length ≤ log.length := by
  rw [stream, List.length_map]
  exact List.length_filter_le _ _

/-- A stream has an entry for each event of its window. -/
theorem length_stream (log : List (ℕ × E)) (w : ℕ) :
    (stream key log w).length = log.countP fun e => e.1 = w := by
  rw [stream, List.length_map, List.countP_eq_length_filter]

/-- A key occurs in a stream as often as the window has events of that key. -/
theorem count_stream [DecidableEq S] (log : List (ℕ × E)) (w : ℕ) (x : S) :
    (stream key log w).count x = log.countP fun e => e.1 = w ∧ key e.2 = x := by
  rw [stream, List.count, List.countP_map, List.countP_filter]
  refine List.countP_congr fun e _ => ?_
  simp [and_comm]

/-- The stream up to an entry is an initial part of the stream. -/
theorem stream_take_sublist (key : E → S) (log : List (ℕ × E)) (n w : ℕ) :
    (stream key (log.take n) w).Sublist (stream key log w) :=
  ((List.take_sublist n log).filter _).map _

/-- Old entries stay. -/
theorem entry_append_of_lt {i : ℕ} (hi : i < log.length) (l : List (ℕ × E)) :
    entry key (log ++ l) i = entry key log i := by
  rw [entry, List.getElem?_append_left hi, entry]

/-- The new entry is the last. -/
theorem entry_append_last (e : ℕ × E) :
    entry key (log ++ [e]) log.length = some (e.1, key e.2) := by
  rw [entry, List.getElem?_concat_length]
  rfl

/-- Entries are at positions of the log. -/
theorem lt_of_entry_eq_some {i : ℕ} {p : ℕ × S} (h : entry key log i = some p) :
    i < log.length := by
  by_contra hi
  rw [entry, List.getElem?_eq_none (not_lt.mp hi)] at h
  exact absurd h (by simp)

/-- A log of one window. -/
theorem stream_map_mk (w : ℕ) (l : List E) : stream key (l.map (Prod.mk w)) w = l.map key := by
  rw [stream, List.filter_map, List.map_map]
  simp [Function.comp_def]

/-- The entry at which the frequency of `x` in the window `w` becomes `n`. -/
theorem exists_count_eq [DecidableEq S] {w : ℕ} {x : S} {n : ℕ} (hn : 0 < n)
    (hle : n ≤ (stream key log w).count x) :
    ∃ i, entry key log i = some (w, x) ∧ (stream key (log.take (i + 1)) w).count x = n := by
  induction log using List.reverseRecOn with
  | nil => exact absurd hle (by simp [stream]; omega)
  | append_singleton log e ih =>
    by_cases hprev : n ≤ (stream key log w).count x
    · obtain ⟨i, hi, hcount⟩ := ih hprev
      have hlt := lt_of_entry_eq_some hi
      refine ⟨i, (entry_append_of_lt hlt [e]).trans hi, ?_⟩
      rwa [List.take_append_of_le_length (Nat.succ_le_of_lt hlt)]
    · -- the last entry is the one that completes the count
      obtain ⟨v, e⟩ := e
      by_cases hv : v = w
      · subst hv
        rw [stream_append_self, List.count_append, List.count_singleton] at hle
        have hx : key e = x := by
          by_contra hne
          rw [if_neg (by simpa using hne)] at hle
          omega
        refine ⟨log.length, by rw [entry_append_last, hx], ?_⟩
        rw [List.take_of_length_le (by simp), stream_append_self, List.count_append, hx,
          List.count_singleton_self]
        rw [if_pos (by simpa using hx)] at hle
        omega
      · rw [stream_append_of_ne hv] at hle
        omega

/-! ## Entries over the threshold -/

section Raised

variable (key) (est : List S → S → ℕ) (t : ℕ)

/-- The estimate of the key of entry `i`, with the entry itself counted, exceeds
the threshold. -/
def Over (log : List (ℕ × E)) (i : ℕ) : Prop :=
  ∃ p, entry key log i = some p ∧ t < est (stream key (log.take (i + 1)) p.1) p.2

/-- Entry `i` is the first of its key and window that is over. -/
def Raised (log : List (ℕ × E)) (i : ℕ) : Prop :=
  Over key est t log i ∧ ∀ j < i, entry key log j = entry key log i → ¬ Over key est t log j

/-- The key went over in the window. -/
def Crossed (log : List (ℕ × E)) (p : ℕ × S) : Prop :=
  ∃ j, entry key log j = some p ∧ Over key est t log j

instance (log : List (ℕ × E)) (i : ℕ) : Decidable (Over key est t log i) :=
  match h : entry key log i with
  | some p => decidable_of_iff (t < est (stream key (log.take (i + 1)) p.1) p.2)
      ⟨fun hp => ⟨p, h, hp⟩, fun ⟨q, hq, ht⟩ => by
        obtain rfl := Option.some.inj (h.symm.trans hq)
        exact ht⟩
  | none => isFalse fun ⟨q, hq, _⟩ => absurd (h.symm.trans hq) (by simp)

instance [DecidableEq S] (log : List (ℕ × E)) (i : ℕ) : Decidable (Raised key est t log i) :=
  inferInstanceAs (Decidable (_ ∧ _))

variable {key est t}

/-- So are crossings. -/
theorem Over.lt_length {i : ℕ} (h : Over key est t log i) : i < log.length := by
  obtain ⟨p, hp, -⟩ := h
  exact lt_of_entry_eq_some hp

/-- Whether an old event crosses stays as it is. -/
theorem over_append_of_lt {i : ℕ} (hi : i < log.length) (l : List (ℕ × E)) :
    Over key est t (log ++ l) i ↔ Over key est t log i := by
  unfold Over
  rw [entry_append_of_lt hi, List.take_append_of_le_length (Nat.succ_le_of_lt hi)]

/-- Whether the new event crosses is asked of its window's stream. -/
theorem over_append_last (w : ℕ) (e : E) :
    Over key est t (log ++ [(w, e)]) log.length
      ↔ t < est (stream key log w ++ [key e]) (key e) := by
  unfold Over
  rw [entry_append_last, List.take_of_length_le (by simp)]
  constructor
  · rintro ⟨p, hp, ht⟩
    obtain rfl := Option.some.inj hp
    rwa [stream_append_self] at ht
  · intro ht
    exact ⟨_, rfl, by rwa [stream_append_self]⟩

/-- What was raised stays raised. -/
theorem raised_append_of_lt {i : ℕ} (hi : i < log.length) (l : List (ℕ × E)) :
    Raised key est t (log ++ l) i ↔ Raised key est t log i := by
  unfold Raised
  rw [over_append_of_lt hi, entry_append_of_lt hi]
  refine and_congr_right fun _ => forall₂_congr fun j hj => ?_
  rw [over_append_of_lt (hj.trans hi), entry_append_of_lt (hj.trans hi)]

/-- A new entry is raised when it is over and its key has not crossed before. -/
theorem raised_append_last (w : ℕ) (e : E) :
    Raised key est t (log ++ [(w, e)]) log.length
      ↔ t < est (stream key log w ++ [key e]) (key e) ∧ ¬ Crossed key est t log (w, key e) := by
  unfold Raised
  rw [over_append_last, entry_append_last]
  refine and_congr_right fun _ => ?_
  constructor
  · rintro h ⟨j, hj, hover⟩
    have hlt := hover.lt_length
    exact h j hlt ((entry_append_of_lt hlt _).trans hj) ((over_append_of_lt hlt _).mpr hover)
  · intro h j hlt hj hover
    rw [entry_append_of_lt hlt] at hj
    exact h ⟨j, hj, (over_append_of_lt hlt _).mp hover⟩

/-- The keys that have crossed after one more event. -/
theorem crossed_append (w : ℕ) (e : E) (p : ℕ × S) :
    Crossed key est t (log ++ [(w, e)]) p ↔ Crossed key est t log p ∨
      (p = (w, key e) ∧ t < est (stream key log w ++ [key e]) (key e)) := by
  constructor
  · rintro ⟨j, hj, hover⟩
    have hlt := hover.lt_length
    rw [List.length_append, List.length_singleton, Nat.lt_succ_iff] at hlt
    rcases hlt.lt_or_eq with hlt | rfl
    · rw [entry_append_of_lt hlt] at hj
      exact Or.inl ⟨j, hj, (over_append_of_lt hlt _).mp hover⟩
    · rw [entry_append_last] at hj
      exact Or.inr ⟨(Option.some.inj hj).symm, (over_append_last w e).mp hover⟩
  · rintro (⟨j, hj, hover⟩ | ⟨rfl, ht⟩)
    · have hlt := hover.lt_length
      exact ⟨j, (entry_append_of_lt hlt _).trans hj, (over_append_of_lt hlt _).mpr hover⟩
    · exact ⟨log.length, entry_append_last _, (over_append_last w e).mpr ht⟩

/-- Nothing has crossed in a window no entry belongs to. -/
theorem not_crossed {w : ℕ} (h : ∀ e ∈ log, e.1 ≠ w) (x : S) : ¬ Crossed key est t log (w, x) := by
  rintro ⟨j, hj, -⟩
  obtain ⟨e, he, hp⟩ := Option.map_eq_some_iff.mp hj
  exact h e (List.mem_of_getElem? he) (congrArg Prod.fst hp)

/-- The first entry over the threshold, for the key and window of `i`, is raised. -/
theorem exists_raised_le {i : ℕ} (h : Over key est t log i) :
    ∃ j ≤ i, entry key log j = entry key log i ∧ Raised key est t log j := by
  induction i using Nat.strong_induction_on with
  | _ i ih =>
    by_cases hfirst : ∀ j < i, entry key log j = entry key log i → ¬ Over key est t log j
    · exact ⟨i, le_rfl, rfl, h, hfirst⟩
    · simp only [not_forall, not_not] at hfirst
      obtain ⟨j, hji, hentry, hover⟩ := hfirst
      obtain ⟨k, hkj, hk, hraised⟩ := ih j hji hover
      exact ⟨k, hkj.trans hji.le, hk.trans hentry, hraised⟩

/-- **A dominating estimator alerts no later**: where it is over whenever another
one is, it raises every key the other raises, at the same entry or earlier. -/
theorem Raised.mono {est' : List S → S → ℕ} {i : ℕ} (h : Raised key est t log i)
    (hdom : ∀ s x, s.length ≤ log.length → t < est s x → t < est' s x) :
    ∃ j ≤ i, entry key log j = entry key log i ∧ Raised key est' t log j := by
  obtain ⟨p, hp, ht⟩ := h.1
  refine exists_raised_le ⟨p, hp, hdom _ _ ?_ ht⟩
  exact (stream_take_sublist key log (i + 1) p.1).length_le.trans (length_stream_le key log p.1)

/-- A window whose last entry is the first one with its key: that entry is over
when the estimate of the whole stream is. -/
theorem over_append_new {x : E} {l : List E} (hne : ∀ y ∈ l, key y ≠ key x) {w i v : ℕ}
    (hi : entry key ((l ++ [x]).map (Prod.mk w)) i = some (v, key x)) :
    v = w ∧ i = l.length ∧ (Over key est t ((l ++ [x]).map (Prod.mk w)) i
      ↔ t < est (l.map key ++ [key x]) (key x)) := by
  rw [List.map_append, List.map_singleton] at hi ⊢
  have hstream : stream key (l.map (Prod.mk w)) w = l.map key := stream_map_mk w l
  have hlen : (l.map (Prod.mk w)).length = l.length := List.length_map _
  have hlt := lt_of_entry_eq_some hi
  rw [List.length_append, List.length_singleton, Nat.lt_succ_iff] at hlt
  rcases hlt.lt_or_eq with hlt | rfl
  · rw [entry_append_of_lt hlt] at hi
    obtain ⟨e, he, hp⟩ := Option.map_eq_some_iff.mp hi
    obtain ⟨y, hy, rfl⟩ := List.mem_map.mp (List.mem_of_getElem? he)
    exact absurd (congrArg Prod.snd hp) (hne y hy)
  · rw [entry_append_last] at hi
    obtain rfl : w = v := congrArg Prod.fst (Option.some.inj hi)
    exact ⟨rfl, hlen, by rw [over_append_last, hstream]⟩

/-- A window of `n` entries `y` and a last entry `x`. -/
theorem over_replicate_append {x y : E} (hne : key y ≠ key x) {w n i : ℕ} {v : ℕ}
    (hi : entry key ((List.replicate n y ++ [x]).map (Prod.mk w)) i = some (v, key x)) :
    v = w ∧ i = n ∧ (Over key est t ((List.replicate n y ++ [x]).map (Prod.mk w)) i
      ↔ t < est (List.replicate n (key y) ++ [key x]) (key x)) := by
  have hnew : ∀ z ∈ List.replicate n y, key z ≠ key x := fun z hz => by
    rw [List.eq_of_mem_replicate hz]
    exact hne
  rw [← List.map_replicate]
  exact (over_append_new hnew hi).imp_right (And.imp_left fun h => h.trans List.length_replicate)

/-- Estimators that agree where one of them is over raise the same entries. -/
theorem over_congr {est' : List S → S → ℕ} (h : ∀ i p, entry key log i = some p →
      t < est (stream key (log.take (i + 1)) p.1) p.2
        ∨ t < est' (stream key (log.take (i + 1)) p.1) p.2 →
      est (stream key (log.take (i + 1)) p.1) p.2 = est' (stream key (log.take (i + 1)) p.1) p.2)
    (i : ℕ) : Over key est t log i ↔ Over key est' t log i := by
  constructor
  · rintro ⟨p, hp, hover⟩
    exact ⟨p, hp, h i p hp (Or.inl hover) ▸ hover⟩
  · rintro ⟨p, hp, hover⟩
    exact ⟨p, hp, h i p hp (Or.inr hover) ▸ hover⟩

/-- Estimators that cross alike raise alike. -/
theorem raised_iff_of_over {est' : List S → S → ℕ}
    (h : ∀ i, Over key est t log i ↔ Over key est' t log i) (i : ℕ) :
    Raised key est t log i ↔ Raised key est' t log i := by
  unfold Raised
  rw [h i]
  exact and_congr_right fun _ => forall₃_congr fun j _ _ => not_congr (h j)

/-- Two raised entries of one key and window are the same. -/
theorem Raised.unique {i j : ℕ} (hi : Raised key est t log i) (hj : Raised key est t log j)
    (h : entry key log i = entry key log j) : i = j := by
  rcases lt_trichotomy i j with hlt | heq | hlt
  · exact absurd hi.1 (hj.2 i hlt h)
  · exact heq
  · exact absurd hj.1 (hi.2 j hlt h.symm)

/-- The last entry of a prefix is in the stream of its window. -/
theorem stream_take_succ {i : ℕ} {p : ℕ × S} (h : entry key log i = some p) :
    stream key (log.take (i + 1)) p.1 = stream key (log.take i) p.1 ++ [p.2] := by
  obtain ⟨⟨w, e⟩, he, rfl⟩ := Option.map_eq_some_iff.mp h
  rw [List.take_add_one, he]
  exact stream_append_self w e

variable [DecidableEq S]

/-- **An exact estimator raises at the entry that makes the count `t + 1`**, which
is the first one over the threshold. -/
theorem raised_iff_count_eq (hest : ∀ s x, s.length ≤ log.length → est s x = s.count x) {i : ℕ} :
    Raised key est t log i ↔ ∃ p, entry key log i = some p ∧
      (stream key (log.take (i + 1)) p.1).count p.2 = t + 1 := by
  have hcount : ∀ j w x, est (stream key (log.take j) w) x
      = (stream key (log.take j) w).count x := fun j w x =>
    hest _ _ ((stream_take_sublist key log j w).length_le.trans (length_stream_le key log w))
  constructor
  · rintro ⟨⟨p, hp, ht⟩, hfirst⟩
    refine ⟨p, hp, ?_⟩
    rw [hcount] at ht
    -- a larger count was over before
    by_contra hne
    obtain ⟨j, hj, hjcount⟩ := exists_count_eq (Nat.succ_pos t) ht
    have hji : j < i + 1 := (lt_of_entry_eq_some hj).trans_le (List.length_take_le _ _)
    have hjlog : entry key log j = some p := by
      rw [← hj, entry, entry, List.getElem?_take_of_lt hji]
    rw [List.take_take, min_eq_left (Nat.succ_le_of_lt hji)] at hjcount
    refine hfirst j ?_ (hjlog.trans hp.symm) ⟨p, hjlog, by rw [hcount, hjcount]; omega⟩
    refine lt_of_le_of_ne (Nat.lt_succ_iff.mp hji) ?_
    rintro rfl
    exact hne hjcount
  · rintro ⟨p, hp, ht⟩
    refine ⟨⟨p, hp, by rw [hcount, ht]; omega⟩, fun j hji hj hover => ?_⟩
    obtain ⟨q, hq, hlt⟩ := hover
    obtain rfl : p = q := Option.some.inj (hp.symm.trans (hj.symm.trans hq))
    rw [hcount] at hlt
    have hsub := (stream_take_sublist key (log.take i) (j + 1) p.1).count_le p.2
    rw [List.take_take, min_eq_left (show j + 1 ≤ i from hji)] at hsub
    rw [stream_take_succ hp, List.count_append, List.count_singleton_self] at ht
    omega

/-- The raised entries, in order. -/
def raised (key : E → S) (est : List S → S → ℕ) (t : ℕ) (log : List (ℕ × E)) : List ℕ :=
  (List.range log.length).filter fun i => Raised key est t log i

/-- The list of raised positions. -/
theorem mem_raised {i : ℕ} : i ∈ raised key est t log ↔ Raised key est t log i := by
  rw [raised, List.mem_filter, List.mem_range, decide_eq_true_iff]
  exact ⟨fun h => h.2, fun h => ⟨h.1.lt_length, h⟩⟩

/-- One more entry adds at most one raised index. -/
theorem raised_append (e : ℕ × E) :
    raised key est t (log ++ [e]) = raised key est t log ++
      if Raised key est t (log ++ [e]) log.length then [log.length] else [] := by
  rw [raised, List.length_append, List.length_singleton, List.range_succ, List.filter_append]
  congr 1
  · refine List.filter_congr fun i hi => ?_
    rw [decide_eq_decide, raised_append_of_lt (List.mem_range.mp hi)]
  · rw [List.filter_singleton]
    by_cases h : Raised key est t (log ++ [e]) log.length
    · rw [if_pos h, decide_eq_true h]
      rfl
    · rw [if_neg h, decide_eq_false h]
      rfl

end Raised

end WindowLog
