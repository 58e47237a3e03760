/-
# Tumbling windows on unsigned timestamps

A window starts at an event and ends at the first event whose distance from the
start, computed in 64-bit unsigned arithmetic, exceeds the length of the window;
the start value `0` stands for "no window yet".  `windows` runs this over a list
of events and logs the window number of each.

* `forward_iff` : when such a step behaves as over the integers, that is, ends
  the window only when time has passed its end and never moves the start back;
* `Ordered` : what holds of the log when timestamps do not decrease;
* `exists_window_of_burst` : an interval no longer than a window meets at most
  two of them, so one of the two holds the larger half of its events.
-/
import Mathlib.Algebra.Group.Nat.Defs
import Mathlib.Data.List.Basic
import Mathlib.Data.List.Count
import Mathlib.Data.List.Induction
import Mathlib.Order.Nat
import Mathlib.Tactic.Common

namespace Tumbling

variable {E : Type*}

/-- The start and number of the current window, and the log. -/
structure Windows (E : Type*) where
  start : UInt64
  number : ℕ
  log : List (ℕ × E)

/-- Whether an event at `now` ends the window that started at `start`. -/
def ends (length start now : UInt64) : Bool := start != 0 && decide (length < now - start)

/-- The start of the window an event at `now` is counted in. -/
def startAt (length start now : UInt64) : UInt64 :=
  if start = 0 || ends length start now then now else start

/-- The window an event at `now` is counted in. -/
def advance (length : UInt64) (s : Windows E) (now : UInt64) : Windows E where
  start := startAt length s.start now
  number := if ends length s.start now then s.number + 1 else s.number
  log := s.log

/-- Count an event in the current window. -/
def count (s : Windows E) (e : E) : Windows E := { s with log := s.log ++ [(s.number, e)] }

/-- The effect of an event. -/
def next (time : E → UInt64) (length : UInt64) (s : Windows E) (e : E) : Windows E :=
  count (advance length s (time e)) e

/-- The windows of a list of events. -/
def windows (time : E → UInt64) (length : UInt64) (events : List E) : Windows E :=
  events.foldl (next time length) ⟨0, 0, []⟩

variable {time : E → UInt64} {length : UInt64}

theorem windows_append (events : List E) (e : E) :
    windows time length (events ++ [e]) = next time length (windows time length events) e := by
  rw [windows, List.foldl_append]
  rfl

/-- The log lists the events. -/
theorem map_snd_log (events : List E) : (windows time length events).log.map (·.2) = events := by
  induction events using List.reverseRecOn with
  | nil => rfl
  | append_singleton events e ih =>
    rw [windows_append, next, count, advance, List.map_append, ih]
    rfl

theorem length_log (events : List E) :
    (windows time length events).log.length = events.length := by
  rw [← List.length_map (f := (·.2)), map_snd_log]

/-- No entry belongs to a window yet to come. -/
theorem le_number (events : List E) :
    ∀ p ∈ (windows time length events).log, p.1 ≤ (windows time length events).number := by
  induction events using List.reverseRecOn with
  | nil => simp [windows]
  | append_singleton events e ih =>
    intro p hp
    rw [windows_append] at hp ⊢
    simp only [next, count, advance, List.mem_append, List.mem_singleton] at hp ⊢
    rcases hp with hp | rfl
    · have := ih p hp
      split_ifs <;> omega
    · exact le_rfl

/-- Each window but the first one has an event that ended its predecessor. -/
theorem number_le (events : List E) : (windows time length events).number ≤ events.length := by
  induction events using List.reverseRecOn with
  | nil => exact le_rfl
  | append_singleton events e ih =>
    rw [windows_append, next, count, advance, List.length_append, List.length_singleton]
    dsimp only
    split_ifs <;> omega

/-- Events at one time share the first window. -/
theorem log_of_time_eq {t : UInt64} {events : List E} (h : ∀ e ∈ events, time e = t) :
    (windows time length events).log = events.map (Prod.mk 0) := by
  suffices hwin : (windows time length events).log = events.map (Prod.mk 0) ∧
      (windows time length events).number = 0 ∧
      ((windows time length events).start = 0 ∨ (windows time length events).start = t) from hwin.1
  induction events using List.reverseRecOn with
  | nil => exact ⟨rfl, rfl, Or.inl rfl⟩
  | append_singleton events e ih =>
    obtain ⟨hlog, hnum, hstart⟩ := ih fun e' he' => h e' (List.mem_append_left _ he')
    have he : time e = t := h e (by simp)
    have hends : ends length (windows time length events).start (time e) = false := by
      rcases hstart with hs | hs
      · simp [ends, hs]
      · simp [ends, hs, he]
    have hstart' : startAt length (windows time length events).start (time e) = 0 ∨
        startAt length (windows time length events).start (time e) = t := by
      unfold startAt
      split_ifs
      · exact Or.inr he
      · exact hstart
    rw [windows_append, next, count, advance, hends, hlog, hnum, List.map_append]
    exact ⟨rfl, rfl, hstart'⟩

/-! ## One step as over the integers -/

/-- The unsigned distance from `start` to `now` does not wrap into a large number:
no window yet, time has not gone back, or it has gone back so far that the wrapped
distance is within the window. -/
def Forward (length start now : UInt64) : Prop :=
  start = 0 ∨ start ≤ now ∨ 2 ^ 64 ≤ start.toNat - now.toNat + length.toNat

/-- The step ends the window only past its end, and moves a start that is set
forward only. -/
def StepsForward (length start now : UInt64) : Prop :=
  (ends length start now = true → start.toNat + length.toNat < now.toNat) ∧
    (start ≠ 0 → start ≤ startAt length start now)

theorem ends_iff (length : UInt64) {start now : UInt64} (h : start ≤ now) :
    ends length start now = true ↔ start ≠ 0 ∧ start.toNat + length.toNat < now.toNat := by
  have hle := UInt64.le_iff_toNat_le.mp h
  rw [ends, Bool.and_eq_true, bne_iff_ne, decide_eq_true_iff, UInt64.lt_iff_toNat_lt,
    UInt64.toNat_sub_of_le _ _ h]
  refine and_congr_right fun _ => ?_
  omega

/-- The distance of a time before the start, and what exceeding the length says. -/
theorem ends_iff_of_lt {start now : UInt64} (h : now < start) :
    ends length start now = true ↔ start.toNat - now.toNat + length.toNat < 2 ^ 64 := by
  have hlt := UInt64.lt_iff_toNat_lt.mp h
  have hs := UInt64.toNat_lt start
  have hne : start ≠ 0 := by
    rintro rfl
    exact absurd hlt (Nat.not_lt_zero _)
  have hsub : (now - start).toNat = 2 ^ 64 - (start.toNat - now.toNat) := by
    rw [UInt64.toNat_sub, Nat.mod_eq_of_lt (by omega)]
    omega
  rw [ends, Bool.and_eq_true, bne_iff_ne, decide_eq_true_iff, UInt64.lt_iff_toNat_lt, hsub]
  constructor
  · rintro ⟨-, h2⟩
    omega
  · exact fun h2 => ⟨hne, by omega⟩

/-- **A step behaves as over the integers** exactly when it is `Forward`. -/
theorem forward_iff (length start now : UInt64) :
    StepsForward length start now ↔ Forward length start now := by
  unfold StepsForward Forward startAt
  by_cases h0 : start = 0
  · subst h0
    refine iff_of_true ⟨?_, fun h => absurd rfl h⟩ (Or.inl rfl)
    intro h
    simp [ends] at h
  · by_cases hle : start ≤ now
    · refine iff_of_true ⟨fun h => ((ends_iff length hle).mp h).2, fun _ => ?_⟩ (Or.inr (Or.inl hle))
      split_ifs
      · exact hle
      · exact UInt64.le_refl start
    · have hlt : now < start := UInt64.not_le.mp hle
      have hlt' := UInt64.lt_iff_toNat_lt.mp hlt
      -- here a window that ends does so on an older event
      rcases Nat.lt_or_ge (start.toNat - now.toNat + length.toNat) (2 ^ 64) with hw | hw
      · have hends := (ends_iff_of_lt hlt).mpr hw
        refine iff_of_false ?_ ?_
        · rintro ⟨h, -⟩
          have := h hends
          omega
        · rintro (h | h | h)
          · exact h0 h
          · exact hle h
          · omega
      · have hends : ¬ ends length start now = true := fun h =>
          absurd ((ends_iff_of_lt hlt).mp h) (by omega)
        refine iff_of_true ⟨fun h => absurd h hends, fun _ => ?_⟩ (Or.inr (Or.inr hw))
        rw [if_neg (by simp [h0, hends])]
        exact UInt64.le_refl start

/-! ## Timestamps that do not decrease -/

/-- What the log of ordered positive timestamps satisfies: the current window
started at an event, events of earlier windows lie before its start, those of
windows before the last one by more than a window, and so do any two entries
with a window between them. -/
structure Ordered (time : E → UInt64) (length : UInt64) (s : Windows E) : Prop where
  start_eq_zero : s.start = 0 → s.log = []
  start_mem : s.start ≠ 0 → ∃ p ∈ s.log, time p.2 = s.start
  le_number : ∀ p ∈ s.log, p.1 ≤ s.number
  start_le : ∀ p ∈ s.log, p.1 < s.number → (time p.2).toNat ≤ s.start.toNat
  start_far : ∀ p ∈ s.log, p.1 + 1 < s.number → (time p.2).toNat + length.toNat < s.start.toNat
  far : ∀ p ∈ s.log, ∀ q ∈ s.log, p.1 + 1 < q.1 →
    (time p.2).toNat + length.toNat < (time q.2).toNat

/-- The first event of all starts the first window. -/
theorem Ordered.first {s : Windows E} (h : Ordered time length s) (hstart : s.start = 0) {e : E}
    (he : time e ≠ 0) : Ordered time length (next time length s e) := by
  have hlog := h.start_eq_zero hstart
  have hends : ends length 0 (time e) = false := by simp [ends]
  have hnext : next time length s e = ⟨time e, s.number, [(s.number, e)]⟩ := by
    rw [next, count, advance, hstart, hlog, startAt, hends]
    rfl
  rw [hnext]
  refine ⟨fun h0 => absurd h0 he, fun _ => ⟨_, List.mem_singleton_self _, rfl⟩, ?_, ?_, ?_, ?_⟩
  · exact fun p hp => (List.mem_singleton.mp hp).symm ▸ le_rfl
  · intro p hp hlt
    rw [List.mem_singleton.mp hp] at hlt
    exact absurd hlt (lt_irrefl _)
  · intro p hp hlt
    rw [List.mem_singleton.mp hp] at hlt
    exact absurd hlt (by dsimp only; omega)
  · intro p hp q hq hlt
    rw [List.mem_singleton.mp hp, List.mem_singleton.mp hq] at hlt
    exact absurd hlt (by dsimp only; omega)

/-- **One step** on an event that is not older than the ones before. -/
theorem Ordered.next {s : Windows E} (h : Ordered time length s) {e : E} (he : time e ≠ 0)
    (hlate : ∀ p ∈ s.log, (time p.2).toNat ≤ (time e).toNat) :
    Ordered time length (next time length s e) := by
  by_cases hstart : s.start = 0
  · exact h.first hstart he
  have hle : s.start.toNat ≤ (time e).toNat := by
    obtain ⟨p, hp, htime⟩ := h.start_mem hstart
    exact htime ▸ hlate p hp
  have hends := ends_iff length (UInt64.le_iff_toNat_le.mpr hle)
  by_cases hreset : ends length s.start (time e) = true
  · -- the event starts window `s.number + 1`
    have hpast := (hends.mp hreset).2
    have hnext : Tumbling.next time length s e
        = ⟨time e, s.number + 1, s.log ++ [(s.number + 1, e)]⟩ := by
      rw [Tumbling.next, count, advance, startAt, hreset, Bool.or_true]
      rfl
    rw [hnext]
    refine ⟨fun h0 => absurd h0 he, fun _ => ⟨_, List.mem_append_right _ (List.mem_singleton_self _), rfl⟩,
      ?_, ?_, ?_, ?_⟩
    all_goals simp only [List.mem_append, List.mem_singleton]
    · rintro p (hp | rfl)
      · exact (h.le_number p hp).trans (Nat.le_succ _)
      · exact le_rfl
    · rintro p (hp | rfl) hlt
      · exact hlate p hp
      · exact absurd hlt (lt_irrefl _)
    · rintro p (hp | rfl) hlt
      · have := h.start_le p hp (by omega)
        omega
      · exact absurd hlt (by dsimp only; omega)
    · rintro p (hp | rfl) q (hq | rfl) hlt
      · exact h.far p hp q hq hlt
      · have := h.start_le p hp (by dsimp only at hlt; omega)
        dsimp only
        omega
      · have := h.le_number q hq
        exact absurd hlt (by dsimp only; omega)
      · exact absurd hlt (by dsimp only; omega)
  · -- the event is counted in the current window
    have hnext : Tumbling.next time length s e = ⟨s.start, s.number, s.log ++ [(s.number, e)]⟩ := by
      rw [Tumbling.next, count, advance, startAt, if_neg hreset, if_neg (by simp [hstart, hreset])]
    rw [hnext]
    refine ⟨fun h0 => absurd h0 hstart, fun _ => ?_, ?_, ?_, ?_, ?_⟩
    · obtain ⟨p, hp, htime⟩ := h.start_mem hstart
      exact ⟨p, List.mem_append_left _ hp, htime⟩
    all_goals simp only [List.mem_append, List.mem_singleton]
    · rintro p (hp | rfl)
      · exact h.le_number p hp
      · exact le_rfl
    · rintro p (hp | rfl) hlt
      · exact h.start_le p hp hlt
      · exact absurd hlt (lt_irrefl _)
    · rintro p (hp | rfl) hlt
      · exact h.start_far p hp hlt
      · exact absurd hlt (by dsimp only; omega)
    · rintro p (hp | rfl) q (hq | rfl) hlt
      · exact h.far p hp q hq hlt
      · have := h.start_far p hp hlt
        dsimp only
        omega
      · have := h.le_number q hq
        exact absurd hlt (by dsimp only; omega)
      · exact absurd hlt (by dsimp only; omega)

/-- **The whole run** on ordered positive timestamps. -/
theorem ordered_windows {events : List E} (hpos : ∀ e ∈ events, time e ≠ 0)
    (hmono : events.Pairwise fun e e' => time e ≤ time e') :
    Ordered time length (windows time length events) := by
  induction events using List.reverseRecOn with
  | nil =>
    exact ⟨fun _ => rfl, fun h0 => absurd rfl h0, by simp [windows], by simp [windows],
      by simp [windows], by simp [windows]⟩
  | append_singleton events e ih =>
    obtain ⟨hmono', -, hlast⟩ := List.pairwise_append.mp hmono
    rw [windows_append]
    refine (ih (fun e' he' => hpos e' (List.mem_append_left _ he')) hmono').next
      (hpos e (by simp)) fun p hp => ?_
    have hmem : p.2 ∈ events := by
      have hmap : (windows time length events).log.map (·.2) = events := map_snd_log events
      exact hmap ▸ List.mem_map_of_mem hp
    exact UInt64.le_iff_toNat_le.mp (hlast p.2 hmem e (by simp))

theorem countP_le_add {α : Type*} {P Q R : α → Bool} {l : List α}
    (h : ∀ a ∈ l, P a = true → Q a = true ∨ R a = true) :
    l.countP P ≤ l.countP Q + l.countP R := by
  induction l with
  | nil => exact le_rfl
  | cons a l ih =>
    have hl := ih fun b hb => h b (List.mem_cons_of_mem a hb)
    have ha := h a List.mem_cons_self
    rw [List.countP_cons, List.countP_cons, List.countP_cons]
    by_cases hP : P a = true
    · rcases ha hP with hQ | hR
      · rw [if_pos hP, if_pos hQ]
        omega
      · rw [if_pos hP, if_pos hR]
        omega
    · rw [if_neg hP]
      omega

/-- **An interval no longer than a window meets at most two windows**, so if it
holds more than `2 * n` events with a property, more than `n` of them are in one
window. -/
theorem exists_window_of_burst {s : Windows E} (h : Ordered time length s) (P : E → Bool)
    {a n : ℕ} (hP : ∀ e, P e = true → a ≤ (time e).toNat ∧ (time e).toNat ≤ a + length.toNat)
    (hcount : 2 * n + 1 ≤ s.log.countP fun p => P p.2) :
    ∃ w, n + 1 ≤ s.log.countP fun p => decide (p.1 = w) && P p.2 := by
  classical
  have hex : ∃ v, ∃ p ∈ s.log, P p.2 = true ∧ p.1 = v := by
    obtain ⟨p, hp, hPp⟩ := List.countP_pos_iff.mp (lt_of_lt_of_le (Nat.succ_pos _) hcount)
    exact ⟨p.1, p, hp, hPp, rfl⟩
  obtain ⟨p, hp, hPp, hv⟩ := Nat.find_spec hex
  have hmin : ∀ q ∈ s.log, P q.2 = true → Nat.find hex ≤ q.1 := fun q hq hPq =>
    Nat.find_min' hex ⟨q, hq, hPq, rfl⟩
  generalize Nat.find hex = v at hv hmin
  -- two windows apart, the interval would be longer than a window
  have htwo : ∀ q ∈ s.log, P q.2 = true → q.1 = v ∨ q.1 = v + 1 := by
    intro q hq hPq
    have hge := hmin q hq hPq
    by_contra hne
    have hfar := h.far p hp q hq (by omega)
    have hp' := hP p.2 hPp
    have hq' := hP q.2 hPq
    omega
  have hsum := countP_le_add (l := s.log) (P := fun p => P p.2)
    (Q := fun p => decide (p.1 = v) && P p.2) (R := fun p => decide (p.1 = v + 1) && P p.2)
    (fun q hq hPq => by
      rcases htwo q hq hPq with hqv | hqv
      · exact Or.inl (by simp [hqv, hPq])
      · exact Or.inr (by simp [hqv, hPq]))
  by_contra hnone
  simp only [not_exists, not_le] at hnone
  have h1 := hnone v
  have h2 := hnone (v + 1)
  omega

end Tumbling
