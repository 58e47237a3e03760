/-
# Eviction

`evictExpired` compares a reading of the clock with the time of the last alert of
an incident, while `Process` compares the times of two alerts.  A run with the
ticks is compared with the run without them: `cleanup_invisible_iff` says exactly
when their replies are the same.
-/
import ZtMapper.Lib.Runs
import ZtMapper.Aggregator.Correlator

open Unordered Runs

namespace Aggregator

namespace Op

def isProcess : Op → Bool
  | .process .. => true
  | .evictExpired _ => false

/-- A `Process` call for a well-formed alert of `key`. -/
def Alerts (key : String) : Op → Prop
  | .process a _ => ¬ a.Malformed ∧ a.key = key
  | .evictExpired _ => False

end Op

/-! ## The last alert of a key -/

/-- The last alert of `key` has the time `last`, and `rest` are the operations
after it. -/
def LastAlert (key : String) (ops : List Op) (last : Int64) (rest : List Op) : Prop :=
  ∃ pre a clock, ops = pre ++ .process a clock :: rest ∧ ¬ a.Malformed ∧ a.key = key ∧
    a.time clock = last ∧ ∀ op ∈ rest, ¬ op.Alerts key

variable {key : String} {ops rest rest' : List Op} {op : Op} {last last' : Int64} {a : Alert}
  {clock : Int64}

/-- Without calls there is no last alert. -/
theorem not_lastAlert_nil : ¬ LastAlert key [] last rest := by
  rintro ⟨pre, a, clock, heq, -⟩
  exact absurd heq (by simp)

/-- One more operation is the last alert, or comes after it. -/
theorem lastAlert_concat :
    LastAlert key (ops ++ [op]) last rest ↔
      (∃ a clock, op = .process a clock ∧ ¬ a.Malformed ∧ a.key = key ∧ a.time clock = last ∧
        rest = []) ∨
      (¬ op.Alerts key ∧ ∃ rest', rest = rest' ++ [op] ∧ LastAlert key ops last rest') := by
  constructor
  · rintro ⟨pre, a, clock, heq, hmal, hkey, htime, hrest⟩
    rcases concat_eq_append_cons_iff.mp heq with ⟨-, hop, hnil⟩ | ⟨rest', hcons, hops⟩
    · exact Or.inl ⟨a, clock, hop.symm, hmal, hkey, htime, hnil⟩
    · refine Or.inr ⟨hrest op (by simp [hcons]), rest', hcons, pre, a, clock, hops, hmal, hkey, htime,
        fun o ho => hrest o ?_⟩
      rw [hcons]
      exact List.mem_append_left _ ho
  · rintro (⟨a, clock, rfl, hmal, hkey, htime, rfl⟩ | ⟨hop, rest', rfl, pre, a, clock, rfl, hmal,
      hkey, htime, hrest⟩)
    · exact ⟨ops, a, clock, rfl, hmal, hkey, htime, fun o ho => absurd ho List.not_mem_nil⟩
    · refine ⟨pre, a, clock, by simp, hmal, hkey, htime, fun o ho => ?_⟩
      rcases List.mem_append.mp ho with ho | ho
      · exact hrest o ho
      · rw [List.mem_singleton.mp ho]
        exact hop

/-- An alert just processed is the last of its key. -/
theorem lastAlert_self (hmal : ¬ a.Malformed) :
    LastAlert a.key (ops ++ [.process a clock]) (a.time clock) [] :=
  lastAlert_concat.mpr (Or.inl ⟨a, clock, rfl, hmal, rfl, rfl, rfl⟩)

/-- It stays the last through calls of other keys. -/
theorem LastAlert.concat (h : LastAlert key ops last rest) (hop : ¬ op.Alerts key) :
    LastAlert key (ops ++ [op]) last (rest ++ [op]) :=
  lastAlert_concat.mpr (Or.inr ⟨hop, rest, rfl, h⟩)

/-- There is one last alert. -/
theorem LastAlert.unique (h : LastAlert key ops last rest) (h' : LastAlert key ops last' rest') :
    last = last' ∧ rest = rest' := by
  induction ops using List.reverseRecOn generalizing rest rest' with
  | nil => exact absurd h not_lastAlert_nil
  | append_singleton ops op ih =>
    rcases lastAlert_concat.mp h with ⟨a, clock, rfl, hmal, hkey, rfl, rfl⟩ | ⟨hop, r, rfl, hr⟩
    · rcases lastAlert_concat.mp h' with ⟨b, clock', heq, -, -, rfl, rfl⟩ | ⟨hop', -⟩
      · obtain ⟨rfl, rfl⟩ := Op.process.inj heq
        exact ⟨rfl, rfl⟩
      · exact absurd ⟨hmal, hkey⟩ hop'
    · rcases lastAlert_concat.mp h' with ⟨b, clock', rfl, hmal, hkey, -⟩ | ⟨-, r', rfl, hr'⟩
      · exact absurd ⟨hmal, hkey⟩ hop
      · obtain ⟨hlast, rfl⟩ := ih hr hr'
        exact ⟨hlast, rfl⟩

/-! ## The condition -/

/-- A tick among some operations finds an incident last seen at `last` expired. -/
def Evicts (window last : Int64) (rest : List Op) : Prop :=
  ∃ t, .evictExpired t ∈ rest ∧ t - last > window

/-- When a tick since the last alert of the same key has found its incident
expired, the next alert is more than the window after that alert, too. -/
def ExpiresToo (window : Int64) (ops : List Op) : Op → Prop
  | .process a clock => ¬ a.Malformed → ∀ last rest, LastAlert a.key ops last rest →
      Evicts window last rest → a.time clock - last > window
  | .evictExpired _ => True

/-- An eviction is caused by some tick. -/
theorem evicts_concat {window : Int64} :
    Evicts window last (rest ++ [op]) ↔
      Evicts window last rest ∨ ∃ t, op = .evictExpired t ∧ t - last > window := by
  simp only [Evicts, List.mem_append, List.mem_singleton]
  constructor
  · rintro ⟨t, ht | ht, hlt⟩
    · exact Or.inl ⟨t, ht, hlt⟩
    · exact Or.inr ⟨t, ht.symm, hlt⟩
  · rintro (⟨t, ht, hlt⟩ | ⟨t, ht, hlt⟩)
    · exact ⟨t, Or.inl ht, hlt⟩
    · exact ⟨t, Or.inr ht.symm, hlt⟩

/-! ## The runs with and without the ticks -/

/-- The state of an incident with the ticks is `x`, and without them `y`. -/
inductive Agrees (window : Int64) (key : String) (ops : List Op) (x y : Option IncidentState) :
    Prop where
  | unseen (hseen : ∀ last rest, ¬ LastAlert key ops last rest) (hx : x = none) (hy : y = none)
  | kept (st : IncidentState) (rest : List Op) (hlast : LastAlert key ops st.lastSeenNs rest)
      (hkept : ¬ Evicts window st.lastSeenNs rest) (hx : x = some st) (hy : y = some st)
  | evicted (st : IncidentState) (rest : List Op) (hlast : LastAlert key ops st.lastSeenNs rest)
      (hevicted : Evicts window st.lastSeenNs rest) (hx : x = none) (hy : y = some st)

namespace Agrees

variable {window : Int64} {x y : Option IncidentState}

/-- An alert of another key, or a malformed one. -/
theorem concat_process (h : Agrees window key ops x y) (hop : ¬ (Op.process a clock).Alerts key) :
    Agrees window key (ops ++ [.process a clock]) x y := by
  have hticks : ∀ last rest,
      Evicts window last (rest ++ [.process a clock]) ↔ Evicts window last rest := by
    intro last rest
    rw [evicts_concat, or_iff_left]
    rintro ⟨t, ht, -⟩
    cases ht
  cases h with
  | unseen hseen hx hy =>
    refine .unseen (fun last rest hlast => ?_) hx hy
    rcases lastAlert_concat.mp hlast with ⟨b, clock', heq, hmal, hkey, -⟩ | ⟨-, rest', -, hlast'⟩
    · rw [heq] at hop
      exact hop ⟨hmal, hkey⟩
    · exact hseen _ _ hlast'
  | kept st rest hlast hkept hx hy =>
    exact .kept st _ (hlast.concat hop) ((hticks _ _).not.mpr hkept) hx hy
  | evicted st rest hlast hevicted hx hy =>
    exact .evicted st _ (hlast.concat hop) ((hticks _ _).mpr hevicted) hx hy

/-- A tick. -/
theorem concat_evictExpired (h : Agrees window key ops x y) (t : Int64) :
    Agrees window key (ops ++ [.evictExpired t])
      (x.bind fun st => if t - st.lastSeenNs > window then none else some st) y := by
  have hop : ¬ (Op.evictExpired t).Alerts key := id
  cases h with
  | unseen hseen hx hy =>
    refine .unseen (fun last rest hlast => ?_) (by rw [hx]; rfl) hy
    rcases lastAlert_concat.mp hlast with ⟨b, clock', heq, -⟩ | ⟨-, rest', -, hlast'⟩
    · cases heq
    · exact hseen _ _ hlast'
  | kept st rest hlast hkept hx hy =>
    rw [hx, Option.bind_some]
    by_cases hexp : t - st.lastSeenNs > window
    · exact .evicted st _ (hlast.concat hop) (evicts_concat.mpr (Or.inr ⟨t, rfl, hexp⟩))
        (if_pos hexp) hy
    · refine .kept st _ (hlast.concat hop) (fun hev => ?_) (if_neg hexp) hy
      rcases evicts_concat.mp hev with hev | ⟨t', ht', hlt⟩
      · exact hkept hev
      · obtain rfl := Op.evictExpired.inj ht'
        exact hexp hlt
  | evicted st rest hlast hevicted hx hy =>
    exact .evicted st _ (hlast.concat hop) (evicts_concat.mpr (Or.inl hevicted))
      (by rw [hx]; rfl) hy

end Agrees

/-- An alert that starts an incident is never answered like one that is absorbed. -/
theorem reply_start_ne_reply_update (c c' : Correlator) (st : IncidentState) (a : Alert)
    (now : Int64) : (c.start a now).2 ≠ (c'.update st a now).2 := by
  intro heq
  unfold Correlator.update at heq
  dsimp only at heq
  split_ifs at heq with hcross
  · have hcorr := congrArg (fun r : Reply => (r.out.bind (·.correlation)).map (·.crossNode)) heq
    have hcard : (recordNode ∅ a.nodeName).card < 2 := by
      unfold recordNode
      split_ifs
      · exact Nat.zero_lt_two
      · exact Nat.lt_of_le_of_lt (Finset.card_insert_le _ _) Nat.one_lt_two
    have hfalse : (snapshot (started a now) false).crossNode = false := by
      show (false || decide (2 ≤ (recordNode ∅ a.nodeName).card)) = false
      rw [Bool.false_or, decide_eq_false_iff_not]
      omega
    have htrue : (snapshot (started a now) false).crossNode = true := Option.some.inj hcorr
    rw [hfalse] at htrue
    exact Bool.false_ne_true htrue
  · exact absurd (congrArg Reply.emit heq) (by simp [Correlator.start])

/-- The replies to an alert agree exactly under the condition, and the states of
its incident agree after it. -/
theorem Agrees.process {window : Int64} {c c' : Correlator} (hc : c.window = window)
    (hc' : c'.window = window) (hmal : ¬ a.Malformed)
    (h : Agrees window a.key ops (c.incidents.lookup a.key) (c'.incidents.lookup a.key)) :
    ((c.process a clock).2 = (c'.process a clock).2 ↔ ExpiresToo window ops (.process a clock)) ∧
      (ExpiresToo window ops (.process a clock) →
        (c.process a clock).1.incidents.lookup a.key =
          (c'.process a clock).1.incidents.lookup a.key) := by
  cases h with
  | unseen hseen hx hy =>
    obtain ⟨hreply, hlookup⟩ := Correlator.process_congr clock
      (hc.trans hc'.symm) (hx.trans hy.symm)
    exact ⟨iff_of_true hreply fun _ last rest hlast _ => absurd hlast (hseen last rest),
      fun _ => hlookup⟩
  | kept st rest hlast hkept hx hy =>
    obtain ⟨hreply, hlookup⟩ := Correlator.process_congr clock
      (hc.trans hc'.symm) (hx.trans hy.symm)
    refine ⟨iff_of_true hreply fun _ last' rest' hlast' hev => ?_, fun _ => hlookup⟩
    obtain ⟨rfl, rfl⟩ := hlast.unique hlast'
    exact absurd hev hkept
  | evicted st rest hlast hevicted hx hy =>
    -- the incident is gone here, and still there in the run without the tick
    have hstart : c.process a clock = c.start a (a.time clock) :=
      Correlator.process_fresh hmal fun st' hlive => by
        rw [Correlator.Live, hx] at hlive
        exact absurd hlive.1 (by simp)
    have hcond : ExpiresToo window ops (.process a clock) ↔ c'.Expired (a.time clock) st := by
      rw [Correlator.Expired, hc']
      refine ⟨fun hexp => hexp hmal _ _ hlast hevicted, fun hexp _ last' rest' hlast' _ => ?_⟩
      obtain ⟨rfl, -⟩ := hlast.unique hlast'
      exact hexp
    rw [hcond, hstart]
    by_cases hexp : c'.Expired (a.time clock) st
    · have hstart' : c'.process a clock = c'.start a (a.time clock) :=
        Correlator.process_fresh hmal fun st' hlive => by
          obtain rfl := Option.some.inj (hy.symm.trans hlive.1)
          exact hlive.2 hexp
      rw [hstart']
      exact ⟨iff_of_true rfl hexp, fun _ =>
        (Correlator.lookup_put_self c _ _).trans (Correlator.lookup_put_self c' _ _).symm⟩
    · rw [Correlator.process_live hmal ⟨hy, hexp⟩]
      exact ⟨iff_of_false (reply_start_ne_reply_update c c' st a _) hexp, fun h => absurd h hexp⟩

/-- The operations without the ticks. -/
def withoutTicks (ops : List Op) : List Op := ops.filter Op.isProcess

/-- Alerts stay when the ticks are left out. -/
theorem withoutTicks_process :
    withoutTicks (ops ++ [.process a clock]) = withoutTicks ops ++ [.process a clock] :=
  List.filter_append ops _

/-- A tick is left out. -/
theorem withoutTicks_evictExpired (t : Int64) :
    withoutTicks (ops ++ [.evictExpired t]) = withoutTicks ops :=
  (List.filter_append ops _).trans (List.append_nil _)

namespace Correlator

/-- An alert is replied to. -/
theorem replies_process (c : Correlator) (ops : List Op) (a : Alert) (clock : Int64) :
    c.replies (ops ++ [.process a clock]) = c.replies ops ++ [((c.run ops).process a clock).2] :=
  replies_append c ops _

/-- A tick is not replied to. -/
theorem replies_evictExpired (c : Correlator) (ops : List Op) (t : Int64) :
    c.replies (ops ++ [.evictExpired t]) = c.replies ops :=
  (replies_append c ops _).trans (List.append_nil _)

end Correlator

/-- One operation, in the run with the ticks and in the run without them. -/
theorem agrees_step {window : Int64} {c c' : Correlator} (hc : c.window = window)
    (hc' : c'.window = window)
    (h : ∀ key, Agrees window key ops (c.incidents.lookup key) (c'.incidents.lookup key))
    (hop : ExpiresToo window ops op) (key : String) :
    Agrees window key (ops ++ [op]) ((c.step op).1.incidents.lookup key)
      ((c'.run (withoutTicks [op])).incidents.lookup key) := by
  cases op with
  | process a clock =>
    show Agrees window key _ ((c.process a clock).1.incidents.lookup key)
      ((c'.process a clock).1.incidents.lookup key)
    by_cases hmal : a.Malformed
    · rw [Correlator.process_malformed hmal, Correlator.process_malformed hmal]
      exact (h key).concat_process fun halerts => halerts.1 hmal
    by_cases hkey : key = a.key
    · subst hkey
      have heq := ((h a.key).process hc hc' hmal).2 hop
      obtain ⟨st, hst, hlast⟩ := Correlator.exists_lookup_process c clock hmal
      refine .kept st [] ?_ ?_ hst (heq.symm.trans hst)
      · rw [hlast]
        exact lastAlert_self hmal
      · rintro ⟨t, ht, -⟩
        exact absurd ht List.not_mem_nil
    · rw [Correlator.lookup_process_of_ne hkey, Correlator.lookup_process_of_ne hkey]
      exact (h key).concat_process fun halerts => hkey halerts.2.symm
  | evictExpired t =>
    show Agrees window key _ ((c.evictExpired t).incidents.lookup key) (c'.incidents.lookup key)
    rw [Correlator.lookup_evictExpired]
    obtain rfl := hc
    exact (h key).concat_evictExpired t

section Cleanup

variable (window : Int64) (hwindow : 0 < window)

/-- The window is the one configured. -/
theorem window_newCorrelator_run (ops : List Op) :
    ((newCorrelator window hwindow).run ops).window = window :=
  Correlator.window_run _ _

/-- **With and without ticks the entries agree**, if each tick evicts only what has expired. -/
theorem agrees_run (halong : Along (ExpiresToo window) ops) (key : String) :
    Agrees window key ops (((newCorrelator window hwindow).run ops).incidents.lookup key)
      (((newCorrelator window hwindow).run (withoutTicks ops)).incidents.lookup key) := by
  induction ops using List.reverseRecOn generalizing key with
  | nil => exact .unseen (fun _ _ => not_lastAlert_nil) rfl rfl
  | append_singleton ops op ih =>
    obtain ⟨halong, hop⟩ := along_concat.mp halong
    rw [Correlator.run_append, withoutTicks, List.filter_append, Correlator.run_append]
    exact agrees_step (window_newCorrelator_run window hwindow _)
      (window_newCorrelator_run window hwindow _) (ih halong) hop key

/-- **Cleanup is only garbage collection** exactly when every incident that a tick
finds expired is found expired by the next alert of its key, too. -/
theorem cleanup_invisible_iff (ops : List Op) :
    (newCorrelator window hwindow).replies ops =
        (newCorrelator window hwindow).replies (withoutTicks ops) ↔
      Along (ExpiresToo window) ops := by
  refine along_iff (G := fun ops => (newCorrelator window hwindow).replies ops =
    (newCorrelator window hwindow).replies (withoutTicks ops)) rfl ?_ ?_ ops
  · intro ops op h
    cases op with
    | process a clock =>
      rw [withoutTicks_process, Correlator.replies_process, Correlator.replies_process] at h
      exact (List.append_inj' h rfl).1
    | evictExpired t =>
      rwa [withoutTicks_evictExpired, Correlator.replies_evictExpired] at h
  · intro ops op hgood halong
    cases op with
    | process a clock =>
      rw [withoutTicks_process, Correlator.replies_process, Correlator.replies_process, hgood,
        List.append_cancel_left_eq, List.singleton_inj]
      by_cases hmal : a.Malformed
      · rw [Correlator.process_malformed hmal, Correlator.process_malformed hmal]
        exact iff_of_true rfl fun hnot => absurd hmal hnot
      · exact ((agrees_run window hwindow halong a.key).process
          (window_newCorrelator_run window hwindow _) (window_newCorrelator_run window hwindow _)
          hmal).1
    | evictExpired t =>
      rw [withoutTicks_evictExpired, Correlator.replies_evictExpired]
      exact iff_of_true hgood trivial

end Cleanup

/-- A tick between two alerts that are more than the window apart. -/
theorem cleanup_invisible_iff_late :
    let c := newCorrelator 60 (by decide)
    let a : Alert := ⟨"scan", "10.0.0.1", 100, "low", "", "", "n1", "", [], "", none⟩
    let b : Alert := ⟨"scan", "10.0.0.1", 200, "low", "", "", "n1", "", [], "", none⟩
    let ops : List Op := [.process a 100, .evictExpired 180, .process b 200]
    c.replies ops = c.replies (withoutTicks ops) ↔ Along (ExpiresToo 60) ops :=
  cleanup_invisible_iff 60 (by decide) _

/-- Boot-time timestamps and a wall clock: the tick between two alerts, ten
nanoseconds apart, has the second one reported as a new incident. -/
theorem not_cleanup_invisible :
    let c := newCorrelator 60 (by decide)
    let a : Alert := ⟨"scan", "10.0.0.1", 100, "low", "", "", "n1", "", [], "", none⟩
    let b : Alert := ⟨"scan", "10.0.0.1", 110, "low", "", "", "n1", "", [], "", none⟩
    let ops : List Op := [.process a 5000, .evictExpired 5010, .process b 5020]
    ¬ c.replies ops = c.replies (withoutTicks ops) := by
  intro c a b ops h
  have hemit : (c.replies ops).map Reply.emit = (c.replies (withoutTicks ops)).map Reply.emit :=
    congrArg (List.map Reply.emit) h
  exact absurd hemit (by decide)

end Aggregator
