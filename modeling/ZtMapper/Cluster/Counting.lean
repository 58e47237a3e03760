/-
# No alert counts twice

A message is taken once, and a replica answers it with one message at most.  So the upserts of a
key are no more than the alerts of the key that have been sent, on all nodes together.
-/
import ZtMapper.Cluster.Delivery
import Mathlib.Algebra.BigOperators.Group.Finset.Piecewise
import Mathlib.Algebra.Order.BigOperators.Group.Finset

open Aggregator AlertBridge IncidentService Runs

namespace Cluster

/-! ## Messages of a key -/

/-- The message is read as an alert of the key. -/
def rawOf (k : String) (m : List UInt8) : Bool := (unmarshalAlert m).any fun b => b.key = k

def enrichedOf (k : String) (m : List UInt8) : Bool := (unmarshalIncoming m).any fun x => x.key = k

/-- A written alert is read with its key. -/
theorem key_of_unmarshalIncoming {out : Alert} {body : List UInt8} {x : IncomingAlert}
    (hbody : marshalAlert out = some body) (hx : unmarshalIncoming body = some x) :
    x.key = out.key := by
  rw [eq_of_unmarshalIncoming hbody hx]
  rfl

/-- A replica answers a message with one of the same key at most. -/
theorem countP_sent_le (c : Correlator) (m : List UInt8) (clock : Int64)
    (delivery : Aggregator.Delivery) (k : String) :
    ((handle c (unmarshalAlert m) clock delivery).2.sent.filterMap marshalAlert).countP
      (enrichedOf k) ≤ if rawOf k m then 1 else 0 := by
  unfold rawOf
  cases hb : unmarshalAlert m with
  | none => exact Nat.zero_le _
  | some b =>
    have hone := State.length_sent_le c (some b) clock delivery
    rw [Option.any_some]
    split_ifs with hkey
    · exact (List.countP_le_length).trans ((List.length_filterMap_le _ _).trans hone)
    · refine Nat.le_of_eq (List.countP_eq_zero.mpr fun body hbody hcount => ?_)
      obtain ⟨out, hout, hmarshal⟩ := List.mem_filterMap.mp hbody
      unfold enrichedOf at hcount
      obtain ⟨x, hx, hxkey⟩ := (Option.any_eq_true _ _).mp hcount
      have hsame := key_of_unmarshalIncoming hmarshal hx
      rw [Correlator.key_of_out (State.out_of_sent hout)] at hsame
      exact hkey (decide_eq_true (hsame.symm.trans (of_decide_eq_true hxkey)))

/-- A message less. -/
theorem countP_eraseIdx {α : Type} {l : List α} {p : α → Bool} {i : ℕ} {a : α}
    (h : l[i]? = some a) : (l.eraseIdx i).countP p + (if p a then 1 else 0) = l.countP p := by
  induction l generalizing i with
  | nil => cases h
  | cons b l ih =>
    cases i with
    | zero =>
      obtain rfl := Option.some.inj h
      rw [List.eraseIdx_cons_zero, List.countP_cons]
    | succ i =>
      rw [List.eraseIdx_cons_succ, List.countP_cons, List.countP_cons, ← ih h]
      omega

namespace State

variable {ι : Type} [Fintype ι] [DecidableEq ι] {R : ℕ} {s s' : State ι R}
  {events : List (Event ι R)} {e : Event ι R} {window : Int64} {hwindow : 0 < window}

/-! ## The invariant -/

/-- The messages of the key that have been published. -/
def publishedOf (s : State ι R) (k : String) : ℕ :=
  ∑ i, (s.nodes i).bridge.published.countP (rawOf k)

/-- What is under way and what has arrived is no more than what has been published. -/
def Counted (s : State ι R) : Prop :=
  ∃ es, reach Service.step {} es = some s.service ∧ ∀ k,
    s.raw.countP (rawOf k) + s.enriched.countP (enrichedOf k) +
      ((arrivals es).countP fun x => x.key = k) ≤ s.publishedOf k

theorem publishedOf_update (i : ι) (n : Node) (k : String) (raw : List (List UInt8)) :
    publishedOf { s with nodes := Function.update s.nodes i n, raw := raw } k +
        (s.nodes i).bridge.published.countP (rawOf k) =
      s.publishedOf k + n.bridge.published.countP (rawOf k) := by
  have hterm : (fun j => (Function.update s.nodes i n j).bridge.published.countP (rawOf k)) =
      Function.update (fun j => (s.nodes j).bridge.published.countP (rawOf k)) i
        (n.bridge.published.countP (rawOf k)) := by
    funext j
    by_cases hj : j = i
    · rw [hj, Function.update_self, Function.update_self]
    · rw [Function.update_of_ne hj, Function.update_of_ne hj]
  unfold publishedOf
  dsimp only
  rw [hterm, Finset.sum_update_of_mem (Finset.mem_univ i),
    ← Finset.add_sum_erase _ _ (Finset.mem_univ i)]
  rw [Finset.sdiff_singleton_eq_erase]
  omega

theorem Counted.step (h : s.Counted) (hstep : s.step e = some s') : s'.Counted := by
  obtain ⟨es, hes, hle⟩ := h
  cases e with
  | node i ne =>
    obtain ⟨n, hn, rfl⟩ := Option.map_eq_some_iff.mp hstep
    refine ⟨es, hes, fun k => ?_⟩
    have hle := hle k
    obtain ⟨new, hnew⟩ := Node.published_isPrefix hn
    have hsum := publishedOf_update (s := s) i n k
      (s.raw ++ n.bridge.published.drop (s.nodes i).bridge.published.length)
    dsimp only at hsum ⊢
    rw [← hnew, List.drop_left, List.countP_append]
    rw [← hnew, List.drop_left, List.countP_append] at hsum
    omega
  | receive j r clock delivery =>
    obtain ⟨m, hm, rfl⟩ := Option.map_eq_some_iff.mp hstep
    refine ⟨es, hes, fun k => le_trans ?_ (hle k)⟩
    have herase := countP_eraseIdx (p := rawOf k) hm
    have hsent := countP_sent_le (s.replicas r) m clock delivery k
    dsimp only
    rw [List.countP_append]
    omega
  | evictExpired r clock =>
    obtain rfl := Option.some.inj hstep
    exact ⟨es, hes, hle⟩
  | deliver j =>
    obtain ⟨m, hm, hread⟩ := Option.bind_eq_some_iff.mp hstep
    have herase := fun k => countP_eraseIdx (p := enrichedOf k) hm
    cases hx : unmarshalIncoming m with
    | none =>
      rw [hx] at hread
      obtain rfl := Option.some.inj hread
      refine ⟨es, hes, fun k => le_trans ?_ (hle k)⟩
      have hless := herase k
      dsimp only
      omega
    | some x =>
      rw [hx] at hread
      obtain ⟨service, hservice, rfl⟩ := Option.map_eq_some_iff.mp hread
      refine ⟨es ++ [.arrive (.deliver x)], reach_concat_eq_some.mpr ⟨_, hes, hservice⟩,
        fun k => le_trans ?_ (hle k)⟩
      have harrived : arrivals [.arrive (.deliver x)] = [x] := rfl
      have hof : enrichedOf k m = decide (x.key = k) := by
        rw [enrichedOf, hx, Option.any_some]
      have hless := herase k
      rw [hof] at hless
      rw [arrivals_concat, harrived, List.countP_append, List.countP_singleton]
      dsimp only
      omega
  | service se =>
    unfold State.step at hstep
    dsimp only at hstep
    split_ifs at hstep with hse
    obtain ⟨service, hservice, rfl⟩ := Option.map_eq_some_iff.mp hstep
    refine ⟨es ++ [se], reach_concat_eq_some.mpr ⟨_, hes, hservice⟩,
      fun k => le_trans ?_ (hle k)⟩
    rw [arrivals_concat, arrivals_eq_nil hse, List.append_nil]
  | loseRaw j =>
    obtain rfl := Option.some.inj hstep
    refine ⟨es, hes, fun k => le_trans ?_ (hle k)⟩
    have herase := (List.eraseIdx_sublist s.raw j).countP_le (p := rawOf k)
    dsimp only
    omega
  | loseEnriched j =>
    obtain rfl := Option.some.inj hstep
    refine ⟨es, hes, fun k => le_trans ?_ (hle k)⟩
    have herase := (List.eraseIdx_sublist s.enriched j).countP_le (p := enrichedOf k)
    dsimp only
    omega

end State

end Cluster
