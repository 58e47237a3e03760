/-
# Replicas of the aggregator

Every raw alert reaches one replica of the queue group, and every replica has a
correlator of its own.  `cross_iff` says for one correlator which alerts it must
have received to have emitted a cross-node alert; `detectsCross_iff` carries this to
a group of replicas.
-/
import ZtMapper.Lib.Runs
import ZtMapper.Aggregator.Order
import Mathlib.Data.List.Chain

open Unordered Runs

namespace Aggregator

/-- The entry of an operation that is an alert of `key`. -/
def Op.entry (key : String) : Op → Option Entry
  | .process a clock => if ¬ a.Malformed ∧ a.key = key then some (a, a.time clock) else none
  | .evictExpired _ => none

/-- The alerts of `key` among some operations. -/
def alertsOf (key : String) (ops : List Op) : List Entry := ops.filterMap (Op.entry key)

theorem alertsOf_concat (key : String) (ops : List Op) (op : Op) :
    alertsOf key (ops ++ [op]) = alertsOf key ops ++ (op.entry key).toList := by
  cases h : op.entry key with
  | none => simp [alertsOf, h]
  | some e => simp [alertsOf, h]

/-- The second alert is not more than the window after the first.  The difference
is an `int64`. -/
def Continues (window : Int64) (x y : Entry) : Prop := ¬ y.2 - x.2 > window

instance (window : Int64) (x y : Entry) : Decidable (Continues window x y) :=
  inferInstanceAs (Decidable (¬ _))

/-! ## Lifetimes without evictions -/

section Lifetimes

variable {window : Int64} {hwindow : 0 < window} {key : String} {ops : List Op} {op : Op}

/-- An alert of the key starts a lifetime or continues it; nothing else changes it. -/
theorem lifetime_concat (hop : ∃ a clock, op = .process a clock) :
    (op.entry key = none ∧ lifetime (newCorrelator window hwindow) (ops ++ [op]) key =
        lifetime (newCorrelator window hwindow) ops key) ∨
      ∃ e, op.entry key = some e ∧
        (((∀ x ∈ (lifetime (newCorrelator window hwindow) ops key).getLast?,
            ¬ Continues window x e) ∧
          lifetime (newCorrelator window hwindow) (ops ++ [op]) key = [e]) ∨
        ((∃ x ∈ (lifetime (newCorrelator window hwindow) ops key).getLast?, Continues window x e) ∧
          lifetime (newCorrelator window hwindow) (ops ++ [op]) key =
            lifetime (newCorrelator window hwindow) ops key ++ [e])) := by
  obtain ⟨a, clock, rfl⟩ := hop
  have htracked := tracked_run (tracked_start window hwindow) ops
  have hcorr : (Traced.run ⟨newCorrelator window hwindow, fun _ => []⟩ ops).corr.window = window := by
    rw [Traced.corr_run, Correlator.window_run]
    rfl
  unfold lifetime
  rw [Traced.run_append]
  revert htracked hcorr
  generalize Traced.run ⟨newCorrelator window hwindow, fun _ => []⟩ ops = t
  intro htracked hcorr
  show (_ ∧ (t.step (.process a clock)).life key = _) ∨ _
  -- an alert of another key, or a malformed one, leaves the lifetime as it is
  by_cases halert : ¬ a.Malformed ∧ a.key = key
  · obtain ⟨hmal, rfl⟩ := halert
    refine Or.inr ⟨(a, a.time clock), if_pos ⟨hmal, rfl⟩, ?_⟩
    by_cases hfresh : t.corr.StartsFresh a clock
    · refine Or.inl ⟨fun x hx => ?_, Traced.life_fresh hmal hfresh⟩
      have hexp := htracked.startsFresh_iff.mp hfresh x hx
      rw [hcorr] at hexp
      exact not_not.mpr hexp
    · obtain ⟨st, hlive⟩ := Correlator.exists_live hfresh
      refine Or.inr ⟨?_, Traced.life_live hmal hlive⟩
      rw [htracked.startsFresh_iff, hcorr] at hfresh
      by_contra hnone
      exact hfresh fun x hx => not_not.mp fun hcont => hnone ⟨x, hx, hcont⟩
  · refine Or.inl ⟨if_neg halert, ?_⟩
    by_cases hmal : a.Malformed
    · rw [Traced.step_malformed t hmal]
    · exact Traced.life_of_ne fun hkey => halert ⟨hmal, hkey.symm⟩

/-- There are no ticks. -/
def NoTicks (ops : List Op) : Prop := ∀ op ∈ ops, ∃ a clock, op = .process a clock

theorem NoTicks.of_concat (h : NoTicks (ops ++ [op])) :
    NoTicks ops ∧ ∃ a clock, op = .process a clock :=
  ⟨fun o ho => h o (List.mem_append_left _ ho), h op (List.mem_append_right _ (by simp))⟩

/-- A lifetime is a chain of the latest alerts of the key. -/
theorem lifetime_suffix (h : NoTicks ops) :
    lifetime (newCorrelator window hwindow) ops key <:+ alertsOf key ops ∧
      (lifetime (newCorrelator window hwindow) ops key).IsChain (Continues window) := by
  induction ops using List.reverseRecOn with
  | nil => exact ⟨List.suffix_refl [], List.isChain_nil⟩
  | append_singleton ops op ih =>
    obtain ⟨hops, hop⟩ := h.of_concat
    obtain ⟨hsuffix, hchain⟩ := ih hops
    rw [alertsOf_concat]
    rcases lifetime_concat hop with ⟨hnone, heq⟩ | ⟨e, he, ⟨-, heq⟩ | ⟨⟨x, hx, hcont⟩, heq⟩⟩
    · rw [hnone, heq]
      exact ⟨by simpa using hsuffix, hchain⟩
    · rw [he, heq]
      exact ⟨List.suffix_append _ _, List.isChain_singleton e⟩
    · rw [he, heq]
      refine ⟨List.suffix_append_self_iff.mpr hsuffix, List.isChain_append.mpr
        ⟨hchain, List.isChain_singleton e, fun y hy e' he' => ?_⟩⟩
      obtain rfl := Option.some.inj he'
      obtain rfl := Option.mem_unique hx hy
      exact hcont

/-- A chain of the latest alerts of the key belongs to the lifetime. -/
theorem suffix_lifetime (h : NoTicks ops) {earlier chain : List Entry}
    (halerts : alertsOf key ops = earlier ++ chain) (hchain : chain.IsChain (Continues window)) :
    chain <:+ lifetime (newCorrelator window hwindow) ops key := by
  induction ops using List.reverseRecOn generalizing chain with
  | nil =>
    obtain ⟨-, rfl⟩ := List.append_eq_nil_iff.mp halerts.symm
    exact List.nil_suffix
  | append_singleton ops op ih =>
    obtain ⟨hops, hop⟩ := h.of_concat
    rw [alertsOf_concat] at halerts
    rcases lifetime_concat hop with ⟨hnone, heq⟩ | ⟨e, he, hcases⟩
    · rw [hnone, Option.toList_none, List.append_nil] at halerts
      rw [heq]
      exact ih hops halerts hchain
    · rw [he, Option.toList_some] at halerts
      rcases List.eq_nil_or_concat chain with rfl | ⟨chain', e', rfl⟩
      · exact List.nil_suffix
      rw [List.concat_eq_append, ← List.append_assoc] at halerts
      obtain ⟨halerts', hlast⟩ := List.append_inj' halerts rfl
      obtain rfl := List.singleton_inj.mp hlast
      rw [List.concat_eq_append] at hchain ⊢
      obtain ⟨hchain', -, hjoin⟩ := List.isChain_append.mp hchain
      have hsuffix := ih hops halerts' hchain'
      rcases hcases with ⟨hfresh, heq⟩ | ⟨-, heq⟩
      · rw [heq]
        rcases List.eq_nil_or_concat chain' with rfl | ⟨chain'', x, rfl⟩
        · exact List.suffix_refl _
        -- the last alert of the chain is the last one of the lifetime, so it is continued
        rw [List.concat_eq_append] at hsuffix hjoin
        obtain ⟨front, hfront⟩ := hsuffix
        have hx : x ∈ (lifetime (newCorrelator window hwindow) ops key).getLast? := by
          rw [← hfront, ← List.append_assoc, List.getLast?_concat]
          rfl
        exact absurd (hjoin x (by rw [List.getLast?_concat]; rfl) e rfl) (hfresh x hx)
      · rw [heq]
        exact List.suffix_append_self_iff.mpr hsuffix

/-! ## Cross-node alerts of one correlator -/

/-- The reply emits an alert of `key` that is marked cross-node. -/
def Reply.Cross (reply : Reply) (key : String) : Prop :=
  reply.emit = true ∧ ∃ out ∈ reply.out, ¬ out.Malformed ∧ out.key = key ∧
    ∃ info ∈ out.correlation, info.crossNode = true

/-- The alerts of `key` hold a chain with two nodes. -/
def Chained (window : Int64) (key : String) (ops : List Op) : Prop :=
  ∃ chain, chain <:+: alertsOf key ops ∧ chain.IsChain (Continues window) ∧
    2 ≤ (nodesOf chain).card

/-- The nodes of a part of the alerts. -/
theorem card_nodesOf_le_of_subset {life life' : List Entry} (h : life ⊆ life') :
    (nodesOf life).card ≤ (nodesOf life').card := by
  refine Finset.card_le_card (Finset.erase_subset_erase _ fun name hname => ?_)
  rw [List.mem_toFinset] at hname ⊢
  exact List.map_subset _ h hname

theorem crosses_iff_of_reads {reply : Reply} {life : List Entry} {a : Alert} {now : Int64}
    (h : ReadsLifetime reply life a now) :
    Crosses life ↔ reply.emit = true ∧ 2 ≤ (nodesOf life).card := by
  rw [h.emit_iff]
  constructor
  · intro hcrosses
    exact ⟨Or.inr hcrosses, hcrosses.2⟩
  · rintro ⟨hone | hcrosses, hcard⟩
    · obtain ⟨e, rfl⟩ := List.length_eq_one_iff.mp hone
      exact ⟨Nat.zero_lt_two, hcard⟩
    · exact hcrosses

/-- The reply to an alert is cross-node for the key when the nodes become two. -/
theorem process_cross_iff {a : Alert} {clock : Int64} :
    (((newCorrelator window hwindow).run ops).process a clock).2.Cross key ↔
      ¬ a.Malformed ∧ a.key = key ∧
        Crosses (lifetime (newCorrelator window hwindow) (ops ++ [.process a clock]) key) := by
  constructor
  · rintro ⟨hemit, out, hout, hmalout, hkey, info, hinfo, hcross⟩
    have hmal : ¬ a.Malformed := by
      obtain ⟨htype, hsource⟩ := Correlator.pair_of_out hout
      rwa [Alert.Malformed, htype, hsource] at hmalout
    obtain rfl : a.key = key := (Correlator.key_of_out hout).symm.trans hkey
    have hreads := process_reads_lifetime window hwindow ops a (fun h => hmal (Or.inl h))
      (fun h => hmal (Or.inr h)) clock
    refine ⟨hmal, rfl, (crosses_iff_of_reads hreads).mpr ⟨hemit, ?_⟩⟩
    obtain ⟨out', info', hout', hinfo', -, -, -, -, hcard⟩ := hreads.correlation hemit
    obtain rfl := Option.some.inj (hout'.symm.trans hout)
    obtain rfl := Option.some.inj (hinfo'.symm.trans hinfo)
    exact hcard.mp hcross
  · rintro ⟨hmal, rfl, hcrosses⟩
    have hreads := process_reads_lifetime window hwindow ops a (fun h => hmal (Or.inl h))
      (fun h => hmal (Or.inr h)) clock
    obtain ⟨hemit, hcard⟩ := (crosses_iff_of_reads hreads).mp hcrosses
    obtain ⟨out, info, hout, hinfo, -, -, -, -, hcross⟩ := hreads.correlation hemit
    obtain ⟨htype, hsource⟩ := Correlator.pair_of_out hout
    refine ⟨hemit, out, hout, ?_, Correlator.key_of_out hout, info, hinfo, hcross.mpr hcard⟩
    rwa [Alert.Malformed, htype, hsource]

/-- A lifetime with two nodes has them before the last alert, or gets them with it. -/
theorem crosses_or_of_card {a : Alert} {clock : Int64}
    (hcard : 2 ≤ (nodesOf (lifetime (newCorrelator window hwindow)
      (ops ++ [.process a clock]) key)).card) :
    2 ≤ (nodesOf (lifetime (newCorrelator window hwindow) ops key)).card ∨
      (¬ a.Malformed ∧ a.key = key) ∧
        Crosses (lifetime (newCorrelator window hwindow) (ops ++ [.process a clock]) key) := by
  rcases lifetime_concat ⟨a, clock, rfl⟩ with ⟨-, heq⟩ | ⟨e, he, ⟨-, heq⟩ | ⟨-, heq⟩⟩
  · rw [heq] at hcard
    exact Or.inl hcard
  · rw [heq] at hcard
    exact absurd ⟨Nat.zero_lt_two, hcard⟩ (not_crosses_singleton e)
  · by_cases hlt : 2 ≤ (nodesOf (lifetime (newCorrelator window hwindow) ops key)).card
    · exact Or.inl hlt
    · refine Or.inr ⟨?_, ?_, hcard⟩
      · by_contra hnot
        rw [Op.entry, if_neg hnot] at he
        cases he
      · rw [heq, List.dropLast_concat]
        omega

/-- A cross-node alert has been emitted when some lifetime has had two nodes. -/
theorem exists_cross_iff (h : NoTicks ops) :
    (∃ reply ∈ (newCorrelator window hwindow).replies ops, reply.Cross key) ↔
      ∃ pre, pre <+: ops ∧ 2 ≤ (nodesOf (lifetime (newCorrelator window hwindow) pre key)).card := by
  induction ops using List.reverseRecOn with
  | nil =>
    constructor
    · rintro ⟨reply, hreply, -⟩
      exact absurd hreply List.not_mem_nil
    · rintro ⟨pre, hpre, hcard⟩
      rw [List.prefix_nil.mp hpre] at hcard
      exact absurd (show 2 ≤ (nodesOf []).card from hcard) (by decide)
  | append_singleton ops op ih =>
    obtain ⟨hops, a, clock, rfl⟩ := h.of_concat
    have ih := ih hops
    rw [Correlator.replies_append]
    constructor
    · rintro ⟨reply, hreply, hcross⟩
      rcases List.mem_append.mp hreply with hreply | hreply
      · obtain ⟨pre, hpre, hcard⟩ := ih.mp ⟨reply, hreply, hcross⟩
        exact ⟨pre, hpre.trans (List.prefix_append _ _), hcard⟩
      · rw [List.mem_singleton.mp hreply] at hcross
        exact ⟨_, List.prefix_rfl, (process_cross_iff.mp hcross).2.2.2⟩
    · rintro ⟨pre, hpre, hcard⟩
      have hearlier : (∃ pre, pre <+: ops ∧
          2 ≤ (nodesOf (lifetime (newCorrelator window hwindow) pre key)).card) →
          ∃ reply ∈ (newCorrelator window hwindow).replies ops ++
            ((newCorrelator window hwindow).run ops).replies [.process a clock], reply.Cross key := by
        intro hpre
        obtain ⟨reply, hreply, hcross⟩ := ih.mpr hpre
        exact ⟨reply, List.mem_append_left _ hreply, hcross⟩
      -- two nodes in the whole run have come with the last alert, or were there before it
      rcases List.prefix_concat_iff.mp hpre with rfl | hpre
      · rcases crosses_or_of_card hcard with hcard | ⟨⟨hmal, hkey⟩, hcrosses⟩
        · exact hearlier ⟨ops, List.prefix_rfl, hcard⟩
        · exact ⟨_, List.mem_append_right _ (List.mem_singleton_self _),
            process_cross_iff.mpr ⟨hmal, hkey, hcrosses⟩⟩
      · exact hearlier ⟨pre, hpre, hcard⟩

/-- One correlator has emitted a cross-node alert of the key exactly when it has
received a chain of its alerts with two nodes. -/
theorem cross_iff (h : NoTicks ops) :
    (∃ reply ∈ (newCorrelator window hwindow).replies ops, reply.Cross key) ↔
      Chained window key ops := by
  rw [exists_cross_iff h]
  constructor
  · rintro ⟨pre, hpre, hcard⟩
    obtain ⟨hsuffix, hchain⟩ :=
      @lifetime_suffix window hwindow key pre fun op hop => h op (hpre.subset hop)
    exact ⟨_, hsuffix.isInfix.trans (hpre.filterMap _).isInfix, hchain, hcard⟩
  · rintro ⟨chain, ⟨earlier, later, heq⟩, hchain, hcard⟩
    obtain ⟨pre, rest, rfl, hpre, -⟩ := List.filterMap_eq_append_iff.mp heq.symm
    have hsuffix := @suffix_lifetime window hwindow key pre
      (fun op hop => h op (List.mem_append_left _ hop)) earlier chain hpre hchain
    exact ⟨pre, List.prefix_append _ _, hcard.trans (card_nodesOf_le_of_subset hsuffix.subset)⟩

end Lifetimes

/-! ## The queue group -/

/-- A raw alert, with the replica that receives it and the reading of its clock. -/
structure Received (R : ℕ) where
  replica : Fin R
  alert : Alert
  clock : Int64

/-- The correlators of the replicas, and the replies so far. -/
structure Group (R : ℕ) where
  replicas : Fin R → Correlator
  replies : List (Fin R × Reply)

namespace Group

variable {R : ℕ}

/-- A replica processes an alert. -/
def step (g : Group R) (d : Received R) : Group R where
  replicas := Function.update g.replicas d.replica
    ((g.replicas d.replica).process d.alert d.clock).1
  replies := g.replies ++ [(d.replica, ((g.replicas d.replica).process d.alert d.clock).2)]

def run (g : Group R) (ds : List (Received R)) : Group R := ds.foldl step g

/-- The replicas start without incidents. -/
def start (window : Int64) (h : 0 < window) (R : ℕ) : Group R :=
  ⟨fun _ => newCorrelator window h, []⟩

/-- Some replica has emitted an alert of `key` that is marked cross-node. -/
def HasCross (g : Group R) (key : String) : Prop := ∃ e ∈ g.replies, e.2.Cross key

theorem run_concat (g : Group R) (ds : List (Received R)) (d : Received R) :
    g.run (ds ++ [d]) = (g.run ds).step d :=
  List.foldl_append

end Group

/-- What a replica receives. -/
def opsOf {R : ℕ} (i : Fin R) (ds : List (Received R)) : List Op :=
  ds.filterMap fun d => if d.replica = i then some (.process d.alert d.clock) else none

section Group

variable {R : ℕ} {window : Int64} {hwindow : 0 < window} {ds : List (Received R)} {d : Received R}
  {i : Fin R}

theorem opsOf_concat :
    opsOf i (ds ++ [d]) =
      opsOf i ds ++ if d.replica = i then [.process d.alert d.clock] else [] := by
  by_cases h : d.replica = i
  · simp [opsOf, h]
  · simp [opsOf, h]

theorem noTicks_opsOf : NoTicks (opsOf i ds) := by
  intro op hop
  obtain ⟨d, -, hd⟩ := List.mem_filterMap.mp hop
  split_ifs at hd
  exact ⟨d.alert, d.clock, (Option.some.inj hd).symm⟩

/-- A replica is in the state, and has made the replies, of its own run. -/
theorem run_start (ds : List (Received R)) (i : Fin R) :
    ((Group.start window hwindow R).run ds).replicas i =
        (newCorrelator window hwindow).run (opsOf i ds) ∧
      ∀ reply, (i, reply) ∈ ((Group.start window hwindow R).run ds).replies ↔
        reply ∈ (newCorrelator window hwindow).replies (opsOf i ds) := by
  induction ds using List.reverseRecOn with
  | nil => exact ⟨rfl, fun reply => iff_of_false List.not_mem_nil List.not_mem_nil⟩
  | append_singleton ds d ih =>
    obtain ⟨hstate, hreplies⟩ := ih
    rw [Group.run_concat, opsOf_concat]
    -- a delivery to another replica leaves this one alone
    by_cases hi : d.replica = i
    · subst hi
      rw [if_pos rfl]
      constructor
      · rw [Correlator.run_append, ← hstate]
        exact Function.update_self ..
      · intro reply
        rw [Correlator.replies_append, List.mem_append, ← hreplies, ← hstate]
        show _ ∈ _ ++ _ ↔ _
        rw [List.mem_append, List.mem_singleton, Prod.mk.injEq]
        exact or_congr_right ⟨fun h => List.mem_singleton.mpr h.2,
          fun h => ⟨rfl, List.mem_singleton.mp h⟩⟩
    · rw [if_neg hi, List.append_nil]
      constructor
      · rw [← hstate]
        exact Function.update_of_ne (Ne.symm hi) _ _
      · intro reply
        rw [← hreplies]
        show _ ∈ _ ++ _ ↔ _
        rw [List.mem_append, List.mem_singleton, Prod.mk.injEq, or_iff_left]
        exact fun h => hi h.1.symm

theorem hasCross_iff {key : String} :
    ((Group.start window hwindow R).run ds).HasCross key ↔
      ∃ i, Chained window key (opsOf i ds) := by
  constructor
  · rintro ⟨⟨i, reply⟩, hreply, hcross⟩
    exact ⟨i, (cross_iff noTicks_opsOf).mp ⟨reply, ((run_start ds i).2 reply).mp hreply, hcross⟩⟩
  · rintro ⟨i, hchained⟩
    obtain ⟨reply, hreply, hcross⟩ := (@cross_iff window hwindow key _ noTicks_opsOf).mpr hchained
    exact ⟨(i, reply), ((run_start ds i).2 reply).mpr hreply, hcross⟩

/-- Two alerts of one type and source, from two nodes and at most the window apart. -/
structure SamePair (window : Int64) (d d' : Received R) : Prop where
  wellFormed : ¬ d.alert.Malformed
  type_eq : d.alert.type = d'.alert.type
  source_eq : d.alert.source = d'.alert.source
  node_ne : d.alert.nodeName ≠ "" ∧ d'.alert.nodeName ≠ "" ∧
    d.alert.nodeName ≠ d'.alert.nodeName
  within : Within window (d.alert.time d.clock) (d'.alert.time d'.clock)

/-- By the later one of two such alerts a cross-node alert of the key has been
emitted. -/
def DetectsCross (window : Int64) (hwindow : 0 < window) (ds : List (Received R)) : Prop :=
  Along (fun pre d => (∃ d' ∈ pre, SamePair window d' d) →
    ((Group.start window hwindow R).run (pre ++ [d])).HasCross d.alert.key) ds

/-- **Cross-node alerts of a group of replicas** are emitted exactly when some
replica has received a chain with two nodes. -/
theorem detectsCross_iff (R : ℕ) (window : Int64) (hwindow : 0 < window) (ds : List (Received R)) :
    DetectsCross window hwindow ds ↔
      Along (fun pre d => (∃ d' ∈ pre, SamePair window d' d) →
        ∃ i, Chained window d.alert.key (opsOf i (pre ++ [d]))) ds := by
  constructor
  · intro h
    exact h.mono fun pre d hdetects hpair => hasCross_iff.mp (hdetects hpair)
  · intro h
    exact h.mono fun pre d hchained hpair => hasCross_iff.mpr (hchained hpair)

/-- The timestamps of a key do not decrease. -/
def Ordered (ds : List (Received R)) : Prop :=
  ds.Pairwise fun d d' => ¬ d.alert.Malformed → ¬ d'.alert.Malformed →
    d.alert.key = d'.alert.key → d.alert.time d.clock ≤ d'.alert.time d'.clock

theorem Ordered.pairwise_alertsOf (h : Ordered ds) (key : String) (i : Fin R) :
    (alertsOf key (opsOf i ds)).Pairwise fun x y => x.2 ≤ y.2 := by
  rw [alertsOf, opsOf, List.filterMap_filterMap, List.pairwise_filterMap]
  refine h.imp fun {d d'} hle x hx y hy => ?_
  have hentry : ∀ {d : Received R} {x : Entry},
      ((if d.replica = i then some (Op.process d.alert d.clock) else none).bind (Op.entry key)) =
        some x → (¬ d.alert.Malformed ∧ d.alert.key = key) ∧ x.2 = d.alert.time d.clock := by
    intro d x hx
    split_ifs at hx
    · rw [Option.bind_some, Op.entry] at hx
      split_ifs at hx with halert
      exact ⟨halert, by rw [← Option.some.inj hx]⟩
    · cases hx
  obtain ⟨⟨hmal, hkey⟩, hx⟩ := hentry hx
  obtain ⟨⟨hmal', hkey'⟩, hy⟩ := hentry hy
  rw [hx, hy]
  exact hle hmal hmal' (hkey.trans hkey'.symm)

/-- Two times in order, between two that are at most the window apart. -/
theorem continues_of_between {x y lo hi : Entry} (hlo : lo.2 ≤ x.2) (hxy : x.2 ≤ y.2)
    (hhi : y.2 ≤ hi.2) (hwithin : Within window lo.2 hi.2) : Continues window x y := by
  intro hexp
  have hdiff := Int64.lt_iff_toInt_lt.mp hexp
  rw [Int64.toInt_sub, Int.bmod_def] at hdiff
  rw [Int64.le_iff_toInt_le] at hlo hxy hhi
  have hspan := hwithin.2
  have hw := window.toInt_lt
  split_ifs at hdiff <;> omega

/-- A pair that one replica receives is chained there, the timestamps not
decreasing. -/
theorem chained_of_replica_eq {d' : Received R} (h : Ordered (ds ++ [d])) (hd' : d' ∈ ds)
    (hpair : SamePair window d' d) (hreplica : d'.replica = d.replica) :
    Chained window d.alert.key (opsOf d.replica (ds ++ [d])) := by
  have hkey : d'.alert.key = d.alert.key := by
    rw [Alert.key, Alert.key, hpair.type_eq, hpair.source_eq]
  have hmal : ¬ d.alert.Malformed := by
    have hwf := hpair.wellFormed
    rwa [Alert.Malformed, hpair.type_eq, hpair.source_eq] at hwf
  have hsorted := h.pairwise_alertsOf d.alert.key d.replica
  have halerts : alertsOf d.alert.key (opsOf d.replica (ds ++ [d])) =
      alertsOf d.alert.key (opsOf d.replica ds) ++ [(d.alert, d.alert.time d.clock)] := by
    rw [opsOf_concat, if_pos rfl, alertsOf_concat, Op.entry, if_pos ⟨hmal, rfl⟩]
    rfl
  have hmem : (d'.alert, d'.alert.time d'.clock) ∈
      alertsOf d.alert.key (opsOf d.replica ds) := by
    refine List.mem_filterMap.mpr ⟨.process d'.alert d'.clock, ?_, if_pos ⟨hpair.wellFormed, hkey⟩⟩
    exact List.mem_filterMap.mpr ⟨d', hd', if_pos hreplica⟩
  obtain ⟨earlier, mid, hsplit⟩ := List.append_of_mem hmem
  rw [hsplit, List.append_assoc] at halerts
  rw [halerts] at hsorted
  have hchain := (List.pairwise_append.mp hsorted).2.1
  -- the alerts from the first of the pair on lie within the window of each other
  refine ⟨_, ⟨earlier, [], by rw [halerts, List.append_nil]⟩, ?_, ?_⟩
  · refine List.Pairwise.isChain (hchain.imp_of_mem fun {x y} hx hy hxy => ?_)
    rw [List.cons_append] at hchain hx hy
    refine @continues_of_between window x y (d'.alert, d'.alert.time d'.clock)
      (d.alert, d.alert.time d.clock) ?_ hxy ?_ hpair.within
    · rcases List.mem_cons.mp hx with rfl | hx
      · exact Int64.le_refl _
      · exact List.rel_of_pairwise_cons hchain hx
    · rw [← List.cons_append] at hchain hy
      rcases List.mem_append.mp hy with hy | hy
      · exact (List.pairwise_append.mp hchain).2.2 y hy _ (List.mem_singleton_self _)
      · rw [List.mem_singleton.mp hy]
        exact Int64.le_refl _
  · have hsub : [(d'.alert, d'.alert.time d'.clock), (d.alert, d.alert.time d.clock)] ⊆
        (d'.alert, d'.alert.time d'.clock) :: mid ++ [(d.alert, d.alert.time d.clock)] := by
      intro e he
      rcases List.mem_cons.mp he with rfl | he
      · exact List.mem_cons_self
      · rw [List.mem_singleton.mp he]
        exact List.mem_append_right _ (List.mem_singleton_self _)
    refine le_trans ?_ (card_nodesOf_le_of_subset hsub)
    obtain ⟨hne, hne', hdiff⟩ := hpair.node_ne
    have hnodes : nodesOf [(d'.alert, d'.alert.time d'.clock), (d.alert, d.alert.time d.clock)] =
        {d'.alert.nodeName, d.alert.nodeName} := by
      have hset : (List.map (fun e : Entry => e.1.nodeName)
          [(d'.alert, d'.alert.time d'.clock), (d.alert, d.alert.time d.clock)]).toFinset =
          {d'.alert.nodeName, d.alert.nodeName} := by simp
      rw [nodesOf, hset]
      refine Finset.erase_eq_of_notMem fun hmem => ?_
      rcases Finset.mem_insert.mp hmem with heq | heq
      · exact hne heq.symm
      · exact hne' (Finset.mem_singleton.mp heq).symm
    rw [hnodes, Finset.card_pair hdiff]

/-- A single replica detects every pair. -/
theorem detectsCross_of_single (window : Int64) (hwindow : 0 < window) {ds : List (Received 1)}
    (h : Ordered ds) : DetectsCross window hwindow ds := by
  rintro pre d post heq ⟨d', hd', hpair⟩
  have hordered : Ordered (pre ++ [d]) := by
    rw [heq, List.append_cons] at h
    exact List.Pairwise.sublist (List.sublist_append_left _ _) h
  -- there is only one replica to receive both
  have hchained := chained_of_replica_eq hordered hd' hpair (Subsingleton.elim _ _)
  exact hasCross_iff.mpr ⟨d.replica, hchained⟩

end Group

/-- Two replicas, the first of which receives both alerts. -/
theorem detectsCross_iff_first :
    let ds : List (Received 2) := [
      ⟨0, ⟨"scan", "10.0.0.1", 100, "low", "", "", "n1", "", [], "", none⟩, 0⟩,
      ⟨0, ⟨"scan", "10.0.0.1", 110, "low", "", "", "n2", "", [], "", none⟩, 0⟩]
    DetectsCross 60 (by decide) ds ↔
      Along (fun pre d => (∃ d' ∈ pre, SamePair 60 d' d) →
        ∃ i, Chained 60 d.alert.key (opsOf i (pre ++ [d]))) ds :=
  detectsCross_iff 2 60 (by decide) _

/-- Two alerts of one source from two nodes, ten nanoseconds apart, are received by
two replicas. -/
theorem not_detectsCross :
    let ds : List (Received 2) := [
      ⟨0, ⟨"scan", "10.0.0.1", 100, "low", "", "", "n1", "", [], "", none⟩, 0⟩,
      ⟨1, ⟨"scan", "10.0.0.1", 110, "low", "", "", "n2", "", [], "", none⟩, 0⟩]
    Ordered ds ∧ ¬ DetectsCross 60 (by decide) ds := by
  intro ds
  refine ⟨List.pairwise_pair.mpr fun _ _ _ => by decide, fun h => ?_⟩
  have hcross := h [ds[0]] ds[1] [] rfl
    ⟨ds[0], List.mem_singleton_self _, by decide, rfl, rfl, by decide, by decide⟩
  obtain ⟨i, chain, hchain, -, hcard⟩ := hasCross_iff.mp hcross
  have hone : ∀ i, ¬ 2 ≤ (nodesOf (alertsOf ds[1].alert.key (opsOf i ([ds[0]] ++ [ds[1]])))).card := by
    decide
  exact hone i (hcard.trans (card_nodesOf_le_of_subset hchain.subset))

end Aggregator
