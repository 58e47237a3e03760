/-
# Publishing

The message handler of the aggregator parses a message, has it processed by the
correlator, and publishes what is emitted.  The state of the correlator is written
before the publish, and an alert that could not be published is dropped with a log
line.  `Reporting` carries along a run what the handler has made of the messages of the
current lifetime of every key: the first one and the one with which the nodes become two
are published, as far as the publications succeed (`suppressed_reported`).
-/
import ZtMapper.Aggregator.Lifetime
import ZtMapper.Lib.Runs

open Unordered Runs

namespace Aggregator

/-- What becomes of an emitted alert. -/
inductive Delivery where
  | marshalError
  | publishError
  | published
  deriving DecidableEq, Repr

/-- A message with what becomes of it, or a tick of the cleanup.  A body that does not
parse is `none`. -/
inductive Event where
  | message (body : Option Alert) (clock : Int64) (delivery : Delivery)
  | evictExpired (clock : Int64)

/-- The outcome of the handler for one message. -/
inductive Handled where
  | parseError
  | suppressed
  | emitted (out : Option Alert) (delivery : Delivery)
  deriving DecidableEq

/-- The handler of `QueueSubscribe`. -/
def handle (c : Correlator) (body : Option Alert) (clock : Int64) (delivery : Delivery) :
    Correlator × Handled :=
  match body with
  | none => (c, .parseError)
  | some a =>
    let (c', reply) := c.process a clock
    if ¬ reply.emit then (c', .suppressed) else (c', .emitted reply.out delivery)

/-- The alerts that the handler has sent to the output subject. -/
def Handled.sent : Handled → List Alert
  | .emitted out .published => out.toList
  | _ => []

/-- The aggregator after some events, and the alerts it has published. -/
structure Service where
  corr : Correlator
  sent : List Alert

namespace Service

def step (s : Service) : Event → Service
  | .message body clock delivery =>
    ⟨(handle s.corr body clock delivery).1,
      s.sent ++ (handle s.corr body clock delivery).2.sent⟩
  | .evictExpired clock => ⟨s.corr.evictExpired clock, s.sent⟩

def run (s : Service) (events : List Event) : Service := events.foldl step s

/-- A run in two parts. -/
theorem run_append (s : Service) (events events' : List Event) :
    s.run (events ++ events') = (s.run events).run events' :=
  List.foldl_append

end Service

/-- A message is suppressed when the correlator says not to emit. -/
theorem handle_suppressed_iff {c : Correlator} {a : Alert} {clock : Int64} {delivery : Delivery} :
    (handle c (some a) clock delivery).2 = .suppressed ↔ (c.process a clock).2.emit = false := by
  unfold handle
  dsimp only
  split_ifs with h <;> simp_all

/-! ## The messages of a lifetime -/

/-- An alert with its time, what becomes of its publication if there is one, and what the
handler has made of it. -/
structure Message where
  entry : Entry
  delivery : Delivery
  outcome : Handled

/-- The messages with an alert for the correlator, and what the handler makes of them. -/
def messages (c : Correlator) : Event → List Message
  | .message (some a) clock delivery =>
    if a.Malformed then [] else [⟨(a, a.time clock), delivery, (handle c (some a) clock delivery).2⟩]
  | .message none _ _ => []
  | .evictExpired _ => []

/-- The messages of a run. -/
def Service.log (s : Service) (events : List Event) : List Message :=
  match events with
  | [] => []
  | event :: events => messages s.corr event ++ (s.step event).log events

/-- The log grows by the messages of an event. -/
theorem Service.log_concat (s : Service) (events : List Event) (event : Event) :
    s.log (events ++ [event]) = s.log events ++ messages (s.run events).corr event := by
  induction events generalizing s with
  | nil => exact List.append_nil _
  | cons e events ih =>
    show messages s.corr e ++ (s.step e).log (events ++ [event]) = _
    rw [ih, ← List.append_assoc]
    rfl

/-- The service, with the lifetimes and the messages of the current lifetime of every key. -/
structure Reporting where
  traced : Traced
  sent : List Alert
  handled : String → List Message

namespace Reporting

def service (r : Reporting) : Service := ⟨r.traced.corr, r.sent⟩

/-- The messages of the lifetimes after one event. -/
def handledAfter (r : Reporting) : Event → String → List Message
  | .message (some a) clock delivery =>
    if a.Malformed then r.handled
    else Function.update r.handled a.key
      ((if r.traced.corr.StartsFresh a clock then [] else r.handled a.key) ++
        [⟨(a, a.time clock), delivery, (handle r.traced.corr (some a) clock delivery).2⟩])
  | .message none _ _ => r.handled
  | .evictExpired _ => r.handled

/-- One event. -/
def step (r : Reporting) (event : Event) : Reporting where
  traced :=
    match event with
    | .message none _ _ => r.traced
    | .message (some a) clock _ => r.traced.step (.process a clock)
    | .evictExpired clock => r.traced.step (.evictExpired clock)
  sent := (r.service.step event).sent
  handled := r.handledAfter event

def run (r : Reporting) (events : List Event) : Reporting := events.foldl step r

/-- A recorded run in two parts. -/
theorem run_append (r : Reporting) (events events' : List Event) :
    r.run (events ++ events') = (r.run events).run events' :=
  List.foldl_append

/-- Publishing leaves the correlator alone. -/
theorem corr_handle (c : Correlator) (a : Alert) (clock : Int64) (delivery : Delivery) :
    (handle c (some a) clock delivery).1 = (c.process a clock).1 := by
  unfold handle
  dsimp only
  split_ifs <;> rfl

/-- Carrying the messages along does not change the service. -/
theorem service_step (r : Reporting) (event : Event) :
    (r.step event).service = r.service.step event := by
  cases event with
  | message body clock delivery =>
    cases body with
    | none => rfl
    | some a =>
      show (⟨(r.traced.corr.process a clock).1, _⟩ : Service) =
        ⟨(handle r.traced.corr (some a) clock delivery).1, _⟩
      rw [corr_handle]
      rfl
  | evictExpired clock => rfl

/-- The service of a run with its messages is that of the run. -/
theorem service_run (r : Reporting) (events : List Event) :
    (r.run events).service = r.service.run events := by
  induction events using List.reverseRecOn with
  | nil => rfl
  | append_singleton events event ih =>
    rw [run_append, Service.run_append, ← ih]
    exact service_step _ event

end Reporting

/-! ## Which messages are published -/

/-- The message `m` after `pre` is the first one of its lifetime, or that with which the
nodes become two. -/
def Due (pre : List Message) (m : Message) : Prop :=
  pre = [] ∨ Crosses ((pre ++ [m]).map (·.entry))

instance (pre : List Message) (m : Message) : Decidable (Due pre m) :=
  inferInstanceAs (Decidable (_ ∨ _))

/-- What has been made of a message: it was tried to be published, or suppressed. -/
structure Treated (sent : List Alert) (key : String) (pre : List Message) (m : Message) : Prop where
  due : Due pre m → ∃ out, m.outcome = .emitted (some out) m.delivery ∧ out.key = key ∧
    (m.delivery = .published → out ∈ sent)
  suppressed : ¬ Due pre m → m.outcome = .suppressed

/-- More alerts sent change nothing in what was treated. -/
theorem Treated.mono {sent sent' : List Alert} {key : String} {pre : List Message} {m : Message}
    (h : Treated sent key pre m) (hsub : sent ⊆ sent') : Treated sent' key pre m := by
  refine ⟨fun hdue => ?_, h.suppressed⟩
  obtain ⟨out, hout, hkey, hpub⟩ := h.due hdue
  exact ⟨out, hout, hkey, fun hp => hsub (hpub hp)⟩

/-- A message of which an alert was sent is one that was due and whose publication
succeeded. -/
theorem Treated.sent_ne_nil_iff {sent : List Alert} {key : String} {pre : List Message}
    {m : Message} (h : Treated sent key pre m) :
    m.outcome.sent ≠ [] ↔ Due pre m ∧ m.delivery = .published := by
  by_cases hdue : Due pre m
  · obtain ⟨out, hout, -, -⟩ := h.due hdue
    rw [hout, and_iff_right hdue]
    cases m.delivery <;> simp [Handled.sent]
  · rw [h.suppressed hdue]
    exact iff_of_false (fun hne => hne rfl) fun hand => hdue hand.1

/-- What the handler makes of an alert, read off the lifetime with the alert as its last
one. -/
theorem treated_handle {c : Correlator} {a : Alert} {clock : Int64} (delivery : Delivery)
    {pre : List Message}
    (h : ReadsLifetime (c.process a clock).2 (pre.map (·.entry) ++ [(a, a.time clock)]) a
      (a.time clock)) {sent : List Alert}
    (hsent : (handle c (some a) clock delivery).2.sent ⊆ sent) :
    Treated sent a.key pre
      ⟨(a, a.time clock), delivery, (handle c (some a) clock delivery).2⟩ := by
  have hiff : (c.process a clock).2.emit = true ↔
      Due pre ⟨(a, a.time clock), delivery, (handle c (some a) clock delivery).2⟩ := by
    rw [h.emit_iff, Due, List.map_append, List.length_append, List.length_singleton,
      List.length_map]
    exact or_congr_left ⟨fun hlen => List.eq_nil_of_length_eq_zero (by omega), fun hnil => by
      rw [hnil]; rfl⟩
  constructor
  · intro hdue
    have hemit := hiff.mpr hdue
    obtain ⟨out, -, hout, -⟩ := h.correlation hemit
    have houtcome : (handle c (some a) clock delivery).2 = .emitted (some out) delivery := by
      unfold handle
      dsimp only
      rw [if_neg (not_not.mpr hemit), hout]
    refine ⟨out, houtcome, Correlator.key_of_out hout, fun hpub => hsent ?_⟩
    rw [houtcome]
    obtain rfl : delivery = .published := hpub
    exact List.mem_singleton_self out
  · intro hdue
    exact handle_suppressed_iff.mpr (Bool.not_eq_true _ ▸ fun hemit => hdue (hiff.mp hemit))

/-- The messages `ms` of the current lifetime of `key`. -/
structure Follows (r : Reporting) (key : String) (ms : List Message) : Prop where
  entries : ms.map (·.entry) = r.traced.life key
  treated : ∀ pre m post, ms = pre ++ m :: post → Treated r.sent key pre m

/-- The messages of every incident are those of its lifetime, and the last ones of its
key. -/
structure Reported (log : List Message) (r : Reporting) : Prop where
  tracked : Tracked r.traced
  follows : ∀ key st, r.traced.corr.incidents.lookup key = some st → Follows r key (r.handled key)
  suffix : ∀ key, r.handled key <:+ log.filter fun m => m.entry.1.key = key

/-- At first nothing has been handled. -/
theorem reported_start (window : Int64) (hwindow : 0 < window) :
    Reported [] ⟨⟨newCorrelator window hwindow, fun _ => []⟩, [], fun _ => []⟩ where
  tracked := tracked_start window hwindow
  follows := fun key st hst => absurd hst (by simp [newCorrelator])
  suffix := fun _ => List.suffix_refl _

section Message

variable {log : List Message} {r : Reporting} {a : Alert} (clock : Int64) (delivery : Delivery)

/-- What one message adds to the list of its key. -/
theorem handled_message (hmal : ¬ a.Malformed) :
    (r.step (.message (some a) clock delivery)).handled =
      Function.update r.handled a.key
        ((if r.traced.corr.StartsFresh a clock then [] else r.handled a.key) ++
          [⟨(a, a.time clock), delivery, (handle r.traced.corr (some a) clock delivery).2⟩]) :=
  if_neg hmal

/-- The messages of the lifetime of an alert, after the alert. -/
theorem Reported.follows_message (h : Reported log r) (hmal : ¬ a.Malformed) :
    Follows (r.step (.message (some a) clock delivery)) a.key
      ((r.step (.message (some a) clock delivery)).handled a.key) := by
  have hreads := h.tracked.reads_process hmal clock
  have hnew : (handle r.traced.corr (some a) clock delivery).2.sent ⊆
      (r.step (.message (some a) clock delivery)).sent :=
    fun _ hout => List.mem_append_right _ hout
  rw [handled_message clock delivery hmal, Function.update_self]
  by_cases hfresh : r.traced.corr.StartsFresh a clock
  · rw [if_pos hfresh]
    rw [Traced.life_fresh hmal hfresh] at hreads
    refine ⟨(Traced.life_fresh hmal hfresh).symm, fun pre m post heq => ?_⟩
    obtain ⟨rfl, hm⟩ := List.append_eq_cons_iff.mp heq.symm |>.resolve_right (by
      rintro ⟨_, -, htail⟩
      exact absurd htail (by simp))
    obtain ⟨rfl, -⟩ := List.cons.inj hm
    exact treated_handle delivery hreads hnew
  · obtain ⟨st, hlive⟩ := Correlator.exists_live hfresh
    have hfollows := h.follows _ st hlive.1
    rw [if_neg hfresh]
    rw [Traced.life_live hmal hlive, ← hfollows.entries] at hreads
    refine ⟨?_, fun pre m post heq => ?_⟩
    · rw [List.map_append, hfollows.entries]
      exact (Traced.life_live hmal hlive).symm
    · rcases concat_eq_append_cons_iff.mp heq with ⟨rfl, rfl, -⟩ | ⟨post', -, heq'⟩
      · exact treated_handle delivery hreads hnew
      · exact (hfollows.treated pre m post' heq').mono fun _ hout => List.mem_append_left _ hout

/-- An alert that reaches the correlator. -/
theorem Reported.message (h : Reported log r) (hmal : ¬ a.Malformed) :
    Reported (log ++ messages r.service.corr (.message (some a) clock delivery))
      (r.step (.message (some a) clock delivery)) := by
  refine ⟨tracked_step h.tracked (.process a clock), fun key st hst => ?_, fun key => ?_⟩
  · by_cases hkey : key = a.key
    · subst hkey
      exact h.follows_message clock delivery hmal
    · have hlookup : (r.traced.corr.process a clock).1.incidents.lookup key = some st := hst
      rw [Correlator.lookup_process_of_ne hkey] at hlookup
      obtain ⟨hentries, htreated⟩ := h.follows key st hlookup
      rw [handled_message clock delivery hmal, Function.update_of_ne hkey]
      exact ⟨hentries.trans (Traced.life_of_ne hkey).symm, fun pre m post heq =>
        (htreated pre m post heq).mono fun _ hout => List.mem_append_left _ hout⟩
  · have hmessages : messages r.service.corr (.message (some a) clock delivery) =
        [⟨(a, a.time clock), delivery, (handle r.traced.corr (some a) clock delivery).2⟩] :=
      if_neg hmal
    rw [handled_message clock delivery hmal, hmessages, List.filter_append]
    by_cases hkey : key = a.key
    · subst hkey
      rw [Function.update_self, List.filter_singleton, decide_eq_true rfl, cond_true,
        List.suffix_append_self_iff]
      split_ifs
      · exact List.nil_suffix
      · exact h.suffix a.key
    · rw [Function.update_of_ne hkey, List.filter_singleton,
        decide_eq_false (Ne.symm hkey), cond_false, List.append_nil]
      exact h.suffix key

end Message

/-- One event keeps the record. -/
theorem Reported.step {log : List Message} {r : Reporting} (h : Reported log r) (event : Event) :
    Reported (log ++ messages r.service.corr event) (r.step event) := by
  cases event with
  | message body clock delivery =>
    cases body with
    -- a body that is no alert reaches no correlator
    | none =>
      refine ⟨h.tracked, fun key st hst => ?_, fun key => ?_⟩
      · obtain ⟨hentries, htreated⟩ := h.follows key st hst
        exact ⟨hentries, fun pre m post heq =>
          (htreated pre m post heq).mono fun _ hout => List.mem_append_left _ hout⟩
      · rw [show messages r.service.corr (.message none clock delivery) = [] from rfl,
          List.append_nil]
        exact h.suffix key
    | some a =>
      by_cases hmal : a.Malformed
      · have htraced : (r.step (.message (some a) clock delivery)).traced = r.traced :=
          Traced.step_malformed _ hmal _
        have hhandled : (r.step (.message (some a) clock delivery)).handled = r.handled :=
          if_pos hmal
        have hnone : messages r.service.corr (.message (some a) clock delivery) = [] :=
          if_pos hmal
        refine ⟨htraced ▸ h.tracked, fun key st hst => ?_, fun key => ?_⟩
        · rw [htraced] at hst
          obtain ⟨hentries, htreated⟩ := h.follows key st hst
          rw [hhandled]
          exact ⟨by rw [hentries, htraced], fun pre m post heq =>
            (htreated pre m post heq).mono fun _ hout => List.mem_append_left _ hout⟩
        · rw [hnone, hhandled, List.append_nil]
          exact h.suffix key
      · exact h.message clock delivery hmal
  | evictExpired clock =>
    refine ⟨tracked_step h.tracked (.evictExpired clock), fun key st hst => ?_, fun key => ?_⟩
    · obtain ⟨hlookup, hlife⟩ := Traced.lookup_step_evictExpired hst
      obtain ⟨hentries, htreated⟩ := h.follows key st hlookup
      exact ⟨hentries.trans hlife.symm, htreated⟩
    · rw [show messages r.service.corr (.evictExpired clock) = [] from rfl, List.append_nil]
      exact h.suffix key

/-- The service after some events, from a correlator without incidents, with the messages of
the lifetimes. -/
def reporting (c : Correlator) (events : List Event) : Reporting :=
  Reporting.run ⟨⟨c, fun _ => []⟩, [], fun _ => []⟩ events

/-- The record is kept in every run. -/
theorem reported_reporting (window : Int64) (hwindow : 0 < window) (events : List Event) :
    Reported ((⟨newCorrelator window hwindow, []⟩ : Service).log events)
      (reporting (newCorrelator window hwindow) events) := by
  induction events using List.reverseRecOn with
  | nil => exact reported_start window hwindow
  | append_singleton events event ih =>
    have hservice := Reporting.service_run ⟨⟨newCorrelator window hwindow, fun _ => []⟩, [],
      fun _ => []⟩ events
    have hstep := ih.step event
    rw [reporting, Reporting.run_append, Service.log_concat]
    rwa [show (reporting (newCorrelator window hwindow) events).service = _ from hservice] at hstep

/-! ## Suppressed alerts -/

/-- An alert of the lifetime has been published. -/
def Reporting.HasReported (r : Reporting) (key : String) : Prop :=
  ∃ m ∈ r.handled key, ∃ out ∈ m.outcome.sent, out.key = key ∧ out ∈ r.sent

/-- A lifetime with two nodes has a message with which the nodes became two. -/
theorem exists_crosses {ms : List Message} (h : 2 ≤ (nodesOf (ms.map (·.entry))).card) :
    ∃ pre m post, ms = pre ++ m :: post ∧ Crosses ((pre ++ [m]).map (·.entry)) := by
  induction ms using List.reverseRecOn with
  | nil => exact absurd h (by simp [nodesOf])
  | append_singleton ms m ih =>
    by_cases hold : 2 ≤ (nodesOf (ms.map (·.entry))).card
    · obtain ⟨pre, m', post, rfl, hcross⟩ := ih hold
      exact ⟨pre, m', post ++ [m], by simp, hcross⟩
    · refine ⟨ms, m, [], rfl, ?_, h⟩
      rw [List.map_append, List.map_singleton, List.dropLast_concat]
      exact not_le.mp hold

/-- **Suppressed alerts.**  When an alert is suppressed, the last messages of its key are
those of its lifetime; the first of them and the one with which the nodes became two were
each tried to be published, and no other; and an alert of the lifetime has been published
if and only if one of these publications succeeded. -/
theorem suppressed_reported (window : Int64) (hwindow : 0 < window) (events : List Event)
    (a : Alert) (clock : Int64) (delivery : Delivery) :
    let log := (⟨newCorrelator window hwindow, []⟩ : Service).log events
    let r := reporting (newCorrelator window hwindow) events
    (handle r.service.corr (some a) clock delivery).2 = .suppressed →
      r.handled a.key <:+ (log.filter fun m => m.entry.1.key = a.key) ∧
        (r.handled a.key).map (·.entry) = r.traced.life a.key ∧ r.handled a.key ≠ [] ∧
        (∀ pre m post, r.handled a.key = pre ++ m :: post →
          if Due pre m then ∃ out, m.outcome = .emitted (some out) m.delivery
          else m.outcome = .suppressed) ∧
        (2 ≤ (nodesOf (r.traced.life a.key)).card → ∃ pre m post,
          r.handled a.key = pre ++ m :: post ∧ Crosses ((pre ++ [m]).map (·.entry))) ∧
        (r.HasReported a.key ↔ ∃ pre m post, r.handled a.key = pre ++ m :: post ∧ Due pre m ∧
          m.delivery = .published) := by
  intro log r hsuppressed
  have hreported : Reported log r := reported_reporting window hwindow events
  have hemit := handle_suppressed_iff.mp hsuppressed
  have hmal : ¬ a.Malformed := fun hmal => by
    rw [Correlator.process_malformed hmal] at hemit
    exact absurd hemit (by simp)
  rcases Correlator.process_cases r.service.corr clock hmal with ⟨-, heq⟩ | ⟨st, hlive, -⟩
  · rw [heq] at hemit
    exact absurd hemit (by simp [Correlator.start])
  · have hfollows := hreported.follows _ st hlive.1
    have hne : r.handled a.key ≠ [] := by
      have hlife := (hreported.tracked.records _ st hlive.1).ne_nil
      rw [← hfollows.entries] at hlife
      exact fun hnil => hlife (by rw [hnil]; rfl)
    refine ⟨hreported.suffix a.key, hfollows.entries, hne, fun pre m post hsplit => ?_,
      fun hnodes => exists_crosses (hfollows.entries ▸ hnodes), ?_, ?_⟩
    · have htreated := hfollows.treated pre m post hsplit
      split_ifs with hdue
      · obtain ⟨out, hout, -, -⟩ := htreated.due hdue
        exact ⟨out, hout⟩
      · exact htreated.suppressed hdue
    · rintro ⟨m, hm, out, hout, -, -⟩
      obtain ⟨pre, post, hsplit⟩ := List.append_of_mem hm
      obtain ⟨hdue, hpub⟩ := (hfollows.treated pre m post hsplit).sent_ne_nil_iff.mp
        (List.ne_nil_of_mem hout)
      exact ⟨pre, m, post, hsplit, hdue, hpub⟩
    · rintro ⟨pre, m, post, hsplit, hdue, hpub⟩
      obtain ⟨out, hout, hkey, hsent⟩ := (hfollows.treated pre m post hsplit).due hdue
      refine ⟨m, hsplit ▸ List.mem_append_right _ List.mem_cons_self, out, ?_, hkey, hsent hpub⟩
      rw [hout, hpub]
      exact List.mem_singleton_self out

/-- The first alert is published, the second one suppressed. -/
theorem suppressed_reported_second :
    let a : Alert := ⟨"scan", "10.0.0.1", 100, "low", "", "", "n1", "", [], "", none⟩
    let events : List Event := [.message (some a) 0 .published]
    let log := (⟨newCorrelator 60 (by decide), []⟩ : Service).log events
    let r := reporting (newCorrelator 60 (by decide)) events
    r.handled a.key <:+ (log.filter fun m => m.entry.1.key = a.key) ∧
      (r.handled a.key).map (·.entry) = r.traced.life a.key ∧ r.handled a.key ≠ [] ∧
      (∀ pre m post, r.handled a.key = pre ++ m :: post →
        if Due pre m then ∃ out, m.outcome = .emitted (some out) m.delivery
        else m.outcome = .suppressed) ∧
      (2 ≤ (nodesOf (r.traced.life a.key)).card → ∃ pre m post,
        r.handled a.key = pre ++ m :: post ∧ Crosses ((pre ++ [m]).map (·.entry))) ∧
      (r.HasReported a.key ↔ ∃ pre m post, r.handled a.key = pre ++ m :: post ∧ Due pre m ∧
        m.delivery = .published) :=
  suppressed_reported 60 (by decide) _ _ 0 .published (by decide)

/-- The publication of the first alert fails, and the second one is suppressed. -/
theorem suppressed_unreported :
    let a : Alert := ⟨"scan", "10.0.0.1", 100, "low", "", "", "n1", "", [], "", none⟩
    let r := reporting (newCorrelator 60 (by decide)) [.message (some a) 0 .publishError]
    (handle r.service.corr (some a) 0 .published).2 = .suppressed ∧ ¬ r.HasReported a.key := by
  intro a r
  refine ⟨by decide, ?_⟩
  rintro ⟨m, -, out, -, -, hout⟩
  exact List.not_mem_nil hout

end Aggregator
