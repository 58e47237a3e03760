/-
# Following an append-only file

The bridge has sought the end of the file, and the pipeline only appends.  What the
bridge has done with the bytes of the file is a `Stream`: some are returned, some are
pending, and some unread.  At the end of the file the pending bytes are dropped, so a
line that is returned may lack its beginning; the messages are the alerts of the file
exactly when this does not matter.
-/
import ZtMapper.Bridge.Tail
import ZtMapper.Lib.Runs

open Lines Runs

namespace AlertBridge

/-! ## Streams -/

/-- The bytes of a file: those that `ReadBytes` has returned, with or without an
error, those that it holds, and those that the bridge has not read. -/
structure Stream where
  returned : List UInt8
  pending : List UInt8
  unread : List UInt8
  published : List (List UInt8)

/-- What the events do to the bytes. -/
inductive Moves (t : Stream) : Event → Stream → Prop where
  | wrote (bytes : List UInt8) : Moves t (.write bytes) { t with unread := t.unread ++ bytes }
  | got (n : ℕ) {bytes rest : List UInt8} (hunread : t.unread = bytes ++ rest)
      (hpending : newline ∉ t.pending) :
      Moves t (.read n) { t with pending := t.pending ++ bytes, unread := rest }
  | dropped (n : ℕ) (hunread : t.unread = []) (hpending : newline ∉ t.pending) :
      Moves t (.read n) { t with returned := t.returned ++ t.pending, pending := [] }
  | line {l rest : List UInt8} (hpending : t.pending = l ++ newline :: rest) (hl : newline ∉ l) :
      Moves t (.returnLine true)
        { t with
          returned := t.returned ++ l ++ [newline]
          pending := rest
          published := t.published ++ alerts [l] }
  | slept : Moves t (.poll true) t

/-- The events of an append-only file, when publishing and `Stat` succeed. -/
def Event.Appends : Event → Prop
  | .write _ => True
  | .read _ => True
  | .returnLine published => published = true
  | .poll stat => stat = true
  | _ => False

/-- The bridge sees a stream. -/
structure Views (s : Bridge) (t : Stream) : Prop where
  path : s.path = some 0
  writer : s.writer = some 0
  file : s.files 0 = t.returned ++ t.pending ++ t.unread
  published : s.published = t.published
  reader : s.reader = .reading 0 (t.returned.length + t.pending.length) t.pending ∨
    (s.reader = .polling 0 t.returned.length ∧ t.pending = [])

/-- The bridge has just sought the end of a file. -/
def tailing (before : List UInt8) : Bridge where
  files := Function.update (fun _ => []) 0 before
  nextInode := 1
  path := some 0
  writer := some 0
  reader := .reading 0 before.length []

/-- A bridge that has just sought the end has read nothing. -/
theorem views_tailing (before : List UInt8) : Views (tailing before) ⟨before, [], [], []⟩ := by
  refine ⟨rfl, rfl, ?_, rfl, Or.inl rfl⟩
  show Function.update (fun _ => []) 0 before 0 = before ++ [] ++ []
  rw [Function.update_self, List.append_nil, List.append_nil]

/-- **The bridge moves its stream.** -/
theorem views_step {s s' : Bridge} {t : Stream} {e : Event} (h : Views s t) (he : e.Appends)
    (hstep : s.step e = some s') : ∃ t', Moves t e t' ∧ Views s' t' := by
  cases e with
  | openTrunc => cases he
  | rename => cases he
  | create => cases he
  | openFile => cases he
  | seekEnd => cases he
  | fail => cases he
  | write bytes =>
    unfold Bridge.step at hstep
    dsimp only at hstep
    rw [h.writer, Option.map_some] at hstep
    obtain rfl := Option.some.inj hstep
    refine ⟨_, .wrote bytes, h.path, rfl, ?_, h.published, h.reader⟩
    show Function.update s.files 0 (s.files 0 ++ bytes) 0 = _
    rw [Function.update_self, h.file, List.append_assoc _ t.unread]
  | read n =>
    obtain ⟨i, offset, pending, hread, hpending, hcases⟩ := Bridge.read_cases hstep
    rcases h.reader with hreader | ⟨hreader, -⟩
    · obtain ⟨rfl, rfl, rfl⟩ := Reader.reading.inj (hread.symm.trans hreader)
      have hdrop : (s.files 0).drop (t.returned.length + t.pending.length) = t.unread := by
        rw [h.file, ← List.length_append, List.drop_left]
      rw [hdrop] at hcases
      rcases hcases with ⟨hunread, rfl⟩ | ⟨bytes, rest, hunread, rfl⟩
      · -- the end of the file, where the pending bytes are returned with the error
        refine ⟨_, .dropped n hunread hpending, h.path, h.writer, ?_, h.published,
          Or.inr ⟨?_, rfl⟩⟩
        · show s.files 0 = t.returned ++ t.pending ++ [] ++ t.unread
          rw [List.append_nil]
          exact h.file
        · show Reader.polling 0 _ = Reader.polling 0 (t.returned ++ t.pending).length
          rw [List.length_append]
      · refine ⟨_, .got n hunread hpending, h.path, h.writer, ?_, h.published, Or.inl ?_⟩
        · show s.files 0 = t.returned ++ (t.pending ++ bytes) ++ rest
          rw [h.file, hunread]
          simp
        · show Reader.reading 0 _ _ = Reader.reading 0 (_ + (t.pending ++ bytes).length) _
          rw [List.length_append, Nat.add_assoc]
    · exact absurd (hread.symm.trans hreader) (by simp)
  | returnLine published =>
    obtain rfl : published = true := he
    obtain ⟨i, offset, l, rest, hread, hl, rfl⟩ := Bridge.returnLine_cases hstep
    rcases h.reader with hreader | ⟨hreader, -⟩
    · obtain ⟨rfl, rfl, hpending⟩ := Reader.reading.inj (hread.symm.trans hreader)
      refine ⟨_, .line hpending.symm hl, h.path, h.writer, ?_, ?_, Or.inl ?_⟩
      · show s.files 0 = t.returned ++ l ++ [newline] ++ rest ++ t.unread
        rw [h.file, ← hpending]
        simp
      · show s.published ++ alerts [l] = t.published ++ alerts [l]
        rw [h.published]
      · have hoffset : t.returned.length + t.pending.length =
            (t.returned ++ l ++ [newline]).length + rest.length := by
          rw [← hpending]
          simp only [List.length_append, List.length_cons, List.length_nil]
          omega
        dsimp only
        rw [hoffset]
    · exact absurd (hread.symm.trans hreader) (by simp)
  | poll stat =>
    obtain rfl : stat = true := he
    obtain ⟨i, offset, hpoll, hcases⟩ := Bridge.poll_cases hstep
    rcases h.reader with hreader | ⟨hreader, hpending⟩
    · exact absurd (hpoll.symm.trans hreader) (by simp)
    · obtain ⟨rfl, rfl⟩ := Reader.polling.inj (hpoll.symm.trans hreader)
      rcases hcases with ⟨-, -, rfl⟩ | ⟨hleaves, -⟩
      · -- the file is still at its path
        refine ⟨t, .slept, h.path, h.writer, h.file, h.published, Or.inl ?_⟩
        show Reader.reading 0 t.returned.length [] = _
        rw [hpending]
        rfl
      · exact absurd ⟨rfl, h.path⟩ hleaves

/-! ## Messages -/

/-- The number of lines that have begun in a file. -/
def begun (before : List UInt8) : ℕ :=
  (cut newline before).1.length + if (cut newline before).2 = [] then 0 else 1

/-- The alerts among the complete lines of a file that have begun after `before`. -/
def expected (before bytes : List UInt8) : List (List UInt8) :=
  alerts ((cut newline bytes).1.drop (begun before))

/-- One line gives a message when it opens with a brace. -/
theorem alerts_singleton (line : List UInt8) :
    alerts [line] = if line.head? = some brace then [trimTrailingNewline line] else [] := by
  unfold alerts isAlert
  by_cases hline : line.head? = some brace <;> simp [hline]

/-- A part of a line is not expected yet. -/
theorem expected_append_part (before returned : List UInt8) {bytes : List UInt8}
    (h : newline ∉ bytes) : expected before (returned ++ bytes) = expected before returned := by
  unfold expected
  rw [cut_append_part _ h]

/-- A line is expected when it is complete. -/
theorem expected_append_line (before returned : List UInt8) {l : List UInt8} (h : newline ∉ l) :
    expected before (returned ++ l ++ [newline]) =
      expected before returned ++ if begun before ≤ (cut newline returned).1.length then
        alerts [(cut newline returned).2 ++ l] else [] := by
  unfold expected
  rw [cut_append_line _ h, List.drop_append, alerts_append]
  split_ifs with hbegun
  · rw [Nat.sub_eq_zero_of_le hbegun, List.drop_zero]
  · rw [List.drop_of_length_le (l := [(cut newline returned).2 ++ l])]
    · rfl
    · rw [List.length_singleton]
      omega

/-- A message is longer than one without the beginning of its line. -/
theorem trim_append_ne {d l : List UInt8} (hd : d ≠ []) (hl : l.head? = some brace) :
    trimTrailingNewline (d ++ l) ≠ trimTrailingNewline l := by
  have hne : l.reverse.dropWhile (fun c => decide (c = newline ∨ c = carriageReturn)) ≠ [] := by
    intro hnil
    have hall := List.dropWhile_eq_nil_iff.mp hnil brace
      (List.mem_reverse.mpr (List.mem_of_head? hl))
    exact absurd hall (by decide)
  have hlong : trimTrailingNewline (d ++ l) = d ++ trimTrailingNewline l := by
    unfold trimTrailingNewline List.rdropWhile
    rw [List.reverse_append, List.dropWhile_append, if_neg (by simpa using hne)]
    rw [List.reverse_append, List.reverse_reverse]
  rw [hlong]
  intro heq
  exact hd (List.append_left_eq_self.mp heq)

/-- A line without its beginning gives the message of the whole line only if neither
is an alert. -/
theorem alerts_append_eq_iff {d : List UInt8} (hd : d ≠ []) (l : List UInt8) :
    alerts [d ++ l] = alerts [l] ↔ ¬ d.head? = some brace ∧ ¬ l.head? = some brace := by
  have hhead : (d ++ l).head? = d.head? := by
    obtain ⟨c, cs, rfl⟩ := List.exists_cons_of_ne_nil hd
    rfl
  rw [alerts_singleton, alerts_singleton, hhead]
  by_cases hdb : d.head? = some brace <;> by_cases hlb : l.head? = some brace
  · rw [if_pos hdb, if_pos hlb]
    exact iff_of_false (fun heq => trim_append_ne hd hlb (List.singleton_inj.mp heq))
      fun h => h.1 hdb
  · rw [if_pos hdb, if_neg hlb]
    exact iff_of_false (fun heq => nomatch heq) fun h => h.1 hdb
  · rw [if_neg hdb, if_pos hlb]
    exact iff_of_false (fun heq => nomatch heq) fun h => h.2 hlb
  · rw [if_neg hdb, if_neg hlb]
    exact iff_of_true rfl ⟨hdb, hlb⟩

/-- The line that is about to be returned has its beginning, or it does not matter:
it is no alert that has begun after `before`, and its rest does not look like one. -/
def NothingCut (before returned pending : List UInt8) : Prop :=
  (cut newline returned).2 ≠ [] →
    ¬ (pending.takeWhile (· ≠ newline)).head? = some brace ∧
      ((cut newline returned).2.head? = some brace →
        (cut newline returned).1.length < begun before)

/-- What is returned extends `before`. -/
structure Stream.Since (before : List UInt8) (t : Stream) : Prop where
  le : (cut newline before).1.length ≤ (cut newline t.returned).1.length
  ne : (cut newline t.returned).1.length < begun before → (cut newline t.returned).2 ≠ []

/-- The stream goes on from the same beginning. -/
theorem Moves.since {before : List UInt8} {t t' : Stream} {e : Event} (h : t.Since before)
    (hmove : Moves t e t') : t'.Since before := by
  cases hmove with
  | wrote => exact ⟨h.le, h.ne⟩
  | got => exact ⟨h.le, h.ne⟩
  | dropped n hunread hpending =>
    constructor
    · show _ ≤ (cut newline (t.returned ++ t.pending)).1.length
      rw [cut_append_part _ hpending]
      exact h.le
    · show (cut newline (t.returned ++ t.pending)).1.length < _ →
        (cut newline (t.returned ++ t.pending)).2 ≠ []
      rw [cut_append_part _ hpending]
      intro hlt hnil
      exact h.ne hlt (List.append_eq_nil_iff.mp hnil).1
  | line hpending hl =>
    have hcut := cut_append_line t.returned hl
    have hle := h.le
    constructor
    · show _ ≤ (cut newline (_ ++ [newline])).1.length
      rw [hcut, List.length_append]
      omega
    · show (cut newline (_ ++ [newline])).1.length < _ → _
      rw [hcut, List.length_append, List.length_singleton]
      intro hlt
      unfold begun at hlt
      split_ifs at hlt <;> omega
  | slept => exact h

/-- A line that is returned gives the right message exactly when nothing is cut. -/
theorem message_iff {before : List UInt8} {t : Stream} {l rest : List UInt8} (h : t.Since before)
    (hpending : t.pending = l ++ newline :: rest) (hl : newline ∉ l) :
    (if begun before ≤ (cut newline t.returned).1.length then
        alerts [(cut newline t.returned).2 ++ l] else []) = alerts [l] ↔
      NothingCut before t.returned t.pending := by
  have hfirst : t.pending.takeWhile (· ≠ newline) = l := by
    rw [hpending, List.takeWhile_append_of_pos]
    · simp
    · intro c hc
      exact decide_eq_true fun heq => hl (heq ▸ hc)
  unfold NothingCut
  rw [hfirst]
  by_cases hdropped : (cut newline t.returned).2 = []
  · -- the line is whole, and has begun after `before`
    have hbegun : begun before ≤ (cut newline t.returned).1.length :=
      Nat.le_of_not_lt fun hlt => h.ne hlt hdropped
    rw [if_pos hbegun, hdropped]
    exact iff_of_true rfl fun hne => absurd rfl hne
  · split_ifs with hbegun
    · -- a line of which the bridge has dropped the beginning
      rw [alerts_append_eq_iff hdropped]
      constructor
      · rintro ⟨hd, hlb⟩ -
        exact ⟨hlb, fun hd' => absurd hd' hd⟩
      · intro hcut
        obtain ⟨hlb, hd⟩ := hcut hdropped
        exact ⟨fun hd' => absurd (hd hd') (Nat.not_lt.mpr hbegun), hlb⟩
    · -- the rest of the line that `before` ends with
      rw [alerts_singleton]
      split_ifs with hlb
      · exact iff_of_false (fun heq => nomatch heq) fun hcut => (hcut hdropped).1 hlb
      · exact iff_of_true rfl fun _ => ⟨hlb, fun _ => Nat.lt_of_not_le hbegun⟩

/-! ## Runs -/

/-- The bytes of its file that the bridge is done with. -/
def Bridge.returned (s : Bridge) : List UInt8 :=
  s.reader.inode.elim [] fun i => (s.files i).take (s.reader.offset - s.reader.pending.length)

namespace Views

variable {s : Bridge} {t : Stream}

/-- The bytes pending are those of the stream. -/
theorem pending_eq (h : Views s t) : s.reader.pending = t.pending := by
  rcases h.reader with hreader | ⟨hreader, hpending⟩ <;> rw [hreader]
  · rfl
  · exact hpending.symm

/-- The lines returned are those of the stream. -/
theorem returned_eq (h : Views s t) : s.returned = t.returned := by
  have hoffset : s.reader.inode = some 0 ∧
      s.reader.offset - s.reader.pending.length = t.returned.length := by
    rcases h.reader with hreader | ⟨hreader, -⟩ <;> rw [hreader]
    · exact ⟨rfl, Nat.add_sub_cancel _ _⟩
    · exact ⟨rfl, rfl⟩
  unfold Bridge.returned
  rw [hoffset.1, hoffset.2]
  show (s.files 0).take t.returned.length = t.returned
  rw [h.file, List.append_assoc, List.take_left]

/-- At the end nothing is unread but a part of a line. -/
theorem atEnd_iff (h : Views s t) : s.AtEnd ↔ t.unread = [] ∧ newline ∉ t.pending := by
  have hoffset : s.reader.inode = some 0 ∧
      s.reader.offset = t.returned.length + t.pending.length := by
    rcases h.reader with hreader | ⟨hreader, hpending⟩ <;> rw [hreader]
    · exact ⟨rfl, rfl⟩
    · exact ⟨rfl, by rw [hpending]; rfl⟩
  have hlength : (s.files 0).length ≤ s.reader.offset ↔ t.unread = [] := by
    rw [h.file, hoffset.2, ← List.length_eq_zero_iff]
    simp only [List.length_append]
    omega
  unfold Bridge.AtEnd
  rw [hoffset.1, h.pending_eq, ← hlength]
  constructor
  · rintro ⟨i, hi, hle, hnl⟩
    obtain rfl := Option.some.inj hi
    exact ⟨hle, hnl⟩
  · rintro ⟨hle, hnl⟩
    exact ⟨0, rfl, hle, hnl⟩

/-- At the end of the file, what is expected of it is expected of what is returned. -/
theorem expected_file (h : Views s t) (before : List UInt8) (hunread : t.unread = [])
    (hpending : newline ∉ t.pending) :
    expected before (s.files 0) = expected before t.returned := by
  rw [h.file, hunread, List.append_nil, expected_append_part _ _ hpending]

end Views

/-- An event returns no line that has been cut. -/
def Uncut (before : List UInt8) (pre : List Event) (e : Event) : Prop :=
  ∀ s, reach Bridge.step (tailing before) pre = some s → e = .returnLine true →
    NothingCut before s.returned s.reader.pending

/-- Whenever the bridge is at the end of its file, the messages are the alerts. -/
def Complete (before : List UInt8) (events : List Event) : Prop :=
  ∀ pre post, events = pre ++ post → ∀ s, reach Bridge.step (tailing before) pre = some s →
    s.AtEnd → s.published = expected before (s.files 0)

section Steps

variable {before : List UInt8} {t t' : Stream} {e : Event}

/-- The messages stay right exactly when nothing is cut. -/
theorem published_step (hsince : t.Since before) (hmove : Moves t e t')
    (h : t.published = expected before t.returned) :
    t'.published = expected before t'.returned ↔
      (e = .returnLine true → NothingCut before t.returned t.pending) := by
  cases hmove with
  | wrote => exact iff_of_true h fun heq => nomatch heq
  | got => exact iff_of_true h fun heq => nomatch heq
  | dropped n hunread hpending =>
    refine iff_of_true ?_ fun heq => nomatch heq
    exact h.trans (expected_append_part _ _ hpending).symm
  | line hpending hl =>
    rw [forall_prop_of_true rfl, ← message_iff hsince hpending hl]
    dsimp only
    rw [expected_append_line _ _ hl, h, List.append_cancel_left_eq]
    exact eq_comm
  | slept => exact iff_of_true h fun heq => nomatch heq

/-- Wrong messages stay wrong until the end of the file. -/
theorem published_ne_step (hsince : t.Since before) (hmove : Moves t e t')
    (h : t.published ≠ expected before t.returned) (hwhole : (cut newline t.returned).2 = [])
    (hend : ¬ (t.unread = [] ∧ newline ∉ t.pending)) :
    t'.published ≠ expected before t'.returned ∧ (cut newline t'.returned).2 = [] := by
  cases hmove with
  | wrote => exact ⟨h, hwhole⟩
  | got => exact ⟨h, hwhole⟩
  | dropped n hunread hpending => exact absurd ⟨hunread, hpending⟩ hend
  | line hpending hl =>
    have hmessage := (message_iff hsince hpending hl).mpr fun hne => absurd hwhole hne
    constructor
    · dsimp only
      rw [expected_append_line _ _ hl, hmessage]
      exact fun heq => h (List.append_cancel_right heq)
    · dsimp only
      rw [cut_append_line _ hl]
  | slept => exact ⟨h, hwhole⟩

end Steps

/-- The stream starts where the bridge started. -/
theorem since_tailing (before : List UInt8) : Stream.Since before ⟨before, [], [], []⟩ := by
  refine ⟨Nat.le_refl _, fun hlt hnil => ?_⟩
  unfold begun at hlt
  rw [if_pos hnil] at hlt
  exact Nat.lt_irrefl _ hlt

/-- What was there before is not expected. -/
theorem expected_self (before : List UInt8) : expected before before = [] := by
  unfold expected
  rw [List.drop_of_length_le]
  · rfl
  · exact Nat.le_add_right _ _

/-- What is known of a run: the bridge sees a stream, its messages are right if no
line has been cut, and they are wrong if one has and nobody could see it yet. -/
structure Known (before : List UInt8) (events : List Event) (t : Stream) : Prop where
  since : t.Since before
  right : Along (Uncut before) events → t.published = expected before t.returned
  wrong : Complete before events →
    (Along (Uncut before) events ∧ t.published = expected before t.returned) ∨
      (t.published ≠ expected before t.returned ∧ (cut newline t.returned).2 = [])

/-- Completeness up to some point. -/
theorem complete_of_concat {before : List UInt8} {events : List Event} {e : Event}
    (h : Complete before (events ++ [e])) : Complete before events := by
  intro pre post heq
  refine h pre (post ++ [e]) ?_
  rw [heq, List.append_assoc]

/-- **The stream of an append-only run** says what is published. -/
theorem known_of_reach {before : List UInt8} {events : List Event}
    (hevents : ∀ e ∈ events, e.Appends) {s : Bridge}
    (hreach : reach Bridge.step (tailing before) events = some s) :
    ∃ t, Views s t ∧ Known before events t := by
  induction events using List.reverseRecOn generalizing s with
  | nil =>
    obtain rfl := Option.some.inj hreach
    refine ⟨_, views_tailing before, since_tailing before, fun _ => (expected_self before).symm,
      fun _ => Or.inl ⟨along_nil, (expected_self before).symm⟩⟩
  | append_singleton events e ih =>
    obtain ⟨s₁, hs₁, hstep⟩ := reach_concat_eq_some.mp hreach
    obtain ⟨t, hview, hknown⟩ := ih (fun e' he' => hevents e' (List.mem_append_left _ he')) hs₁
    have happends := hevents e (List.mem_append_right _ (List.mem_singleton_self e))
    obtain ⟨t', hmove, hview'⟩ := views_step hview happends hstep
    have huncut : Uncut before events e ↔
        (e = .returnLine true → NothingCut before t.returned t.pending) := by
      rw [← hview.returned_eq, ← hview.pending_eq]
      constructor
      · exact fun h => h s₁ hs₁
      · intro h s hs
        obtain rfl := Option.some.inj (hs₁.symm.trans hs)
        exact h
    refine ⟨t', hview', hmove.since hknown.since, fun halong => ?_, fun hcomplete => ?_⟩
    · obtain ⟨hpre, he⟩ := along_concat.mp halong
      exact (published_step hknown.since hmove (hknown.right hpre)).mpr (huncut.mp he)
    · rcases hknown.wrong (complete_of_concat hcomplete) with ⟨hpre, heq⟩ | ⟨hne, hwhole⟩
      · have hiff := published_step hknown.since hmove heq
        by_cases he : Uncut before events e
        · exact Or.inl ⟨along_concat.mpr ⟨hpre, he⟩, hiff.mpr (huncut.mp he)⟩
        · -- this line is cut, and only its end has been published
          refine Or.inr ⟨fun heq' => he (huncut.mpr (hiff.mp heq')), ?_⟩
          have hline : e = .returnLine true := by
            by_contra hne
            exact he (huncut.mpr fun heq' => absurd heq' hne)
          subst hline
          cases hmove with
          | line hpending hl =>
            dsimp only
            rw [cut_append_line _ hl]
      · refine Or.inr (published_ne_step hknown.since hmove hne hwhole ?_)
        -- at the end of the file the wrong messages would have been seen
        rintro ⟨hunread, hpending⟩
        have hseen := hcomplete events [e] rfl s₁ hs₁ (hview.atEnd_iff.mpr ⟨hunread, hpending⟩)
        rw [hview.published, hview.expected_file before hunread hpending] at hseen
        exact hne hseen

/-- **The messages of an append-only file.**  As long as no line is returned without
its beginning the messages are the alerts of what is returned.  In a run that ends at
the end of the file, they are the alerts of the file whenever the bridge is at its
end, exactly when no such line is returned. -/
theorem complete_iff {before : List UInt8} {events : List Event}
    (hevents : ∀ e ∈ events, e.Appends) {s : Bridge}
    (hreach : reach Bridge.step (tailing before) events = some s) :
    (Along (Uncut before) events → s.published = expected before s.returned) ∧
      (s.AtEnd → (Complete before events ↔ Along (Uncut before) events)) := by
  obtain ⟨t, hview, hknown⟩ := known_of_reach hevents hreach
  refine ⟨fun halong => ?_, fun hend => ⟨fun hcomplete => ?_, fun halong => ?_⟩⟩
  · rw [hview.published, hview.returned_eq]
    exact hknown.right halong
  · rcases hknown.wrong hcomplete with ⟨halong, -⟩ | ⟨hne, -⟩
    · exact halong
    · obtain ⟨hunread, hpending⟩ := hview.atEnd_iff.mp hend
      have hseen := hcomplete events [] (List.append_nil _).symm s hreach hend
      rw [hview.published, hview.expected_file before hunread hpending] at hseen
      exact absurd hseen hne
  · rintro pre post rfl s₁ hs₁ hend₁
    obtain ⟨t₁, hview₁, hknown₁⟩ :=
      known_of_reach (fun e he => hevents e (List.mem_append_left _ he)) hs₁
    obtain ⟨hunread, hpending⟩ := hview₁.atEnd_iff.mp hend₁
    rw [hview₁.published, hview₁.expected_file before hunread hpending]
    exact hknown₁.right (Along.of_append halong)

/-- The line `{1}` arrives in two chunks, and is read whole. -/
theorem complete_iff_whole :
    let events : List Event :=
      [.write [123, 49], .read 4096, .write [125, 10], .read 4096, .returnLine true, .read 4096]
    ∃ s, reach Bridge.step (tailing []) events = some s ∧ s.published = [[123, 49, 125]] ∧
      (Complete [] events ↔ Along (Uncut []) events) := by
  intro events
  have hrun : (reach Bridge.step (tailing []) events).map
      (fun s => (s.reader, s.published, (s.files 0).length)) =
        some (.polling 0 4, [[123, 49, 125]], 4) := by
    decide
  obtain ⟨s, hs, hresult⟩ := Option.map_eq_some_iff.mp hrun
  simp only [Prod.mk.injEq] at hresult
  obtain ⟨hreader, hpublished, hlength⟩ := hresult
  have hevents : ∀ e ∈ events, e.Appends := by simp [events, Event.Appends]
  exact ⟨s, hs, hpublished,
    (complete_iff hevents hs).2 (Bridge.atEnd_of_polling hreader (Nat.le_of_eq hlength))⟩

/-- The bridge meets the end of the file in the middle of the line `{1}`, whose
alert is lost. -/
theorem not_complete :
    let events : List Event :=
      [.write [123, 49], .read 4096, .read 4096, .poll true, .write [125, 10], .read 4096,
        .returnLine true, .read 4096]
    (∀ e ∈ events, e.Appends) ∧ ¬ Complete [] events := by
  intro events
  refine ⟨by simp [events, Event.Appends], fun hcomplete => ?_⟩
  have hrun : (reach Bridge.step (tailing []) events).map
      (fun s => (s.reader, s.published, s.files 0)) =
        some (.polling 0 4, [], [123, 49, 125, 10]) := by
    decide
  obtain ⟨s, hs, hresult⟩ := Option.map_eq_some_iff.mp hrun
  simp only [Prod.mk.injEq] at hresult
  obtain ⟨hreader, hpublished, hfile⟩ := hresult
  have hend := Bridge.atEnd_of_polling hreader (by rw [hfile]; decide)
  have hseen := hcomplete events [] rfl s hs hend
  rw [hpublished, hfile] at hseen
  exact absurd hseen (by decide)

end AlertBridge
