/-
# Truncations and rotations

The pipeline truncates the file when it starts, and the file may be renamed and
created again.  The bridge looks at inodes only, keeps its offset, and seeks the end
of every file that it opens.  What it has published together with what it still has
before it is all that was written, as long as every line is written to the file that
it reads, behind its offset, and nothing that is unread is truncated or left.
-/
import ZtMapper.Bridge.Tail
import ZtMapper.Lib.Runs

open Lines Runs

namespace AlertBridge

/-! ## What is written -/

/-- What the pipeline writes is an alert and its newline. -/
def Event.WritesAlert : Event → Prop
  | .write bytes => bytes.head? = some brace ∧ bytes.getLast? = some newline ∧
    newline ∉ bytes.dropLast
  | _ => True

instance (e : Event) : Decidable e.WritesAlert :=
  match e with
  | .write _ => inferInstanceAs (Decidable (_ ∧ _))
  | .openTrunc | .rename | .create | .openFile | .seekEnd | .read _ | .returnLine _ | .poll _
  | .fail => isTrue trivial

/-- A written alert is one whole line. -/
theorem Event.line_of_writesAlert {bytes : List UInt8} (h : Event.WritesAlert (.write bytes)) :
    ∃ line, newline ∉ line ∧ line.head? = some brace ∧ bytes = line ++ [newline] := by
  obtain ⟨hhead, hlast, hline⟩ := h
  have hsplit := List.dropLast_append_getLast? newline hlast
  refine ⟨bytes.dropLast, hline, ?_, hsplit.symm⟩
  cases hdrop : bytes.dropLast with
  | nil =>
    rw [hdrop] at hsplit
    rw [← hsplit] at hhead
    exact absurd hhead (by decide)
  | cons c cs =>
    rw [hdrop] at hsplit
    rw [← hsplit] at hhead
    exact hhead

/-- The message of a line. -/
def Event.message : Event → Option (List UInt8)
  | .write bytes => some (trimTrailingNewline bytes)
  | _ => none

/-- The messages of the lines that are written after the bridge first attached. -/
def written (events : List Event) : List (List UInt8) :=
  (events.dropWhile (· ≠ .seekEnd)).filterMap Event.message

/-- What is written after the bridge has its file open. -/
theorem written_concat (events : List Event) (e : Event) :
    written (events ++ [e]) =
      if .seekEnd ∈ events then written events ++ e.message.toList else [] := by
  unfold written
  rw [List.dropWhile_append]
  by_cases hseek : .seekEnd ∈ events
  · rw [if_pos hseek, if_neg]
    · rw [List.filterMap_append]
      cases e <;> rfl
    · intro hempty
      have hall := List.dropWhile_eq_nil_iff.mp (List.isEmpty_iff.mp hempty) _ hseek
      exact absurd rfl (of_decide_eq_true hall)
  · rw [if_neg hseek, if_pos]
    · cases e <;> rfl
    · refine List.isEmpty_iff.mpr (List.dropWhile_eq_nil_iff.mpr fun e' he' => ?_)
      exact decide_eq_true fun heq => hseek (heq ▸ he')

/-! ## When nothing is lost -/

/-- What the bridge relies on at an event. -/
structure Keeps (s : Bridge) (e : Event) : Prop where
  write : ∀ bytes, e = .write bytes → ∃ i, s.writer = some i ∧ s.reader.inode = some i ∧
    s.reader.offset ≤ (s.files i).length
  truncate : e = .openTrunc → s.path = s.reader.inode → s.unread = []
  leave : ∀ stat, e = .poll stat → ¬ (stat = true ∧ s.path = s.reader.inode) → s.unread = []
  fail : e = .fail → s.unread = [] ∧ s.reader.pending = []
  publish : ∀ published, e = .returnLine published → published = true

/-- The bridge relies on nothing when it seeks, reads or publishes. -/
theorem keeps_of_own {s : Bridge} {e : Event}
    (he : e = .seekEnd ∨ (∃ n, e = .read n) ∨ e = .returnLine true) : Keeps s e := by
  rcases he with rfl | ⟨n, rfl⟩ | rfl
  · exact ⟨fun _ h => (nomatch h), fun h => (nomatch h), fun _ h => (nomatch h),
      fun h => (nomatch h), fun _ h => (nomatch h)⟩
  · exact ⟨fun _ h => (nomatch h), fun h => (nomatch h), fun _ h => (nomatch h),
      fun h => (nomatch h), fun _ h => (nomatch h)⟩
  · exact ⟨fun _ h => (nomatch h), fun h => (nomatch h), fun _ h => (nomatch h),
      fun h => (nomatch h), fun _ h => (Event.returnLine.inj h).symm⟩

/-- After the bridge has attached, the events are as it relies on. -/
def KeepsAt (pre : List Event) (e : Event) : Prop :=
  .seekEnd ∈ pre → ∀ s, reach Bridge.step {} pre = some s → Keeps s e

/-- The bridge has read the file at the path to its end. -/
def Bridge.ReadsCurrent (s : Bridge) : Prop := s.AtEnd ∧ s.path = s.reader.inode

/-! ## Inodes -/

/-- The file that the bridge has open. -/
def Reader.descriptor : Reader → Option ℕ
  | .waiting => none
  | .opened i => some i
  | .reading i _ _ => some i
  | .polling i _ => some i

/-- Only inodes that have been given are in use. -/
structure Bridge.Fresh (s : Bridge) : Prop where
  path : ∀ i, s.path = some i → i < s.nextInode
  reader : ∀ i, s.reader.descriptor = some i → i < s.nextInode

namespace Bridge

variable {s s' : Bridge} {e : Event}

/-- A new file takes the next inode. -/
theorem Fresh.newFile (h : s.Fresh) : s.newFile.Fresh := by
  constructor
  · intro i hi
    obtain rfl := Option.some.inj hi
    exact Nat.lt_succ_self _
  · exact fun i hi => Nat.lt_succ_of_lt (h.reader i hi)

/-- Inodes not yet used stay empty. -/
theorem Fresh.step (h : s.Fresh) (hstep : s.step e = some s') : s'.Fresh := by
  -- only `create`, and `openTrunc` without a file, make an inode, and it is the next one
  cases e with
  | openTrunc =>
    rcases openTrunc_cases hstep with ⟨i, -, rfl⟩ | ⟨-, rfl⟩
    · exact ⟨h.path, h.reader⟩
    · exact ⟨h.newFile.path, h.newFile.reader⟩
  | write bytes =>
    obtain ⟨i, -, rfl⟩ := write_cases hstep
    exact ⟨h.path, h.reader⟩
  | rename =>
    obtain rfl := rename_cases hstep
    exact ⟨fun i hi => (nomatch hi), h.reader⟩
  | create =>
    obtain ⟨-, rfl⟩ := create_cases hstep
    exact h.newFile
  | openFile =>
    obtain ⟨-, i, hpath, rfl⟩ := openFile_cases hstep
    exact ⟨h.path, fun j hj => h.path j (hpath.trans hj)⟩
  | seekEnd =>
    obtain ⟨i, hreader, rfl⟩ := seekEnd_cases hstep
    exact ⟨h.path, fun j hj => h.reader j (by rw [hreader]; exact hj)⟩
  | read n =>
    obtain ⟨i, offset, pending, hreader, -, hcases⟩ := read_cases hstep
    have hfresh : ∀ j, some i = some j → j < s.nextInode := fun j hj =>
      h.reader j (by rw [hreader]; exact hj)
    rcases hcases with ⟨-, rfl⟩ | ⟨bytes, rest, -, rfl⟩ <;> exact ⟨h.path, hfresh⟩
  | returnLine published =>
    obtain ⟨i, offset, line, rest, hreader, -, rfl⟩ := returnLine_cases hstep
    exact ⟨h.path, fun j hj => h.reader j (by rw [hreader]; exact hj)⟩
  | poll stat =>
    obtain ⟨i, offset, hreader, ⟨-, -, rfl⟩ | ⟨-, rfl⟩⟩ := poll_cases hstep
    · exact ⟨h.path, fun j hj => h.reader j (by rw [hreader]; exact hj)⟩
    · exact ⟨h.path, fun j hj => (nomatch hj)⟩
  | fail =>
    obtain rfl := fail_cases hstep
    exact ⟨h.path, fun j hj => (nomatch hj)⟩

/-- They are empty in every run. -/
theorem fresh_of_reach {events : List Event} (hreach : reach Bridge.step {} events = some s) :
    s.Fresh := by
  refine reach_invariant (I := Fresh) ?_ (fun _ _ _ hfresh hstep => hfresh.step hstep) hreach
  constructor <;>
  · intro i hi
    cases hi

/-! ## What the bridge has before it -/

/-- The bytes that the bridge has not returned. -/
def ahead (s : Bridge) : List UInt8 := s.reader.pending ++ s.unread

/-- What the bridge has not read of the file that it has open. -/
theorem unread_of_inode {i : ℕ} (h : s.reader.inode = some i) :
    s.unread = (s.files i).drop s.reader.offset := by
  unfold unread
  rw [h]
  rfl

/-- Without a file open nothing is ahead. -/
theorem ahead_of_inode_none (h : s.reader.inode = none) : s.ahead = [] := by
  unfold ahead unread
  rw [h]
  cases hreader : s.reader with
  | waiting | opened => rfl
  | reading | polling =>
    rw [hreader] at h
    cases h

/-- Another file, or another part of the file, changes. -/
theorem ahead_congr (hreader : s'.reader = s.reader)
    (hfiles : ∀ i, s.reader.inode = some i →
      (s'.files i).drop s.reader.offset = (s.files i).drop s.reader.offset) :
    s'.ahead = s.ahead := by
  unfold ahead unread
  rw [hreader]
  cases hinode : s.reader.inode with
  | none => rfl
  | some i => exact congrArg _ (hfiles i hinode)

/-- A new file is not ahead: the bridge does not have it open. -/
theorem ahead_newFile (h : s.Fresh) : s.newFile.ahead = s.ahead := by
  refine ahead_congr rfl fun i hi => ?_
  have hlt : i < s.nextInode := by
    apply h.reader
    cases hreader : s.reader <;> rw [hreader] at hi
    · cases hi
    · cases hi
    · exact hi
    · exact hi
  show (Function.update s.files s.nextInode [] i).drop _ = _
  rw [Function.update_of_ne (Nat.ne_of_lt hlt)]

/-- What has been published, and the alerts before the bridge, are all that was
written; and no line before it lacks its beginning or its end. -/
structure Intact (s : Bridge) (all : List (List UInt8)) : Prop where
  whole : (cut newline s.ahead).2 = []
  all : s.published ++ alerts (cut newline s.ahead).1 = all

/-- All published, with nothing ahead, is intact. -/
theorem intact_of_ahead_nil (hahead : s.ahead = []) {all : List (List UInt8)}
    (h : s.published = all) : s.Intact all := by
  constructor
  · rw [hahead]
    rfl
  · rw [hahead, h]
    exact List.append_nil _

/-- Intact with nothing ahead: all are published. -/
theorem Intact.published_eq {all : List (List UInt8)} (h : s.Intact all) (hahead : s.ahead = []) :
    s.published = all := by
  have hall := h.all
  rw [hahead] at hall
  exact (List.append_nil _).symm.trans hall

/-- Intactness depends on the two lists only. -/
theorem Intact.congr {all : List (List UInt8)} (h : s.Intact all) (hahead : s'.ahead = s.ahead)
    (hpublished : s'.published = s.published) : s'.Intact all := by
  constructor
  · rw [hahead]
    exact h.whole
  · rw [hahead, hpublished]
    exact h.all

/-- A line is written behind the bridge's offset. -/
theorem Intact.write {all : List (List UInt8)} (h : s.Intact all) {i : ℕ} {line : List UInt8}
    (hinode : s.reader.inode = some i) (hoffset : s.reader.offset ≤ (s.files i).length)
    (hline : newline ∉ line) (hbrace : line.head? = some brace) :
    Intact { s with files := Function.update s.files i (s.files i ++ (line ++ [newline])) }
      (all ++ [trimTrailingNewline (line ++ [newline])]) := by
  have hahead : ahead { s with
      files := Function.update s.files i (s.files i ++ (line ++ [newline])) } =
        s.ahead ++ line ++ [newline] := by
    unfold ahead
    rw [unread_of_inode hinode, unread_of_inode (i := i) (by exact hinode)]
    dsimp only
    rw [Function.update_self, List.drop_append_of_le_length hoffset]
    simp only [List.append_assoc]
  have hcut := cut_append_line s.ahead hline
  rw [h.whole, List.nil_append] at hcut
  constructor
  · rw [hahead, hcut]
  · show s.published ++ _ = _
    rw [hahead, hcut, alerts_append, ← List.append_assoc, h.all, trim_concat_newline]
    refine congrArg _ ?_
    simp [alerts, isAlert, hbrace]

/-- The bridge has read all of its file before that is truncated. -/
theorem Intact.openTrunc {all : List (List UInt8)} (h : s.Intact all) (hfresh : s.Fresh)
    (htruncate : s.path = s.reader.inode → s.unread = []) (hstep : s.step .openTrunc = some s') :
    s'.Intact all := by
  rcases openTrunc_cases hstep with ⟨i, hpath, rfl⟩ | ⟨-, rfl⟩
  · refine h.congr (ahead_congr rfl fun j hj => ?_) rfl
    dsimp only
    by_cases hij : j = i
    · subst hij
      have hunread := htruncate (hpath.trans hj.symm)
      rw [unread_of_inode hj] at hunread
      rw [Function.update_self, hunread, List.drop_nil]
    · rw [Function.update_of_ne hij]
  · exact h.congr (ahead_newFile hfresh) rfl

/-- The bridge starts at the end of the file. -/
theorem Intact.seekEnd {all : List (List UInt8)} (h : s.Intact all)
    (hstep : s.step .seekEnd = some s') : s'.Intact all := by
  obtain ⟨i, hreader, rfl⟩ := seekEnd_cases hstep
  have hahead : s.ahead = [] := ahead_of_inode_none (by rw [hreader]; rfl)
  refine intact_of_ahead_nil ?_ (h.published_eq hahead)
  show [] ++ (s.files i).drop (s.files i).length = []
  rw [List.drop_length]
  rfl

/-- At the end of the file no line is in the middle, so nothing is dropped. -/
theorem Intact.read {all : List (List UInt8)} (h : s.Intact all) {n : ℕ}
    (hstep : s.step (.read n) = some s') : s'.Intact all := by
  obtain ⟨i, offset, pending, hreader, hpending, hcases⟩ := read_cases hstep
  have hahead : s.ahead = pending ++ (s.files i).drop offset := by
    unfold ahead
    rw [unread_of_inode (by rw [hreader]; rfl), hreader]
    rfl
  rcases hcases with ⟨hunread, rfl⟩ | ⟨bytes, rest, hunread, rfl⟩
  · rw [hunread, List.append_nil] at hahead
    have hwhole := h.whole
    rw [hahead, cut_of_not_mem hpending] at hwhole
    refine intact_of_ahead_nil ?_ (h.published_eq (hahead.trans hwhole))
    show [] ++ (s.files i).drop offset = []
    rw [hunread]
    rfl
  · refine h.congr ?_ rfl
    show (pending ++ bytes) ++ (s.files i).drop (offset + bytes.length) = s.ahead
    rw [hahead, ← List.drop_drop, hunread, List.drop_left, List.append_assoc]

/-- A line that is published is no longer ahead. -/
theorem Intact.returnLine {all : List (List UInt8)} (h : s.Intact all)
    (hstep : s.step (.returnLine true) = some s') : s'.Intact all := by
  obtain ⟨i, offset, line, rest, hreader, hline, rfl⟩ := returnLine_cases hstep
  have hahead : s.ahead = line ++ newline :: (rest ++ (s.files i).drop offset) := by
    unfold ahead
    rw [unread_of_inode (by rw [hreader]; rfl), hreader]
    show (line ++ newline :: rest) ++ _ = _
    rw [List.append_assoc, List.cons_append]
    rfl
  have hwhole := h.whole
  have hall := h.all
  rw [hahead, cut_line_append hline] at hwhole hall
  refine ⟨hwhole, ?_⟩
  show s.published ++ alerts [line] ++ alerts (cut newline (rest ++ (s.files i).drop offset)).1 = all
  rw [List.append_assoc, ← alerts_append]
  exact hall

/-- The bridge leaves a file that it has read. -/
theorem Intact.poll {all : List (List UInt8)} (h : s.Intact all) {stat : Bool}
    (hleave : ¬ (stat = true ∧ s.path = s.reader.inode) → s.unread = [])
    (hstep : s.step (.poll stat) = some s') : s'.Intact all := by
  obtain ⟨i, offset, hreader, hcases⟩ := poll_cases hstep
  have hinode : s.reader.inode = some i := by rw [hreader]; rfl
  have hpending : s.reader.pending = [] := by rw [hreader]; rfl
  rcases hcases with ⟨-, -, rfl⟩ | ⟨hleaves, rfl⟩
  · refine h.congr ?_ rfl
    unfold ahead
    rw [unread_of_inode hinode, hreader]
    rfl
  · have hunread := hleave (by rw [hinode]; exact hleaves)
    have hahead : s.ahead = [] := by
      unfold ahead
      rw [hpending, hunread]
      rfl
    exact intact_of_ahead_nil (ahead_of_inode_none rfl) (h.published_eq hahead)

/-- Nothing is at hand when the bridge starts anew. -/
theorem Intact.fail {all : List (List UInt8)} (h : s.Intact all) (hunread : s.unread = [])
    (hpending : s.reader.pending = []) (hstep : s.step .fail = some s') : s'.Intact all := by
  obtain rfl := fail_cases hstep
  have hahead : s.ahead = [] := by
    unfold ahead
    rw [hpending, hunread]
    rfl
  exact intact_of_ahead_nil (ahead_of_inode_none rfl) (h.published_eq hahead)

/-- **One event loses nothing**, if it is as the bridge relies on. -/
theorem Intact.step {all : List (List UInt8)} (h : s.Intact all) (hfresh : s.Fresh)
    (hkeeps : Keeps s e) (halert : e.WritesAlert) (hstep : s.step e = some s') :
    s'.Intact (all ++ e.message.toList) := by
  have hquiet : e.message = none → s'.Intact all → s'.Intact (all ++ e.message.toList) := by
    intro hmessage hall
    rw [hmessage, Option.toList_none, List.append_nil]
    exact hall
  cases e with
  | write bytes =>
    obtain ⟨line, hline, hbrace, rfl⟩ := Event.line_of_writesAlert halert
    obtain ⟨i, hwriter, hinode, hoffset⟩ := hkeeps.write _ rfl
    obtain ⟨j, hj, rfl⟩ := write_cases hstep
    obtain rfl := Option.some.inj (hwriter.symm.trans hj)
    exact h.write hinode hoffset hline hbrace
  | openTrunc => exact hquiet rfl (h.openTrunc hfresh (hkeeps.truncate rfl) hstep)
  | rename =>
    obtain rfl := rename_cases hstep
    exact hquiet rfl (h.congr rfl rfl)
  | create =>
    obtain ⟨-, rfl⟩ := create_cases hstep
    exact hquiet rfl (h.congr (ahead_newFile hfresh) rfl)
  | openFile =>
    obtain ⟨hreader, i, -, rfl⟩ := openFile_cases hstep
    have hahead : s.ahead = [] := ahead_of_inode_none (by rw [hreader]; rfl)
    exact hquiet rfl (intact_of_ahead_nil (ahead_of_inode_none rfl) (h.published_eq hahead))
  | seekEnd => exact hquiet rfl (h.seekEnd hstep)
  | read n => exact hquiet rfl (h.read hstep)
  | returnLine published =>
    obtain rfl := hkeeps.publish published rfl
    exact hquiet rfl (h.returnLine hstep)
  | poll stat => exact hquiet rfl (h.poll (hkeeps.leave stat rfl) hstep)
  | fail =>
    obtain ⟨hunread, hpending⟩ := hkeeps.fail rfl
    exact hquiet rfl (h.fail hunread hpending hstep)

/-! ## Runs -/

/-- Before the bridge has attached it reads no file. -/
theorem detached_step (hinode : s.reader.inode = none) (hpublished : s.published = [])
    (he : e ≠ .seekEnd) (hstep : s.step e = some s') :
    s'.reader.inode = none ∧ s'.published = [] := by
  cases e with
  | openTrunc =>
    rcases openTrunc_cases hstep with ⟨i, -, rfl⟩ | ⟨-, rfl⟩ <;> exact ⟨hinode, hpublished⟩
  | write bytes =>
    obtain ⟨i, -, rfl⟩ := write_cases hstep
    exact ⟨hinode, hpublished⟩
  | rename =>
    obtain rfl := rename_cases hstep
    exact ⟨hinode, hpublished⟩
  | create =>
    obtain ⟨-, rfl⟩ := create_cases hstep
    exact ⟨hinode, hpublished⟩
  | openFile =>
    obtain ⟨-, i, -, rfl⟩ := openFile_cases hstep
    exact ⟨rfl, hpublished⟩
  | seekEnd => exact absurd rfl he
  -- the events of the reader need a file that it reads
  | read n =>
    obtain ⟨i, offset, pending, hreader, -⟩ := read_cases hstep
    rw [hreader] at hinode
    cases hinode
  | returnLine published =>
    obtain ⟨i, offset, line, rest, hreader, -⟩ := returnLine_cases hstep
    rw [hreader] at hinode
    cases hinode
  | poll stat =>
    obtain ⟨i, offset, hreader, -⟩ := poll_cases hstep
    rw [hreader] at hinode
    cases hinode
  | fail =>
    obtain rfl := fail_cases hstep
    exact ⟨rfl, hpublished⟩

/-- **Nothing is lost** in a run whose rotations wait for the bridge. -/
theorem intact_of_reach {events : List Event} (halerts : ∀ e ∈ events, e.WritesAlert)
    (hkeeps : Along KeepsAt events) (hreach : reach Bridge.step {} events = some s) :
    (.seekEnd ∈ events → s.Intact (written events)) ∧
      (.seekEnd ∉ events → s.reader.inode = none ∧ s.published = []) := by
  induction events using List.reverseRecOn generalizing s with
  | nil =>
    obtain rfl := Option.some.inj hreach
    exact ⟨fun hseek => absurd hseek List.not_mem_nil, fun _ => ⟨rfl, rfl⟩⟩
  | append_singleton events e ih =>
    obtain ⟨s₁, hs₁, hstep⟩ := reach_concat_eq_some.mp hreach
    obtain ⟨hpre, he⟩ := along_concat.mp hkeeps
    have halert := halerts e (List.mem_append_right _ (List.mem_singleton_self e))
    obtain ⟨hattached, hdetached⟩ :=
      ih (fun e' he' => halerts e' (List.mem_append_left _ he')) hpre hs₁
    have hfresh := fresh_of_reach hs₁
    rw [written_concat]
    by_cases hseek : .seekEnd ∈ events
    · rw [if_pos hseek]
      refine ⟨fun _ => (hattached hseek).step hfresh (he hseek s₁ hs₁) halert hstep, fun hnot => ?_⟩
      exact absurd (List.mem_append_left _ hseek) hnot
    · rw [if_neg hseek]
      obtain ⟨hinode, hpublished⟩ := hdetached hseek
      constructor
      · -- the bridge attaches
        intro hmem
        obtain rfl : e = .seekEnd := by
          rcases List.mem_append.mp hmem with hmem | hmem
          · exact absurd hmem hseek
          · exact (List.mem_singleton.mp hmem).symm
        exact (intact_of_ahead_nil (ahead_of_inode_none hinode) hpublished).step hfresh
          (keeps_of_own (Or.inl rfl)) halert hstep
      · intro hnot
        refine detached_step hinode hpublished (fun heq => hnot ?_) hstep
        rw [heq]
        exact List.mem_append_right _ (List.mem_singleton_self _)

/-- **Truncations and rotations lose nothing** in a run whose events are as the
bridge relies on: whenever it has read the file at the path to its end, it has
published every line written since it first attached, once and in order. -/
theorem published_eq_written {events : List Event} (halerts : ∀ e ∈ events, e.WritesAlert)
    (hkeeps : Along KeepsAt events) (hreach : reach Bridge.step {} events = some s)
    (hcurrent : s.ReadsCurrent) : s.published = written events := by
  obtain ⟨hattached, hdetached⟩ := intact_of_reach halerts hkeeps hreach
  obtain ⟨i, hinode, hlength, hpending⟩ := hcurrent.1
  have hseek : .seekEnd ∈ events := by
    by_contra hnot
    rw [(hdetached hnot).1] at hinode
    cases hinode
  have hintact := hattached hseek
  have hahead : s.ahead = s.reader.pending := by
    unfold ahead
    rw [unread_of_inode hinode, List.drop_of_length_le hlength, List.append_nil]
  have hwhole := hintact.whole
  rw [hahead, cut_of_not_mem hpending] at hwhole
  exact hintact.published_eq (hahead.trans hwhole)

/-- A bridge at the end of the current file is reading it. -/
theorem readsCurrent_of_polling {i offset : ℕ} (hreader : s.reader = .polling i offset)
    (hpath : s.path = some i) (hlength : (s.files i).length ≤ offset) : s.ReadsCurrent := by
  refine ⟨atEnd_of_polling hreader hlength, ?_⟩
  rw [hpath, hreader]
  rfl

/-- A line may be written to the file that the bridge reads, behind its offset. -/
theorem keeps_write {s : Bridge} {i : ℕ} (bytes : List UInt8) (hwriter : s.writer = some i)
    (hreader : s.reader.inode = some i) (hoffset : s.reader.offset ≤ (s.files i).length) :
    Keeps s (.write bytes) :=
  ⟨fun _ _ => ⟨i, hwriter, hreader, hoffset⟩, fun h => (nomatch h), fun _ h => (nomatch h),
    fun h => (nomatch h), fun _ h => (nomatch h)⟩

/-- The file may be truncated or left when nothing of it is unread. -/
theorem keeps_of_unread {s : Bridge} {e : Event} (he : e = .openTrunc ∨ e = .poll true)
    (hunread : s.unread = []) : Keeps s e := by
  rcases he with rfl | rfl
  · exact ⟨fun _ h => (nomatch h), fun _ _ => hunread, fun _ h => (nomatch h),
      fun h => (nomatch h), fun _ h => (nomatch h)⟩
  · exact ⟨fun _ h => (nomatch h), fun h => (nomatch h), fun _ _ _ => hunread,
      fun h => (nomatch h), fun _ h => (nomatch h)⟩

/-- A rename does not matter to the bridge, nor that it opens the file. -/
theorem keeps_rename_openFile {s : Bridge} {e : Event} (he : e = .rename ∨ e = .openFile) :
    Keeps s e := by
  rcases he with rfl | rfl <;>
    exact ⟨fun _ h => (nomatch h), fun h => (nomatch h), fun _ h => (nomatch h),
      fun h => (nomatch h), fun _ h => (nomatch h)⟩

/-- A line, after which the pipeline starts again and truncates the file; then the file is
renamed, and another line is written to the new one. -/
theorem published_eq_written_truncated :
    let events : List Event :=
      [.openTrunc, .openFile, .seekEnd, .write [123, 49, 125, 10], .read 4096, .returnLine true,
        .openTrunc, .read 4096, .rename, .openTrunc, .poll true, .openFile, .seekEnd,
        .write [123, 50, 125, 10], .read 4096, .returnLine true, .read 4096]
    ∃ s, reach Bridge.step {} events = some s ∧ s.ReadsCurrent ∧ s.published = written events ∧
      s.published = [[123, 49, 125], [123, 50, 125]] := by
  intro events
  have hrun : (reach Bridge.step {} events).map
      (fun s => (s.reader, s.path, (s.files 1).length, s.published)) =
        some (.polling 1 4, some 1, 4, [[123, 49, 125], [123, 50, 125]]) := by
    decide
  have halerts : ∀ e ∈ events, e.WritesAlert := by decide
  have hkeeps : Along KeepsAt events := by
    show Along KeepsAt ([] ++ [Event.openTrunc] ++ [Event.openFile] ++ [Event.seekEnd] ++
      [Event.write [123, 49, 125, 10]] ++ [Event.read 4096] ++ [Event.returnLine true] ++
      [Event.openTrunc] ++ [Event.read 4096] ++ [Event.rename] ++ [Event.openTrunc] ++
      [Event.poll true] ++ [Event.openFile] ++ [Event.seekEnd] ++ [Event.write [123, 50, 125, 10]] ++
      [Event.read 4096] ++ [Event.returnLine true] ++ [Event.read 4096])
    simp only [along_concat]
    refine ⟨⟨⟨⟨⟨⟨⟨⟨⟨⟨⟨⟨⟨⟨⟨⟨⟨along_nil, ?_⟩, ?_⟩, ?_⟩, ?_⟩, ?_⟩, ?_⟩, ?_⟩, ?_⟩, ?_⟩, ?_⟩, ?_⟩, ?_⟩, ?_⟩,
      ?_⟩, ?_⟩, ?_⟩, ?_⟩ <;> intro hseek s hs
    · exact absurd hseek (by decide)
    · exact absurd hseek (by decide)
    · exact absurd hseek (by decide)
    -- the write goes to the file that the bridge has at hand
    · obtain rfl := Option.some.inj hs
      exact keeps_write _ rfl rfl (by decide)
    · exact keeps_of_own (Or.inr (Or.inl ⟨_, rfl⟩))
    · exact keeps_of_own (Or.inr (Or.inr rfl))
    · obtain rfl := Option.some.inj hs
      exact keeps_of_unread (Or.inl rfl) (by decide)
    · exact keeps_of_own (Or.inr (Or.inl ⟨_, rfl⟩))
    · exact keeps_rename_openFile (Or.inl rfl)
    · obtain rfl := Option.some.inj hs
      exact keeps_of_unread (Or.inl rfl) (by decide)
    · obtain rfl := Option.some.inj hs
      exact keeps_of_unread (Or.inr rfl) (by decide)
    · exact keeps_rename_openFile (Or.inr rfl)
    · exact keeps_of_own (Or.inl rfl)
    -- so does the second one, after the rotation
    · obtain rfl := Option.some.inj hs
      exact keeps_write _ rfl rfl (by decide)
    · exact keeps_of_own (Or.inr (Or.inl ⟨_, rfl⟩))
    · exact keeps_of_own (Or.inr (Or.inr rfl))
    · exact keeps_of_own (Or.inr (Or.inl ⟨_, rfl⟩))
  obtain ⟨s, hs, hresult⟩ := Option.map_eq_some_iff.mp hrun
  simp only [Prod.mk.injEq] at hresult
  obtain ⟨hreader, hpath, hlength, hpublished⟩ := hresult
  have hcurrent := readsCurrent_of_polling hreader hpath hlength.le
  exact ⟨s, hs, hcurrent, published_eq_written halerts hkeeps hs hcurrent, hpublished⟩

/-- A line is written after a truncation before the bridge's offset, or after a
rotation before the bridge has opened the new file. -/
theorem not_published_eq_written :
    let truncated : List Event :=
      [.openTrunc, .openFile, .seekEnd, .write [123, 49, 125, 10], .read 4096, .returnLine true,
        .openTrunc, .write [123, 50, 125, 10], .write [123, 51, 125, 10], .read 4096,
        .returnLine true, .read 4096]
    let rotated : List Event :=
      [.openTrunc, .openFile, .seekEnd, .read 4096, .rename, .openTrunc,
        .write [123, 50, 125, 10], .poll true, .openFile, .seekEnd, .read 4096]
    ∀ events ∈ [truncated, rotated], (∀ e ∈ events, e.WritesAlert) ∧
      ∃ s, reach Bridge.step {} events = some s ∧ s.ReadsCurrent ∧
        [123, 50, 125] ∈ written events ∧ [123, 50, 125] ∉ s.published := by
  intro truncated rotated
  have hresult : ∀ (events : List Event) (i offset length : ℕ) (published : List (List UInt8)),
      (reach Bridge.step {} events).map
          (fun s => (s.reader, s.path, (s.files i).length, s.published)) =
        some (.polling i offset, some i, length, published) →
      length ≤ offset → [123, 50, 125] ∈ written events → [123, 50, 125] ∉ published →
      ∃ s, reach Bridge.step {} events = some s ∧ s.ReadsCurrent ∧
        [123, 50, 125] ∈ written events ∧ [123, 50, 125] ∉ s.published := by
    intro events i offset length published hrun hle hwritten hnot
    obtain ⟨s, hs, hresult⟩ := Option.map_eq_some_iff.mp hrun
    simp only [Prod.mk.injEq] at hresult
    obtain ⟨hreader, hpath, rfl, rfl⟩ := hresult
    exact ⟨s, hs, readsCurrent_of_polling hreader hpath hle, hwritten, hnot⟩
  intro events hmem
  rcases List.mem_pair.mp hmem with rfl | rfl
  · refine ⟨by decide, ?_⟩
    exact hresult truncated 0 8 8 [[123, 49, 125], [123, 51, 125]] (by decide) (by decide)
      (by decide) (by decide)
  · refine ⟨by decide, ?_⟩
    exact hresult rotated 1 4 4 [] (by decide) (by decide) (by decide) (by decide)

end Bridge

end AlertBridge
