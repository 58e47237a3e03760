/-
# A node

The pipelines that run on a node, one after the other, send alerts to a file, and the bridge
publishes the lines of the file.  The file may be renamed, created again and truncated, and
the bridge seeks the end of what it opens, forgets a half-read line and starts anew after a
failure.  What it publishes is made of lines of the pipelines, each at most once and in their
order, and of ends of such lines (`Node.Behind`).
-/
import ZtMapper.Bridge.Rotation
import ZtMapper.Lib.LinePositions
import ZtMapper.Soc.ToJson

open AlertBridge Lines Runs

namespace Cluster

/-- The alerts that have been sent, the bytes of them that have not been written, and the
file with the bridge. -/
structure Node where
  sent : List Soc.Alert := []
  buffer : List UInt8 := []
  bridge : Bridge := {}

namespace Node

/-- A pipeline starts, sends an alert, or writes some bytes; or somebody else makes a step. -/
inductive Event where
  | start
  | send (a : Soc.Alert)
  | write (n : ℕ)
  | other (e : AlertBridge.Event)

/-- The events of the bridge's system that belong to the pipeline. -/
def ofPipeline : AlertBridge.Event → Bool
  | .openTrunc => true
  | .write _ => true
  | _ => false

def step (s : Node) : Event → Option Node
  | .start =>
    -- what another pipeline has not written is lost with it
    (s.bridge.step .openTrunc).map fun b => { s with buffer := [], bridge := b }
  | .send a =>
    if s.bridge.writer = none then none
    else some { s with
      sent := s.sent ++ [a]
      buffer := s.buffer ++ (Soc.toJson a ++ [newline]) }
  | .write n =>
    (s.bridge.step (.write (s.buffer.take n))).map fun b =>
      { s with buffer := s.buffer.drop n, bridge := b }
  | .other e =>
    if ofPipeline e then none else (s.bridge.step e).map fun b => { s with bridge := b }

/-- The lines of the alerts. -/
def lines (s : Node) : List (List UInt8) := s.sent.map Soc.toJson

/-- Where the bridge reads next: at an offset of its file, or at the end of the file that it
will open. -/
def cursor (s : Node) : Option (ℕ × ℕ) :=
  match s.bridge.reader with
  | .reading i offset pending => some (i, offset - pending.length)
  | .polling i offset => some (i, offset)
  | .opened i => some (i, (s.bridge.files i).length)
  | .waiting => s.bridge.path.map fun i => (i, (s.bridge.files i).length)

/-- When a pipeline truncates the file that the bridge reads, the bridge holds no part of a
line. -/
def Whole (pre : List Event) (e : Event) : Prop :=
  e = .start → ∀ s, reach step {} pre = some s → s.bridge.path = s.bridge.reader.inode →
    s.bridge.reader.pending = []

/-- No pipeline starts after the first one. -/
theorem along_whole_of_forall_ne {events : List Event} (h : ∀ e ∈ events, e ≠ .start) :
    Along Whole (.start :: events) := by
  intro pre e post heq hstart s hs _
  cases pre with
  | nil =>
    obtain rfl := Option.some.inj hs
    rfl
  | cons e' pre =>
    have hmem : e ∈ events := by
      rw [(List.cons.inj heq).2]
      exact List.mem_append_right _ List.mem_cons_self
    exact absurd hstart (h e hmem)

/-! ## The runs of the pipeline -/

/-- The lines before a run of the pipeline, and those of the run. -/
structure Run where
  before : List (List UInt8)
  own : List (List UInt8)

/-- A file holds a part of what the run has sent that opened it last. -/
structure Recorded (s : Node) (runs : ℕ → Option Run) : Prop where
  blank : ∀ i, runs i = none → s.bridge.files i = []
  before : ∀ i r, runs i = some r → r.before ++ r.own <+: s.lines
  file : ∀ i r, runs i = some r → s.bridge.files i <+: unlines newline r.own
  writer : ∀ i, s.bridge.writer = some i → ∃ r, runs i = some r ∧ r.before ++ r.own = s.lines ∧
    s.bridge.files i ++ s.buffer = unlines newline r.own
  last : ∀ i j, s.bridge.writer = some i → i < j → runs j = none
  later : ∀ i j r r', i < j → runs i = some r → runs j = some r' → r.before ++ r.own <+: r'.before
  path : ∀ i, s.bridge.path = some i → s.bridge.nextInode = i + 1
  fresh : ∀ i, s.bridge.nextInode ≤ i → runs i = none
  reader : ∀ i, s.bridge.reader.descriptor = some i → i < s.bridge.nextInode
  pending : ∀ i offset pending, s.bridge.reader = .reading i offset pending → pending ≠ [] →
    offset ≤ (s.bridge.files i).length ∧ pending <:+ (s.bridge.files i).take offset

/-- What has been seen so far are lines that begin before the cursor, each at most once and in
their order. -/
structure Behind (s : Node) (runs : ℕ → Option Run) (seen : List (List UInt8)) : Prop where
  lines : seen.Sublist s.lines
  own : ∀ i p r, s.cursor = some (i, p) → runs i = some r →
    seen.Sublist (r.before ++ begun (min p (s.bridge.files i).length) r.own)
  later : ∀ i p j r, s.cursor = some (i, p) → i < j → runs j = some r → seen.Sublist r.before

variable {s s' : Node} {runs : ℕ → Option Run} {seen : List (List UInt8)}

/-- The file and the run of the pipeline stay, and the cursor moves forward. -/
theorem Behind.congr (h : s.Behind runs seen) (hlines : s'.lines = s.lines)
    (hfiles : s'.bridge.files = s.bridge.files)
    (hcursor : ∀ i p', s'.cursor = some (i, p') → ∃ p ≤ p', s.cursor = some (i, p)) :
    s'.Behind runs seen := by
  refine ⟨by rw [hlines]; exact h.lines, fun i p' r hp' hr => ?_, fun i p' j r hp' hj hr => ?_⟩
  · obtain ⟨p, hp, hs⟩ := hcursor i p' hp'
    rw [hfiles]
    have hmin : min p (s.bridge.files i).length ≤ min p' (s.bridge.files i).length := by omega
    exact (h.own i p r hs hr).trans ((List.Sublist.refl _).append (begun_mono hmin r.own).sublist)
  · obtain ⟨p, -, hs⟩ := hcursor i p' hp'
    exact h.later i p j r hs hj hr

/-- The bridge leaves its file, and waits for the one at the path. -/
theorem Behind.leave (h : s.Behind runs seen) (hrec : s.Recorded runs) {i p : ℕ}
    (hcursor : s.cursor = some (i, p)) (hi : i < s.bridge.nextInode)
    (hlines : s'.lines = s.lines) (hbridge : s'.bridge = { s.bridge with reader := .waiting }) :
    s'.Behind runs seen := by
  have hpath : ∀ j q, s'.cursor = some (j, q) →
      s.bridge.path = some j ∧ q = (s.bridge.files j).length := by
    intro j q hq
    unfold cursor at hq
    rw [hbridge] at hq
    obtain ⟨k, hk, heq⟩ := Option.map_eq_some_iff.mp hq
    obtain ⟨rfl, rfl⟩ := Prod.mk.inj heq
    exact ⟨hk, rfl⟩
  refine ⟨by rw [hlines]; exact h.lines, fun j q r hq hr => ?_, fun j q k r hq hk hr => ?_⟩
  · obtain ⟨hj, rfl⟩ := hpath j q hq
    have hfiles : s'.bridge.files = s.bridge.files := by rw [hbridge]
    rw [hfiles, min_self]
    have hle : i ≤ j := by
      have hnext := hrec.path j hj
      omega
    rcases Nat.eq_or_lt_of_le hle with rfl | hlt
    · have hmono := begun_mono (Nat.min_le_right p (s.bridge.files i).length) r.own
      exact (h.own i p r hcursor hr).trans ((List.Sublist.refl _).append hmono.sublist)
    · exact (h.later i p j r hcursor hlt hr).trans (List.sublist_append_left _ _)
  · obtain ⟨hj, -⟩ := hpath j q hq
    have hnext := hrec.path j hj
    rw [hrec.fresh k (by omega)] at hr
    cases hr

/-! ## Files -/

/-- Only the bridge has made a step. -/
theorem Recorded.withReader (h : s.Recorded runs) {reader : Reader} {published : List (List UInt8)}
    (hreader : ∀ i, reader.descriptor = some i → i < s.bridge.nextInode)
    (hpending : ∀ i offset pending, reader = .reading i offset pending → pending ≠ [] →
      offset ≤ (s.bridge.files i).length ∧ pending <:+ (s.bridge.files i).take offset) :
    Recorded { s with bridge := { s.bridge with reader := reader, published := published } } runs :=
  ⟨h.blank, h.before, h.file, h.writer, h.last, h.later, h.path, h.fresh, hreader, hpending⟩

/-- What is read next is put behind the part of a line. -/
theorem Recorded.pending_read (h : s.Recorded runs) {i offset : ℕ} {pending bytes rest : List UInt8}
    (hreader : s.bridge.reader = .reading i offset pending)
    (hbytes : (s.bridge.files i).drop offset = bytes ++ rest) (hne : pending ++ bytes ≠ []) :
    offset + bytes.length ≤ (s.bridge.files i).length ∧
      pending ++ bytes <:+ (s.bridge.files i).take (offset + bytes.length) := by
  have hlength := congrArg List.length hbytes
  rw [List.length_drop, List.length_append] at hlength
  have hoffset : offset ≤ (s.bridge.files i).length := by
    cases pending with
    | nil =>
      have hpos : 0 < bytes.length := List.length_pos_iff.mpr hne
      omega
    | cons c cs => exact (h.pending i offset _ hreader (List.cons_ne_nil c cs)).1
  have hsuffix : pending <:+ (s.bridge.files i).take offset := by
    cases pending with
    | nil => exact List.nil_suffix
    | cons c cs => exact (h.pending i offset _ hreader (List.cons_ne_nil c cs)).2
  refine ⟨by omega, ?_⟩
  rw [List.take_add, hbytes, List.take_left]
  obtain ⟨u, hu⟩ := hsuffix
  exact ⟨u, by rw [← hu, List.append_assoc]⟩

/-- A new file at the path belongs to no run. -/
theorem Recorded.newFile (h : s.Recorded runs) :
    Recorded { s with bridge := s.bridge.newFile } runs := by
  have hnone : runs s.bridge.nextInode = none := h.fresh _ le_rfl
  have hfiles : (Function.update s.bridge.files s.bridge.nextInode []) = s.bridge.files := by
    rw [← h.blank _ hnone, Function.update_eq_self]
  have hsame : s.bridge.newFile = { s.bridge with
      nextInode := s.bridge.nextInode + 1, path := some s.bridge.nextInode } := by
    rw [Bridge.newFile, hfiles]
  rw [hsame]
  refine ⟨h.blank, h.before, h.file, h.writer, h.last, h.later, fun i hi => ?_,
    fun i hi => h.fresh i (Nat.le_of_succ_le hi), fun i hi => Nat.lt_succ_of_lt (h.reader i hi),
    h.pending⟩
  obtain rfl := Option.some.inj hi
  rfl

/-- The run of a pipeline that opens the file `i`. -/
def opened (s : Node) (runs : ℕ → Option Run) (i : ℕ) : ℕ → Option Run :=
  Function.update runs i (some ⟨s.lines, []⟩)

/-- A pipeline opens the file at the path. -/
theorem Recorded.truncate (h : s.Recorded runs) {i : ℕ} (hpath : s.bridge.path = some i)
    (hwhole : ∀ offset pending, s.bridge.reader = .reading i offset pending → pending = []) :
    Recorded { s with
      buffer := []
      bridge := { s.bridge with
        files := Function.update s.bridge.files i [], writer := some i } } (s.opened runs i) := by
  have hnext := h.path i hpath
  have hother : ∀ {j}, j ≠ i → s.opened runs i j = runs j := fun hj => Function.update_of_ne hj _ _
  have hself : s.opened runs i i = some ⟨s.lines, []⟩ := Function.update_self i _ _
  have hfiles : ∀ {j}, j ≠ i → Function.update s.bridge.files i [] j = s.bridge.files j :=
    fun hj => Function.update_of_ne hj _ _
  have hempty : Function.update s.bridge.files i [] i = [] := Function.update_self i _ _
  have hbehind : ∀ {j}, i < j → s.opened runs i j = none := fun hj =>
    (hother (Nat.ne_of_gt hj)).trans (h.fresh _ (by omega))
  refine ⟨fun j hj => ?_, fun j r hr => ?_, fun j r hr => ?_, fun j hj => ?_,
    fun w j hw hj => ?_, fun j k r r' hjk hr hr' => ?_, h.path, fun j hj => ?_, h.reader,
    fun j offset pending hreader hne => ?_⟩
  · by_cases heq : j = i
    · rw [heq]
      exact hempty
    · rw [hother heq] at hj
      exact (hfiles heq).trans (h.blank j hj)
  · by_cases heq : j = i
    · rw [heq, hself] at hr
      obtain rfl := Option.some.inj hr
      dsimp only
      rw [List.append_nil]
      exact List.prefix_rfl
    · rw [hother heq] at hr
      exact h.before j r hr
  · by_cases heq : j = i
    · rw [heq]
      dsimp only
      rw [hempty]
      exact List.nil_prefix
    · rw [hother heq] at hr
      dsimp only
      rw [hfiles heq]
      exact h.file j r hr
  · obtain rfl := Option.some.inj hj
    refine ⟨_, hself, List.append_nil _, ?_⟩
    dsimp only
    rw [hempty]
    rfl
  · obtain rfl := Option.some.inj hw
    exact hbehind hj
  · by_cases hj : j = i
    · rw [hbehind (hj ▸ hjk)] at hr'
      cases hr'
    · rw [hother hj] at hr
      by_cases hk : k = i
      · rw [hk, hself] at hr'
        obtain rfl := Option.some.inj hr'
        exact h.before j r hr
      · rw [hother hk] at hr'
        exact h.later j k r r' hjk hr hr'
  · refine hbehind ?_
    dsimp only at hj
    omega
  · by_cases heq : j = i
    · rw [heq] at hreader
      exact absurd (hwhole offset pending hreader) hne
    · dsimp only
      rw [hfiles heq]
      exact h.pending j offset pending hreader hne

/-- The pipeline sends an alert. -/
theorem Recorded.send (h : s.Recorded runs) {w : ℕ} (hwriter : s.bridge.writer = some w)
    (a : Soc.Alert) : ∃ r, runs w = some r ∧ r.before ++ r.own = s.lines ∧
      s.bridge.files w <+: unlines newline r.own ∧
      Recorded { s with
        sent := s.sent ++ [a]
        buffer := s.buffer ++ (Soc.toJson a ++ [newline]) }
        (Function.update runs w (some ⟨r.before, r.own ++ [Soc.toJson a]⟩)) := by
  obtain ⟨r, hr, hall, hbytes⟩ := h.writer w hwriter
  refine ⟨r, hr, hall, h.file w r hr, ?_⟩
  have hlines : lines { s with
      sent := s.sent ++ [a]
      buffer := s.buffer ++ (Soc.toJson a ++ [newline]) } = s.lines ++ [Soc.toJson a] :=
    List.map_append
  have hother : ∀ {j}, j ≠ w → Function.update runs w
      (some ⟨r.before, r.own ++ [Soc.toJson a]⟩) j = runs j := fun hj => Function.update_of_ne hj _ _
  have hself : Function.update runs w (some ⟨r.before, r.own ++ [Soc.toJson a]⟩) w =
      some ⟨r.before, r.own ++ [Soc.toJson a]⟩ := Function.update_self w _ _
  have hgrown : unlines newline (r.own ++ [Soc.toJson a]) =
      unlines newline r.own ++ (Soc.toJson a ++ [newline]) := by
    rw [unlines_append, unlines_singleton]
  refine ⟨fun j hj => ?_, fun j r' hr' => ?_, fun j r' hr' => ?_, fun j hj => ?_,
    fun v j hv hj => ?_, fun j k r₁ r₂ hjk hr₁ hr₂ => ?_, h.path, fun j hj => ?_, h.reader,
    h.pending⟩
  · by_cases heq : j = w
    · rw [heq, hself] at hj
      cases hj
    · rw [hother heq] at hj
      exact h.blank j hj
  · rw [hlines]
    by_cases heq : j = w
    · rw [heq, hself] at hr'
      obtain rfl := Option.some.inj hr'
      rw [← hall, List.append_assoc]
    · rw [hother heq] at hr'
      exact (h.before j r' hr').trans (List.prefix_append _ _)
  · by_cases heq : j = w
    · rw [heq, hself] at hr'
      obtain rfl := Option.some.inj hr'
      rw [heq, hgrown]
      exact (h.file w r hr).trans (List.prefix_append _ _)
    · rw [hother heq] at hr'
      exact h.file j r' hr'
  · obtain rfl := Option.some.inj (hwriter.symm.trans hj)
    refine ⟨_, hself, ?_, ?_⟩
    · rw [hlines, ← hall, List.append_assoc]
    · dsimp only
      rw [hgrown, ← hbytes, List.append_assoc]
  · obtain rfl := Option.some.inj (hwriter.symm.trans hv)
    rw [hother (Nat.ne_of_gt hj)]
    exact h.last w j hwriter hj
  · by_cases hj : j = w
    · rw [hother (by omega), h.last w k hwriter (hj ▸ hjk)] at hr₂
      cases hr₂
    · rw [hother hj] at hr₁
      by_cases hk : k = w
      · rw [hk, hself] at hr₂
        obtain rfl := Option.some.inj hr₂
        exact h.later j w r₁ r (hk ▸ hjk) hr₁ hr
      · rw [hother hk] at hr₂
        exact h.later j k r₁ r₂ hjk hr₁ hr₂
  · by_cases heq : j = w
    · have hnone := h.fresh j hj
      rw [heq, hr] at hnone
      cases hnone
    · rw [hother heq]
      exact h.fresh j hj

/-- The handler of the pipeline writes some of what it has to write. -/
theorem Recorded.write (h : s.Recorded runs) {w : ℕ} (hwriter : s.bridge.writer = some w) (n : ℕ) :
    Recorded { s with
      buffer := s.buffer.drop n
      bridge := { s.bridge with
        files := Function.update s.bridge.files w (s.bridge.files w ++ s.buffer.take n) } } runs := by
  obtain ⟨r, hr, hall, hbytes⟩ := h.writer w hwriter
  have hother : ∀ {j}, j ≠ w → Function.update s.bridge.files w
      (s.bridge.files w ++ s.buffer.take n) j = s.bridge.files j :=
    fun hj => Function.update_of_ne hj _ _
  have hself : Function.update s.bridge.files w (s.bridge.files w ++ s.buffer.take n) w =
      s.bridge.files w ++ s.buffer.take n := Function.update_self w _ _
  have hwritten : s.bridge.files w ++ s.buffer.take n ++ s.buffer.drop n =
      unlines newline r.own := by
    rw [List.append_assoc, List.take_append_drop, hbytes]
  refine ⟨fun j hj => ?_, h.before, fun j r' hr' => ?_, fun j hj => ?_, h.last, h.later, h.path,
    h.fresh, h.reader, fun j offset pending hreader hne => ?_⟩
  · have hne : j ≠ w := by
      rintro rfl
      rw [hr] at hj
      cases hj
    exact (hother hne).trans (h.blank j hj)
  · by_cases heq : j = w
    · rw [heq, hr] at hr'
      obtain rfl := Option.some.inj hr'
      dsimp only
      rw [heq, hself]
      exact ⟨_, hwritten⟩
    · dsimp only
      rw [hother heq]
      exact h.file j r' hr'
  · obtain rfl := Option.some.inj (hwriter.symm.trans hj)
    refine ⟨r, hr, hall, ?_⟩
    dsimp only
    rw [hself]
    exact hwritten
  · obtain ⟨hoffset, hsuffix⟩ := h.pending j offset pending hreader hne
    by_cases heq : j = w
    · dsimp only
      rw [heq] at hoffset hsuffix ⊢
      rw [hself, List.length_append, List.take_append_of_le_length hoffset]
      exact ⟨Nat.le_add_right_of_le hoffset, hsuffix⟩
    · dsimp only
      rw [hother heq]
      exact ⟨hoffset, hsuffix⟩

/-! ## The cursor -/

/-- Other bytes in the files move the cursor only where it is at the end of a file. -/
theorem cursor_files {i p : ℕ} (h : s'.cursor = some (i, p))
    (hreader : s'.bridge.reader = s.bridge.reader) (hpath : s'.bridge.path = s.bridge.path) :
    s.cursor = some (i, p) ∨
      (s.cursor = some (i, (s.bridge.files i).length) ∧ p = (s'.bridge.files i).length) := by
  unfold cursor at h ⊢
  rw [hreader, hpath] at h
  cases hreader : s.bridge.reader with
  | reading | polling =>
    rw [hreader] at h
    exact Or.inl h
  | opened j =>
    rw [hreader] at h
    obtain ⟨rfl, rfl⟩ := Prod.mk.inj (Option.some.inj h)
    exact Or.inr ⟨rfl, rfl⟩
  | waiting =>
    rw [hreader] at h
    dsimp only at h ⊢
    obtain ⟨j, hj, heq⟩ := Option.map_eq_some_iff.mp h
    obtain ⟨rfl, rfl⟩ := Prod.mk.inj heq
    rw [hj]
    exact Or.inr ⟨rfl, rfl⟩

/-- Without a descriptor the bridge waits for the file. -/
theorem waiting_of_descriptor (h : s.bridge.reader.descriptor = none) :
    s.bridge.reader = .waiting := by
  cases hreader : s.bridge.reader with
  | waiting => rfl
  | opened | reading | polling =>
    rw [hreader] at h
    cases h

/-- A bridge with a file open is somewhere in it. -/
theorem exists_cursor {i : ℕ} (h : s.bridge.reader.descriptor = some i) :
    ∃ p, s.cursor = some (i, p) := by
  unfold cursor
  cases hreader : s.bridge.reader with
  | waiting =>
    rw [hreader] at h
    cases h
  | opened | reading | polling =>
    rw [hreader] at h
    obtain rfl := Option.some.inj h
    exact ⟨_, rfl⟩

/-- A truncated file is behind what was sent. -/
theorem Behind.truncate (h : s.Behind runs seen) {i : ℕ} :
    Behind { s with
      buffer := []
      bridge := { s.bridge with
        files := Function.update s.bridge.files i [], writer := some i } }
      (s.opened runs i) seen := by
  have hself : s.opened runs i i = some ⟨s.lines, []⟩ := Function.update_self i _ _
  have hother : ∀ {j}, j ≠ i → s.opened runs i j = runs j := fun hj => Function.update_of_ne hj _ _
  refine ⟨h.lines, fun j p r hp hr => ?_, fun j p k r hp hk hr => ?_⟩
  · by_cases heq : j = i
    · rw [heq, hself] at hr
      obtain rfl := Option.some.inj hr
      exact h.lines.trans (List.sublist_append_left _ _)
    · rw [hother heq] at hr
      have hfiles : Function.update s.bridge.files i [] j = s.bridge.files j :=
        Function.update_of_ne heq _ _
      dsimp only
      rw [hfiles]
      rcases cursor_files (s := s) hp rfl rfl with hcursor | ⟨hcursor, rfl⟩
      · exact h.own j p r hcursor hr
      · dsimp only
        rw [hfiles]
        exact h.own j _ r hcursor hr
  · by_cases heq : k = i
    · rw [heq, hself] at hr
      obtain rfl := Option.some.inj hr
      exact h.lines
    · rw [hother heq] at hr
      rcases cursor_files (s := s) hp rfl rfl with hcursor | ⟨hcursor, -⟩
      · exact h.later j p k r hcursor hk hr
      · exact h.later j _ k r hcursor hk hr

/-- A bridge that waits will open the new file, which belongs to no run. -/
theorem Behind.newFile (h : s.Behind runs seen) (hrec : s.Recorded runs) :
    Behind { s with bridge := s.bridge.newFile } runs seen := by
  have hcursor : ∀ {i p}, cursor { s with bridge := s.bridge.newFile } = some (i, p) →
      i = s.bridge.nextInode ∨ s.cursor = some (i, p) := by
    intro i p hp
    unfold cursor at hp ⊢
    cases hreader : s.bridge.reader with
    | waiting =>
      have hsame : s.bridge.newFile.reader = .waiting := hreader
      rw [hsame] at hp
      obtain ⟨j, hj, heq⟩ := Option.map_eq_some_iff.mp hp
      obtain rfl := Option.some.inj hj
      exact Or.inl (Prod.mk.inj heq).1.symm
    | opened j =>
      have hsame : s.bridge.newFile.reader = .opened j := hreader
      rw [hsame] at hp
      obtain ⟨rfl, rfl⟩ := Prod.mk.inj (Option.some.inj hp)
      refine Or.inr ?_
      have hne : j ≠ s.bridge.nextInode := Nat.ne_of_lt (hrec.reader j (by rw [hreader]; rfl))
      have hfile : s.bridge.newFile.files j = s.bridge.files j := Function.update_of_ne hne _ _
      dsimp only
      rw [hfile]
    | reading | polling =>
      have hsame : s.bridge.newFile.reader = _ := hreader
      rw [hsame] at hp
      exact Or.inr hp
  have hnone : ∀ {j}, s.bridge.nextInode ≤ j → runs j = none := fun hj => hrec.fresh _ hj
  refine ⟨h.lines, fun i p r hp hr => ?_, fun i p j r hp hj hr => ?_⟩
  · rcases hcursor hp with rfl | hp
    · rw [hnone le_rfl] at hr
      cases hr
    · have hne : i ≠ s.bridge.nextInode := by
        rintro rfl
        rw [hnone le_rfl] at hr
        cases hr
      have hfile : s.bridge.newFile.files i = s.bridge.files i := Function.update_of_ne hne _ _
      dsimp only
      rw [hfile]
      exact h.own i p r hp hr
  · rcases hcursor hp with rfl | hp
    · rw [hnone (Nat.le_of_lt hj)] at hr
      cases hr
    · exact h.later i p j r hp hj hr

/-- A write of buffered bytes keeps the file behind. -/
theorem Behind.write (h : s.Behind runs seen) (w : ℕ) (bytes : List UInt8) (n : ℕ) :
    Behind { s with
      buffer := s.buffer.drop n
      bridge := { s.bridge with
        files := Function.update s.bridge.files w (s.bridge.files w ++ bytes) } } runs seen := by
  have hgrows : ∀ j, (s.bridge.files j).length ≤
      (Function.update s.bridge.files w (s.bridge.files w ++ bytes) j).length := by
    intro j
    by_cases heq : j = w
    · rw [heq, Function.update_self, List.length_append]
      exact Nat.le_add_right _ _
    · rw [Function.update_of_ne heq]
  refine ⟨h.lines, fun j p r hp hr => ?_, fun j p k r hp hk hr => ?_⟩
  · have hj := hgrows j
    rcases cursor_files (s := s) hp rfl rfl with hcursor | ⟨hcursor, rfl⟩
    · refine (h.own j p r hcursor hr).trans ((List.Sublist.refl _).append ?_)
      refine (begun_mono ?_ r.own).sublist
      dsimp only
      omega
    · refine (h.own j _ r hcursor hr).trans ((List.Sublist.refl _).append ?_)
      refine (begun_mono ?_ r.own).sublist
      dsimp only
      omega
  · rcases cursor_files (s := s) hp rfl rfl with hcursor | ⟨hcursor, -⟩
    · exact h.later j p k r hcursor hk hr
    · exact h.later j _ k r hcursor hk hr

/-- A sent alert keeps every file behind. -/
theorem Behind.send (h : s.Behind runs seen) {w : ℕ} (a : Soc.Alert) {r : Run} (hr : runs w = some r)
    (hfile : s.bridge.files w <+: unlines newline r.own) :
    Behind { s with
      sent := s.sent ++ [a]
      buffer := s.buffer ++ (Soc.toJson a ++ [newline]) }
      (Function.update runs w (some ⟨r.before, r.own ++ [Soc.toJson a]⟩)) seen := by
  have hself : Function.update runs w (some ⟨r.before, r.own ++ [Soc.toJson a]⟩) w =
      some ⟨r.before, r.own ++ [Soc.toJson a]⟩ := Function.update_self w _ _
  have hother : ∀ {j}, j ≠ w → Function.update runs w
      (some ⟨r.before, r.own ++ [Soc.toJson a]⟩) j = runs j := fun hj => Function.update_of_ne hj _ _
  have hlines : Node.lines { s with
      sent := s.sent ++ [a]
      buffer := s.buffer ++ (Soc.toJson a ++ [newline]) } = s.lines ++ [Soc.toJson a] :=
    List.map_append
  refine ⟨?_, fun j p r' hp hr' => ?_, fun j p k r' hp hk hr' => ?_⟩
  · rw [hlines]
    exact h.lines.trans (List.sublist_append_left _ _)
  · by_cases heq : j = w
    · rw [heq, hself] at hr'
      obtain rfl := Option.some.inj hr'
      subst heq
      -- the new line begins behind what is in the file
      have hle : min p (s.bridge.files j).length ≤ (unlines newline r.own).length :=
        (Nat.min_le_right _ _).trans hfile.length_le
      dsimp only
      rw [begun_append hle]
      exact h.own j p r hp hr
    · rw [hother heq] at hr'
      exact h.own j p r' hp hr'
  · by_cases heq : k = w
    · rw [heq, hself] at hr'
      obtain rfl := Option.some.inj hr'
      exact h.later j p w r hp (heq ▸ hk) hr
    · rw [hother heq] at hr'
      exact h.later j p k r' hp hk hr'

/-! ## Messages -/

/-- A line that is published as it is, and of which no end is recognised as a message. -/
structure Recognised (ok : List UInt8 → Bool) (l : List UInt8) : Prop where
  notMem : newline ∉ l
  trim : trimTrailingNewline l = l
  suffix : ∀ w t, w ≠ [] → l = w ++ t → ∀ m ∈ alerts [t], ok m = false

/-- One recognised line gives one message at most. -/
theorem Recognised.alerts_sublist {ok : List UInt8 → Bool} {l : List UInt8} (h : Recognised ok l) :
    (alerts [l]).Sublist [l] := by
  unfold alerts
  rw [List.filter_singleton]
  cases isAlert l with
  | true =>
    rw [cond_true, List.map_singleton, h.trim]
  | false => exact List.nil_sublist _

/-- The bridge returns a line. -/
theorem Behind.returnLine {ok : List UInt8 → Bool} (h : s.Behind runs seen) (hrec : s.Recorded runs)
    (hlines : ∀ l ∈ s.lines, Recognised ok l) {i offset : ℕ} {line rest : List UInt8}
    (hreader : s.bridge.reader = .reading i offset (line ++ newline :: rest))
    (hline : newline ∉ line) (published : List (List UInt8)) (sure : Bool) :
    Behind { s with bridge := { s.bridge with
        reader := .reading i offset rest, published := published } } runs
      (seen ++ (if sure then alerts [line] else []).filter ok) := by
  obtain ⟨hoffset, u, hu⟩ := hrec.pending i offset _ hreader (by simp)
  have hcursor : s.cursor = some (i, u.length) := by
    have hlength := congrArg List.length hu
    rw [List.length_append, List.length_take, min_eq_left hoffset] at hlength
    unfold cursor
    rw [hreader]
    dsimp only
    congr 2
    omega
  have hnext : u.length + (line.length + 1) ≤ (s.bridge.files i).length ∧
      offset - rest.length = u.length + (line.length + 1) := by
    have hlength := congrArg List.length hu
    rw [List.length_append, List.length_take, min_eq_left hoffset, List.length_append,
      List.length_cons] at hlength
    omega
  cases hrun : runs i with
  | none =>
    rw [hrec.blank i hrun, List.take_nil] at hu
    exact absurd (List.append_eq_nil_iff.mp hu).2 (by simp)
  | some r =>
    obtain ⟨more, hmore⟩ := hrec.file i r hrun
    have htext : unlines newline r.own = u ++ (line ++ newline ::
        (rest ++ ((s.bridge.files i).drop offset ++ more))) := by
      calc unlines newline r.own
          = (s.bridge.files i).take offset ++ (s.bridge.files i).drop offset ++ more := by
            rw [List.take_append_drop, hmore]
        _ = _ := by
            rw [← hu]
            simp only [List.append_assoc, List.cons_append]
    have hown : ∀ l ∈ r.own, Recognised ok l := fun l hl =>
      hlines l ((hrec.before i r hrun).subset (List.mem_append_right _ hl))
    have hseen := h.own i u.length r hcursor hrun
    rw [min_eq_left (by omega)] at hseen
    have hfinal : (seen ++ (if sure then alerts [line] else []).filter ok).Sublist
        (r.before ++ begun (u.length + (line.length + 1)) r.own) := by
      rcases begun_line (fun l hl => (hown l hl).notMem) hline htext with
        ⟨hmem, hbegun⟩ | ⟨l, hl, w, hw, heq⟩
      · rw [hbegun, ← List.append_assoc]
        refine hseen.append (List.filter_sublist.trans ?_)
        split_ifs
        · exact (hown line hmem).alerts_sublist
        · exact List.nil_sublist _
      · have hnone : (if sure then alerts [line] else []).filter ok = [] := by
          split_ifs
          · exact List.filter_eq_nil_iff.mpr fun m hm hok =>
              Bool.false_ne_true (((hown l hl).suffix w line hw heq m hm).symm.trans hok)
          · rfl
        rw [hnone, List.append_nil]
        exact hseen.trans ((List.Sublist.refl _).append (begun_mono (by omega) r.own).sublist)
    have hrunLines := hfinal.trans ((List.Sublist.refl _).append (begun_isPrefix _ r.own).sublist)
    refine ⟨hrunLines.trans (hrec.before i r hrun).sublist, fun j p r' hp hr' => ?_,
      fun j p k r' hp hk hr' => ?_⟩
    · obtain ⟨rfl, rfl⟩ := Prod.mk.inj (Option.some.inj hp)
      obtain rfl := Option.some.inj (hrun.symm.trans hr')
      rw [hnext.2, min_eq_left hnext.1]
      exact hfinal
    · obtain ⟨rfl, rfl⟩ := Prod.mk.inj (Option.some.inj hp)
      exact hrunLines.trans (hrec.later i k r r' hk hrun hr').sublist

/-! ## Runs -/

/-- The messages that are recognised are lines that begin before the cursor. -/
def Tracked (ok : List UInt8 → Bool) (s : Node) : Prop :=
  ∃ runs, s.Recorded runs ∧ s.Behind runs (s.bridge.published.filter ok)

variable {ok : List UInt8 → Bool} {e : Event}

/-- Nothing has been sent at first. -/
theorem tracked_start : Tracked ok {} :=
  ⟨fun _ => none, ⟨fun _ _ => rfl, fun _ _ h => (nomatch h), fun _ _ h => (nomatch h),
    fun _ h => (nomatch h), fun _ _ h => (nomatch h), fun _ _ _ _ _ h => (nomatch h),
    fun _ h => (nomatch h), fun _ _ => rfl, fun _ h => (nomatch h), fun _ _ _ h => (nomatch h)⟩,
    ⟨List.Sublist.refl _, fun _ _ _ _ h => (nomatch h), fun _ _ _ _ _ _ h => (nomatch h)⟩⟩

/-- A new engine process keeps the record. -/
theorem Tracked.start (h : Tracked ok s)
    (hwhole : s.bridge.path = s.bridge.reader.inode → s.bridge.reader.pending = [])
    (hstep : s.step .start = some s') : Tracked ok s' := by
  obtain ⟨runs, hrec, hbehind⟩ := h
  obtain ⟨b, hb, rfl⟩ := Option.map_eq_some_iff.mp hstep
  rcases Bridge.openTrunc_cases hb with ⟨i, hpath, rfl⟩ | ⟨-, rfl⟩
  · refine ⟨_, hrec.truncate hpath fun offset pending hreader => ?_, hbehind.truncate⟩
    rw [hreader] at hwhole
    exact hwhole hpath
  · -- the new file is empty, and the bridge does not read it
    have hnew := hrec.newFile.truncate (i := s.bridge.nextInode) rfl fun offset pending hreader => by
      have hlt := hrec.reader s.bridge.nextInode (by
        have hsame : s.bridge.newFile.reader = s.bridge.reader := rfl
        rw [← hsame, hreader]
        rfl)
      exact absurd hlt (Nat.lt_irrefl _)
    have hempty : Function.update s.bridge.newFile.files s.bridge.nextInode [] =
        s.bridge.newFile.files := Function.update_idem _ _ _
    have hnewBehind := (hbehind.newFile hrec).truncate (i := s.bridge.nextInode)
    dsimp only at hnew hnewBehind
    rw [hempty] at hnew hnewBehind
    exact ⟨_, hnew, hnewBehind⟩

/-- An alert raised keeps the record. -/
theorem Tracked.send (h : Tracked ok s) {a : Soc.Alert} (hstep : s.step (.send a) = some s') :
    Tracked ok s' := by
  obtain ⟨runs, hrec, hbehind⟩ := h
  unfold step at hstep
  dsimp only at hstep
  split_ifs at hstep with hwriter
  obtain rfl := Option.some.inj hstep
  obtain ⟨w, hw⟩ := Option.ne_none_iff_exists'.mp hwriter
  obtain ⟨r, hr, -, hfile, hnew⟩ := hrec.send hw a
  exact ⟨_, hnew, hbehind.send a hr hfile⟩

/-- A flush keeps the record. -/
theorem Tracked.write (h : Tracked ok s) {n : ℕ} (hstep : s.step (.write n) = some s') :
    Tracked ok s' := by
  obtain ⟨runs, hrec, hbehind⟩ := h
  obtain ⟨b, hb, rfl⟩ := Option.map_eq_some_iff.mp hstep
  obtain ⟨w, hwriter, rfl⟩ := Bridge.write_cases hb
  exact ⟨runs, hrec.write hwriter n, hbehind.write w _ n⟩

section Bridge

variable {b : Bridge}

/-- A rotation keeps the record. -/
theorem Tracked.rename (h : Tracked ok s) (hb : s.bridge.step .rename = some b) :
    Tracked ok { s with bridge := b } := by
  obtain ⟨runs, hrec, hbehind⟩ := h
  obtain rfl := Bridge.rename_cases hb
  refine ⟨runs, ⟨hrec.blank, hrec.before, hrec.file, hrec.writer, hrec.last, hrec.later,
    fun _ h => (nomatch h), hrec.fresh, hrec.reader, hrec.pending⟩,
    hbehind.congr rfl rfl fun i p hp => ⟨p, le_rfl, ?_⟩⟩
  unfold cursor at hp ⊢
  dsimp only at hp
  cases hreader : s.bridge.reader with
  | waiting =>
    rw [hreader] at hp
    cases hp
  | opened | reading | polling =>
    rw [hreader] at hp
    exact hp

/-- An open file is read from its beginning, or from its end. -/
theorem Tracked.openFile (h : Tracked ok s) (hb : s.bridge.step .openFile = some b) :
    Tracked ok { s with bridge := b } := by
  obtain ⟨runs, hrec, hbehind⟩ := h
  obtain ⟨hreader, i, hpath, rfl⟩ := Bridge.openFile_cases hb
  refine ⟨runs, hrec.withReader (fun j hj => ?_) fun _ _ _ h => (nomatch h),
    hbehind.congr rfl rfl fun j p hp => ⟨p, le_rfl, ?_⟩⟩
  · obtain rfl := Option.some.inj hj
    rw [hrec.path i hpath]
    exact Nat.lt_succ_self i
  · rw [← hp, cursor, hreader, hpath]
    rfl

/-- The bridge's first seek keeps the record. -/
theorem Tracked.seekEnd (h : Tracked ok s) (hb : s.bridge.step .seekEnd = some b) :
    Tracked ok { s with bridge := b } := by
  obtain ⟨runs, hrec, hbehind⟩ := h
  obtain ⟨i, hreader, rfl⟩ := Bridge.seekEnd_cases hb
  refine ⟨runs, hrec.withReader (fun j hj => hrec.reader j (by rw [hreader]; exact hj)) ?_,
    hbehind.congr rfl rfl fun j p hp => ⟨p, le_rfl, ?_⟩⟩
  · intro j offset pending heq hne
    obtain ⟨-, -, rfl⟩ := Reader.reading.inj heq
    exact absurd rfl hne
  · rw [← hp, cursor, hreader]
    rfl

/-- What is read is pending, so the cursor stays where it is. -/
theorem Tracked.read (h : Tracked ok s) {n : ℕ} (hb : s.bridge.step (.read n) = some b) :
    Tracked ok { s with bridge := b } := by
  obtain ⟨runs, hrec, hbehind⟩ := h
  obtain ⟨i, offset, pending, hreader, -, hcases⟩ := Bridge.read_cases hb
  have hfresh : ∀ j, some i = some j → j < s.bridge.nextInode := fun j hj =>
    hrec.reader j (by rw [hreader]; exact hj)
  have hcursor : s.cursor = some (i, offset - pending.length) := by
    rw [cursor, hreader]
  rcases hcases with ⟨-, rfl⟩ | ⟨bytes, rest, hbytes, rfl⟩
  · refine ⟨runs, hrec.withReader hfresh fun _ _ _ h => (nomatch h),
      hbehind.congr rfl rfl fun j p hp => ?_⟩
    obtain ⟨rfl, rfl⟩ := Prod.mk.inj (Option.some.inj hp)
    exact ⟨_, Nat.sub_le _ _, hcursor⟩
  · refine ⟨runs, hrec.withReader hfresh ?_, hbehind.congr rfl rfl fun j p hp => ?_⟩
    · intro j o q heq hne
      obtain ⟨rfl, rfl, rfl⟩ := Reader.reading.inj heq
      exact hrec.pending_read hreader hbytes hne
    · obtain ⟨rfl, rfl⟩ := Prod.mk.inj (Option.some.inj hp)
      refine ⟨_, le_rfl, ?_⟩
      rw [hcursor, List.length_append]
      congr 2
      omega

/-- A returned line is recognised only if it is a line of the run. -/
theorem Tracked.returnLine (h : Tracked ok s) (hlines : ∀ l ∈ s.lines, Recognised ok l)
    {published : Bool} (hb : s.bridge.step (.returnLine published) = some b) :
    Tracked ok { s with bridge := b } := by
  obtain ⟨runs, hrec, hbehind⟩ := h
  obtain ⟨i, offset, line, rest, hreader, hline, rfl⟩ := Bridge.returnLine_cases hb
  refine ⟨runs, hrec.withReader (fun j hj => hrec.reader j (by rw [hreader]; exact hj)) ?_, ?_⟩
  · intro j o q heq hne
    obtain ⟨rfl, rfl, rfl⟩ := Reader.reading.inj heq
    obtain ⟨hoffset, hsuffix⟩ := hrec.pending i offset _ hreader (by simp)
    exact ⟨hoffset, ((List.suffix_cons _ _).trans (List.suffix_append _ _)).trans hsuffix⟩
  · have hnew := hbehind.returnLine hrec hlines hreader hline
      (if published then s.bridge.published ++ alerts [line] else s.bridge.published) published
    have hfilter : (if published then s.bridge.published ++ alerts [line]
        else s.bridge.published).filter ok = s.bridge.published.filter ok ++
          (if published then alerts [line] else []).filter ok := by
      split_ifs
      · exact List.filter_append _ _
      · exact (List.append_nil _).symm
    rwa [← hfilter] at hnew

/-- The bridge goes on in its file or leaves it. -/
theorem Tracked.poll (h : Tracked ok s) {stat : Bool} (hb : s.bridge.step (.poll stat) = some b) :
    Tracked ok { s with bridge := b } := by
  obtain ⟨runs, hrec, hbehind⟩ := h
  obtain ⟨i, offset, hreader, hcases⟩ := Bridge.poll_cases hb
  have hfresh : ∀ j, some i = some j → j < s.bridge.nextInode := fun j hj =>
    hrec.reader j (by rw [hreader]; exact hj)
  have hcursor : s.cursor = some (i, offset) := by
    rw [cursor, hreader]
  rcases hcases with ⟨-, -, rfl⟩ | ⟨-, rfl⟩
  · refine ⟨runs, hrec.withReader hfresh ?_, hbehind.congr rfl rfl fun j p hp => ⟨p, le_rfl, ?_⟩⟩
    · intro j o q heq hne
      obtain ⟨-, -, rfl⟩ := Reader.reading.inj heq
      exact absurd rfl hne
    · rw [hcursor, ← hp]
      rfl
  · exact ⟨runs, hrec.withReader (fun _ h => (nomatch h)) fun _ _ _ h => (nomatch h),
      hbehind.leave hrec hcursor (hfresh i rfl) rfl rfl⟩

/-- A read error keeps the record. -/
theorem Tracked.fail (h : Tracked ok s) (hb : s.bridge.step .fail = some b) :
    Tracked ok { s with bridge := b } := by
  obtain ⟨runs, hrec, hbehind⟩ := h
  obtain rfl := Bridge.fail_cases hb
  refine ⟨runs, hrec.withReader (fun _ h => (nomatch h)) fun _ _ _ h => (nomatch h), ?_⟩
  cases hdescriptor : s.bridge.reader.descriptor with
  | none =>
    refine hbehind.congr rfl rfl fun j p hp => ⟨p, le_rfl, ?_⟩
    rw [← hp, cursor, waiting_of_descriptor hdescriptor]
    rfl
  | some i =>
    obtain ⟨p, hcursor⟩ := exists_cursor hdescriptor
    exact hbehind.leave hrec hcursor (hrec.reader i hdescriptor) rfl rfl

end Bridge

/-- The bridge, or a rotation. -/
theorem Tracked.other (h : Tracked ok s) (hlines : ∀ l ∈ s.lines, Recognised ok l)
    {e : AlertBridge.Event} (hstep : s.step (.other e) = some s') : Tracked ok s' := by
  unfold step at hstep
  dsimp only at hstep
  split_ifs at hstep with he
  obtain ⟨b, hb, rfl⟩ := Option.map_eq_some_iff.mp hstep
  cases e with
  | openTrunc | write => exact absurd rfl he
  | rename => exact h.rename hb
  | create =>
    obtain ⟨runs, hrec, hbehind⟩ := h
    obtain ⟨-, rfl⟩ := Bridge.create_cases hb
    exact ⟨runs, hrec.newFile, hbehind.newFile hrec⟩
  | openFile => exact h.openFile hb
  | seekEnd => exact h.seekEnd hb
  | read n => exact h.read hb
  | returnLine published => exact h.returnLine hlines hb
  | poll stat => exact h.poll hb
  | fail => exact h.fail hb

/-- **One step** keeps it that the messages are lines. -/
theorem Tracked.step (h : Tracked ok s) (hlines : ∀ l ∈ s.lines, Recognised ok l)
    (hwhole : e = .start → s.bridge.path = s.bridge.reader.inode → s.bridge.reader.pending = [])
    (hstep : s.step e = some s') : Tracked ok s' := by
  cases e with
  | start => exact h.start (hwhole rfl) hstep
  | send a => exact h.send hstep
  | write n => exact h.write hstep
  | other e => exact h.other hlines hstep

end Node

/-! ## What has been published -/

/-- The bridge only adds to what it has published. -/
theorem published_isPrefix {b b' : Bridge} {e : AlertBridge.Event} (hstep : b.step e = some b') :
    b.published <+: b'.published := by
  cases e with
  | openTrunc =>
    rcases Bridge.openTrunc_cases hstep with ⟨i, -, rfl⟩ | ⟨-, rfl⟩ <;> exact List.prefix_rfl
  | write bytes =>
    obtain ⟨i, -, rfl⟩ := Bridge.write_cases hstep
    exact List.prefix_rfl
  | rename =>
    obtain rfl := Bridge.rename_cases hstep
    exact List.prefix_rfl
  | create =>
    obtain ⟨-, rfl⟩ := Bridge.create_cases hstep
    exact List.prefix_rfl
  | openFile =>
    obtain ⟨-, i, -, rfl⟩ := Bridge.openFile_cases hstep
    exact List.prefix_rfl
  | seekEnd =>
    obtain ⟨i, -, rfl⟩ := Bridge.seekEnd_cases hstep
    exact List.prefix_rfl
  | read n =>
    obtain ⟨i, o, p, -, -, ⟨-, rfl⟩ | ⟨bytes, rest, -, rfl⟩⟩ := Bridge.read_cases hstep <;>
      exact List.prefix_rfl
  | returnLine published =>
    obtain ⟨i, o, line, rest, -, -, rfl⟩ := Bridge.returnLine_cases hstep
    dsimp only
    split_ifs
    · exact List.prefix_append _ _
    · exact List.prefix_rfl
  | poll stat =>
    obtain ⟨i, o, -, ⟨-, -, rfl⟩ | ⟨-, rfl⟩⟩ := Bridge.poll_cases hstep <;> exact List.prefix_rfl
  | fail =>
    obtain rfl := Bridge.fail_cases hstep
    exact List.prefix_rfl

/-- So does the node. -/
theorem Node.published_isPrefix {s s' : Node} {e : Node.Event} (hstep : s.step e = some s') :
    s.bridge.published <+: s'.bridge.published := by
  cases e with
  | start | write =>
    obtain ⟨b, hb, rfl⟩ := Option.map_eq_some_iff.mp hstep
    exact Cluster.published_isPrefix hb
  | send a =>
    unfold step at hstep
    dsimp only at hstep
    split_ifs at hstep
    obtain rfl := Option.some.inj hstep
    exact List.prefix_rfl
  | other e =>
    unfold step at hstep
    dsimp only at hstep
    split_ifs at hstep
    obtain ⟨b, hb, rfl⟩ := Option.map_eq_some_iff.mp hstep
    exact Cluster.published_isPrefix hb

end Cluster
