/-
# The alert bridge

`tailAndPublish` follows the file at a path and publishes every line that begins
with a brace.  The pipeline writes the file, and somebody may rename it or create it
again; files are told apart by their inodes.  An event is one system call of one of
them, or one line that `ReadBytes` returns.
-/
import ZtMapper.Lib.Lines
import Mathlib.Data.List.DropRight
import Mathlib.Logic.Function.Basic

open Lines

namespace AlertBridge

/-! ## Lines -/

def newline : UInt8 := 10

def carriageReturn : UInt8 := 13

/-- The first byte of an alert. -/
def brace : UInt8 := 123

def trimTrailingNewline (b : List UInt8) : List UInt8 :=
  b.rdropWhile fun c => c = newline ∨ c = carriageReturn

/-- What `readForever` publishes of a line. -/
def handleLine (line : List UInt8) : List (List UInt8) :=
  let line := trimTrailingNewline line
  if line.length = 0 ∨ line.head? ≠ some brace then [] else [line]

/-- A line that begins with a brace. -/
def isAlert (line : List UInt8) : Bool := decide (line.head? = some brace)

/-- The messages that some complete lines should become. -/
def alerts (lines : List (List UInt8)) : List (List UInt8) :=
  (lines.filter isAlert).map trimTrailingNewline

/-- The messages of lines, one list after the other. -/
theorem alerts_append (ls ls' : List (List UInt8)) : alerts (ls ++ ls') = alerts ls ++ alerts ls' := by
  unfold alerts
  rw [List.filter_append, List.map_append]

/-- A line break at the end is trimmed. -/
theorem trim_concat_newline (line : List UInt8) :
    trimTrailingNewline (line ++ [newline]) = trimTrailingNewline line := by
  apply List.rdropWhile_concat_pos
  decide

/-- Trimming leaves the brace of an alert. -/
theorem head_trim_iff (line : List UInt8) :
    (trimTrailingNewline line).head? = some brace ↔ line.head? = some brace := by
  obtain ⟨rest, hrest⟩ : trimTrailingNewline line <+: line := List.rdropWhile_prefix _ _
  constructor
  · intro h
    rw [← hrest, List.head?_append, h]
    rfl
  · intro h
    have hne : trimTrailingNewline line ≠ [] := by
      intro hnil
      have hall := List.rdropWhile_eq_nil_iff.mp hnil brace (List.mem_of_head? h)
      exact absurd hall (by decide)
    obtain ⟨c, cs, hc⟩ := List.exists_cons_of_ne_nil hne
    rw [← hrest, hc] at h
    rw [hc]
    exact h

/-- A complete line is published when it is an alert. -/
theorem handleLine_concat (line : List UInt8) : handleLine (line ++ [newline]) = alerts [line] := by
  unfold handleLine alerts
  dsimp only
  rw [trim_concat_newline]
  by_cases hline : line.head? = some brace
  · have hhead := (head_trim_iff line).mpr hline
    have hlength : (trimTrailingNewline line).length ≠ 0 := by
      intro h
      rw [List.length_eq_zero_iff.mp h] at hhead
      cases hhead
    rw [if_neg fun h => h.elim hlength fun hne => hne hhead]
    simp [isAlert, hline]
  · rw [if_pos (Or.inr fun hhead => hline ((head_trim_iff line).mp hhead))]
    simp [isAlert, hline]

/-! ## The system -/

/-- Where the bridge is: in `waitForFile`, before `Seek`, in `ReadBytes` with the
bytes it has not returned, or asleep at the end of the file. -/
inductive Reader where
  | waiting
  | opened (inode : ℕ)
  | reading (inode offset : ℕ) (pending : List UInt8)
  | polling (inode offset : ℕ)
  deriving DecidableEq, Repr

/-- The files, the inode at the path, the file that the pipeline has open, and the
bridge. -/
structure Bridge where
  files : ℕ → List UInt8 := fun _ => []
  nextInode : ℕ := 0
  path : Option ℕ := none
  writer : Option ℕ := none
  reader : Reader := .waiting
  published : List (List UInt8) := []

/-- The events of the pipeline, of a rotation, and of the bridge. -/
inductive Event where
  | openTrunc
  | write (bytes : List UInt8)
  | rename
  | create
  | openFile
  | seekEnd
  | read (n : ℕ)
  | returnLine (published : Bool)
  | poll (stat : Bool)
  | fail
  deriving DecidableEq, Repr

namespace Bridge

/-- A new file at the path. -/
def newFile (s : Bridge) : Bridge :=
  { s with
    files := Function.update s.files s.nextInode []
    nextInode := s.nextInode + 1
    path := some s.nextInode }

def step (s : Bridge) : Event → Option Bridge
  | .openTrunc =>
    -- `FileAlertHandler` opens the file at the path, or a new one
    match s.path with
    | some i => some { s with files := Function.update s.files i [], writer := some i }
    | none => some { s.newFile with writer := some s.nextInode }
  | .write bytes =>
    s.writer.map fun i => { s with files := Function.update s.files i (s.files i ++ bytes) }
  | .rename => if s.path = none then none else some { s with path := none }
  | .create => if s.path = none then some s.newFile else none
  | .openFile =>
    match s.reader with
    | .waiting => s.path.map fun i => { s with reader := .opened i }
    | _ => none
  | .seekEnd =>
    match s.reader with
    | .opened i => some { s with reader := .reading i (s.files i).length [] }
    | _ => none
  | .read n =>
    match s.reader with
    | .reading i offset pending =>
      if newline ∈ pending ∨ n = 0 then none
      else
        let bytes := ((s.files i).drop offset).take n
        -- at the end of the file `ReadBytes` returns what is pending, which is dropped
        if bytes = [] then some { s with reader := .polling i offset }
        else some { s with reader := .reading i (offset + bytes.length) (pending ++ bytes) }
    | _ => none
  | .returnLine published =>
    match s.reader with
    | .reading i offset pending =>
      if newline ∈ pending then
        let line := pending.takeWhile (· ≠ newline) ++ [newline]
        some { s with
          reader := .reading i offset (pending.dropWhile (· ≠ newline)).tail
          published := if published then s.published ++ handleLine line else s.published }
      else none
    | _ => none
  | .poll stat =>
    -- `rotated`
    match s.reader with
    | .polling i offset =>
      some { s with
        reader := if stat = true ∧ s.path = some i then .reading i offset [] else .waiting }
    | _ => none
  | .fail =>
    -- `Seek` or `ReadBytes` fails
    match s.reader with
    | .opened _ => some { s with reader := .waiting }
    | .reading _ _ pending => if newline ∈ pending then none else some { s with reader := .waiting }
    | _ => none

end Bridge

namespace Reader

/-- The file that the bridge reads. -/
def inode : Reader → Option ℕ
  | .reading i _ _ => some i
  | .polling i _ => some i
  | _ => none

def offset : Reader → ℕ
  | .reading _ offset _ => offset
  | .polling _ offset => offset
  | _ => 0

def pending : Reader → List UInt8
  | .reading _ _ pending => pending
  | _ => []

end Reader

namespace Bridge

/-- The bytes of the bridge's file that it has not read. -/
def unread (s : Bridge) : List UInt8 :=
  s.reader.inode.elim [] fun i => (s.files i).drop s.reader.offset

/-- The bridge has read its file to the end, and returned all complete lines. -/
def AtEnd (s : Bridge) : Prop :=
  ∃ i, s.reader.inode = some i ∧ (s.files i).length ≤ s.reader.offset ∧ newline ∉ s.reader.pending

/-- A poll beyond the length finds the end. -/
theorem atEnd_of_polling {s : Bridge} {i offset : ℕ} (hreader : s.reader = .polling i offset)
    (hlength : (s.files i).length ≤ offset) : s.AtEnd := by
  refine ⟨i, ?_, ?_, ?_⟩
  · rw [hreader]
    rfl
  · rw [hreader]
    exact hlength
  · rw [hreader]
    exact List.not_mem_nil

/-! ## One step -/

variable {s s' : Bridge}

/-- What an opening with truncation does: it empties the file that is there, or makes one. -/
theorem openTrunc_cases (hstep : s.step .openTrunc = some s') :
    (∃ i, s.path = some i ∧
        s' = { s with files := Function.update s.files i [], writer := some i }) ∨
      (s.path = none ∧ s' = { s.newFile with writer := some s.nextInode }) := by
  cases hpath : s.path with
  | none =>
    unfold step at hstep
    rw [hpath] at hstep
    exact Or.inr ⟨rfl, (Option.some.inj hstep).symm⟩
  | some i =>
    unfold step at hstep
    rw [hpath] at hstep
    exact Or.inl ⟨i, rfl, (Option.some.inj hstep).symm⟩

/-- What a write does. -/
theorem write_cases {bytes : List UInt8} (hstep : s.step (.write bytes) = some s') :
    ∃ i, s.writer = some i ∧
      s' = { s with files := Function.update s.files i (s.files i ++ bytes) } := by
  obtain ⟨i, hwriter, heq⟩ := Option.map_eq_some_iff.mp hstep
  exact ⟨i, hwriter, heq.symm⟩

/-- What a rename does. -/
theorem rename_cases (hstep : s.step .rename = some s') : s' = { s with path := none } := by
  unfold step at hstep
  dsimp only at hstep
  split_ifs at hstep
  exact (Option.some.inj hstep).symm

/-- What the creation of a file does. -/
theorem create_cases (hstep : s.step .create = some s') : s.path = none ∧ s' = s.newFile := by
  unfold step at hstep
  dsimp only at hstep
  split_ifs at hstep with hpath
  exact ⟨hpath, (Option.some.inj hstep).symm⟩

/-- What the bridge's opening does. -/
theorem openFile_cases (hstep : s.step .openFile = some s') :
    s.reader = .waiting ∧ ∃ i, s.path = some i ∧ s' = { s with reader := .opened i } := by
  cases hreader : s.reader with
  | waiting =>
    unfold step at hstep
    rw [hreader] at hstep
    obtain ⟨i, hpath, heq⟩ := Option.map_eq_some_iff.mp hstep
    exact ⟨rfl, i, hpath, heq.symm⟩
  | opened | reading | polling =>
    unfold step at hstep
    rw [hreader] at hstep
    cases hstep

/-- What the bridge's seek does. -/
theorem seekEnd_cases (hstep : s.step .seekEnd = some s') :
    ∃ i, s.reader = .opened i ∧ s' = { s with reader := .reading i (s.files i).length [] } := by
  cases hreader : s.reader with
  | opened i =>
    unfold step at hstep
    rw [hreader] at hstep
    exact ⟨i, rfl, (Option.some.inj hstep).symm⟩
  | waiting | reading | polling =>
    unfold step at hstep
    rw [hreader] at hstep
    cases hstep

/-- What a read error does. -/
theorem fail_cases (hstep : s.step .fail = some s') : s' = { s with reader := .waiting } := by
  cases hreader : s.reader with
  | opened i =>
    unfold step at hstep
    rw [hreader] at hstep
    exact (Option.some.inj hstep).symm
  | reading i offset pending =>
    unfold step at hstep
    rw [hreader] at hstep
    dsimp only at hstep
    split_ifs at hstep
    exact (Option.some.inj hstep).symm
  | waiting | polling =>
    unfold step at hstep
    rw [hreader] at hstep
    cases hstep

/-- A read ends at the end of the file, or gets some bytes. -/
theorem read_cases {n : ℕ} (hstep : s.step (.read n) = some s') :
    ∃ i offset pending, s.reader = .reading i offset pending ∧ newline ∉ pending ∧
      (((s.files i).drop offset = [] ∧ s' = { s with reader := .polling i offset }) ∨
        ∃ bytes rest, (s.files i).drop offset = bytes ++ rest ∧
          s' = { s with reader := .reading i (offset + bytes.length) (pending ++ bytes) }) := by
  cases hreader : s.reader with
  | reading i offset pending =>
    unfold step at hstep
    rw [hreader] at hstep
    dsimp only at hstep
    split_ifs at hstep with hguard hbytes
    · refine ⟨i, offset, pending, rfl, fun hmem => hguard (Or.inl hmem), Or.inl ⟨?_, ?_⟩⟩
      · rcases List.take_eq_nil_iff.mp hbytes with hn | hnil
        · exact absurd (Or.inr hn) hguard
        · exact hnil
      · exact (Option.some.inj hstep).symm
    · exact ⟨i, offset, pending, rfl, fun hmem => hguard (Or.inl hmem),
        Or.inr ⟨_, _, (List.take_append_drop n _).symm, (Option.some.inj hstep).symm⟩⟩
  | waiting | opened | polling =>
    unfold step at hstep
    rw [hreader] at hstep
    cases hstep

/-- What the return of a line does. -/
theorem returnLine_cases {published : Bool} (hstep : s.step (.returnLine published) = some s') :
    ∃ i offset line rest, s.reader = .reading i offset (line ++ newline :: rest) ∧
      newline ∉ line ∧
      s' = { s with
        reader := .reading i offset rest
        published := if published then s.published ++ alerts [line] else s.published } := by
  cases hreader : s.reader with
  | reading i offset pending =>
    unfold step at hstep
    rw [hreader] at hstep
    dsimp only at hstep
    by_cases hmem : newline ∈ pending
    · rw [if_pos hmem, handleLine_concat] at hstep
      obtain ⟨hline, hsplit⟩ := eq_line_append hmem
      exact ⟨i, offset, _, _, congrArg _ hsplit, hline, (Option.some.inj hstep).symm⟩
    · rw [if_neg hmem] at hstep
      cases hstep
  | waiting | opened | polling =>
    unfold step at hstep
    rw [hreader] at hstep
    cases hstep

/-- A poll goes on with the file, or leaves it. -/
theorem poll_cases {stat : Bool} (hstep : s.step (.poll stat) = some s') :
    ∃ i offset, s.reader = .polling i offset ∧
      ((stat = true ∧ s.path = some i ∧ s' = { s with reader := .reading i offset [] }) ∨
        (¬ (stat = true ∧ s.path = some i) ∧ s' = { s with reader := .waiting })) := by
  cases hreader : s.reader with
  | polling i offset =>
    unfold step at hstep
    rw [hreader] at hstep
    dsimp only at hstep
    refine ⟨i, offset, rfl, ?_⟩
    by_cases hsame : stat = true ∧ s.path = some i
    · rw [if_pos hsame] at hstep
      exact Or.inl ⟨hsame.1, hsame.2, (Option.some.inj hstep).symm⟩
    · rw [if_neg hsame] at hstep
      exact Or.inr ⟨hsame, (Option.some.inj hstep).symm⟩
  | waiting | opened | reading =>
    unfold step at hstep
    rw [hreader] at hstep
    cases hstep

end Bridge

end AlertBridge
