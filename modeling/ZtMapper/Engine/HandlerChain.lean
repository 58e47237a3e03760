/-
# `dsa::soc::AlertHandlerChain`

The engine makes one handler for each entry of `alert_handlers`, and sends every alert to
all of them.  Each file handler writes at an offset of its own, also when two of them have
opened one file.  Whatever the other handlers meet, a file ends up with the line of every
alert once (`chain_delivers`).
-/
import ZtMapper.ConfigLoader.LoadConfig
import ZtMapper.Viz.LoadJson

open ConfigLoader (AlertHandlerEntry PipelineConfig)

namespace Soc

variable {F : Type} [DecidableEq F]

/-! ## Handlers -/

/-- What the handlers write to: the files, the two streams, and what is published to a
server, as its URL, the subject and the payload. -/
structure Sinks (F : Type) where
  files : F → List UInt8
  stdout : List UInt8
  stderr : List UInt8
  published : List (List UInt8 × List UInt8 × List UInt8)

/-- What the constructors meet: the file that a path opens, and the servers that answer. -/
structure Surroundings (F : Type) where
  opens : List UInt8 → Option F
  connects : List UInt8 → Bool

/-- A handler; that of a file with the position of its stream. -/
inductive AlertHandler (F : Type) where
  | file (f : F) (offset : ℕ)
  | stdout (toStderr : Bool)
  | nats (url subject : List UInt8)
  deriving DecidableEq

/-- How `natsConnection_Publish` ends: well, or with the text of its status. -/
abbrev Published := Except (List UInt8) Unit

/-- Bytes written at an offset; what is skipped reads as zeros. -/
def writeAt (content : List UInt8) (offset : ℕ) (b : List UInt8) : List UInt8 :=
  content.take offset ++ List.replicate (offset - content.length) 0 ++
    (b ++ content.drop (offset + b.length))

/-- The line of an alert. -/
def alertLine (a : Alert) : List UInt8 := toJson a ++ [10]

namespace AlertHandler

/-- The handler after `send`: a file handler has moved on. -/
def sent (a : Alert) : AlertHandler F → AlertHandler F
  | .file f offset => .file f (offset + (alertLine a).length)
  | .stdout toStderr => .stdout toStderr
  | .nats url subject => .nats url subject

/-- `send`, on what it writes to. -/
def send (published : Published) (a : Alert) (s : Sinks F) : AlertHandler F → Sinks F
  | .file f offset =>
    { s with files := Function.update s.files f (writeAt (s.files f) offset (alertLine a)) }
  | .stdout true => { s with stderr := s.stderr ++ alertLine a }
  | .stdout false => { s with stdout := s.stdout ++ alertLine a }
  | .nats url subject =>
    match published with
    | .ok () => { s with published := s.published ++ [(url, subject, toJson a)] }
    | .error status =>
      { s with stderr := s.stderr ++ (bytes "[nats] publish failed on " ++ subject ++ bytes ": " ++
          status ++ [10]) }

/-- What a constructor does to the files: they are opened with `trunc`. -/
def truncate (s : Sinks F) : AlertHandler F → Sinks F
  | .file f _ => { s with files := Function.update s.files f [] }
  | _ => s

end AlertHandler

/-- `AlertHandlerChain::send`; `published i` is what the publication of handler `i` meets.
No `send` of a handler throws. -/
def sendChain (a : Alert) : (ℕ → Published) → List (AlertHandler F) → Sinks F →
    List (AlertHandler F) × Sinks F
  | _, [], s => ([], s)
  | published, h :: hs, s =>
    let rest := sendChain a (fun i => published (i + 1)) hs (h.send (published 0) a s)
    (h.sent a :: rest.1, rest.2)

/-! ## The set-up of the chain -/

/-- `HandlerConfig::get`. -/
def getParam (e : AlertHandlerEntry) (key fallback : List UInt8) : List UInt8 :=
  (e.params.lookup key).getD fallback

def pathOf (e : AlertHandlerEntry) : List UInt8 :=
  getParam e (bytes "path") (bytes "output/alerts.json")

def toStderr (e : AlertHandlerEntry) : Bool :=
  getParam e (bytes "stream") (bytes "stderr") = bytes "stderr"

def urlOf (e : AlertHandlerEntry) : List UInt8 :=
  getParam e (bytes "url") (bytes "nats://nats.soc.svc.cluster.local:4222")

/-- `AlertHandlerRegistry::create`, for the registered handlers. -/
def createHandler (env : Surroundings F) (e : AlertHandlerEntry) : Option (AlertHandler F) :=
  if e.name = bytes "file" then (env.opens (pathOf e)).map fun f => .file f 0
  else if e.name = bytes "stdout" ∨ e.name = bytes "stderr" then some (.stdout (toStderr e))
  else if e.name = bytes "nats" then
    if env.connects (urlOf e) then
      some (.nats (urlOf e) (getParam e (bytes "subject") (bytes "zt.alerts.raw")))
    else none
  else none

/-- The entries of the configuration, or the one of `alerts_file`. -/
def entriesOf (c : PipelineConfig) : List AlertHandlerEntry :=
  if c.alertHandlers = [] then
    [{ name := bytes "file", params := (∅ : Unordered.Map _ _).insert (bytes "path") c.alertsFile }]
  else c.alertHandlers

/-- The loop over the entries; `none` ends the program. -/
def buildChain (env : Surroundings F) : List AlertHandlerEntry → Sinks F →
    Option (List (AlertHandler F) × Sinks F)
  | [], s => some ([], s)
  | e :: es, s =>
    match createHandler env e with
    | none => none
    | some h => (buildChain env es (h.truncate s)).map fun r => (h :: r.1, r.2)

/-- A run: the alerts that the engine sends, each with what its publications meet. -/
def runChain (env : Surroundings F) (c : PipelineConfig) (s : Sinks F)
    (alerts : List (Alert × (ℕ → Published))) : Option (Sinks F) :=
  (buildChain env (entriesOf c) s).map fun r =>
    (alerts.foldl (fun r a => sendChain a.1 a.2 r.1 r.2) r).2

/-! ## Writing at an offset -/

/-- Writing at the end appends. -/
theorem writeAt_length (content b : List UInt8) : writeAt content content.length b = content ++ b := by
  rw [writeAt, List.take_length, Nat.sub_self, List.drop_of_length_le (Nat.le_add_right _ _)]
  simp

/-- Writing the same bytes once more changes nothing. -/
theorem writeAt_writeAt (content b : List UInt8) (n : ℕ) :
    writeAt (writeAt content n b) n b = writeAt content n b := by
  have hlen : (content.take n ++ List.replicate (n - content.length) 0).length = n := by
    rw [List.length_append, List.length_take, List.length_replicate]
    omega
  unfold writeAt
  generalize content.take n ++ List.replicate (n - content.length) 0 = start at hlen
  generalize content.drop (n + b.length) = rest
  subst hlen
  have hnone : start.length - (start ++ (b ++ rest)).length = 0 := by
    rw [List.length_append]
    omega
  rw [hnone, List.take_left, ← List.append_assoc start b rest, ← List.length_append, List.drop_left,
    List.replicate_zero, List.append_nil, List.append_assoc]

/-! ## One alert -/

variable {a : Alert} {published : ℕ → Published} {hs : List (AlertHandler F)} {s : Sinks F}

/-- Every handler takes note of the alert. -/
theorem handlers_sendChain : (sendChain a published hs s).1 = hs.map (·.sent a) := by
  induction hs generalizing published s with
  | nil => rfl
  | cons h hs ih => exact congrArg (h.sent a :: ·) ih

/-- Another handler than those of the file leaves it as it is. -/
theorem files_send_of_ne {h : AlertHandler F} {f : F} (hne : ∀ n, h ≠ .file f n) (p : Published) :
    (h.send p a s).files f = s.files f := by
  rcases h with ⟨g, n⟩ | ⟨_ | _⟩ | ⟨url, subject⟩
  · exact Function.update_of_ne (fun hfg => hne n (by rw [hfg])) _ _
  · rfl
  · rfl
  · cases p <;> rfl

/-- **One alert, a file**: it gets the line once, however many handlers have opened it. -/
theorem files_sendChain {n : ℕ} (hoff : ∀ g o, .file g o ∈ hs → o = n) (f : F) :
    (sendChain a published hs s).2.files f
      = if .file f n ∈ hs then writeAt (s.files f) n (alertLine a) else s.files f := by
  induction hs generalizing published s with
  | nil => rfl
  | cons h hs ih =>
    show (sendChain a (fun i => published (i + 1)) hs (h.send (published 0) a s)).2.files f = _
    rw [ih fun g o hmem => hoff g o (List.mem_cons_of_mem h hmem)]
    by_cases hf : h = .file f n
    · subst hf
      have hsend : ((AlertHandler.file f n).send (published 0) a s).files f
          = writeAt (s.files f) n (alertLine a) := Function.update_self f _ _
      rw [if_pos List.mem_cons_self, hsend, writeAt_writeAt, ite_self]
    · have hne : ∀ o, h ≠ .file f o := by
        rintro o rfl
        exact hf (by rw [hoff f o List.mem_cons_self])
      simp only [files_send_of_ne hne, List.mem_cons, Ne.symm hf, false_or]

/-- The line is written to standard output once for each handler of it. -/
theorem stdout_sendChain : (sendChain a published hs s).2.stdout
    = s.stdout ++ (List.replicate (hs.count (.stdout false)) (alertLine a)).flatten := by
  induction hs generalizing published s with
  | nil => exact (List.append_nil _).symm
  | cons h hs ih =>
    show (sendChain a (fun i => published (i + 1)) hs (h.send (published 0) a s)).2.stdout = _
    rw [ih, List.count_cons]
    rcases h with ⟨g, n⟩ | ⟨_ | _⟩ | ⟨url, subject⟩
    · rfl
    · rw [if_pos (by simp), List.replicate_succ, List.flatten_cons, ← List.append_assoc]
      rfl
    · rfl
    · cases published 0 <;> rfl

/-! ## A run -/

/-- The file handlers are at the ends of their files, which are equally long. -/
structure AtEnds (hs : List (AlertHandler F)) (n : ℕ) (s : Sinks F) : Prop where
  offset_eq : ∀ g o, .file g o ∈ hs → o = n
  length_eq : ∀ g, .file g n ∈ hs → (s.files g).length = n

omit [DecidableEq F] in
/-- A file handler moves on by the line that it wrote. -/
theorem mem_map_sent {n : ℕ} (hoff : ∀ g o, .file g o ∈ hs → o = n) (f : F) (m : ℕ) :
    .file f m ∈ hs.map (·.sent a) ↔ m = n + (alertLine a).length ∧ .file f n ∈ hs := by
  rw [List.mem_map]
  constructor
  · rintro ⟨⟨g, o⟩ | b | ⟨url, subject⟩, hmem, heq⟩
    · rw [AlertHandler.sent, AlertHandler.file.injEq] at heq
      rw [← heq.1, ← heq.2, hoff g o hmem]
      exact ⟨rfl, hoff g o hmem ▸ hmem⟩
    · exact absurd heq (by simp [AlertHandler.sent])
    · exact absurd heq (by simp [AlertHandler.sent])
  · rintro ⟨hm, hmem⟩
    exact ⟨.file f n, hmem, by rw [AlertHandler.sent, hm]⟩

/-- The handlers of the standard output stay. -/
theorem count_map_sent (hs : List (AlertHandler F)) :
    (hs.map (·.sent a)).count (.stdout false) = hs.count (.stdout false) := by
  rw [List.count, List.countP_map]
  refine List.countP_congr fun h _ => ?_
  rcases h with ⟨g, n⟩ | b | ⟨url, subject⟩ <;> simp [AlertHandler.sent]

/-- **The step**: after an alert the handlers are at the ends of their files again. -/
theorem AtEnds.sendChain {n : ℕ} (h : AtEnds hs n s) (a : Alert) (published : ℕ → Published) :
    AtEnds (sendChain a published hs s).1 (n + (alertLine a).length)
      (sendChain a published hs s).2 := by
  rw [handlers_sendChain]
  refine ⟨fun g o hmem => ((mem_map_sent h.offset_eq g o).mp hmem).1, fun g hmem => ?_⟩
  have hg := ((mem_map_sent h.offset_eq g _).mp hmem).2
  have hlen := h.length_eq g hg
  rw [files_sendChain h.offset_eq, if_pos hg, ← hlen, writeAt_length, List.length_append]

/-- **The run**: what the files and standard output have got. -/
theorem AtEnds.foldl {n : ℕ} (h : AtEnds hs n s) (alerts : List (Alert × (ℕ → Published))) :
    let r := alerts.foldl (fun r a => Soc.sendChain a.1 a.2 r.1 r.2) (hs, s)
    (∀ f, r.2.files f
      = if .file f n ∈ hs then s.files f ++ (alerts.map (·.1)).flatMap alertLine else s.files f) ∧
    r.2.stdout = s.stdout ++ (alerts.map (·.1)).flatMap fun a =>
      (List.replicate (hs.count (.stdout false)) (alertLine a)).flatten := by
  induction alerts generalizing hs n s with
  | nil => exact ⟨fun f => by simp, (List.append_nil _).symm⟩
  | cons p alerts ih =>
    obtain ⟨hfiles, hstdout⟩ := ih (h.sendChain p.1 p.2)
    refine ⟨fun f => ?_, ?_⟩
    · rw [List.foldl_cons, hfiles f, handlers_sendChain, List.map_cons, List.flatMap_cons]
      simp only [mem_map_sent h.offset_eq, true_and, files_sendChain h.offset_eq]
      by_cases hf : .file f n ∈ hs
      · rw [if_pos hf, if_pos hf, if_pos hf]
        have hlen := h.length_eq f hf
        rw [← hlen, writeAt_length, List.append_assoc]
      · rw [if_neg hf, if_neg hf, if_neg hf]
    · rw [List.foldl_cons, hstdout, handlers_sendChain, count_map_sent, stdout_sendChain,
        List.map_cons, List.flatMap_cons, List.append_assoc]

/-! ## The set-up -/

variable {env : Surroundings F} {c : PipelineConfig} {e : AlertHandlerEntry}

/-- The entry is for the file. -/
def NamesFile (env : Surroundings F) (e : AlertHandlerEntry) (f : F) : Prop :=
  e.name = bytes "file" ∧ env.opens (pathOf e) = some f

/-- The entry is for standard output. -/
def NamesStdout (e : AlertHandlerEntry) : Prop :=
  (e.name = bytes "stdout" ∨ e.name = bytes "stderr") ∧ toStderr e = false

instance : DecidablePred NamesStdout := fun _ => inferInstanceAs (Decidable (_ ∧ _))

/-- The entry has a known name, and what it needs is there. -/
def Creatable (env : Surroundings F) (e : AlertHandlerEntry) : Prop :=
  (∃ f, NamesFile env e f) ∨ e.name = bytes "stdout" ∨ e.name = bytes "stderr" ∨
    (e.name = bytes "nats" ∧ env.connects (urlOf e) = true)

omit [DecidableEq F] in
/-- The entries that a handler can be made of. -/
theorem exists_createHandler_iff : (∃ h, createHandler env e = some h) ↔ Creatable env e := by
  have h₁ : bytes "stdout" ≠ bytes "file" := by decide
  have h₂ : bytes "stderr" ≠ bytes "file" := by decide
  have h₃ : bytes "nats" ≠ bytes "file" := by decide
  have h₄ : bytes "nats" ≠ bytes "stdout" := by decide
  have h₅ : bytes "nats" ≠ bytes "stderr" := by decide
  unfold createHandler Creatable NamesFile
  by_cases hfile : e.name = bytes "file"
  · rw [if_pos hfile, hfile]
    simp [h₁.symm, h₂.symm, h₃.symm, Option.map_eq_some_iff]
  · rw [if_neg hfile]
    by_cases hstream : e.name = bytes "stdout" ∨ e.name = bytes "stderr"
    · rw [if_pos hstream]
      exact iff_of_true ⟨_, rfl⟩ (Or.inr (hstream.imp_right Or.inl))
    · rw [if_neg hstream]
      by_cases hnats : e.name = bytes "nats"
      · rw [if_pos hnats, hnats]
        by_cases hconnects : env.connects (urlOf e) <;> simp [hconnects, h₃, h₄, h₅]
      · rw [if_neg hnats]
        refine iff_of_false (fun h => absurd h.choose_spec (by simp)) ?_
        rintro (⟨f, hf, -⟩ | h | h | ⟨h, -⟩)
        · exact hfile hf
        · exact hstream (Or.inl h)
        · exact hstream (Or.inr h)
        · exact hnats h

omit [DecidableEq F] in
/-- The entries that make a file handler, which starts at offset 0. -/
theorem createHandler_eq_file_iff {f : F} {n : ℕ} :
    createHandler env e = some (.file f n) ↔ NamesFile env e f ∧ n = 0 := by
  unfold createHandler NamesFile
  by_cases hfile : e.name = bytes "file"
  · rw [if_pos hfile, Option.map_eq_some_iff]
    constructor
    · rintro ⟨g, hg, heq⟩
      obtain ⟨rfl, rfl⟩ := AlertHandler.file.inj heq
      exact ⟨⟨hfile, hg⟩, rfl⟩
    · rintro ⟨⟨-, hg⟩, rfl⟩
      exact ⟨f, hg, rfl⟩
  · rw [if_neg hfile]
    refine iff_of_false ?_ fun h => hfile h.1.1
    split_ifs <;> simp

omit [DecidableEq F] in
/-- The entries that make a handler of the standard output. -/
theorem createHandler_eq_stdout_iff :
    createHandler env e = some (.stdout false) ↔ NamesStdout e := by
  have h₁ : bytes "stdout" ≠ bytes "file" := by decide
  have h₂ : bytes "stderr" ≠ bytes "file" := by decide
  unfold createHandler NamesStdout
  by_cases hfile : e.name = bytes "file"
  · rw [if_pos hfile, hfile]
    simp [h₁.symm, h₂.symm]
  · rw [if_neg hfile]
    by_cases hstream : e.name = bytes "stdout" ∨ e.name = bytes "stderr"
    · rw [if_pos hstream]
      simp [hstream]
    · rw [if_neg hstream]
      refine iff_of_false ?_ fun h => hstream h.1
      split_ifs <;> simp

/-- A chain as it is set up for the entries. -/
structure Built (env : Surroundings F) (es : List AlertHandlerEntry) (s : Sinks F)
    (hs : List (AlertHandler F)) (s' : Sinks F) : Prop where
  created : List.Forall₂ (fun e h => createHandler env e = some h) es hs
  opened : ∀ f, (∃ e ∈ es, NamesFile env e f) → s'.files f = []
  kept : ∀ f, (∀ e ∈ es, ¬ NamesFile env e f) → s'.files f = s.files f
  stdout_eq : s'.stdout = s.stdout

/-- Opening a file writes nothing to the standard output. -/
theorem stdout_truncate (h : AlertHandler F) : (h.truncate s).stdout = s.stdout := by
  cases h <;> rfl

/-- Opening a file empties that file only. -/
theorem files_truncate {h : AlertHandler F} (hcreate : createHandler env e = some h) (f : F) :
    (NamesFile env e f → (h.truncate s).files f = []) ∧
      (¬ NamesFile env e f → (h.truncate s).files f = s.files f) := by
  constructor
  · intro hnames
    obtain rfl := Option.some.inj
      (hcreate.symm.trans (createHandler_eq_file_iff.mpr ⟨hnames, rfl⟩))
    exact Function.update_self f _ _
  · intro hnames
    rcases h with ⟨g, n⟩ | b | ⟨url, subject⟩
    · refine Function.update_of_ne ?_ _ _
      rintro rfl
      exact hnames (createHandler_eq_file_iff.mp hcreate).1
    · rfl
    · rfl

/-- What `build_chain` builds, entry by entry. -/
theorem built {es : List AlertHandlerEntry} {s' : Sinks F}
    (h : buildChain env es s = some (hs, s')) : Built env es s hs s' := by
  induction es generalizing s hs with
  | nil =>
    obtain ⟨rfl, rfl⟩ := Prod.mk.inj (Option.some.inj h)
    exact ⟨.nil, fun f hf => absurd hf (by simp), fun f _ => rfl, rfl⟩
  | cons e es ih =>
    rw [buildChain] at h
    cases hcreate : createHandler env e with
    | none =>
      rw [hcreate] at h
      cases h
    | some hd =>
      rw [hcreate] at h
      obtain ⟨⟨hs', s''⟩, hrest, heq⟩ := Option.map_eq_some_iff.mp h
      obtain ⟨rfl, rfl⟩ := Prod.mk.inj heq
      have hbuilt := ih hrest
      have htruncate := fun f => files_truncate (s := s) hcreate f
      refine ⟨.cons hcreate hbuilt.created, fun f hf => ?_, fun f hf => ?_, ?_⟩
      · -- a later handler of the file empties it once more
        by_cases hlater : ∃ e ∈ es, NamesFile env e f
        · exact hbuilt.opened f hlater
        · obtain ⟨e', he', hnames⟩ := hf
          rcases List.mem_cons.mp he' with rfl | he'
          · rw [hbuilt.kept f fun e he hn => hlater ⟨e, he, hn⟩]
            exact (htruncate f).1 hnames
          · exact absurd ⟨e', he', hnames⟩ hlater
      · rw [List.forall_mem_cons] at hf
        rw [hbuilt.kept f hf.2]
        exact (htruncate f).2 hf.1
      · exact hbuilt.stdout_eq.trans (stdout_truncate hd)

/-- The chain is built when every handler can be made. -/
theorem exists_buildChain_iff {es : List AlertHandlerEntry} :
    (∃ r, buildChain env es s = some r) ↔ ∀ e ∈ es, Creatable env e := by
  induction es generalizing s with
  | nil => exact iff_of_true ⟨_, rfl⟩ fun e he => absurd he List.not_mem_nil
  | cons e es ih =>
    rw [List.forall_mem_cons, ← exists_createHandler_iff, buildChain]
    cases hcreate : createHandler env e with
    | none => exact iff_of_false (fun h => absurd h.choose_spec (by simp)) fun h => by simp at h
    | some hd =>
      dsimp only
      rw [← ih (s := hd.truncate s)]
      constructor
      · rintro ⟨r, hr⟩
        obtain ⟨r', hr', -⟩ := Option.map_eq_some_iff.mp hr
        exact ⟨⟨hd, rfl⟩, r', hr'⟩
      · rintro ⟨-, r, hr⟩
        exact ⟨_, Option.map_eq_some_iff.mpr ⟨r, hr, rfl⟩⟩

omit [DecidableEq F] in
/-- The handlers of a file are those that an entry names it for, at its start. -/
theorem Built.mem_file_iff {es : List AlertHandlerEntry} {s' : Sinks F} (h : Built env es s hs s')
    (f : F) (n : ℕ) : .file f n ∈ hs ↔ (∃ e ∈ es, NamesFile env e f) ∧ n = 0 := by
  have hcreated := h.created
  clear h
  induction hcreated with
  | nil => simp
  | @cons e hd es hs hcreate hrest ih =>
    have htail : .file f n ∈ hs ↔ (∃ e ∈ es, NamesFile env e f) ∧ n = 0 := ih
    rw [List.mem_cons, htail, List.exists_mem_cons_iff, or_and_right]
    refine or_congr_left ?_
    rw [← createHandler_eq_file_iff, hcreate]
    exact ⟨fun heq => congrArg some heq.symm, fun heq => (Option.some.inj heq).symm⟩

/-- The handlers of the standard output are as many as their entries. -/
theorem Built.count_stdout {es : List AlertHandlerEntry} {s' : Sinks F}
    (h : Built env es s hs s') : hs.count (.stdout false) = es.countP NamesStdout := by
  have hcreated := h.created
  clear h
  induction hcreated with
  | nil => rfl
  | @cons e hd es hs hcreate hrest ih =>
    rw [List.count_cons, List.countP_cons, ih]
    congr 1
    have hcreateStdout : createHandler env e = some (.stdout false) ↔ NamesStdout e :=
      createHandler_eq_stdout_iff
    have hiff : hd = .stdout false ↔ NamesStdout e := by
      rw [← hcreateStdout, hcreate]
      exact ⟨congrArg some, Option.some.inj⟩
    simp only [beq_iff_eq, hiff, decide_eq_true_iff]

/-! ## What is delivered -/

/-- The lines of the alerts are what a lone file handler writes. -/
theorem written_eq_flatMap (alerts : List Alert) :
    Viz.written alerts = alerts.flatMap alertLine :=
  (List.flatMap_eq_foldl ..).symm

/-- **The chain delivers**: a run starts exactly if every entry can be made a handler, and then,
whatever the publications meet, each file that an entry is for holds the line of every alert
once and in order, no other file is touched, and standard output gets the lines once for each
entry for it. -/
theorem chain_delivers (env : Surroundings F) (c : PipelineConfig) (s : Sinks F)
    (alerts : List (Alert × (ℕ → Published))) :
    ((∃ s', runChain env c s alerts = some s') ↔ ∀ e ∈ entriesOf c, Creatable env e) ∧
    ∀ s', runChain env c s alerts = some s' →
      (∀ f, (∃ e ∈ entriesOf c, NamesFile env e f) →
        s'.files f = Viz.written (alerts.map (·.1))) ∧
      (∀ f, (∀ e ∈ entriesOf c, ¬ NamesFile env e f) → s'.files f = s.files f) ∧
      s'.stdout = s.stdout ++ (alerts.map (·.1)).flatMap fun a =>
        (List.replicate ((entriesOf c).countP NamesStdout) (alertLine a)).flatten := by
  constructor
  · rw [← exists_buildChain_iff (s := s), runChain]
    constructor
    · rintro ⟨s', hs'⟩
      obtain ⟨r, hr, -⟩ := Option.map_eq_some_iff.mp hs'
      exact ⟨r, hr⟩
    · rintro ⟨r, hr⟩
      exact ⟨_, Option.map_eq_some_iff.mpr ⟨r, hr, rfl⟩⟩
  · intro s' hrun
    obtain ⟨⟨hs, s₁⟩, hbuild, rfl⟩ := Option.map_eq_some_iff.mp hrun
    have hbuilt := built hbuild
    have hends : AtEnds hs 0 s₁ := by
      refine ⟨fun g o hmem => ((hbuilt.mem_file_iff g o).mp hmem).2, fun g hmem => ?_⟩
      rw [hbuilt.opened g ((hbuilt.mem_file_iff g 0).mp hmem).1]
      rfl
    obtain ⟨hfiles, hstdout⟩ := hends.foldl alerts
    refine ⟨fun f hf => ?_, fun f hf => ?_, ?_⟩
    · rw [hfiles f, if_pos ((hbuilt.mem_file_iff f 0).mpr ⟨hf, rfl⟩), hbuilt.opened f hf,
        written_eq_flatMap]
      rfl
    · have hnone : ¬ .file f 0 ∈ hs := fun hmem =>
        let ⟨e, he, hnames⟩ := ((hbuilt.mem_file_iff f 0).mp hmem).1
        hf e he hnames
      rw [hfiles f, if_neg hnone, hbuilt.kept f hf]
    · rw [hstdout, hbuilt.stdout_eq, hbuilt.count_stdout]

/-- Two handlers of one file, and one of a server that refuses the alert. -/
theorem chain_delivers_twice :
    ∃ s', runChain (F := Unit) ⟨fun _ => some (), fun _ => true⟩
        { alertHandlers := [⟨bytes "file", ∅⟩, ⟨bytes "nats", ∅⟩, ⟨bytes "file", ∅⟩] }
        ⟨fun _ => [1, 2, 3], [], [], []⟩ [(Viz.scanAlert, fun _ => .error [])] = some s' ∧
      s'.files () = Viz.written [Viz.scanAlert] := by
  have hdelivers := chain_delivers (F := Unit) ⟨fun _ => some (), fun _ => true⟩
    { alertHandlers := [⟨bytes "file", ∅⟩, ⟨bytes "nats", ∅⟩, ⟨bytes "file", ∅⟩] }
    ⟨fun _ => [1, 2, 3], [], [], []⟩ [(Viz.scanAlert, fun _ => .error [])]
  have hcreatable : ∀ e ∈ entriesOf
      { alertHandlers := [⟨bytes "file", ∅⟩, ⟨bytes "nats", ∅⟩, ⟨bytes "file", ∅⟩] },
      Creatable (F := Unit) ⟨fun _ => some (), fun _ => true⟩ e := by
    show ∀ e ∈ [_, _, _], _
    simp only [List.forall_mem_cons]
    exact ⟨Or.inl ⟨(), rfl, rfl⟩, Or.inr (Or.inr (Or.inr ⟨rfl, rfl⟩)), Or.inl ⟨(), rfl, rfl⟩,
      fun _ h => absurd h List.not_mem_nil⟩
  obtain ⟨s', hrun⟩ := hdelivers.1.mpr hcreatable
  exact ⟨s', hrun, (hdelivers.2 s' hrun).1 () ⟨_, List.mem_cons_self, rfl, rfl⟩⟩

end Soc
