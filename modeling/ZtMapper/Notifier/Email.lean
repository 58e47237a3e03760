/-
# Mails about incidents

`NotifyIncident` hands a mail to SMTP whose subject has the texts of the incident as they
are.  `read_msg_iff` says when the mail is read with the six headers that `buildMessage`
writes: when the line breaks in the texts are folded.
-/
import ZtMapper.Lib.Message
import ZtMapper.Lib.Calendar
import ZtMapper.Lib.Trim
import ZtMapper.Rbac.Tokens
import ZtMapper.Response.Quarantine
import ZtMapper.IncidentService.Tables

open Message IncidentService
open Response (pad)

namespace Notifier

/-! ## Times -/

def weekdayNames : List (List Char) :=
  ["Sun", "Mon", "Tue", "Wed", "Thu", "Fri", "Sat"].map String.toList

def monthNames : List (List Char) :=
  ["Jan", "Feb", "Mar", "Apr", "May", "Jun", "Jul", "Aug", "Sep", "Oct", "Nov", "Dec"].map
    String.toList

def monthLengths (year : ℤ) : List ℤ :=
  [31, if Calendar.Leap year then 29 else 28, 31, 30, 31, 30, 31, 31, 30, 31, 30, 31]

/-- The days since 1 January 1970. -/
def dayOf (t : Response.Time) : ℤ :=
  Calendar.newYear t.year + ((monthLengths t.year).take (t.month - 1)).sum + (t.day - 1)

/-- `time.RFC1123Z`, in UTC. -/
def rfc1123z (t : Response.Time) : List Char :=
  weekdayNames.getD (Calendar.weekday (dayOf t)).toNat [] ++ (", ".toList ++ (pad 2 t.day ++
    ' ' :: (monthNames.getD (t.month - 1) [] ++ ' ' :: (pad 4 t.year ++ ' ' :: (pad 2 t.hour ++
      ':' :: (pad 2 t.minute ++ ':' :: (pad 2 t.second ++ " +0000".toList)))))))

/-! ## Strings -/

/-- `strings.TrimSpace` -/
def trimSpace (s : List Char) : List Char := Scan.trim (· ∈ Rbac.spaceChars) s

/-- `unicode.ToUpper`, as far as line breaks and blanks go: they are their own upper case,
and nothing else's. -/
structure ToUpper where
  apply : Char → Char
  apply_eq_iff : ∀ c d, d = '\n' ∨ d = ' ' ∨ d = '\t' → (apply c = d ↔ c = d)

/-! ## `SMTPNotifier` -/

structure Config where
  host : List Char
  port : List Char
  from_ : List Char
  to_ : List Char
  username : List Char
  password : List Char
  consoleUrl : List Char

def Config.disabled (c : Config) : Prop := trimSpace c.host = []

instance (c : Config) : Decidable c.disabled := inferInstanceAs (Decidable (_ = _))

/-- What the template is executed with. -/
structure TemplateData where
  incident : Incident
  consoleUrl : List Char
  generatedAt : List Char

/-- A template is what it renders, or the error with which it fails. -/
structure SMTPNotifier where
  cfg : Config
  tmpl : TemplateData → Except (List Char) (List Char)

def newSMTP (cfg : Config) (tmpl : TemplateData → Except (List Char) (List Char)) :
    SMTPNotifier where
  cfg := { cfg with
    port := if cfg.port = [] then "1025".toList else cfg.port
    from_ := if cfg.from_ = [] then "zt-soc@cluster.local".toList else cfg.from_ }
  tmpl := tmpl

/-- The arguments of `smtp.SendMail`; those of `smtp.PlainAuth` are in `auth`. -/
structure Mail where
  addr : List Char
  auth : Option (List Char × List Char × List Char × List Char)
  from_ : List Char
  to_ : List (List Char)
  msg : List Char

/-- The mail that is handed to SMTP, and the error that is returned. -/
structure Outcome where
  handed : Option Mail
  err : Option (List Char)

def buildMessage (from_ to_ subject htmlBody : List Char) (now : Response.Time) : List Char :=
  "From: ".toList ++ from_ ++ "\r\n".toList ++
  ("To: ".toList ++ to_ ++ "\r\n".toList) ++
  ("Subject: ".toList ++ subject ++ "\r\n".toList) ++
  ("Date: ".toList ++ rfc1123z now ++ "\r\n".toList) ++
  "MIME-Version: 1.0\n".toList ++
  "Content-Type: text/html; charset=UTF-8\n".toList ++
  "\n".toList ++
  htmlBody

def splitRecipients (s : List Char) : List (List Char) :=
  ((s.splitOn ',').map trimSpace).filter (· ≠ [])

def subject (toUpper : ToUpper) (inc : Incident) : List Char :=
  "[ZT-SOC][".toList ++ inc.severity.toList.map toUpper.apply ++ "] ".toList ++
    inc.type.toList ++ " detected from ".toList ++ inc.sourceIp.toList

def Config.addr (c : Config) : List Char := c.host ++ ":".toList ++ c.port

def Config.auth (c : Config) : Option (List Char × List Char × List Char × List Char) :=
  if c.username ≠ [] ∧ c.password ≠ [] then some ([], c.username, c.password, c.host) else none

def Config.templateData (c : Config) (inc : Incident) (consoleUrl : List Char)
    (now : Response.Time) : TemplateData where
  incident := inc
  consoleUrl := (if consoleUrl = [] then c.consoleUrl else consoleUrl).rdropWhile (· = '/') ++
    "/incidents/".toList ++ Nat.toDigits 10 inc.id
  generatedAt := now.rfc3339

/-- The clock is read for the template and for the header `Date`; `sendMail` returns the
error of SMTP. -/
def SMTPNotifier.notifyIncident (n : SMTPNotifier) (toUpper : ToUpper)
    (sendMail : Mail → Option (List Char)) (now now' : Response.Time) (inc : Option Incident)
    (consoleUrl : List Char) : Outcome :=
  if n.cfg.disabled then ⟨none, none⟩
  else match inc with
    | none => ⟨none, some "nil incident".toList⟩
    | some inc =>
      match n.tmpl (n.cfg.templateData inc consoleUrl now) with
      | .error e => ⟨none, some ("render: ".toList ++ e)⟩
      | .ok body =>
        let msg := buildMessage n.cfg.from_ n.cfg.to_ (subject toUpper inc) body now'
        let rcpts := splitRecipients n.cfg.to_
        if rcpts = [] then ⟨none, some "notifier: no recipients configured".toList⟩
        else
          let mail : Mail := ⟨n.cfg.addr, n.cfg.auth, n.cfg.from_, rcpts, msg⟩
          ⟨some mail, (sendMail mail).map fun e =>
            "smtp send to ".toList ++ n.cfg.addr ++ ": ".toList ++ e⟩

/-! ## The headers -/

theorem notMem_pad (width n : ℕ) : '\n' ∉ pad width n := by
  intro h
  rcases List.mem_append.mp h with h | h
  · exact absurd (List.eq_of_mem_replicate h) (by decide)
  · have hdigit := Nat.isDigit_of_mem_toDigits (by decide) (by decide) h
    exact absurd hdigit (by decide)

theorem notMem_getD {names : List (List Char)} (h : ∀ name ∈ names, '\n' ∉ name) (i : ℕ) :
    '\n' ∉ names.getD i [] := by
  rw [List.getD_eq_getElem?_getD]
  cases hi : names[i]? with
  | none => exact List.not_mem_nil
  | some name => exact h name (List.mem_of_getElem? hi)

theorem notMem_rfc1123z (t : Response.Time) : '\n' ∉ rfc1123z t := by
  have hweekday := notMem_getD (by decide : ∀ name ∈ weekdayNames, '\n' ∉ name)
    (Calendar.weekday (dayOf t)).toNat
  have hmonth := notMem_getD (by decide : ∀ name ∈ monthNames, '\n' ∉ name) (t.month - 1)
  rw [List.getD_eq_getElem?_getD] at hweekday hmonth
  simp [rfc1123z, hweekday, hmonth, notMem_pad]

/-- What `buildMessage` prints. -/
def headers (from_ to_ subject : List Char) (now : Response.Time) : List Header :=
  [⟨"From".toList, from_, true, by decide, by decide, by decide⟩,
    ⟨"To".toList, to_, true, by decide, by decide, by decide⟩,
    ⟨"Subject".toList, subject, true, by decide, by decide, by decide⟩,
    ⟨"Date".toList, rfc1123z now, true, by decide, by decide, by decide⟩,
    ⟨"MIME-Version".toList, "1.0".toList, false, by decide, by decide, by decide⟩,
    ⟨"Content-Type".toList, "text/html; charset=UTF-8".toList, false, by decide, by decide,
      by decide⟩]

variable {from_ to_ subj body : List Char} {now now' : Response.Time}

theorem buildMessage_eq_print :
    buildMessage from_ to_ subj body now = print (headers from_ to_ subj now) body := by
  have hfrom : "From: ".toList = "From".toList ++ [':', ' '] := by decide
  have hto : "To: ".toList = "To".toList ++ [':', ' '] := by decide
  have hsubject : "Subject: ".toList = "Subject".toList ++ [':', ' '] := by decide
  have hdate : "Date: ".toList = "Date".toList ++ [':', ' '] := by decide
  have hversion : "MIME-Version: 1.0\n".toList =
      "MIME-Version".toList ++ ([':', ' '] ++ ("1.0".toList ++ ['\n'])) := by decide
  have htype : "Content-Type: text/html; charset=UTF-8\n".toList =
      "Content-Type".toList ++ ([':', ' '] ++ ("text/html; charset=UTF-8".toList ++ ['\n'])) := by
    decide
  have hcrlf : "\r\n".toList = ['\r'] ++ ['\n'] := by decide
  unfold buildMessage print headers
  simp only [hfrom, hto, hsubject, hdate, hversion, htype, hcrlf, Header.text, List.flatMap_cons,
    List.flatMap_nil, List.append_assoc, if_true, Bool.false_eq_true, if_false]
  rfl

def headerNames : List (List Char) :=
  ["From", "To", "Subject", "Date", "MIME-Version", "Content-Type"].map String.toList

/-- The six headers are read, and the body, unless a line break in a value is not folded. -/
theorem read_buildMessage_iff :
    read (buildMessage from_ to_ subj body now) = some (headerNames, body) ↔
      Folded from_ ∧ Folded to_ ∧ Folded subj := by
  have hdate : Folded (rfc1123z now) := folded_of_notMem (notMem_rfc1123z now)
  have hversion : Folded "1.0".toList := by decide
  have htype : Folded "text/html; charset=UTF-8".toList := by decide
  have hread : read (print (headers from_ to_ subj now) body) = some (headerNames, body) ↔
      ∀ h ∈ headers from_ to_ subj now, Folded h.value := read_print_iff
  rw [buildMessage_eq_print, hread]
  simp only [headers, List.forall_mem_cons, List.not_mem_nil, false_imp_iff, implies_true, and_true,
    hdate, hversion, htype]

variable {toUpper : ToUpper}

theorem folded_toUpper_iff {s : List Char} : Folded (s.map toUpper.apply) ↔ Folded s := by
  have hcontinues : ∀ s : List Char, Continues (s.map toUpper.apply) ↔ Continues s := by
    intro s
    cases s with
    | nil => exact Iff.rfl
    | cons c s =>
      simp only [Continues, List.map_cons, List.head?_cons, Option.some.injEq,
        toUpper.apply_eq_iff c ' ' (by simp), toUpper.apply_eq_iff c '\t' (by simp)]
  induction s with
  | nil => exact Iff.rfl
  | cons c s ih =>
    rw [List.map_cons, Folded, Folded, hcontinues, toUpper.apply_eq_iff c '\n' (by simp)]
    exact and_congr_right' ih

/-- A line break at the end of the type comes before the blank of the subject. -/
theorem folded_subject_iff {inc : Incident} :
    Folded (subject toUpper inc) ↔ Folded inc.severity.toList ∧
      Folded (inc.type.toList ++ [' ']) ∧ Folded inc.sourceIp.toList := by
  have hsubject : subject toUpper inc = "[ZT-SOC][".toList ++
      (inc.severity.toList.map toUpper.apply ++ ']' :: ([' '] ++
        (inc.type.toList ++ ' ' :: ("detected from ".toList ++ inc.sourceIp.toList)))) := by
    have hclose : "] ".toList = [']', ' '] := by decide
    have hfrom : " detected from ".toList = ' ' :: "detected from ".toList := by decide
    unfold subject
    simp only [hclose, hfrom, List.append_assoc]
    rfl
  have hopen : '\n' ∉ "[ZT-SOC][".toList := by decide
  have hdetected : '\n' ∉ "detected from ".toList := by decide
  have hblank : '\n' ∉ [' '] := by decide
  rw [hsubject, folded_append_of_notMem hopen, folded_append_cons (by decide),
    folded_concat (by decide) (by decide), folded_append_of_notMem hblank,
    folded_append_cons (by decide), folded_append_of_notMem hdetected, folded_toUpper_iff]

/-! ## The mail -/

section Handed

variable {sendMail : Mail → Option (List Char)} {n : SMTPNotifier} {inc : Option Incident}
  {consoleUrl : List Char} {mail : Mail}

/-- What is handed to SMTP is the message of the incident, with the rendered template. -/
theorem exists_of_handed
    (h : (n.notifyIncident toUpper sendMail now now' inc consoleUrl).handed = some mail) :
    ∃ i body, inc = some i ∧ n.tmpl (n.cfg.templateData i consoleUrl now) = .ok body ∧
      mail.msg = buildMessage n.cfg.from_ n.cfg.to_ (subject toUpper i) body now' := by
  unfold SMTPNotifier.notifyIncident at h
  by_cases hdisabled : n.cfg.disabled
  · rw [if_pos hdisabled] at h
    cases h
  rw [if_neg hdisabled] at h
  cases inc with
  | none => cases h
  | some i =>
    dsimp only at h
    cases hbody : n.tmpl (n.cfg.templateData i consoleUrl now) with
    | error e =>
      rw [hbody] at h
      cases h
    | ok body =>
      rw [hbody] at h
      dsimp only at h
      split_ifs at h with hrcpts
      obtain rfl := Option.some.inj h
      exact ⟨i, body, rfl, hbody, rfl⟩

theorem folded_newSMTP {cfg : Config} {tmpl : TemplateData → Except (List Char) (List Char)} :
    Folded (newSMTP cfg tmpl).cfg.from_ ↔ Folded cfg.from_ := by
  unfold newSMTP
  dsimp only
  split_ifs with hfrom
  · rw [hfrom]
    decide
  · rfl

/-- **When the mail has the six headers.**  The texts of the incident, and those of the
configuration, must not have a line break that is not followed by a blank; at the end of
the type, the blank is in the subject. -/
theorem read_msg_iff {cfg : Config} {tmpl : TemplateData → Except (List Char) (List Char)}
    (h : ((newSMTP cfg tmpl).notifyIncident toUpper sendMail now now' inc consoleUrl).handed =
      some mail) :
    ∃ i body, inc = some i ∧
      tmpl ((newSMTP cfg tmpl).cfg.templateData i consoleUrl now) = .ok body ∧
      (read mail.msg = some (headerNames, body) ↔
        Folded cfg.from_ ∧ Folded cfg.to_ ∧ Folded i.severity.toList ∧
          Folded (i.type.toList ++ [' ']) ∧ Folded i.sourceIp.toList) := by
  obtain ⟨i, body, hinc, hbody, hmsg⟩ := exists_of_handed h
  refine ⟨i, body, hinc, hbody, ?_⟩
  rw [hmsg, read_buildMessage_iff, folded_newSMTP, folded_subject_iff]
  rfl

end Handed

/-- Upper case of the ASCII letters. -/
def asciiToUpper : ToUpper where
  apply := Char.toUpper
  apply_eq_iff := by
    intro c d hd
    have hd' : d.val.toNat < 65 := by
      rcases hd with rfl | rfl | rfl <;> decide
    unfold Char.toUpper
    split_ifs with hlower
    · -- a small letter and its capital are both behind the blanks
      rw [UInt32.le_iff_toNat_le, UInt32.le_iff_toNat_le] at hlower
      have hlo : 97 ≤ c.val.toNat := hlower.1
      have hhi : c.val.toNat ≤ 122 := hlower.2
      have hcapital : (c.val + ('A'.val - 'a'.val)).toNat = c.val.toNat - 32 := by
        have hdiff : ('A'.val - 'a'.val).toNat = 4294967264 := by decide
        rw [UInt32.toNat_add, hdiff]
        omega
      refine iff_of_false (fun heq => ?_) (fun heq => ?_)
      · rw [← heq, hcapital] at hd'
        omega
      · rw [← heq] at hd'
        omega
    · rfl

/-- A notifier as it is deployed, with an empty page for the template. -/
def mailhog : SMTPNotifier :=
  newSMTP ⟨"mailhog".toList, [], [], "admin@x.com".toList, [], [], []⟩ fun _ =>
    .ok "<html></html>".toList

def newYearsDay : Response.Time := ⟨2026, 1, 1, 0, 0, 0⟩

def incidentOfType (type : String) : Incident where
  id := 1
  incidentKey := ""
  type := type
  sourceIp := "10.244.1.99"
  severity := "high"
  status := .new
  nodesObserved := []
  firstSeenNs := 0
  lastSeenNs := 0
  occurrenceCount := 1
  blastRadius := none
  tags := []
  crossNode := false
  createdAt := 0
  updatedAt := 0

theorem read_msg_port_scan : ∃ mail, (mailhog.notifyIncident asciiToUpper (fun _ => none) newYearsDay
      newYearsDay (some (incidentOfType "port_scan")) []).handed = some mail ∧
    read mail.msg = some (headerNames, "<html></html>".toList) := by
  obtain ⟨mail, hmail⟩ : ∃ mail, (mailhog.notifyIncident asciiToUpper (fun _ => none) newYearsDay
      newYearsDay (some (incidentOfType "port_scan")) []).handed = some mail := ⟨_, rfl⟩
  obtain ⟨i, body, hi, hbody, hiff⟩ := read_msg_iff hmail
  obtain rfl := Option.some.inj hi
  obtain rfl := Except.ok.inj hbody
  exact ⟨mail, hmail, hiff.mpr (by decide)⟩

/-- A line break in the type starts a header of its own. -/
theorem read_msg_injected : ∃ mail, (mailhog.notifyIncident asciiToUpper (fun _ => none) newYearsDay
      newYearsDay (some (incidentOfType "port_scan\nBcc: eve@x.com")) []).handed = some mail ∧
    (read mail.msg).map (·.1) = some (["From", "To", "Subject", "Bcc", "Date", "MIME-Version",
      "Content-Type"].map String.toList) ∧
    read mail.msg ≠ some (headerNames, "<html></html>".toList) := by
  refine ⟨_, rfl, ?_, ?_⟩
  · decide +kernel
  · decide +kernel

end Notifier
