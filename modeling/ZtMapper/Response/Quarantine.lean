/-
# The quarantine policy

`GenerateQuarantine` writes a NetworkPolicy behind comment lines with texts of an
alert, and `K8sApiApplier` reads it back.
-/
import ZtMapper.Lib.YamlContent

open Yaml

namespace Response

/-! ## `GenerateQuarantine` -/

/-- A number by `%d`. -/
def decimal : ℤ → List Char
  | .ofNat n => Nat.toDigits 10 n
  | .negSucc n => '-' :: Nat.toDigits 10 (n + 1)

/-- A number with leading zeros. -/
def pad (width n : ℕ) : List Char :=
  List.replicate (width - (Nat.toDigits 10 n).length) '0' ++ Nat.toDigits 10 n

/-- A time in UTC. -/
structure Time where
  year : ℕ
  month : ℕ
  day : ℕ
  hour : ℕ
  minute : ℕ
  second : ℕ

/-- `time.RFC3339` -/
def Time.rfc3339 (t : Time) : List Char :=
  pad 4 t.year ++ '-' :: (pad 2 t.month ++ '-' :: (pad 2 t.day ++ 'T' :: (pad 2 t.hour ++
    ':' :: (pad 2 t.minute ++ ':' :: (pad 2 t.second ++ ['Z'])))))

def isLabelChar (c : Char) : Bool :=
  (0x61 ≤ c.toNat && c.toNat ≤ 0x7a) || isDecimal c || c = '-'

/-- The name of a namespace: lower-case letters, digits and inner hyphens. -/
def IsLabel (s : List Char) : Prop :=
  s ≠ [] ∧ s.length ≤ 63 ∧ s.all isLabelChar = true ∧
    s.head? ≠ some '-' ∧ s.getLast? ≠ some '-'

instance (s : List Char) : Decidable (IsLabel s) := inferInstanceAs (Decidable (_ ∧ _))

structure Namespace where
  chars : List Char
  valid : IsLabel chars

/-- `DefaultQuarantineNamespace` -/
def defaultQuarantineNamespace : Namespace := ⟨"zt-targets".toList, by decide⟩

structure QuarantineRequest where
  incidentId : Int64
  sourceIp : List Char
  namespace_ : Option Namespace
  severity : List Char
  reason : List Char

namespace QuarantineRequest

variable (req : QuarantineRequest)

def namespaceOf : Namespace := req.namespace_.getD defaultQuarantineNamespace

def sourceOf : List Char := if req.sourceIp = [] then "0.0.0.0".toList else req.sourceIp

end QuarantineRequest

def policyName (incidentId : ℤ) : List Char := "zt-quarantine-incident-".toList ++ decimal incidentId

def labelKey (incidentId : ℤ) : List Char := "zt-soc-quarantine-".toList ++ decimal incidentId

/-- The comment in front of the policy. -/
def commentLines (now : Time) (req : QuarantineRequest) : List (List Char) :=
  let ns := req.namespaceOf.chars
  let id := req.incidentId.toInt
  ["# Generated by zt-soc/incident-service at ".toList ++ now.rfc3339,
    "# Incident: ".toList ++ (decimal id ++ ("  source: ".toList ++ (req.sourceOf ++
      ("  severity: ".toList ++ req.severity)))),
    "# Reason: ".toList ++ req.reason,
    "#".toList,
    "# Effect: denies ALL egress from the attacker Pod (IP ".toList ++ (req.sourceOf ++
      (", label ".toList ++ (labelKey id ++ "=true)".toList))),
    "# in namespace \"".toList ++ (ns ++ ("\". Reversible by `kubectl delete -n ".toList ++ (ns ++
      (" networkpolicy ".toList ++ (policyName id ++ "`.".toList)))))]

/-- The policy itself. -/
def policyLines (incidentId : ℤ) (ns : Namespace) : List (List Char) :=
  ["apiVersion: networking.k8s.io/v1".toList,
    "kind: NetworkPolicy".toList,
    "metadata:".toList,
    "  name: ".toList ++ policyName incidentId,
    "  namespace: ".toList ++ ns.chars,
    "  labels:".toList,
    "    app.kubernetes.io/managed-by: zt-soc".toList,
    "    zt-soc/incident-id: \"".toList ++ (decimal incidentId ++ "\"".toList),
    "spec:".toList,
    "  podSelector:".toList,
    "    matchLabels:".toList,
    "      ".toList ++ (labelKey incidentId ++
      ": \"true\"        # the offending pod, labelled by the enforcer".toList),
    "  policyTypes: [Egress]".toList,
    "  egress: []                    # deny ALL egress from the quarantined pod".toList]

def generateQuarantine (now : Time) (req : QuarantineRequest) : List Char :=
  unlines (commentLines now req ++ policyLines req.incidentId.toInt req.namespaceOf)

/-! ## The policy that is applied -/

/-- An egress rule without peers and ports, which allows everything. -/
inductive EgressRule where
  | any
  deriving DecidableEq, Repr

/-- The fields of a `NetworkPolicy`. -/
structure NetworkPolicy where
  apiVersion : List Char
  kind : List Char
  name : List Char
  namespace_ : List Char
  labels : List (List Char × List Char)
  podSelector : List (List Char × List Char)
  policyTypes : List (List Char)
  egress : List EgressRule
  deriving DecidableEq, Repr

section Decode

variable (plain : List Char → Option (List Char))

/-- A scalar for a field of type string. -/
def decodeScalar : Value → Option (List Char)
  | .plain w => plain w.chars
  | .quoted q => some q.chars
  | .seq _ => none

/-- A field of type string: an error on another type, and empty without a value. -/
def stringField (b : Block) (key : String) : Option (List Char) :=
  match b.get? key.toList with
  | none => some []
  | some (.value v) => decodeScalar plain v
  | some (.block .nil) => some []
  | some (.block _) => none

/-- A field whose value is an object. -/
def blockField (b : Block) (key : String) : Option Block :=
  match b.get? key.toList with
  | none => some .nil
  | some (.value _) => none
  | some (.block b) => some b

/-- A field whose value is a list. -/
def listField (b : Block) (key : String) : Option (List Item) :=
  match b.get? key.toList with
  | none => some []
  | some (.value (.seq items)) => some items
  | some (.value _) => none
  | some (.block .nil) => some []
  | some (.block _) => none

def stringMap : Block → Option (List (List Char × List Char))
  | .nil => some []
  | .field key v rest =>
    (decodeScalar plain v).bind fun s => (stringMap rest).map fun m => (key.chars, s) :: m
  | .nested key .nil rest => (stringMap rest).map fun m => (key.chars, []) :: m
  | .nested _ _ _ => none

def decodeString : Item → Option (List Char)
  | .word w => plain w.chars
  | .empty => none

def decodeRule : Item → Option EgressRule
  | .word _ => none
  | .empty => some .any

/-- The decoding of a mapping into a `NetworkPolicy`; what has no field is left out. -/
def decode (b : Block) : Option NetworkPolicy := do
  let metadata ← blockField b "metadata"
  let spec ← blockField b "spec"
  let selector ← blockField spec "podSelector"
  return {
    apiVersion := ← stringField plain b "apiVersion"
    kind := ← stringField plain b "kind"
    name := ← stringField plain metadata "name"
    namespace_ := ← stringField plain metadata "namespace"
    labels := ← stringMap plain (← blockField metadata "labels")
    podSelector := ← stringMap plain (← blockField selector "matchLabels")
    policyTypes := ← (← listField spec "policyTypes").mapM (decodeString plain)
    egress := ← (← listField spec "egress").mapM decodeRule }

end Decode

/-- What a field is for: a string, strings, objects, strings by their names, or an object with
fields of its own. -/
inductive Kind where
  | string
  | strings
  | objects
  | map
  | object (fields : List (String × Kind))

def kindOf (fields : List (String × Kind)) (key : Word) : Option Kind :=
  (fields.find? (·.1.toList = key.chars)).map (·.2)

/-- The value is one of the kind. -/
def IsOf : Value → Kind → Prop
  | .plain _, .string => True
  | .quoted _, .string => True
  | .seq items, .strings => ∀ a ∈ items, ∃ w, a = .word w
  | .seq items, .objects => ∀ a ∈ items, a = .empty
  | _, _ => False

/-- Every entry is a string, under a key that is short enough to be one. -/
def IsMap : Block → Prop
  | .nil => True
  | .field key v rest => key.chars.length ≤ 1024 ∧ IsOf v .string ∧ IsMap rest
  | .nested _ _ _ => False

/-- Every entry is one of the fields, by its name as it is spelled, and of its kind. -/
def Fits : Block → List (String × Kind) → Prop
  | .nil, _ => True
  | .field key v rest, fields => (∃ kind, kindOf fields key = some kind ∧ IsOf v kind) ∧ Fits rest fields
  | .nested key inner rest, fields =>
    (match kindOf fields key with
      | some .map => IsMap inner
      | some (.object inside) => Fits inner inside
      | _ => False) ∧ Fits rest fields

/-- The fields of a `NetworkPolicy` by their names in a text. -/
def policyFields : List (String × Kind) :=
  [("apiVersion", .string), ("kind", .string),
    ("metadata", .object [("name", .string), ("namespace", .string), ("labels", .map)]),
    ("spec", .object [("podSelector", .object [("matchLabels", .map)]),
      ("policyTypes", .strings), ("egress", .objects)])]

/-- `yaml.Unmarshal` into a `NetworkPolicy`, with what is documented of it.  `plain` is what a
plain scalar stands for in a field of type string. -/
structure Reader where
  unmarshal : List Char → Option NetworkPolicy
  plain : List Char → Option (List Char)
  plain_eq : ∀ {s}, IsText s → plain s = some s
  /-- A first document of fields of a `NetworkPolicy`, each of its type, is decoded field by
  field; comments do not count. -/
  unmarshal_eq : ∀ {text ls b}, content text = some ls → firstDocument ls = b.render →
    b ≠ .nil → b.Regular → Fits b policyFields → unmarshal text = decode plain b
  /-- A character that is not allowed is an error, where it is met before any content. -/
  unmarshal_of_not_printable : ∀ {front back}, remaining (lines front) = [] →
    front.all isPrintable = false → unmarshal (front ++ back) = none

inductive ApplyError where
  | parse
  | missing (name namespace_ : List Char)
  deriving DecidableEq, Repr

/-- `K8sApiApplier.Apply`: the policy that is created or updated. -/
def apply (R : Reader) (yamlBody : List Char) : Except ApplyError NetworkPolicy :=
  match R.unmarshal yamlBody with
  | none => .error .parse
  | some np =>
    if np.name = [] ∨ np.namespace_ = [] then .error (.missing np.name np.namespace_)
    else .ok np

/-- A literal of word characters. -/
def word (s : String) (hne : s.toList ≠ []) (hs : s.toList.all isWordChar = true) : Word :=
  ⟨s.toList, hne, hs⟩

/-- Digits may stand in a plain scalar. -/
theorem isWordChar_of_mem_toDigits {n : ℕ} {c : Char} (hc : c ∈ Nat.toDigits 10 n) :
    isWordChar c = true := by
  have hdigit := Nat.isDigit_of_mem_toDigits (by decide) (by decide) hc
  have hdecimal : isDecimal c = true := by
    unfold isDecimal
    rw [Bool.and_eq_true, decide_eq_true_eq, decide_eq_true_eq]
    exact Char.isDigit_iff_toNat.mp hdigit
  unfold isWordChar
  rw [hdecimal, Bool.or_true]
  rfl

/-- So may the characters of a number. -/
theorem isWordChar_of_mem_decimal {id : ℤ} {c : Char} (hc : c ∈ decimal id) :
    isWordChar c = true := by
  cases id with
  | ofNat n => exact isWordChar_of_mem_toDigits hc
  | negSucc n =>
    rcases List.mem_cons.mp hc with rfl | h
    · rfl
    · exact isWordChar_of_mem_toDigits h

/-- A number may follow in a plain scalar. -/
theorem all_isWordChar_append_decimal {s : List Char} (hs : s.all isWordChar = true) (id : ℤ) :
    (s ++ decimal id).all isWordChar = true := by
  rw [List.all_append, hs, List.all_eq_true.mpr fun c => isWordChar_of_mem_decimal]
  rfl

/-- The name of a policy is a string when it is not quoted. -/
theorem isText_policyName (id : ℤ) : IsText (policyName id) :=
  isText_of_hyphen rfl (all_isWordChar_append_decimal rfl id)
    (List.mem_append_left _ (by decide))

/-- The key of a label is a string when it is not quoted. -/
theorem isText_labelKey (id : ℤ) : IsText (labelKey id) :=
  isText_of_hyphen rfl (all_isWordChar_append_decimal rfl id)
    (List.mem_append_left _ (by decide))

def nameWord (id : ℤ) : Word :=
  ⟨policyName id, List.cons_ne_nil _ _, (isText_policyName id).2.1⟩

def labelWord (id : ℤ) : Word :=
  ⟨labelKey id, List.cons_ne_nil _ _, (isText_labelKey id).2.1⟩

/-- What may stand in a plain scalar may stand in quotes. -/
theorem isQuotedChar_of_isWordChar {c : Char} (hc : isWordChar c = true) :
    isQuotedChar c = true := by
  have hother : ∀ d, isWordChar d = false → c ≠ d := fun d hd heq =>
    Bool.eq_false_iff.mp hd (heq ▸ hc)
  unfold isQuotedChar
  rw [isLineChar_of_isWordChar hc, decide_eq_true (hother '"' (by decide)),
    decide_eq_true (hother '\\' (by decide))]
  rfl

def idQuoted (id : ℤ) : Quoted where
  chars := decimal id
  plain := List.all_eq_true.mpr fun _ hc =>
    isQuotedChar_of_isWordChar (isWordChar_of_mem_decimal hc)

def Namespace.word (ns : Namespace) : Word where
  chars := ns.chars
  nonempty := ns.valid.1
  plain := by
    refine List.all_eq_true.mpr fun c hc => ?_
    have hlabel := List.all_eq_true.mp ns.valid.2.2.1 c hc
    unfold isLabelChar at hlabel
    unfold isWordChar isLetter
    simp only [Bool.or_eq_true] at hlabel ⊢
    tauto

def labelsBlock (id : ℤ) : Block :=
  .field (word "app.kubernetes.io/managed-by" (by decide) rfl)
    (.plain (word "zt-soc" (by decide) rfl)) <|
  .field (word "zt-soc/incident-id" (by decide) rfl) (.quoted (idQuoted id)) .nil

def metadataBlock (id : ℤ) (ns : Namespace) : Block :=
  .field (word "name" (by decide) rfl) (.plain (nameWord id)) <|
  .field (word "namespace" (by decide) rfl) (.plain ns.word) <|
  .nested (word "labels" (by decide) rfl) (labelsBlock id) .nil

def matchBlock (id : ℤ) : Block :=
  .field (labelWord id) (.quoted ⟨"true".toList, by decide⟩) .nil

def specBlock (id : ℤ) : Block :=
  .nested (word "podSelector" (by decide) rfl)
    (.nested (word "matchLabels" (by decide) rfl) (matchBlock id) .nil) <|
  .field (word "policyTypes" (by decide) rfl)
    (.seq [.word (word "Egress" (by decide) rfl)]) <|
  .field (word "egress" (by decide) rfl) (.seq []) .nil

/-- The lines of the policy as one mapping. -/
def policyBlock (id : ℤ) (ns : Namespace) : Block :=
  .field (word "apiVersion" (by decide) rfl)
    (.plain (word "networking.k8s.io/v1" (by decide) rfl)) <|
  .field (word "kind" (by decide) rfl) (.plain (word "NetworkPolicy" (by decide) rfl)) <|
  .nested (word "metadata" (by decide) rfl) (metadataBlock id ns) <|
  .nested (word "spec" (by decide) rfl) (specBlock id) .nil

/-- The policy of an incident: all egress of the pod with its label is denied. -/
def policy (id : ℤ) (ns : List Char) : NetworkPolicy where
  apiVersion := "networking.k8s.io/v1".toList
  kind := "NetworkPolicy".toList
  name := policyName id
  namespace_ := ns
  labels := [("app.kubernetes.io/managed-by".toList, "zt-soc".toList),
    ("zt-soc/incident-id".toList, decimal id)]
  podSelector := [(labelKey id, "true".toList)]
  policyTypes := ["Egress".toList]
  egress := []

/-- The keys of the policy are strings, and no two in a mapping are equal. -/
theorem policyBlock_regular (id : ℤ) (ns : Namespace) : (policyBlock id ns).Regular := by
  have hlabel : IsText (labelWord id).chars := isText_labelKey id
  unfold policyBlock metadataBlock labelsBlock specBlock matchBlock
  simp only [Block.Regular, Block.keys, word, hlabel, List.not_mem_nil, not_false_eq_true]
  decide +kernel

/-- A number of 64 bits has at most 20 characters. -/
theorem length_decimal_le (id : Int64) : (decimal id.toInt).length ≤ 20 := by
  have hlt := id.toInt_lt
  have hle := id.le_toInt
  have hdigits : ∀ n : ℕ, n < 10 ^ 19 → (Nat.toDigits 10 n).length ≤ 19 := fun n hn =>
    (Nat.length_toDigits_le_iff (by decide) (by decide)).mpr hn
  cases hid : id.toInt with
  | ofNat n =>
    have hn : (n : ℤ) < 2 ^ 63 := hid.symm.trans_lt hlt
    exact (hdigits n (by omega)).trans (by decide)
  | negSucc n =>
    have hn : -2 ^ 63 ≤ Int.negSucc n := hle.trans_eq hid
    rw [decimal, List.length_cons]
    exact Nat.succ_le_succ (hdigits (n + 1) (by omega))

/-- The key of a label is that of a line. -/
theorem length_labelKey_le (id : Int64) : (labelKey id.toInt).length ≤ 1024 := by
  have hdigits := length_decimal_le id
  have hlength : (labelKey id.toInt).length =
      "zt-soc-quarantine-".toList.length + (decimal id.toInt).length := List.length_append
  have hstart : "zt-soc-quarantine-".toList.length = 18 := by decide
  omega

/-- The policy has only fields of a `NetworkPolicy`, each of its type. -/
theorem policyBlock_fits (id : Int64) (ns : Namespace) :
    Fits (policyBlock id.toInt ns) policyFields := by
  have hlabels : IsMap (labelsBlock id.toInt) :=
    ⟨by decide, trivial, by decide, trivial, trivial⟩
  have hmatch : IsMap (matchBlock id.toInt) := ⟨length_labelKey_le id, trivial, trivial⟩
  have hmetadata : Fits (metadataBlock id.toInt ns)
      [("name", .string), ("namespace", .string), ("labels", .map)] :=
    ⟨⟨.string, rfl, trivial⟩, ⟨.string, rfl, trivial⟩, hlabels, trivial⟩
  have htypes : ∀ a ∈ [Item.word (word "Egress" (by decide) rfl)], ∃ w, a = .word w :=
    List.forall_mem_singleton.mpr ⟨_, rfl⟩
  have hspec : Fits (specBlock id.toInt) [("podSelector", .object [("matchLabels", .map)]),
      ("policyTypes", .strings), ("egress", .objects)] :=
    ⟨⟨hmatch, trivial⟩, ⟨.strings, rfl, htypes⟩,
      ⟨.objects, rfl, fun _ ha => absurd ha List.not_mem_nil⟩, trivial⟩
  exact ⟨⟨.string, rfl, trivial⟩, ⟨.string, rfl, trivial⟩, hmetadata, hspec, trivial⟩

/-- The mapping decodes to the policy, in the namespace that the plain scalar stands
for. -/
theorem decode_policyBlock (R : Reader) (id : ℤ) (ns : Namespace) :
    decode R.plain (policyBlock id ns) = (R.plain ns.chars).map (policy id) := by
  -- every plain scalar but the namespace is a string
  have happly : stringField R.plain (policyBlock id ns) "apiVersion" =
      some "networking.k8s.io/v1".toList := R.plain_eq (by decide)
  have hkind : stringField R.plain (policyBlock id ns) "kind" = some "NetworkPolicy".toList :=
    R.plain_eq (by decide)
  have hname : stringField R.plain (metadataBlock id ns) "name" = some (policyName id) :=
    R.plain_eq (isText_policyName id)
  have hnamespace : stringField R.plain (metadataBlock id ns) "namespace" = R.plain ns.chars := rfl
  have hlabels : stringMap R.plain (labelsBlock id) = some (policy id ns.chars).labels := by
    have hsoc : R.plain "zt-soc".toList = some "zt-soc".toList := R.plain_eq (by decide)
    unfold labelsBlock stringMap
    change (R.plain "zt-soc".toList).bind _ = _
    rw [hsoc]
    rfl
  have htypes : [Item.word (word "Egress" (by decide) rfl)].mapM (decodeString R.plain) =
      some ["Egress".toList] := by
    have hegress : decodeString R.plain (.word (word "Egress" (by decide) rfl)) =
        some "Egress".toList := R.plain_eq (by decide)
    rw [List.mapM_cons, hegress]
    rfl
  have hmetadata : blockField (policyBlock id ns) "metadata" = some (metadataBlock id ns) := rfl
  have hspec : blockField (policyBlock id ns) "spec" = some (specBlock id) := rfl
  have hselector : blockField (specBlock id) "podSelector" =
      some (.nested (word "matchLabels" (by decide) rfl) (matchBlock id) .nil) := rfl
  have hlabelsField : blockField (metadataBlock id ns) "labels" = some (labelsBlock id) := rfl
  have hmatchField : blockField (.nested (word "matchLabels" (by decide) rfl) (matchBlock id) .nil)
      "matchLabels" = some (matchBlock id) := rfl
  have hmatch : stringMap R.plain (matchBlock id) = some [(labelKey id, "true".toList)] := rfl
  have htypesField : listField (specBlock id) "policyTypes" =
      some [.word (word "Egress" (by decide) rfl)] := rfl
  have hrules : listField (specBlock id) "egress" = some [] := rfl
  unfold decode
  simp only [Option.bind_eq_bind, Option.bind_some, hmetadata, hspec, hselector, happly, hkind,
    hname, hnamespace, hlabelsField, hlabels, hmatchField, hmatch, htypesField, htypes, hrules]
  cases R.plain ns.chars with
  | none => rfl
  | some s => rfl

/-! ## The text of the policy -/

/-- The comments behind the lines of the policy. -/
def policyComments : List (List Char) :=
  [[], [], [], [], [], [], [], [], [], [], [],
    "        # the offending pod, labelled by the enforcer".toList, [],
    "                    # deny ALL egress from the quarantined pod".toList]

/-- The comments behind the lines are ones that are dropped. -/
theorem isTrailing_of_mem {s : List Char} (hs : s ∈ policyComments) : IsTrailing s := by
  have htame : ∀ s ∈ policyComments, Tame s := by decide +kernel
  have hcases : ∀ s ∈ policyComments, s = [] ∨
      s = "        # the offending pod, labelled by the enforcer".toList ∨
      s = "                    # deny ALL egress from the quarantined pod".toList := by decide +kernel
  refine ⟨htame s hs, ?_⟩
  rcases hcases s hs with rfl | rfl | rfl
  · exact Or.inl rfl
  · exact Or.inr ⟨7, _, rfl⟩
  · exact Or.inr ⟨19, _, rfl⟩

/-- A line whose value is a plain scalar. -/
theorem text_plain {start : List Char} {n : ℕ} {key : Word}
    (hstart : start = List.replicate n ' ' ++ (key.chars ++ [':', ' '])) (w : Word) :
    start ++ w.chars = Line.text ⟨n, key, some (.plain w)⟩ := by
  rw [hstart, List.append_assoc, List.append_assoc]
  rfl

/-- A line whose value is in quotes. -/
theorem text_quoted {start : List Char} {n : ℕ} {key : Word}
    (hstart : start = List.replicate n ' ' ++ (key.chars ++ [':', ' ', '"'])) (q : Quoted) :
    start ++ (q.chars ++ ['"']) = Line.text ⟨n, key, some (.quoted q)⟩ := by
  rw [hstart, List.append_assoc, List.append_assoc]
  rfl

/-- The line of the label, and the comment behind it. -/
theorem labelLine_eq (id : ℤ) :
    "      ".toList ++ (labelKey id ++
        ": \"true\"        # the offending pod, labelled by the enforcer".toList) =
      Line.text ⟨6, labelWord id, some (.quoted ⟨"true".toList, by decide⟩)⟩ ++
        "        # the offending pod, labelled by the enforcer".toList := by
  have hindent : "      ".toList = List.replicate 6 ' ' := by decide +kernel
  have hrest : ": \"true\"        # the offending pod, labelled by the enforcer".toList =
      ':' :: ' ' :: Value.text (.quoted ⟨"true".toList, by decide⟩) ++
        "        # the offending pod, labelled by the enforcer".toList := by decide +kernel
  rw [hindent, hrest, ← List.append_assoc, ← List.append_assoc]
  rfl

/-- The lines are those of the mapping, with comments behind two of them. -/
theorem policyLines_eq (id : ℤ) (ns : Namespace) :
    policyLines id ns = annotate ((policyBlock id ns).lines 0) policyComments := by
  have hname : "  name: ".toList ++ policyName id =
      Line.text ⟨2, word "name" (by decide) rfl, some (.plain (nameWord id))⟩ :=
    text_plain (by decide) (nameWord id)
  have hnamespace : "  namespace: ".toList ++ ns.chars =
      Line.text ⟨2, word "namespace" (by decide) rfl, some (.plain ns.word)⟩ :=
    text_plain (by decide) ns.word
  have hid : "    zt-soc/incident-id: \"".toList ++ (decimal id ++ "\"".toList) =
      Line.text ⟨4, word "zt-soc/incident-id" (by decide) rfl, some (.quoted (idQuoted id))⟩ :=
    text_quoted (by decide) (idQuoted id)
  have happend : ∀ l : Line, l.text ++ [] = l.text := fun l => List.append_nil _
  unfold policyLines
  rw [hname, hnamespace, hid, labelLine_eq]
  change _ = annotate [_, _, _, _, _, _, _, _, _, _, _, _, _, _] _
  simp only [annotate, policyComments, List.zipWith_cons_cons, happend]
  refine congrArg₂ List.cons ?_ <| congrArg₂ List.cons ?_ <| congrArg₂ List.cons ?_ <|
    congrArg₂ List.cons rfl <| congrArg₂ List.cons rfl <| congrArg₂ List.cons ?_ <|
    congrArg₂ List.cons ?_ <| congrArg₂ List.cons rfl <| congrArg₂ List.cons ?_ <|
    congrArg₂ List.cons ?_ <| congrArg₂ List.cons ?_ <| congrArg₂ List.cons rfl <|
    congrArg₂ List.cons ?_ <| congrArg₂ List.cons ?_ rfl
  all_goals decide +kernel

/-! ## The comment in front of the policy -/

/-- The characters of plain scalars may stand in a line. -/
theorem tame_of_isWordChar {s : List Char} (h : ∀ c ∈ s, isWordChar c = true) : Tame s :=
  tame_of_isLineChar fun c hc => isLineChar_of_isWordChar (h c hc)

/-- A plain scalar may stand in a line. -/
theorem tame_word (w : Word) : Tame w.chars := tame_of_isWordChar fun _ => w.isWordChar_of_mem

/-- A number may stand in a line. -/
theorem tame_decimal (id : ℤ) : Tame (decimal id) :=
  tame_of_isWordChar fun _ => isWordChar_of_mem_decimal

/-- The name of a policy may stand in a line. -/
theorem tame_policyName (id : ℤ) : Tame (policyName id) := tame_word (nameWord id)

/-- The key of a label may stand in a line. -/
theorem tame_labelKey (id : ℤ) : Tame (labelKey id) := tame_word (labelWord id)

/-- A padded number may stand in a line. -/
theorem tame_pad (width n : ℕ) : Tame (pad width n) := by
  refine tame_of_isWordChar fun c hc => ?_
  rcases List.mem_append.mp hc with h | h
  · rw [List.eq_of_mem_replicate h]
    rfl
  · exact isWordChar_of_mem_toDigits h

/-- A time may stand in a line. -/
theorem tame_rfc3339 (t : Time) : Tame t.rfc3339 := by
  have hcons : ∀ {c : Char} {s : List Char}, Tame [c] → Tame s → Tame (c :: s) :=
    fun hc hs => Tame.append hc hs
  unfold Time.rfc3339
  refine (tame_pad 4 t.year).append (hcons (by decide) ?_)
  refine (tame_pad 2 t.month).append (hcons (by decide) ?_)
  refine (tame_pad 2 t.day).append (hcons (by decide) ?_)
  refine (tame_pad 2 t.hour).append (hcons (by decide) ?_)
  refine (tame_pad 2 t.minute).append (hcons (by decide) ?_)
  exact (tame_pad 2 t.second).append (by decide)

/-- The texts of an alert stay in the comment: no line break of the source is followed by
anything but comments, with the last line a comment, and no line break of the severity or
the reason by anything but comments and blank lines. -/
structure QuarantineRequest.Quiet (req : QuarantineRequest) : Prop where
  source : skip .comment req.sourceIp = some .comment
  severity : (skip .comment req.severity).isSome = true
  reason : (skip .comment req.reason).isSome = true

/-- All characters of the texts of an alert are allowed in YAML. -/
structure QuarantineRequest.Printable (req : QuarantineRequest) : Prop where
  source : req.sourceIp.all isPrintable = true
  severity : req.severity.all isPrintable = true
  reason : req.reason.all isPrintable = true

/-- The address that stands for an empty source stays in the comment. -/
theorem skip_sourceOf (req : QuarantineRequest) :
    skip .comment req.sourceOf = some .comment ↔ skip .comment req.sourceIp = some .comment := by
  unfold QuarantineRequest.sourceOf
  split_ifs with h
  · rw [h]
    exact iff_of_true (by decide) rfl
  · exact Iff.rfl

/-- The address that stands for an empty source is printable. -/
theorem all_sourceOf (req : QuarantineRequest) :
    req.sourceOf.all isPrintable = req.sourceIp.all isPrintable := by
  unfold QuarantineRequest.sourceOf
  split_ifs with h
  · rw [h]
    decide +kernel
  · rfl

/-- The comment lines leave nothing exactly when the texts of the alert are quiet. -/
theorem remaining_commentLines (now : Time) (req : QuarantineRequest) :
    ((commentLines now req).flatMap fun line => remaining (lines line)) = [] ↔ req.Quiet := by
  have hgenerated : remaining (lines
      ("# Generated by zt-soc/incident-service at ".toList ++ now.rfc3339)) = [] := by
    rw [remaining_comment_eq_nil_iff (by decide) (by decide),
      skip_comment_of_tame (tame_rfc3339 now)]
    rfl
  have hincident : remaining (lines ("# Incident: ".toList ++ (decimal req.incidentId.toInt ++
      ("  source: ".toList ++ (req.sourceOf ++ ("  severity: ".toList ++ req.severity)))))) = [] ↔
      skip .comment req.sourceIp = some .comment ∧
        (skip .comment req.severity).isSome = true := by
    rw [remaining_comment_eq_nil_iff (by decide) (by decide),
      skip_comment_append (tame_decimal _), skip_comment_append (by decide),
      skip_followed_isSome_iff (by decide) (by decide) (by decide), skip_sourceOf]
  have hreason : remaining (lines ("# Reason: ".toList ++ req.reason)) = [] ↔
      (skip .comment req.reason).isSome = true :=
    remaining_comment_eq_nil_iff (by decide) (by decide) _
  have heffect : remaining (lines ("# Effect: denies ALL egress from the attacker Pod (IP ".toList ++
      (req.sourceOf ++ (", label ".toList ++ (labelKey req.incidentId.toInt ++ "=true)".toList))))) = [] ↔
      skip .comment req.sourceIp = some .comment := by
    have hrest : (skip .comment (labelKey req.incidentId.toInt ++ "=true)".toList)).isSome = true := by
      rw [skip_comment_append (tame_labelKey _)]
      decide
    rw [remaining_comment_eq_nil_iff (by decide) (by decide),
      skip_followed_isSome_iff (by decide) (by decide) (by decide), skip_sourceOf,
      and_iff_left hrest]
  have hhash : remaining (lines "#".toList) = [] := by decide
  have hnamespace : remaining (lines ("# in namespace \"".toList ++ (req.namespaceOf.chars ++
      ("\". Reversible by `kubectl delete -n ".toList ++ (req.namespaceOf.chars ++
      (" networkpolicy ".toList ++ (policyName req.incidentId.toInt ++ "`.".toList))))))) = [] := by
    have hns : Tame req.namespaceOf.chars := tame_word req.namespaceOf.word
    rw [remaining_comment_eq_nil_iff (by decide) (by decide), skip_comment_append hns,
      skip_comment_append (by decide), skip_comment_append hns,
      skip_comment_append (by decide), skip_comment_append (tame_policyName _)]
    decide
  -- the lines that show no text of the alert leave nothing
  unfold commentLines
  dsimp only
  simp only [List.flatMap_cons, List.flatMap_nil, hgenerated, hhash, hnamespace, List.nil_append,
    List.append_nil, List.append_eq_nil_iff, hincident, hreason, heffect]
  constructor
  · rintro ⟨⟨hsource, hseverity⟩, hquiet, -⟩
    exact ⟨hsource, hseverity, hquiet⟩
  · rintro ⟨hsource, hseverity, hquiet⟩
    exact ⟨⟨hsource, hseverity⟩, hquiet, hsource⟩

/-- The comment is printable exactly when the texts of the alert are. -/
theorem all_commentLines (now : Time) (req : QuarantineRequest) :
    ((commentLines now req).all fun line => line.all isPrintable) = true ↔ req.Printable := by
  have hns : Tame req.namespaceOf.chars := tame_word req.namespaceOf.word
  unfold commentLines
  dsimp only
  simp only [List.all_cons, List.all_nil, List.all_append, Bool.and_true, Bool.and_eq_true,
    (tame_rfc3339 now).all, (tame_decimal _).all, (tame_labelKey _).all, (tame_policyName _).all,
    hns.all, all_sourceOf]
  constructor
  · rintro ⟨-, ⟨-, -, -, hsource, -, hseverity⟩, ⟨-, hreason⟩, -⟩
    exact ⟨hsource, hseverity, hreason⟩
  · rintro ⟨hsource, hseverity, hreason⟩
    exact ⟨by decide, ⟨by decide, trivial, by decide, hsource, by decide, hseverity⟩,
      ⟨by decide, hreason⟩, by decide, ⟨by decide, hsource, by decide, trivial, by decide⟩,
      by decide, trivial, by decide, trivial, by decide, trivial, by decide⟩

/-! ## What is left of the text -/

/-- Of the lines of the policy, the comments behind them are dropped. -/
theorem flatMap_remaining_policyLines (id : ℤ) (ns : Namespace) :
    ((policyLines id ns).flatMap fun line => remaining (lines line)) = (policyBlock id ns).render := by
  rw [policyLines_eq]
  exact flatMap_remaining_annotate (Nat.le_refl 14) fun _ => isTrailing_of_mem

/-- The content of the text: what the comment leaves, and the policy. -/
theorem content_generateQuarantine (now : Time) {req : QuarantineRequest} (h : req.Printable) :
    content (generateQuarantine now req) =
      some (((commentLines now req).flatMap fun line => remaining (lines line)) ++
        (policyBlock req.incidentId.toInt req.namespaceOf).render) := by
  have hprintable : (generateQuarantine now req).all isPrintable = true := by
    unfold generateQuarantine
    rw [all_unlines isPrintable rfl, List.all_append, (all_commentLines now req).mpr h,
      policyLines_eq, all_isPrintable_annotate fun _ => isTrailing_of_mem]
    rfl
  unfold content
  rw [if_pos hprintable]
  unfold generateQuarantine
  rw [remaining_unlines, List.flatMap_append, flatMap_remaining_policyLines]

/-- A text that has a content is printable. -/
theorem printable_of_content {now : Time} {req : QuarantineRequest} {ls : List (List Char)}
    (h : content (generateQuarantine now req) = some ls) : req.Printable := by
  unfold content at h
  split_ifs at h with hprintable
  unfold generateQuarantine at hprintable
  rw [all_unlines isPrintable rfl, List.all_append, Bool.and_eq_true] at hprintable
  exact (all_commentLines now req).mp hprintable.1

/-- Nothing but the policy is left exactly when the texts of the alert are allowed and
stay in the comment. -/
theorem content_eq_render_iff (now : Time) (req : QuarantineRequest) :
    content (generateQuarantine now req) =
        some (policyBlock req.incidentId.toInt req.namespaceOf).render ↔
      req.Printable ∧ req.Quiet := by
  constructor
  · intro h
    have hprintable := printable_of_content h
    rw [content_generateQuarantine now hprintable] at h
    -- the lines of the policy are last, so nothing stands before them
    have hempty := List.append_left_eq_self.mp (Option.some.inj h)
    exact ⟨hprintable, (remaining_commentLines now req).mp hempty⟩
  · rintro ⟨hprintable, hquiet⟩
    rw [content_generateQuarantine now hprintable, (remaining_commentLines now req).mpr hquiet,
      List.nil_append]

/-! ## The policy that the text denotes -/

/-- Once comments are dropped, the text is the policy of the incident and nothing else. -/
def HasPolicyOnly (text : List Char) (id : Int64) (ns : Namespace) : Prop :=
  content text = some (policyBlock id.toInt ns).render

/-- The policy of the incident is the one that is applied. -/
def Applies (R : Reader) (text : List Char) (id : Int64) (ns : Namespace) : Prop :=
  apply R text = .ok (policy id.toInt ns.chars)

/-- A text with the policy alone is applied as the policy, if the namespace stands for
itself. -/
theorem applies_iff_of_policyOnly (R : Reader) {text : List Char} {id : Int64} {ns : Namespace}
    (h : HasPolicyOnly text id ns) : Applies R text id ns ↔ R.plain ns.chars = some ns.chars := by
  have hread : R.unmarshal text = (R.plain ns.chars).map (policy id.toInt) := by
    rw [R.unmarshal_eq h (firstDocument_render _) (fun heq => nomatch heq)
      (policyBlock_regular id.toInt ns) (policyBlock_fits id ns), decode_policyBlock]
  have hname : ∀ s, (policy id.toInt s).name ≠ [] := fun s => List.cons_ne_nil _ _
  unfold Applies apply
  rw [hread]
  cases hplain : R.plain ns.chars with
  | none => exact iff_of_false (fun heq => nomatch heq) fun heq => nomatch heq
  | some s =>
    rw [Option.map_some]
    dsimp only
    constructor
    · -- the policy that is applied tells what the namespace stands for
      intro hok
      split_ifs at hok
      have heq := congrArg NetworkPolicy.namespace_ (Except.ok.inj hok)
      exact congrArg some heq
    · intro heq
      obtain rfl := Option.some.inj heq
      exact if_neg (not_or.mpr ⟨hname _, ns.valid.1⟩)

/-- A character of the alert that is not allowed is met in the comment. -/
theorem unmarshal_of_not_printable (R : Reader) (now : Time) {req : QuarantineRequest}
    (hquiet : req.Quiet) (h : ¬ req.Printable) :
    R.unmarshal (generateQuarantine now req) = none := by
  have hcomment : remaining (lines (unlines (commentLines now req))) = [] := by
    rw [remaining_unlines]
    exact (remaining_commentLines now req).mpr hquiet
  have hall : (unlines (commentLines now req)).all isPrintable = false := by
    rw [all_unlines isPrintable rfl]
    exact Bool.eq_false_iff.mpr fun hall => h ((all_commentLines now req).mp hall)
  have happend : generateQuarantine now req = unlines (commentLines now req) ++
      unlines (policyLines req.incidentId.toInt req.namespaceOf) := List.flatMap_append
  rw [happend]
  exact R.unmarshal_of_not_printable hcomment hall

/-- For texts that stay in the comments, the policy is applied exactly when their characters are
allowed and the namespace stands for itself. -/
theorem applies_iff_of_quiet (R : Reader) (now : Time) {req : QuarantineRequest}
    (hquiet : req.Quiet) :
    Applies R (generateQuarantine now req) req.incidentId req.namespaceOf ↔
      req.Printable ∧ R.plain req.namespaceOf.chars = some req.namespaceOf.chars := by
  by_cases hprintable : req.Printable
  · rw [and_iff_right hprintable]
    exact applies_iff_of_policyOnly R ((content_eq_render_iff now req).mpr ⟨hprintable, hquiet⟩)
  · refine iff_of_false (fun happlies => ?_) fun h => hprintable h.1
    unfold Applies apply at happlies
    rw [unmarshal_of_not_printable R now hquiet hprintable] at happlies
    cases happlies

/-- The default namespace stands for itself. -/
theorem plain_defaultNamespace (R : Reader) : R.plain defaultQuarantineNamespace.chars =
    some defaultQuarantineNamespace.chars := R.plain_eq (by decide)

/-- Without a namespace, as the subscriber asks, texts that are allowed and stay in the comments
change nothing. -/
theorem applies_default (R : Reader) (now : Time) {req : QuarantineRequest}
    (h : req.namespace_ = none) (hquiet : req.Quiet) (hprintable : req.Printable) :
    Applies R (generateQuarantine now req) req.incidentId defaultQuarantineNamespace := by
  have hdefault : req.namespaceOf = defaultQuarantineNamespace := by
    unfold QuarantineRequest.namespaceOf
    rw [h]
    rfl
  have hiff := applies_iff_of_quiet R now hquiet
  rw [hdefault] at hiff
  exact hiff.mpr ⟨hprintable, plain_defaultNamespace R⟩

end Response
