/-
# Objects read member by member

`members?` cuts the text of an object into the names and the texts of its members, and
`unmarshal` reads an object into a record: a member is handed to the field of its name,
exact or without regard to case, and other members are passed over.  An object printed
member by member is read as it was printed (`unmarshal_printObject`).
-/
import ZtMapper.Lib.Json

namespace Json

/-! ## The members of a text -/

/-- The text of the value at the front, and the text after it. -/
def valueText (s : List Char) : Option (List Char × List Char) :=
  (parse (2 * s.length + 1) .value s).map fun r => (s.take (s.length - r.2.length), r.2)

/-- The members from here on, up to the closing brace. -/
def rawMembers : ℕ → List Char → Option (List (String × List Char))
  | 0, _ => none
  | n + 1, s => do
    let (k, rest) ← scanKey s
    let (t, rest) ← valueText (skipWs rest)
    match skipWs rest with
    | ',' :: rest => (rawMembers n rest).map ((k, t) :: ·)
    | '\x7d' :: _ => some [(k, t)]
    | _ => none

/-- The names and the texts of the members of an object, in their order. -/
def members? (s : List Char) : Option (List (String × List Char)) :=
  match decode s with
  | some (.obj []) => some []
  | some (.obj _) => rawMembers s.length (skipWs s).tail
  | _ => none

/-! ## Reading a record -/

/-- A name without regard to case.  Two characters outside of ASCII fold to a letter. -/
def foldChar (c : Char) : Char :=
  if c = '\u017F' then 'S' else if c = '\u212A' then 'K' else c.toUpper

def foldName (k : String) : List Char := k.toList.map foldChar

variable {α : Type*}

/-- The fields of a record: a name, and how the field is set from the text of a value, which
fails on a value that the field cannot take. -/
abbrev Fields (α : Type*) := List (String × (α → List Char → Option α))

/-- The field that a member belongs to. -/
def Fields.named (fields : Fields α) (k : String) : Option (α → List Char → Option α) :=
  fields.lookup k <|> (fields.find? fun f => foldName f.1 = foldName k).map (·.2)

/-- Set the field of a member, if there is one. -/
def Fields.set (fields : Fields α) (a : α) (k : String) (t : List Char) : Option α :=
  match fields.named k with
  | some set => set a t
  | none => some a

/-- Read an object into a record, member by member.  `null` leaves the record as it is. -/
def unmarshal (fields : Fields α) (a : α) (s : List Char) : Option α :=
  match decode s with
  | some .null => some a
  | some (.obj _) => (members? s).bind fun ms => ms.foldlM (fun a m => fields.set a m.1 m.2) a
  | _ => none

/-! ## Values of fields -/

/-- A string; `null` leaves the field as it is. -/
def string? (old : String) (t : List Char) : Option String :=
  match decode t with
  | some (.str s) => some s
  | some .null => some old
  | _ => none

def bool? (old : Bool) (t : List Char) : Option Bool :=
  match decode t with
  | some (.bool b) => some b
  | some .null => some old
  | _ => none

/-- The decimal numeral of an integer. -/
def integer? : List Char → Option ℤ
  | '-' :: t => (digits? t).map fun n => -(n : ℤ)
  | t => (digits? t).map fun n => (n : ℤ)

/-- A number that is written as an integer of 64 bits. -/
def int64? (old : Int64) (t : List Char) : Option Int64 :=
  match decode t with
  | some (.num _ _) => (integer? t).bind fun z =>
      if Int64.minValue.toInt ≤ z ∧ z ≤ Int64.maxValue.toInt then some (Int64.ofInt z) else none
  | some .null => some old
  | _ => none

/-- An element of an array of strings; `null` is the empty string. -/
def element? : Value → Option String
  | .str s => some s
  | .null => some ""
  | _ => none

def strings? (t : List Char) : Option (List String) :=
  match decode t with
  | some (.arr vs) => vs.mapM element?
  | some .null => some []
  | _ => none

/-! ## Kinds of fields -/

def stringField (get : α → String) (put : α → String → α) (a : α) (t : List Char) : Option α :=
  (string? (get a) t).map (put a)

def boolField (get : α → Bool) (put : α → Bool → α) (a : α) (t : List Char) : Option α :=
  (bool? (get a) t).map (put a)

def int64Field (get : α → Int64) (put : α → Int64 → α) (a : α) (t : List Char) : Option α :=
  (int64? (get a) t).map (put a)

def stringsField (put : α → List String → α) (a : α) (t : List Char) : Option α :=
  (strings? t).map (put a)

/-- A value that is kept as its text. -/
def rawField (put : α → String → α) (a : α) (t : List Char) : Option α :=
  some (put a (String.ofList t))

/-- A record of its own, which `null` takes away. -/
def recordField {β : Type*} (get : α → Option β) (put : α → Option β → α) (fields : Fields β)
    (zero : β) (a : α) (t : List Char) : Option α :=
  match decode t with
  | some .null => some (put a none)
  | _ => (unmarshal fields ((get a).getD zero) t).map fun b => put a (some b)

/-! ## Printed objects -/

/-- A member as it is printed. -/
def memberText (m : String × List Char) : List Char := '"' :: (m.1.toList ++ '"' :: ':' :: m.2)

def printObject (ms : List (String × List Char)) : List Char :=
  '\x7b' :: ([','].intercalate (ms.map memberText) ++ ['\x7d'])

/-- A string that is left out when it is empty. -/
def unlessEmpty (k : String) (f : String → List Char) (s : String) :
    List (String × List Char × Value) :=
  if s = "" then [] else [(k, f s, .str s)]

/-- A list of strings that is left out when it is empty. -/
def unlessNil (k : String) (f : List String → List Char) (ss : List String) :
    List (String × List Char × Value) :=
  if ss = [] then [] else [(k, f ss, .arr (ss.map .str))]

/-- A text of the value `v` that is left out when it is empty. -/
def unlessBlank (k : String) (f : List Char → List Char) (s : String) (v : Value) :
    List (String × List Char × Value) :=
  if s = "" then [] else [(k, f s.toList, v)]

/-- The text `t` under the name `k` is that of a value. -/
structure IsMember (k : String) (t : List Char) (v : Value) : Prop where
  plain : k.toList.all isPlain = true
  denotes : Denotes .value t v

variable {items : List (String × List Char × Value)} {k : String} {t : List Char} {v : Value}

/-- A plain name in quotes is the name of a member. -/
theorem IsMember.keyText (h : IsMember k t v) : KeyText ('"' :: (k.toList ++ ['"', ':'])) k := by
  obtain ⟨ps, hps, hk⟩ := exists_charsText_of_all h.plain
  have hkey := keyText_quoted hps
  rwa [hk, String.ofList_toList] at hkey

/-- A printed member is its name, a colon and its value. -/
theorem memberText_eq (k : String) (t : List Char) :
    memberText (k, t) = '"' :: (k.toList ++ ['"', ':']) ++ t := by
  simp [memberText]

/-- A printed member is one of the grammar. -/
theorem IsMember.memberText (h : IsMember k t v) : MemberText (memberText (k, t)) (k, v) :=
  ⟨_, t, memberText_eq k t, h.keyText, h.denotes.isText⟩

/-- A member that is left out when its string is empty. -/
theorem isMember_unlessEmpty {f : String → List Char} {s : String}
    (h : IsMember k (f s) (.str s)) : ∀ i ∈ unlessEmpty k f s, IsMember i.1 i.2.1 i.2.2 := by
  rw [unlessEmpty]
  split_ifs
  · exact List.forall_mem_nil _
  · exact List.forall_mem_singleton.mpr h

/-- A member that is left out when its list is empty. -/
theorem isMember_unlessNil {f : List String → List Char} {ss : List String}
    (h : IsMember k (f ss) (.arr (ss.map .str))) :
    ∀ i ∈ unlessNil k f ss, IsMember i.1 i.2.1 i.2.2 := by
  rw [unlessNil]
  split_ifs
  · exact List.forall_mem_nil _
  · exact List.forall_mem_singleton.mpr h

/-- A member that is left out when its raw text is empty. -/
theorem isMember_unlessBlank {f : List Char → List Char} {s : String}
    (h : s ≠ "" → IsMember k (f s.toList) v) :
    ∀ i ∈ unlessBlank k f s v, IsMember i.1 i.2.1 i.2.2 := by
  rw [unlessBlank]
  split_ifs with hs
  · exact List.forall_mem_nil _
  · exact List.forall_mem_singleton.mpr (h hs)

/-- **An object printed member by member** denotes its members. -/
theorem denotes_printObject (h : ∀ i ∈ items, IsMember i.1 i.2.1 i.2.2) :
    Denotes .value (printObject (items.map fun i => (i.1, i.2.1)))
      (.obj (items.map fun i => (i.1, i.2.2))) := by
  cases hitems : items with
  | nil => exact .emptyObject blank_nil
  | cons i rest =>
    have hmembers := denotes_members (items.map fun i => (Json.memberText (i.1, i.2.1), i.1, i.2.2))
      (by simp [hitems]) (List.forall_mem_map.mpr fun i hi => (h i hi).memberText)
    rw [List.map_map, List.map_map] at hmembers
    rw [← hitems]
    have hobject := Denotes.object hmembers
    rwa [printObject, List.map_map]

/-! ## Reading what was printed -/

/-- The text of a value is cut off from what follows. -/
theorem valueText_append (h : Denotes .value t v) {rest : List Char} (hrest : Follows .value rest) :
    valueText (t ++ rest) = some (t, rest) := by
  have hcost : Goal.value.cost t < 2 * (t ++ rest).length + 1 := by
    simp only [Goal.cost, List.length_append]
    omega
  have hparse := h.parse hcost hrest
  rw [Goal.close, List.nil_append] at hparse
  rw [valueText, hparse, Option.map_some, List.length_append, Nat.add_sub_cancel,
    List.take_left]

/-- One member, and what follows it. -/
theorem rawMembers_memberText (h : IsMember k t v) {c : Char} (hc : c = ',' ∨ c = '\x7d') (n : ℕ)
    (rest : List Char) : rawMembers (n + 1) (memberText (k, t) ++ c :: rest) =
      if c = ',' then (rawMembers n rest).map ((k, t) :: ·) else some [(k, t)] := by
  obtain ⟨b, s, hcons, hb, -⟩ := h.denotes.exists_cons
  have hdelim : isDelim c = true := by rcases hc with rfl | rfl <;> decide
  have hskip : skipWs (t ++ c :: rest) = t ++ c :: rest := by
    rw [hcons]
    exact skipWs_append_cons blank_nil hb _
  have hnext : skipWs (c :: rest) = c :: rest :=
    skipWs_append_cons blank_nil (by rcases hc with rfl | rfl <;> decide) rest
  rw [rawMembers, memberText_eq, List.append_assoc, scanKey_append h.keyText, Option.bind_eq_bind,
    Option.bind_some]
  dsimp only
  have hfollows : Follows .value (c :: rest) := follows_append_cons blank_nil hdelim rest
  rw [hskip, valueText_append h.denotes hfollows, Option.bind_eq_bind, Option.bind_some]
  dsimp only
  rw [hnext]
  rcases hc with rfl | rfl
  · rfl
  · rfl

/-- The members of a printed object, each with the text of its value. -/
theorem rawMembers_printed (hne : items ≠ []) (h : ∀ i ∈ items, IsMember i.1 i.2.1 i.2.2) {n : ℕ}
    (hn : items.length ≤ n) :
    rawMembers n ([','].intercalate ((items.map fun i => (i.1, i.2.1)).map memberText) ++ ['\x7d']) =
      some (items.map fun i => (i.1, i.2.1)) := by
  induction items generalizing n with
  | nil => exact absurd rfl hne
  | cons i items ih =>
    rw [List.forall_mem_cons] at h
    cases n with
    | zero => exact absurd hn (Nat.not_succ_le_zero _)
    | succ n =>
      cases items with
      | nil =>
        simp only [List.map_cons, List.map_nil, List.intercalate_singleton]
        exact rawMembers_memberText h.1 (Or.inr rfl) n []
      | cons j items =>
        have hrest := ih (List.cons_ne_nil _ _) h.2 (Nat.le_of_succ_le_succ hn)
        simp only [List.map_cons, List.intercalate_cons_cons, List.append_assoc,
          List.cons_append, List.nil_append] at hrest ⊢
        rw [rawMembers_memberText h.1 (Or.inl rfl), if_pos rfl, hrest, Option.map_some]

/-- Every member takes at least one character. -/
theorem length_le_intercalate (ms : List (String × List Char)) :
    ms.length ≤ ([','].intercalate (ms.map memberText)).length := by
  induction ms with
  | nil => exact Nat.zero_le _
  | cons m ms ih =>
    cases ms with
    | nil => exact Nat.succ_le_succ (Nat.zero_le _)
    | cons m' ms =>
      rw [List.map_cons, List.map_cons, List.intercalate_cons_cons, ← List.map_cons,
        List.length_append, List.length_append, List.length_cons]
      simp only [List.length_singleton]
      omega

/-- **A printed object is cut into the members it was printed from.** -/
theorem members?_printObject (h : ∀ i ∈ items, IsMember i.1 i.2.1 i.2.2) :
    members? (printObject (items.map fun i => (i.1, i.2.1))) =
      some (items.map fun i => (i.1, i.2.1)) := by
  have hdecode := decode_eq_some_iff.mpr (denotes_printObject h).isText
  cases hitems : items with
  | nil => rfl
  | cons i rest =>
    rw [members?, ← hitems, hdecode]
    have hskip : skipWs (printObject (items.map fun i => (i.1, i.2.1))) =
        printObject (items.map fun i => (i.1, i.2.1)) := skipWs_append_cons blank_nil (by decide) _
    have hlength : items.length ≤ (printObject (items.map fun i => (i.1, i.2.1))).length := by
      have hlist := length_le_intercalate (items.map fun i => (i.1, i.2.1))
      rw [List.length_map] at hlist
      rw [printObject, List.length_cons, List.length_append]
      omega
    rw [hskip]
    subst hitems
    exact rawMembers_printed (List.cons_ne_nil _ _) h hlength

variable {fields : Fields α} {a : α}

/-- **A printed object is read** by setting the field of every member. -/
theorem unmarshal_printObject (h : ∀ i ∈ items, IsMember i.1 i.2.1 i.2.2) :
    unmarshal fields a (printObject (items.map fun i => (i.1, i.2.1))) =
      items.foldlM (fun a i => fields.set a i.1 i.2.1) a := by
  rw [unmarshal, decode_eq_some_iff.mpr (denotes_printObject h).isText, members?_printObject h]
  dsimp only
  rw [Option.bind_some, List.foldlM_map]

/-! ## Values that are read -/

/-- A text of a value is decoded to it. -/
theorem decode_of_denotes (h : Denotes .value t v) : decode t = some v :=
  decode_eq_some_iff.mpr h.isText

/-- A string is read from its text. -/
theorem string?_of_denotes {old s : String} (h : Denotes .value t (.str s)) :
    string? old t = some s := by
  rw [string?, decode_of_denotes h]

/-- A truth value is read from its text. -/
theorem bool?_of_denotes {old b : Bool} (h : Denotes .value t (.bool b)) :
    bool? old t = some b := by
  rw [bool?, decode_of_denotes h]

/-- A list of strings is read from its text. -/
theorem strings?_of_denotes {ss : List String} (h : Denotes .value t (.arr (ss.map .str))) :
    strings? t = some ss := by
  have hmap : ∀ ss : List String, (ss.map Value.str).mapM element? = some ss := by
    intro ss
    induction ss with
    | nil => rfl
    | cons s ss ih =>
      rw [List.map_cons, List.mapM_cons, ih]
      rfl
  rw [strings?, decode_of_denotes h]
  exact hmap ss

/-- Printed digits are read back. -/
theorem digits?_toDigits (n : ℕ) : digits? (Nat.toDigits 10 n) = some n := by
  rw [digits?, if_pos ⟨Nat.toDigits_ne_nil, List.all_eq_true.mpr fun _ => isDigit_of_mem_toDigits⟩,
    Nat.ofDigitChars_toDigits (by decide) (by decide)]

/-- A printed integer is read back. -/
theorem integer?_intText (z : ℤ) : integer? (intText z) = some z := by
  cases z with
  | ofNat n =>
    rw [intText, integer?.eq_2 _ fun s heq => toDigits_ne_cons (by decide) s heq, digits?_toDigits]
    rfl
  | negSucc n =>
    rw [intText, integer?, digits?_toDigits]
    rfl

/-- A printed integer is read when it has 64 bits. -/
theorem int64?_intText (old : Int64) (z : ℤ) : int64? old (intText z) =
    if Int64.minValue.toInt ≤ z ∧ z ≤ Int64.maxValue.toInt then some (Int64.ofInt z) else none := by
  rw [int64?, decode_of_denotes (denotes_intText z), integer?_intText]
  rfl

section Set

variable {old s : String} {ss : List String} {b : Bool}

/-- A member with a known name sets its field. -/
theorem Fields.set_of_lookup {set : α → List Char → Option α} (hk : fields.lookup k = some set) :
    fields.set a k t = set a t := by
  have hnamed : fields.named k = some set := by
    rw [Fields.named, hk]
    rfl
  unfold Fields.set
  rw [hnamed]

/-- A member of another name is passed over. -/
theorem Fields.set_unknown (hk : fields.named k = none) : fields.set a k t = some a := by
  unfold Fields.set
  rw [hk]

/-- A string sets its field. -/
theorem Fields.set_string {get : α → String} {put : α → String → α}
    (hk : fields.lookup k = some (stringField get put)) (h : Denotes .value t (.str s)) :
    fields.set a k t = some (put a s) := by
  rw [Fields.set_of_lookup hk, stringField, string?_of_denotes h, Option.map_some]

/-- A truth value sets its field. -/
theorem Fields.set_bool {get : α → Bool} {put : α → Bool → α}
    (hk : fields.lookup k = some (boolField get put)) (h : Denotes .value t (.bool b)) :
    fields.set a k t = some (put a b) := by
  rw [Fields.set_of_lookup hk, boolField, bool?_of_denotes h, Option.map_some]

/-- An integer sets its field when it has 64 bits. -/
theorem Fields.set_int64 {get : α → Int64} {put : α → Int64 → α} {z : ℤ}
    (hk : fields.lookup k = some (int64Field get put)) :
    fields.set a k (intText z) = if Int64.minValue.toInt ≤ z ∧ z ≤ Int64.maxValue.toInt
      then some (put a (Int64.ofInt z)) else none := by
  rw [Fields.set_of_lookup hk, int64Field, int64?_intText]
  split_ifs <;> rfl

/-- A printed integer of 64 bits sets its field. -/
theorem Fields.set_toInt {get : α → Int64} {put : α → Int64 → α} {n : Int64}
    (hk : fields.lookup k = some (int64Field get put)) :
    fields.set a k (intText n.toInt) = some (put a n) := by
  rw [Fields.set_int64 hk, if_pos ⟨n.minValue_le_toInt, n.toInt_le⟩, Int64.ofInt_toInt]

/-- A list of strings sets its field. -/
theorem Fields.set_strings {put : α → List String → α}
    (hk : fields.lookup k = some (stringsField put)) (h : Denotes .value t (.arr (ss.map .str))) :
    fields.set a k t = some (put a ss) := by
  rw [Fields.set_of_lookup hk, stringsField, strings?_of_denotes h, Option.map_some]

/-- The text of any value sets a raw field. -/
theorem Fields.set_raw {put : α → String → α} (hk : fields.lookup k = some (rawField put)) :
    fields.set a k t = some (put a (String.ofList t)) := by
  exact Fields.set_of_lookup hk

/-- An object sets the fields of a nested record. -/
theorem Fields.set_record {β : Type*} {get : α → Option β} {put : α → Option β → α}
    {fields' : Fields β} {zero b : β}
    (hk : fields.lookup k = some (recordField get put fields' zero)) (ha : get a = none)
    {ms : List (String × Value)} (h : Denotes .value t (.obj ms))
    (hb : unmarshal fields' zero t = some b) :
    fields.set a k t = some (put a (some b)) := by
  rw [Fields.set_of_lookup hk, recordField, decode_of_denotes h, ha, Option.getD_none, hb, Option.map_some]

/-- A member that is left out when its string is empty sets the field to the string, when the
field is empty. -/
theorem Fields.set_unlessEmpty {get : α → String} {put : α → String → α}
    {f : String → List Char} (hk : fields.lookup k = some (stringField get put))
    (h : Denotes .value (f s) (.str s)) (ha : get a = "") (hput : put a (get a) = a) :
    (unlessEmpty k f s).foldlM (fun a i => fields.set a i.1 i.2.1) a = some (put a s) := by
  rw [unlessEmpty]
  split_ifs with hs
  · rw [hs, ← ha, hput]
    rfl
  · rw [List.foldlM_cons, Fields.set_string hk h]
    rfl

/-- A raw text that may be left out is read back. -/
theorem Fields.set_unlessBlank {get : α → String} {put : α → String → α} {f : List Char → List Char}
    (hk : fields.lookup k = some (rawField put)) (ha : get a = "") (hput : put a (get a) = a)
    (hf : f [] = []) :
    (unlessBlank k f s v).foldlM (fun a i => fields.set a i.1 i.2.1) a =
      some (put a (String.ofList (f s.toList))) := by
  rw [unlessBlank]
  split_ifs with hs
  · have hempty : String.ofList (f s.toList) = get a := by
      rw [hs, ha, String.toList_empty, hf]
    rw [hempty, hput]
    rfl
  · rw [List.foldlM_cons, Fields.set_raw hk]
    rfl

/-- A list that may be left out is read back. -/
theorem Fields.set_unlessNil {put : α → List String → α} {f : List String → List Char}
    (hk : fields.lookup k = some (stringsField put)) (h : Denotes .value (f ss) (.arr (ss.map .str)))
    (ha : put a [] = a) :
    (unlessNil k f ss).foldlM (fun a i => fields.set a i.1 i.2.1) a = some (put a ss) := by
  rw [unlessNil]
  split_ifs with hs
  · rw [hs, ha]
    rfl
  · rw [List.foldlM_cons, Fields.set_strings hk h]
    rfl

end Set

/-! ## Printed strings -/

/-- A string, every character of it printed by `f`. -/
def quoted (f : Char → List Char) (s : String) : List Char :=
  '"' :: (s.toList.flatMap f ++ ['"'])

def quotedList (f : Char → List Char) (ss : List String) : List Char :=
  '[' :: ([','].intercalate (ss.map (quoted f)) ++ [']'])

variable {f : Char → List Char}

/-- A quoted string denotes the string, whatever is escaped. -/
theorem denotes_quoted (hf : ∀ c, ItemText (f c) c) (s : String) :
    Denotes .value (quoted f s) (.str s) := by
  obtain ⟨ps, hps, hs⟩ := exists_charsText_flatMap f s.toList fun c _ => hf c
  have hdenotes := Denotes.string hps
  rwa [hs, String.ofList_toList] at hdenotes

/-- A list of quoted strings denotes the strings. -/
theorem denotes_quotedList (hf : ∀ c, ItemText (f c) c) (ss : List String) :
    Denotes .value (quotedList f ss) (.arr (ss.map .str)) := by
  have harray := denotes_array (ss.map fun s => (quoted f s, Value.str s))
    (List.forall_mem_map.mpr fun s _ => (denotes_quoted hf s).isText) blank_nil
  rwa [List.append_nil, List.map_map, List.map_map] at harray

def boolText (b : Bool) : List Char := if b then "true".toList else "false".toList

/-- A printed truth value denotes itself. -/
theorem denotes_boolText (b : Bool) : Denotes .value (boolText b) (.bool b) := by
  cases b with
  | true => exact .scalar (@of_decide_eq_true _ (List.decidableBAll _ _) rfl) rfl
  | false => exact .scalar (@of_decide_eq_true _ (List.decidableBAll _ _) rfl) rfl

end Json
