/-
# The tokens of the SOC API

The package `rbac` on byte strings: the parser of the configured tokens, the
authentication of a request by its `Authorization` header, and the gate of a role.

`lookup_parseTokens` says which entry of the configuration speaks for a token, and
`middleware_ok_iff` which requests pass.
-/
import ZtMapper.Lib.Lines
import ZtMapper.Lib.Unordered

open Unordered

namespace Rbac

/-! ## Strings -/

/-- The bytes of a string literal. -/
def bytes (s : String) : List UInt8 := s.toUTF8.data.toList

def comma : UInt8 := 44

def colon : UInt8 := 58

/-- The characters of `unicode.IsSpace`. -/
def spaceChars : List Char :=
  ['\t', '\n', '\x0b', '\x0c', '\r', ' ', '\u0085', '\u00a0', '\u1680', '\u2000', '\u2001',
    '\u2002', '\u2003', '\u2004', '\u2005', '\u2006', '\u2007', '\u2008', '\u2009', '\u200a',
    '\u2028', '\u2029', '\u202f', '\u205f', '\u3000']

def spaces : List (List UInt8) := spaceChars.map String.utf8EncodeChar

/-- Drop the strings of `cut` from the front, `n` times at most. -/
def trimLeft (cut : List (List UInt8)) : ℕ → List UInt8 → List UInt8
  | 0, s => s
  | n + 1, s =>
    match cut.findSome? s.dropPrefix? with
    | some s' => trimLeft cut n s'
    | none => s

/-- `strings.TrimSpace`: the white space is dropped from the front, and then from the
back. -/
def trimSpace (s : List UInt8) : List UInt8 :=
  let front := trimLeft spaces s.length s
  (trimLeft (spaces.map List.reverse) front.length front.reverse).reverse

/-! ## `ParseTokens` -/

abbrev Role := List UInt8

def roleViewer : Role := bytes "viewer"
def roleEditor : Role := bytes "editor"
def roleAdmin : Role := bytes "admin"

structure Identity where
  user : List UInt8
  role : Role
  deriving DecidableEq, Repr

abbrev TokenMap := Map (List UInt8) Identity

/-- One entry: the token and whom it stands for, unless the entry is skipped. -/
def parseEntry (entry : List UInt8) : Option (List UInt8 × Identity) :=
  let entry := trimSpace entry
  if entry = [] then none
  else match entry.splitOn colon with
    | [user, role, tok] => some (tok, ⟨user, role⟩)
    | _ => none

def parseTokens (env : List UInt8) : TokenMap := insertAll parseEntry (env.splitOn comma)

example :
    parseEntry (bytes " bob:editor:tk2 ") = some (bytes "tk2", ⟨bytes "bob", roleEditor⟩) := by
  decide

/-! ## `Middleware` -/

/-- A refused request. -/
structure Refusal where
  code : ℕ
  text : List UInt8
  deriving DecidableEq, Repr

/-- The values of a request's context. -/
structure Context where
  user : Option (List UInt8) := none
  role : Option Role := none
  deriving DecidableEq, Repr

/-- `User` -/
def Context.userOf (ctx : Context) : List UInt8 :=
  let v := ctx.user.getD []
  if v = [] then bytes "anonymous" else v

/-- `RoleOf` -/
def Context.roleOf (ctx : Context) : Role :=
  let v := ctx.role.getD []
  if v = [] then roleViewer else v

/-- `strings.TrimPrefix` -/
def trimStart (s start : List UInt8) : List UInt8 := (s.dropPrefix? start).getD s

def bearer : List UInt8 := bytes "Bearer "

/-- `Middleware`: the context of the next handler, or the refusal. -/
def middleware (tokens : TokenMap) (header : List UInt8) (_ctx : Context) :
    Except Refusal Context :=
  if tokens = ∅ then .ok ⟨some (bytes "anonymous"), some roleViewer⟩
  else
    let tok := trimStart header bearer
    if tok = header ∨ tok = [] then .error ⟨401, bytes "missing bearer token"⟩
    else match tokens.lookup tok with
      | none => .error ⟨401, bytes "invalid token"⟩
      | some v => .ok ⟨some v.user, some v.role⟩

/-! ## `RequireRole` -/

/-- The ladder; a role that is not on it has rank zero. -/
def rank (role : Role) : ℕ :=
  if role = roleViewer then 1
  else if role = roleEditor then 2
  else if role = roleAdmin then 3
  else 0

def requireRole (min : Role) (ctx : Context) : Except Refusal Context :=
  if rank ctx.roleOf < rank min then .error ⟨403, bytes "forbidden: requires " ++ min⟩
  else .ok ctx

/-! ## The entries of a configuration -/

/-- A piece of the configuration is the entry `user:role:tok`. -/
def IsEntry (piece user role tok : List UInt8) : Prop :=
  trimSpace piece = user ++ colon :: (role ++ colon :: tok) ∧
    colon ∉ user ∧ colon ∉ role ∧ colon ∉ tok

/-- The last entry for `tok` gives it to `user` with `role`. -/
def LastEntry (env tok user role : List UInt8) : Prop :=
  ∃ pre piece post, env.splitOn comma = pre ++ piece :: post ∧ IsEntry piece user role tok ∧
    ∀ piece' ∈ post, ∀ user' role', ¬ IsEntry piece' user' role' tok

/-- Some entry is well formed. -/
def HasEntry (env : List UInt8) : Prop :=
  ∃ piece ∈ env.splitOn comma, ∃ user role tok, IsEntry piece user role tok

/-- Some entry configures the token. -/
def Configures (env tok : List UInt8) : Prop :=
  ∃ piece ∈ env.splitOn comma, ∃ user role, IsEntry piece user role tok

variable {env tok user role header s : List UInt8} {id : Identity} {ctx ctx' : Context}

theorem parseEntry_eq_some_iff {piece : List UInt8} :
    parseEntry piece = some (tok, id) ↔ IsEntry piece id.user id.role tok := by
  unfold IsEntry
  rw [← Lines.splitOn_eq_three_iff]
  unfold parseEntry
  dsimp only
  split_ifs with hempty
  · -- an empty entry has one part
    rw [hempty, List.splitOn_nil]
    exact iff_of_false (fun h => nomatch h) fun h => nomatch (List.cons.inj h).2
  · constructor
    · intro h
      split at h
      · next user role tok' hparts =>
        obtain ⟨rfl, rfl⟩ := Prod.mk.inj (Option.some.inj h)
        exact hparts
      · exact nomatch h
    · intro hparts
      rw [hparts]

/-- The last entry of a token speaks for it. -/
theorem lookup_parseTokens :
    (parseTokens env).lookup tok = some id ↔ LastEntry env tok id.user id.role := by
  unfold parseTokens LastEntry
  rw [lookup_insertAll]
  simp only [ne_eq, parseEntry_eq_some_iff]
  refine exists_congr fun pre => exists_congr fun piece => exists_congr fun post =>
    and_congr_right fun _ => and_congr_right fun _ => forall₂_congr fun piece' _ => ?_
  exact ⟨fun h user' role' => h ⟨user', role'⟩, fun h id' => h id'.user id'.role⟩

theorem parseTokens_eq_empty_iff : parseTokens env = ∅ ↔ ¬ HasEntry env := by
  unfold parseTokens HasEntry
  rw [insertAll_eq_empty_iff]
  simp only [not_exists, not_and]
  refine forall₂_congr fun piece _ => ?_
  rw [Option.eq_none_iff_forall_ne_some]
  constructor
  · exact fun h user role tok hentry => h (tok, ⟨user, role⟩) (parseEntry_eq_some_iff.mpr hentry)
  · exact fun h ⟨tok, id⟩ hsome => h id.user id.role tok (parseEntry_eq_some_iff.mp hsome)

/-! ## The requests that pass -/

theorem dropPrefix?_iff {start rest : List UInt8} :
    s.dropPrefix? start = some rest ↔ s = start ++ rest := by
  rw [List.dropPrefix?_eq_some_iff]
  constructor
  · rintro ⟨start', rfl, heq⟩
    rw [eq_of_beq heq]
  · rintro rfl
    exact ⟨start, rfl, beq_self_eq_true start⟩

theorem trimStart_append (start rest : List UInt8) : trimStart (start ++ rest) start = rest := by
  unfold trimStart
  rw [dropPrefix?_iff.mpr rfl]
  rfl

/-- What is left is the string itself, or the string has the start. -/
theorem trimStart_cases (s start : List UInt8) :
    trimStart s start = s ∨ s = start ++ trimStart s start := by
  unfold trimStart
  cases hdrop : s.dropPrefix? start with
  | none => exact Or.inl rfl
  | some rest => exact Or.inr (dropPrefix?_iff.mp hdrop)

/-- With tokens configured, a request passes with a token that is in the map. -/
theorem middleware_ok_iff {tokens : TokenMap} (hne : tokens ≠ ∅) :
    middleware tokens header ctx = .ok ctx' ↔
      ∃ tok id, header = bearer ++ tok ∧ tok ≠ [] ∧ tokens.lookup tok = some id ∧
        ctx' = ⟨some id.user, some id.role⟩ := by
  unfold middleware
  dsimp only
  rw [if_neg hne]
  constructor
  · intro h
    split_ifs at h with hmissing
    obtain ⟨hstart, hempty⟩ := not_or.mp hmissing
    have hheader := (trimStart_cases header bearer).resolve_left hstart
    cases hlookup : tokens.lookup (trimStart header bearer) with
    | none =>
      rw [hlookup] at h
      cases h
    | some id =>
      rw [hlookup] at h
      exact ⟨_, id, hheader, hempty, hlookup, (Except.ok.inj h).symm⟩
  · rintro ⟨tok, id, rfl, htok, hlookup, rfl⟩
    -- a token is not the header that it stands in
    have hpresent : ¬ (tok = bearer ++ tok ∨ tok = []) := by
      rintro (heq | hempty)
      · have hlength := congrArg List.length heq
        rw [List.length_append] at hlength
        have hbearer : bearer.length = 7 := by decide
        omega
      · exact htok hempty
    rw [trimStart_append, if_neg hpresent, hlookup]

/-- Without tokens, every request passes as a viewer. -/
theorem middleware_empty : middleware ∅ header ctx =
    .ok ⟨some (bytes "anonymous"), some roleViewer⟩ := if_pos rfl

theorem requireRole_ok_iff {min : Role} :
    requireRole min ctx = .ok ctx' ↔ rank min ≤ rank ctx.roleOf ∧ ctx' = ctx := by
  unfold requireRole
  split_ifs with h
  · exact iff_of_false (fun h' => nomatch h') fun h' => absurd h'.1 (Nat.not_le.mpr h)
  · constructor
    · exact fun h' => ⟨Nat.not_lt.mp h, (Except.ok.inj h').symm⟩
    · rintro ⟨-, rfl⟩
      rfl

/-- An empty role counts as a viewer, which no gate above the viewer lets pass. -/
theorem rank_roleOf {user role : List UInt8} {n : ℕ} (hn : 1 < n) :
    n ≤ rank (Context.roleOf ⟨some user, some role⟩) ↔ n ≤ rank role := by
  have hrole : Context.roleOf ⟨some user, some role⟩ = if role = [] then roleViewer else role := rfl
  rw [hrole]
  split_ifs with hempty
  · subst hempty
    have hviewer : rank roleViewer = 1 := by decide
    have hnone : rank [] = 0 := by decide
    omega
  · exact Iff.rfl

end Rbac
