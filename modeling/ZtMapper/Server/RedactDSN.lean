/-
# The connection string in the log

`redactDSN`, with which `main` logs the connection string of the database, on
strings as lists of bytes.  It hides what stands between the first `://` and the
first `@` after it, and `redactDSN_eq_iff` says when this keeps a password secret.
-/
import ZtMapper.Lib.Print
import ZtMapper.Rbac.Tokens

open Rbac (bytes)
open Scan

namespace Server

/-! ## `redactDSN` -/

/-- The inner loop: the index of the first `@` from `j` on, where the source has `-1`
for none. -/
def atFrom (s : List UInt8) (j : ℕ) : Option ℕ :=
  ((s.drop j).findIdx? (· = 64)).map (j + ·)

/-- What the outer loop returns at the index `i`. -/
def redactAt (s : List UInt8) (i : ℕ) : Option (List UInt8) :=
  if s[i]? = some 58 ∧ i + 2 < s.length ∧ s[i + 1]? = some 47 ∧ s[i + 2]? = some 47 then
    (atFrom s (i + 3)).map fun k => s.take (i + 3) ++ (bytes "***" ++ s.drop k)
  else none

def redactDSN (s : List UInt8) : List UInt8 :=
  ((List.range (s.length - 1)).findSome? (redactAt s)).getD s

/-! ## What is hidden -/

/-- `hidden` is what stands between the first `://` and the first `@` after it. -/
structure Covers (s before hidden after : List UInt8) : Prop where
  first : FirstAt (bytes "://") s before (hidden ++ 64 :: after)
  notMem : 64 ∉ hidden

variable {s s' before hidden after : List UInt8} {i : ℕ}

/-- No at sign is found where there is none. -/
theorem findIdx?_eq_none_iff {t : List UInt8} : t.findIdx? (· = 64) = none ↔ 64 ∉ t := by
  rw [List.findIdx?_eq_none_iff]
  constructor
  · exact fun h hmem => of_decide_eq_false (h 64 hmem) rfl
  · exact fun h b hb => decide_eq_false fun heq => h (heq ▸ hb)

/-- The first at sign after a position. -/
theorem atFrom_append {t : List UInt8} (h : 64 ∉ hidden) :
    atFrom (t ++ (hidden ++ 64 :: after)) t.length = some (t.length + hidden.length) := by
  rw [atFrom, List.drop_left, List.findIdx?_append, findIdx?_eq_none_iff.mpr h,
    List.findIdx?_cons, if_pos (decide_eq_true rfl)]
  simp

/-- What stands between the mark and the at sign is covered. -/
theorem redactAt_of_eq (h : s = before ++ (bytes "://" ++ (hidden ++ 64 :: after)))
    (hhidden : 64 ∉ hidden) :
    redactAt s before.length = some (before ++ (bytes "://***@" ++ after)) := by
  have hopen : s = (before ++ bytes "://") ++ (hidden ++ 64 :: after) := by
    rw [h, List.append_assoc]
  have hlength : (before ++ bytes "://").length = before.length + 3 := by
    rw [List.length_append]
    rfl
  have hclose : s = (before ++ bytes "://" ++ hidden) ++ 64 :: after := by
    rw [hopen, List.append_assoc _ hidden]
  have hcond : s[before.length]? = some 58 ∧ before.length + 2 < s.length ∧
      s[before.length + 1]? = some 47 ∧ s[before.length + 2]? = some 47 := by
    have hbytes : bytes "://" = [58, 47, 47] := by decide
    rw [h, hbytes]
    simp
  have hat : atFrom s (before.length + 3) = some (before ++ bytes "://" ++ hidden).length := by
    rw [List.length_append, hopen, ← hlength]
    exact atFrom_append hhidden
  have htake : s.take (before.length + 3) = before ++ bytes "://" := by
    rw [hopen, ← hlength, List.take_left]
  have hdrop : s.drop (before ++ bytes "://" ++ hidden).length = 64 :: after := by
    rw [hclose, List.drop_left]
  rw [redactAt, if_pos hcond, hat, Option.map_some, htake, hdrop, List.append_assoc]
  rfl

/-- What is returned at `i` is made of a `://` there, and of an `@` after it. -/
theorem exists_of_redactAt {r : List UInt8} (h : redactAt s i = some r) :
    ∃ hidden after, s = s.take i ++ (bytes "://" ++ (hidden ++ 64 :: after)) ∧ 64 ∉ hidden := by
  unfold redactAt at h
  split_ifs at h with hcond
  obtain ⟨h0, -, h1, h2⟩ := hcond
  obtain ⟨k, hk, -⟩ := Option.map_eq_some_iff.mp h
  obtain ⟨m, hm, -⟩ := Option.map_eq_some_iff.mp hk
  have hmem : 64 ∈ s.drop (i + 3) := by
    by_contra hnot
    rw [findIdx?_eq_none_iff.mpr hnot] at hm
    cases hm
  obtain ⟨hidden, after, hsplit, hhidden⟩ := List.eq_append_cons_of_mem hmem
  have hdrop : ∀ {j : ℕ} {b : UInt8}, s[j]? = some b → s.drop j = b :: s.drop (j + 1) := by
    intro j b hj
    obtain ⟨hlt, heq⟩ := List.getElem?_eq_some_iff.mp hj
    rw [List.drop_eq_getElem_cons hlt, heq]
  refine ⟨hidden, after, ?_, hhidden⟩
  have hpattern : s.drop i = bytes "://" ++ (hidden ++ 64 :: after) := by
    rw [hdrop h0, hdrop h1, hdrop h2, hsplit]
    rfl
  rw [← hpattern, List.take_append_drop]

/-- A text is covered when an at sign follows the mark. -/
theorem covers_iff : (∃ before hidden after, Covers s before hidden after) ↔
    ∃ b h a, s = b ++ (bytes "://" ++ (h ++ 64 :: a)) := by
  constructor
  · rintro ⟨before, hidden, after, hcovers⟩
    exact ⟨before, hidden, after, hcovers.first.eq⟩
  · rintro ⟨b, h, a, hs⟩
    obtain ⟨before, rest, hfirst⟩ := exists_firstAt hs
    -- the first `://` is no later, so that the `@` is after it as well
    have hmem : 64 ∈ rest := by
      have hle := hfirst.first b _ hs
      have hrest : rest = s.drop (before ++ bytes "://").length := by
        rw [hfirst.eq, ← List.append_assoc, List.drop_left]
      have hlast : h ++ 64 :: a = s.drop (b ++ bytes "://").length := by
        rw [hs, ← List.append_assoc, List.drop_left]
      have hsuffix : h ++ 64 :: a <:+ rest := by
        rw [hrest, hlast]
        refine List.drop_suffix_drop_left s ?_
        rw [List.length_append, List.length_append]
        exact Nat.add_le_add_right hle _
      exact hsuffix.subset (List.mem_append_right _ List.mem_cons_self)
    obtain ⟨hidden, after, rfl, hhidden⟩ := List.eq_append_cons_of_mem hmem
    exact ⟨before, hidden, after, hfirst, hhidden⟩

/-- **What is covered is hidden**, and nothing else. -/
theorem redactDSN_of_covers (h : Covers s before hidden after) :
    redactDSN s = before ++ (bytes "://***@" ++ after) := by
  have hlength : s.length - 1 = before.length + (3 + hidden.length + after.length) := by
    rw [h.first.eq, List.length_append, List.length_append, List.length_append, List.length_cons]
    have : (bytes "://").length = 3 := rfl
    omega
  have hnone : (List.range before.length).findSome? (redactAt s) = none := by
    rw [List.findSome?_eq_none_iff]
    intro i hi
    by_contra hsome
    obtain ⟨r, hr⟩ := Option.ne_none_iff_exists'.mp hsome
    obtain ⟨h', a', heq, -⟩ := exists_of_redactAt hr
    have hle := h.first.first _ _ heq
    have hlt := List.mem_range.mp hi
    rw [List.length_take] at hle
    omega
  obtain ⟨m, hm⟩ : ∃ m, 3 + hidden.length + after.length = m + 1 :=
    ⟨2 + hidden.length + after.length, by omega⟩
  rw [redactDSN, hlength, List.range_add, List.findSome?_append, hnone, Option.none_or, hm,
    List.range_succ_eq_map, List.map_cons, List.findSome?_cons, Nat.add_zero,
    redactAt_of_eq h.first.eq h.notMem]
  rfl

/-- Without an `@` after a `://`, the string is returned as it stands. -/
theorem redactDSN_of_not_covers (h : ¬ ∃ before hidden after, Covers s before hidden after) :
    redactDSN s = s := by
  have hnone : (List.range (s.length - 1)).findSome? (redactAt s) = none := by
    rw [List.findSome?_eq_none_iff]
    intro i _
    by_contra hsome
    obtain ⟨r, hr⟩ := Option.ne_none_iff_exists'.mp hsome
    obtain ⟨hidden, after, heq, -⟩ := exists_of_redactAt hr
    exact h (covers_iff.mpr ⟨_, hidden, after, heq⟩)
  rw [redactDSN, hnone, Option.getD_none]

/-! ## Two strings that are logged alike -/

/-- The redacted text is covered with stars. -/
theorem Covers.redacted (h : Covers s before hidden after) :
    Covers (before ++ (bytes "://***@" ++ after)) before (bytes "***") after :=
  ⟨h.first.replace _, by decide⟩

/-- What is covered is determined by the text. -/
theorem Covers.unique {before' hidden' after' : List UInt8} (h : Covers s before hidden after)
    (h' : Covers s before' hidden' after') :
    before = before' ∧ hidden = hidden' ∧ after = after' := by
  obtain ⟨hbefore, hrest⟩ := h.first.unique h'.first
  obtain rfl := eq_of_append_cons_eq_of_notMem h.notMem h'.notMem hrest
  exact ⟨hbefore, rfl, (List.cons.inj (List.append_cancel_left hrest)).2⟩

/-- The strings differ in what is hidden, if at all. -/
def LoggedAlike (s s' : List UInt8) : Prop :=
  s = s' ∨ ∃ before hidden hidden' after, Covers s before hidden after ∧
    Covers s' before hidden' after

/-- **Texts are logged alike** exactly when they differ in what is covered only. -/
theorem redactDSN_eq_iff_loggedAlike : redactDSN s = redactDSN s' ↔ LoggedAlike s s' := by
  constructor
  · intro h
    by_cases hs : ∃ before hidden after, Covers s before hidden after
    · obtain ⟨before, hidden, after, hs⟩ := hs
      rw [redactDSN_of_covers hs] at h
      by_cases hs' : ∃ before hidden after, Covers s' before hidden after
      · obtain ⟨before', hidden', after', hs'⟩ := hs'
        rw [redactDSN_of_covers hs'] at h
        obtain ⟨rfl, -, rfl⟩ := hs.redacted.unique (h ▸ hs'.redacted)
        exact Or.inr ⟨before, hidden, hidden', after, hs, hs'⟩
      · rw [redactDSN_of_not_covers hs'] at h
        exact absurd ⟨before, _, after, h ▸ hs.redacted⟩ hs'
    · rw [redactDSN_of_not_covers hs] at h
      by_cases hs' : ∃ before hidden after, Covers s' before hidden after
      · obtain ⟨before', hidden', after', hs'⟩ := hs'
        rw [redactDSN_of_covers hs'] at h
        exact absurd ⟨before', _, after', h ▸ hs'.redacted⟩ hs
      · rw [redactDSN_of_not_covers hs'] at h
        exact Or.inl h
  · rintro (rfl | ⟨before, hidden, hidden', after, hs, hs'⟩)
    · rfl
    · rw [redactDSN_of_covers hs, redactDSN_of_covers hs']

/-! ## The two forms of a connection string -/

/-- The mark of a URL ends its scheme. -/
theorem firstAt_url {scheme rest : List UInt8} (hscheme : 58 ∉ scheme) :
    FirstAt (bytes "://") (scheme ++ (bytes "://" ++ rest)) scheme rest := by
  refine ⟨rfl, fun b a heq => ?_⟩
  by_contra hlt
  obtain ⟨t, ht⟩ := List.prefix_of_prefix_length_le ⟨_, heq.symm⟩ ⟨_, rfl⟩ (le_of_not_ge hlt)
  rw [← ht, List.append_assoc] at heq
  cases t with
  | nil =>
    rw [List.append_nil] at ht
    exact hlt (ht ▸ le_rfl)
  | cons c t =>
    -- the first byte of the occurrence is a colon in the scheme
    have hc : c = 58 := (List.cons.inj (List.append_cancel_left heq)).1
    exact hscheme (by rw [← ht, hc]; simp)

/-- Dropping up to the at sign. -/
theorem dropWhile_append_at {t r : List UInt8} (h : 64 ∉ t) :
    (t ++ 64 :: r).dropWhile (· ≠ 64) = 64 :: r :=
  dropWhile_eq_iff.mpr ⟨t, rfl, fun _ hb => decide_eq_true fun heq => h (heq ▸ hb), by simp⟩

/-- In a URL, all of the user information up to its first `@` is hidden. -/
theorem exists_covers_url {scheme : List UInt8} (info host : List UInt8) (hscheme : 58 ∉ scheme) :
    ∃ hidden after, Covers (scheme ++ (bytes "://" ++ (info ++ 64 :: host))) scheme hidden after ∧
      info.dropWhile (· ≠ 64) ++ 64 :: host = 64 :: after := by
  by_cases hinfo : 64 ∈ info
  · obtain ⟨t, r, rfl, ht⟩ := List.eq_append_cons_of_mem hinfo
    refine ⟨t, r ++ 64 :: host, ⟨?_, ht⟩, ?_⟩
    · rw [List.append_assoc, List.cons_append]
      exact firstAt_url hscheme
    · rw [dropWhile_append_at ht, List.cons_append]
  · refine ⟨info, host, ⟨firstAt_url hscheme, hinfo⟩, ?_⟩
    have hall : ∀ b ∈ info, decide (b ≠ 64) = true :=
      fun b hb => decide_eq_true fun heq => hinfo (heq ▸ hb)
    rw [List.dropWhile_eq_nil_iff.mpr hall, List.nil_append]

/-- Two URLs with other user informations are logged alike when these agree from their
first `@` on, hence when neither has one. -/
theorem loggedAlike_url_iff {scheme info info' host : List UInt8} (hscheme : 58 ∉ scheme) :
    LoggedAlike (scheme ++ (bytes "://" ++ (info ++ 64 :: host)))
        (scheme ++ (bytes "://" ++ (info' ++ 64 :: host))) ↔
      info.dropWhile (· ≠ 64) = info'.dropWhile (· ≠ 64) := by
  obtain ⟨hidden, after, hcovers, hafter⟩ := exists_covers_url info host hscheme
  obtain ⟨hidden', after', hcovers', hafter'⟩ := exists_covers_url info' host hscheme
  have hiff : after = after' ↔ info.dropWhile (· ≠ 64) = info'.dropWhile (· ≠ 64) := by
    refine Iff.trans ?_ (List.append_left_inj (64 :: host))
    rw [hafter, hafter', List.cons_inj_right]
  rw [← hiff]
  constructor
  · rintro (heq | ⟨before, h, h', a, hs, hs'⟩)
    · exact (hcovers.unique (heq ▸ hcovers')).2.2
    · exact (hcovers.unique hs).2.2.trans (hcovers'.unique hs').2.2.symm
  · rintro rfl
    exact Or.inr ⟨scheme, hidden, hidden', after, hcovers, hcovers'⟩

/-- Different texts that are logged alike have the mark. -/
theorem LoggedAlike.eq_or_opened (h : LoggedAlike s s') : s = s' ∨ bytes "://" <:+: s := by
  refine h.imp_right ?_
  rintro ⟨before, hidden, hidden', after, hs, -⟩
  exact ⟨before, hidden ++ 64 :: after, by rw [List.append_assoc]; exact hs.first.eq.symm⟩

/-! ## The password -/

/-- `parseConfig` accepts the connection string with `p` in it and the one with `p'`, and
reads the same settings from both, with different passwords. -/
def DifferInPassword {σ : Type*} (parseConfig : List UInt8 → Option (σ × List UInt8))
    (pre p p' post : List UInt8) : Prop :=
  ∃ settings w w', parseConfig (pre ++ (p ++ post)) = some (settings, w) ∧
    parseConfig (pre ++ (p' ++ post)) = some (settings, w') ∧ w ≠ w'

/-- Texts with different passwords are different. -/
theorem DifferInPassword.ne {σ : Type*} {parseConfig : List UInt8 → Option (σ × List UInt8)}
    {pre p p' post : List UInt8} (h : DifferInPassword parseConfig pre p p' post) :
    pre ++ (p ++ post) ≠ pre ++ (p' ++ post) := by
  obtain ⟨settings, w, w', hw, hw', hne⟩ := h
  intro heq
  rw [heq, hw'] at hw
  exact hne (Prod.ext_iff.mp (Option.some.inj hw)).2.symm

/-- **When the log keeps the password secret.**  Of two connection strings that differ in
the password, the same line is logged exactly when both have a `://` with an `@` behind it
and agree up to the first `://` and from the first `@` behind it on.  For URLs this says
that the user informations agree from their first `@` on; a string without `://` is logged
as it stands. -/
theorem redactDSN_eq_iff {σ : Type*} {parseConfig : List UInt8 → Option (σ × List UInt8)}
    {pre p p' post : List UInt8} (h : DifferInPassword parseConfig pre p p' post) :
    (redactDSN (pre ++ (p ++ post)) = redactDSN (pre ++ (p' ++ post)) ↔
      ∃ before hidden hidden' after, Covers (pre ++ (p ++ post)) before hidden after ∧
        Covers (pre ++ (p' ++ post)) before hidden' after) ∧
    (∀ scheme user host, 58 ∉ scheme → pre = scheme ++ (bytes "://" ++ (user ++ [58])) →
      post = 64 :: host →
      (redactDSN (pre ++ (p ++ post)) = redactDSN (pre ++ (p' ++ post)) ↔
        (user ++ 58 :: p).dropWhile (· ≠ 64) = (user ++ 58 :: p').dropWhile (· ≠ 64))) ∧
    (¬ bytes "://" <:+: pre ++ (p ++ post) →
      redactDSN (pre ++ (p ++ post)) ≠ redactDSN (pre ++ (p' ++ post))) := by
  refine ⟨?_, ?_, ?_⟩
  · rw [redactDSN_eq_iff_loggedAlike]
    exact or_iff_right h.ne
  · rintro scheme user host hscheme rfl rfl
    have hurl : ∀ q : List UInt8, scheme ++ (bytes "://" ++ (user ++ [58])) ++ (q ++ 64 :: host) =
        scheme ++ (bytes "://" ++ ((user ++ 58 :: q) ++ 64 :: host)) := by
      intro q
      simp only [List.append_assoc, List.cons_append, List.nil_append]
    rw [hurl, hurl, redactDSN_eq_iff_loggedAlike]
    exact loggedAlike_url_iff hscheme
  · intro hinfix heq
    rcases (redactDSN_eq_iff_loggedAlike.mp heq).eq_or_opened with hsame | hin
    · exact h.ne hsame
    · exact hinfix hin

/-- The URLs without a query, as far as the password goes: the user information reaches to
the last `@` before the first `/`, and the password from its first `:` on. -/
def parseUrl (s : List UInt8) : Option ((List UInt8 × List UInt8 × List UInt8) × List UInt8) :=
  (afterFirst (bytes "://") s).bind fun rest =>
    let authority := rest.takeWhile (· ≠ 47)
    let host := (authority.reverse.takeWhile (· ≠ 64)).reverse
    let info := authority.take (authority.length - host.length - 1)
    if host.length < authority.length ∧ 58 ∈ info then
      some ((info.takeWhile (· ≠ 58), host, rest.dropWhile (· ≠ 47)),
        (info.dropWhile (· ≠ 58)).drop 1)
    else none

/-- Two URLs that differ in the password. -/
theorem differInPassword_hidden : DifferInPassword parseUrl (bytes "postgres://soc:")
    (bytes "one") (bytes "two") (bytes "@db/soc") :=
  ⟨(bytes "soc", bytes "db", bytes "/soc"), bytes "one", bytes "two", by decide⟩

/-- They are logged alike. -/
theorem redactDSN_eq_hidden :
    redactDSN (bytes "postgres://soc:" ++ (bytes "one" ++ bytes "@db/soc")) =
      redactDSN (bytes "postgres://soc:" ++ (bytes "two" ++ bytes "@db/soc")) :=
  ((redactDSN_eq_iff differInPassword_hidden).2.1 (bytes "postgres") (bytes "soc") (bytes "db/soc")
    (by decide) (by decide) (by decide)).mpr (by decide)

/-- With an `@` in the password, what follows it is logged. -/
theorem redactDSN_ne_of_at :
    DifferInPassword parseUrl (bytes "postgres://soc:") (bytes "p@one") (bytes "p@two")
      (bytes "@db/soc") ∧
    redactDSN (bytes "postgres://soc:" ++ (bytes "p@one" ++ bytes "@db/soc")) =
      bytes "postgres://***@one@db/soc" ∧
    redactDSN (bytes "postgres://soc:" ++ (bytes "p@two" ++ bytes "@db/soc")) =
      bytes "postgres://***@two@db/soc" ∧
    bytes "postgres://***@one@db/soc" ≠ bytes "postgres://***@two@db/soc" :=
  ⟨⟨(bytes "soc", bytes "db", bytes "/soc"), bytes "p@one", bytes "p@two", by decide⟩, by decide⟩

end Server
