/-
# Loops with fuel, and what it means for one to return

A source loop that need not terminate is modelled by a function of a fuel
argument.  The fuel bounds the number of times the condition is tested, and the
result is `none` when it runs out or when the body is undefined.  `Returns f a`
says that `f` settles: from some fuel on the result is `a`, so the program
terminates, is defined everywhere on the way, and yields `a`.

`Outcome bad f Q` allows for programs that are undefined, but only if `bad`.

* `outcome_whileLoop`, `returns_whileLoop` : correctness of a loop from an
  invariant and a measure in `ℕ`;
* `outcome_foldlM`, `returns_foldlM` : a range loop whose body is itself such a
  program.
-/
import Mathlib.Order.Nat
import Mathlib.Data.List.Basic
import Mathlib.Tactic.Common

namespace Loop

variable {α β σ : Type*}

/-! ## Programs that settle -/

/-- From some fuel on, `f` yields `a`. -/
def Returns (f : ℕ → Option α) (a : α) : Prop :=
  ∃ n, ∀ m, n ≤ m → f m = some a

/-- A program has at most one result. -/
theorem Returns.unique {f : ℕ → Option α} {a b : α} (ha : Returns f a) (hb : Returns f b) :
    a = b := by
  obtain ⟨n, hn⟩ := ha
  obtain ⟨m, hm⟩ := hb
  have h1 := hn (max n m) (le_max_left n m)
  have h2 := hm (max n m) (le_max_right n m)
  rw [h1] at h2
  exact Option.some.inj h2

/-- A program that does not use its fuel. -/
theorem returns_const {x : Option α} {a : α} (h : x = some a) : Returns (fun _ => x) a :=
  ⟨0, fun _ _ => h⟩

/-- Sequencing: run `f`, then `g` on its result, with the same fuel. -/
theorem Returns.bind {f : ℕ → Option α} {g : ℕ → α → Option β} {a : α} {b : β}
    (hf : Returns f a) (hg : Returns (fun n => g n a) b) :
    Returns (fun n => (f n).bind (g n)) b := by
  obtain ⟨n, hn⟩ := hf
  obtain ⟨m, hm⟩ := hg
  refine ⟨max n m, fun k hk => ?_⟩
  show (f k).bind (g k) = some b
  rw [hn k (le_trans (le_max_left n m) hk), Option.bind_some]
  exact hm k (le_trans (le_max_right n m) hk)

/-- Post-processing a result by a total function. -/
theorem Returns.map {f : ℕ → Option α} {a : α} (h : α → β) (hf : Returns f a) :
    Returns (fun n => (f n).map h) (h a) := by
  obtain ⟨n, hn⟩ := hf
  refine ⟨n, fun m hm => ?_⟩
  show (f m).map h = some (h a)
  rw [hn m hm, Option.map_some]

/-! ## Programs that settle or are undefined -/

/-- `f` settles on a value with `Q`, or ends up undefined, which happens in the
case `bad` only. -/
def Outcome (bad : Prop) (f : ℕ → Option α) (Q : α → Prop) : Prop :=
  (∃ a, Returns f a ∧ Q a) ∨ (bad ∧ ∃ n, ∀ m, n ≤ m → f m = none)

section Outcome

variable {bad : Prop} {f : ℕ → Option α} {Q : α → Prop}

/-- Outside the bad case the program returns. -/
theorem Outcome.returns (h : Outcome bad f Q) (hbad : ¬ bad) : ∃ a, Returns f a ∧ Q a :=
  h.resolve_right fun hb => hbad hb.1

/-- A weaker bad case. -/
theorem Outcome.weaken {bad' : Prop} (h : Outcome bad f Q) (hbad : bad → bad') :
    Outcome bad' f Q :=
  h.imp_right fun hb => ⟨hbad hb.1, hb.2⟩

/-- Whatever the program returns has `Q`. -/
theorem Outcome.of_returns {a : α} (h : Outcome bad f Q) (ha : Returns f a) : Q a := by
  rcases h with ⟨b, hb, hQ⟩ | ⟨_, m, hm⟩
  · rw [ha.unique hb]
    exact hQ
  · obtain ⟨n, hn⟩ := ha
    have h1 := hn (max n m) (le_max_left n m)
    rw [hm (max n m) (le_max_right n m)] at h1
    exact absurd h1 (by simp)

/-- Sequencing. -/
theorem Outcome.bind {g : ℕ → α → Option β} {R : β → Prop} (hf : Outcome bad f Q)
    (hg : ∀ a, Q a → Outcome bad (fun n => g n a) R) :
    Outcome bad (fun n => (f n).bind (g n)) R := by
  rcases hf with ⟨a, ha, hQ⟩ | ⟨hb, n, hn⟩
  · rcases hg a hQ with ⟨b, hb, hR⟩ | ⟨hb, m, hm⟩
    · exact Or.inl ⟨b, ha.bind hb, hR⟩
    · obtain ⟨n, hn⟩ := ha
      refine Or.inr ⟨hb, max n m, fun k hk => ?_⟩
      show (f k).bind (g k) = none
      rw [hn k (le_trans (le_max_left n m) hk), Option.bind_some]
      exact hm k (le_trans (le_max_right n m) hk)
  · refine Or.inr ⟨hb, n, fun k hk => ?_⟩
    show (f k).bind (g k) = none
    rw [hn k hk, Option.bind_none]

/-- Post-processing a result by a total function. -/
theorem Outcome.map (h : α → β) {R : β → Prop} (hf : Outcome bad f Q)
    (hR : ∀ a, Q a → R (h a)) : Outcome bad (fun n => (f n).map h) R := by
  rcases hf with ⟨a, ha, hQ⟩ | ⟨hb, n, hn⟩
  · exact Or.inl ⟨h a, ha.map h, hR a hQ⟩
  · refine Or.inr ⟨hb, n, fun k hk => ?_⟩
    show (f k).map h = none
    rw [hn k hk, Option.map_none]

end Outcome

/-! ## Programs that settle either way -/

/-- `f` returns, or is undefined from some fuel on. -/
abbrev Settles (f : ℕ → Option α) : Prop := Outcome True f fun _ => True

theorem Outcome.settles {bad : Prop} {f : ℕ → Option α} {Q : α → Prop} (h : Outcome bad f Q) :
    Settles f := by
  rcases h with ⟨a, ha, -⟩ | ⟨-, h⟩
  · exact Or.inl ⟨a, ha, trivial⟩
  · exact Or.inr ⟨trivial, h⟩

theorem outcome_none {bad : Prop} {Q : α → Prop} (h : bad) :
    Outcome bad (fun _ => none) Q :=
  Or.inr ⟨h, 0, fun _ _ => rfl⟩

theorem outcome_some {bad : Prop} {Q : α → Prop} {a : α} (h : Q a) :
    Outcome bad (fun _ => some a) Q :=
  Or.inl ⟨a, returns_const rfl, h⟩

/-- A sequence returns only through the results of its parts. -/
theorem Returns.of_bind {f : ℕ → Option α} {g : ℕ → α → Option β} {b : β} (hf : Settles f)
    (h : Returns (fun n => (f n).bind (g n)) b) :
    ∃ a, Returns f a ∧ Returns (fun n => g n a) b := by
  obtain ⟨m, hm⟩ := h
  rcases hf with ⟨a, ⟨n, hn⟩, -⟩ | ⟨-, n, hn⟩
  · refine ⟨a, ⟨n, hn⟩, max n m, fun k hk => ?_⟩
    have hb : (f k).bind (g k) = some b := hm k (le_trans (le_max_right n m) hk)
    rwa [hn k (le_trans (le_max_left n m) hk), Option.bind_some] at hb
  · have hb : (f (max n m)).bind (g (max n m)) = some b := hm _ (le_max_right n m)
    rw [hn _ (le_max_left n m), Option.bind_none] at hb
    exact absurd hb (by simp)

/-! ## While loops -/

/-- `while (cond) body`, testing the condition at most `fuel` times. -/
def whileLoop (cond : σ → Bool) (body : σ → Option σ) : ℕ → σ → Option σ
  | 0, _ => none
  | fuel + 1, s => if cond s then (body s).bind (whileLoop cond body fuel) else some s

/-- More fuel than the measure is enough to leave the loop. -/
theorem whileLoop_of_measure {cond : σ → Bool} {body : σ → Option σ} {bad : Prop}
    (I : σ → Prop) (μ : σ → ℕ)
    (hstep : ∀ s, I s → cond s = true →
      (bad ∧ body s = none) ∨ ∃ s', body s = some s' ∧ I s' ∧ μ s' < μ s) :
    ∀ n s, I s → μ s < n →
      (∃ s', I s' ∧ cond s' = false ∧ ∀ m, n ≤ m → whileLoop cond body m s = some s') ∨
        (bad ∧ ∀ m, n ≤ m → whileLoop cond body m s = none) := by
  intro n
  induction n with
  | zero => intro s _ hlt; exact absurd hlt (Nat.not_lt_zero _)
  | succ n ih =>
    intro s hI hlt
    have hsucc : ∀ m, n + 1 ≤ m → ∃ k, m = k + 1 ∧ n ≤ k := fun m hm => ⟨m - 1, by omega⟩
    -- a round lowers the measure, and one unit of fuel pays for it
    by_cases hc : cond s = true
    · rcases hstep s hI hc with ⟨hbad, hbody⟩ | ⟨t, hbody, hIt, hμ⟩
      · refine Or.inr ⟨hbad, fun m hm => ?_⟩
        obtain ⟨k, rfl, -⟩ := hsucc m hm
        rw [whileLoop, if_pos hc, hbody, Option.bind_none]
      · rcases ih t hIt (by omega) with ⟨s', hI', hc', hloop⟩ | ⟨hbad, hloop⟩
        · refine Or.inl ⟨s', hI', hc', fun m hm => ?_⟩
          obtain ⟨k, rfl, hk⟩ := hsucc m hm
          rw [whileLoop, if_pos hc, hbody, Option.bind_some]
          exact hloop k hk
        · refine Or.inr ⟨hbad, fun m hm => ?_⟩
          obtain ⟨k, rfl, hk⟩ := hsucc m hm
          rw [whileLoop, if_pos hc, hbody, Option.bind_some]
          exact hloop k hk
    · refine Or.inl ⟨s, hI, by simpa using hc, fun m hm => ?_⟩
      obtain ⟨k, rfl, -⟩ := hsucc m hm
      rw [whileLoop, if_neg hc]

/-- **Correctness of a while loop** whose body keeps the invariant and lowers the
measure, or is undefined in the bad case. -/
theorem outcome_whileLoop (cond : σ → Bool) (body : σ → Option σ) (bad : Prop)
    (I : σ → Prop) (μ : σ → ℕ)
    (hstep : ∀ s, I s → cond s = true →
      (bad ∧ body s = none) ∨ ∃ s', body s = some s' ∧ I s' ∧ μ s' < μ s)
    {s : σ} (hs : I s) :
    Outcome bad (fun n => whileLoop cond body n s) fun s' => I s' ∧ cond s' = false := by
  rcases whileLoop_of_measure I μ hstep (μ s + 1) s hs (Nat.lt_succ_self _) with
    ⟨s', hI', hc', hloop⟩ | ⟨hbad, hloop⟩
  · exact Or.inl ⟨s', ⟨μ s + 1, hloop⟩, hI', hc'⟩
  · exact Or.inr ⟨hbad, μ s + 1, hloop⟩

/-- **Total correctness of a while loop**: a body that keeps the invariant and
lowers the measure makes the loop return a state with the invariant in which the
condition fails. -/
theorem returns_whileLoop (cond : σ → Bool) (body : σ → Option σ) (I : σ → Prop) (μ : σ → ℕ)
    (hstep : ∀ s, I s → cond s = true → ∃ s', body s = some s' ∧ I s' ∧ μ s' < μ s)
    {s : σ} (hs : I s) :
    ∃ s', Returns (fun n => whileLoop cond body n s) s' ∧ I s' ∧ cond s' = false :=
  (outcome_whileLoop cond body False I μ (fun s hI hc => Or.inr (hstep s hI hc)) hs).returns id

/-- **Partial correctness**: an invariant of the body holds where the loop ends. -/
theorem whileLoop_induct {cond : σ → Bool} {body : σ → Option σ} (I : σ → Prop)
    (hstep : ∀ s t, I s → cond s = true → body s = some t → I t) {fuel : ℕ} {s t : σ} (hs : I s)
    (h : whileLoop cond body fuel s = some t) : I t ∧ cond t = false := by
  induction fuel generalizing s with
  | zero => exact absurd h (by simp [whileLoop])
  | succ fuel ih =>
    rw [whileLoop] at h
    split_ifs at h with hcond
    · obtain ⟨s', hbody, hloop⟩ := Option.bind_eq_some_iff.mp h
      exact ih (hstep s s' hs hcond hbody) hloop
    · obtain rfl := Option.some.inj h
      exact ⟨hs, Bool.eq_false_iff.mpr hcond⟩

/-! ## Range loops -/

/-- **A range loop** over `l` whose body is a program with fuel: the invariant
speaks of the elements already handled. -/
theorem outcome_foldlM (body : ℕ → σ → α → Option σ) (bad : Prop) (I : List α → σ → Prop)
    (l : List α)
    (hstep : ∀ done a rest s, l = done ++ a :: rest → I done s →
      Outcome bad (fun n => body n s a) (I (done ++ [a])))
    {s : σ} (hs : I [] s) : Outcome bad (fun n => l.foldlM (body n) s) (I l) := by
  suffices key : ∀ rest done s, l = done ++ rest → I done s →
      Outcome bad (fun n => rest.foldlM (body n) s) (I l) from key l [] s rfl hs
  intro rest
  induction rest with
  | nil =>
    intro done s hl hI
    rw [List.append_nil] at hl
    exact Or.inl ⟨s, returns_const rfl, hl ▸ hI⟩
  | cons a rest ih =>
    intro done s hl hI
    exact (hstep done a rest s hl hI).bind fun t ht =>
      ih (done ++ [a]) t (by rw [hl]; simp) ht

/-- The case of a body that always returns. -/
theorem returns_foldlM (body : ℕ → σ → α → Option σ) (I : List α → σ → Prop) (l : List α)
    (hstep : ∀ done a rest s, l = done ++ a :: rest → I done s →
      ∃ s', Returns (fun n => body n s a) s' ∧ I (done ++ [a]) s')
    {s : σ} (hs : I [] s) :
    ∃ s', Returns (fun n => l.foldlM (body n) s) s' ∧ I l s' :=
  (outcome_foldlM body False I l
    (fun done a rest s hl hI => Or.inl (hstep done a rest s hl hI)) hs).returns id

/-- **Partial correctness**: what every round preserves holds after the loop. -/
theorem foldlM_induct {body : σ → α → Option σ} (I : List α → σ → Prop) {l : List α}
    (hstep : ∀ done a rest s t, l = done ++ a :: rest → I done s → body s a = some t →
      I (done ++ [a]) t)
    {s t : σ} (hs : I [] s) (h : l.foldlM body s = some t) : I l t := by
  suffices key : ∀ rest done s, l = done ++ rest → I done s → rest.foldlM body s = some t →
      I l t from key l [] s rfl hs h
  intro rest
  induction rest with
  | nil =>
    intro done s hl hI hrest
    obtain rfl := Option.some.inj hrest
    rwa [hl, List.append_nil]
  | cons a rest ih =>
    intro done s hl hI hrest
    rw [List.foldlM_cons] at hrest
    obtain ⟨s', hbody, hloop⟩ := Option.bind_eq_some_iff.mp hrest
    exact ih (done ++ [a]) s' (by rw [hl, List.append_cons]) (hstep done a rest s s' hl hI hbody)
      hloop

theorem foldlM_concat (body : ℕ → σ → α → Option σ) (l : List α) (a : α) (s : σ) (n : ℕ) :
    (l ++ [a]).foldlM (body n) s = (l.foldlM (body n) s).bind fun s' => body n s' a := by
  rw [List.foldlM_append]
  cases l.foldlM (body n) s with
  | none => rfl
  | some s' => simp

/-- A range loop whose body settles returns exactly when each round does. -/
theorem returns_foldlM_concat {body : ℕ → σ → α → Option σ}
    (hbody : ∀ s a, Settles fun n => body n s a) {l : List α} {a : α} {s r : σ} :
    Returns (fun n => (l ++ [a]).foldlM (body n) s) r ↔
      ∃ s', Returns (fun n => l.foldlM (body n) s) s' ∧ Returns (fun n => body n s' a) r := by
  simp only [foldlM_concat]
  constructor
  · refine Returns.of_bind ?_
    exact outcome_foldlM body True (fun _ _ => True) l (fun _ a _ s _ _ => hbody s a) trivial
  · rintro ⟨s', hs', hr⟩
    exact hs'.bind hr

end Loop
