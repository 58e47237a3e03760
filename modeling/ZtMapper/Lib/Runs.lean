/-
# Runs of operations

A run is a list of operations, and grows at its end.  `Along P` says that every
operation of a run satisfies `P` together with the operations before it;
`along_iff` proves a prefix-closed property of runs equal to such a condition, one
operation at a time.  `reach` runs a machine whose steps may be impossible.
-/
import Mathlib.Data.List.Induction

namespace Runs

variable {σ ε : Type*}

/-! ## Conditions along a run -/

/-- Every operation satisfies `P` with the operations before it. -/
def Along (P : List ε → ε → Prop) (ops : List ε) : Prop :=
  ∀ pre op post, ops = pre ++ op :: post → P pre op

variable {P Q : List ε → ε → Prop} {ops : List ε} {op : ε}

/-- The empty run meets every condition. -/
theorem along_nil : Along P [] := fun pre op post h => absurd h (by simp)

/-- A split of a run with one more operation is a split of the run, or the split
before that operation. -/
theorem concat_eq_append_cons_iff {pre post : List ε} {o : ε} :
    ops ++ [op] = pre ++ o :: post ↔
      (pre = ops ∧ o = op ∧ post = []) ∨ ∃ post', post = post' ++ [op] ∧ ops = pre ++ o :: post' := by
  constructor
  · intro h
    rcases List.eq_nil_or_concat post with rfl | ⟨post', o', rfl⟩
    · obtain ⟨hpre, hop⟩ := List.append_inj' h rfl
      exact Or.inl ⟨hpre.symm, (List.singleton_inj.mp hop).symm, rfl⟩
    · rw [List.concat_eq_append, ← List.cons_append, ← List.append_assoc] at h
      obtain ⟨hops, hop⟩ := List.append_inj' h rfl
      exact Or.inr ⟨post', by rw [List.concat_eq_append, List.singleton_inj.mp hop], hops⟩
  · rintro (⟨rfl, rfl, rfl⟩ | ⟨post', rfl, rfl⟩)
    · rfl
    · rw [List.append_assoc, List.cons_append]

/-- A run meets a condition step by step. -/
theorem along_concat : Along P (ops ++ [op]) ↔ Along P ops ∧ P ops op := by
  constructor
  · intro h
    refine ⟨fun pre o post heq => h pre o (post ++ [op]) ?_, h ops op [] rfl⟩
    rw [heq, List.append_assoc, List.cons_append]
  · rintro ⟨hops, hop⟩ pre o post heq
    rcases concat_eq_append_cons_iff.mp heq with ⟨rfl, rfl, -⟩ | ⟨post', -, heq'⟩
    · exact hop
    · exact hops pre o post' heq'

/-- A weaker condition is met too. -/
theorem Along.mono (h : Along P ops) (hPQ : ∀ pre op, P pre op → Q pre op) : Along Q ops :=
  fun pre op post heq => hPQ pre op (h pre op post heq)

/-- What is met along a run is met along its beginning. -/
theorem Along.of_append {rest : List ε} (h : Along P (ops ++ rest)) : Along P ops := by
  intro pre op post heq
  refine h pre op (post ++ rest) ?_
  rw [heq, List.append_assoc, List.cons_append]

/-- The condition at each position. -/
theorem along_iff_getElem :
    Along P ops ↔ ∀ i, (hi : i < ops.length) → P (ops.take i) ops[i] := by
  constructor
  · intro h i hi
    refine h (ops.take i) ops[i] (ops.drop (i + 1)) ?_
    rw [← List.drop_eq_getElem_cons hi, List.take_append_drop]
  · rintro h pre op post rfl
    have hi : pre.length < (pre ++ op :: post).length := by simp
    have hP := h pre.length hi
    rwa [List.take_left, List.getElem_of_append rfl rfl] at hP

instance [∀ pre op, Decidable (P pre op)] (ops : List ε) : Decidable (Along P ops) :=
  decidable_of_iff _ along_iff_getElem.symm

/-- A property that the empty run has, and that a run with one more operation has
exactly when the run has it and the operation satisfies `P`. -/
theorem along_iff {G : List ε → Prop} (hnil : G [])
    (hpre : ∀ ops op, G (ops ++ [op]) → G ops)
    (hstep : ∀ ops op, G ops → Along P ops → (G (ops ++ [op]) ↔ P ops op))
    (ops : List ε) : G ops ↔ Along P ops := by
  induction ops using List.reverseRecOn with
  | nil => exact iff_of_true hnil along_nil
  | append_singleton ops op ih =>
    rw [along_concat]
    constructor
    · intro h
      have hgood := hpre ops op h
      have halong := ih.mp hgood
      exact ⟨halong, (hstep ops op hgood halong).mp h⟩
    · rintro ⟨halong, hop⟩
      exact (hstep ops op (ih.mpr halong) halong).mpr hop

/-! ## Machines -/

/-- The state after some operations, when all of them are possible. -/
def reach (step : σ → ε → Option σ) (s : σ) (ops : List ε) : Option σ := ops.foldlM step s

variable {step : σ → ε → Option σ} {s s' : σ}

/-- A run from its first step. -/
theorem reach_cons : reach step s (op :: ops) = (step s op).bind fun s => reach step s ops :=
  List.foldlM_cons

/-- The beginning of a possible run is possible. -/
theorem reach_of_append {rest : List ε} (h : reach step s (ops ++ rest) = some s') :
    ∃ s₁, reach step s ops = some s₁ := by
  rw [reach, List.foldlM_append] at h
  obtain ⟨s₁, hs₁, -⟩ := Option.bind_eq_some_iff.mp h
  exact ⟨s₁, hs₁⟩

/-- A run up to its last step. -/
theorem reach_concat : reach step s (ops ++ [op]) = (reach step s ops).bind fun s => step s op := by
  rw [reach, List.foldlM_append]
  refine congrArg _ (funext fun s => ?_)
  rw [List.foldlM_cons]
  exact bind_pure (step s op)

/-- The state before the last step. -/
theorem reach_concat_eq_some :
    reach step s (ops ++ [op]) = some s' ↔ ∃ s₁, reach step s ops = some s₁ ∧ step s₁ op = some s' := by
  rw [reach_concat, Option.bind_eq_some_iff]

/-- The operation at a split of a possible run, between two states. -/
theorem reach_split {pre post : List ε} (h : reach step s ops = some s')
    (heq : ops = pre ++ op :: post) :
    ∃ s₁ s₂, reach step s pre = some s₁ ∧ step s₁ op = some s₂ ∧
      reach step s (pre ++ [op]) = some s₂ := by
  have hsplit : ops = (pre ++ [op]) ++ post := by rw [heq, List.append_assoc]; rfl
  obtain ⟨s₂, hs₂⟩ := reach_of_append (hsplit ▸ h)
  obtain ⟨s₁, hs₁, hstep⟩ := reach_concat_eq_some.mp hs₂
  exact ⟨s₁, s₂, hs₁, hstep, hs₂⟩

/-- What holds at the start and is kept by every step holds after every run. -/
theorem reach_invariant {I : σ → Prop} (h₀ : I s)
    (hstep : ∀ s op s', I s → step s op = some s' → I s') (h : reach step s ops = some s') :
    I s' := by
  induction ops using List.reverseRecOn generalizing s' with
  | nil =>
    obtain rfl := Option.some.inj h
    exact h₀
  | append_singleton ops op ih =>
    obtain ⟨s₁, hs₁, hop⟩ := reach_concat_eq_some.mp h
    exact hstep s₁ op s' (ih hs₁) hop

/-! ## Safe runs -/

/-- Every operation is possible, and it is safe in the state in which it happens. -/
def SafeRun (step : σ → ε → Option σ) (Safe : σ → ε → Prop) (s : σ) (ops : List ε) (s' : σ) : Prop :=
  reach step s ops = some s' ∧
    Along (fun pre op => ∀ t, reach step s pre = some t → Safe t op) ops

variable {Safe : σ → ε → Prop} {s₁ : σ}

/-- The empty run is safe. -/
theorem safeRun_nil : SafeRun step Safe s [] s := ⟨rfl, along_nil⟩

/-- A safe run up to its last step. -/
theorem safeRun_concat : SafeRun step Safe s (ops ++ [op]) s' ↔
    ∃ s₁, SafeRun step Safe s ops s₁ ∧ Safe s₁ op ∧ step s₁ op = some s' := by
  unfold SafeRun
  rw [reach_concat_eq_some, along_concat]
  constructor
  · rintro ⟨⟨s₁, hs₁, hstep⟩, hpre, hop⟩
    exact ⟨s₁, ⟨hs₁, hpre⟩, hop s₁ hs₁, hstep⟩
  · rintro ⟨s₁, ⟨hs₁, hpre⟩, hop, hstep⟩
    refine ⟨⟨s₁, hs₁, hstep⟩, hpre, fun t ht => ?_⟩
    obtain rfl := Option.some.inj (hs₁.symm.trans ht)
    exact hop

/-- A safe step prolongs a safe run. -/
theorem SafeRun.concat (h : SafeRun step Safe s ops s₁) (op : ε) (hop : Safe s₁ op)
    (hstep : step s₁ op = some s') : SafeRun step Safe s (ops ++ [op]) s' :=
  safeRun_concat.mpr ⟨s₁, h, hop, hstep⟩

/-- Safe runs one after the other. -/
theorem SafeRun.append {ops' : List ε} (h : SafeRun step Safe s ops s₁)
    (h' : SafeRun step Safe s₁ ops' s') : SafeRun step Safe s (ops ++ ops') s' := by
  induction ops' using List.reverseRecOn generalizing s' with
  | nil =>
    obtain rfl := Option.some.inj h'.1
    rwa [List.append_nil]
  | append_singleton ops' op ih =>
    obtain ⟨s₂, hs₂, hop, hstep⟩ := safeRun_concat.mp h'
    rw [← List.append_assoc]
    exact (ih hs₂).concat op hop hstep

end Runs
