/-
# Unordered containers

A hash map is modelled by a `Finmap` and a hash set by a `Finset`: neither has
an order.  The order in which a loop over such a container meets its elements is
an `Enumerates` list, arbitrary in every theorem about the loop.

A loop that visits every entry of a map once, and changes or erases it, has a
result that does not depend on the order: `filterMapValues`.
-/
import Mathlib.Data.Finmap
import Mathlib.Algebra.BigOperators.Group.Finset.Basic
import Mathlib.Algebra.Order.BigOperators.Group.Finset
import Mathlib.Tactic.Common

namespace Unordered

variable {α β : Type*}

/-! ## Enumerations of a set -/

/-- `l` lists the elements of `s`, each once, in some order. -/
def Enumerates (l : List α) (s : Finset α) : Prop := (l : Multiset α) = s.val

instance [DecidableEq α] (l : List α) (s : Finset α) : Decidable (Enumerates l s) :=
  inferInstanceAs (Decidable ((l : Multiset α) = s.val))

/-- An enumeration has the elements of its set. -/
theorem Enumerates.mem_iff {l : List α} {s : Finset α} (h : Enumerates l s) (a : α) :
    a ∈ l ↔ a ∈ s := by
  rw [← Finset.mem_val, ← h, Multiset.mem_coe]

/-- An enumeration repeats nothing. -/
theorem Enumerates.nodup {l : List α} {s : Finset α} (h : Enumerates l s) : l.Nodup := by
  rw [← Multiset.coe_nodup, h]
  exact s.nodup

/-! ## Maps -/

section Map

variable [DecidableEq α]

/-- A map with values of one type. -/
abbrev Map (α β : Type*) := Finmap (fun _ : α => β)

/-- Lookup after an insertion. -/
theorem lookup_insert_eq (m : Map α β) (a b : α) (v : β) :
    (m.insert a v).lookup b = if b = a then some v else m.lookup b := by
  by_cases h : b = a
  · rw [if_pos h, h, Finmap.lookup_insert]
  · rw [if_neg h, Finmap.lookup_insert_of_ne _ h]

/-- Lookup after an erasure. -/
theorem lookup_erase_eq (m : Map α β) (a b : α) :
    (m.erase a).lookup b = if b = a then none else m.lookup b := by
  by_cases h : b = a
  · rw [if_pos h, h, Finmap.lookup_erase]
  · rw [if_neg h, Finmap.lookup_erase_ne h]

/-- An insertion adds its key. -/
theorem keys_insert (m : Map α β) (a : α) (v : β) :
    (m.insert a v).keys = insert a m.keys := by
  ext b
  rw [Finmap.mem_keys, Finmap.mem_insert, Finset.mem_insert, Finmap.mem_keys]

/-- A map filled from a list whose keys differ. -/
theorem lookup_foldl_insert {γ : Type*} {f : γ → α} {g : γ → β} {l : List γ} (h : (l.map f).Nodup)
    (m : Map α β) (a : α) (v : β) :
    (l.foldl (fun m c => m.insert (f c) (g c)) m).lookup a = some v ↔
      (∃ c ∈ l, f c = a ∧ g c = v) ∨ (a ∉ l.map f ∧ m.lookup a = some v) := by
  induction l generalizing m with
  | nil => simp
  | cons c l ih =>
    rw [List.map_cons, List.nodup_cons] at h
    rw [List.foldl_cons, ih h.2, lookup_insert_eq]
    by_cases hc : a = f c
    · subst hc
      have hnot : ¬ ∃ c' ∈ l, f c' = f c ∧ g c' = v := fun ⟨c', hc', heq, _⟩ =>
        h.1 (heq ▸ List.mem_map_of_mem hc')
      simp only [hnot, false_or, h.1, not_false_eq_true, true_and, if_true, List.map_cons,
        List.mem_cons, not_true_eq_false, false_and, or_false, Option.some.injEq,
        exists_eq_or_imp]
    · rw [if_neg hc]
      simp only [List.map_cons, List.mem_cons, hc, false_or, exists_eq_or_imp,
        show ¬ f c = a from fun heq => hc heq.symm, false_and]

/-! ## Visiting every entry -/

variable {γ : Type*}

/-- The loop body on one entry. -/
def mapEntry (f : β → Option γ) (e : Sigma fun _ : α => β) : Option (Sigma fun _ : α => γ) :=
  (f e.2).map fun c => ⟨e.1, c⟩

omit [DecidableEq α] in
/-- What one entry is mapped to. -/
theorem mem_mapEntry {f : β → Option γ} {e : Sigma fun _ : α => β} {a : α} {c : γ} :
    (⟨a, c⟩ : Sigma fun _ : α => γ) ∈ mapEntry f e ↔ e.1 = a ∧ f e.2 = some c := by
  rw [mapEntry, Option.mem_def, Option.map_eq_some_iff]
  constructor
  · rintro ⟨c', hc', heq⟩
    cases heq
    exact ⟨rfl, hc'⟩
  · rintro ⟨rfl, hc⟩
    exact ⟨c, hc, rfl⟩

/-- Replace every value by its image under `f`, erasing the entry when there is
none. -/
def filterMapValues (f : β → Option γ) (m : Map α β) : Map α γ where
  entries := m.entries.filterMap (mapEntry f)
  nodupKeys := by
    rcases m with ⟨⟨l⟩, hl⟩
    refine Multiset.coe_nodupKeys.mpr (List.nodupKeys_iff_pairwise.mpr ?_)
    refine List.Pairwise.filterMap _ ?_ (List.nodupKeys_iff_pairwise.mp (Multiset.coe_nodupKeys.mp hl))
    rintro e e' hne ⟨a, c⟩ hc ⟨a', c'⟩ hc'
    rw [← (mem_mapEntry.mp hc).1, ← (mem_mapEntry.mp hc').1]
    exact hne

/-- Mapping the values, some of them to nothing. -/
@[simp] theorem lookup_filterMapValues (f : β → Option γ) (m : Map α β) (a : α) :
    (filterMapValues f m).lookup a = (m.lookup a).bind f := by
  ext c
  rw [Finmap.lookup_eq_some_iff, Option.bind_eq_some_iff]
  show _ ∈ m.entries.filterMap (mapEntry f) ↔ _
  rw [Multiset.mem_filterMap]
  constructor
  · rintro ⟨⟨a', v⟩, hmem, he⟩
    obtain ⟨rfl, hv⟩ := mem_mapEntry.mp he
    exact ⟨v, Finmap.lookup_eq_some_iff.mpr hmem, hv⟩
  · rintro ⟨v, hmem, hv⟩
    exact ⟨⟨a, v⟩, Finmap.lookup_eq_some_iff.mp hmem, mem_mapEntry.mpr ⟨rfl, hv⟩⟩

/-- What the loop does to the entry under `a`. -/
def visit (f : β → Option β) (m : Map α β) (a : α) : Map α β :=
  match (m.lookup a).bind f with
  | some c => m.insert a c
  | none => m.erase a

/-- Rewriting the value of one key. -/
theorem lookup_visit (f : β → Option β) (m : Map α β) (a b : α) :
    (visit f m a).lookup b = if b = a then (m.lookup a).bind f else m.lookup b := by
  unfold visit
  cases h : (m.lookup a).bind f with
  | none => exact lookup_erase_eq m a b
  | some c => exact lookup_insert_eq m a b c

/-- A loop that visits the keys in any order computes `filterMapValues`. -/
theorem foldl_visit (f : β → Option β) {m : Map α β} {l : List α} (h : Enumerates l m.keys) :
    l.foldl (visit f) m = filterMapValues f m := by
  suffices key : ∀ (l : List α) (m' : Map α β), l.Nodup →
      ∀ a, (l.foldl (visit f) m').lookup a
        = if a ∈ l then (m'.lookup a).bind f else m'.lookup a by
    refine Finmap.ext_lookup fun a => ?_
    rw [key l m h.nodup a, lookup_filterMapValues]
    split_ifs with ha
    · rfl
    · rw [h.mem_iff, Finmap.mem_keys, ← Finmap.lookup_eq_none] at ha
      rw [ha]
      rfl
  intro l
  induction l with
  | nil => intro m' _ a; rw [if_neg List.not_mem_nil]; rfl
  | cons b l ih =>
    intro m' hnd a
    obtain ⟨hb, hl⟩ := List.nodup_cons.mp hnd
    rw [List.foldl_cons, ih _ hl a, lookup_visit]
    by_cases hab : a = b
    · subst hab
      rw [if_neg hb, if_pos rfl, if_pos List.mem_cons_self]
    · rw [if_neg hab]
      simp only [List.mem_cons, hab, false_or]

/-! ## Writing a list of entries -/

/-- Write the entries that the elements of a list give, in the order of the list. -/
def insertAll (f : γ → Option (α × β)) (l : List γ) : Map α β :=
  l.foldl (fun m x => (f x).elim m fun e => m.insert e.1 e.2) ∅

/-- Insertions one at a time. -/
theorem insertAll_concat (f : γ → Option (α × β)) (l : List γ) (x : γ) :
    insertAll f (l ++ [x]) = (f x).elim (insertAll f l) fun e => (insertAll f l).insert e.1 e.2 := by
  unfold insertAll
  rw [List.foldl_append, List.foldl_cons, List.foldl_nil]

/-- The last entry of a key wins. -/
theorem lookup_insertAll {f : γ → Option (α × β)} {l : List γ} {a : α} {b : β} :
    (insertAll f l).lookup a = some b ↔
      ∃ pre x post, l = pre ++ x :: post ∧ f x = some (a, b) ∧
        ∀ y ∈ post, ∀ b', f y ≠ some (a, b') := by
  induction l using List.reverseRecOn with
  | nil =>
    constructor
    · intro h
      cases h
    · rintro ⟨pre, x, post, heq, -⟩
      exact absurd heq (List.append_ne_nil_of_right_ne_nil _ (List.cons_ne_nil _ _)).symm
  | append_singleton l y ih =>
    -- what an earlier entry says, when the last element does not write the key
    have hearlier : (∀ b', f y ≠ some (a, b')) →
        ((∃ pre x post, l ++ [y] = pre ++ x :: post ∧ f x = some (a, b) ∧
            ∀ z ∈ post, ∀ b', f z ≠ some (a, b')) ↔ (insertAll f l).lookup a = some b) := by
      intro hy
      rw [ih]
      constructor
      · rintro ⟨pre, x, post, heq, hx, hpost⟩
        rcases List.eq_nil_or_concat' post with rfl | ⟨post', z, rfl⟩
        · obtain ⟨-, hlast⟩ := List.append_inj' heq rfl
          exact absurd ((List.singleton_inj.mp hlast) ▸ hx) (hy b)
        · rw [← List.cons_append, ← List.append_assoc] at heq
          obtain ⟨hinit, -⟩ := List.append_inj' heq rfl
          exact ⟨pre, x, post', hinit, hx, fun z hz => hpost z (List.mem_append_left _ hz)⟩
      · rintro ⟨pre, x, post, rfl, hx, hpost⟩
        refine ⟨pre, x, post ++ [y], by rw [List.append_assoc]; rfl, hx, fun z hz => ?_⟩
        rcases List.mem_append.mp hz with hz | hz
        · exact hpost z hz
        · exact (List.mem_singleton.mp hz) ▸ hy
    rw [insertAll_concat]
    cases hy : f y with
    | none => exact (hearlier fun b' h => nomatch hy.symm.trans h).symm
    | some e =>
      obtain ⟨a', c⟩ := e
      rw [Option.elim_some, lookup_insert_eq]
      split_ifs with ha
      · subst ha
        constructor
        · intro h
          obtain rfl := Option.some.inj h
          exact ⟨l, y, [], rfl, hy, fun z hz => absurd hz List.not_mem_nil⟩
        · rintro ⟨pre, x, post, heq, hx, hpost⟩
          rcases List.eq_nil_or_concat' post with rfl | ⟨post', z, rfl⟩
          · obtain ⟨-, hlast⟩ := List.append_inj' heq rfl
            obtain rfl := List.singleton_inj.mp hlast
            obtain ⟨-, rfl⟩ := Prod.mk.inj (Option.some.inj (hy.symm.trans hx))
            rfl
          · rw [← List.cons_append, ← List.append_assoc] at heq
            obtain ⟨-, hlast⟩ := List.append_inj' heq rfl
            obtain rfl := List.singleton_inj.mp hlast
            exact absurd hy (hpost y (List.mem_append_right _ List.mem_cons_self) c)
      · refine (hearlier fun b' h => ?_).symm
        exact ha (Prod.mk.inj (Option.some.inj (hy.symm.trans h))).1.symm

/-- The keys inserted. -/
theorem mem_insertAll {f : γ → Option (α × β)} {l : List γ} {a : α} :
    a ∈ insertAll f l ↔ ∃ x ∈ l, ∃ b, f x = some (a, b) := by
  induction l using List.reverseRecOn with
  | nil => exact iff_of_false Finmap.notMem_empty fun ⟨x, hx, _⟩ => List.not_mem_nil hx
  | append_singleton l y ih =>
    rw [insertAll_concat]
    simp only [List.mem_append, List.mem_singleton, or_and_right, exists_or, exists_eq_left]
    rw [← ih]
    cases hy : f y with
    | none => exact (or_iff_left fun ⟨b, h⟩ => nomatch h).symm
    | some e =>
      obtain ⟨a', c⟩ := e
      rw [Option.elim_some, Finmap.mem_insert, or_comm]
      refine or_congr_right ⟨?_, ?_⟩
      · rintro rfl
        exact ⟨c, rfl⟩
      · rintro ⟨b, h⟩
        exact (Prod.mk.inj (Option.some.inj h)).1.symm

/-- Nothing is inserted when there is nothing to insert. -/
theorem insertAll_eq_empty_iff {f : γ → Option (α × β)} {l : List γ} :
    insertAll f l = ∅ ↔ ∀ x ∈ l, f x = none := by
  constructor
  · intro hempty x hx
    by_contra hne
    obtain ⟨⟨a, b⟩, hab⟩ := Option.ne_none_iff_exists'.mp hne
    have hmem : a ∈ insertAll f l := mem_insertAll.mpr ⟨x, hx, b, hab⟩
    rw [hempty] at hmem
    exact Finmap.notMem_empty hmem
  · intro h
    refine Finmap.ext_lookup fun a => ?_
    rw [Finmap.lookup_empty, Finmap.lookup_eq_none, mem_insertAll]
    rintro ⟨x, hx, b, hb⟩
    exact nomatch (h x hx).symm.trans hb

/-- `l` lists the entries of `m`, each once, in some order. -/
def Lists (l : List (α × β)) (m : Map α β) : Prop :=
  (l : Multiset (α × β)) = m.entries.map fun e => (e.1, e.2)

omit [DecidableEq α] in
/-- Every map can be listed. -/
theorem exists_lists (m : Map α β) : ∃ l, Lists l m := ⟨_, Multiset.coe_toList _⟩

/-- A listing has the entries of its map. -/
theorem Lists.mem_iff {l : List (α × β)} {m : Map α β} (h : Lists l m) {a : α} {b : β} :
    (a, b) ∈ l ↔ m.lookup a = some b := by
  rw [← Multiset.mem_coe, h, Multiset.mem_map, Finmap.lookup_eq_some_iff]
  constructor
  · rintro ⟨e, he, heq⟩
    obtain ⟨rfl, rfl⟩ := Prod.mk.inj heq
    exact he
  · exact fun he => ⟨⟨a, b⟩, he, rfl⟩

/-- **Writing the listed entries** makes the map, in every order. -/
theorem insertAll_of_lists {l : List (α × β)} {m : Map α β} (h : Lists l m) :
    insertAll some l = m := by
  -- a written entry is an entry of the map
  have hle : ∀ {a b}, (insertAll some l).lookup a = some b → m.lookup a = some b := by
    intro a b hab
    obtain ⟨pre, x, post, rfl, hx, -⟩ := lookup_insertAll.mp hab
    exact h.mem_iff.mp (by simp [Option.some.inj hx])
  refine Finmap.ext_lookup fun a => ?_
  cases hw : (insertAll some l).lookup a with
  | some b => exact (hle hw).symm
  | none =>
    cases hm : m.lookup a with
    | none => rfl
    | some b =>
      have hmem : a ∈ insertAll some l := mem_insertAll.mpr ⟨(a, b), h.mem_iff.mpr hm, b, rfl⟩
      exact absurd hmem (Finmap.lookup_eq_none.mp hw)

end Map

end Unordered
