/-
# The networks section

The section is loaded item by item, and leaves the rest of the configuration
alone.  The value of `cidr` is not validated: the section is loaded as it is meant
exactly when all its values are valid (`exact_iff`).
-/
import ZtMapper.ConfigLoader.Fields
import ZtMapper.Lib.Fallible

open Engine Scan Fallible

namespace ConfigLoader

/-- `- cidr: S`, `label: L`, `name: N`. -/
structure Item where
  cidr : List UInt8
  label : Int32
  name : List UInt8
  scalar_cidr : Scalar cidr
  scalar_name : Scalar name
  name_ne_nil : name ≠ []

/-- The lines of the items, blank lines left out. -/
inductive ItemLines : List Item → List (List UInt8) → Prop
  | nil : ItemLines [] []
  | cons {item : Item} {items : List Item} {l₁ l₂ l₃ label : List UInt8}
      {lines : List (List UInt8)} {i₁ i₂ i₃ : ℕ} :
      Field l₁ (i₁ + 1) (bytes "- cidr") item.cidr →
      Field l₂ (i₂ + 1) (bytes "label") label → IsInt label item.label →
      Field l₃ (i₃ + 1) (bytes "name") item.name →
      ItemLines items lines → ItemLines (item :: items) (l₁ :: l₂ :: l₃ :: lines)

/-- The section that a line opens. -/
def opens (line : List UInt8) : Option Section :=
  let line := stripComment line
  let trimmed := strip line
  if trimmed ≠ [] ∧ indentOf line = 0 then Loader.sectionOf (extractKey trimmed) else none

/-- The file is a networks section of the items, with other sections before and after
it. -/
def HasNetworks (items : List Item) (file : List UInt8) (before after : List (List UInt8)) : Prop :=
  ∃ header lines, pieces 10 file = before ++ header :: (lines ++ after) ∧
    opens header = some .networks ∧ ItemLines items (lines.filter fun line => ¬ Blank line) ∧
    (∀ line ∈ before ++ after, opens line ≠ some .networks) ∧
    ∀ line ∈ (after.filter fun line => ¬ Blank line).head?, opens line ≠ none

/-- The value of `cidr` is valid. -/
def Item.Valid (item : Item) : Prop := ∃ pfx prefixLen, IsCidr item.cidr pfx prefixLen

/-- The entry has the prefix, the length, the label and the name of the item. -/
structure IsEntry (item : Item) (net : CIDREntry) : Prop where
  isCidr : IsCidr item.cidr net.pfx net.prefixLen
  label_eq : net.label = item.label
  name_eq : net.name = item.name

open Classical in
/-- In every file, the section adds exactly the valid items to what the other sections
configure. -/
def Exact (items : List Item) : Prop :=
  ∀ first file before after cfg, HasNetworks items file before after →
    loadLines first (before ++ after) = .ok cfg →
    ∃ nets, loadConfig first file = .ok { cfg with networks := nets } ∧
      List.Forall₂ IsEntry (items.filter fun item => item.Valid) nets

/-! ## One item -/

namespace Loader

/-- The networks with the current one, which is dropped when it has no name. -/
def saved (nets : List CIDREntry) (net : CIDREntry) : List CIDREntry :=
  if net.name ≠ [] then nets ++ [net] else nets

/-- Saving an entry changes nothing but the networks. -/
theorem saveNet_eq (s : Loader) :
    s.saveNet = { s with cfg.networks := saved s.cfg.networks s.currentNet } := by
  unfold saveNet saved
  split_ifs <;> rfl

/-- Saving an entry changes nothing but the networks of the configuration. -/
theorem cfg_saveNet (s : Loader) :
    s.saveNet.cfg = { s.cfg with networks := saved s.cfg.networks s.currentNet } := by
  rw [saveNet_eq]

/-- The next entry becomes the current one. -/
def addEntry (s : Loader) (net : CIDREntry) : Loader := { s.saveNet with currentNet := net }

/-- A new entry leaves the section. -/
theorem sect_addEntry (s : Loader) (net : CIDREntry) : (s.addEntry net).sect = s.sect := by
  rw [addEntry, saveNet_eq]

end Loader

/-- The entry that the loader makes of an item. -/
def entryOf (item : Item) : Except Exception CIDREntry :=
  match parseCidr item.cidr 0 0 with
  | (.error e, _) => .error e
  | (.ok _, pfx, prefixLen) =>
    .ok { pfx := pfx, prefixLen := prefixLen, label := item.label, name := item.name }

variable {s : Loader} {line value : List UInt8} {i : ℕ}

/-- A field of the section `networks`. -/
theorem step_networks {key : List UInt8} (h : Field line (i + 1) key value)
    (hs : s.sect = .networks) :
    ∃ t, strip t = value ∧ s.step line = s.networks (key ++ 58 :: t) key value := by
  obtain ⟨t, ht, hstep⟩ := h.step s
  refine ⟨t, ht, ?_⟩
  rw [hstep, Loader.dispatch, if_neg (Nat.succ_ne_zero i), hs]

/-- The line with a `cidr` starts an entry. -/
theorem step_cidr (h : Field line (i + 1) (bytes "- cidr") value) (hs : s.sect = .networks) :
    s.step line = match parseCidr value 0 0 with
      | (.error e, _) => .error e
      | (.ok _, pfx, prefixLen) => .ok (s.addEntry ⟨pfx, prefixLen, 0, []⟩) := by
  obtain ⟨t, rfl, hstep⟩ := step_networks h hs
  have hafter : afterFirst (bytes "cidr:") (bytes "- cidr" ++ 58 :: t) = some t := rfl
  rw [hstep, Loader.networks, if_pos (Or.inl rfl), hafter]
  dsimp only
  rcases parseCidr (strip t) 0 0 with ⟨_ | _, pfx, prefixLen⟩ <;> rfl

/-- A field that does not begin an item sets the label or the name of the current one. -/
theorem step_of_head_ne_dash {key : List UInt8} (h : Field line (i + 1) key value)
    (hs : s.sect = .networks) (hkey : key.head? ≠ some 45) :
    s.step line =
      if key = bytes "label" then do return { s with currentNet.label := ← stoi32 value }
      else if key = bytes "name" then .ok { s with currentNet.name := value }
      else .ok s := by
  obtain ⟨t, rfl, hstep⟩ := step_networks h hs
  rw [hstep, Loader.networks, if_neg]
  rintro (rfl | ⟨hdash, -⟩)
  · exact hkey rfl
  · exact hkey (Field.head?_eq_dash_iff.mp hdash)

/-- The line with a label sets that of the entry. -/
theorem step_label (h : Field line (i + 1) (bytes "label") value) (hs : s.sect = .networks)
    {label : Int32} (hlabel : IsInt value label) :
    s.step line = .ok { s with currentNet.label := label } := by
  rw [step_of_head_ne_dash h hs (by decide), if_pos rfl, stoi32_of_isInt hlabel]
  rfl

/-- The line with a name sets that of the entry. -/
theorem step_name (h : Field line (i + 1) (bytes "name") value) (hs : s.sect = .networks) :
    s.step line = .ok { s with currentNet.name := value } := by
  rw [step_of_head_ne_dash h hs (by decide), if_neg (by decide), if_pos rfl]

/-- **The lines of the items** make one entry each, or the first exception escapes. -/
theorem foldlM_items {items : List Item} {lines : List (List UInt8)} (h : ItemLines items lines)
    (hs : s.sect = .networks) :
    lines.foldlM Loader.step s = (fun nets => nets.foldl Loader.addEntry s) <$> items.mapM entryOf := by
  induction h generalizing s with
  | nil => rfl
  | @cons item items l₁ l₂ l₃ label lines i₁ i₂ i₃ h₁ h₂ hlabel h₃ _ ih =>
    rw [List.foldlM_cons, step_cidr h₁ hs, List.mapM_cons, entryOf]
    rcases parseCidr item.cidr 0 0 with ⟨e | b, pfx, prefixLen⟩
    · rfl
    · have hs₁ : (s.addEntry ⟨pfx, prefixLen, 0, []⟩).sect = .networks :=
        (s.sect_addEntry _).trans hs
      have hs₂ : (s.addEntry ⟨pfx, prefixLen, item.label, item.name⟩).sect = .networks :=
        (s.sect_addEntry _).trans hs
      show (l₂ :: l₃ :: lines).foldlM Loader.step (s.addEntry ⟨pfx, prefixLen, 0, []⟩) = _
      rw [List.foldlM_cons, step_label h₂ hs₁ hlabel]
      show (l₃ :: lines).foldlM Loader.step (s.addEntry ⟨pfx, prefixLen, item.label, []⟩) = _
      rw [List.foldlM_cons, step_name h₃ ((s.sect_addEntry _).trans hs)]
      show lines.foldlM Loader.step (s.addEntry ⟨pfx, prefixLen, item.label, item.name⟩) = _
      rw [ih hs₂]
      show _ = (fun nets => nets.foldl Loader.addEntry s) <$> (do
        let net ← (Except.ok ⟨pfx, prefixLen, item.label, item.name⟩ : Except Exception CIDREntry)
        let nets ← items.mapM entryOf
        return net :: nets)
      cases items.mapM entryOf <;> rfl

/-! ## The other sections -/

namespace Loader

/-- The same state with other networks, in another section. -/
def put (s : Loader) (nets : List CIDREntry) (net : CIDREntry) (x : Section) : Loader :=
  { s with cfg.networks := nets, currentNet := net, sect := x }

variable {nets : List CIDREntry} {net : CIDREntry} {x : Section} {indent : ℕ}
  {trimmed key val : List UInt8}

/-- An algorithm is set whatever the networks are. -/
theorem setTarget_networks (sub : Section) (set : AlgorithmConfig → Except Exception AlgorithmConfig)
    (cfg : PipelineConfig) :
    setTarget sub set { cfg with networks := nets }
      = (fun cfg : PipelineConfig => { cfg with networks := nets }) <$> setTarget sub set cfg := by
  unfold setTarget
  cases sub with
  | freq => dsimp only; cases set cfg.frequency <;> rfl
  | scc => dsimp only; cases set cfg.scc <;> rfl
  | reach => dsimp only; cases set cfg.reachability <;> rfl
  | ipclass => dsimp only; cases set cfg.ipClassifier <;> rfl
  | _ => rfl

/-- The section `algorithms` has nothing to do with the networks. -/
theorem algorithms_put : (s.put nets net x).algorithms indent key val
    = (put · nets net x) <$> s.algorithms indent key val := by
  unfold algorithms
  dsimp only
  cases (if indent ≤ 4 then algorithmOf key else none) with
  | some sub => rfl
  | none =>
    dsimp only
    by_cases hparams : key = bytes "params"
    · rw [if_pos hparams, if_pos hparams]
      rfl
    · rw [if_neg hparams, if_neg hparams, show (s.put nets net x).inParams = s.inParams from rfl,
        show (s.put nets net x).cfg = { s.cfg with networks := nets } from rfl,
        show (s.put nets net x).algoSub = s.algoSub from rfl, setTarget_networks]
      cases setTarget s.algoSub (setParam (s.inParams && 4 < indent || 6 ≤ indent) key val) s.cfg
      · rfl
      · rfl

/-- The section `event_source` has nothing to do with the networks. -/
theorem eventSource_put :
    (s.put nets net x).eventSource key val = (s.eventSource key val).put nets net x := by
  unfold eventSource
  split_ifs <;> rfl

/-- The section `analysis` has nothing to do with the networks. -/
theorem analysis_put : (s.put nets net x).analysis key val
    = (put · nets net x) <$> s.analysis key val := by
  unfold analysis
  split_ifs
  · cases stoi32 val <;> rfl
  · cases stoi32 val <;> rfl
  · cases stoi32 val <;> rfl
  · rfl

/-- The section `output` has nothing to do with the networks. -/
theorem output_put : (s.put nets net x).output key val = (s.output key val).put nets net x := by
  unfold output
  split_ifs <;> rfl

/-- The section `alert_handlers` has nothing to do with the networks. -/
theorem alertHandlers_put : (s.put nets net x).alertHandlers trimmed key val
    = (s.alertHandlers trimmed key val).put nets net x := by
  unfold alertHandlers
  by_cases hdash : trimmed.head? = some 45
  · rw [if_pos hdash, if_pos hdash]
    rfl
  rw [if_neg hdash, if_neg hdash, show (s.put nets net x).currentHandler = s.currentHandler from rfl]
  cases s.currentHandler with
  | none => rfl
  | some i =>
    rw [show (s.put nets net x).inHandlerParams = s.inHandlerParams from rfl]
    dsimp only
    split_ifs <;> rfl

/-- The section `severity_rules` has nothing to do with the networks. -/
theorem severityRules_put : (s.put nets net x).severityRules trimmed key val
    = (s.severityRules trimmed key val).put nets net x := by
  unfold severityRules
  by_cases hdash : trimmed.head? = some 45
  · rw [if_pos hdash, if_pos hdash]
    rfl
  rw [if_neg hdash, if_neg hdash, show (s.put nets net x).currentRule = s.currentRule from rfl]
  cases s.currentRule with
  | none => rfl
  | some i =>
    dsimp only
    split_ifs <;> rfl

/-- The section `soc` has nothing to do with the networks. -/
theorem soc_put : (s.put nets net x).soc key val = (s.soc key val).put nets net x := by
  unfold soc
  split_ifs <;> rfl

/-- **A line outside of the networks section** neither reads nor changes the networks,
and stays in the section unless it opens another one. -/
theorem step_put {line : List UInt8} (hs : s.sect ≠ .networks) :
    (s.put nets net s.sect).step line
      = (put · nets net ((opens line).getD s.sect)) <$> s.step line := by
  unfold step opens
  dsimp only
  by_cases hblank : strip (stripComment line) = []
  · rw [if_pos hblank, if_pos hblank, if_neg fun hopen => hopen.1 hblank]
    rfl
  rw [if_neg hblank, if_neg hblank]
  unfold dispatch
  by_cases hindent : indentOf (stripComment line) = 0
  · rw [if_pos hindent, if_pos hindent, if_pos ⟨hblank, hindent⟩]
    rfl
  rw [if_neg hindent, if_neg hindent, if_neg fun hopen => hindent hopen.2,
    show (s.put nets net s.sect).sect = s.sect from rfl, Option.getD_none]
  cases hsect : s.sect with
  | networks => exact absurd hsect hs
  | algorithms => exact algorithms_put
  | eventSource => exact congrArg Except.ok eventSource_put
  | analysis => exact analysis_put
  | output => exact congrArg Except.ok output_put
  | alertHandlers => exact congrArg Except.ok alertHandlers_put
  | severityRules => exact congrArg Except.ok severityRules_put
  | soc => exact congrArg Except.ok soc_put
  | _ => rfl

end Loader

variable {lines before after : List (List UInt8)} {items : List Item} {file : List UInt8}
  {first : CIDREntry} {cfg : PipelineConfig}

/-- What a line outside of the networks section leaves alone. -/
theorem step_keeps {s' : Loader} (hs : s.sect ≠ .networks) (h : s.step line = .ok s') :
    s'.cfg.networks = s.cfg.networks ∧ s'.currentNet = s.currentNet ∧
      s'.sect = (opens line).getD s.sect := by
  have hput : (s.put s.cfg.networks s.currentNet s.sect).step line
      = (Loader.put · s.cfg.networks s.currentNet ((opens line).getD s.sect)) <$> s.step line :=
    Loader.step_put hs
  rw [show s.put s.cfg.networks s.currentNet s.sect = s from rfl, h] at hput
  have heq : s' = s'.put s.cfg.networks s.currentNet ((opens line).getD s.sect) :=
    Except.ok.inj hput
  rw [heq]
  exact ⟨rfl, rfl, rfl⟩

/-- **Lines that open no networks section** neither read nor change the networks. -/
theorem foldlM_put {nets : List CIDREntry} {net : CIDREntry} (hs : s.sect ≠ .networks)
    (hlines : ∀ line ∈ lines, opens line ≠ some .networks) :
    lines.foldlM Loader.step (s.put nets net s.sect)
      = (fun s' => s'.put nets net s'.sect) <$> lines.foldlM Loader.step s := by
  induction lines generalizing s with
  | nil => rfl
  | cons line lines ih =>
    rw [List.forall_mem_cons] at hlines
    rw [List.foldlM_cons, List.foldlM_cons, Loader.step_put hs]
    cases hstep : s.step line with
    | error e => rfl
    | ok s' =>
      obtain ⟨-, -, hsect⟩ := step_keeps hs hstep
      show lines.foldlM Loader.step (s'.put nets net ((opens line).getD s.sect)) = _
      rw [← hsect]
      refine ih ?_ hlines.2
      rw [hsect]
      cases hopens : opens line with
      | none => exact hs
      | some x => exact fun hx => hlines.1 (hopens.trans (congrArg some hx))

/-- Lines outside of the section leave the networks. -/
theorem foldlM_keeps {s' : Loader} (hs : s.sect ≠ .networks)
    (hlines : ∀ line ∈ lines, opens line ≠ some .networks)
    (h : lines.foldlM Loader.step s = .ok s') :
    s'.cfg.networks = s.cfg.networks ∧ s'.currentNet = s.currentNet := by
  have hput : lines.foldlM Loader.step (s.put s.cfg.networks s.currentNet s.sect)
      = (fun s' : Loader => s'.put s.cfg.networks s.currentNet s'.sect)
        <$> lines.foldlM Loader.step s := foldlM_put hs hlines
  rw [show s.put s.cfg.networks s.currentNet s.sect = s from rfl, h] at hput
  have heq : s' = s'.put s.cfg.networks s.currentNet s'.sect := Except.ok.inj hput
  rw [heq]
  exact ⟨rfl, rfl⟩

/-- The step on a line that opens a section. -/
def Loader.opened (s : Loader) (x : Section) : Loader :=
  { s with inParams := false, inHandlerParams := false, currentHandler := none, sect := x }

/-- A line that opens a section does nothing else. -/
theorem step_of_opens {x : Section} (h : opens line = some x) (s : Loader) :
    s.step line = .ok (s.opened x) := by
  unfold opens at h
  dsimp only at h
  by_cases hopen : strip (stripComment line) ≠ [] ∧ indentOf (stripComment line) = 0
  · rw [if_pos hopen] at h
    unfold Loader.step
    dsimp only
    rw [if_neg hopen.1, Loader.dispatch, if_pos hopen.2, Loader.topLevel, h]
    rfl
  · rw [if_neg hopen] at h
    cases h

/-- The entries of a section, added one after the other. -/
theorem exists_foldl_addEntry {nets : List CIDREntry} (hnets : ∀ net ∈ nets, net.name ≠ [])
    (s : Loader) :
    ∃ nets' net, nets.foldl Loader.addEntry s = s.put nets' net s.sect ∧
      Loader.saved nets' net = Loader.saved s.cfg.networks s.currentNet ++ nets := by
  induction nets generalizing s with
  | nil => exact ⟨s.cfg.networks, s.currentNet, rfl, (List.append_nil _).symm⟩
  | cons net nets ih =>
    rw [List.forall_mem_cons] at hnets
    obtain ⟨nets', net', hfold, hsaved⟩ := ih hnets.2 (s.addEntry net)
    have hadd : s.addEntry net = s.put (Loader.saved s.cfg.networks s.currentNet) net s.sect := by
      rw [Loader.addEntry, Loader.saveNet_eq]
      rfl
    refine ⟨nets', net', ?_, ?_⟩
    · rw [List.foldl_cons, hfold, hadd]
      rfl
    · rw [hsaved, hadd]
      show Loader.saved (Loader.saved s.cfg.networks s.currentNet) net ++ nets = _
      rw [Loader.saved, if_pos hnets.1, List.append_assoc, List.singleton_append]

/-- An entry has the label and the name of its item. -/
theorem entryOf_name {item : Item} {net : CIDREntry} (h : entryOf item = .ok net) :
    net.label = item.label ∧ net.name = item.name := by
  unfold entryOf at h
  rcases hcall : parseCidr item.cidr 0 0 with ⟨e | b, pfx, prefixLen⟩
  · rw [hcall] at h
    cases h
  · rw [hcall] at h
    obtain rfl := Except.ok.inj h
    exact ⟨rfl, rfl⟩

/-- The entries of items with names have names. -/
theorem name_ne_nil_of_mapM {nets : List CIDREntry} (h : items.mapM entryOf = .ok nets) :
    ∀ net ∈ nets, net.name ≠ [] := by
  have h₂ := forall₂_of_mapM h
  clear h
  induction h₂ with
  | nil => simp
  | @cons item net _ _ hitem _ ih =>
    refine List.forall_mem_cons.mpr ⟨?_, ih⟩
    rw [(entryOf_name hitem).2]
    exact item.name_ne_nil

/-- The section opened in a state without networks makes the entries; the lines after
it see nothing of them. -/
theorem foldlM_after {nets : List CIDREntry} {s₂ : Loader} (hnets : ∀ net ∈ nets, net.name ≠ [])
    (hs : Loader.saved s.cfg.networks s.currentNet = [])
    (hafter : ∀ line ∈ after, opens line ≠ some .networks)
    (hhead : ∀ line ∈ (after.filter fun line => ¬ Blank line).head?, opens line ≠ none)
    (hrun : after.foldlM Loader.step s = .ok s₂) :
    ∃ s₃, after.foldlM Loader.step (nets.foldl Loader.addEntry (s.opened .networks)) = .ok s₃ ∧
      s₃.saveNet.cfg = { s₂.cfg with networks := nets } := by
  obtain ⟨nets', net, hfold, hsaved⟩ := exists_foldl_addEntry hnets (s.opened .networks)
  rw [show Loader.saved (s.opened .networks).cfg.networks (s.opened .networks).currentNet = []
    from hs, List.nil_append] at hsaved
  have hafter' : ∀ line ∈ after.filter (fun line => ¬ Blank line), opens line ≠ some .networks :=
    fun line hline => hafter line (List.mem_of_mem_filter hline)
  rw [hfold, ← foldlM_filter]
  rw [← foldlM_filter] at hrun
  -- either only blank lines follow, or a line that opens another section
  cases hlines : after.filter (fun line => ¬ Blank line) with
  | nil =>
    rw [hlines] at hrun
    obtain rfl := Except.ok.inj hrun
    refine ⟨_, rfl, ?_⟩
    rw [Loader.saveNet_eq, ← hsaved]
    rfl
  | cons line lines =>
    rw [hlines] at hrun hhead hafter'
    rw [List.forall_mem_cons] at hafter'
    obtain ⟨x, hx⟩ := Option.ne_none_iff_exists'.mp (hhead line rfl)
    have hsect : (s.opened x).sect ≠ .networks := fun h => hafter'.1 (hx.trans (congrArg some h))
    rw [List.foldlM_cons, step_of_opens hx] at hrun
    change lines.foldlM Loader.step (s.opened x) = .ok s₂ at hrun
    refine ⟨s₂.put nets' net s₂.sect, ?_, ?_⟩
    · rw [List.foldlM_cons, step_of_opens hx]
      show lines.foldlM Loader.step ((s.opened x).put nets' net (s.opened x).sect) = _
      rw [foldlM_put hsect hafter'.2, hrun]
      rfl
    · rw [Loader.saveNet_eq, ← hsaved]
      rfl

/-- **A networks section between other sections** adds its entries, whatever their
prefixes are. -/
theorem loadConfig_networks (hfile : HasNetworks items file before after)
    (hcfg : loadLines first (before ++ after) = .ok cfg) :
    loadConfig first file
      = (fun nets => { cfg with networks := nets }) <$> items.mapM entryOf := by
  obtain ⟨header, lines, hpieces, hheader, hitems, hothers, hafter⟩ := hfile
  rw [List.forall_mem_append] at hothers
  obtain ⟨s₂, hlines, hcfg⟩ := bind_eq_ok_iff.mp hcfg
  obtain rfl : s₂.saveNet.cfg = cfg := Except.ok.inj hcfg
  rw [List.foldlM_append] at hlines
  obtain ⟨s₁, hbefore, hrun⟩ := bind_eq_ok_iff.mp hlines
  -- the lines before the section have left no networks
  have hinit : (Loader.init first).sect ≠ .networks := fun h => by cases h
  obtain ⟨hnets₁, hnet₁⟩ := foldlM_keeps hinit hothers.1 hbefore
  have hsaved₁ : Loader.saved s₁.cfg.networks s₁.currentNet = [] := by
    rw [hnets₁, hnet₁]
    rfl
  unfold loadConfig loadLines
  rw [hpieces, List.foldlM_append, hbefore]
  show (do return (← (header :: (lines ++ after)).foldlM Loader.step s₁).saveNet.cfg) = _
  rw [List.foldlM_cons, step_of_opens hheader]
  show (do return (← (lines ++ after).foldlM Loader.step (s₁.opened .networks)).saveNet.cfg) = _
  rw [List.foldlM_append, ← foldlM_filter lines, foldlM_items hitems rfl]
  cases hmap : items.mapM entryOf with
  | error e => rfl
  | ok nets =>
    obtain ⟨s₃, hrun₃, hcfg₃⟩ := foldlM_after (name_ne_nil_of_mapM hmap) hsaved₁ hothers.2 hafter hrun
    show (do return (← after.foldlM Loader.step
      (nets.foldl Loader.addEntry (s₁.opened .networks))).saveNet.cfg) = _
    rw [hrun₃]
    show Except.ok s₃.saveNet.cfg = Except.ok _
    rw [hcfg₃, Loader.saveNet_eq]

/-! ## Prefix lengths -/

/-- No network of the state has a longer prefix than an address. -/
def Bounded (s : Loader) : Prop :=
  s.currentNet.prefixLen ≤ 32 ∧ ∀ net ∈ s.cfg.networks, net.prefixLen ≤ 32

/-- The prefixes of the saved networks have at most 32 bits. -/
theorem Bounded.saved (h : Bounded s) :
    ∀ net ∈ Loader.saved s.cfg.networks s.currentNet, net.prefixLen ≤ 32 := by
  unfold Loader.saved
  split_ifs
  · exact List.forall_mem_append.mpr ⟨h.2, List.forall_mem_singleton.mpr h.1⟩
  · exact h.2

/-- The section `networks` keeps the bound. -/
theorem Bounded.networks {s' : Loader} {trimmed key val : List UInt8} (h : Bounded s)
    (hstep : s.networks trimmed key val = .ok s') : Bounded s' := by
  unfold Loader.networks at hstep
  rw [Loader.saveNet_eq] at hstep
  by_cases hentry : key = bytes "- cidr" ∨
      (trimmed.head? = some 45 ∧ (afterFirst (bytes "cidr") trimmed).isSome)
  · rw [if_pos hentry] at hstep
    cases hafter : afterFirst (bytes "cidr:") trimmed with
    | none =>
      rw [hafter] at hstep
      obtain rfl := Except.ok.inj hstep
      exact ⟨show (0 : UInt8) ≤ 32 by decide, h.saved⟩
    | some rest =>
      rw [hafter] at hstep
      dsimp only at hstep
      -- `parse_cidr` writes at most 32, whatever the text is
      have hle := parseCidr_prefixLen_le (strip rest) 0 (show (0 : UInt8) ≤ 32 by decide)
      rcases hcall : parseCidr (strip rest) 0 0 with ⟨e | b, pfx, prefixLen⟩
      · rw [hcall] at hstep
        cases hstep
      · rw [hcall] at hstep hle
        obtain rfl := Except.ok.inj hstep
        exact ⟨hle, h.saved⟩
  · rw [if_neg hentry] at hstep
    split_ifs at hstep
    · obtain ⟨label, -, hstep⟩ := bind_eq_ok_iff.mp hstep
      obtain rfl := Except.ok.inj hstep
      exact h
    · obtain rfl := Except.ok.inj hstep
      exact h
    · obtain rfl := Except.ok.inj hstep
      exact h

/-- Every line keeps the bound. -/
theorem Bounded.step {s' : Loader} (h : Bounded s) (hstep : s.step line = .ok s') : Bounded s' := by
  by_cases hs : s.sect = .networks
  · unfold Loader.step Loader.dispatch at hstep
    dsimp only at hstep
    rw [hs] at hstep
    split_ifs at hstep
    · obtain rfl := Except.ok.inj hstep
      exact h
    · obtain rfl := Except.ok.inj hstep
      exact h
    · exact h.networks hstep
  · obtain ⟨hnets, hnet, -⟩ := step_keeps hs hstep
    rw [Bounded, hnets, hnet]
    exact h

/-- **Every loaded network** has a prefix length of at most 32. -/
theorem prefixLen_le_of_loadConfig (hfirst : first.prefixLen ≤ 32)
    (h : loadConfig first file = .ok cfg) : ∀ net ∈ cfg.networks, net.prefixLen ≤ 32 := by
  obtain ⟨s, hlines, h⟩ := bind_eq_ok_iff.mp h
  obtain rfl : s.saveNet.cfg = cfg := Except.ok.inj h
  have hbounded : Bounded s := foldlM_induct Bounded (fun _ _ _ hs => hs.step)
    ⟨hfirst, fun net hnet => absurd hnet List.not_mem_nil⟩ hlines
  rw [Loader.cfg_saveNet]
  exact hbounded.saved

/-! ## The values of `cidr` -/

/-- An item with a network of the grammar is the entry of that network. -/
theorem entryOf_of_isCidr {item : Item} {pfx : UInt32} {prefixLen : UInt8}
    (h : IsCidr item.cidr pfx prefixLen) :
    entryOf item = .ok ⟨pfx, prefixLen, item.label, item.name⟩ := by
  rw [entryOf, parseCidr_of_isCidr h]

/-- Items with numbers that can be read all have entries. -/
theorem exists_mapM (h : ∀ item ∈ items, item.Valid) :
    ∃ nets, items.mapM entryOf = .ok nets ∧ List.Forall₂ IsEntry items nets := by
  induction items with
  | nil => exact ⟨[], rfl, .nil⟩
  | cons item items ih =>
    rw [List.forall_mem_cons] at h
    obtain ⟨pfx, prefixLen, hcidr⟩ := h.1
    obtain ⟨nets, hnets, hentries⟩ := ih h.2
    refine ⟨⟨pfx, prefixLen, item.label, item.name⟩ :: nets, ?_, .cons ⟨hcidr, rfl, rfl⟩ hentries⟩
    rw [List.mapM_cons, entryOf_of_isCidr hcidr, hnets]
    rfl

/-- The lines of an item, as the documentation lays them out. -/
def Item.written (item : Item) : List (List UInt8) :=
  [quotedLine 2 (bytes "- cidr") item.cidr, plainLine 4 (bytes "label") (printInt item.label),
    quotedLine 4 (bytes "name") item.name]

/-- Items as they are written, one after the other. -/
theorem itemLines_flatMap (items : List Item) : ItemLines items (items.flatMap Item.written) := by
  induction items with
  | nil => exact .nil
  | cons item items ih =>
    exact .cons (field_quotedLine (by decide) item.scalar_cidr)
      (field_plainLine (by decide) (scalar_printInt item.label)) (isInt_printInt item.label)
      (field_quotedLine (by decide) item.scalar_name) ih

/-- A file that is a networks section. -/
def networksFile (items : List Item) : List UInt8 :=
  unlines (keyLine 0 (bytes "networks") :: items.flatMap Item.written)

/-- No line of an item is blank. -/
theorem ItemLines.filter (h : ItemLines items lines) :
    lines.filter (fun line => ¬ Blank line) = lines := by
  induction h with
  | nil => rfl
  | cons h₁ h₂ _ h₃ _ ih =>
    rw [List.filter_cons_of_pos (by simpa using h₁.not_blank),
      List.filter_cons_of_pos (by simpa using h₂.not_blank),
      List.filter_cons_of_pos (by simpa using h₃.not_blank), ih]

/-- The file of some items has a section of them. -/
theorem hasNetworks_networksFile (items : List Item) :
    HasNetworks items (networksFile items) [] [] := by
  have hlines : ∀ line ∈ items.flatMap Item.written, 10 ∉ line := by
    intro line hline
    obtain ⟨item, -, hitem⟩ := List.mem_flatMap.mp hline
    simp only [Item.written, List.mem_cons, List.not_mem_nil, or_false] at hitem
    rcases hitem with rfl | rfl | rfl
    · exact notMem_quotedLine (by decide) item.scalar_cidr
    · exact notMem_plainLine (by decide) (scalar_printInt item.label)
    · exact notMem_quotedLine (by decide) item.scalar_name
  refine ⟨keyLine 0 (bytes "networks"), items.flatMap Item.written, ?_, by decide, ?_, by simp,
    by simp⟩
  · rw [networksFile, pieces_unlines (List.forall_mem_cons.mpr ⟨by decide, hlines⟩),
      List.append_nil]
    rfl
  · rw [(itemLines_flatMap items).filter]
    exact itemLines_flatMap items

open Classical in
/-- **The sections that are loaded as they are meant** are those without an invalid
`cidr`. -/
theorem exact_iff (items : List Item) : Exact items ↔ ∀ item ∈ items, item.Valid := by
  constructor
  · intro h
    obtain ⟨nets, hload, hentries⟩ := h ⟨0, 0, 0, []⟩ (networksFile items) [] [] {}
      (hasNetworks_networksFile items) rfl
    rw [loadConfig_networks (hasNetworks_networksFile items)
      (show loadLines ⟨0, 0, 0, []⟩ ([] ++ []) = .ok {} from rfl)] at hload
    cases hmap : items.mapM entryOf with
    | error e => rw [hmap] at hload; cases hload
    | ok nets' =>
      rw [hmap] at hload
      obtain rfl : nets' = nets := congrArg PipelineConfig.networks (Except.ok.inj hload)
      -- every item has made an entry
      have hlen := hentries.length_eq.trans (forall₂_of_mapM hmap).length_eq.symm
      simpa using List.length_filter_eq_length_iff.mp hlen
  · intro h first file before after cfg hfile hcfg
    obtain ⟨nets, hmap, hentries⟩ := exists_mapM h
    refine ⟨nets, ?_, ?_⟩
    · rw [loadConfig_networks hfile hcfg, hmap]
      rfl
    · rwa [List.filter_eq_self.mpr fun item hitem => decide_eq_true (h item hitem)]

/-- A network without its length. -/
def lengthless : Item where
  cidr := bytes "10.244.0.0"
  label := 1
  name := bytes "pod_network"
  scalar_cidr := by decide
  scalar_name := by decide
  name_ne_nil := by decide

/-- A network without its length is loaded as `0.0.0.0/0`. -/
theorem not_exact_lengthless :
    loadConfig ⟨0, 0, 0, []⟩ (networksFile [lengthless])
        = .ok { networks := [⟨0, 0, 1, bytes "pod_network"⟩] } ∧ ¬ Exact [lengthless] := by
  have hload : loadConfig ⟨0, 0, 0, []⟩ (networksFile [lengthless])
      = .ok { networks := [⟨0, 0, 1, bytes "pod_network"⟩] } :=
    loadConfig_networks (hasNetworks_networksFile [lengthless])
      (show loadLines ⟨0, 0, 0, []⟩ ([] ++ []) = .ok {} from rfl)
  refine ⟨hload, fun h => ?_⟩
  obtain ⟨nets, hnets, hentries⟩ := h ⟨0, 0, 0, []⟩ _ [] [] {}
    (hasNetworks_networksFile [lengthless]) rfl
  rw [hload] at hnets
  obtain rfl : [⟨0, 0, 1, bytes "pod_network"⟩] = nets :=
    congrArg PipelineConfig.networks (Except.ok.inj hnets)
  have hinvalid : ¬ lengthless.Valid := by
    rintro ⟨pfx, prefixLen, address, length, heq, -⟩
    have hslash : (47 : UInt8) ∈ lengthless.cidr := by simp [heq]
    exact absurd hslash (by decide)
  rw [List.filter_cons_of_neg (by simpa using hinvalid), List.filter_nil] at hentries
  cases hentries

end ConfigLoader
