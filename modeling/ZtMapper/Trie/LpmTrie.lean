/-
# `dsa::trie::LPMTrie`

The binary trie of the IP classifier: one level for each bit of an address, most
significant bit first.  `insert` creates the path of its prefix, `remove` only
unmarks the node it reaches, and `lookup` walks down as far as it can.  Every
loop dereferences its node pointer and calls `get_bit`; both are undefined on
some inputs (a null pointer, a negative shift), hence the `Option`.
-/
import Mathlib.Data.Finmap
import Mathlib.Logic.Function.Basic
import Mathlib.Tactic.Common

namespace LPMTrie

/-- A `unique_ptr<Node>`: null, or a node with its two children, its label
(`-1` when there is no prefix here) and `has_prefix`. -/
inductive Node where
  | null
  | node (children : Bool → Node) (label : Int32) (hasPrefix : Bool)

/-- `std::make_unique<Node>()` -/
def Node.fresh : Node := .node (fun _ => .null) (-1) false

/-- `get_bit(val, pos)`, bit `0` being the most significant one. -/
def getBit (val : UInt32) (pos : ℕ) : Option Bool :=
  if pos ≤ 31 then some ((val >>> UInt32.ofNat (31 - pos)) &&& 1 == 1) else none

/-- `if (!children[bit])` create the child: the child to go on with, and the
number of nodes created. -/
def Node.ensure : Node → Node × ℕ
  | .null => (.fresh, 1)
  | .node children label hasPrefix => (.node children label hasPrefix, 0)

/-- The loop of `insert` at index `i` with `n` rounds to go, and the update of
the node it ends in.  Returned are the node, the number of nodes created, and
whether `has_prefix` was set for the first time. -/
def insertFrom (pfx : UInt32) (label : Int32) : ℕ → ℕ → Node → Option (Node × ℕ × Bool)
  | _, _, .null => none
  | _, 0, .node children _ hasPrefix => some (.node children label true, 0, !hasPrefix)
  | i, n + 1, .node children l hasPrefix => do
    let bit ← getBit pfx i
    let (child, created) := (children bit).ensure
    let (child, created', isNew) ← insertFrom pfx label (i + 1) n child
    return (.node (Function.update children bit child) l hasPrefix, created + created', isNew)

/-- The loop of `remove`, and the update of the node it ends in.  `none` inside
the option stands for `return false`. -/
def removeFrom (pfx : UInt32) : ℕ → ℕ → Node → Option (Option Node)
  | _, _, .null => none
  | _, 0, .node children _ hasPrefix =>
    if hasPrefix then some (some (.node children (-1) false)) else some none
  | i, n + 1, .node children l hasPrefix => do
    let bit ← getBit pfx i
    match children bit with
    | .null => return none
    | child =>
      let r ← removeFrom pfx (i + 1) n child
      return r.map fun child => .node (Function.update children bit child) l hasPrefix

/-- `if (node->has_prefix) best_label = node->label;` -/
def Node.best (best : Int32) : Node → Option Int32
  | .null => none
  | .node _ label hasPrefix => some (if hasPrefix then label else best)

/-- The loop of `lookup` at index `i` with `n` rounds to go. -/
def lookupFrom (ip : UInt32) : ℕ → ℕ → Node → Int32 → Option Int32
  | _, _, .null, _ => none
  | _, 0, .node _ _ _, best => some best
  | i, n + 1, .node children _ _, best => do
    let bit ← getBit ip i
    match children bit with
    | .null => return best
    | child =>
      let best ← child.best best
      lookupFrom ip (i + 1) n child best

end LPMTrie

/-- The class: `root_`, `count_` and `node_count_`. -/
structure LPMTrie where
  root : LPMTrie.Node
  count : ℕ
  nodeCount : ℕ

namespace LPMTrie

/-- The constructor. -/
def empty : LPMTrie where
  root := .fresh
  count := 0
  nodeCount := 1

def insert (t : LPMTrie) (pfx : UInt32) (prefixLen : UInt8) (label : Int32) :
    Option LPMTrie := do
  let (root, created, isNew) ← insertFrom pfx label 0 prefixLen.toNat t.root
  return {
    root := root
    count := if isNew then t.count + 1 else t.count
    nodeCount := t.nodeCount + created }

def remove (t : LPMTrie) (pfx : UInt32) (prefixLen : UInt8) : Option (LPMTrie × Bool) := do
  match ← removeFrom pfx 0 prefixLen.toNat t.root with
  | none => return (t, false)
  | some root => return ({ t with root := root, count := t.count - 1 }, true)

def lookup (t : LPMTrie) (ip : UInt32) : Option Int32 := do
  let best ← t.root.best (-1)
  lookupFrom ip 0 32 t.root best

def size (t : LPMTrie) : ℕ := t.count

/-- The mutators. -/
inductive Op where
  | insert (pfx : UInt32) (prefixLen : UInt8) (label : Int32)
  | remove (pfx : UInt32) (prefixLen : UInt8)
  deriving DecidableEq, Repr

/-- One call: the new trie, and what `remove` returned. -/
def apply (t : LPMTrie) : Op → Option (LPMTrie × Option Bool)
  | .insert pfx len label => (t.insert pfx len label).map fun t => (t, none)
  | .remove pfx len => (t.remove pfx len).map fun (t, b) => (t, some b)

/-- A sequence of calls: the final trie, and what every call returned. -/
def run : List Op → LPMTrie → Option (LPMTrie × List (Option Bool))
  | [], t => some (t, [])
  | op :: ops, t => do
    let (t, out) ← t.apply op
    let (t, outs) ← run ops t
    return (t, out :: outs)

end LPMTrie
