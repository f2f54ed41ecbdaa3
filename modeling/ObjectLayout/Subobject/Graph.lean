import ObjectLayout.LayoutM
import ObjectLayout.Setting

/-! The base subobjects of a class. A non-virtual base occurs once for every path that inherits it,
a virtual base once in all. An occurrence whose class has a virtual primary base may claim the one
occurrence of that base, which then lies at the same address; of several that could, the last to
claim holds it. -/
namespace ObjectLayout

abbrev SubobjectId := Idx .subobject

structure Subobject where
  record : RecordId
  isVirtual : Bool
  bases : List SubobjectId := []
  /-- The occurrence of its primary virtual base, if this subobject has claimed one. -/
  primaryVirtual : Option SubobjectId := none
  /-- For a virtual base, the occurrence that claimed it last. -/
  claimedBy : Option SubobjectId := none
  deriving DecidableEq, Repr

structure SubobjectGraph where
  nodes : Arena .subobject Subobject := {}
  virtualBases : OrderedMap RecordId SubobjectId := .empty
  nonVirtualBases : OrderedMap RecordId SubobjectId := .empty

namespace SubobjectGraph

/-- What a position that was never handed out stands for. -/
def missing : Subobject := { record := ⟨0⟩, isVirtual := false }

variable (graph : SubobjectGraph)

def node (i : SubobjectId) : Subobject := graph.nodes.getD i missing

def nonVirtualBasesOf (i : SubobjectId) : List SubobjectId :=
  (graph.node i).bases.filter fun base => !(graph.node base).isVirtual

/-- The primary virtual base of a subobject, if the claim to it still stands. -/
def claimedPrimary? (i : SubobjectId) : Option SubobjectId :=
  (graph.node i).primaryVirtual.filter fun primary => (graph.node primary).claimedBy == some i

def virtualBase (r : RecordId) : Checked SubobjectId :=
  match graph.virtualBases.find? r with
  | some i => .ok i
  | none => .error (.breach .virtualBaseMissingFromGraph)

def nonVirtualBase (r : RecordId) : Checked SubobjectId :=
  match graph.nonVirtualBases.find? r with
  | some i => .ok i
  | none => .error (.breach .baseMissingFromGraph)

def push (subobject : Subobject) : SubobjectGraph :=
  { graph with nodes := graph.nodes.push subobject }

def modify (i : SubobjectId) (f : Subobject → Subobject) : SubobjectGraph :=
  { graph with nodes := graph.nodes.modify i f }

def claim (i primary : SubobjectId) : SubobjectGraph :=
  (graph.modify i ({ · with primaryVirtual := some primary })).modify primary
    ({ · with claimedBy := some i })

/-- Takes a virtual base away from whichever subobject claimed it, for the class being laid out. -/
def stealVirtualBase (r : RecordId) : Checked (SubobjectGraph × SubobjectId) := do
  let i ← graph.virtualBase r
  return (graph.modify i ({ · with claimedBy := none }), i)

/-- A new occurrence of a class, to be found again by its class if it is a virtual base. -/
def occurrence (r : RecordId) (isVirtual : Bool) : SubobjectGraph × SubobjectId :=
  let i := graph.nodes.next
  let grown := graph.push { record := r, isVirtual }
  (if isVirtual then { grown with virtualBases := grown.virtualBases.insert r i } else grown, i)

/-- What a new occurrence does about the virtual primary base of its class before its own bases are
there: claims it if it is there unclaimed, leaves it if another holds it, and otherwise is told to
claim it later. -/
def claimEarly (i : SubobjectId) (primary : RecordId) : SubobjectGraph × Option RecordId :=
  match graph.virtualBases.find? primary with
  | none => (graph, some primary)
  | some occurrence =>
    if (graph.node occurrence).claimedBy.isSome then (graph, none)
    else (graph.claim i occurrence, none)

def claimLate (i : SubobjectId) : Option RecordId → Checked SubobjectGraph
  | none => .ok graph
  | some primary =>
    match graph.virtualBases.find? primary with
    | some occurrence => .ok (graph.claim i occurrence)
    | none => .error (.breach .primaryBaseMissingFromGraph)

/-- Functions of a subobject defined through its non-virtual bases and claimed primary base. The
descent meets no subobject twice, so one more level than there are subobjects is enough. -/
def descend (cut : α) (step : (SubobjectId → α) → SubobjectId → α) : SubobjectId → α :=
  descendWithin cut step (graph.nodes.size + 1)

/-- The subobjects from `i` down, each before its bases, that are not among those seen. -/
def preorder (seen : List SubobjectId) (i : SubobjectId) : List SubobjectId :=
  graph.descend id (fun visit i seen =>
    if i ∈ seen then seen
    else (graph.node i).bases.foldl (fun seen base => visit base seen) (seen ++ [i])) i seen

/-- Adds the occurrence of a class, and of its bases, to the graph. -/
def visit (s : Setting) :
    RecordId → Bool → SubobjectGraph → LayoutM (SubobjectGraph × SubobjectId) :=
  s.tree.descend (fun _ _ => LayoutM.endless) fun visit r isVirtual graph => do
    match if isVirtual then graph.virtualBases.find? r else none with
    | some existing => return (graph, existing)
    | none =>
      let (graph, i) := graph.occurrence r isVirtual
      let primary ←
        if s.tree.hasVirtualBases r then (·.virtualPrimaryBase?) <$> LayoutM.layoutOf r
        else pure none
      let (graph, unclaimed) := primary.elim (graph, none) (graph.claimEarly i)
      let graph ← (s.tree.record r).bases.foldlM (fun graph base => do
        let (graph, below) ← visit base.record base.isVirtual graph
        return graph.modify i fun node => { node with bases := node.bases ++ [below] }) graph
      return (← graph.claimLate i unclaimed, i)

/-- The graph of the base subobjects of a class. -/
def ofClass (s : Setting) (r : RecordId) : LayoutM SubobjectGraph :=
  (s.tree.record r).bases.foldlM (fun graph base => do
    let (graph, i) ← visit s base.record base.isVirtual graph
    if base.isVirtual then return graph
    ensure (!graph.nonVirtualBases.contains base.record) .baseAlreadyInGraph
    return { graph with nonVirtualBases := graph.nonVirtualBases.insert base.record i }) {}

/-- The subobjects of the direct bases of a class, in order of declaration. -/
def directBases (tree : Tree) (r : RecordId) : Checked (List SubobjectId) :=
  (tree.record r).bases.mapM fun base =>
    if base.isVirtual then graph.virtualBase base.record else graph.nonVirtualBase base.record

end SubobjectGraph

end ObjectLayout
