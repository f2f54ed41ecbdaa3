import ObjectLayout.LayoutM
import ObjectLayout.Setting

/-! Which virtual bases need a vtordisp. A class inherits those of its bases; one that declares a
constructor or destructor adds the virtual bases that, themselves or through a non-virtual base,
introduced a virtual method which the class overrides. -/
namespace ObjectLayout.Microsoft

open LayoutM (layoutOf)

/-- A search along overrides: the methods to be looked at, the next one first, those looked at
before, and the classes that were found. -/
structure OverrideSearch where
  pending : List MethodId
  seen : List MethodId := []
  classes : List RecordId := []

/-- Looks at a method, unless it has been seen. One that overrides nothing was introduced by its
class; any other leads on to what it overrides, the method listed last first. -/
def OverrideSearch.look (tree : Tree) (m : MethodId) (search : OverrideSearch) : OverrideSearch :=
  if search.seen.contains m then search
  else
    let method := tree.method m
    let search := { search with seen := m :: search.seen }
    if method.overridden.isEmpty then
      { search with classes := appendNew search.classes [method.owner] }
    else { search with pending := method.overridden.reverse ++ search.pending }

/-- Searches until nothing is pending; `looks` bounds how many methods are looked at. -/
def searchOverrides (tree : Tree) : Nat → OverrideSearch → Checked (List RecordId)
  | 0, _ => .error .endless
  | looks + 1, search =>
    match search.pending with
    | [] => .ok search.classes
    | m :: rest => searchOverrides tree looks ({ search with pending := rest }.look tree m)

/-- Every method leads on to what it overrides at most once, so this many looks are enough. -/
def looksFrom (tree : Tree) (pending : List MethodId) : Nat :=
  pending.length + (tree.methods.items.toList.flatMap (·.overridden)).length + 1

/-- The classes that introduced the virtual methods declared in a record, destructors left out. -/
def introducingClasses (tree : Tree) (r : RecordId) : Checked (List RecordId) :=
  let declared := (tree.record r).methods.filter fun m =>
    (tree.method m).isVirtual && (tree.method m).kind != .destructor
  searchOverrides tree (looksFrom tree declared) { pending := declared.reverse }

/-- Whether a record or one of its non-virtual bases, at any depth, is among the classes. -/
def holdsOneOf (tree : Tree) (classes : List RecordId) : RecordId → Bool :=
  tree.descend false fun holds r =>
    classes.contains r || (tree.record r).nonVirtualBases.any (holds ·.record)

def inheritedVtordisps (tree : Tree) (r : RecordId) : LayoutM (List RecordId) :=
  (tree.record r).bases.foldlM (fun found base => do
    return appendNew found (← layoutOf base.record).vtordisps) []

/-- The virtual bases of a class that have a vtordisp before them. -/
def vtordisps (tree : Tree) (r : RecordId) : LayoutM (List RecordId) := do
  let inherited ← inheritedVtordisps tree r
  if !tree.declaresConstructorOrDestructor r then return inherited
  let classes ← introducingClasses tree r
  return appendNew inherited ((tree.virtualBases r).filter (holdsOneOf tree classes))

end ObjectLayout.Microsoft
