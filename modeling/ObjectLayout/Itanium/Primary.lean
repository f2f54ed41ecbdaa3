import ObjectLayout.Itanium.State

/-! The primary base of a class, which lies at its start and shares its table pointer: the first
dynamic direct non-virtual base, or else a virtual base that holds nothing but a table pointer,
preferably one that no base uses as its own primary base. -/
namespace ObjectLayout.Itanium

open LayoutM (layoutOf)

/-- Whether a class holds nothing but a table pointer. -/
def isNearlyEmpty (s : Setting) (r : RecordId) : LayoutM Bool := do
  if !s.tree.isDynamic r then return false
  let nonVirtualSize ← (← layoutOf r).nonVirtualSize
  return nonVirtualSize == s.target.pointerWidth

/-- The virtual primary bases of a record and of the bases below it that have virtual bases. -/
def virtualPrimariesBelow (s : Setting) : RecordId → List RecordId → LayoutM (List RecordId) :=
  s.tree.descend (fun _ => LayoutM.endless) fun below r found => do
    let found := appendNew found (← layoutOf r).virtualPrimaryBase?.toList
    ((s.tree.record r).bases.filter (s.tree.hasVirtualBases ·.record)).foldlM
      (fun found base => below base.record found) found

/-- The virtual bases that some direct or indirect base of a class uses as its primary base. -/
def indirectPrimaryBases (s : Setting) (r : RecordId) : LayoutM (List RecordId) :=
  ((s.tree.record r).bases.filter (s.tree.hasVirtualBases ·.record)).foldlM
    (fun found base => virtualPrimariesBelow s base.record found) []

/-- How far the search for a nearly empty virtual base has come. -/
structure Candidates where
  /-- The first that no base uses; the search is over when there is one. -/
  unused : Option RecordId := none
  /-- The first of all. -/
  first : Option RecordId := none

/-- Looks at the virtual bases met below a record, each before its own bases. -/
def searchNearlyEmpty (s : Setting) (used : List RecordId) :
    RecordId → Candidates → LayoutM Candidates :=
  s.tree.descend (fun _ => LayoutM.endless) fun search r found =>
    (s.tree.record r).bases.foldlM (fun found base => do
      if found.unused.isSome then return found
      let nearlyEmpty ← if base.isVirtual then isNearlyEmpty s base.record else pure false
      if nearlyEmpty && !used.contains base.record then
        return { found with unused := some base.record }
      let found :=
        if nearlyEmpty then { found with first := found.first.or (some base.record) } else found
      search base.record found) found

def firstDynamicBase? (s : Setting) (r : RecordId) : Option RecordId :=
  ((s.tree.record r).nonVirtualBases.find? (s.tree.isDynamic ·.record)).map (·.record)

/-- The primary base of a class, and the virtual bases that its bases use as theirs. -/
def choosePrimaryBase (s : Setting) (r : RecordId) :
    LayoutM (Option PrimaryBase × List RecordId) := do
  if !s.tree.isDynamic r then return (none, [])
  let used ← indirectPrimaryBases s r
  match firstDynamicBase? s r with
  | some base => return (some ⟨base, false⟩, used)
  | none =>
    if !s.tree.hasVirtualBases r then return (none, used)
    let found ← searchNearlyEmpty s used r {}
    return ((found.unused.or found.first).map (⟨·, true⟩), used)

end ObjectLayout.Itanium
