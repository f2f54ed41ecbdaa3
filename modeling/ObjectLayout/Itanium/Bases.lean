import ObjectLayout.Itanium.Primary

/-! The Itanium rules for the table pointer and for bases. The primary base comes first, then the
other non-virtual bases in order of declaration; virtual bases that have no place yet follow after
the fields. An empty base goes to the start if it can, any other base to the first fitting multiple
of its alignment from the end of the data on. -/
namespace ObjectLayout.Itanium

open LayoutM (layoutOf)

variable (f : Frame)

def suppliedBaseOffset? (node : Subobject) : Option Bytes :=
  f.supplied.bind fun supplied =>
    if node.isVirtual then supplied.virtualBaseOffsets.find? node.record
    else supplied.baseOffsets.find? node.record

/-- Records a base in the map of empty subobjects, if it is free to lie at an offset. -/
def State.placeBase? (st : State) (i : SubobjectId) (offset : Bytes) : LayoutM (Option State) :=
  match st.emptyMap with
  | none => return some st
  | some map => do
    let placed ← map.placeBase? f.setting st.graph i offset
    LayoutM.answered (.base i offset) placed.isSome
    return placed.map fun map => { st with emptyMap := some map }

/-- The first fitting offset from the end of the data on. -/
def findBaseOffset (st : State) (i : SubobjectId) (alignment : Bytes) :
    LayoutM (State × Bytes) := do
  let start ← Quantity.alignTo st.dataSizeInBytes alignment
  let attempts := attemptsFrom (st.emptyMap.getD {}) start alignment
  probe (st.placeBase? f i) alignment attempts start

def adoptBaseOffset (st : State) (i : SubobjectId) (alignment offset : Bytes) :
    LayoutM (State × Bytes) := do
  match ← st.placeBase? f i offset with
  | none => throw (.breach .suppliedBaseOverlaps)
  | some st =>
    if !st.infersAlignment then return (st, offset)
    let start ← Quantity.alignTo st.dataSizeInBytes alignment
    return (st.settlePackedIf (offset < start), offset)

/-- Makes room for a base that lies at an offset other than as an empty base at the start. -/
def occupyBase (st : State) (isEmpty : Bool) (layout : RecordLayout) (offset : Bytes) :
    Checked State := do
  if isEmpty then
    st.setSize (max st.sizeInBytes (← Quantity.add offset layout.size))
  else
    let stop ← Quantity.add offset (← layout.nonVirtualSize)
    return st.setDataSize (← Bytes.toBits stop)

/-- Gives a base subobject its place. -/
def layBase (i : SubobjectId) (st : State) : LayoutM (State × Bytes) := do
  ensure (!f.isUnion) .unionWithBases
  let node := st.graph.node i
  let layout ← layoutOf node.record
  let suppliedOffset := suppliedBaseOffset? f node
  let unpacked ← layout.nonVirtualAlignment
  let packed := if f.isPacked then 1 else unpacked
  let isEmpty := f.tree.isEmptyClass node.record
  let atStart ←
    if isEmpty && suppliedOffset.all (· == 0) then st.placeBase? f i 0 else pure none
  match atStart with
  | some st =>
    let st ← st.setSize (max st.sizeInBytes layout.size)
    return (← st.raiseAlignment f packed unpacked, 0)
  | none =>
    let packed := f.clamp packed
    let unpacked := f.clamp unpacked
    let (st, offset) ← match suppliedOffset with
      | none => findBaseOffset f st i packed
      | some offset => adoptBaseOffset f st i packed offset
    let st ← occupyBase st isEmpty layout offset
    return (← st.raiseAlignment f packed unpacked, offset)

/-- The virtual bases that a subobject at an offset, or a base inside it, has claimed lie where
their claimants do. -/
def placeClaimed (s : Setting) (graph : SubobjectGraph) :
    SubobjectId → Bytes → OrderedMap RecordId VirtualBaseSlot →
      LayoutM (OrderedMap RecordId VirtualBaseSlot) :=
  graph.descend (fun _ _ => LayoutM.endless) fun placeClaimed i offset slots => do
    let r := (graph.node i).record
    if !s.tree.hasVirtualBases r then return slots
    let slots ← match graph.claimedPrimary? i with
      | none => pure slots
      | some primary => do
        let primaryRecord := (graph.node primary).record
        ensure (!slots.contains primaryRecord) .primaryVirtualBaseAlreadyPlaced
        placeClaimed primary offset (slots.insert primaryRecord { offset })
    let layout ← layoutOf r
    (graph.nonVirtualBasesOf i).foldlM (fun slots base => do
      let inner := layout.baseOffset (graph.node base).record
      placeClaimed base (← EmptyMap.within offset inner) slots) slots

def State.placeClaimed (st : State) (i : SubobjectId) (offset : Bytes) : LayoutM State := do
  let slots ← Itanium.placeClaimed f.setting st.graph i offset st.virtualBaseSlots
  return { st with virtualBaseSlots := slots }

def layNonVirtualBase (i : SubobjectId) (st : State) : LayoutM State := do
  let (st, offset) ← layBase f i st
  let r := (st.graph.node i).record
  ensure (!st.baseOffsets.contains r) .baseAlreadyPlaced
  { st with baseOffsets := st.baseOffsets.insert r offset }.placeClaimed f i offset

def layVirtualBase (i : SubobjectId) (st : State) : LayoutM State := do
  ensure (!f.isUnion) .unionWithVirtualBases
  let (st, offset) ← layBase f i st
  let r := (st.graph.node i).record
  ensure (!st.virtualBaseSlots.contains r) .virtualBaseAlreadyPlaced
  { st with virtualBaseSlots := st.virtualBaseSlots.insert r { offset } }.placeClaimed f i offset

/-- The table pointer of a dynamic class without a primary base lies at its start. -/
def layTablePointer (st : State) : Checked State := do
  ensure (st.dataSize == 0) .vtablePointerNotFirst
  let pointer := f.target.pointerLayout
  let packed := f.clamp (if f.isPacked then 1 else pointer.alignment)
  let start ← Quantity.alignTo st.sizeInBytes packed
  let st := { st with dataSize := ← Bytes.toBits start }
  let st ← st.raiseAlignment f packed (f.clamp pointer.alignment)
  let stop ← Bytes.toBits (← Quantity.add start pointer.width)
  return { st with hasOwnVfptr := true, size := stop, dataSize := stop }

def layPrimaryBase (primary : PrimaryBase) (st : State) : LayoutM State := do
  if primary.isVirtual then
    let (graph, i) ← st.graph.stealVirtualBase primary.record
    ensure (!st.visitedVirtualBases.contains primary.record) .virtualBaseAlreadyVisited
    layVirtualBase f i { st with
      graph
      indirectPrimaryBases := appendNew st.indirectPrimaryBases [primary.record]
      visitedVirtualBases := st.visitedVirtualBases ++ [primary.record] }
  else
    layNonVirtualBase f (← st.graph.nonVirtualBase primary.record) st

/-- A non-virtual base may have the class of a primary base that is virtual. -/
def isNonVirtualPrimary (st : State) (r : RecordId) : Bool := st.primaryBase == some ⟨r, false⟩

def layNonVirtualBases (st : State) : LayoutM State := do
  let (primaryBase, indirectPrimaryBases) ← choosePrimaryBase f.setting f.record
  let graph ← SubobjectGraph.ofClass f.setting f.record
  let st := { st with primaryBase, indirectPrimaryBases, graph }
  let st ← match primaryBase with
    | some primary => layPrimaryBase f primary st
    | none => if f.tree.isDynamic f.record then layTablePointer f st else pure st
  f.declaration.nonVirtualBases.foldlM (fun st base => do
    if isNonVirtualPrimary st base.record then return st
    layNonVirtualBase f (← st.graph.nonVirtualBase base.record) st) st

/-- The virtual bases below a record that have no place yet, each before those below it. A virtual
base met for the second time ends the search below it. -/
def layVirtualBasesBelow : RecordId → Option PrimaryBase → State → LayoutM State :=
  f.tree.descend (fun _ _ => LayoutM.endless) fun layBelow r primary st =>
    (f.tree.record r).bases.foldlM (fun st base => do
      let isDue := base.isVirtual && primary != some ⟨base.record, true⟩
        && !st.indirectPrimaryBases.contains base.record
      if isDue && st.visitedVirtualBases.contains base.record then return st
      let st ← if isDue then
          layVirtualBase f (← st.graph.virtualBase base.record)
            { st with visitedVirtualBases := st.visitedVirtualBases ++ [base.record] }
        else pure st
      if !f.tree.hasVirtualBases base.record then return st
      layBelow base.record (← layoutOf base.record).primaryBase? st) st

def layVirtualBases (st : State) : LayoutM State :=
  layVirtualBasesBelow f f.record st.primaryBase st

end ObjectLayout.Itanium
