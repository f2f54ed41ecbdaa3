import ObjectLayout.Subobject.Graph

/-! Where the empty subobjects of a class lie, so that no two of the same class share an address.
A map either keeps all of them, or only those that a later placement can still meet: nothing at or
past the size of the largest empty subobject is kept then, and nothing past the highest offset kept
is questioned. Layouts are computed with a map that prunes; the other is there to compare it with. -/
namespace ObjectLayout

inductive Tracking where
  | pruned
  | full
  deriving DecidableEq, Repr

structure EmptyMap where
  tracking : Tracking := .pruned
  /-- The empty subobjects recorded so far, each with its offset. -/
  placed : List (Bytes × RecordId) := []
  /-- No recorded offset is higher. -/
  highest : Bytes := 0
  /-- The size of the largest empty subobject that the class can have. -/
  largest : Bytes := 0
  deriving DecidableEq, Repr

namespace EmptyMap

open LayoutM (layoutOf)

/-- Whether an offset is past everything recorded, so that nothing there can collide. -/
def isClearFrom (map : EmptyMap) (offset : Bytes) : Bool :=
  map.tracking == .pruned && decide (map.highest < offset)

/-- Whether a subobject at an offset is too far out to be recorded. -/
def isBeyond (map : EmptyMap) (offset : Bytes) : Bool :=
  map.tracking == .pruned && decide (map.largest ≤ offset)

/-- Whether the class can have no empty subobjects at all. -/
def isIdle (map : EmptyMap) : Bool := map.tracking == .pruned && map.largest == 0

variable (s : Setting)

/-- Whether the class itself, leaving aside what it holds, is free to lie at an offset. -/
def admits (map : EmptyMap) (r : RecordId) (offset : Bytes) : Bool :=
  !s.tree.isEmptyClass r || !map.placed.contains (offset, r)

/-- Records the class itself, if it is an empty one. -/
def record (map : EmptyMap) (r : RecordId) (offset : Bytes) : EmptyMap :=
  if !s.tree.isEmptyClass r || map.placed.contains (offset, r) then map
  else { map with placed := map.placed ++ [(offset, r)], highest := max map.highest offset }

/-- The fields of a record that are no bit-fields, each with its place in the record. -/
def storedFields (r : RecordId) (layout : RecordLayout) : List (Ty × Checked Bytes) :=
  (s.tree.record r).fields.zipIdx.filterMap fun (field, index) =>
    if field.isBitField then none
    else some (field.type, (layout.fieldOffset index).map Bits.toBytesFloor)

/-- Where a part of a record lies, from where the record and where in it the part lies. -/
def within (offset : Bytes) (inner : Checked Bytes) : Checked Bytes := do
  Quantity.add offset (← inner)

/-- Elements follow one another in an array, every one a subobject of its own. -/
def elementsFit (map : EmptyMap) (fits : Bytes → LayoutM Bool) (size : Bytes) :
    Nat → Bytes → LayoutM Bool
  | 0, _ => return true
  | count + 1, offset => do
    if map.isClearFrom offset then return true
    if !(← fits offset) then return false
    elementsFit map fits size count (← Quantity.add offset size)

def recordElements (update : Bytes → EmptyMap → LayoutM EmptyMap) (size : Bytes) :
    Nat → Bytes → EmptyMap → LayoutM EmptyMap
  | 0, _, map => return map
  | count + 1, offset, map => do
    if map.isBeyond offset then return map
    let map ← update offset map
    recordElements update size count (← Quantity.add offset size) map

/-- How many elements nested arrays of these lengths have. A map that keeps everything counts
without a bound. -/
def count (map : EmptyMap) (lengths : List Nat) : Checked Nat :=
  match map.tracking with
  | .pruned => lengths.foldlM Quantity.mul 1
  | .full => .ok (lengths.foldl (· * ·) 1)

/-- How many elements nested constant arrays of a record have; none for any other type. -/
def arrayOfRecords (map : EmptyMap) (type : Ty) : Checked (Option (RecordId × Nat)) := do
  match type.constantLengths with
  | [] => return none
  | lengths =>
    let count ← map.count lengths
    return type.constantArrayRecord?.map (·, count)

/-- Whether a field of this type is free to lie at an offset, where `fits` decides for records. -/
def fieldTypeFits (map : EmptyMap) (fits : RecordId → Bytes → LayoutM Bool) (type : Ty)
    (offset : Bytes) : LayoutM Bool := do
  if map.isClearFrom offset then return true
  match type.asRecord? with
  | some r => fits r offset
  | none =>
    match ← map.arrayOfRecords type with
    | none => return true
    | some (r, count) =>
      let size := (← layoutOf r).size
      elementsFit map (fits r) size count offset

def recordFieldType (update : RecordId → Bytes → EmptyMap → LayoutM EmptyMap) (type : Ty)
    (offset : Bytes) (map : EmptyMap) : LayoutM EmptyMap := do
  match type.asRecord? with
  | some r => update r offset map
  | none =>
    match ← map.arrayOfRecords type with
    | none => return map
    | some (r, count) =>
      let size := (← layoutOf r).size
      recordElements (update r) size count offset map

/-- Whether a record is free to lie at an offset. The virtual bases of a complete object lie where
its own layout puts them; those of its base subobjects are among them. -/
def recordFits (map : EmptyMap) : RecordId → Bool → Bytes → LayoutM Bool :=
  s.tree.descend (fun _ _ => LayoutM.endless) fun recordFits r isComplete offset => do
    if map.isClearFrom offset then return true
    if !map.admits s r offset then return false
    let layout ← layoutOf r
    let basesFit ← (s.tree.record r).nonVirtualBases.allM fun base => do
      recordFits base.record false (← within offset (layout.baseOffset base.record))
    if !basesFit then return false
    let virtualBasesFit ← (if isComplete then s.tree.virtualBases r else []).allM fun base => do
      recordFits base false (← within offset (layout.virtualBaseOffset base))
    if !virtualBasesFit then return false
    (storedFields s r layout).allM fun (type, inner) => do
      fieldTypeFits map (recordFits · true) type (← within offset inner)

/-- Records the empty subobjects of a record at an offset. -/
def recordWhole : RecordId → Bool → Bytes → EmptyMap → LayoutM EmptyMap :=
  s.tree.descend (fun _ _ _ => LayoutM.endless) fun recordWhole r isComplete offset map => do
    if map.isBeyond offset then return map
    let map := map.record s r offset
    let layout ← layoutOf r
    let map ← (s.tree.record r).nonVirtualBases.foldlM (fun map base => do
      recordWhole base.record false (← within offset (layout.baseOffset base.record)) map) map
    let map ← (if isComplete then s.tree.virtualBases r else []).foldlM (fun map base => do
      recordWhole base false (← within offset (layout.virtualBaseOffset base)) map) map
    (storedFields s r layout).foldlM (fun map (type, inner) => do
      recordFieldType (recordWhole · true) type (← within offset inner) map) map

def fieldFits (map : EmptyMap) (type : Ty) (offset : Bytes) : LayoutM Bool :=
  fieldTypeFits map (recordFits s map · true) type offset

def recordField (type : Ty) (offset : Bytes) (map : EmptyMap) : LayoutM EmptyMap :=
  recordFieldType (recordWhole s · true) type offset map

variable (graph : SubobjectGraph)

/-- Whether a base subobject, with the primary virtual base that it has claimed, is free to lie at
an offset. -/
def baseFits (map : EmptyMap) : SubobjectId → Bytes → LayoutM Bool :=
  graph.descend (fun _ => LayoutM.endless) fun baseFits i offset => do
    if map.isClearFrom offset then return true
    let r := (graph.node i).record
    if !map.admits s r offset then return false
    let layout ← layoutOf r
    let basesFit ← (graph.nonVirtualBasesOf i).allM fun base => do
      baseFits base (← within offset (layout.baseOffset (graph.node base).record))
    if !basesFit then return false
    let primaryFits ← (graph.claimedPrimary? i).toList.allM (baseFits · offset)
    if !primaryFits then return false
    (storedFields s r layout).allM fun (type, inner) => do
      fieldFits s map type (← within offset inner)

/-- Records the empty subobjects of a base subobject at an offset. An empty base is recorded even
where nothing else would be. -/
def recordBase (isEmptyBase : Bool) : SubobjectId → Bytes → EmptyMap → LayoutM EmptyMap :=
  graph.descend (fun _ _ => LayoutM.endless) fun recordBase i offset map => do
    if !isEmptyBase && map.isBeyond offset then return map
    let r := (graph.node i).record
    let map := map.record s r offset
    let layout ← layoutOf r
    let map ← (graph.nonVirtualBasesOf i).foldlM (fun map base => do
      recordBase base (← within offset (layout.baseOffset (graph.node base).record)) map) map
    let map ← (graph.claimedPrimary? i).toList.foldlM (fun map primary =>
      recordBase primary offset map) map
    (storedFields s r layout).foldlM (fun map (type, inner) => do
      recordField s type (← within offset inner) map) map

/-- Places a base subobject at an offset, if it is free to lie there. -/
def placeBase? (map : EmptyMap) (i : SubobjectId) (offset : Bytes) : LayoutM (Option EmptyMap) := do
  if map.isIdle then return some map
  if !(← baseFits s graph map i offset) then return none
  recordBase s graph (s.tree.isEmptyClass (graph.node i).record) i offset map

/-- Places a field that is no bit-field at an offset, if it is free to lie there. -/
def placeField? (map : EmptyMap) (type : Ty) (offset : Bytes) : LayoutM (Option EmptyMap) := do
  if !(← fieldFits s map type offset) then return none
  recordField s type offset map

/-- The size of the largest empty subobject that a base or field of this class can bring. -/
def largestIn (r : RecordId) (layout : RecordLayout) : Bytes :=
  if s.tree.isEmptyClass r then layout.size else layout.largestEmptySubobject

/-- The records that a class holds directly: its bases, then those of its fields and arrays. -/
def heldRecords (r : RecordId) : List RecordId :=
  (s.tree.record r).bases.map (·.record)
    ++ (s.tree.record r).fields.filterMap (·.type.baseElement.asRecord?)

/-- The map of a class of which nothing is placed yet. -/
def ofClass (tracking : Tracking) (r : RecordId) : LayoutM EmptyMap := do
  let largest ← (heldRecords s r).foldlM (fun largest held => do
    return max largest (largestIn s held (← layoutOf held))) 0
  return { tracking, largest }

end EmptyMap

end ObjectLayout
