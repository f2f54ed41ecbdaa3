import ObjectLayout.Microsoft.State

/-! The Microsoft rules for non-virtual bases. Those that bring a table pointer which derived
classes can use come first, the first of them as primary base; the others follow. Neighbours that
could share an address because they are of size zero are kept one byte apart. -/
namespace ObjectLayout.Microsoft

open LayoutM (layoutOf)

variable (f : Frame)

/-- A walk over the bases, and whether the base placed last has a subobject of size zero. -/
structure BaseWalk where
  state : State
  endsWithZeroSized : Bool := false

def layNonVirtualBase (r : RecordId) (layout : RecordLayout) (walk : BaseWalk) :
    Checked BaseWalk := do
  let st := walk.state
  let st ←
    if walk.endsWithZeroSized && layout.leadsWithZeroSizedBase then
      pure { st with size := ← Quantity.add st.size 1 }
    else pure st
  let (st, extent) := baseExtent f layout st
  let offset ← Quantity.alignTo st.size extent.alignment
  let size ← Quantity.add offset layout.dataSize
  return {
    state := { st with
      baseOffsets := st.baseOffsets.insert r offset
      size
      vbptrOffset := size }
    endsWithZeroSized := layout.hasZeroSizedSubobject }

/-- The first base with a vbptr shares it. -/
def State.shareVbptr (st : State) (r : RecordId) (layout : RecordLayout) : State :=
  if st.vbptrBase.isNone && layout.hasVbptr then { st with vbptrBase := some r, hasVbptr := true }
  else st

def State.takePrimary (st : State) (r : RecordId) (layout : RecordLayout) : State :=
  if st.primaryBase.isSome then st
  else { st with primaryBase := some r, leadsWithZeroSizedBase := layout.leadsWithZeroSizedBase }

/-- First walk: every base is looked at, and those with a usable table pointer are placed. -/
def layLeadingBase (walk : BaseWalk) (base : Base) : LayoutM BaseWalk := do
  let layout ← layoutOf base.record
  let st := walk.state
  let st := { st with requiredAlignment := max st.requiredAlignment layout.requiredAlignment }
  if base.isVirtual then return { walk with state := { st with hasVbptr := true } }
  let st := st.shareVbptr base.record layout
  if !layout.hasExtendableVfptr then return { walk with state := st }
  layNonVirtualBase f base.record layout { walk with state := st.takePrimary base.record layout }

/-- Second walk: the other non-virtual bases. The first of them to be placed decides what the class
leads with if there is no primary base. -/
def layFollowingBase (acc : BaseWalk × Bool) (base : Base) : LayoutM (BaseWalk × Bool) := do
  let (walk, decidesLead) := acc
  let layout ← layoutOf base.record
  if layout.hasExtendableVfptr then return acc
  let st := walk.state
  let st :=
    if decidesLead then { st with leadsWithZeroSizedBase := layout.leadsWithZeroSizedBase } else st
  return (← layNonVirtualBase f base.record layout { walk with state := st }, false)

/-- Whether a class without a primary base declares a virtual method that overrides nothing. -/
def declaresNewVirtual : Bool :=
  f.tree.isDynamic f.record
    && (f.tree.methodsOf f.record).any fun method => method.isVirtual && method.overridden.isEmpty

def locateSharedVbptr (st : State) : LayoutM State := do
  match if st.hasVbptr then st.vbptrBase else none with
  | none => return st
  | some base =>
    let inner := (← layoutOf base).vbptr?.elim 0 (·.offset)
    return { st with vbptrOffset := ← Quantity.add (← st.baseOffset base) inner }

def layNonVirtualBases (st : State) : LayoutM State := do
  let walk ← f.declaration.bases.foldlM (layLeadingBase f) { state := st }
  let hasPrimary := walk.state.primaryBase.isSome
  let hasOwnVfptr := !hasPrimary && declaresNewVirtual f
  let walk := { walk with state := { walk.state with hasOwnVfptr } }
  let (walk, _) ← f.declaration.nonVirtualBases.foldlM (layFollowingBase f) (walk, !hasPrimary)
  locateSharedVbptr walk.state

end ObjectLayout.Microsoft
