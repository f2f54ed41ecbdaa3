import ObjectLayout.Microsoft.Layout
import ObjectLayout.Proofs.Microsoft.Fields
import ObjectLayout.Proofs.OrderedMap

/-! Virtual bases under the Microsoft rules. They follow one another past everything else; the four
bytes of a vtordisp, where a base has one, are kept free between it and what comes before. -/
namespace ObjectLayout

namespace Microsoft

open LayoutM (ends_bind ends_lift_bind ends_ite_bind layoutOf)

variable {f : Frame} {known : Known} {found : List RecordId} {start st st' : State}
variable {walk walk' : BaseWalk} {slots : List Slot} {v r : RecordId} {done : List RecordId}

/-- What placing virtual bases leaves alone. -/
def State.nonVirtual (st : State) :=
  (st.dataSize, st.requiredAlignment, st.bitUnit, st.freeBits, st.afterBitField, st.primaryBase,
    st.hasOwnVfptr, st.hasVbptr, st.vbptrOffset, st.vbptrBase, st.fieldOffsets, st.baseOffsets,
    st.leadsWithZeroSizedBase)

theorem State.hasVbptr_of_nonVirtual (same : st'.nonVirtual = st.nonVirtual) :
    st'.hasVbptr = st.hasVbptr := congrArg (·.2.2.2.2.2.2.2.1) same

/-- The virtual bases in `done` are placed past `start`. -/
structure VirtualLaid (known : Known) (start : State) (done : List RecordId) (slots : List Slot)
    (st : State) : Prop where
  chain : Chain (8 * start.size) slots (8 * st.size)
  base : ∀ {v layout slot}, known.record v = .ok layout → st.virtualBaseSlots.find? v = some slot →
    Slot.ofBytes (.virtualBase v) slot.offset layout.dataSize ∈ slots
  vtordisp : ∀ {v slot}, st.virtualBaseSlots.find? v = some slot → slot.hasVtordisp = true →
    vtordispSize ≤ slot.offset ∧
      Slot.ofBytes (.vtordisp v) (slot.offset - vtordispSize) vtordispSize ∈ slots
  entered : ∀ v ∈ done, st.virtualBaseSlots.contains v = true
  asked : ∀ v ∈ done, ∃ layout, known.record v = .ok layout
  nonVirtual : st.nonVirtual = start.nonVirtual

/-- Room left between virtual bases changes nothing but the size. -/
def Widened (st : State) (room : Nat) (st' : State) : Prop :=
  ∃ before, st.size ≤ before ∧ st' = { st with size := before + room }

theorem Widened.refl (st : State) : Widened st 0 st := ⟨st.size, le_rfl, rfl⟩

/-- Of the room left in several steps the last counts. -/
theorem Widened.trans {st₁ st₂ st₃ : State} {room room' : Nat} (h : Widened st₁ room st₂)
    (h' : Widened st₂ room' st₃) : Widened st₁ room' st₃ := by
  obtain ⟨before, past, rfl⟩ := h
  obtain ⟨before', past', rfl⟩ := h'
  exact ⟨before', (past.trans (Nat.le_add_right _ _)).trans past', rfl⟩

theorem Widened.room_le {room : Nat} (h : Widened st room st') : st.size + room ≤ st'.size := by
  obtain ⟨before, past, rfl⟩ := h
  exact Nat.add_le_add_right past room

/-- Room that is left may be counted as space before it. -/
theorem Widened.weaken {room : Nat} (h : Widened st room st') : Widened st 0 st' := by
  obtain ⟨before, past, rfl⟩ := h
  exact ⟨before + room, past.trans (Nat.le_add_right _ _), rfl⟩

theorem addVtordispGap_ends (st : State) :
    Ends (fun _ => True) (st.addVtordispGap f) (Widened st vtordispSize) := by
  unfold State.addVtordispGap
  refine Ends.bind Ends.any fun before aligned => ?_
  refine Ends.bind Ends.any fun size sum => ?_
  obtain ⟨positive, rfl, _⟩ := Quantity.alignTo_eq_ok_iff.mp aligned
  obtain ⟨rfl, _⟩ := Quantity.add_eq_ok_iff.mp sum
  exact ⟨_, Quantity.le_roundUp (Nat.pos_of_ne_zero positive), rfl⟩

/-- The slots of a virtual base: its own, and that of its vtordisp in the room before it. -/
def virtualSlots (v : RecordId) (layout : RecordLayout) (slot : VirtualBaseSlot) : List Slot :=
  (if slot.hasVtordisp then [.ofBytes (.vtordisp v) (slot.offset - vtordispSize) vtordispSize] else [])
    ++ [.ofBytes (.virtualBase v) slot.offset layout.dataSize]

/-- The room that a vtordisp needs before its base. -/
def roomFor (hasVtordisp : Bool) : Nat := if hasVtordisp then vtordispSize else 0

theorem VirtualLaid.push {st : State} {layout : RecordLayout}
    (h : VirtualLaid known start done slots st) (laid : known.record r = .ok layout)
    (slot : VirtualBaseSlot) (room : st.size + roomFor slot.hasVtordisp ≤ slot.offset)
    (size : st'.size = slot.offset + layout.dataSize)
    (entered : st'.virtualBaseSlots = st.virtualBaseSlots.insert r slot)
    (same : st'.nonVirtual = st.nonVirtual) :
    VirtualLaid known start (done ++ [r]) (slots ++ virtualSlots r layout slot) st' := by
  have found {v : RecordId} {slot' : VirtualBaseSlot}
      (there : st'.virtualBaseSlots.find? v = some slot') :
      (v = r ∧ slot' = slot) ∨ st.virtualBaseSlots.find? v = some slot' := by
    rw [entered] at there
    by_cases here : v = r
    · rw [here, OrderedMap.find?_insert_self] at there
      exact .inl ⟨here, (Option.some.inj there).symm⟩
    · exact .inr (by rwa [OrderedMap.find?_insert_of_ne _ _ here] at there)
  constructor
  case chain =>
    refine h.chain.append ?_
    have ends : 8 * slot.offset ≤ 8 * (slot.offset + layout.dataSize) :=
      Nat.mul_le_mul_left 8 (Nat.le_add_right _ _)
    rw [size, virtualSlots]
    cases has : slot.hasVtordisp with
    | false =>
      rw [has] at room
      exact .single (Nat.mul_le_mul_left 8 room) ends le_rfl
    | true =>
      rw [has] at room
      have room : st.size + vtordispSize ≤ slot.offset := room
      refine .cons ?_ ?_ (.single ?_ ends le_rfl) <;> dsimp only [Slot.ofBytes] <;>
        refine Nat.mul_le_mul_left 8 ?_
      · exact Nat.le_sub_of_add_le room
      · exact Nat.le_add_right _ _
      · exact (Nat.sub_add_cancel ((Nat.le_add_left _ _).trans room)).le
  case base =>
    intro v layout' slot' laid' there
    rcases found there with ⟨rfl, rfl⟩ | before
    · cases laid.symm.trans laid'
      simp [virtualSlots]
    · exact List.mem_append_left _ (h.base laid' before)
  case vtordisp =>
    intro v slot' there has
    rcases found there with ⟨rfl, rfl⟩ | before
    · rw [has] at room
      have room : st.size + vtordispSize ≤ slot'.offset := room
      exact ⟨(Nat.le_add_left _ _).trans room, by simp [virtualSlots, has]⟩
    · obtain ⟨enough, placed⟩ := h.vtordisp before has
      exact ⟨enough, List.mem_append_left _ placed⟩
  case entered =>
    intro v member
    rw [entered]
    rcases List.mem_append.mp member with before | last
    · exact OrderedMap.contains_insert _ (h.entered v before)
    · cases List.mem_singleton.mp last
      exact OrderedMap.contains_insert_self _ _ _
  case asked =>
    intro v member
    rcases List.mem_append.mp member with before | last
    · exact h.asked v before
    · cases List.mem_singleton.mp last
      exact ⟨layout, laid⟩
  case nonVirtual => exact same.trans h.nonVirtual

/-- A walk after one more virtual base, which lies past everything else and past the room before it. -/
structure VirtualPlaced (f : Frame) (r : RecordId) (layout : RecordLayout) (slot : VirtualBaseSlot)
    (walk walk' : BaseWalk) : Prop where
  room : walk.state.size + roomFor slot.hasVtordisp ≤ slot.offset
  /-- Neighbours that could share an address do not. -/
  apart : walk.endsWithZeroSized = true → layout.leadsWithZeroSizedBase = true →
    walk.state.size < slot.offset
  whole : f.baseAlignment layout ∣ slot.offset
  state : walk'.state = { (baseExtent f layout walk.state).1 with
    virtualBaseSlots := walk.state.virtualBaseSlots.insert r slot
    size := slot.offset + layout.dataSize }
  ends : walk'.endsWithZeroSized = layout.hasZeroSizedSubobject

theorem layVirtualBase_placed : Ends (fun _ => True) ((layVirtualBase f found walk r).eval known)
    fun walk' => ∃ layout slot, known.record r = .ok layout ∧
      slot.hasVtordisp = found.contains r ∧ VirtualPlaced f r layout slot walk walk' := by
  unfold layVirtualBase
  refine ends_bind Ends.any fun layout laid => ?_
  rw [LayoutM.eval_layoutOf] at laid
  refine ends_ite_bind (G := Widened walk.state 0) (fun st₁ first => ?_) (fun _ next => ?_)
    fun _ => .refl _
  case refine_2 =>
    refine ends_lift_bind Ends.any fun size sum => next _ ?_
    obtain ⟨rfl, _⟩ := Quantity.add_eq_ok_iff.mp sum
    exact ⟨_, Nat.le_add_right _ _, rfl⟩
  let both := walk.endsWithZeroSized && layout.leadsWithZeroSizedBase
  refine ends_ite_bind (G := Widened walk.state (roomFor both))
    (fun st₂ second => ?_) (fun has next => ?_) fun none => by rwa [roomFor, if_neg none]
  case refine_2 =>
    refine ends_lift_bind (addVtordispGap_ends st₁) fun st₂ second => next _ ?_
    rw [roomFor, if_pos has]
    exact first.trans second
  have apart : walk.state.size + roomFor both ≤ st₂.size := second.room_le
  refine ends_ite_bind
    (G := fun st₃ => Widened walk.state (roomFor (found.contains r)) st₃ ∧ st₂.size ≤ st₃.size)
    (fun st₃ third => ?_) (fun has next => ?_) fun none => ?_
  case refine_2 =>
    refine ends_lift_bind (addVtordispGap_ends st₂) fun st₃ third => next _ ?_
    rw [roomFor, if_pos has]
    exact ⟨second.trans third, (Nat.le_add_right _ _).trans third.room_le⟩
  case refine_3 =>
    rw [roomFor, if_neg none]
    exact ⟨second.weaken, le_rfl⟩
  dsimp only
  refine ends_lift_bind Ends.any fun offset aligned => ?_
  refine ends_lift_bind Ends.any fun size sum => ?_
  obtain ⟨positive, rounded, _⟩ := Quantity.alignTo_eq_ok_iff.mp aligned
  obtain ⟨rfl, _⟩ := Quantity.add_eq_ok_iff.mp sum
  have past : st₃.size ≤ offset := rounded ▸ Quantity.le_roundUp (Nat.pos_of_ne_zero positive)
  obtain ⟨third, further⟩ := third
  refine ⟨layout, ⟨offset, found.contains r⟩, laid, rfl, third.room_le.trans past, ?_,
    rounded ▸ Quantity.dvd_roundUp _ _, ?_, rfl⟩
  · intro ends leads
    have room : roomFor both = vtordispSize := by simp [both, ends, leads, roomFor]
    have past := (room ▸ apart).trans (further.trans past)
    exact (Nat.lt_add_of_pos_right (by decide)).trans_le past
  · obtain ⟨before, later, rfl⟩ := third
    rfl

theorem layVirtualBase_ends (h : VirtualLaid known start done slots walk.state) :
    Ends (fun _ => True) ((layVirtualBase f found walk r).eval known) fun walk' =>
      ∃ slots', VirtualLaid known start (done ++ [r]) slots' walk'.state := by
  refine layVirtualBase_placed.imp ?_
  rintro walk' ⟨layout, slot, laid, _, placed⟩
  rw [placed.state]
  exact ⟨_, h.push laid slot placed.room rfl rfl rfl⟩

/-- The virtual bases of a class, in the order that the class lists them. -/
theorem layVirtualBases_ends (st : State) (fresh : st.virtualBaseSlots = .empty) :
    Ends (fun _ => True) ((layVirtualBases f st).eval known) fun st' =>
      ∃ slots, VirtualLaid known st
        (if st.hasVbptr then f.tree.virtualBases f.record else []) slots st' := by
  have start : VirtualLaid known st [] [] st := by
    refine ⟨.nil le_rfl, ?_, ?_, nofun, nofun, rfl⟩
    · intro v layout slot _ there
      rw [fresh] at there
      cases there
    · intro v slot there
      rw [fresh] at there
      cases there
  unfold layVirtualBases
  split
  case isTrue without =>
    have without : st.hasVbptr = false := by simpa using without
    exact ⟨[], by rwa [without]⟩
  case isFalse has =>
    have has : st.hasVbptr = true := by simpa using has
    refine ends_bind Ends.any fun found _ => ?_
    rw [if_pos has]
    refine ends_bind (G := fun walk : BaseWalk =>
      ∃ slots, VirtualLaid known st (f.tree.virtualBases f.record) slots walk.state) ?_
      fun walk laid => laid
    rw [LayoutM.eval_foldlM]
    apply Ends.foldlM (K := fun done _ (walk : BaseWalk) =>
      ∃ slots, VirtualLaid known st done slots walk.state)
    case first => exact ⟨[], start⟩
    case next =>
      rintro done v rest walk split ⟨slots, laid⟩
      exact layVirtualBase_ends laid

end Microsoft

end ObjectLayout
