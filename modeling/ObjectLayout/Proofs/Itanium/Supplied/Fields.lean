import ObjectLayout.Proofs.Itanium.Fields
import ObjectLayout.Proofs.Itanium.Supplied.Bases

/-! Fields whose offsets are supplied back to the rules that found them. A field has its place after
those that come before it, so its offset is found under its own position. -/
namespace ObjectLayout.Itanium

open LayoutM (ends_bind ends_lift_bind eval_bind_eq_ok)

variable {f : Frame} {known : Known} {supplied : SuppliedLayout} {st st₁ st' : State}
variable {i : SubobjectId} {x : Nat}

section Fields

variable {index : Nat} {field : Field} {width typeSize : Bits}

theorem chooseFieldOffset_samePlaces (unsupplied : f.supplied = none) {type : Ty}
    {alignment start : Bytes}
    (done : (chooseFieldOffset f st index type alignment start).eval known = .ok (st', x)) :
    SamePlaces st st' := by
  unfold chooseFieldOffset at done
  rw [unsupplied] at done
  have frame : st' = { st with emptyMap := st'.emptyMap } :=
    placeField?_frame (probe_ok _ done).1
  rw [frame]
  exact ⟨rfl, rfl, rfl, rfl⟩

/-- The offset that the search ends with is adopted, as no search would start past it. -/
theorem chooseFieldOffset_again (unsupplied : f.supplied = none) {type : Ty}
    {alignment start : Bytes} {bits : Bits} (whole : Bytes.toBits x = .ok bits)
    (told : supplied.fieldOffsets.find? index = some bits)
    (done : (chooseFieldOffset f st index type alignment start).eval known = .ok (st', x)) :
    (chooseFieldOffset (f.supplying supplied) st.inferring index type alignment start).eval known =
      .ok (st'.inferring, x) := by
  unfold chooseFieldOffset at *
  simp only [unsupplied, Option.isNone_none, if_true] at done
  obtain ⟨placed, later⟩ := probe_ok _ done
  dsimp only at placed later
  obtain ⟨rfl, small⟩ := Quantity.mul_eq_ok_iff.mp whole
  have first : Bytes.toBits start = .ok (start * Quantity.bitsPerByte) :=
    Quantity.mul_eq_ok_iff.mpr ⟨rfl, (Nat.mul_le_mul_right _ later).trans_lt small⟩
  have within : ¬ x * Quantity.bitsPerByte < start * Quantity.bitsPerByte :=
    Nat.not_lt_of_le (Nat.mul_le_mul_right _ later)
  have back : Bits.toBytesFloor (x * Quantity.bitsPerByte) = x := Nat.mul_div_cancel x (by decide)
  have supplied' : (f.supplying supplied).supplied = some supplied := rfl
  simp only [supplied', Option.isNone_some, Bool.false_eq_true, if_false]
  refine eval_bind_eq_ok.mpr ⟨_, by rw [LayoutM.eval_lift]; exact first, ?_⟩
  simp only [adoptFieldOffset, supplied', Option.bind_some, told, State.settlePackedIf, within,
    decide_false, Bool.and_false, Bool.false_eq_true, if_false, back]
  refine eval_bind_eq_ok.mpr ⟨some st'.inferring, ?_, rfl⟩
  rw [placeField?_again, LayoutM.eval_map, placed]
  rfl

theorem layField_again (unsupplied : f.supplied = none)
    (told : ∀ offset, st'.fieldOffsets = st.fieldOffsets ++ [offset] →
      supplied.fieldOffsets.find? index = some offset)
    (done : (layField f index field st).eval known = .ok st') :
    (layField (f.supplying supplied) index field st.inferring).eval known = .ok st'.inferring := by
  unfold layField at *
  simp only [unsupplied, Option.isNone_none, if_true] at done
  have supplied' : (f.supplying supplied).supplied = some supplied := rfl
  simp only [supplied', Option.isNone_some, Bool.false_eq_true, if_false]
  obtain ⟨unpadded, left, done⟩ := eval_bind_eq_ok.mp done
  obtain ⟨⟨size, typeAlignment⟩, extent, done⟩ := eval_bind_eq_ok.mp done
  obtain ⟨fitted, aligned, done⟩ := eval_bind_eq_ok.mp done
  obtain ⟨unpacked, aligned', done⟩ := eval_bind_eq_ok.mp done
  obtain ⟨⟨st₁, x⟩, chosen, done⟩ := eval_bind_eq_ok.mp done
  obtain ⟨bits, whole, done⟩ := eval_bind_eq_ok.mp done
  obtain ⟨_, _, done⟩ := eval_bind_eq_ok.mp done
  obtain ⟨_, _, done⟩ := eval_bind_eq_ok.mp done
  obtain ⟨_, _, done⟩ := eval_bind_eq_ok.mp done
  have same := chooseFieldOffset_samePlaces unsupplied chosen
  -- The offset can be told from the fields that there are in the end.
  have told' {dataSize packed unpacked : Nat} (raised : ((st₁.placeFieldAt bits).setDataSize
      dataSize).raiseAlignment f packed unpacked = .ok st') :
      supplied.fieldOffsets.find? index = some bits := by
    refine told bits (((Reckons.raiseAlignment _ _).value raised).samePlaces.fields.trans ?_)
    exact congrArg (· ++ [bits]) same.fields
  refine eval_bind_eq_ok.mpr ⟨_, left, eval_bind_eq_ok.mpr ⟨_, extent, ?_⟩⟩
  refine eval_bind_eq_ok.mpr ⟨_, aligned, eval_bind_eq_ok.mpr ⟨_, aligned', ?_⟩⟩
  have union : (f.supplying supplied).isUnion = f.isUnion := rfl
  rw [union]
  have inBits : Bytes.toBits x = .ok bits := (LayoutM.eval_lift _).symm.trans whole
  -- What is left once the end of the data is known.
  have finish {dataSize packed unpacked : Nat} (raised : ((st₁.placeFieldAt bits).setDataSize
      dataSize).raiseAlignment f packed unpacked = .ok st') :
      (liftM (((st₁.inferring.placeFieldAt bits).setDataSize dataSize).raiseAlignment
        (f.supplying supplied) packed unpacked) : LayoutM State).eval known = .ok st'.inferring := by
    rw [LayoutM.eval_lift]
    exact (raiseAlignment_again unsupplied _ _).trans (congrArg (State.inferring <$> ·) raised)
  cases here : f.isUnion with
  | true =>
    rw [here] at done
    obtain ⟨sizeInBits, sized, done⟩ := eval_bind_eq_ok.mp done
    have raised := (LayoutM.eval_lift _).symm.trans done
    have chosen' := chooseFieldOffset_again unsupplied inBits (told' raised) chosen
    refine eval_bind_eq_ok.mpr ⟨_, chosen', eval_bind_eq_ok.mpr ⟨_, whole, ?_⟩⟩
    exact eval_bind_eq_ok.mpr ⟨_, sized, finish raised⟩
  | false =>
    rw [here] at done
    obtain ⟨stop, sum, done⟩ := eval_bind_eq_ok.mp done
    obtain ⟨dataSize, reached, done⟩ := eval_bind_eq_ok.mp done
    have raised := (LayoutM.eval_lift _).symm.trans done
    have chosen' := chooseFieldOffset_again unsupplied inBits (told' raised) chosen
    refine eval_bind_eq_ok.mpr ⟨_, chosen', eval_bind_eq_ok.mpr ⟨_, whole, ?_⟩⟩
    exact eval_bind_eq_ok.mpr ⟨_, sum, eval_bind_eq_ok.mpr ⟨_, reached, finish raised⟩⟩

theorem endAt_again (st : State) (stop : Bits) :
    st.inferring.endAt stop = State.inferring <$> st.endAt stop := by
  simp [State.endAt, State.inferring]

theorem takeFromUnit_again (offset width typeSize : Bits) :
    st.inferring.takeFromUnit offset width typeSize =
      State.inferring <$> st.takeFromUnit offset width typeSize := by
  unfold State.takeFromUnit State.inferring
  split
  · simp
  · split
    · simp
    · rfl

theorem occupyBits_again (st : State) (offset width typeSize : Bits) :
    st.inferring.occupyBits (f.supplying supplied) offset width typeSize =
      State.inferring <$> st.occupyBits f offset width typeSize := by
  unfold State.occupyBits
  have union : (f.supplying supplied).isUnion = f.isUnion := rfl
  have msStruct : (f.supplying supplied).isMsStruct = f.isMsStruct := rfl
  rw [union, msStruct]
  split
  · rfl
  · split
    · exact takeFromUnit_again offset width typeSize
    · simp only [endAt_again, map_bind]
      refine congrArg _ (funext fun stop => ?_)
      cases st.endAt stop <;> rfl

theorem leaveUnit_again (typeSize : Bits) :
    st.inferring.leaveUnit typeSize = (st.leaveUnit typeSize).inferring := by
  unfold State.leaveUnit State.inferring
  split <;> rfl

theorem layWideBitField_again (unsupplied : f.supplied = none) {isPacked : Bool}
    (done : (layWideBitField f index field width isPacked st).eval known = .ok st') :
    (layWideBitField (f.supplying supplied) index field width isPacked st.inferring).eval known =
      .ok st'.inferring := by
  unfold layWideBitField at *
  obtain ⟨alignment, widest, done⟩ := eval_bind_eq_ok.mp done
  refine eval_bind_eq_ok.mpr ⟨_, widest, ?_⟩
  have union : (f.supplying supplied).isUnion = f.isUnion := rfl
  rw [union]
  cases here : f.isUnion with
  | true =>
    rw [here] at done
    obtain ⟨_, paired, done⟩ := eval_bind_eq_ok.mp done
    cases paired
    obtain ⟨_, _, done⟩ := eval_bind_eq_ok.mp done
    have raised := (LayoutM.eval_lift _).symm.trans done
    refine eval_bind_eq_ok.mpr ⟨_, rfl, eval_bind_eq_ok.mpr ⟨_, eval_reportPlacement _, ?_⟩⟩
    rw [LayoutM.eval_lift]
    exact (raiseAlignment_again unsupplied _ _).trans (congrArg (State.inferring <$> ·) raised)
  | false =>
    rw [here] at done
    obtain ⟨offset, aligned, done⟩ := eval_bind_eq_ok.mp done
    obtain ⟨stop, sum, done⟩ := eval_bind_eq_ok.mp done
    obtain ⟨st₁, ended, done⟩ := liftM_again done
    obtain ⟨_, paired, done⟩ := eval_bind_eq_ok.mp done
    cases paired
    obtain ⟨_, _, done⟩ := eval_bind_eq_ok.mp done
    have raised := (LayoutM.eval_lift _).symm.trans done
    refine eval_bind_eq_ok.mpr ⟨_, aligned, eval_bind_eq_ok.mpr ⟨_, sum, ?_⟩⟩
    refine again_bind (endAt_again { st with unfilledBits := 0, storageUnit := 0 } stop) ended ?_
    refine eval_bind_eq_ok.mpr ⟨_, rfl, eval_bind_eq_ok.mpr ⟨_, eval_reportPlacement _, ?_⟩⟩
    rw [LayoutM.eval_lift]
    exact (raiseAlignment_again unsupplied _ _).trans (congrArg (State.inferring <$> ·) raised)

theorem again_ask {x : LayoutM α} {next next' : α → LayoutM State} {result result' : State}
    (rest : ∀ a, (next a).eval known = .ok result → (next' a).eval known = .ok result')
    (done : (x >>= next).eval known = .ok result) : (x >>= next').eval known = .ok result' := by
  obtain ⟨a, asked, done⟩ := eval_bind_eq_ok.mp done
  exact eval_bind_eq_ok.mpr ⟨a, asked, rest a done⟩

theorem again_ite_ask {c : Prop} [Decidable c] {x y : LayoutM α} {next next' : α → LayoutM State}
    {result result' : State}
    (rest : ∀ a, (next a).eval known = .ok result → (next' a).eval known = .ok result')
    (done : (if c then x >>= next else y >>= next).eval known = .ok result) :
    (if c then x >>= next' else y >>= next').eval known = .ok result' := by
  split at done
  · rw [if_pos ‹c›]
    exact again_ask rest done
  · rw [if_neg ‹¬ c›]
    exact again_ask rest done

theorem layNarrowBitField_again (unsupplied : f.supplied = none) {isPacked : Bool}
    {typeAlignment unpaddedOffset : Bits}
    (told : ∀ offset, st'.fieldOffsets = st.fieldOffsets ++ [offset] →
      supplied.fieldOffsets.find? index = some offset)
    (done : (layNarrowBitField f index field width typeSize typeAlignment isPacked unpaddedOffset
      st).eval known = .ok st') :
    (layNarrowBitField (f.supplying supplied) index field width typeSize typeAlignment isPacked
      unpaddedOffset st.inferring).eval known = .ok st'.inferring := by
  unfold layNarrowBitField at *
  dsimp only at done ⊢
  refine again_ask (fun alignment done => ?_) done
  refine again_ite_ask (fun offset done => ?_) done
  refine again_ite_ask (fun unpackedOffset done => ?_) done
  refine again_ask (fun offset done => ?_) done
  refine again_ask (fun unpackedOffset done => ?_) done
  have computed : adoptFieldOffset f st index offset = (st, offset) := by
    rw [adoptFieldOffset, unsupplied]
    rfl
  rw [computed] at done
  rw [unsupplied] at done
  obtain ⟨_, _, done⟩ := eval_bind_eq_ok.mp done
  obtain ⟨st₁, occupied, done⟩ := liftM_again done
  have raised := (LayoutM.eval_lift _).symm.trans done
  have told := told offset (((Reckons.raiseAlignment _ _).value raised).samePlaces.fields.trans
    ((occupyBits_reckons _ _ _).value occupied).samePlaces.fields)
  have adopted : adoptFieldOffset (f.supplying supplied) st.inferring index offset =
      (st.inferring, offset) := by
    simp [adoptFieldOffset, Frame.supplying, told, State.settlePackedIf]
  rw [adopted]
  refine again_bind (occupyBits_again (st.placeFieldAt offset) _ _ _) occupied ?_
  rw [LayoutM.eval_lift]
  exact (raiseAlignment_again unsupplied _ _).trans (congrArg (State.inferring <$> ·) raised)

theorem layBitField_again (unsupplied : f.supplied = none)
    (told : ∀ offset, st'.fieldOffsets = st.fieldOffsets ++ [offset] →
      supplied.fieldOffsets.find? index = some offset)
    (done : (layBitField f index field width st).eval known = .ok st') :
    (layBitField (f.supplying supplied) index field width st.inferring).eval known =
      .ok st'.inferring := by
  unfold layBitField at *
  refine again_ask (fun layout done => ?_) done
  refine again_ask (fun typeSize done => ?_) done
  refine again_ask (fun naturalAlignment done => ?_) done
  have left : (if (f.supplying supplied).isMsStruct then st.inferring.leaveUnit typeSize
      else st.inferring) = (if f.isMsStruct then st.leaveUnit typeSize else st).inferring := by
    rw [leaveUnit_again]
    change (if f.isMsStruct then _ else _) = _
    split <;> rfl
  have fields : (if f.isMsStruct then st.leaveUnit typeSize else st).fieldOffsets =
      st.fieldOffsets := by
    split
    · rw [leaveUnit_frame.1]
    · rfl
  dsimp only at done ⊢
  rw [left]
  generalize (if f.isMsStruct then st.leaveUnit typeSize else st) = st₀ at done fields ⊢
  refine again_ask (fun unpaddedOffset done => ?_) done
  rw [← fields] at told
  split at done
  · rw [if_pos ‹_›]
    exact layWideBitField_again unsupplied done
  · rw [if_neg ‹_›]
    exact layNarrowBitField_again unsupplied told done

theorem layAnyField_again (unsupplied : f.supplied = none)
    (told : ∀ offset, st'.fieldOffsets = st.fieldOffsets ++ [offset] →
      supplied.fieldOffsets.find? index = some offset)
    (done : (layAnyField f st (field, index)).eval known = .ok st') :
    (layAnyField (f.supplying supplied) st.inferring (field, index)).eval known =
      .ok st'.inferring := by
  unfold layAnyField at *
  cases width : field.bitWidth with
  | some width =>
    simp only [width] at done ⊢
    exact layBitField_again unsupplied told done
  | none =>
    simp only [width] at done ⊢
    exact layField_again unsupplied told done

/-- Fields leave the bases and the graph alone. -/
theorem layFields_tables : Ends (fun _ => True) ((layFields f st).eval known) fun st' =>
    f.supplied = none → st'.graph = st.graph ∧ st'.baseOffsets = st.baseOffsets ∧
      st'.virtualBaseSlots = st.virtualBaseSlots := by
  unfold layFields
  rw [LayoutM.eval_foldlM]
  refine Ends.foldlM_keeps (fun _ => ⟨rfl, rfl, rfl⟩) fun entry _ st₁ sofar => ?_
  refine Ends.any.imp fun st₂ done unsupplied => ?_
  obtain ⟨offset, laid⟩ := (layAnyField_ends unsupplied).value done
  obtain ⟨graph, bases, virtualBases⟩ := laid.tables
  obtain ⟨graph', bases', virtualBases'⟩ := sofar unsupplied
  exact ⟨graph.trans graph', bases.trans bases', virtualBases.trans virtualBases'⟩

/-- A field has its place after those that come before it, so its offset is still there at the end
under its own position. -/
theorem layFields_again (unsupplied : f.supplied = none) (first : st.fieldOffsets = [])
    (told : ∀ (index : Nat) (offset : Bits), st'.fieldOffsets[index]? = some offset →
      supplied.fieldOffsets.find? index = some offset)
    (done : (layFields f st).eval known = .ok st') :
    (layFields (f.supplying supplied) st.inferring).eval known = .ok st'.inferring := by
  unfold layFields at *
  have declared : (f.supplying supplied).declaration = f.declaration := rfl
  rw [declared]
  suffices general : ∀ (fields : List Field) (st : State),
      ((fields.zipIdx st.fieldOffsets.length).foldlM (layAnyField f) st).eval known = .ok st' →
      st.fieldOffsets <+: st'.fieldOffsets ∧
        ((fields.zipIdx st.fieldOffsets.length).foldlM (layAnyField (f.supplying supplied))
          st.inferring).eval known = .ok st'.inferring by
    have whole := general f.declaration.fields st
    rw [first] at whole
    exact (whole done).2
  intro fields
  induction fields with
  | nil =>
    intro st done
    cases done
    exact ⟨List.prefix_refl _, rfl⟩
  | cons field rest ih =>
    intro st done
    rw [List.zipIdx_cons, List.foldlM_cons] at done ⊢
    obtain ⟨st₁, laid, done⟩ := eval_bind_eq_ok.mp done
    obtain ⟨offset, next⟩ := (layAnyField_ends unsupplied).value laid
    have fields : st₁.fieldOffsets = st.fieldOffsets ++ [offset] := congrArg (·.1) next.rest
    have position : st.fieldOffsets.length + 1 = st₁.fieldOffsets.length := by
      rw [fields, List.length_append]
      rfl
    rw [position] at done ⊢
    obtain ⟨before, again⟩ := ih st₁ done
    refine ⟨(List.prefix_append _ _).trans (fields ▸ before), ?_⟩
    refine eval_bind_eq_ok.mpr ⟨_, layAnyField_again unsupplied (fun offset' same => ?_) laid, again⟩
    apply told
    rw [same] at before
    obtain ⟨more, whole⟩ := before
    rw [← whole, List.getElem?_append_left (by simp), List.getElem?_concat_length]

end Fields

end ObjectLayout.Itanium
