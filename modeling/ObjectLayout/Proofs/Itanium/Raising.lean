import ObjectLayout.Proofs.Itanium.Supplied.Fields

/-! How far each step raises the alignment, and that what it places lies at a multiple of what it asks
for. Every part asks for an alignment of its own and gets at least that much, unless the maximum for
fields is in the way; an empty base at the start escapes the maximum. -/
namespace ObjectLayout.Itanium

open LayoutM (ends_bind ends_lift_bind)

variable {f : Frame} {known : Known} {st st' : State} {i : SubobjectId} {x : Nat}
variable {field : Field} {index : Nat}

/-- The alignment after a part has asked for one. Under `mac68k` it was settled from the start. -/
def Frame.raised (f : Frame) (alignment asked : Nat) : Nat :=
  if f.isMac68k then alignment else max alignment asked

theorem Frame.le_raised (f : Frame) (alignment asked : Nat) : alignment ≤ f.raised alignment asked := by
  unfold raised
  split
  · exact le_rfl
  · exact Nat.le_max_left _ _

theorem Frame.raised_mono (f : Frame) {alignment asked asked' : Nat} (le : asked ≤ asked') :
    f.raised alignment asked ≤ f.raised alignment asked' := by
  unfold raised
  split
  · exact le_rfl
  · exact max_le_max_left _ le

/-- The alignment that a base of class `r` asks for, before the maximum for fields. -/
def Frame.baseAlignment (f : Frame) (known : Known) (r : RecordId) : Nat :=
  if f.isPacked then 1 else known.nonVirtualAlignment r

/-- The alignment that a base of class `r` at `x` brings: an empty one at the start is not clamped. -/
def Frame.broughtBy (f : Frame) (known : Known) (r : RecordId) (x : Nat) : Nat :=
  if f.tree.isEmptyClass r = true ∧ x = 0 then f.baseAlignment known r
  else f.clamp (f.baseAlignment known r)

theorem Frame.clamp_le (f : Frame) (n : Nat) : f.clamp n ≤ n := by
  unfold clamp
  split
  · exact le_rfl
  · exact Nat.min_le_left _ _

theorem Frame.clamp_le_broughtBy (f : Frame) (r : RecordId) (x : Nat) :
    f.clamp (f.baseAlignment known r) ≤ f.broughtBy known r x := by
  unfold broughtBy
  split
  · exact f.clamp_le _
  · exact le_rfl

/-- A state in which a part has asked for an alignment. -/
structure Raised (f : Frame) (asked : Nat) (st st' : State) : Prop where
  frame : st' = { st with
    alignment := f.raised st.alignment asked, unpackedAlignment := st'.unpackedAlignment }
  power : Quantity.isPowerOfTwo st.alignment = true → Quantity.isPowerOfTwo st'.alignment = true

theorem raiseAlignment_raises (unsupplied : f.supplied = none) {packed unpacked : Nat} :
    Ends (fun _ => True) (st.raiseAlignment f packed unpacked) (Raised f packed st) := by
  have settled : st.isAlignmentSettled f = f.isMac68k := by
    simp [State.isAlignmentSettled, unsupplied]
  have done (condition : Prop) [Decidable condition] {check : Checked Unit} {next : Checked State}
      {good : State → Prop} (rest : Ends (fun _ => True) next good) :
      Ends (fun _ => True) (if condition then check >>= fun _ => next else next) good := by
    split
    · exact Ends.bind Ends.any fun _ _ => rest
    · exact rest
  have frame : Ends (fun _ => True) (st.raiseAlignment f packed unpacked) fun st' => st' = { st with
      alignment := f.raised st.alignment packed, unpackedAlignment := st'.unpackedAlignment } := by
    unfold State.raiseAlignment Frame.raised
    rw [settled]
    cases f.isMac68k with
    | true => exact rfl
    | false => exact done _ (done _ rfl)
  refine Ends.any.imp fun st' same => ⟨frame.holds same, ?_⟩
  exact (Ends.holds (raiseAlignment_ends (.inr trivial) (.inr trivial)) same).power

section Base

theorem probe_dvd {place? : Nat → LayoutM (Option α)} {step : Nat} (attempts : Nat) {start : Nat}
    {found : α × Nat} (done : (probe place? step attempts start).eval known = .ok found)
    (whole : step ∣ start) : step ∣ found.2 := by
  induction attempts generalizing start with
  | zero => cases done
  | succ attempts ih =>
    unfold probe at done
    obtain ⟨answer, asked, done⟩ := LayoutM.eval_bind_eq_ok.mp done
    cases answer with
    | some placed =>
      cases done
      exact whole
    | none =>
      obtain ⟨next, sum, done⟩ := LayoutM.eval_bind_eq_ok.mp done
      rw [LayoutM.eval_lift, Quantity.add_eq_ok_iff] at sum
      exact ih done (sum.1 ▸ Nat.dvd_add whole (Nat.dvd_refl _))

theorem dvd_of_alignTo {a b c : Nat} (aligned : Quantity.alignTo a b = .ok c) : b ∣ c := by
  obtain ⟨_, rfl, _⟩ := Quantity.alignTo_eq_ok_iff.mp aligned
  exact Quantity.dvd_roundUp _ _

/-- A state after a base of class `r` got its place at `x`, as far as alignments go. -/
structure BaseRaised (f : Frame) (known : Known) (r : RecordId) (x : Nat) (st st' : State) : Prop where
  frame : st' = { st with
    size := st'.size, dataSize := st'.dataSize, emptyMap := st'.emptyMap
    alignment := f.raised st.alignment (f.broughtBy known r x)
    unpackedAlignment := st'.unpackedAlignment }
  power : Quantity.isPowerOfTwo st.alignment = true → Quantity.isPowerOfTwo st'.alignment = true
  isClass : ∃ layout, known.record r = .ok layout ∧ layout.asClass.isSome
  whole : x = 0 ∨ f.clamp (f.baseAlignment known r) ∣ x

theorem findBaseOffset_dvd {alignment : Nat}
    (done : (findBaseOffset f st i alignment).eval known = .ok (st', x)) : alignment ∣ x := by
  unfold findBaseOffset at done
  obtain ⟨start, aligned, done⟩ := LayoutM.eval_bind_eq_ok.mp done
  rw [LayoutM.eval_lift] at aligned
  exact probe_dvd _ done (dvd_of_alignTo aligned)

theorem occupyBase_frame (isEmpty : Bool) (layout : RecordLayout) :
    Ends (fun _ => True) (occupyBase st isEmpty layout x) fun st' =>
      st' = { st with size := st'.size, dataSize := st'.dataSize } := by
  unfold occupyBase
  cases isEmpty with
  | true => exact Ends.bind Ends.any fun _ _ => Ends.bind Ends.any fun _ _ => rfl
  | false =>
    refine Ends.bind Ends.any fun _ _ => Ends.bind Ends.any fun _ _ => ?_
    exact Ends.bind Ends.any fun _ _ => rfl

theorem layBase_raises (unsupplied : f.supplied = none) :
    Ends (fun _ => True) ((layBase f i st).eval known) fun result =>
      BaseRaised f known (st.graph.node i).record result.2 st result.1 := by
  have none : suppliedBaseOffset? f (st.graph.node i) = none := by
    simp [suppliedBaseOffset?, unsupplied]
  refine layBase_stages.imp ?_
  rintro ⟨st', x⟩ ⟨layout, unpacked, laid, aligned, stages⟩
  have part : layout.asClass.isSome := by
    by_contra plain
    rw [Option.not_isSome_iff_eq_none] at plain
    rw [RecordLayout.nonVirtualAlignment, RecordLayout.classLayout, plain] at aligned
    cases aligned
  rw [(baseLayout_eq laid part).1] at aligned
  cases aligned
  have asked : (if f.isPacked = true then 1 else known.nonVirtualAlignment (st.graph.node i).record) =
      f.baseAlignment known (st.graph.node i).record := rfl
  cases stages with
  | @atStart placed sized _ empty _ admitted covered raised =>
    have raised := Ends.holds (raiseAlignment_raises unsupplied) raised
    have sized := Ends.holds (setSize_ends trivial) covered
    have brought : f.broughtBy known (st.graph.node i).record 0 =
        f.baseAlignment known (st.graph.node i).record := if_pos ⟨empty, rfl⟩
    have alignment := congrArg State.alignment (sized.trans (by rw [placeBase?_frame admitted]))
    refine ⟨?_, alignment ▸ raised.power, ⟨layout, laid, part⟩, .inl rfl⟩
    rw [brought, raised.frame, sized, placeBase?_frame admitted, asked]
  | @elsewhere placed occupied _ x refused chosen covered raised =>
    rw [seekBase, none] at chosen
    have raised := Ends.holds (raiseAlignment_raises unsupplied) raised
    have occupied := Ends.holds (occupyBase_frame _ _) covered
    have admitted := (findBaseOffset_ok chosen).1
    -- Past the data the maximum for fields holds; at the start an empty base was refused before.
    have brought : f.broughtBy known (st.graph.node i).record x =
        f.clamp (f.baseAlignment known (st.graph.node i).record) := by
      refine if_neg fun atStart => ?_
      obtain ⟨empty, rfl⟩ := atStart
      rw [refused empty (by rw [none]; rfl)] at admitted
      cases admitted
    have alignment := congrArg State.alignment (occupied.trans (by rw [placeBase?_frame admitted]))
    refine ⟨?_, alignment ▸ raised.power, ⟨layout, laid, part⟩, .inr (findBaseOffset_dvd chosen)⟩
    rw [brought, raised.frame, occupied, placeBase?_frame admitted, asked]

/-- A state after a base and all that it has claimed got their places, the base at `x`. Its own place
goes into `tables`, those of what it has claimed among the virtual bases. -/
structure BaseHoused (f : Frame) (known : Known) (i : SubobjectId) (x : Nat)
    (tables : State → State) (st st' : State) : Prop where
  housed : ∃ mid slots, BaseRaised f known (st.graph.node i).record x st mid ∧
    (placeClaimed f.setting st.graph i x (tables mid).virtualBaseSlots).eval known = .ok slots ∧
    st' = { tables mid with virtualBaseSlots := slots }

/-- A non-virtual base enters the table of base offsets. -/
def State.withBase (r : RecordId) (x : Nat) (st : State) : State :=
  { st with baseOffsets := st.baseOffsets.insert r x }

/-- A virtual base enters the table of virtual bases. -/
def State.withVirtualBase (r : RecordId) (x : Nat) (st : State) : State :=
  { st with virtualBaseSlots := st.virtualBaseSlots.insert r { offset := x } }

theorem BaseRaised.graph {r : RecordId} {mid : State} (h : BaseRaised f known r x st mid) :
    mid.graph = st.graph := by rw [h.frame]

/-- Once a base has its place, that goes into a table, and what the base has claimed follows. -/
theorem BaseRaised.houses {mid : State} (h : BaseRaised f known (st.graph.node i).record x st mid)
    (tables : State → State) (graph : (tables mid).graph = st.graph) :
    Ends (fun _ => True) (((tables mid).placeClaimed f i x).eval known)
      (BaseHoused f known i x tables st) := by
  unfold State.placeClaimed
  refine ends_bind Ends.any fun slots placed => ⟨mid, slots, h, ?_, rfl⟩
  rwa [graph] at placed

theorem layNonVirtualBase_houses (unsupplied : f.supplied = none) :
    Ends (fun _ => True) ((layNonVirtualBase f i st).eval known) fun st' =>
      ∃ x, BaseHoused f known i x (State.withBase (st.graph.node i).record x) st st' := by
  unfold layNonVirtualBase
  refine ends_bind (layBase_raises unsupplied) ?_
  rintro ⟨mid, x⟩ raised
  have graph : mid.graph = st.graph := raised.graph
  have housed := raised.houses (State.withBase (mid.graph.node i).record x) graph
  refine ends_bind Ends.any fun _ _ => housed.imp fun st' housed => ⟨x, ?_⟩
  rwa [graph] at housed

theorem layVirtualBase_houses (unsupplied : f.supplied = none) :
    Ends (fun _ => True) ((layVirtualBase f i st).eval known) fun st' =>
      ∃ x, BaseHoused f known i x (State.withVirtualBase (st.graph.node i).record x) st st' := by
  unfold layVirtualBase
  refine ends_bind Ends.any fun _ _ => ends_bind (layBase_raises unsupplied) ?_
  rintro ⟨mid, x⟩ raised
  have graph : mid.graph = st.graph := raised.graph
  have housed := raised.houses (State.withVirtualBase (mid.graph.node i).record x) graph
  refine ends_bind Ends.any fun _ _ => housed.imp fun st' housed => ⟨x, ?_⟩
  rwa [graph] at housed

/-- Both tables change nothing besides themselves. -/
theorem BaseHoused.frame {tables : State → State} (h : BaseHoused f known i x tables st st')
    (same : ∀ mid, tables mid = { mid with
      baseOffsets := (tables mid).baseOffsets, virtualBaseSlots := (tables mid).virtualBaseSlots }) :
    st'.graph = st.graph ∧ st'.rest = st.rest ∧
      st'.alignment = f.raised st.alignment (f.broughtBy known (st.graph.node i).record x) := by
  obtain ⟨mid, slots, raised, _, rfl⟩ := h.housed
  rw [same mid, raised.frame]
  exact ⟨rfl, rfl, rfl⟩

theorem layTablePointer_raises (unsupplied : f.supplied = none) :
    Ends (fun _ => True) (layTablePointer f st) fun st' => st' = { st with
      size := st'.size, dataSize := st'.dataSize, hasOwnVfptr := true
      alignment := st'.alignment, unpackedAlignment := st'.unpackedAlignment } ∧
      st.alignment ≤ st'.alignment ∧
      (Quantity.isPowerOfTwo st.alignment = true → Quantity.isPowerOfTwo st'.alignment = true) := by
  unfold layTablePointer
  refine Ends.bind Ends.any fun _ _ => Ends.bind Ends.any fun start _ => ?_
  refine Ends.bind Ends.any fun bits _ => ?_
  refine (raiseAlignment_raises unsupplied).bind fun st₁ raised => ?_
  refine Ends.bind Ends.any fun stop _ => Ends.bind Ends.any fun bits _ => ?_
  have power := raised.power
  rw [raised.frame] at power ⊢
  exact ⟨rfl, f.le_raised _ _, power⟩

end Base

section Fields

/-- A state after one more field, as far as alignments go. -/
structure FieldRaised (f : Frame) (known : Known) (field : Field) (offset : Nat) (st st' : State) :
    Prop where
  frame : st' = { st with
    size := st'.size, dataSize := st'.dataSize, emptyMap := st'.emptyMap
    unfilledBits := st'.unfilledBits, storageUnit := st'.storageUnit
    fieldOffsets := st.fieldOffsets ++ [offset]
    alignment := st'.alignment, unpackedAlignment := st'.unpackedAlignment }
  grows : st.alignment ≤ st'.alignment
  power : Quantity.isPowerOfTwo st.alignment = true → Quantity.isPowerOfTwo st'.alignment = true
  stored : field.bitWidth = none → ∃ size natural,
    (fieldExtent f field.type).eval known = .ok (size, natural) ∧
      st'.alignment = f.raised st.alignment (f.fieldAlignment field natural) ∧
      8 * f.fieldAlignment field natural ∣ offset

theorem layField_raises (unsupplied : f.supplied = none) :
    Ends (fun _ => True) ((layField f index field st).eval known) fun st' =>
      ∃ offset, FieldRaised f known field offset st st' := by
  refine layField_stages.imp ?_
  rintro st' ⟨size, natural, start, x, placed, stages⟩
  have chosen := stages.chosen
  unfold chooseFieldOffset at chosen
  rw [unsupplied] at chosen
  have whole : f.fieldAlignment field natural ∣ x := probe_dvd _ chosen (dvd_of_alignTo stages.aligned)
  have frame : placed = { st with unfilledBits := 0, storageUnit := 0, emptyMap := placed.emptyMap } :=
    placeField?_frame (probe_ok _ chosen).1
  have raised := Ends.holds (raiseAlignment_raises unsupplied) stages.raised
  refine ⟨8 * x, ?_, ?_, ?_, fun _ => ⟨size, natural, stages.extent, ?_, ?_⟩⟩
  · rw [raised.frame, frame]
    rfl
  · rw [raised.frame]
    change st.alignment ≤ f.raised placed.alignment _
    rw [frame]
    exact f.le_raised _ _
  · have power := raised.power
    change Quantity.isPowerOfTwo placed.alignment = true → _ at power
    rwa [frame] at power
  · rw [raised.frame]
    change f.raised placed.alignment _ = _
    rw [frame]
  · exact Nat.mul_dvd_mul_left _ whole

/-- Taking the bits of a bit-field changes the data only. -/
theorem occupyBits_frame (offset width typeSize : Nat) :
    Ends (fun _ => True) (st.occupyBits f offset width typeSize) fun st' => st' = { st with
      dataSize := st'.dataSize, unfilledBits := st'.unfilledBits, storageUnit := st'.storageUnit } := by
  unfold State.occupyBits
  split
  · rfl
  · split
    · unfold State.takeFromUnit
      split
      · exact Ends.bind Ends.any fun _ _ => Ends.bind Ends.any fun _ _ => rfl
      · split
        · exact Ends.bind Ends.any fun _ _ => Ends.bind Ends.any fun _ _ => rfl
        · rfl
    · refine Ends.bind Ends.any fun stop _ => (endAt_ends stop).bind fun st₁ ⟨frame, _⟩ => ?_
      rw [frame]
      rfl

/-- A bit-field whose bits are taken. -/
theorem bitField_raises (unsupplied : f.supplied = none) {width offset : Nat} {st₁ : State}
    (isBitField : field.bitWidth = some width) (frame : st₁ = { st with
      dataSize := st₁.dataSize, unfilledBits := st₁.unfilledBits, storageUnit := st₁.storageUnit
      fieldOffsets := st.fieldOffsets ++ [offset] }) (packed unpacked : Nat) :
    Ends (fun _ => True) ((st₁.setDataSize st₁.dataSize).raiseAlignment f packed unpacked)
      (FieldRaised f known field offset st) := by
  refine (raiseAlignment_raises unsupplied).imp fun st' raised => ⟨?_, ?_, ?_, by simp [isBitField]⟩
  · rw [raised.frame, frame]
    rfl
  · rw [raised.frame]
    change st.alignment ≤ f.raised st₁.alignment _
    rw [frame]
    exact f.le_raised _ _
  · have power := raised.power
    change Quantity.isPowerOfTwo st₁.alignment = true → _ at power
    rwa [frame] at power

theorem layWideBitField_raises (unsupplied : f.supplied = none) {width : Nat}
    (isBitField : field.bitWidth = some width) (isPacked : Bool) :
    Ends (fun _ => True) ((layWideBitField f index field width isPacked st).eval known) fun st' =>
      ∃ offset, FieldRaised f known field offset st st' := by
  refine layWideBitField_stages.imp ?_
  rintro st' ⟨alignment, offset, taken, stages⟩
  refine ⟨offset, (bitField_raises unsupplied isBitField ?_ _ _).holds stages.raised⟩
  rw [stages.frame]
  rfl

theorem layNarrowBitField_raises (unsupplied : f.supplied = none) {width typeSize : Nat}
    (isBitField : field.bitWidth = some width) (typeAlignment unpadded : Nat) (isPacked : Bool) :
    Ends (fun _ => True) ((layNarrowBitField f index field width typeSize typeAlignment isPacked
      unpadded st).eval known) fun st' => ∃ offset, FieldRaised f known field offset st st' := by
  refine layNarrowBitField_stages.imp ?_
  rintro st' ⟨alignment, start, computed, taken, stages⟩
  have occupied := stages.occupied
  simp only [adoptFieldOffset, unsupplied, Option.bind_none] at occupied
  refine ⟨computed, (bitField_raises unsupplied isBitField ?_ _ _).holds stages.raised⟩
  rw [Ends.holds (occupyBits_frame _ _ _) occupied]
  rfl

/-- To leave a unit does not show in what comes after the field. -/
theorem FieldRaised.of_left {st₀ : State} {offset : Nat} (h : FieldRaised f known field offset st₀ st')
    (frame : st₀ = { st with unfilledBits := st₀.unfilledBits, storageUnit := st₀.storageUnit }) :
    FieldRaised f known field offset st st' := by
  have alignment : st₀.alignment = st.alignment := by rw [frame]
  refine ⟨?_, alignment ▸ h.grows, alignment ▸ h.power, alignment ▸ h.stored⟩
  rw [h.frame, frame]

theorem layAnyField_raises (unsupplied : f.supplied = none) :
    Ends (fun _ => True) ((layAnyField f st (field, index)).eval known) fun st' =>
      ∃ offset, FieldRaised f known field offset st st' := by
  unfold layAnyField
  cases isBitField : field.bitWidth with
  | none => exact layField_raises unsupplied
  | some width =>
    dsimp only
    refine layBitField_enters.imp ?_
    rintro st' ⟨type, _, _, entered⟩
    obtain ⟨offset, raised⟩ :
        ∃ offset, FieldRaised f known field offset (st.entering f type) st' := by
      rcases entered with ⟨_, done⟩ | ⟨_, done⟩
      · exact (layWideBitField_raises unsupplied isBitField _).holds done
      · exact (layNarrowBitField_raises unsupplied isBitField _ _ _).holds done
    exact ⟨offset, raised.of_left entering_frame.1⟩

end Fields

end ObjectLayout.Itanium
