import ObjectLayout.Itanium.Layout
import ObjectLayout.Proofs.Alignment
import ObjectLayout.Proofs.Subobject.Recording

/-! One base finds its place. The search for an offset comes to an end, because past everything that
is recorded nothing is refused; the base then lies at the start or past the data, and all that
changes besides the map is the size, the data and the alignment. -/
namespace ObjectLayout.Itanium

open LayoutM (ends_bind ends_lift_bind layoutOf)

variable {f : Frame} {s : Setting} {known : Known} {allowed : Fault → Prop}
variable {g : SubobjectGraph} {i : SubobjectId} {map map' : EmptyMap} {st st' : State} {x : Nat}
variable {type : Ty} {r m : RecordId}

section Powers

theorem clamp_pos {n : Nat} (h : 0 < n) : 0 < f.clamp n := by
  unfold Frame.clamp
  split
  · exact h
  · rename_i most
    exact Nat.lt_min.mpr ⟨h, Nat.pos_of_ne_zero most⟩

/-- The maximum for the alignment of fields is a power of two, if there is one. -/
def Frame.PacksToPowers (f : Frame) : Prop := Quantity.IsPowerOrZero f.maxFieldAlignment

theorem clamp_isPowerOfTwo (powers : f.PacksToPowers) {n : Nat}
    (h : Quantity.isPowerOfTwo n = true) : Quantity.isPowerOfTwo (f.clamp n) = true :=
  Quantity.isPowerOfTwo_min powers h

end Powers

/-- Only the alignments have changed, and they are still powers of two. -/
structure Aligned (st st' : State) : Prop where
  frame : st' = { st with
    alignment := st'.alignment, unpackedAlignment := st'.unpackedAlignment }
  power : Quantity.isPowerOfTwo st.alignment = true → Quantity.isPowerOfTwo st'.alignment = true

theorem raiseAlignment_ends {packed unpacked : Nat}
    (hp : Quantity.isPowerOfTwo packed = true ∨ allowed (.breach .alignmentNotPowerOfTwo))
    (hu : Quantity.isPowerOfTwo unpacked = true ∨ allowed (.breach .alignmentNotPowerOfTwo)) :
    Ends allowed (st.raiseAlignment f packed unpacked) (Aligned st) := by
  have done (n : Nat) (next : Checked State) (condition : Prop) [Decidable condition]
      (h : Quantity.isPowerOfTwo n = true ∨ allowed (.breach .alignmentNotPowerOfTwo))
      (rest : (condition → Quantity.isPowerOfTwo n = true) → Ends allowed next (Aligned st)) :
      Ends allowed (if condition then
        ensure (Quantity.isPowerOfTwo n) .alignmentNotPowerOfTwo >>= fun _ => next else next)
        (Aligned st) := by
    split
    · rename_i holds
      refine Ends.bind (ends_ensure (G := fun _ => Quantity.isPowerOfTwo n = true) id
        fun no => h.resolve_left (by simp [no])) fun _ power => rest fun _ => power
    · rename_i fails
      exact rest fun holds => absurd holds fails
  unfold State.raiseAlignment
  split
  · exact ⟨rfl, id⟩
  · refine done packed _ _ hp fun power => done unpacked _ _ hu fun _ => ⟨rfl, fun before => ?_⟩
    exact Quantity.isPowerOfTwo_max before power

section Place

/-- A state after something was placed in its map of empty subobjects, if it has one. -/
structure Mapped (known : Known) (place? : EmptyMap → LayoutM (Option EmptyMap)) (st st' : State) :
    Prop where
  frame : st' = { st with emptyMap := st'.emptyMap }
  unmapped : st.emptyMap = none → st'.emptyMap = none
  mapped : ∀ map, st.emptyMap = some map → ∃ map', st'.emptyMap = some map' ∧
    (place? map).eval known = .ok (some map')

/-- The map of a state has everything it recorded below its highest offset. -/
def State.MapBounded (st : State) : Prop := ∀ map, st.emptyMap = some map → map.Bounded

/-- What holds of the answers of a map holds of a state with the map. -/
theorem placeIn_ends {place? : EmptyMap → LayoutM (Option EmptyMap)} {question : Placement}
    (each : ∀ map, st.emptyMap = some map → Ends allowed ((place? map).eval known) fun _ => True) :
    Ends allowed ((match st.emptyMap with
      | none => return some st
      | some map => do
        let placed ← place? map
        LayoutM.answered question placed.isSome
        return placed.map fun map => { st with emptyMap := some map } : LayoutM (Option State)).eval
          known) fun
      | none => ∃ map, st.emptyMap = some map ∧ (place? map).eval known = .ok none
      | some st' => Mapped known place? st st' := by
  cases here : st.emptyMap with
  | none =>
    refine ⟨rfl, fun _ => here, fun map same => ?_⟩
    rw [here] at same
    cases same
  | some map =>
    refine ends_bind (each map here).remember ?_
    rintro (_ | map') ⟨answer, -⟩
    · exact ⟨map, rfl, answer⟩
    · refine ⟨rfl, fun none => ?_, fun map₀ same => ?_⟩
      · rw [here] at none
        cases none
      · rw [here] at same
        cases same
        exact ⟨map', rfl, answer⟩

theorem State.placeBase?_ends (knows : f.setting.Knows known) (overflow : allowed .overflow)
    (bounded : st.MapBounded) (h : BaseExplorable f.setting known st.graph i) (x : Nat) :
    Ends allowed ((st.placeBase? f i x).eval known) fun
      | none => ∃ map, st.emptyMap = some map ∧
          (map.placeBase? f.setting st.graph i x).eval known = .ok none
      | some st' => Mapped known (·.placeBase? f.setting st.graph i x) st st' :=
  placeIn_ends fun map here =>
    (ObjectLayout.placeBase?_ends knows (bounded map here) (.inl overflow) h (.inl overflow)).imp
      fun _ _ => trivial

/-- Nothing is refused past everything that is recorded. -/
theorem le_highest_of_refused (knows : s.Knows known) (overflow : allowed .overflow)
    (bounded : map.Bounded) (h : BaseExplorable s known g i)
    (refused : (map.placeBase? s g i x).eval known = .ok none) : x ≤ map.highest := by
  have taken :=
    (ObjectLayout.placeBase?_ends knows bounded (.inl overflow) h (.inl overflow)).value refused
  by_contra past
  exact taken (bounded.free (Nat.lt_of_not_le past))

end Place

section Probe

/-- The search ends at the first offset that is not refused, where nothing past a bound is. -/
theorem probe_ends {place? : Nat → LayoutM (Option State)} {step : Nat} (bound : Nat)
    {G : Nat → Option State → Prop} (overflow : allowed .overflow)
    (each : ∀ y, Ends allowed ((place? y).eval known) (G y))
    (refused : ∀ y, (place? y).eval known = .ok none → y ≤ bound)
    (attempts start : Nat) (enough : bound < start + attempts * step) :
    Ends allowed ((probe place? step (attempts + 1) start).eval known) fun found =>
      G found.2 (some found.1) ∧ start ≤ found.2 ∧
        ∀ y, start ≤ y → y < found.2 → step ∣ y - start → (place? y).eval known = .ok none := by
  induction attempts generalizing start with
  | zero =>
    unfold probe
    refine ends_bind (each start).remember ?_
    rintro (_ | found) ⟨answer, good⟩
    · have := refused start answer
      omega
    · exact ⟨good, le_rfl, fun y low high => absurd high (by omega)⟩
  | succ attempts ih =>
    unfold probe
    refine ends_bind (each start).remember ?_
    rintro (_ | found) ⟨answer, good⟩
    · refine ends_lift_bind (G := (· = start + step)) ?_ ?_
      · unfold Quantity.add Quantity.fit
        split
        · rfl
        · exact overflow
      · rintro _ rfl
        rw [Nat.succ_mul] at enough
        refine (ih (start + step) (by omega)).imp ?_
        rintro ⟨st, y⟩ ⟨good, le, before⟩
        refine ⟨good, by omega, fun z low high multiple => ?_⟩
        dsimp only at high le before
        by_cases first : z = start
        · exact first ▸ answer
        · obtain ⟨k, far⟩ := multiple
          obtain _ | k := k
          · omega
          · rw [Nat.mul_succ] at far
            exact before z (by omega) high ⟨k, by omega⟩
    · exact ⟨good, le_rfl, fun y low high => absurd high (by omega)⟩

/-- A completed search ends where it was told to start or later. -/
theorem probe_ok {place? : Nat → LayoutM (Option α)} {step : Nat} (attempts : Nat) {start : Nat}
    {found : α × Nat} (done : (probe place? step attempts start).eval known = .ok found) :
    (place? found.2).eval known = .ok (some found.1) ∧ start ≤ found.2 := by
  induction attempts generalizing start with
  | zero => cases done
  | succ attempts ih =>
    unfold probe at done
    obtain ⟨answer, asked, done⟩ := LayoutM.eval_bind_eq_ok.mp done
    cases answer with
    | some placed =>
      cases done
      exact ⟨asked, le_rfl⟩
    | none =>
      obtain ⟨next, sum, done⟩ := LayoutM.eval_bind_eq_ok.mp done
      rw [LayoutM.eval_lift, Quantity.add_eq_ok_iff] at sum
      obtain ⟨placed, later⟩ := ih done
      exact ⟨placed, (Nat.le_add_right start step).trans (sum.1 ▸ later)⟩

theorem alignTo_ends {a b : Nat} (overflow : allowed .overflow) (positive : 0 < b) :
    Ends allowed (Quantity.alignTo a b) fun c => b ∣ c ∧ a ≤ c ∧ c = Quantity.roundUp a b := by
  unfold Quantity.alignTo Quantity.fit
  rw [if_neg (Nat.pos_iff_ne_zero.mp positive)]
  split
  · exact ⟨Quantity.dvd_roundUp a b, Quantity.le_roundUp positive, rfl⟩
  · exact overflow

/-- The number of attempts reaches past the highest offset of the map. -/
theorem attemptsFrom_enough (map : EmptyMap) (start : Nat) {step : Nat} (positive : 0 < step) :
    map.highest < start + ((map.highest - start) / step + 1) * step := by
  have whole := Nat.div_add_mod (map.highest - start) step
  have small := Nat.mod_lt (map.highest - start) positive
  rw [Nat.succ_mul]
  have swap := Nat.mul_comm step ((map.highest - start) / step)
  lia

end Probe

/-- A state after a base subobject got its place at `x`. -/
structure BasePlaced (f : Frame) (known : Known) (i : SubobjectId) (x : Nat) (st st' : State) :
    Prop where
  frame : st' = { st with
    size := st'.size, dataSize := st'.dataSize, emptyMap := st'.emptyMap
    alignment := st'.alignment, unpackedAlignment := st'.unpackedAlignment }
  notUnion : f.isUnion = false
  isClass : (f.tree.record (st.graph.node i).record).isClass = true
  power : Quantity.isPowerOfTwo st.alignment = true → Quantity.isPowerOfTwo st'.alignment = true
  grows : st.size ≤ st'.size
  inside : 8 * (x + f.setting.span known (st.graph.node i).record) ≤ st'.size
  dataSize : st'.dataSize = if f.tree.isEmptyClass (st.graph.node i).record then st.dataSize
    else 8 * (x + known.nonVirtualSize (st.graph.node i).record)
  dataSize_le : st.dataSize ≤ st.size → st'.dataSize ≤ st'.size
  tight : 8 ∣ st.size →
    st'.size = max st.size (8 * (x + f.setting.span known (st.graph.node i).record))
  start : (f.tree.isEmptyClass (st.graph.node i).record = true ∧ x = 0) ∨ st.dataSize ≤ 8 * x
  placed : (st.emptyMap = none → st'.emptyMap = none) ∧
    ∀ map, st.emptyMap = some map → ∃ map', st'.emptyMap = some map' ∧
      (map.placeBase? f.setting st.graph i x).eval known = .ok (some map')
  leading : st.dataSize = 0 → (∀ map, st.emptyMap = some map →
    (map.placeBase? f.setting st.graph i 0).eval known ≠ .ok none) → x = 0

theorem toBits_ends {n : Nat} (overflow : allowed .overflow) :
    Ends allowed (Bytes.toBits n) (· = 8 * n) := by
  unfold Bytes.toBits Quantity.mul Quantity.fit
  split
  · exact Nat.mul_comm _ _
  · exact overflow

theorem add_ends {a b : Nat} (overflow : allowed .overflow) :
    Ends allowed (Quantity.add a b) (· = a + b) := by
  unfold Quantity.add Quantity.fit
  split
  · rfl
  · exact overflow

theorem le_toBytesCeil (n : Bits) : n ≤ 8 * Bits.toBytesCeil n := by
  unfold Bits.toBytesCeil Quantity.bitsPerByte
  lia

theorem toBytesCeil_bits (n : Bytes) : Bits.toBytesCeil (8 * n) = n := by
  unfold Bits.toBytesCeil Quantity.bitsPerByte
  lia

theorem toBytesCeil_le {n bound : Bits} (whole : 8 ∣ bound) (fits : n ≤ bound) :
    8 * Bits.toBytesCeil n ≤ bound := by
  unfold Bits.toBytesCeil Quantity.bitsPerByte
  lia

/-- What the layout of a base class says of its size and alignment. -/
theorem baseLayout_eq {layout : RecordLayout} (laid : known.record r = .ok layout)
    (part : layout.asClass.isSome) :
    layout.nonVirtualAlignment = .ok (known.nonVirtualAlignment r) ∧
      layout.nonVirtualSize = .ok (known.nonVirtualSize r) := by
  obtain ⟨part, here⟩ := Option.isSome_iff_exists.mp part
  simp only [RecordLayout.nonVirtualAlignment, RecordLayout.nonVirtualSize,
    RecordLayout.classLayout, here, Known.nonVirtualAlignment, Known.nonVirtualSize,
    Known.classLayout?_eq laid, Option.elim_some]
  exact ⟨rfl, rfl⟩

/-- A state with room made for a base of class `r` at `x`. -/
structure Occupied (f : Frame) (known : Known) (r : RecordId) (x : Nat) (st st' : State) : Prop where
  frame : st' = { st with size := st'.size, dataSize := st'.dataSize }
  grows : st.size ≤ st'.size
  inside : 8 * (x + f.setting.span known r) ≤ st'.size
  dataSize : st'.dataSize = if f.tree.isEmptyClass r then st.dataSize
    else 8 * (x + known.nonVirtualSize r)
  dataSize_le : st.dataSize ≤ st.size → st'.dataSize ≤ st'.size
  /-- Where there are whole bytes, no more room is made than the base asks for. -/
  tight : 8 ∣ st.size → st'.size = max st.size (8 * (x + f.setting.span known r))

theorem setSize_ends {n : Nat} (overflow : allowed .overflow) :
    Ends allowed (st.setSize n) fun st' => st' = { st with size := 8 * n } := by
  unfold State.setSize
  exact (toBits_ends overflow).bind fun _ same => by subst same; rfl

/-- An empty base may make the record larger, but takes up no data. -/
theorem setSize_occupied {layout : RecordLayout} (overflow : allowed .overflow)
    (laid : known.record r = .ok layout) (empty : f.tree.isEmptyClass r = true) :
    Ends allowed (st.setSize (max st.sizeInBytes (x + layout.size))) (Occupied f known r x st) := by
  refine (setSize_ends overflow).imp ?_
  rintro _ rfl
  have rounded := le_toBytesCeil st.size
  have span : f.setting.span known r = layout.size := (if_pos empty).trans (Known.size_eq laid)
  refine ⟨rfl, ?_, ?_, by rw [if_pos empty], fun before => ?_, fun whole => ?_⟩
  · simp only [State.sizeInBytes]
    lia
  · simp only [State.sizeInBytes, span]
    lia
  · simp only [State.sizeInBytes]
    lia
  · have within := toBytesCeil_le whole le_rfl
    rw [span]
    simp only [State.sizeInBytes]
    lia

theorem occupyBase_ends {layout : RecordLayout} (overflow : allowed .overflow)
    (laid : known.record r = .ok layout) (part : layout.asClass.isSome) :
    Ends allowed (occupyBase st (f.tree.isEmptyClass r) layout x) (Occupied f known r x st) := by
  unfold occupyBase
  cases empty : f.tree.isEmptyClass r with
  | true =>
    refine (add_ends overflow).bind ?_
    rintro _ rfl
    exact setSize_occupied overflow laid empty
  | false =>
    rw [(baseLayout_eq laid part).2]
    refine (add_ends (b := known.nonVirtualSize r) overflow).bind ?_
    rintro _ rfl
    refine (toBits_ends overflow).bind ?_
    rintro _ rfl
    have span : f.setting.span known r = known.nonVirtualSize r := by
      unfold Setting.span
      rw [if_neg]
      exact fun yes => Bool.false_ne_true (empty.symm.trans yes)
    refine ⟨rfl, Nat.le_max_left _ _, ?_, by rw [empty]; rfl, fun _ => Nat.le_max_right _ _,
      fun _ => by rw [span]; rfl⟩
    rw [span]
    exact Nat.le_max_right _ _

/-- What has to hold for a base to find its place. -/
structure Placeable (f : Frame) (known : Known) (allowed : Fault → Prop) (g : SubobjectGraph)
    (i : SubobjectId) : Prop where
  unsupplied : f.supplied = none
  overflow : allowed .overflow
  union : f.isUnion = true → allowed (.breach .unionWithBases)
  powers : f.PacksToPowers ∨ allowed (.breach .alignmentNotPowerOfTwo)
  plain : (f.tree.record (g.node i).record).isClass = false →
    allowed (.breach .classLayoutOfPlainRecord)
  inside : BaseExplorable f.setting known g i

/-- The search for an offset ends past the data, and at the start if nothing stands in the way. -/
theorem findBaseOffset_ends (knows : f.setting.Knows known) (bounded : st.MapBounded)
    (h : Placeable f known allowed st.graph i) {alignment : Nat} (positive : 0 < alignment) :
    Ends allowed ((findBaseOffset f st i alignment).eval known) fun found =>
      Mapped known (·.placeBase? f.setting st.graph i found.2) st found.1 ∧
      st.dataSize ≤ 8 * found.2 ∧
      (st.dataSize = 0 → (∀ map, st.emptyMap = some map →
        (map.placeBase? f.setting st.graph i 0).eval known ≠ .ok none) → found.2 = 0) := by
  unfold findBaseOffset
  refine ends_lift_bind (alignTo_ends h.overflow positive) fun start aligned => ?_
  obtain ⟨_, past, same⟩ := aligned
  have rounded := le_toBytesCeil st.dataSize
  refine (probe_ends (st.emptyMap.getD {}).highest h.overflow
    (State.placeBase?_ends knows h.overflow bounded h.inside) (fun y refused => ?_) _ start
    (attemptsFrom_enough _ start positive)).imp ?_
  · have answer := (State.placeBase?_ends knows h.overflow bounded h.inside y).value refused
    obtain ⟨map, here, refused⟩ := answer
    rw [here]
    exact le_highest_of_refused knows h.overflow (bounded map here) h.inside refused
  · rintro ⟨st', x⟩ ⟨mapped, le, before⟩
    refine ⟨mapped, ?_, fun first free => ?_⟩
    · dsimp only [State.dataSizeInBytes] at past le ⊢
      lia
    · have zero : start = 0 := by
        rw [same, State.dataSizeInBytes, first]
        have none : Bits.toBytesCeil 0 = 0 := rfl
        rw [none, Quantity.roundUp, Nat.zero_add, Nat.div_eq_of_lt (by omega), Nat.zero_mul]
      by_contra later
      have later : 0 < x := Nat.pos_of_ne_zero later
      have refused := before 0 (by omega) later ⟨0, by omega⟩
      have answer := (State.placeBase?_ends knows h.overflow bounded h.inside 0).value refused
      obtain ⟨map, here, refused⟩ := answer
      exact free map here refused

/-- A place in the map, room in the record and a higher alignment are all that a base asks for. -/
theorem BasePlaced.of_parts {st₁ st₂ : State} (notUnion : f.isUnion = false)
    (isClass : (f.tree.record (st.graph.node i).record).isClass = true)
    (mapped : Mapped known (·.placeBase? f.setting st.graph i x) st st₁)
    (occupied : Occupied f known (st.graph.node i).record x st₁ st₂) (aligned : Aligned st₂ st')
    (start : (f.tree.isEmptyClass (st.graph.node i).record = true ∧ x = 0) ∨ st.dataSize ≤ 8 * x)
    (leading : st.dataSize = 0 → (∀ map, st.emptyMap = some map →
      (map.placeBase? f.setting st.graph i 0).eval known ≠ .ok none) → x = 0) :
    BasePlaced f known i x st st' := by
  have size₁ : st₁.size = st.size := by rw [mapped.frame]
  have dataSize₁ : st₁.dataSize = st.dataSize := by rw [mapped.frame]
  have alignment₂ : st₂.alignment = st.alignment := by rw [occupied.frame, mapped.frame]
  have emptyMap' : st'.emptyMap = st₁.emptyMap := by rw [aligned.frame, occupied.frame]
  have size' : st'.size = st₂.size := by rw [aligned.frame]
  have dataSize' : st'.dataSize = st₂.dataSize := by rw [aligned.frame]
  constructor
  case frame => rw [aligned.frame, occupied.frame, mapped.frame]
  case notUnion => exact notUnion
  case isClass => exact isClass
  case power => rw [← alignment₂]; exact aligned.power
  case grows => rw [size', ← size₁]; exact occupied.grows
  case inside => rw [size']; exact occupied.inside
  case dataSize => rw [dataSize', occupied.dataSize, dataSize₁]
  case dataSize_le =>
    rw [size', dataSize', ← size₁, ← dataSize₁]
    exact occupied.dataSize_le
  case tight => rw [size', ← size₁]; exact occupied.tight
  case start => exact start
  case placed =>
    rw [emptyMap']
    exact ⟨mapped.unmapped, mapped.mapped⟩
  case leading => exact leading

theorem layBase_ends (knows : f.setting.Knows known) (bounded : st.MapBounded)
    (h : Placeable f known allowed st.graph i) :
    Ends allowed ((layBase f i st).eval known) fun result =>
      BasePlaced f known i result.2 st result.1 := by
  unfold layBase
  refine ends_bind (G := fun _ => f.isUnion = false) ?_ fun _ notUnion => ?_
  · rw [LayoutM.eval_ensure]
    exact ends_ensure (fun no => by simpa using no) fun yes => h.union (by simpa using yes)
  have sound := (h.inside.below i .refl).sound
  obtain ⟨layout, laid, asClass, _⟩ := sound.laid
  rw [LayoutM.eval_layoutOf_bind laid]
  have unsupplied : suppliedBaseOffset? f (st.graph.node i) = none := by
    simp [suppliedBaseOffset?, h.unsupplied]
  simp only [unsupplied, Option.all_none, Bool.and_true]
  cases isClass : (f.tree.record (st.graph.node i).record).isClass with
  | false =>
    have none : layout.asClass = none := by
      change layout.asClass.isSome = (f.tree.record (st.graph.node i).record).isClass at asClass
      rw [isClass] at asClass
      simpa using asClass
    have fails : layout.nonVirtualAlignment = .error (.breach .classLayoutOfPlainRecord) := by
      simp only [RecordLayout.nonVirtualAlignment, RecordLayout.classLayout, none]
      rfl
    rw [LayoutM.eval_bind, LayoutM.eval_lift, fails]
    exact h.plain isClass
  | true =>
  have part : layout.asClass.isSome := asClass.trans isClass
  rw [LayoutM.eval_lift_bind (baseLayout_eq laid part).1]
  have unpacked := sound.aligned isClass
  have packed : Quantity.isPowerOfTwo (if f.isPacked then 1
      else known.nonVirtualAlignment (st.graph.node i).record) = true := by
    split
    · decide
    · exact unpacked
  generalize (if f.isPacked then 1
    else known.nonVirtualAlignment (st.graph.node i).record) = alignment at packed ⊢
  have clamped {n : Nat} (power : Quantity.isPowerOfTwo n = true) :=
    h.powers.imp_left fun powers => clamp_isPowerOfTwo powers power
  -- The search past the data, which an empty base takes to as well if the start is refused.
  have search (refused : f.tree.isEmptyClass (st.graph.node i).record = true →
      ∃ map, st.emptyMap = some map ∧
        (map.placeBase? f.setting st.graph i 0).eval known = .ok none) :
      Ends allowed ((do
        let found ← findBaseOffset f st i (f.clamp alignment)
        let st' ← occupyBase found.1 (f.tree.isEmptyClass (st.graph.node i).record) layout found.2
        return (← st'.raiseAlignment f (f.clamp alignment)
          (f.clamp (known.nonVirtualAlignment (st.graph.node i).record)), found.2)
            : LayoutM (State × Bytes)).eval known) fun result =>
        BasePlaced f known i result.2 st result.1 := by
    refine ends_bind (findBaseOffset_ends knows bounded h (clamp_pos (Quantity.pos_of_isPowerOfTwo packed))) ?_
    rintro ⟨st₁, x⟩ ⟨mapped, start, leading⟩
    refine ends_lift_bind (occupyBase_ends (f := f) h.overflow laid part) fun st₂ occupied => ?_
    refine ends_lift_bind (raiseAlignment_ends (clamped packed) (clamped unpacked)) fun st₃ aligned => ?_
    exact .of_parts notUnion isClass mapped occupied aligned (.inr start) leading
  cases empty : f.tree.isEmptyClass (st.graph.node i).record with
  | false =>
    rw [empty] at search
    exact search (by simp)
  | true =>
    rw [if_pos rfl]
    refine ends_bind (State.placeBase?_ends knows h.overflow bounded h.inside 0) ?_
    rintro (_ | st₁) mapped
    · rw [empty] at search
      exact search fun _ => mapped
    · have occupied : Ends allowed (st₁.setSize (max st₁.sizeInBytes layout.size))
          (Occupied f known (st.graph.node i).record 0 st₁) := by
        have start : Ends allowed (st₁.setSize (max st₁.sizeInBytes (0 + layout.size)))
            (Occupied f known (st.graph.node i).record 0 st₁) :=
          setSize_occupied h.overflow laid empty
        rwa [Nat.zero_add] at start
      refine ends_lift_bind occupied fun st₂ occupied => ?_
      refine ends_lift_bind (raiseAlignment_ends (.inl packed) (.inl unpacked)) fun st₃ aligned => ?_
      exact .of_parts notUnion isClass mapped occupied aligned (.inl ⟨empty, rfl⟩) fun _ _ => rfl

end ObjectLayout.Itanium
