import ObjectLayout.Microsoft.Layout
import ObjectLayout.Proofs.Microsoft.Fields
import ObjectLayout.Proofs.OrderedMap

/-! Pointers that are pushed into a class after everything else has been placed. Bases with data end
where the vbptr goes in, so that what moves past it are the fields and bases that take no bits. -/
namespace ObjectLayout

namespace Microsoft

open LayoutM (ends_bind ends_lift_bind)

variable {f : Frame} {known : Known} {st st' : State} {site : Nat} {lower upper : List Slot}

/-- The slots of what a class holds by its state: its own pointers, its bases and its fields. -/
inductive Placed (f : Frame) (known : Known) (st : State) : Slot → Prop
  | vfptr (own : st.hasOwnVfptr = true) : Placed f known st (.ofBytes .vfptr 0 f.pointerSize)
  | vbptr (own : st.needsOwnVbptr = true) :
      Placed f known st (.ofBytes .vbptr st.vbptrOffset f.pointerSize)
  | base {r : RecordId} {layout : RecordLayout} {offset : Nat} (laid : known.record r = .ok layout)
      (at' : st.baseOffsets.find? r = some offset) :
      Placed f known st (.ofBytes (.base r) offset layout.dataSize)
  | field {index offset : Nat} {field : Field} (declared : f.declaration.fields[index]? = some field)
      (at' : st.fieldOffsets[index]? = some offset) :
      Placed f known st ⟨.field index, offset, offset + fieldBits known field⟩

/-- Whatever is placed ends before `stop`, also what takes no bits. -/
def EndsBy (f : Frame) (known : Known) (st : State) (stop : Nat) : Prop :=
  ∀ slot, Placed f known st slot → slot.stop ≤ 8 * stop

/-- Different parts share no bit. -/
def Spread (f : Frame) (known : Known) (st : State) : Prop :=
  ∀ slot slot', Placed f known st slot → Placed f known st slot' → slot.part ≠ slot'.part →
    Disjoint slot.bits slot'.bits

/-- All that decides what is placed where. -/
def State.places (st : State) :=
  (st.hasOwnVfptr, st.needsOwnVbptr, st.vbptrOffset, st.fieldOffsets, st.baseOffsets)

theorem Placed.congr {slot : Slot} (h : Placed f known st slot) (same : st'.places = st.places) :
    Placed f known st' slot := by
  simp only [State.places, Prod.mk.injEq] at same
  obtain ⟨hasOwnVfptr, needsOwnVbptr, vbptrOffset, fieldOffsets, baseOffsets⟩ := same
  cases h with
  | vfptr own => exact .vfptr (hasOwnVfptr.trans own)
  | vbptr own => exact vbptrOffset ▸ .vbptr (needsOwnVbptr.trans own)
  | base laid at' => exact .base laid (baseOffsets ▸ at')
  | field declared at' => exact .field declared (fieldOffsets ▸ at')

/-- Everything but the virtual bases is placed, the fields past `site` and the rest before it. -/
structure Arranged (f : Frame) (known : Known) (st : State) (site : Nat) (lower upper : List Slot) :
    Prop where
  below : Chain 0 lower (8 * site)
  above : Chain (8 * site) upper (8 * st.size)
  base : ∀ {r layout} {offset : Nat}, known.record r = .ok layout →
    st.baseOffsets.find? r = some offset →
    layout.dataSize = 0 ∨ Slot.ofBytes (.base r) offset layout.dataSize ∈ lower
  field : ∀ {index field offset}, f.declaration.fields[index]? = some field →
    st.fieldOffsets[index]? = some offset →
    ⟨.field index, offset, offset + fieldBits known field⟩ ∈ upper

/-- No base or field lies past the end, not even a base without data. -/
structure Reaches (f : Frame) (known : Known) (st : State) : Prop where
  base : ∀ {r layout} {offset : Nat}, known.record r = .ok layout →
    st.baseOffsets.find? r = some offset → offset + layout.dataSize ≤ st.size
  field : ∀ {index offset : Nat} {field}, f.declaration.fields[index]? = some field →
    st.fieldOffsets[index]? = some offset → offset + fieldBits known field ≤ 8 * st.size

theorem Reaches.endsBy (h : Reaches f known st)
    (vbptr : st.needsOwnVbptr = true → st.vbptrOffset + f.pointerSize ≤ st.size)
    (vfptr : st.hasOwnVfptr = true → f.pointerSize ≤ st.size) : EndsBy f known st st.size := by
  rintro _ (own | own | ⟨laid, at'⟩ | ⟨declared, at'⟩)
  · refine Nat.mul_le_mul_left 8 ?_
    rw [Nat.zero_add]
    exact vfptr own
  · exact Nat.mul_le_mul_left 8 (vbptr own)
  · exact Nat.mul_le_mul_left 8 (h.base laid at')
  · exact h.field declared at'

/-- Everything but the pointers after a shift. -/
def State.shifted (st : State) (distance : Nat) (moves : Nat → Bool) : State :=
  { st with
    size := st.size + distance
    fieldOffsets := st.fieldOffsets.map (· + 8 * distance)
    baseOffsets := st.baseOffsets.mapValues fun offset =>
      if moves offset then offset + distance else offset }

theorem shift_ends (st : State) (distance : Nat) (moves : Nat → Bool) :
    Ends (fun _ => True) (st.shift distance moves) (· = st.shifted distance moves) := by
  unfold State.shift
  refine Ends.bind Ends.any fun size sum => ?_
  refine Ends.bind Ends.any fun fieldOffsets moved => ?_
  refine Ends.bind Ends.any fun baseOffsets movedBases => ?_
  obtain ⟨rfl, _⟩ := Quantity.add_eq_ok_iff.mp sum
  have fields : fieldOffsets = st.fieldOffsets.map (· + 8 * distance) := by
    refine mapM_eq_ok (fun offset result step => ?_) moved
    obtain ⟨bits, whole, step⟩ := except_bind_eq_ok.mp step
    obtain ⟨rfl, _⟩ := Quantity.mul_eq_ok_iff.mp whole
    rw [(Quantity.add_eq_ok_iff.mp step).1, Nat.mul_comm]
    rfl
  have bases : baseOffsets = st.baseOffsets.mapValues fun offset =>
      if moves offset then offset + distance else offset := by
    refine OrderedMap.mapValuesM_eq_ok (fun offset result step => ?_) movedBases
    split at step
    · rename_i moves
      rw [if_pos moves, (Quantity.add_eq_ok_iff.mp step).1]
    · rename_i stays
      rw [if_neg stays, Except.ok.inj step]
  rw [fields, bases]
  rfl

/-- Where a vbptr of the class's own goes, and how far everything past the bases moves for it. -/
theorem injectVbptr_eq (st : State) : Ends (fun _ => True) (injectVbptr f st) fun st' =>
    (st.needsOwnVbptr = false ∧ st' = st) ∨
    ∃ start distance : Nat, st.needsOwnVbptr = true ∧
      (f.pointerAlignment ≠ 0 ∧ start = Quantity.roundUp st.vbptrOffset f.pointerAlignment) ∧
      (st.alignment ≠ 0 ∧
        distance = Quantity.roundUp (start + f.pointerSize - st.vbptrOffset) st.alignment) ∧
      st' = { st.shifted distance fun offset => decide (st.vbptrOffset ≤ offset) with
        vbptrOffset := start, hasZeroSizedSubobject := false } := by
  unfold injectVbptr
  split
  case isTrue shared => exact .inl ⟨by simpa using shared, rfl⟩
  case isFalse own =>
    refine Ends.bind Ends.any fun start aligned => ?_
    refine Ends.bind Ends.any fun fieldStart sum => ?_
    refine Ends.bind Ends.any fun room taken => ?_
    refine Ends.bind Ends.any fun distance rounded => ?_
    refine Ends.bind (shift_ends st distance _) fun st₁ shifted => ?_
    obtain ⟨positive, rfl, _⟩ := Quantity.alignTo_eq_ok_iff.mp aligned
    obtain ⟨rfl, _⟩ := Quantity.add_eq_ok_iff.mp sum
    obtain ⟨_, rfl⟩ := Quantity.sub_eq_ok_iff.mp taken
    obtain ⟨positive', rfl, _⟩ := Quantity.alignTo_eq_ok_iff.mp rounded
    subst shifted
    exact .inr ⟨_, _, by simpa using own, ⟨positive, rfl⟩, ⟨positive', rfl⟩, rfl⟩

/-- A vbptr of the class's own fits between where the bases end and where everything past them is
shifted to. -/
theorem injectVbptr_ends (st : State) : Ends (fun _ => True) (injectVbptr f st) fun st' =>
    (st.needsOwnVbptr = false ∧ st' = st) ∨
    ∃ start distance : Nat, st.needsOwnVbptr = true ∧ st.vbptrOffset ≤ start ∧
      start + f.pointerSize ≤ st.vbptrOffset + distance ∧
      st' = { st.shifted distance fun offset => decide (st.vbptrOffset ≤ offset) with
        vbptrOffset := start, hasZeroSizedSubobject := false } := by
  refine (injectVbptr_eq st).imp ?_
  rintro st' (⟨without, rfl⟩ | ⟨start, distance, own, ⟨positive, rounded⟩, ⟨positive', far⟩, rfl⟩)
  · exact .inl ⟨without, rfl⟩
  have past := Quantity.le_roundUp (a := st.vbptrOffset) (Nat.pos_of_ne_zero positive)
  have enough := Quantity.le_roundUp (a := start + f.pointerSize - st.vbptrOffset)
    (Nat.pos_of_ne_zero positive')
  rw [← rounded] at past
  rw [← far] at enough
  exact .inr ⟨start, distance, own, past, Nat.sub_le_iff_le_add'.mp enough, rfl⟩

/-- A vfptr of the class's own moves everything by its size, rounded up, and the vbptr along. -/
theorem injectVfptr_eq (st : State) : Ends (fun _ => True) (injectVfptr f st) fun st' =>
    (st.hasOwnVfptr = false ∧ st' = st) ∨
    ∃ distance vbptrOffset : Nat, st.hasOwnVfptr = true ∧
      (st.alignment ≠ 0 ∧ distance = Quantity.roundUp f.pointerSize st.alignment) ∧
      (st.hasVbptr = true → vbptrOffset = st.vbptrOffset + distance) ∧
      st' = { st.shifted distance fun _ => true with vbptrOffset } := by
  unfold injectVfptr
  split
  case isTrue none => exact .inl ⟨by simpa using none, rfl⟩
  case isFalse own =>
    refine Ends.bind Ends.any fun distance rounded => ?_
    obtain ⟨positive, rfl, _⟩ := Quantity.alignTo_eq_ok_iff.mp rounded
    have own : st.hasOwnVfptr = true := by simpa using own
    dsimp only
    split
    case isTrue has =>
      refine Ends.bind Ends.any fun vbptrOffset sum => ?_
      refine Ends.bind (shift_ends st _ _) fun st₁ shifted => ?_
      subst shifted
      exact .inr ⟨_, _, own, ⟨positive, rfl⟩, fun _ => (Quantity.add_eq_ok_iff.mp sum).1, rfl⟩
    case isFalse none =>
      refine Ends.bind Ends.any fun vbptrOffset same => ?_
      refine Ends.bind (shift_ends st _ _) fun st₁ shifted => ?_
      subst shifted
      exact .inr ⟨_, _, own, ⟨positive, rfl⟩, fun has => absurd has none, rfl⟩

/-- A vfptr of the class's own fits before everything else, and the vbptr moves along. -/
theorem injectVfptr_ends (st : State) : Ends (fun _ => True) (injectVfptr f st) fun st' =>
    (st.hasOwnVfptr = false ∧ st' = st) ∨
    ∃ distance vbptrOffset : Nat, st.hasOwnVfptr = true ∧ f.pointerSize ≤ distance ∧
      (st.hasVbptr = true → vbptrOffset = st.vbptrOffset + distance) ∧
      st' = { st.shifted distance fun _ => true with vbptrOffset } := by
  refine (injectVfptr_eq st).imp ?_
  rintro st' (⟨without, rfl⟩ | ⟨distance, vbptrOffset, own, ⟨positive, rounded⟩, along, rfl⟩)
  · exact .inl ⟨without, rfl⟩
  have enough := Quantity.le_roundUp (a := f.pointerSize) (Nat.pos_of_ne_zero positive)
  rw [← rounded] at enough
  exact .inr ⟨distance, vbptrOffset, own, enough, along, rfl⟩

/-- Everything past the site is shifted by a distance, with something new between it and the rest. -/
theorem Arranged.shifted {distance : Nat} {lower' : List Slot}
    (h : Arranged f known st site lower upper) (moves : Nat → Bool)
    (chain : Chain 0 lower' (8 * (site + distance)))
    (kept : ∀ {r layout offset}, known.record r = .ok layout →
      st.baseOffsets.find? r = some offset → layout.dataSize ≠ 0 →
      Slot.ofBytes (.base r) (if moves offset then offset + distance else offset) layout.dataSize
        ∈ lower') :
    Arranged f known (st.shifted distance moves) (site + distance) lower'
      (upper.map (·.shift (8 * distance))) := by
  constructor
  case below => exact chain
  case above =>
    have := h.above.shift (8 * distance)
    rwa [← Nat.mul_add, ← Nat.mul_add] at this
  case base =>
    intro r layout offset laid found
    rw [State.shifted, OrderedMap.find?_mapValues, Option.map_eq_some_iff] at found
    obtain ⟨before, found, rfl⟩ := found
    by_cases empty : layout.dataSize = 0
    · exact .inl empty
    · exact .inr (kept laid found empty)
  case field =>
    intro index field offset here found
    rw [State.shifted, List.getElem?_map, Option.map_eq_some_iff] at found
    obtain ⟨before, found, rfl⟩ := found
    refine List.mem_map.mpr ⟨_, h.field here found, ?_⟩
    simp only [Slot.shift, Slot.mk.injEq, true_and]
    omega

theorem Reaches.shifted (h : Reaches f known st) (distance : Nat) (moves : Nat → Bool) :
    Reaches f known (st.shifted distance moves) := by
  constructor
  case base =>
    intro r layout offset laid found
    rw [State.shifted, OrderedMap.find?_mapValues, Option.map_eq_some_iff] at found
    obtain ⟨before, found, rfl⟩ := found
    have moved (start data stop : Nat) (inside : start + data ≤ stop) :
        (if moves start then start + distance else start) + data ≤ stop + distance := by
      split <;> omega
    exact moved _ _ _ (h.base laid found)
  case field =>
    intro index offset field declared found
    rw [State.shifted, List.getElem?_map, Option.map_eq_some_iff] at found
    obtain ⟨before, found, rfl⟩ := found
    have inside := h.field declared found
    dsimp only [State.shifted]
    omega

theorem Arranged.congr {st' : State} (h : Arranged f known st site lower upper)
    (size : st'.size = st.size) (fieldOffsets : st'.fieldOffsets = st.fieldOffsets)
    (baseOffsets : st'.baseOffsets = st.baseOffsets) :
    Arranged f known st' site lower upper := by
  refine ⟨h.below, size ▸ h.above, ?_, ?_⟩
  · rw [baseOffsets]
    exact h.base
  · rw [fieldOffsets]
    exact h.field

/-- The pointers of a class have their slots. -/
structure Pointed (f : Frame) (st : State) (lower : List Slot) : Prop where
  vbptr : st.needsOwnVbptr = true → Slot.ofBytes .vbptr st.vbptrOffset f.pointerSize ∈ lower
  vfptr : st.hasOwnVfptr = true → Slot.ofBytes .vfptr 0 f.pointerSize ∈ lower

/-- What is placed is in one of the two chains, or else it is a base without data. -/
theorem Arranged.spread (h : Arranged f known st site lower upper) (pointed : Pointed f st lower) :
    Spread f known st := by
  have chain := h.below.append h.above
  have listed {slot : Slot} (placed : Placed f known st slot) :
      slot.bits = ∅ ∨ slot ∈ lower ++ upper := by
    cases placed with
    | vfptr own => exact .inr (List.mem_append_left _ (pointed.vfptr own))
    | vbptr own => exact .inr (List.mem_append_left _ (pointed.vbptr own))
    | base laid at' =>
      refine (h.base laid at').imp (fun empty => ?_) (List.mem_append_left _)
      simp [Slot.bits, Slot.ofBytes, empty]
    | field declared at' => exact .inr (List.mem_append_right _ (h.field declared at'))
  intro slot slot' placed placed' differ
  rcases listed placed with empty | member
  · simp [empty]
  rcases listed placed' with empty | member'
  · simp [empty]
  exact chain.disjoint member member' differ

/-- Of the bases that move for the vbptr, none has data. -/
theorem Arranged.injectVbptr (h : Arranged f known st site lower upper)
    (atEnd : st.vbptrBase = none → st.vbptrOffset = site) :
    Ends (fun _ => True) (injectVbptr f st) fun st' =>
      ∃ site' lower' upper', Arranged f known st' site' lower' upper' ∧
        (st'.needsOwnVbptr = true →
          Slot.ofBytes .vbptr st'.vbptrOffset f.pointerSize ∈ lower') := by
  refine (injectVbptr_ends st).imp ?_
  rintro st' (⟨without, rfl⟩ | ⟨start, distance, own, past, room, rfl⟩)
  · exact ⟨site, lower, upper, h, fun own => by simp [without] at own⟩
  have alone : st.vbptrBase = none := by
    simp only [State.needsOwnVbptr, Bool.and_eq_true, Option.isNone_iff_eq_none] at own
    exact own.2
  rw [atEnd alone] at past room ⊢
  have past : site ≤ start := past
  have room : start + f.pointerSize ≤ site + distance := room
  refine ⟨site + distance, lower ++ [.ofBytes .vbptr start f.pointerSize], _,
    (h.shifted (fun offset => decide (site ≤ offset)) ?_ ?_).congr rfl rfl rfl,
    fun _ => by simp⟩
  case refine_1 =>
    refine h.below.append (.single ?_ ?_ ?_) <;> dsimp only [Slot.ofBytes] <;> omega
  case refine_2 =>
    intro r layout offset laid found data
    have placed := (h.base laid found).resolve_left data
    have inside := (h.below.inside _ placed).2.2
    have stays : ¬ site ≤ offset := by
      intro past
      have := Nat.le_of_mul_le_mul_left inside (by decide)
      have := Nat.pos_of_ne_zero data
      omega
    simp only [decide_eq_true_eq, if_neg stays]
    exact List.mem_append_left _ placed

theorem Arranged.injectVfptr (h : Arranged f known st site lower upper)
    (vbptr : st.needsOwnVbptr = true → Slot.ofBytes .vbptr st.vbptrOffset f.pointerSize ∈ lower) :
    Ends (fun _ => True) (injectVfptr f st) fun st' =>
      ∃ site' lower' upper', Arranged f known st' site' lower' upper' ∧ Pointed f st' lower' := by
  refine (injectVfptr_ends st).imp ?_
  rintro st' (⟨without, rfl⟩ | ⟨distance, vbptrOffset, own, room, along, rfl⟩)
  · exact ⟨site, lower, upper, h, vbptr, fun own => by simp [without] at own⟩
  have moved {part : Part} {offset size : Nat} (member : Slot.ofBytes part offset size ∈ lower) :
      Slot.ofBytes part (offset + distance) size ∈ lower.map (·.shift (8 * distance)) :=
    List.mem_map.mpr ⟨_, member, Slot.shift_ofBytes _ _ _ _⟩
  refine ⟨site + distance, .ofBytes .vfptr 0 f.pointerSize :: lower.map (·.shift (8 * distance)), _,
    (h.shifted (fun _ => true) ?_ ?_).congr rfl rfl rfl, ?_, fun _ => List.mem_cons_self⟩
  case refine_1 =>
    have rest := h.below.shift (8 * distance)
    rw [← Nat.mul_add] at rest
    have room : (0 : Nat) + f.pointerSize ≤ distance := by rwa [Nat.zero_add]
    refine .cons ?_ ?_ (rest.lower ?_) <;> dsimp only [Slot.ofBytes] <;> omega
  case refine_2 =>
    intro r layout offset laid found data
    exact .tail _ (moved ((h.base laid found).resolve_left data))
  case refine_3 =>
    intro needs
    have needs : st.needsOwnVbptr = true := needs
    have has := needs
    simp only [State.needsOwnVbptr, Bool.and_eq_true] at has
    rw [along has.1]
    exact .tail _ (moved (vbptr needs))

/-- The class is laid out again, with its pointers leading. -/
def State.isRelaid (f : Frame) (st : State) : Bool :=
  (st.hasOwnVfptr || st.needsOwnVbptr) && f.is64Bit && decide (st.requiredAlignment > 8)

/-- Pointers are not needed, lead in a new layout, or are pushed into the one that there is. -/
theorem layPointers_cases {good : State → Prop}
    (none : st.hasOwnVfptr = false → st.needsOwnVbptr = false → good st)
    (again : st.isRelaid f = true →
      Ends (fun _ => True) ((layWithLeadingPointers f st).eval known) good)
    (pushed : st.isRelaid f = false → Ends (fun _ => True)
      (do injectVfptr f (← injectVbptr f st) : Checked State) fun st' =>
        good { st' with alignment := max st'.alignment f.pointerAlignment }) :
    Ends (fun _ => True) ((layPointers f st).eval known) good := by
  unfold layPointers
  split
  case isTrue without =>
    simp only [Bool.not_eq_true', Bool.or_eq_false_iff] at without
    exact none without.1 without.2
  case isFalse some =>
    have some : (st.hasOwnVfptr || st.needsOwnVbptr) = true := by
      simpa only [Bool.not_eq_true', Bool.not_eq_false] using some
    rw [State.isRelaid, some, Bool.true_and] at again pushed
    split
    case isTrue relaid =>
      exact again relaid
    case isFalse once =>
      have once := pushed (by simpa only [Bool.not_eq_true] using once)
      refine ends_lift_bind once.unbind fun st₁ once => ?_
      exact ends_lift_bind once fun st₂ good => good

/-- A class that is not laid out again has its pointers pushed in, if it has any. -/
theorem layPointers_once {good : State → Prop} (once : st.isRelaid f = false)
    (none : st.hasOwnVfptr = false → st.needsOwnVbptr = false → good st)
    (pushed : Ends (fun _ => True)
      (do injectVfptr f (← injectVbptr f st) : Checked State) fun st' =>
        good { st' with alignment := max st'.alignment f.pointerAlignment }) :
    Ends (fun _ => True) ((layPointers f st).eval known) good :=
  layPointers_cases none (fun again => by simp [once] at again) fun _ => pushed

theorem Arranged.layPointers (h : Arranged f known st site lower upper)
    (atEnd : st.vbptrBase = none → st.vbptrOffset = site) (once : st.isRelaid f = false) :
    Ends (fun _ => True) ((layPointers f st).eval known) fun st' =>
      ∃ site' lower' upper', Arranged f known st' site' lower' upper' ∧ Pointed f st' lower' := by
  apply layPointers_once once
  case none =>
    intro none none'
    refine ⟨site, lower, upper, h, fun own => ?_, fun own => ?_⟩
    · simp [none'] at own
    · simp [none] at own
  case pushed =>
    refine Ends.bind (h.injectVbptr atEnd) fun st₁ first => ?_
    obtain ⟨site₁, lower₁, upper₁, h₁, vbptr⟩ := first
    refine (h₁.injectVfptr vbptr).imp ?_
    rintro st₂ ⟨site₂, lower₂, upper₂, h₂, pointed⟩
    exact ⟨site₂, lower₂, upper₂, h₂.congr rfl rfl rfl, pointed.vbptr, pointed.vfptr⟩

theorem Reaches.injectVbptr (h : Reaches f known st)
    (room : st.vbptrBase = none → st.vbptrOffset ≤ st.size) :
    Ends (fun _ => True) (injectVbptr f st) fun st' => Reaches f known st' ∧
      (st'.needsOwnVbptr = true → st'.vbptrOffset + f.pointerSize ≤ st'.size) := by
  refine (injectVbptr_ends st).imp ?_
  rintro st' (⟨without, rfl⟩ | ⟨start, distance, own, past, inside, rfl⟩)
  · exact ⟨h, fun own => by simp [without] at own⟩
  have moved := h.shifted distance fun offset => decide (st.vbptrOffset ≤ offset)
  refine ⟨⟨moved.base, moved.field⟩, fun own => ?_⟩
  simp only [State.needsOwnVbptr, Bool.and_eq_true, Option.isNone_iff_eq_none] at own
  exact inside.trans (Nat.add_le_add_right (room own.2) distance)

theorem Reaches.injectVfptr (h : Reaches f known st)
    (vbptr : st.needsOwnVbptr = true → st.vbptrOffset + f.pointerSize ≤ st.size) :
    Ends (fun _ => True) (injectVfptr f st) fun st' => EndsBy f known st' st'.size := by
  refine (injectVfptr_ends st).imp ?_
  rintro st' (⟨without, rfl⟩ | ⟨distance, vbptrOffset, own, room, along, rfl⟩)
  · exact h.endsBy vbptr fun own => by simp [without] at own
  have moved := h.shifted distance fun _ => true
  refine Reaches.endsBy ⟨moved.base, moved.field⟩ (fun needs => ?_) fun _ => ?_
  case refine_1 =>
    have needs : st.needsOwnVbptr = true := needs
    have inside := vbptr needs
    simp only [State.needsOwnVbptr, Bool.and_eq_true] at needs
    rw [along needs.1, Nat.add_right_comm]
    exact Nat.add_le_add_right inside distance
  case refine_2 => exact room.trans (Nat.le_add_left _ _)

/-- What is pushed in makes its own room. -/
theorem Reaches.layPointers (h : Reaches f known st)
    (room : st.vbptrBase = none → st.vbptrOffset ≤ st.size) (once : st.isRelaid f = false) :
    Ends (fun _ => True) ((layPointers f st).eval known) fun st' => EndsBy f known st' st'.size := by
  apply layPointers_once once
  case none =>
    intro none none'
    exact h.endsBy (fun own => by simp [none'] at own) fun own => by simp [none] at own
  case pushed =>
    refine Ends.bind (h.injectVbptr room) fun st₁ first => ?_
    refine (first.1.injectVfptr first.2).imp fun st₂ inside slot placed => ?_
    exact inside slot (placed.congr rfl)

end Microsoft

end ObjectLayout
