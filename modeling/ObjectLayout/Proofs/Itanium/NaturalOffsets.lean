import ObjectLayout.Proofs.Itanium.Moves
import ObjectLayout.Proofs.Itanium.TypeAlignment

/-! Natural alignment at every depth. Where nothing is packed and no maximum is set, a class puts each
part at a multiple of the alignment that the part asks for, and is itself aligned to a multiple of it.
A base asks for its alignment as a base. So does a virtual base that something in the base has claimed,
because the alignment of the claimant includes it. -/
namespace ObjectLayout

open Quantity (isPowerOfTwo)

variable {s : Setting} {known : Known} {d r b v : RecordId} {x : Nat}

/-- Nothing in the record keeps its parts from their natural alignment. -/
structure Record.IsNatural (record : Record) : Prop where
  asks : record.AsksForPowers
  notPacked : record.attributes.isPacked = false
  noPack : record.attributes.maxFieldAlignment = none
  notMac68k : record.attributes.isMac68k = false
  fields : ∀ field ∈ record.fields, field.isPacked = false

theorem Record.isNatural_iff {record : Record} : record.IsNatural ↔ record.AsksForPowers ∧
    record.attributes.isPacked = false ∧ record.attributes.maxFieldAlignment = none ∧
    record.attributes.isMac68k = false ∧ ∀ field ∈ record.fields, field.isPacked = false :=
  ⟨fun h => ⟨h.asks, h.notPacked, h.noPack, h.notMac68k, h.fields⟩,
    fun ⟨h₁, h₂, h₃, h₄, h₅⟩ => ⟨h₁, h₂, h₃, h₄, h₅⟩⟩

instance (record : Record) : Decidable record.IsNatural :=
  decidable_of_iff _ Record.isNatural_iff.symm

/-- Nothing in a record, its bases and its members keeps anything from its natural alignment. -/
structure Setting.IsNatural (s : Setting) (d : RecordId) : Prop where
  packStruct : s.options.packStruct = none
  record : ∀ r, Relation.ReflTransGen s.Holds d r → (s.tree.record r).IsNatural

namespace Setting.IsNatural

variable (h : s.IsNatural d)
include h

theorem lower (path : Relation.ReflTransGen s.Holds d r) : s.IsNatural r :=
  ⟨h.packStruct, fun r' further => h.record r' (path.trans further)⟩

end Setting.IsNatural

/-- Where the layout of a record puts its parts, as far as their alignments go. A field asks for
`natural` by its type. -/
structure Natural (s : Setting) (known : Known) (r : RecordId) : Prop where
  bases : ∀ b x, known.baseOffset? r b = some x → known.nonVirtualAlignment b ∣ x ∧
    known.nonVirtualAlignment b ∣ known.nonVirtualAlignment r
  primary : ∀ v, known.virtualPrimary? r = some v →
    known.nonVirtualAlignment v ∣ known.nonVirtualAlignment r
  virtualBases : ∀ layout, known.record r = .ok layout → ∀ v x,
    known.virtualBaseOffset? r v = some x → known.nonVirtualAlignment v ∣ x ∧
      known.nonVirtualAlignment v ∣ layout.alignment
  nested : ∀ layout, known.record r = .ok layout → (s.tree.record r).isClass = true →
    known.nonVirtualAlignment r ∣ layout.alignment
  fields : ∀ layout, known.record r = .ok layout → ∀ (index : Nat) (field : Field) (offset : Nat),
    (s.tree.record r).fields[index]? = some field → field.bitWidth = none →
    known.fieldOffset? r index = some offset → ∃ size natural,
      (Itanium.fieldExtent (.ofRecord s r none) field.type).eval known = .ok (size, natural) ∧
      8 * max natural (field.alignment.getD 0) ∣ offset ∧
      max natural (field.alignment.getD 0) ≤ layout.alignment ∧
      ((s.tree.record r).isClass = true →
        max natural (field.alignment.getD 0) ≤ known.nonVirtualAlignment r)

section Graph

variable {g : SubobjectGraph} {own : Option RecordId} {i k : SubobjectId} {o : Nat}

/-- A base subobject inside another one needs no more alignment than that one has. -/
theorem PartAt.natural (charted : Charted s known d own g)
    (below : ∀ r, Relation.TransGen s.Holds d r → Natural s known r) (has : g.Has i)
    (part : PartAt s known g (.base i) o (.base k)) :
    known.nonVirtualAlignment (g.node k).record ∣ o ∧
      known.nonVirtualAlignment (g.node k).record ∣ known.nonVirtualAlignment (g.node i).record := by
  have grounded := charted.grounded i
  induction grounded generalizing o with
  | intro i _ ih =>
  have natural := below _ (SoundBelow.inherits (charted.forest.below i has))
  rcases partAt_base_iff.mp part with ⟨rfl, rfl⟩ | ⟨first, j, second, edge, inside, rfl⟩
  · exact ⟨Nat.dvd_zero _, Nat.dvd_refl _⟩
  · obtain ⟨within, needs⟩ := ih j edge.child (charted.forest.has_child edge.child) inside
    rcases hasPart_base_base_iff.mp edge with ⟨member, at'⟩ | ⟨claimed, rfl⟩
    · obtain ⟨whole, less⟩ := natural.bases _ _ at'
      exact ⟨Nat.dvd_add (needs.trans whole) within, needs.trans less⟩
    · have primary := natural.primary _ (charted.forest.claimed_record claimed).2.2
      exact ⟨by rwa [Nat.zero_add], needs.trans primary⟩

end Graph

namespace Itanium

open LayoutM (ends_bind ends_lift_bind)

variable {f : Frame} {st st' : State} {g : SubobjectGraph} {own : Option RecordId}
variable {i : SubobjectId} {slots : OrderedMap RecordId VirtualBaseSlot}

/-- Placing what is claimed inside a base subobject adds nothing but what is listed for it. -/
theorem placeClaimed_lists (h : Charted s known d own g) (has : g.Has i) :
    Ends (fun _ => True) ((placeClaimed s g i x slots).eval known) fun slots' =>
      ∀ v slot, slots'.find? v = some slot → slots.find? v = some slot ∨
        ∃ p, (p, slot.offset) ∈ claimedFrom known g i x ∧ (g.node p).record = v := by
  have grounded := h.grounded i
  induction grounded generalizing x slots with
  | intro i lower ih =>
  rw [placeClaimed_eq (h.grounded i), claimedFrom_eq (h.grounded i)]
  dsimp only
  split
  · exact fun v slot => .inl
  obtain ⟨layout, laid, _⟩ := (h.sound_node has).laid
  generalize listed : (g.claimedPrimary? i).toList.flatMap (fun p => (p, x) :: claimedFrom known g p x)
    ++ (g.nonVirtualBasesOf i).flatMap (fun j => claimedFrom known g j
      (x + (known.baseOffset? (g.node i).record (g.node j).record).getD 0)) = entries
  have bases (slots₁ : OrderedMap RecordId VirtualBaseSlot)
      (before : ∀ v slot, slots₁.find? v = some slot → slots.find? v = some slot ∨
        ∃ p, (p, slot.offset) ∈ entries ∧ (g.node p).record = v) :
      Ends (fun _ => True) ((LayoutM.layoutOf (g.node i).record >>= fun layout =>
        (g.nonVirtualBasesOf i).foldlM (fun slots base => do
          placeClaimed s g base (← EmptyMap.within x (layout.baseOffset (g.node base).record)) slots)
          slots₁).eval known) fun slots' => ∀ v slot, slots'.find? v = some slot →
            slots.find? v = some slot ∨ ∃ p, (p, slot.offset) ∈ entries ∧ (g.node p).record = v := by
    rw [LayoutM.eval_layoutOf_bind laid, LayoutM.eval_foldlM]
    refine Ends.foldlM_keeps before fun j member slots₂ sofar => ?_
    obtain ⟨o, at'⟩ := h.offset member
    refine ends_lift_bind (within_ends (Known.baseOffset_eq laid at') (.inr trivial)) fun y within => ?_
    subst within
    refine (ih j (.inl member) (h.forest.has_child (.inl member))).imp fun slots₃ added v slot found => ?_
    rcases added v slot found with old | ⟨p, new, same⟩
    · exact sofar v slot old
    · refine .inr ⟨p, ?_, same⟩
      rw [← listed]
      refine List.mem_append_right _ (List.mem_flatMap.mpr ⟨j, member, ?_⟩)
      rwa [at', Option.getD_some]
  cases claimed : g.claimedPrimary? i with
  | none => exact bases slots fun v slot => .inl
  | some p =>
    have first (e : SubobjectId × Nat) (member : e ∈ (p, x) :: claimedFrom known g p x) :
        e ∈ entries := by
      rw [← listed, claimed]
      exact List.mem_append_left _ (by simpa using member)
    refine ends_bind Ends.any fun _ _ => ?_
    refine ends_bind (ih p (.inr claimed) (h.forest.has_child (.inr claimed))) fun slots₁ added => ?_
    refine bases slots₁ fun v slot found => ?_
    rcases added v slot found with old | ⟨q, new, same⟩
    · by_cases here : v = (g.node p).record
      · subst here
        rw [OrderedMap.find?_insert_self] at old
        cases old
        exact .inr ⟨p, first _ List.mem_cons_self, rfl⟩
      · rw [OrderedMap.find?_insert_of_ne _ _ here] at old
        exact .inl old
    · exact .inr ⟨q, first _ (.tail _ new), same⟩

/-- Nothing keeps a part of the record from its natural alignment. -/
structure Frame.IsNatural (f : Frame) : Prop where
  notPacked : f.isPacked = false
  notMac68k : f.isMac68k = false
  noMaximum : f.maxFieldAlignment = 0
  fields : ∀ field ∈ f.declaration.fields, field.isPacked = false

theorem Frame.ofRecord_isNatural (h : s.IsNatural r) : (Frame.ofRecord s r none).IsNatural := by
  have record := h.record r .refl
  refine ⟨record.notPacked, record.notMac68k, ?_, record.fields⟩
  simp [Frame.ofRecord, record.notMac68k, record.noPack, h.packStruct]

namespace Frame.IsNatural

variable (h : f.IsNatural)
include h

theorem clamp_eq (n : Nat) : f.clamp n = n := by
  rw [Frame.clamp, if_pos h.noMaximum]

theorem raised_eq (alignment asked : Nat) : f.raised alignment asked = max alignment asked := by
  simp [Frame.raised, h.notMac68k]

theorem baseAlignment_eq (r : RecordId) :
    f.baseAlignment known r = known.nonVirtualAlignment r := by
  simp [Frame.baseAlignment, h.notPacked]

theorem broughtBy_eq (r : RecordId) (x : Nat) :
    f.broughtBy known r x = known.nonVirtualAlignment r := by
  rw [Frame.broughtBy, h.clamp_eq, h.baseAlignment_eq, ite_self]

theorem fieldAlignment_eq {field : Field} (member : field ∈ f.declaration.fields) (natural : Nat) :
    f.fieldAlignment field natural = max natural (field.alignment.getD 0) := by
  simp [Frame.fieldAlignment, h.clamp_eq, h.notPacked, h.fields field member]

end Frame.IsNatural

/-- Every part that has its place so far lies at a multiple of what it asks for and has been counted
in the alignment. -/
structure NaturallyPlaced (f : Frame) (known : Known) (st : State) : Prop where
  bases : ∀ b x, st.baseOffsets.find? b = some x →
    known.nonVirtualAlignment b ∣ x ∧ known.nonVirtualAlignment b ≤ st.alignment
  virtualBases : ∀ v slot, st.virtualBaseSlots.find? v = some slot →
    known.nonVirtualAlignment v ∣ slot.offset ∧ known.nonVirtualAlignment v ≤ st.alignment
  fields : ∀ (index : Nat) (field : Field) (offset : Nat),
    f.declaration.fields[index]? = some field → field.bitWidth = none →
    st.fieldOffsets[index]? = some offset → ∃ size natural,
      (fieldExtent f field.type).eval known = .ok (size, natural) ∧
      8 * max natural (field.alignment.getD 0) ∣ offset ∧
      max natural (field.alignment.getD 0) ≤ st.alignment

/-- A table to which nothing is added but that `r` lies at `x`. -/
structure Enters (r : RecordId) (x : Nat) (tables : State → State) : Prop where
  frame : ∀ mid, tables mid = { mid with
    baseOffsets := (tables mid).baseOffsets, virtualBaseSlots := (tables mid).virtualBaseSlots }
  bases : ∀ mid b y, (tables mid).baseOffsets.find? b = some y →
    mid.baseOffsets.find? b = some y ∨ (b = r ∧ y = x)
  virtualBases : ∀ mid v slot, (tables mid).virtualBaseSlots.find? v = some slot →
    mid.virtualBaseSlots.find? v = some slot ∨ (v = r ∧ slot.offset = x)

theorem enters_withBase (r : RecordId) (x : Nat) : Enters r x (State.withBase r x) := by
  refine ⟨fun _ => rfl, fun mid b y found => ?_, fun _ _ _ => .inl⟩
  by_cases here : b = r
  · subst here
    rw [State.withBase, OrderedMap.find?_insert_self] at found
    exact .inr ⟨rfl, (Option.some.inj found).symm⟩
  · rw [State.withBase, OrderedMap.find?_insert_of_ne _ _ here] at found
    exact .inl found

theorem enters_withVirtualBase (r : RecordId) (x : Nat) : Enters r x (State.withVirtualBase r x) := by
  refine ⟨fun _ => rfl, fun _ _ _ => .inl, fun mid v slot found => ?_⟩
  by_cases here : v = r
  · subst here
    rw [State.withVirtualBase, OrderedMap.find?_insert_self] at found
    cases found
    exact .inr ⟨rfl, rfl⟩
  · rw [State.withVirtualBase, OrderedMap.find?_insert_of_ne _ _ here] at found
    exact .inl found

namespace NaturallyPlaced

variable (natural : f.IsNatural)
variable (below : ∀ r, Relation.TransGen f.setting.Holds f.record r → Natural f.setting known r)
include natural below

/-- A base that gets its place brings along only what needs no more alignment than it does. -/
theorem house {tables : State → State} (h : NaturallyPlaced f known st)
    (charted : Charted f.setting known f.record own st.graph) (has : st.graph.Has i)
    (enters : Enters (st.graph.node i).record x tables)
    (housed : BaseHoused f known i x tables st st') : NaturallyPlaced f known st' := by
  obtain ⟨mid, slots, raised, placed, rfl⟩ := housed.housed
  have alignment : (tables mid).alignment =
      max st.alignment (known.nonVirtualAlignment (st.graph.node i).record) := by
    rw [enters.frame mid, raised.frame, natural.raised_eq, natural.broughtBy_eq]
  have offsets : (tables mid).fieldOffsets = st.fieldOffsets := by
    rw [enters.frame mid, raised.frame]
  have whole : known.nonVirtualAlignment (st.graph.node i).record ∣ x := by
    rcases raised.whole with rfl | whole
    · exact Nat.dvd_zero _
    · rwa [natural.clamp_eq, natural.baseAlignment_eq] at whole
  have positive : 0 < known.nonVirtualAlignment (st.graph.node i).record := by
    have sound := charted.sound_node has
    obtain ⟨layout, laid, asClass⟩ := raised.isClass
    obtain ⟨layout', laid', isClass, _⟩ := sound.laid
    cases laid.symm.trans laid'
    exact Quantity.pos_of_isPowerOfTwo (sound.aligned (isClass ▸ asClass))
  constructor
  case bases =>
    intro b y found
    change _ ∧ _ ≤ (tables mid).alignment
    rw [alignment]
    rcases enters.bases mid b y found with old | ⟨rfl, rfl⟩
    · rw [raised.frame] at old
      obtain ⟨dvd, le⟩ := h.bases b y old
      exact ⟨dvd, le.trans (Nat.le_max_left _ _)⟩
    · exact ⟨whole, Nat.le_max_right _ _⟩
  case virtualBases =>
    intro v slot found
    change _ ∧ _ ≤ (tables mid).alignment
    rw [alignment]
    rcases (placeClaimed_lists charted has).value placed v slot found with old | ⟨p, listed, rfl⟩
    · rcases enters.virtualBases mid v slot old with older | ⟨rfl, same⟩
      · rw [raised.frame] at older
        obtain ⟨dvd, le⟩ := h.virtualBases v slot older
        exact ⟨dvd, le.trans (Nat.le_max_left _ _)⟩
      · exact ⟨same ▸ whole, Nat.le_max_right _ _⟩
    · obtain ⟨k, o, part, claims, same⟩ := (mem_claimedFrom charted).mp listed
      obtain ⟨dvd, needs⟩ := PartAt.natural charted below has
        (part.trans (.deeper (.claimed claims) (.here _)))
      rw [same]
      refine ⟨Nat.dvd_add (needs.trans whole) dvd, ?_⟩
      exact (Nat.le_of_dvd positive needs).trans (Nat.le_max_right _ _)
  case fields =>
    intro index field offset found stored at'
    change (tables mid).fieldOffsets[index]? = _ at at'
    rw [offsets] at at'
    obtain ⟨size, asked, extent, dvd, le⟩ := h.fields index field offset found stored at'
    refine ⟨size, asked, extent, dvd, ?_⟩
    change _ ≤ (tables mid).alignment
    rw [alignment]
    exact le.trans (Nat.le_max_left _ _)

omit natural below in
/-- What a step that leaves the parts where they are keeps. -/
theorem grow (h : NaturallyPlaced f known st) (bases : st'.baseOffsets = st.baseOffsets)
    (slots : st'.virtualBaseSlots = st.virtualBaseSlots)
    (offsets : st'.fieldOffsets = st.fieldOffsets) (grows : st.alignment ≤ st'.alignment) :
    NaturallyPlaced f known st' := by
  refine ⟨?_, ?_, ?_⟩
  · rw [bases]
    exact fun b x found => (h.bases b x found).imp_right fun le => le.trans grows
  · rw [slots]
    exact fun v slot found => (h.virtualBases v slot found).imp_right fun le => le.trans grows
  · rw [offsets]
    intro index field offset found stored at'
    obtain ⟨size, asked, extent, dvd, le⟩ := h.fields index field offset found stored at'
    exact ⟨size, asked, extent, dvd, le.trans grows⟩

theorem move (unsupplied : f.supplied = none) (h : NaturallyPlaced f known st)
    (move : Move f known st st') : NaturallyPlaced f known st' := by
  cases move with
  | plan graph primaryBase indirectPrimaryBases visitedVirtualBases =>
    exact h.grow rfl rfl rfl le_rfl
  | tablePointer _ done =>
    obtain ⟨frame, grows, _⟩ := Ends.holds (layTablePointer_raises unsupplied) done
    exact h.grow (by rw [frame]) (by rw [frame]) (by rw [frame]) grows
  | nonVirtualBase charted root done =>
    obtain ⟨x, housed⟩ := Ends.holds (layNonVirtualBase_houses unsupplied) done
    exact h.house natural below charted root.1 (enters_withBase _ x) housed
  | virtualBase charted root done =>
    obtain ⟨x, housed⟩ := Ends.holds (layVirtualBase_houses unsupplied) done
    exact h.house natural below charted root.1 (enters_withVirtualBase _ x) housed
  | field turn done =>
    obtain ⟨offset, raised⟩ := Ends.holds (layAnyField_raises unsupplied) done
    have offsets : st'.fieldOffsets = st.fieldOffsets ++ [offset] := by rw [raised.frame]
    have before : NaturallyPlaced f known { st with alignment := st'.alignment } :=
      h.grow rfl rfl rfl raised.grows
    refine ⟨?_, ?_, ?_⟩
    · rw [raised.frame]
      exact before.bases
    · rw [raised.frame]
      exact before.virtualBases
    · intro index field y found stored at'
      rw [offsets] at at'
      rcases Nat.lt_or_ge index st.fieldOffsets.length with less | le
      · rw [List.getElem?_append_left less] at at'
        exact before.fields index field y found stored at'
      · rw [List.getElem?_append_right le] at at'
        obtain rfl : index = st.fieldOffsets.length := by
          have := (List.getElem?_eq_some_iff.mp at').1
          simp only [List.length_singleton] at this
          omega
        rw [Nat.sub_self] at at'
        cases at'
        cases turn.symm.trans found
        obtain ⟨size, asked, extent, same, dvd⟩ := raised.stored stored
        have member := List.mem_of_getElem? found
        rw [natural.fieldAlignment_eq member] at same dvd
        refine ⟨size, asked, extent, dvd, ?_⟩
        rw [same, natural.raised_eq]
        exact Nat.le_max_right _ _

/-- A run of steps keeps every part at a multiple of what it asks for. -/
theorem moves (unsupplied : f.supplied = none) (h : NaturallyPlaced f known st)
    (run : Moves f known st st') : NaturallyPlaced f known st' :=
  run.keeps h fun _ _ before move => before.move natural below unsupplied move

end NaturallyPlaced

theorem Fresh.naturallyPlaced (h : Fresh f known st) : NaturallyPlaced f known st := by
  refine ⟨fun b x found => ?_, fun v slot found => ?_, fun index field offset _ _ at' => ?_⟩
  · rw [OrderedMap.find?, h.bases] at found
    cases found
  · rw [OrderedMap.find?, h.slots] at found
    cases found
  · rw [h.fieldOffsets] at at'
    cases at'

end Itanium

section Record

open Itanium

variable {layout : RecordLayout}

theorem Sound.isPowerOfTwo_of_base (sound : Sound s known r) (below : SoundBelow s known r)
    (at' : known.baseOffset? r b = some x) : isPowerOfTwo (known.nonVirtualAlignment b) = true := by
  have edge := (sound.bases b).mp (Option.isSome_iff_exists.mpr ⟨x, at'⟩)
  exact (below b (SoundBelow.inherits (.single edge.inherits))).aligned (sound.base_inside b x at').1

theorem Sound.isPowerOfTwo_of_virtualBase (sound : Sound s known r) (below : SoundBelow s known r)
    (has : s.tree.HasVirtualBase r v) : isPowerOfTwo (known.nonVirtualAlignment v) = true := by
  obtain ⟨x, at'⟩ := Option.isSome_iff_exists.mp ((sound.virtualBases v).mpr has)
  exact (below v (SoundBelow.inherits has.below)).aligned (sound.virtualBase_inside v x at').1

theorem Natural.of_class {start fixed st : State} (itanium : s.IsItanium) (knows : s.Knows known)
    (laid : known.record r = .ok layout) (h : s.IsNatural r)
    (below : ∀ r', Relation.TransGen s.Holds r r' → Natural s known r')
    (run : ClassRun (.ofRecord s r none) known .pruned start fixed st layout) :
    Natural s known r := by
  obtain ⟨sound, soundBelow⟩ := knows.sound_and_below itanium laid
  obtain ⟨map, part, _, _, asClass, _, alignment, primary, bases, slots⟩ := run.part
  have natural := Frame.ofRecord_isNatural h
  have placed := run.fresh.naturallyPlaced.moves natural below rfl run.direct
  have after := placed.moves natural below rfl run.virtual
  have power : isPowerOfTwo fixed.alignment = true :=
    (run.direct.alignment_le rfl).2 run.fresh.power
  obtain ⟨grows, whole⟩ := run.virtual.alignment_le rfl
  have own : known.nonVirtualAlignment r = fixed.alignment := by
    rw [Known.nonVirtualAlignment, Known.classLayout?_eq laid, asClass]
    exact alignment
  constructor
  case bases =>
    intro b x at'
    have base := sound.isPowerOfTwo_of_base soundBelow at'
    rw [Known.baseOffset?, Known.classLayout?_eq laid, asClass, Option.bind_some, bases] at at'
    obtain ⟨dvd, le⟩ := placed.bases b x at'
    rw [own]
    exact ⟨dvd, Quantity.dvd_of_isPowerOfTwo base power le⟩
  case primary =>
    intro v names
    have base := sound.isPowerOfTwo_of_virtualBase soundBelow (sound.primary v names).1
    rw [Known.virtualPrimary?_eq laid, RecordLayout.virtualPrimaryBase?, RecordLayout.primaryBase?,
      asClass, Option.bind_some, primary, Option.map_eq_some_iff] at names
    obtain ⟨⟨_, isVirtual⟩, chosen, rfl⟩ := names
    obtain ⟨chosen, virt⟩ := Option.filter_eq_some_iff.mp chosen
    cases virt
    obtain ⟨before, le⟩ := run.primary _ chosen
    rw [natural.raised_eq, natural.clamp_eq, natural.baseAlignment_eq] at le
    rw [own]
    exact Quantity.dvd_of_isPowerOfTwo base power ((Nat.le_max_right _ _).trans le)
  case virtualBases =>
    intro layout' laid' v x at'
    cases laid.symm.trans laid'
    have has := (sound.virtualBases v).mp (Option.isSome_iff_exists.mpr ⟨x, at'⟩)
    have base := sound.isPowerOfTwo_of_virtualBase soundBelow has
    rw [Known.virtualBaseOffset?, Known.classLayout?_eq laid, asClass, Option.bind_some, slots] at at'
    obtain ⟨slot, found, rfl⟩ := Option.map_eq_some_iff.mp at'
    obtain ⟨dvd, le⟩ := after.virtualBases v slot found
    rw [run.alignment]
    exact ⟨dvd, Quantity.dvd_of_isPowerOfTwo base (whole power) le⟩
  case nested =>
    intro layout' laid' _
    cases laid.symm.trans laid'
    rw [own, run.alignment]
    exact Quantity.dvd_of_isPowerOfTwo power (whole power) grows
  case fields =>
    intro layout' laid' index field offset found stored at'
    cases laid.symm.trans laid'
    rw [Known.fieldOffset?_eq laid, run.fieldOffsets] at at'
    obtain ⟨size, asked, extent, dvd, le⟩ := placed.fields index field offset found stored at'
    rw [own, run.alignment]
    exact ⟨size, asked, extent, dvd, le.trans grows, fun _ => le⟩

theorem Natural.of_plain {start st : State} (laid : known.record r = .ok layout)
    (plain : (s.tree.record r).isClass = false) (h : s.IsNatural r)
    (below : ∀ r', Relation.TransGen s.Holds r r' → Natural s known r')
    (run : PlainRun (.ofRecord s r none) known start st layout) : Natural s known r := by
  have part : known.classLayout? r = none := (Known.classLayout?_eq laid).trans run.asClass
  have placed := run.fresh.naturallyPlaced.moves (Frame.ofRecord_isNatural h) below rfl run.fields
  constructor
  case bases => simp [Known.baseOffset?, part]
  case primary =>
    simp [Known.virtualPrimary?_eq laid, RecordLayout.virtualPrimaryBase?, RecordLayout.primaryBase?,
      run.asClass]
  case virtualBases => simp [Known.virtualBaseOffset?, part]
  case nested => simp [plain]
  case fields =>
    intro layout' laid' index field offset found stored at'
    cases laid.symm.trans laid'
    rw [Known.fieldOffset?_eq laid, run.fieldOffsets] at at'
    obtain ⟨size, asked, extent, dvd, le⟩ := placed.fields index field offset found stored at'
    rw [run.alignment]
    exact ⟨size, asked, extent, dvd, le, fun isClass => by simp [plain] at isClass⟩

/-- Every record that has a layout lays its parts out naturally, from the innermost ones outwards. -/
theorem Setting.Knows.natural (knows : s.Knows known) (itanium : s.IsItanium) (h : s.IsNatural r)
    (laid : known.record r = .ok layout) : Natural s known r := by
  have grounded := (knows.grounded laid).transGen
  induction grounded generalizing layout with
  | intro r _ ih =>
  have below (r' : RecordId) (path : Relation.TransGen s.Holds r r') : Natural s known r' := by
    obtain ⟨_, laid'⟩ := knows.reached ⟨layout, laid⟩ path.to_reflTransGen
    exact ih r' path (h.lower path.to_reflTransGen) laid'
  have work := Workable.of_knows knows (knows.grounded laid) (knows.sound_and_below itanium laid).2
  have rules := knows.layout_eq itanium laid
  rw [layoutTracking_eq] at rules
  cases isClass : (s.tree.record r).isClass with
  | true =>
    rw [if_pos isClass] at rules
    obtain ⟨start, fixed, st, run⟩ := (layClass_runs work).holds rules
    exact .of_class itanium knows laid h below run
  | false =>
    rw [isClass, if_neg Bool.false_ne_true] at rules
    obtain ⟨start, st, run⟩ := (layPlain_runs work.unsupplied isClass).holds rules
    exact .of_plain laid isClass h below run

end Record

end ObjectLayout
