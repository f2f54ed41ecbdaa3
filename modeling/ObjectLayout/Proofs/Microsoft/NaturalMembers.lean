import ObjectLayout.Proofs.Guarantees
import ObjectLayout.Proofs.Microsoft.Natural

/-! Members at any depth of an object under the Microsoft rules. Whatever is found along bases, virtual
bases and members that are records lies at a multiple of its own alignment, counted from the start of
the whole object, and so do the pointers on the way. -/
namespace ObjectLayout.Microsoft

variable {s : Setting} {known : Known} {d c m : RecordId} {isComplete : Bool} {x depth : Nat}
variable {layout inner : RecordLayout}

/-- A record inside a complete object of `d`, and where it lies. Virtual bases belong to complete
objects, and a member is one of its own. Of an array the first element always counts, and the others
do if the size of one is a multiple of its alignment. -/
inductive ObjectAt (s : Setting) (known : Known) (d : RecordId) : RecordId → Bool → Nat → Prop
  | whole : ObjectAt s known d d true 0
  | base {c b : RecordId} {isComplete : Bool} {x offset : Nat}
      (outer : ObjectAt s known d c isComplete x) (edge : s.tree.InheritsPlainly c b)
      (at' : known.baseOffset? c b = some offset) : ObjectAt s known d b false (x + offset)
  | virtualBase {c v : RecordId} {x offset : Nat} (outer : ObjectAt s known d c true x)
      (listed : v ∈ s.tree.virtualBases c) (at' : known.virtualBaseOffset? c v = some offset) :
      ObjectAt s known d v false (x + offset)
  | member {c m : RecordId} {isComplete : Bool} {x index element byte : Nat} {field : Field}
      (outer : ObjectAt s known d c isComplete x)
      (found : (s.tree.record c).fields[index]? = some field) (stored : field.bitWidth = none)
      (at' : known.fieldOffset? c index = some (8 * byte)) (contains : field.type.Contains element m)
      (rounded : element = 0 ∨ ∀ inner, known.record m = .ok inner → inner.alignment ∣ inner.size) :
      ObjectAt s known d m true (x + (byte + element * known.size m))

section Pointers

variable (microsoft : s.usesMicrosoftLayout = true) (unpacked : s.UnpackedWithin d)
variable (injects : s.InjectsWithin (s.known depth) d)
include microsoft unpacked injects

/-- A vbptr lies at a multiple of its size, whether the class has it of its own or shares it. -/
theorem vbptr_aligned (laid : (s.known depth).record d = .ok layout) {slot : VbptrSlot}
    (has : layout.vbptr? = some slot) : s.target.pointerWidth ∣ slot.offset ∧
      s.target.pointerWidth ∣ layout.alignment := by
  have acyclic := (hasVbptr_iff microsoft depth laid).1
  induction acyclic generalizing layout slot with
  | intro d _ ih =>
  have isClass : (s.tree.record d).isClass = true := by
    cases isClass : (s.tree.record d).isClass with
    | true => rfl
    | false =>
      simp [RecordLayout.vbptr?, plain_asClass microsoft isClass (s.known_record laid)] at has
  have free := ofRecord_isUnpacked unpacked
  have power := (wellFormed_of_powers microsoft unpacked.powers laid).power
  have natural := naturallyLaid microsoft unpacked injects laid
  have h : (Frame.ofRecord s d).HasPowers (s.known depth) := hasPowers microsoft unpacked.powers
  obtain ⟨run, rfl⟩ := classRun microsoft isClass (s.known_record laid)
  have once : run.laid.isRelaid (Frame.ofRecord s d) = false := by
    apply run.not_relaid
    rw [Frame.is64Bit_eq]
    exact injects.imp_right fun low => low d _ .refl laid
  obtain ⟨hasVbptr, rfl⟩ : run.last.hasVbptr = true ∧
      slot = ⟨run.last.vbptrOffset, run.last.vbptrBase⟩ := by
    cases hasVbptr : run.last.hasVbptr with
    | false => simp [RecordLayout.vbptr?, State.classLayout, hasVbptr] at has
    | true => exact ⟨rfl, by simpa [RecordLayout.vbptr?, State.classLayout, hasVbptr, eq_comm] using has⟩
  cases shared : run.last.vbptrBase with
  | none =>
    have own : run.laid.needsOwnVbptr = true := by
      rw [← run.hasOwnVbptr_eq]
      simp [RecordLayout.hasOwnVbptr, RecordLayout.vbptr?, State.classLayout, hasVbptr, shared]
    have pointed := (layPointers_aligned once).value run.pointers
    have raised := (run.laid_le once).2 (.inr own)
    rw [Frame.pointerAlignment, free.clamp_eq] at raised
    constructor
    · have whole := pointed.vbptr own (free.clamp_eq _) (run.laid_hasPowers h).alignment
      rwa [← run.last_eq.2.2.1] at whole
    · exact Quantity.dvd_of_isPowerOfTwo s.target.pointerWidth_isPowerOfTwo power raised
  | some b =>
    obtain ⟨inner, offset, laid', found, same⟩ := run.last_sharesVbptr b hasVbptr shared
    -- The base that the vbptr is shared with is a non-virtual one with a vbptr.
    have flags := run.flags_eq.trans run.once.flags
    simp only [State.flags, Prod.mk.injEq] at flags
    rw [flags.2.2.2.2] at shared
    obtain ⟨base, search, rfl⟩ := Option.map_eq_some_iff.mp shared
    obtain ⟨plain, brings⟩ : base.isVirtual = false ∧ inner.hasVbptr = true := by
      simpa [bringsVbptr, Known.has_eq laid'] using List.find?_some search
    have edge : s.tree.InheritsPlainly d base.record :=
      ⟨base, List.mem_filter.mpr ⟨List.mem_of_find?_eq_some search, by simp [plain]⟩, rfl⟩
    obtain ⟨slot', has'⟩ := Option.isSome_iff_exists.mp brings
    have path : Relation.ReflTransGen s.tree.Encloses d base.record :=
      .single edge.inherits.encloses
    obtain ⟨whole, aligned⟩ :=
      ih _ edge.inherits (unpacked.lower path) (injects.lower path) laid' has'
    have at' : (s.known depth).baseOffset? d base.record = some offset := by
      simpa [Known.baseOffset?, Known.classLayout?_eq laid, State.classLayout] using found
    obtain ⟨start, less⟩ := natural.base _ inner offset edge laid' at'
    constructor
    · dsimp only
      rw [same, has']
      exact Nat.dvd_add (aligned.trans start) whole
    · exact aligned.trans less

end Pointers

section Depth

variable (microsoft : s.usesMicrosoftLayout = true) (unpacked : s.UnpackedWithin d)
variable (injects : s.InjectsWithin (s.known depth) d)
variable (laid : (s.known depth).record d = .ok layout)
include microsoft unpacked injects laid

/-- Whatever is inside the object has a layout, and its alignment divides where it lies and the
alignment of the whole object: one case for every way to get to it. -/
theorem ObjectAt.aligned (inside : ObjectAt s (s.known depth) d c isComplete x) :
    Relation.ReflTransGen s.tree.Encloses d c ∧ ∃ inner, (s.known depth).record c = .ok inner ∧
      inner.alignment ∣ x ∧ inner.alignment ∣ layout.alignment := by
  induction inside with
  | whole => exact ⟨.refl, layout, laid, Nat.dvd_zero _, Nat.dvd_refl _⟩
  | @base c b isComplete x offset outer edge at' ih =>
    obtain ⟨path, around, laid', whole, less⟩ := ih
    obtain ⟨inner, known⟩ := known_of_inherits microsoft laid' edge.inherits
    have natural := naturallyLaid microsoft (unpacked.lower path) (injects.lower path) laid'
    obtain ⟨start, needs⟩ := natural.base b inner offset edge known at'
    exact ⟨path.tail edge.inherits.encloses, inner, known,
      Nat.dvd_add (needs.trans whole) start, needs.trans less⟩
  | @virtualBase c v x offset outer listed at' ih =>
    obtain ⟨path, around, laid', whole, less⟩ := ih
    have has := Tree.HasVirtualBase.of_mem listed
    obtain ⟨inner, known⟩ := known_of_below microsoft laid' has.below
    have natural := naturallyLaid microsoft (unpacked.lower path) (injects.lower path) laid'
    obtain ⟨start, needs⟩ := natural.virtualBase v listed inner offset known at'
    exact ⟨path.trans has.encloses.to_reflTransGen, inner, known,
      Nat.dvd_add (needs.trans whole) start, needs.trans less⟩
  | @member c m isComplete x index element byte field outer found stored at' contains rounded ih =>
    obtain ⟨path, around, laid', whole, less⟩ := ih
    have natural := naturallyLaid microsoft (unpacked.lower path) (injects.lower path) laid'
    have member := List.mem_of_getElem? found
    have names := Ty.baseElement_of_constantArrayRecord? contains.1
    obtain ⟨type, typed⟩ := exists_type microsoft (s.known_record laid') member stored
    -- The alignment of the type is that of the record.
    obtain ⟨inner, known, same⟩ := Known.alignment_of_records Setting.known_type
      ((unpacked.record c path).asks.typedef field member) typed names
    obtain ⟨start, needs⟩ :=
      natural.field index field _ type.alignment found stored at' (.inl ⟨type, typed, rfl⟩)
    rw [same] at start needs
    refine ⟨path.tail (.of_field member (Ty.enclosedRecord?_of_baseElement names)), inner, known, ?_,
      needs.trans less⟩
    apply Nat.dvd_add (needs.trans whole)
    apply Nat.dvd_add (Nat.dvd_of_mul_dvd_mul_left (by decide) start)
    rcases rounded with rfl | rounded
    · simp
    · rw [Known.size_eq known]
      exact Nat.dvd_mul_left_of_dvd (rounded inner known) _

end Depth

/-- What lies in a record inside an object of `d` lies naturally in the whole object. -/
structure NaturallyAt (s : Setting) (known : Known) (layout : RecordLayout) (c : RecordId) (x : Nat) :
    Prop where
  reached : ∃ inner, known.record c = .ok inner
  member : ∀ (index : Nat) (field : Field), (s.tree.record c).fields[index]? = some field →
    field.bitWidth = none → ∃ byte type, known.fieldOffset? c index = some (8 * byte) ∧
      known.type field.type = .ok type ∧ ∀ n, n = type.alignment ∨ n ∈ field.alignment →
        n ∣ x + byte ∧ n ∣ layout.alignment
  vfptr : ∀ inner, known.record c = .ok inner → inner.hasOwnVfptr = true →
    s.target.pointerWidth ∣ x
  vbptr : ∀ inner slot, known.record c = .ok inner → inner.vbptr? = some slot →
    s.target.pointerWidth ∣ x + slot.offset

/-- Members, vfptrs and vbptrs at any depth lie naturally in the whole object. -/
theorem members_naturally_placed (microsoft : s.usesMicrosoftLayout = true)
    (unpacked : s.UnpackedWithin d) (injects : s.InjectsWithin (s.known depth) d)
    (laid : (s.known depth).record d = .ok layout)
    (inside : ObjectAt s (s.known depth) d c isComplete x) :
    NaturallyAt s (s.known depth) layout c x := by
  obtain ⟨path, inner, known, whole, less⟩ := inside.aligned microsoft unpacked injects laid
  have unpacked := unpacked.lower path
  have injects := injects.lower path
  have natural := naturallyLaid microsoft unpacked injects known
  constructor
  case reached => exact ⟨inner, known⟩
  case member =>
    intro index field found stored
    have member := List.mem_of_getElem? found
    obtain ⟨type, typed⟩ := exists_type microsoft (s.known_record known) member stored
    have counted := (wellFormed_of_powers microsoft unpacked.powers known).counted
    obtain ⟨bound, _⟩ := List.getElem?_eq_some_iff.mp found
    have at' := (Known.fieldOffset?_eq known index).trans (List.getElem?_eq_getElem (counted ▸ bound))
    have lies (n : Nat) (asks : n = type.alignment ∨ n ∈ field.alignment) :=
      natural.field index field _ n found stored at'
        (asks.imp_left fun same => ⟨type, typed, same⟩)
    obtain ⟨byte, eight⟩ := (Nat.dvd_mul_right 8 _).trans (lies type.alignment (.inl rfl)).1
    rw [eight] at at'
    refine ⟨byte, type, at', typed, fun n asks => ?_⟩
    obtain ⟨start, needs⟩ := lies n asks
    rw [eight] at start
    exact ⟨Nat.dvd_add (needs.trans whole) (Nat.dvd_of_mul_dvd_mul_left (by decide) start),
      needs.trans less⟩
  case vfptr =>
    intro inner' known' own
    cases known.symm.trans known'
    exact (natural.vfptr own).trans whole
  case vbptr =>
    intro inner' slot known' has
    cases known.symm.trans known'
    obtain ⟨start, aligned⟩ := vbptr_aligned microsoft unpacked injects known has
    exact Nat.dvd_add (aligned.trans whole) start

/-- For 32-bit Windows: `D` has both pointers of its own, pushed in before and behind `B`, and holds two
of `M` in its virtual base. -/
def heldVirtually : Setting :=
  .windows .x86 [
    .ofClass "M" [{ name := "c", type := .scalar ⟨0⟩ .plainChar },
      { name := "x", type := .scalar ⟨1⟩ (.float .double), alignment := some 16 }] [] [],
    .ofClass "V" [{ name := "n", type := .scalar ⟨0⟩ .plainChar },
      { name := "m", type := .array ⟨3⟩ (.record ⟨2⟩ ⟨0⟩) 2 }] [] [],
    .ofClass "B" [{ name := "b", type := .scalar ⟨4⟩ (.integer .short .signed) }] [] [],
    .ofClass "D" [{ name := "d", type := .scalar ⟨0⟩ .plainChar }]
      [{ record := ⟨2⟩ }, { record := ⟨1⟩, isVirtual := true }] [⟨0⟩]]
    [{ name := "f", owner := ⟨3⟩, isVirtual := true }]

/-- The second `M` lies 64 bytes into a `D`. -/
theorem members_naturally_placed_heldVirtually : ∃ layout,
    (heldVirtually.known 7).record ⟨3⟩ = .ok layout ∧
      layout.hasOwnVfptr = true ∧ layout.hasOwnVbptr = true ∧
      ObjectAt heldVirtually (heldVirtually.known 7) ⟨3⟩ ⟨0⟩ true 64 ∧
      NaturallyAt heldVirtually (heldVirtually.known 7) layout ⟨0⟩ 64 ∧
      NaturallyAt heldVirtually (heldVirtually.known 7) layout ⟨3⟩ 0 := by
  obtain ⟨layout, laid⟩ := exists_ok (by decide +kernel :
    ((heldVirtually.known 7).record ⟨3⟩).isOk = true)
  have vfptr : (heldVirtually.known 7).has (·.hasOwnVfptr) ⟨3⟩ = true := by decide +kernel
  have vbptr : (heldVirtually.known 7).has (·.hasOwnVbptr) ⟨3⟩ = true := by decide +kernel
  rw [Known.has_eq laid] at vfptr vbptr
  have unpacked : heldVirtually.UnpackedWithin ⟨3⟩ :=
    ⟨rfl, fun m _ => Tree.forall_record (by decide) (by decide) m⟩
  have injects : heldVirtually.InjectsWithin (heldVirtually.known 7) ⟨3⟩ := .inl (by decide)
  have inside : ObjectAt heldVirtually (heldVirtually.known 7) ⟨3⟩ ⟨0⟩ true 64 := by
    have start : (heldVirtually.known 7).virtualBaseOffset? ⟨3⟩ ⟨1⟩ = some 16 := by decide +kernel
    have listed : ⟨1⟩ ∈ heldVirtually.tree.virtualBases ⟨3⟩ := by decide
    have base := ObjectAt.virtualBase .whole listed start
    have found : (heldVirtually.tree.record ⟨1⟩).fields[1]? = some
        { name := "m", type := .array ⟨3⟩ (.record ⟨2⟩ ⟨0⟩) 2 } := rfl
    have first : (heldVirtually.known 7).fieldOffset? ⟨1⟩ 1 = some (8 * 16) := by decide +kernel
    have second : Ty.Contains (.array ⟨3⟩ (.record ⟨2⟩ ⟨0⟩) 2) 1 ⟨0⟩ := ⟨rfl, by decide⟩
    have rounded : (heldVirtually.known 7).has (fun inner => decide (inner.alignment ∣ inner.size)) ⟨0⟩
        = true := by decide +kernel
    have size : (heldVirtually.known 7).size ⟨0⟩ = 32 := by decide +kernel
    have at' := ObjectAt.member base found rfl first second (.inr fun inner known => by
      rw [Known.has_eq known] at rounded
      exact of_decide_eq_true rounded)
    rwa [size] at at'
  exact ⟨layout, laid, vfptr, vbptr, inside,
    members_naturally_placed (by decide) unpacked injects laid inside,
    members_naturally_placed (by decide) unpacked injects laid .whole⟩

end ObjectLayout.Microsoft
