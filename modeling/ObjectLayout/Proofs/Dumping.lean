import ObjectLayout.Dump
import ObjectLayout.Proofs.Held
import ObjectLayout.Proofs.Itanium.Soundness
import ObjectLayout.Proofs.Microsoft.Offsets
import ObjectLayout.Proofs.Microsoft.Tables

/-! Dumps of finished layouts. Whatever a dump looks up is there, in the record and in all that the
record holds, so nothing but an offset or a size in bits that is too large can end it. -/
namespace ObjectLayout

open LayoutM (ends_bind ends_lift_bind)

variable {s : Setting} {known : Known} {r held : RecordId} {layout : RecordLayout} {depth : Nat}

/-- What a dump of a record looks up in its layout. -/
structure RecordLayout.Shows (layout : RecordLayout) (tree : Tree) (r : RecordId) : Prop where
  counted : layout.fieldOffsets.length = (tree.record r).fields.length
  isClass : layout.asClass.isSome = (tree.record r).isClass
  base : ∀ base ∈ (tree.record r).nonVirtualBases, ∃ offset, layout.baseOffset base.record = .ok offset
  virtualBase : ∀ v ∈ tree.virtualBases r, ∃ slot, layout.virtualBaseSlot v = .ok slot ∧
    (slot.hasVtordisp = true → 4 ≤ slot.offset)

theorem RecordLayout.Shows.fieldOffset {tree : Tree} {index : Nat} {field : Field}
    (shows : layout.Shows tree r) (found : (tree.record r).fields[index]? = some field) :
    ∃ start, layout.fieldOffset index = .ok start := by
  obtain ⟨bound, _⟩ := List.getElem?_eq_some_iff.mp found
  simp only [RecordLayout.fieldOffset, List.getElem?_eq_getElem (shows.counted ▸ bound)]
  exact ⟨_, rfl⟩

namespace RecordLayout

variable {part : ClassLayout} (asClass : layout.asClass = some part)
include asClass

theorem baseOffset_eq_of_find? {b : RecordId} {offset : Nat}
    (found : part.baseOffsets.find? b = some offset) : layout.baseOffset b = .ok offset := by
  simp only [baseOffset, classLayout, asClass, bind, Except.bind, found]
  rfl

theorem virtualBaseSlot_eq_of_find? {v : RecordId} {slot : VirtualBaseSlot}
    (found : part.virtualBaseSlots.find? v = some slot) : layout.virtualBaseSlot v = .ok slot := by
  simp only [virtualBaseSlot, classLayout, asClass, bind, Except.bind, found]
  rfl

end RecordLayout

section Shown

/-- A plain record has no bases to look up. -/
theorem RecordLayout.Shows.of_plain (plain : (s.tree.record r).isClass = false)
    (asClass : layout.asClass = none)
    (counted : layout.fieldOffsets.length = (s.tree.record r).fields.length) :
    layout.Shows s.tree r where
  counted := counted
  isClass := by rw [asClass, plain, Option.isSome_none]
  base base member := by
    have isClass := Tree.isClass_of_inherits ⟨base, (List.mem_filter.mp member).1, rfl⟩
    simp [plain] at isClass
  virtualBase v listed := by
    have isClass := (Tree.HasVirtualBase.of_mem listed).isClass
    simp [plain] at isClass

theorem Microsoft.shows (microsoft : s.usesMicrosoftLayout = true)
    (laid : (s.known depth).record r = .ok layout) : layout.Shows s.tree r := by
  have virtuals := (hasVbptr_iff microsoft depth laid).2
  cases isClass : (s.tree.record r).isClass with
  | false =>
    obtain ⟨run, rfl⟩ := plainRun microsoft isClass (s.known_record laid)
    exact .of_plain isClass rfl run.counted
  | true =>
    obtain ⟨run, rfl⟩ := classRun microsoft isClass (s.known_record laid)
    have offsets := run.hasOffsets
    constructor
    case counted => exact offsets.counted
    case isClass => exact isClass.symm
    case base =>
      intro base member
      obtain ⟨offset, found⟩ := Option.isSome_iff_exists.mp (offsets.base base member)
      exact ⟨offset, RecordLayout.baseOffset_eq_of_find? rfl found⟩
    case virtualBase =>
      intro v listed
      have has : run.closed.hasVbptr = true := by
        rw [run.hasVbptr_closed, ← State.classLayout_hasVbptr]
        exact virtuals.mpr ⟨v, .of_mem listed⟩
      have entered := run.virtual.entered v (by rw [if_pos has]; exact listed)
      obtain ⟨slot, found⟩ := Option.isSome_iff_exists.mp entered
      refine ⟨slot, RecordLayout.virtualBaseSlot_eq_of_find? rfl ?_, ?_⟩
      · exact run.finished.virtualBaseSlots ▸ found
      · exact fun vtordisp => (run.virtual.vtordisp found vtordisp).1

theorem Itanium.shows (itanium : s.IsItanium) (laid : (s.known depth).record r = .ok layout) :
    layout.Shows s.tree r := by
  have knows := s.known_knows itanium.rules depth
  have sound := knows.sound itanium laid
  obtain ⟨layout', laid', isClass, counted⟩ := sound.laid
  cases laid.symm.trans laid'
  constructor
  case counted => exact counted
  case isClass => exact isClass
  case base =>
    intro base member
    obtain ⟨offset, found⟩ := Option.isSome_iff_exists.mp ((sound.bases base.record).mpr ⟨base, member, rfl⟩)
    exact ⟨offset, Known.baseOffset_eq laid found⟩
  case virtualBase =>
    intro v listed
    have has : s.tree.HasVirtualBase r v := .of_mem listed
    obtain ⟨own, g, pieces, fixed, st, work⟩ := knows.classLaid itanium laid has.isClass
    obtain ⟨part, asClass, _, _, slots, _⟩ := work.part
    obtain ⟨offset, found⟩ := Option.isSome_iff_exists.mp ((sound.virtualBases v).mpr has)
    rw [Known.virtualBaseOffset?, Known.classLayout?_eq laid, asClass, Option.bind_some] at found
    obtain ⟨slot, found, _⟩ := Option.map_eq_some_iff.mp found
    refine ⟨slot, RecordLayout.virtualBaseSlot_eq_of_find? asClass found, fun vtordisp => ?_⟩
    -- The slots of virtual bases are those of the pieces, which have none.
    have entry := OrderedMap.mem_of_find? found
    rw [slots, work.progress.laid.slots, slotsOf, List.mem_map] at entry
    obtain ⟨_, _, same⟩ := entry
    cases same
    cases vtordisp

end Shown

/-- Known layouts that can be dumped: what they hold is known, does not hold them in turn, and whatever is
looked up in them is there. -/
structure Setting.Displays (s : Setting) (known : Known) : Prop where
  held : ∀ {r layout held}, known.record r = .ok layout → s.Holds r held →
    ∃ inner, known.record held = .ok inner
  grounded : ∀ {r layout}, known.record r = .ok layout → Grounded s.Holds r
  shows : ∀ {r layout}, known.record r = .ok layout → layout.Shows s.tree r

theorem Setting.known_shows (unsupplied : s.supplied = none)
    (laid : (s.known depth).record r = .ok layout) : layout.Shows s.tree r := by
  cases rules : s.usesMicrosoftLayout with
  | true => exact Microsoft.shows rules laid
  | false => exact Itanium.shows ⟨rules, fun r => by rw [suppliedLayout?, unsupplied]; rfl⟩ laid

namespace Setting.HasIntegerBitFields

variable (integer : s.HasIntegerBitFields) (unsupplied : s.supplied = none)
include integer unsupplied

theorem known_displays (depth : Nat) : s.Displays (s.known depth) where
  held := (integer.known_knows depth).held
  grounded := (integer.known_knows depth).grounded
  shows := s.known_shows unsupplied

theorem displays_storing (laid : (s.known (depth + 1)).record r = .ok layout) :
    s.Displays ((s.known depth).storing r layout) where
  held := (integer.knows_storing laid).held
  grounded := (integer.knows_storing laid).grounded
  shows {r' inner} found := by
    have within := (storing_within_known laid).record r' inner found
    exact s.known_shows unsupplied within

end Setting.HasIntegerBitFields

theorem Ty.baseElement_asRecord? {type : Ty} (names : type.asRecord? = some held) :
    type.baseElement.asRecord? = some held := by
  fun_induction Ty.asRecord? type <;> simp_all [Ty.baseElement, Ty.asRecord?]

namespace Dump

/-- One level of a dump, with a way to dump what is further down. -/
def level (s : Setting) (dump : Dumper) : Dumper := fun r offset indent role isComplete => do
  let layout ← LayoutM.layoutOf r
  let record := s.tree.record r
  let inside := indent + 1
  let head := headLine s r offset indent role :: tablePointerLines s r layout offset inside
  let bases ← each record.nonVirtualBases (baseLines dump layout offset inside)
  let vbptr ← vbptrLines s r layout offset inside
  let fields ← each record.fields.zipIdx (fieldLines s dump layout offset inside)
  let own := head ++ bases ++ vbptr ++ fields
  if !isComplete then return own
  let virtualBases ← each (s.tree.virtualBases r) (virtualBaseLines s dump layout offset inside)
  return own ++ virtualBases ++ [← sizesLine s layout indent]

theorem each_congr {α : Type} {parts : List α} {show? show?' : α → LayoutM (List Line)}
    (same : ∀ part ∈ parts, show? part = show?' part) : each parts show? = each parts show?' := by
  unfold each
  apply foldlM_congr
  intro part member lines
  rw [same part member]

/-- What is further down from a record is what it holds, at some depth. -/
theorem level_congr {dump dump' : Dumper} (r : RecordId)
    (same : ∀ held, Relation.TransGen s.Holds r held → dump held = dump' held) :
    level s dump r = level s dump' r := by
  have bases (layout : RecordLayout) (offset : Bytes) (indent : Nat) :
      each (s.tree.record r).nonVirtualBases (baseLines dump layout offset indent) =
        each (s.tree.record r).nonVirtualBases (baseLines dump' layout offset indent) := by
    apply each_congr
    intro base member
    have inherits : s.tree.Inherits r base.record := ⟨base, (List.mem_filter.mp member).1, rfl⟩
    unfold baseLines
    rw [same base.record (.single inherits.holds)]
  have fields (layout : RecordLayout) (offset : Bytes) (indent : Nat) :
      each (s.tree.record r).fields.zipIdx (fieldLines s dump layout offset indent) =
        each (s.tree.record r).fields.zipIdx (fieldLines s dump' layout offset indent) := by
    apply each_congr
    rintro ⟨field, index⟩ member
    have listed := List.mem_of_getElem? (List.mk_mem_zipIdx_iff_getElem?.mp member)
    unfold fieldLines
    dsimp only
    cases found : field.type.asRecord?.filter fun r => (s.tree.record r).isClass with
    | none => rfl
    | some held =>
      have names := Ty.baseElement_asRecord? (Option.filter_eq_some_iff.mp found).1
      simp only [same held (.single (.of_field listed names))]
  have virtualBases (layout : RecordLayout) (offset : Bytes) (indent : Nat) :
      each (s.tree.virtualBases r) (virtualBaseLines s dump layout offset indent) =
        each (s.tree.virtualBases r) (virtualBaseLines s dump' layout offset indent) := by
    apply each_congr
    intro v listed
    have has : s.tree.HasVirtualBase r v := .of_mem listed
    unfold virtualBaseLines
    rw [same v (has.below.lift id fun _ _ => Tree.Inherits.holds)]
  funext offset indent role isComplete
  unfold level
  simp only [bases, fields, virtualBases]

theorem subobjectLines_eq (grounded : Grounded s.Holds r) :
    subobjectLines s r = level s (subobjectLines s) r :=
  s.tree.descend_eq (fun _ _ path => Setting.Holds.declared_of_transGen path)
    (fun _ _ r same => level_congr r same) grounded.transGen

section Level

variable {dump : Dumper} (below : ∀ held, Relation.TransGen s.Holds r held →
  ∀ offset indent role isComplete, (isComplete = true → (s.tree.record held).isClass = true) →
    OnlyOverflows ((dump held offset indent role isComplete).eval known))

theorem each_overflows {parts : List α} {show? : α → LayoutM (List Line)}
    (part : ∀ a ∈ parts, OnlyOverflows ((show? a).eval known)) :
    OnlyOverflows ((each parts show?).eval known) := by
  unfold each
  rw [LayoutM.eval_foldlM]
  apply Ends.foldlM_keeps trivial
  intro a member lines _
  exact ends_bind (part a member) fun _ _ => trivial

theorem vbptrLines_overflows (layout : RecordLayout) (offset : Bytes) (indent : Nat) :
    OnlyOverflows (vbptrLines s r layout offset indent) := by
  unfold vbptrLines
  split
  · exact Ends.bind (OnlyOverflows.fit _) fun _ _ => trivial
  · trivial

variable (shows : layout.Shows s.tree r)
include shows

theorem exists_sizesLine (isClass : (s.tree.record r).isClass = true) (indent : Nat) :
    ∃ total, sizesLine s layout indent = .ok total := by
  obtain ⟨part, asClass⟩ := Option.isSome_iff_exists.mp (shows.isClass.trans isClass)
  simp [sizesLine, RecordLayout.nonVirtualSize, RecordLayout.nonVirtualAlignment,
    RecordLayout.classLayout, asClass, bind, Except.bind, Except.map, pure, Except.pure]

include below

theorem baseLines_overflows (offset : Bytes) (indent : Nat) {base : Base}
    (member : base ∈ (s.tree.record r).nonVirtualBases) :
    OnlyOverflows ((baseLines dump layout offset indent base).eval known) := by
  have inherits : s.tree.Inherits r base.record := ⟨base, (List.mem_filter.mp member).1, rfl⟩
  unfold baseLines
  apply ends_lift_bind (OnlyOverflows.of_ok (shows.base base member))
  intro inner _
  apply ends_lift_bind (OnlyOverflows.fit _)
  intro start _
  exact below _ (.single inherits.holds) _ _ _ _ nofun

theorem fieldLines_overflows (offset : Bytes) (indent : Nat) {entry : Field × Nat}
    (member : entry ∈ (s.tree.record r).fields.zipIdx) :
    OnlyOverflows ((fieldLines s dump layout offset indent entry).eval known) := by
  obtain ⟨field, index⟩ := entry
  have here := List.mk_mem_zipIdx_iff_getElem?.mp member
  unfold fieldLines
  apply ends_lift_bind (OnlyOverflows.of_ok (shows.fieldOffset here))
  intro inner _
  apply ends_lift_bind (OnlyOverflows.fit _)
  intro start _
  split
  · rename_i held found
    obtain ⟨names, isClass⟩ := Option.filter_eq_some_iff.mp found
    have holds := Setting.Holds.of_field (List.mem_of_getElem? here) (Ty.baseElement_asRecord? names)
    exact below held (.single holds) _ _ _ _ fun _ => isClass
  · trivial

/-- A vtordisp does not start before the object that has it. -/
theorem virtualBaseLines_overflows (offset : Bytes) (indent : Nat) {v : RecordId}
    (listed : v ∈ s.tree.virtualBases r) :
    OnlyOverflows ((virtualBaseLines s dump layout offset indent v).eval known) := by
  have has : s.tree.HasVirtualBase r v := .of_mem listed
  have path : Relation.TransGen s.Holds r v := has.below.lift id fun _ _ => Tree.Inherits.holds
  obtain ⟨slot, found, room⟩ := shows.virtualBase v listed
  unfold virtualBaseLines
  rw [LayoutM.eval_lift_bind found]
  apply ends_lift_bind (OnlyOverflows.fit _).remember
  rintro start ⟨sum, -⟩
  obtain ⟨rfl, _⟩ := Quantity.add_eq_ok_iff.mp sum
  have shown (lines : List Line) (role : String) : OnlyOverflows ((do
      return lines ++ (← dump v (offset + slot.offset) indent (some role) false) :
        LayoutM (List Line)).eval known) :=
    ends_bind (below v path _ _ _ _ nofun) fun _ _ => trivial
  cases vtordisp : slot.hasVtordisp with
  | false => exact shown [] _
  | true =>
    have enough : 4 ≤ offset + slot.offset := (room vtordisp).trans (Nat.le_add_left _ _)
    have taken : Quantity.sub (offset + slot.offset) 4 = .ok (offset + slot.offset - 4) :=
      Quantity.sub_eq_ok_iff.mpr ⟨enough, rfl⟩
    simp only [if_true]
    rw [LayoutM.eval_lift_bind taken]
    exact shown _ _

theorem level_overflows (laid : known.record r = .ok layout) (offset : Bytes) (indent : Nat)
    (role : Option String) (isComplete : Bool)
    (isClass : isComplete = true → (s.tree.record r).isClass = true) :
    OnlyOverflows ((level s dump r offset indent role isComplete).eval known) := by
  unfold level
  rw [LayoutM.eval_layoutOf_bind laid]
  apply ends_bind (each_overflows fun base member => baseLines_overflows below shows _ _ member)
  intro bases _
  apply ends_lift_bind (vbptrLines_overflows _ _ _)
  intro vbptr _
  apply ends_bind (each_overflows fun entry member => fieldLines_overflows below shows _ _ member)
  intro fields _
  cases isComplete with
  | false => trivial
  | true =>
    apply ends_bind (each_overflows fun v listed => virtualBaseLines_overflows below shows _ _ listed)
    intro virtualBases _
    have sizes := OnlyOverflows.of_ok (exists_sizesLine shows (isClass rfl) indent)
    exact ends_lift_bind sizes fun _ _ => trivial

end Level

end Dump

namespace Setting.Displays

variable (displays : s.Displays known)
include displays

theorem reached (laid : ∃ layout, known.record r = .ok layout)
    (path : Relation.TransGen s.Holds r held) : ∃ inner, known.record held = .ok inner := by
  obtain ⟨layout, laid⟩ := laid
  induction path with
  | single holds => exact displays.held laid holds
  | tail _ holds ih =>
    obtain ⟨_, found⟩ := ih
    exact displays.held found holds

/-- By induction along what a record holds. -/
theorem subobjectLines_overflows (laid : ∃ layout, known.record r = .ok layout) (offset : Bytes)
    (indent : Nat) (role : Option String) (isComplete : Bool)
    (isClass : isComplete = true → (s.tree.record r).isClass = true) :
    OnlyOverflows ((Dump.subobjectLines s r offset indent role isComplete).eval known) := by
  obtain ⟨layout, laid⟩ := laid
  have grounded := (displays.grounded laid).transGen
  induction grounded generalizing layout offset indent role isComplete with
  | intro r lower ih =>
    rw [Dump.subobjectLines_eq (displays.grounded laid)]
    refine Dump.level_overflows ?_ (displays.shows laid) laid offset indent role isComplete isClass
    intro held path offset indent role isComplete isClass
    obtain ⟨inner, found⟩ := displays.reached ⟨layout, laid⟩ path
    exact ih held path offset indent role isComplete isClass inner found

/-- The dump of a finished layout can be too large in its numbers; nothing else goes wrong. -/
theorem dump_overflows (laid : known.record r = .ok layout) (simple : Bool) :
    OnlyOverflows ((dump s r simple).eval known) := by
  unfold dump
  split
  · unfold Dump.summary
    rw [LayoutM.eval_layoutOf_bind laid]
    have bits (n : Bytes) : OnlyOverflows (Bytes.toBits n) := OnlyOverflows.fit _
    have rest (dataSize : String) : OnlyOverflows ((do
        return "Type: " ++ (s.tree.record r).spelling ++ "\n\nLayout: <ASTRecordLayout\n"
          ++ "  Size:" ++ toString (← Bytes.toBits layout.size) ++ "\n" ++ dataSize
          ++ "  Alignment:" ++ toString (← Bytes.toBits layout.alignment) ++ "\n"
          ++ "  FieldOffsets: [" ++ ", ".intercalate (layout.fieldOffsets.map toString) ++ "]>\n" :
        LayoutM String).eval known) :=
      ends_lift_bind (bits _) fun _ _ => ends_lift_bind (bits _) fun _ _ => trivial
    split
    · exact rest _
    · exact ends_lift_bind (bits _) fun _ _ => rest _
  · rename_i isClass
    simp only [Bool.or_eq_true, Bool.not_eq_true', not_or, Bool.not_eq_false] at isClass
    have lines := displays.subobjectLines_overflows ⟨layout, laid⟩ 0 0 none true fun _ => isClass.2
    exact ends_bind lines fun _ _ => trivial

end Setting.Displays

end ObjectLayout
