import ObjectLayout.Proofs.Dumping
import ObjectLayout.Proofs.Itanium.Contents

/-! The classes that a dump shows, and the offsets at which it shows them. A dump goes down from a class
to its direct bases, its members of class type and, in a complete object, its virtual bases; it comes to
an end just if all the offsets that it adds up on its way fit. -/
namespace ObjectLayout

namespace Known

variable {known : Known} {r v : RecordId} {layout : RecordLayout} {x index : Nat}

theorem fieldOffset_eq_iff (laid : known.record r = .ok layout) :
    layout.fieldOffset index = .ok x ↔ known.fieldOffset? r index = some x := by
  rw [Known.fieldOffset?_eq laid, RecordLayout.fieldOffset]
  cases layout.fieldOffsets[index]? <;> simp

theorem virtualBaseOffset?_eq_some (laid : known.record r = .ok layout) :
    known.virtualBaseOffset? r v = some x ↔
      ∃ slot, layout.virtualBaseSlot v = .ok slot ∧ slot.offset = x := by
  rw [← virtualBaseOffset_eq_iff laid, RecordLayout.virtualBaseOffset]
  cases layout.virtualBaseSlot v <;> simp [Except.map]

end Known

namespace Dump

/-- A step down in a dump. -/
inductive Step where
  | base (record : RecordId)
  | virtualBase (record : RecordId)
  | member (index : Nat)
  deriving DecidableEq

/-- A class as a dump shows it, as a complete object or as a base. -/
structure Part where
  record : RecordId
  isComplete : Bool

variable {s : Setting} {known : Known} {p q t : Part} {step : Step} {path : List Step}

/-- What lies below a class in a dump: its direct non-virtual bases, its members of class type, and the
virtual bases of a complete object. -/
inductive Step.Leads (s : Setting) (p : Part) : Step → Part → Prop
  | base {b : RecordId} (edge : s.tree.InheritsPlainly p.record b) : Leads s p (.base b) ⟨b, false⟩
  | virtualBase {v : RecordId} (complete : p.isComplete = true)
      (listed : v ∈ s.tree.virtualBases p.record) : Leads s p (.virtualBase v) ⟨v, false⟩
  | member {index : Nat} {field : Field} {held : RecordId}
      (found : (s.tree.record p.record).fields[index]? = some field)
      (names : field.type.asRecord? = some held) (isClass : (s.tree.record held).isClass = true) :
      Leads s p (.member index) ⟨held, true⟩

/-- How far down a step leads, as the layout has it. -/
def Step.offset? (known : Known) (r : RecordId) : Step → Option Nat
  | .base b => known.baseOffset? r b
  | .virtualBase v => known.virtualBaseOffset? r v
  | .member index => (known.fieldOffset? r index).map Bits.toBytesFloor

/-- A part that a dump shows below another, the steps that lead there, and its offset from the other. -/
inductive ShownAt (s : Setting) (known : Known) : Part → List Step → Part → Nat → Prop
  | here (p : Part) : ShownAt s known p [] p 0
  | under {p q t : Part} {step : Step} {path : List Step} {offset further : Nat}
      (leads : step.Leads s p q) (at' : step.offset? known p.record = some offset)
      (deeper : ShownAt s known q path t further) :
      ShownAt s known p (step :: path) t (offset + further)

/-- The offsets in a record at which a dump shows something of it. -/
inductive Marks (known : Known) (r : RecordId) : Nat → Prop
  | start : Marks known r 0
  | field {index start : Nat} (at' : known.fieldOffset? r index = some start) :
      Marks known r (Bits.toBytesFloor start)
  | vbptr {layout : RecordLayout} {offset : Nat} (laid : known.record r = .ok layout)
      (own : layout.vbptr? = some ⟨offset, none⟩) : Marks known r offset

/-- A dump of the part at this offset has only offsets that fit. -/
def FitsAt (s : Setting) (known : Known) (offset : Nat) (p : Part) : Prop :=
  ∀ path q x y, ShownAt s known p path q x → Marks known q.record y → offset + x + y < Quantity.limit

theorem Step.Leads.holds (h : step.Leads s p q) : Relation.TransGen s.Holds p.record q.record := by
  cases h with
  | base edge => exact .single edge.inherits.holds
  | virtualBase complete listed =>
    exact (Tree.HasVirtualBase.of_mem listed).below.lift id fun _ _ => Tree.Inherits.holds
  | member found names isClass =>
    exact .single (.of_field (List.mem_of_getElem? found) (Ty.baseElement_asRecord? names))

theorem ShownAt.trans {path' : List Step} {x y : Nat} (h : ShownAt s known p path q x)
    (h' : ShownAt s known q path' t y) : ShownAt s known p (path ++ path') t (x + y) := by
  induction h with
  | here p =>
    rw [Nat.zero_add]
    exact h'
  | under leads at' _ ih =>
    rw [Nat.add_assoc]
    exact .under leads at' (ih h')

/-- If each step leads to something that ends no later, so does each path. -/
theorem ShownAt.extent_le (good : Part → Prop) (extent : Part → Nat) {x : Nat}
    (each : ∀ p q (step : Step) y, good p → step.Leads s p q → step.offset? known p.record = some y →
      good q ∧ y + extent q ≤ extent p)
    (start : good p) (h : ShownAt s known p path q x) : good q ∧ x + extent q ≤ extent p := by
  induction h with
  | here p => exact ⟨start, by omega⟩
  | under leads at' _ ih =>
    obtain ⟨next, reaches⟩ := each _ _ _ _ start leads at'
    obtain ⟨last, inside⟩ := ih next
    exact ⟨last, by omega⟩

/-- A step down always has an offset in the layout. -/
theorem Step.Leads.exists_offset {layout : RecordLayout} (h : step.Leads s p q)
    (laid : known.record p.record = .ok layout) (shows : layout.Shows s.tree p.record) :
    ∃ x, step.offset? known p.record = some x := by
  cases h with
  | base edge =>
    obtain ⟨base, member, rfl⟩ := edge
    obtain ⟨x, at'⟩ := shows.base base member
    exact ⟨x, (Known.baseOffset_eq_iff laid).mp at'⟩
  | virtualBase complete listed =>
    obtain ⟨slot, at', _⟩ := shows.virtualBase _ listed
    exact ⟨slot.offset, (Known.virtualBaseOffset?_eq_some laid).mpr ⟨slot, at', rfl⟩⟩
  | @member index field held found names isClass =>
    obtain ⟨start, placed⟩ := shows.fieldOffset found
    rw [offset?, (Known.fieldOffset_eq_iff laid).mp placed]
    exact ⟨_, rfl⟩

theorem fitsAt_iff {offset : Nat} : FitsAt s known offset p ↔
    (∀ y, Marks known p.record y → offset + y < Quantity.limit) ∧
      ∀ (step : Step) q x, step.Leads s p q → step.offset? known p.record = some x →
        FitsAt s known (offset + x) q := by
  constructor
  · intro fits
    constructor
    · exact fun y mark => fits [] p 0 y (.here p) mark
    · intro step q x leads at' path t further y shown mark
      have whole := fits (step :: path) t (x + further) y (.under leads at' shown) mark
      omega
  · rintro ⟨own, below⟩ path t x y shown mark
    cases shown with
    | here => exact own y mark
    | @under _ q _ step path start further leads at' deeper =>
      have rest := below step q start leads at' path t further y deeper mark
      omega

section Each

variable {α : Type} {parts : List α} {part : α} {show? : α → LayoutM (List Line)} {lines : List Line}

/-- The lines of several parts are put behind those that are there. -/
theorem each_behind (before : List Line) :
    parts.foldlM (fun lines part => return lines ++ (← show? part)) before =
      (do return before ++ (← each parts show?) : LayoutM (List Line)) := by
  unfold each
  induction parts generalizing before with
  | nil => simp
  | cons part rest ih =>
    simp only [List.foldlM_cons, bind_assoc, pure_bind, List.nil_append]
    congr 1
    funext first
    rw [ih (before ++ first), ih first]
    simp

theorem each_cons {rest : List α} : (each (part :: rest) show?).eval known = .ok lines ↔
    ∃ first, (show? part).eval known = .ok first ∧
      ∃ others, (each rest show?).eval known = .ok others ∧ lines = first ++ others := by
  have split : each (part :: rest) show? =
      (do let first ← show? part; return first ++ (← each rest show?) : LayoutM (List Line)) := by
    rw [each, List.foldlM_cons]
    simp only [bind_assoc, pure_bind, each_behind, List.nil_append]
  rw [split, LayoutM.eval_bind_eq_ok]
  refine exists_congr fun first => and_congr_right fun _ => ?_
  rw [LayoutM.eval_bind_eq_ok]
  refine exists_congr fun others => and_congr_right fun _ => ?_
  rw [LayoutM.eval_pure, Except.ok.injEq, eq_comm]

theorem each_completes : (∃ lines, (each parts show?).eval known = .ok lines) ↔
    ∀ part ∈ parts, ∃ lines, (show? part).eval known = .ok lines := by
  induction parts with
  | nil => simp [each]
  | cons part rest ih =>
    rw [List.forall_mem_cons, ← ih]
    constructor
    · rintro ⟨lines, shown⟩
      obtain ⟨first, shown, others, more, _⟩ := each_cons.mp shown
      exact ⟨⟨first, shown⟩, others, more⟩
    · rintro ⟨⟨first, shown⟩, others, more⟩
      exact ⟨first ++ others, each_cons.mpr ⟨first, shown, others, more, rfl⟩⟩

end Each

section Pieces

variable {dump : Dumper} {layout : RecordLayout} {offset : Nat} {indent : Nat} {lines : List Line}
variable {r v : RecordId}

/-- The record that a field is shown as, if it is a class. -/
def heldClass? (s : Setting) (field : Field) : Option RecordId :=
  field.type.asRecord?.filter fun r => (s.tree.record r).isClass

theorem heldClass?_eq_some {field : Field} {held : RecordId} : heldClass? s field = some held ↔
    field.type.asRecord? = some held ∧ (s.tree.record held).isClass = true :=
  Option.filter_eq_some_iff

/-- The line before the vtordisp of a virtual base, if it has one. -/
def vtordispLines (s : Setting) (v : RecordId) (slot : VirtualBaseSlot) (offset indent : Nat) :
    List Line :=
  if slot.hasVtordisp then
    [.at (offset + slot.offset - 4) indent (.vtordisp (s.tree.record v).shortName)] else []

theorem baseLines_eq_ok {base : Base} :
    (baseLines dump layout offset indent base).eval known = .ok lines ↔
      ∃ x, layout.baseOffset base.record = .ok x ∧ offset + x < Quantity.limit ∧
        (dump base.record (offset + x) indent
          (some (if isPrimary layout base.record then "(primary base)" else "(base)")) false).eval
            known = .ok lines := by
  simp only [baseLines, LayoutM.eval_bind_eq_ok, LayoutM.eval_lift, Quantity.add_eq_ok_iff, and_assoc,
    exists_eq_left]

theorem fieldLines_eq_ok {field : Field} {index : Nat} :
    (fieldLines s dump layout offset indent (field, index)).eval known = .ok lines ↔
      ∃ start, layout.fieldOffset index = .ok start ∧
        offset + Bits.toBytesFloor start < Quantity.limit ∧
        ((heldClass? s field).elim (pure [.at (offset + Bits.toBytesFloor start) indent
            (.field (field.type.spelling s.tree) (field.name.getD ""))]) fun held =>
          dump held (offset + Bits.toBytesFloor start) indent (some (field.name.getD "")) true).eval
            known = .ok lines := by
  have asks : heldClass? s field = field.type.asRecord?.filter fun r => (s.tree.record r).isClass := rfl
  simp only [fieldLines, ← asks, LayoutM.eval_bind_eq_ok, LayoutM.eval_lift, Quantity.add_eq_ok_iff,
    and_assoc, exists_eq_left]
  cases heldClass? s field <;> rfl

theorem virtualBaseLines_eq_ok :
    (virtualBaseLines s dump layout offset indent v).eval known = .ok lines ↔
      ∃ slot, layout.virtualBaseSlot v = .ok slot ∧ offset + slot.offset < Quantity.limit ∧
        (slot.hasVtordisp = true → 4 ≤ offset + slot.offset) ∧
        ∃ rest, (dump v (offset + slot.offset) indent
          (some (if isPrimary layout v then "(primary virtual base)" else "(virtual base)")) false).eval
            known = .ok rest ∧ lines = vtordispLines s v slot offset indent ++ rest := by
  simp only [virtualBaseLines, vtordispLines, LayoutM.eval_bind_eq_ok, LayoutM.eval_lift,
    Quantity.add_eq_ok_iff, and_assoc, exists_eq_left, @eq_comm _ lines]
  refine exists_congr fun slot => and_congr_right fun _ => and_congr_right fun _ => ?_
  cases slot.hasVtordisp with
  | false =>
    simp only [Bool.false_eq_true, if_false, pure_bind, LayoutM.eval_bind_eq_ok, LayoutM.eval_pure,
      Except.ok.injEq, false_implies, true_and]
  | true =>
    simp only [if_true, pure_bind, LayoutM.eval_bind_eq_ok, LayoutM.eval_lift, LayoutM.eval_pure,
      Quantity.sub_eq_ok_iff, Except.ok.injEq, and_assoc, exists_and_left, exists_eq_left,
      true_implies]

theorem vbptrLines_eq_ok : vbptrLines s r layout offset indent = .ok lines ↔
    (∀ inner, layout.vbptr? = some ⟨inner, none⟩ → offset + inner < Quantity.limit) ∧
      lines = (layout.vbptr?.filter (·.sharedWith.isNone)).toList.map fun slot =>
        .at (offset + slot.offset) indent (.vbtablePointer (s.tree.record r).shortName) := by
  unfold vbptrLines
  cases has : layout.vbptr? with
  | none => simp [pure, Except.pure, eq_comm]
  | some slot =>
    obtain ⟨inner, shared⟩ := slot
    cases shared with
    | some b => simp [pure, Except.pure, eq_comm, Option.filter]
    | none =>
      simp only [except_bind_eq_ok, Quantity.add_eq_ok_iff]
      constructor
      · rintro ⟨_, ⟨rfl, fits⟩, same⟩
        cases same
        refine ⟨?_, rfl⟩
        rintro _ ⟨⟩
        exact fits
      · rintro ⟨fits, rfl⟩
        exact ⟨_, ⟨rfl, fits inner rfl⟩, rfl⟩

/-- What one level of a dump is put together from. -/
structure Levelled (s : Setting) (known : Known) (dump : Dumper) (r : RecordId) (offset indent : Nat)
    (role : Option String) (isComplete : Bool) (layout : RecordLayout)
    (bases vbptr fields virtualBases sizes lines : List Line) : Prop where
  laid : known.record r = .ok layout
  ofBases : (each (s.tree.record r).nonVirtualBases
    (baseLines dump layout offset (indent + 1))).eval known = .ok bases
  ofVbptr : vbptrLines s r layout offset (indent + 1) = .ok vbptr
  ofFields : (each (s.tree.record r).fields.zipIdx
    (fieldLines s dump layout offset (indent + 1))).eval known = .ok fields
  ofVirtualBases : isComplete = true → (each (s.tree.virtualBases r)
    (virtualBaseLines s dump layout offset (indent + 1))).eval known = .ok virtualBases
  ofSizes : isComplete = true → ∃ total, sizesLine s layout indent = .ok total ∧ sizes = [total]
  ofBase : isComplete = false → virtualBases = [] ∧ sizes = []
  lines : lines = headLine s r offset indent role ::
    tablePointerLines s r layout offset (indent + 1) ++ bases ++ vbptr ++ fields ++
      (virtualBases ++ sizes)

theorem level_eq_ok {role : Option String} {isComplete : Bool} :
    (level s dump r offset indent role isComplete).eval known = .ok lines ↔
      ∃ layout bases vbptr fields virtualBases sizes, Levelled s known dump r offset indent role
        isComplete layout bases vbptr fields virtualBases sizes lines := by
  unfold level
  simp only [LayoutM.eval_bind_eq_ok, LayoutM.eval_lift, LayoutM.eval_layoutOf]
  constructor
  · rintro ⟨layout, laid, bases, ofBases, vbptr, ofVbptr, fields, ofFields, shown⟩
    refine ⟨layout, bases, vbptr, fields, ?_⟩
    cases isComplete with
    | false =>
      cases shown
      exact ⟨[], [], laid, ofBases, ofVbptr, ofFields, nofun, nofun, fun _ => ⟨rfl, rfl⟩, by simp⟩
    | true =>
      simp only [Bool.not_true, Bool.false_eq_true, if_false, LayoutM.eval_bind_eq_ok,
        LayoutM.eval_lift] at shown
      obtain ⟨virtualBases, ofVirtualBases, total, sized, same⟩ := shown
      cases same
      exact ⟨virtualBases, [total], laid, ofBases, ofVbptr, ofFields, fun _ => ofVirtualBases,
        fun _ => ⟨total, sized, rfl⟩, nofun, by simp⟩
  · rintro ⟨layout, bases, vbptr, fields, virtualBases, sizes, h⟩
    refine ⟨layout, h.laid, bases, h.ofBases, vbptr, h.ofVbptr, fields, h.ofFields, ?_⟩
    cases isComplete with
    | false =>
      obtain ⟨rfl, rfl⟩ := h.ofBase rfl
      rw [h.lines]
      simp
    | true =>
      obtain ⟨total, sized, rfl⟩ := h.ofSizes rfl
      simp only [Bool.not_true, Bool.false_eq_true, if_false, LayoutM.eval_bind_eq_ok,
        LayoutM.eval_lift]
      exact ⟨virtualBases, h.ofVirtualBases rfl, total, sized, by rw [h.lines]; simp⟩

end Pieces

/-- What fits below a part fits itself. -/
theorem FitsAt.lt {offset : Nat} (h : FitsAt s known offset p) : offset < Quantity.limit :=
  h [] p 0 0 (.here p) .start

section Completes

variable {dump : Dumper} {layout : RecordLayout} {r : RecordId} {offset : Nat}

/-- The dumps of what is below a record complete just if all their offsets fit. -/
def Completes (s : Setting) (known : Known) (dump : Dumper) (held : RecordId) : Prop :=
  ∀ offset indent role isComplete, offset < Quantity.limit →
    (isComplete = true → (s.tree.record held).isClass = true) →
      ((∃ lines, (dump held offset indent role isComplete).eval known = .ok lines) ↔
        FitsAt s known offset ⟨held, isComplete⟩)

variable (below : ∀ held, Relation.TransGen s.Holds r held → Completes s known dump held)
variable (laid : known.record r = .ok layout) (shows : layout.Shows s.tree r)
include below laid shows

theorem bases_complete (indent : Nat) :
    (∃ lines, (each (s.tree.record r).nonVirtualBases
      (baseLines dump layout offset indent)).eval known = .ok lines) ↔
      ∀ b x, s.tree.InheritsPlainly r b → known.baseOffset? r b = some x →
        FitsAt s known (offset + x) ⟨b, false⟩ := by
  rw [each_completes]
  constructor
  · rintro all b x ⟨base, member, rfl⟩ at'
    obtain ⟨lines, shown⟩ := all base member
    obtain ⟨x', at'', fits, shown⟩ := baseLines_eq_ok.mp shown
    have same := (Known.baseOffset_eq_iff laid).mp at''
    cases at'.symm.trans same
    have inherits : s.tree.Inherits r base.record := ⟨base, (List.mem_filter.mp member).1, rfl⟩
    exact (below _ (.single inherits.holds) _ _ _ false fits nofun).mp ⟨lines, shown⟩
  · intro all base member
    obtain ⟨x, at'⟩ := shows.base base member
    have edge : s.tree.InheritsPlainly r base.record := ⟨base, member, rfl⟩
    have fits := all base.record x edge ((Known.baseOffset_eq_iff laid).mp at')
    obtain ⟨lines, shown⟩ :=
      (below _ (.single edge.inherits.holds) _ indent _ false fits.lt nofun).mpr fits
    exact ⟨lines, baseLines_eq_ok.mpr ⟨x, at', fits.lt, shown⟩⟩

theorem virtualBases_complete (indent : Nat) :
    (∃ lines, (each (s.tree.virtualBases r)
      (virtualBaseLines s dump layout offset indent)).eval known = .ok lines) ↔
      ∀ v x, v ∈ s.tree.virtualBases r → known.virtualBaseOffset? r v = some x →
        FitsAt s known (offset + x) ⟨v, false⟩ := by
  have path {v : RecordId} (listed : v ∈ s.tree.virtualBases r) : Relation.TransGen s.Holds r v :=
    (Tree.HasVirtualBase.of_mem listed).below.lift id fun _ _ => Tree.Inherits.holds
  have placed {v : RecordId} {slot : VirtualBaseSlot} (at' : layout.virtualBaseSlot v = .ok slot) :
      known.virtualBaseOffset? r v = some slot.offset :=
    (Known.virtualBaseOffset?_eq_some laid).mpr ⟨slot, at', rfl⟩
  rw [each_completes]
  constructor
  · intro all v x listed at'
    obtain ⟨lines, shown⟩ := all v listed
    obtain ⟨slot, at'', fits, _, rest, shown, _⟩ := virtualBaseLines_eq_ok.mp shown
    cases at'.symm.trans (placed at'')
    exact (below _ (path listed) _ _ _ false fits nofun).mp ⟨rest, shown⟩
  · intro all v listed
    obtain ⟨slot, at', room⟩ := shows.virtualBase v listed
    have fits := all v slot.offset listed (placed at')
    have enough (vtordisp : slot.hasVtordisp = true) : 4 ≤ offset + slot.offset :=
      (room vtordisp).trans (Nat.le_add_left _ _)
    obtain ⟨rest, shown⟩ := (below _ (path listed) _ indent _ false fits.lt nofun).mpr fits
    exact ⟨_, virtualBaseLines_eq_ok.mpr ⟨slot, at', fits.lt, enough, rest, shown, rfl⟩⟩

theorem fields_complete (indent : Nat) :
    (∃ lines, (each (s.tree.record r).fields.zipIdx
      (fieldLines s dump layout offset indent)).eval known = .ok lines) ↔
      ∀ (index : Nat) start, known.fieldOffset? r index = some start →
        offset + Bits.toBytesFloor start < Quantity.limit ∧
        ∀ field held, (s.tree.record r).fields[index]? = some field → heldClass? s field = some held →
          FitsAt s known (offset + Bits.toBytesFloor start) ⟨held, true⟩ := by
  have path {index : Nat} {field : Field} {held : RecordId}
      (found : (s.tree.record r).fields[index]? = some field) (held? : heldClass? s field = some held) :
      Relation.TransGen s.Holds r held ∧ (s.tree.record held).isClass = true := by
    obtain ⟨names, isClass⟩ := heldClass?_eq_some.mp held?
    exact ⟨.single (.of_field (List.mem_of_getElem? found) (Ty.baseElement_asRecord? names)), isClass⟩
  rw [each_completes]
  constructor
  · intro all index start at'
    have bound : index < (s.tree.record r).fields.length := by
      rw [Known.fieldOffset?_eq laid] at at'
      exact shows.counted ▸ (List.getElem?_eq_some_iff.mp at').1
    have found := List.getElem?_eq_getElem bound
    obtain ⟨lines, shown⟩ := all (_, index) (List.mk_mem_zipIdx_iff_getElem?.mpr found)
    obtain ⟨start', at'', fits, shown⟩ := fieldLines_eq_ok.mp shown
    cases ((Known.fieldOffset_eq_iff laid).mpr at').symm.trans at''
    refine ⟨fits, fun field held found' held? => ?_⟩
    cases found.symm.trans found'
    rw [held?] at shown
    obtain ⟨path, isClass⟩ := path found held?
    exact (below held path _ _ _ _ fits fun _ => isClass).mp ⟨lines, shown⟩
  · rintro all ⟨field, index⟩ member
    have found := List.mk_mem_zipIdx_iff_getElem?.mp member
    obtain ⟨start, placed⟩ := shows.fieldOffset found
    obtain ⟨fits, deeper⟩ := all index start ((Known.fieldOffset_eq_iff laid).mp placed)
    cases held? : heldClass? s field with
    | none =>
      exact ⟨_, fieldLines_eq_ok.mpr ⟨_, placed, fits, by rw [held?]; rfl⟩⟩
    | some held =>
      obtain ⟨path, isClass⟩ := path found held?
      obtain ⟨lines, shown⟩ := (below held path _ indent (some (field.name.getD "")) _ fits
        fun _ => isClass).mpr (deeper field held found held?)
      exact ⟨lines, fieldLines_eq_ok.mpr ⟨_, placed, fits, by rw [held?]; exact shown⟩⟩

/-- One level of a dump completes just if all its offsets fit, with those of what is below. -/
theorem level_completes : Completes s known (level s dump) r := by
  intro offset indent role isComplete small isClass
  constructor
  · rintro ⟨lines, shown⟩
    obtain ⟨layout', bases, vbptr, fields, virtualBases, sizes, h⟩ := level_eq_ok.mp shown
    cases laid.symm.trans h.laid
    have ofBases := (bases_complete below laid shows _).mp ⟨bases, h.ofBases⟩
    have ofFields := (fields_complete below laid shows _).mp ⟨fields, h.ofFields⟩
    have ofVbptr := (vbptrLines_eq_ok.mp h.ofVbptr).1
    rw [fitsAt_iff]
    constructor
    · intro y mark
      cases mark with
      | start => exact small
      | field at' => exact (ofFields _ _ at').1
      | vbptr laid' own =>
        cases laid.symm.trans laid'
        exact ofVbptr y own
    · intro step q x leads at'
      cases leads with
      | base edge => exact ofBases _ _ edge at'
      | virtualBase complete listed =>
        have ofVirtualBases := (virtualBases_complete below laid shows _).mp
          ⟨virtualBases, h.ofVirtualBases complete⟩
        exact ofVirtualBases _ _ listed at'
      | member found names isClass =>
        obtain ⟨start, placed, rfl⟩ := Option.map_eq_some_iff.mp at'
        exact (ofFields _ _ placed).2 _ _ found (heldClass?_eq_some.mpr ⟨names, isClass⟩)
  · intro fits
    obtain ⟨own, deeper⟩ := fitsAt_iff.mp fits
    obtain ⟨bases, ofBases⟩ := (bases_complete below laid shows (indent + 1)).mpr
      fun b x edge at' => deeper (.base b) _ x (.base edge) at'
    obtain ⟨fields, ofFields⟩ := (fields_complete below laid shows (indent + 1)).mpr
      fun index start at' => ⟨own _ (.field at'), fun field held found held? =>
        deeper (.member index) ⟨held, true⟩ _
          (.member found (heldClass?_eq_some.mp held?).1 (heldClass?_eq_some.mp held?).2)
          (by rw [Step.offset?, at']; rfl)⟩
    have ofVbptr : vbptrLines s r layout offset (indent + 1) = .ok _ :=
      vbptrLines_eq_ok.mpr ⟨fun inner has => own inner (.vbptr laid has), rfl⟩
    cases isComplete with
    | false =>
      exact ⟨_, level_eq_ok.mpr ⟨layout, bases, _, fields, [], [], laid, ofBases, ofVbptr, ofFields,
        nofun, nofun, fun _ => ⟨rfl, rfl⟩, rfl⟩⟩
    | true =>
      obtain ⟨virtualBases, ofVirtualBases⟩ :=
        (virtualBases_complete below laid shows (indent + 1)).mpr
        fun v x listed at' => deeper (.virtualBase v) _ x (.virtualBase rfl listed) at'
      obtain ⟨total, sized⟩ := exists_sizesLine shows (isClass rfl) indent
      exact ⟨_, level_eq_ok.mpr ⟨layout, bases, _, fields, virtualBases, [total], laid, ofBases,
        ofVbptr, ofFields, fun _ => ofVirtualBases, fun _ => ⟨total, sized, rfl⟩, nofun, rfl⟩⟩

end Completes

end Dump

namespace Setting.Displays

variable {s : Setting} {known : Known} {r : RecordId} {layout : RecordLayout}

/-- By induction along what a record holds. -/
theorem subobjectLines_complete (displays : s.Displays known) (laid : known.record r = .ok layout) :
    Dump.Completes s known (Dump.subobjectLines s) r := by
  have grounded := (displays.grounded laid).transGen
  induction grounded generalizing layout with
  | intro r lower ih =>
    have same := Dump.subobjectLines_eq (displays.grounded laid)
    intro offset indent role isComplete small isClass
    rw [same]
    refine Dump.level_completes (fun held path => ?_) laid (displays.shows laid) offset indent role
      isComplete small isClass
    obtain ⟨inner, found⟩ := displays.reached ⟨layout, laid⟩ path
    exact ih held path found

end Setting.Displays

end ObjectLayout
