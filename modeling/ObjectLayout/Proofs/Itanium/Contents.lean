import Mathlib.Order.Lattice.Nat
import ObjectLayout.Proofs.Itanium.LeastBit

/-! Where the contents of a record end before its size is rounded up to its alignment. Empty bases are
among the contents with all of their size, and virtual bases come after the fields; nothing but whole
bytes for all of these is counted. -/
namespace ObjectLayout

/-- Where something ends that was placed in a record: the table pointer, if the class has its own, a
base with all its room, virtual or not, or a field. -/
inductive EndsIn (s : Setting) (known : Known) (d : RecordId) (layout : RecordLayout) : Nat → Prop
  | pointer (own : layout.hasOwnVfptr = true) : EndsIn s known d layout (8 * s.target.pointerWidth)
  | base {b : RecordId} {x : Nat} (at' : layout.baseOffset b = .ok x) :
      EndsIn s known d layout (8 * (x + s.span known b))
  | virtualBase {v : RecordId} {x : Nat} (at' : layout.virtualBaseOffset v = .ok x) :
      EndsIn s known d layout (8 * (x + s.span known v))
  | field {k start bits : Nat} {field : Field} (found : (s.tree.record d).fields[k]? = some field)
      (has : s.HasBits known field bits) (at' : layout.fieldOffsets[k]? = some start) :
      EndsIn s known d layout (start + bits)

section Plain

variable {s : Setting} {known : Known} {d : RecordId} {layout : RecordLayout} {index stop : Nat}

/-- A field that ends at a bit. -/
def FieldEnds (s : Setting) (known : Known) (d : RecordId) (layout : RecordLayout) (k stop : Nat) :
    Prop :=
  ∃ field start bits, (s.tree.record d).fields[k]? = some field ∧ s.HasBits known field bits ∧
    layout.fieldOffsets[k]? = some start ∧ stop = start + bits

variable (asClass : layout.asClass = none)
include asClass

theorem EndsBefore.fieldEnds (ends : EndsBefore s known d layout index stop) :
    ∃ k < index, FieldEnds s known d layout k stop := by
  cases ends with
  | pointer own =>
    rw [RecordLayout.hasOwnVfptr, asClass] at own
    cases own
  | primary shared =>
    rw [RecordLayout.primaryBase?, asClass] at shared
    cases shared
  | base full at' =>
    rw [RecordLayout.baseOffset, RecordLayout.classLayout, asClass] at at'
    cases at'
  | field earlier found has at' => exact ⟨_, earlier, _, _, _, found, has, at', rfl⟩

theorem EndsIn.fieldEnds (ends : EndsIn s known d layout stop) :
    ∃ k, FieldEnds s known d layout k stop := by
  cases ends with
  | pointer own =>
    rw [RecordLayout.hasOwnVfptr, asClass] at own
    cases own
  | base at' =>
    rw [RecordLayout.baseOffset, RecordLayout.classLayout, asClass] at at'
    cases at'
  | virtualBase at' =>
    rw [RecordLayout.virtualBaseOffset, RecordLayout.virtualBaseSlot, RecordLayout.classLayout,
      asClass] at at'
    cases at'
  | field found has at' => exact ⟨_, _, _, _, found, has, at', rfl⟩

end Plain

section Tables

variable {known : Known} {r b v : RecordId} {layout : RecordLayout} {x : Nat}

theorem Known.baseOffset_eq_iff (laid : known.record r = .ok layout) :
    layout.baseOffset b = .ok x ↔ known.baseOffset? r b = some x := by
  refine ⟨fun at' => ?_, Known.baseOffset_eq laid⟩
  obtain ⟨part, asClass, at'⟩ := except_bind_eq_ok.mp at'
  unfold RecordLayout.classLayout at asClass
  rw [baseOffset?, classLayout?_eq laid]
  split at asClass
  · rename_i same
    cases asClass
    rw [same, Option.bind_some]
    split at at'
    · rename_i found
      cases at'
      exact found
    · cases at'
  · cases asClass

theorem Known.virtualBaseOffset_eq_iff (laid : known.record r = .ok layout) :
    layout.virtualBaseOffset v = .ok x ↔ known.virtualBaseOffset? r v = some x := by
  refine ⟨fun at' => ?_, Known.virtualBaseOffset_eq laid⟩
  unfold RecordLayout.virtualBaseOffset RecordLayout.virtualBaseSlot RecordLayout.classLayout at at'
  rw [virtualBaseOffset?, classLayout?_eq laid]
  cases asClass : layout.asClass with
  | none =>
    rw [asClass] at at'
    cases at'
  | some part =>
    simp only [asClass, Bind.bind, Except.bind] at at'
    rw [Option.bind_some]
    cases found : part.virtualBaseSlots.find? v with
    | none =>
      rw [found] at at'
      cases at'
    | some slot =>
      rw [found] at at'
      cases at'
      rfl

/-- Where a class with a table pointer is a base, there is room for the pointer. -/
theorem Settled.pointer_le_span {s : Setting} {d : RecordId} (h : Settled s known d)
    (path : Relation.TransGen s.Holds d b) (dynamic : s.tree.isDynamic b = true) :
    s.target.pointerWidth ≤ s.span known b := by
  have sound := h.sound b path
  exact (sound.dynamic dynamic).trans
    (sound.nonVirtual_le_span (Itanium.isClass_of_isDynamic (h.acyclic path) dynamic))

end Tables

namespace Itanium

variable {f : Frame} {known : Known} {g : SubobjectGraph} {own : Option RecordId}
variable {based added pieces : List Piece} {mid fixed st : State} {layout : RecordLayout}

/-- The size of a record before it is rounded up: whole bytes for its contents. -/
structure Contents (f : Frame) (known : Known) (layout : RecordLayout) (st : State) : Prop where
  whole : 8 ∣ st.size
  above : ∀ stop, EndsIn f.setting known f.record layout stop → stop ≤ st.size
  least : ∀ bound, 8 ∣ bound → (∀ stop, EndsIn f.setting known f.record layout stop → stop ≤ bound) →
    st.size ≤ bound
  /-- Whatever comes before a field is among the contents, with at least as much room. -/
  before : ∀ index stop, EndsBefore f.setting known f.record layout index stop →
    ∃ stop', EndsIn f.setting known f.record layout stop' ∧ stop ≤ stop'

/-- The contents have an end, and the size is that of the bytes up to there. -/
theorem Contents.exists_isLUB (h : Contents f known layout st) : ∃ stop,
    IsLUB {stop | EndsIn f.setting known f.record layout stop} stop ∧
      st.size = 8 * Bits.toBytesCeil stop := by
  have bounded : BddAbove {stop | EndsIn f.setting known f.record layout stop} := ⟨st.size, h.above⟩
  have lub := isLUB_csSup' bounded
  refine ⟨_, lub, (h.least _ (Nat.dvd_mul_right 8 _) fun stop ends => ?_).antisymm ?_⟩
  · exact (lub.1 ends).trans (le_toBytesCeil _)
  · exact toBytesCeil_le h.whole (lub.2 h.above)

/-- The pieces end within the size, the fields among them. -/
theorem Laid.field_le {front : Nat} (h : Laid f known g front pieces st) (sequential : f.IsSequential)
    (le : front ≤ st.dataSize) {k start bits : Nat} {field : Field}
    (found : f.declaration.fields[k]? = some field) (has : f.setting.HasBits known field bits)
    (placed : st.fieldOffsets[k]? = some start) : start + bits ≤ st.size := by
  have reached := h.reached sequential _ ((h.fields k start).mpr placed) rfl
  rw [Piece.stop, found, Option.elim_some, has.eq] at reached
  exact (reached.trans le).trans h.sized

theorem Laid.endsIn_field {front : Nat} (h : Laid f known g front pieces st)
    (offsets : layout.fieldOffsets = st.fieldOffsets)
    (count : st.fieldOffsets.length = f.declaration.fields.length) {k start : Nat}
    (member : Piece.field k start ∈ pieces) :
    EndsIn f.setting known f.record layout ((Piece.field k start).reach f known g) := by
  have placed := (h.fields k start).mp member
  obtain ⟨field, found⟩ : ∃ field, f.declaration.fields[k]? = some field :=
    ⟨_, List.getElem?_eq_getElem (count ▸ (List.getElem?_eq_some_iff.mp placed).1)⟩
  obtain ⟨bits, has⟩ : ∃ bits, f.setting.HasBits known field bits := by
    refine Setting.exists_hasBits fun stored => ?_
    obtain ⟨width, wide, _⟩ := h.stored k start member _ found stored
    exact ⟨width, wide⟩
  rw [Piece.reach, Piece.stop, found, Option.elim_some, has.eq]
  exact .field found has (offsets ▸ placed)

/-- After the last of the fields there are whole bytes, or nothing. -/
theorem Contents.last (h : Contents f known layout st) {used stop : Nat}
    (fields : IsLUB {stop | EndsBefore f.setting known f.record layout
      f.declaration.fields.length stop} used)
    (all : IsLUB {stop | EndsIn f.setting known f.record layout stop} stop) :
    used ≤ stop ∧ (8 ∣ stop ∨ stop = used) := by
  have le : used ≤ stop := fields.2 fun earlier ends => by
    obtain ⟨later, there, le⟩ := h.before _ earlier ends
    exact le.trans (all.1 there)
  have below : stop ≤ max used (8 * (stop / 8)) := all.2 fun earlier ends => by
    have reaches := all.1 ends
    have bytes (n : Nat) (same : earlier = 8 * n) : earlier ≤ max used (8 * (stop / 8)) := by lia
    cases ends with
    | pointer own => exact bytes _ rfl
    | base at' => exact bytes _ rfl
    | virtualBase at' => exact bytes _ rfl
    | field found has at' =>
      have bound := (List.getElem?_eq_some_iff.mp found).1
      exact (fields.1 (.field bound found has at')).trans (Nat.le_max_left _ _)
  exact ⟨le, by lia⟩

/-- Where there are only fields, nothing is placed after them. -/
theorem contents_le_fields {used stop : Nat} (asClass : layout.asClass = none)
    (fields : IsLUB {stop | EndsBefore f.setting known f.record layout
      f.declaration.fields.length stop} used)
    (all : IsLUB {stop | EndsIn f.setting known f.record layout stop} stop) : stop ≤ used :=
  all.2 fun stop ends => by
    obtain ⟨k, field, start, bits, found, has, at', rfl⟩ := ends.fieldEnds asClass
    exact fields.1 (.field (List.getElem?_eq_some_iff.mp found).1 found has at')

section Class

variable (built : ClassLaid f known own g pieces fixed st layout)
variable (laid : known.record f.record = .ok layout) (settled : Settled f.setting known f.record)
include built laid settled

theorem ClassLaid.contents (sequential : f.IsSequential)
    (pointer : layout.hasOwnVfptr = true ↔
      f.tree.isDynamic f.record = true ∧ layout.primaryBase? = none) :
    Contents f known layout st := by
  have progress := built.progress.laid
  constructor
  case whole => exact progress.whole sequential
  case above =>
    intro stop ends
    cases ends with
    | pointer own => exact (built.dynamic (pointer.mp own).1).1.trans built.grows
    | base at' =>
      obtain ⟨i, member, _, rfl⟩ :=
        (built.baseOffset?_iff laid).mp ((Known.baseOffset_eq_iff laid).mp at')
      exact progress.inside i _ member
    | virtualBase at' =>
      obtain ⟨i, x, p, o, member, inside, _, rfl, rfl⟩ :=
        (built.virtualBaseOffset?_iff laid).mp ((Known.virtualBaseOffset_eq_iff laid).mp at')
      have path := SoundBelow.inherits (built.charted.forest.below i (progress.rooted i x member).1)
      obtain ⟨_, _, reaches⟩ := settled.partAt_inside (p := .base i) built.charted.faithful path
        (progress.isClass i x member) inside
      have room := progress.inside i x member
      change o + f.setting.span known (g.node p).record ≤ f.setting.span known (g.node i).record
        at reaches
      omega
    | field found has at' =>
      rw [built.fieldOffsets] at at'
      exact progress.field_le sequential le_rfl found has at'
  case least =>
    intro bound whole above
    refine progress.tight sequential bound whole (fun dynamic => ?_) fun piece member => ?_
    · -- Without a table pointer of its own the class has that of its primary base, at the start.
      by_cases own : layout.hasOwnVfptr = true
      · exact above _ (.pointer own)
      obtain ⟨⟨b, isVirtual⟩, shared⟩ := Option.ne_none_iff_exists'.mp fun none =>
        own (pointer.mpr ⟨dynamic, none⟩)
      obtain ⟨plain, virtual⟩ := built.primary_at_start laid
      obtain ⟨_, choice⟩ := built.choice
      have chosen := built.primaryBase?_eq.symm.trans shared
      have reaches (room : 8 * (0 + f.setting.span known b) ≤ bound)
          (path : Relation.TransGen f.setting.Holds f.record b)
          (dynamic : f.tree.isDynamic b = true) : 8 * f.target.pointerWidth ≤ bound := by
        have fits : f.target.pointerWidth ≤ _ := settled.pointer_le_span path dynamic
        lia
      cases isVirtual with
      | false =>
        obtain ⟨edge, dynamic⟩ := choice.plain b chosen
        exact reaches (above _ (.base (plain b shared))) (.single edge.inherits.holds) dynamic
      | true =>
        obtain ⟨has, nearly⟩ := choice.virtual b chosen
        exact reaches (above _ (.virtualBase (virtual b shared)))
          (SoundBelow.inherits has.below) nearly.dynamic
    · cases piece with
      | base i x =>
        cases virt : (g.node i).isVirtual with
        | false =>
          exact above _ (.base ((Known.baseOffset_eq_iff laid).mpr
            ((built.baseOffset?_iff laid).mpr ⟨i, member, virt, rfl⟩)))
        | true =>
          exact above _ (.virtualBase ((Known.virtualBaseOffset_eq_iff laid).mpr
            ((built.virtualBaseOffset?_iff laid).mpr ⟨i, x, i, 0, member, .here _, virt, rfl, rfl⟩)))
      | field k start =>
        exact above _ (progress.endsIn_field built.fieldOffsets built.count member)

  case before =>
    intro index stop ends
    cases ends with
    | pointer own => exact ⟨_, .pointer own, le_rfl⟩
    | @primary v shared =>
      obtain ⟨_, choice⟩ := built.choice
      obtain ⟨has, nearly⟩ := choice.virtual v (built.primaryBase?_eq.symm.trans shared)
      have path := SoundBelow.inherits has.below
      have fits := (settled.sound v path).nonVirtual_le_span
        (isClass_of_isDynamic (settled.acyclic path) nearly.dynamic)
      refine ⟨_, .virtualBase ((built.primary_at_start laid).2 v shared), ?_⟩
      rw [Nat.zero_add]
      exact Nat.mul_le_mul_left 8 fits
    | base full at' =>
      refine ⟨_, .base at', ?_⟩
      rw [Setting.span, if_neg (by rw [full]; exact Bool.false_ne_true)]
    | field _ found has at' => exact ⟨_, .field found has at', le_rfl⟩

end Class

/-- A record that is no class has nothing but its fields. -/
theorem FieldsLaid.contents (h : FieldsLaid f known g [] added mid st)
    (count : st.fieldOffsets.length = f.declaration.fields.length)
    (offsets : layout.fieldOffsets = st.fieldOffsets) (asClass : layout.asClass = none)
    (acyclic : f.tree.Acyclic f.record) (plain : f.declaration.isClass = false)
    (sequential : f.IsSequential) : Contents f known layout st := by
  have progress := h.progress.laid
  constructor
  case whole => exact progress.whole sequential
  case above =>
    intro stop ends
    obtain ⟨k, field, start, bits, found, has, at', rfl⟩ := ends.fieldEnds asClass
    rw [offsets] at at'
    exact progress.field_le sequential (Nat.sub_le _ _) found has at'
  case least =>
    intro bound whole above
    refine progress.tight sequential bound whole (fun dynamic => ?_) fun piece member => ?_
    · exact absurd (plain.symm.trans (isClass_of_isDynamic acyclic dynamic)) Bool.false_ne_true
    · obtain ⟨k, start, rfl⟩ := h.fields piece member
      exact above _ (progress.endsIn_field offsets count member)
  case before =>
    intro index stop ends
    obtain ⟨k, _, field, start, bits, found, has, at', rfl⟩ := ends.fieldEnds asClass
    exact ⟨_, .field found has at', le_rfl⟩

end Itanium

end ObjectLayout
