import ObjectLayout.Proofs.Confined
import ObjectLayout.Proofs.Outcome
import ObjectLayout.Subobject.EmptyMap

/-! Computations that never subtract more than there is. Sums, products and rounding up can leave the
range of quantities at its upper end alone; as long as a computation does nothing else, it keeps away
from the lower end whatever it is told about other records. -/
namespace ObjectLayout

/-- The outcome is not that of a subtraction below zero. -/
abbrev NoUnderflow (outcome : Checked α) : Prop := Ends (· ≠ .underflow) outcome fun _ => True

namespace NoUnderflow

variable {x : Checked α} {next : α → Checked β} {good : α → Prop}

theorem iff_ne : NoUnderflow x ↔ x ≠ .error .underflow := by
  cases x <;> simp [NoUnderflow, Ends]

@[simp] theorem ok (value : α) : NoUnderflow (.ok value) := trivial

@[simp] theorem pure (value : α) : NoUnderflow (pure value : Checked α) := trivial

@[simp] theorem error_iff {fault : Fault} :
    NoUnderflow (.error fault : Checked α) ↔ fault ≠ .underflow := Iff.rfl

@[simp] theorem throw_iff {fault : Fault} :
    NoUnderflow (throw fault : Checked α) ↔ fault ≠ .underflow := Iff.rfl

@[simp] theorem bind_iff :
    NoUnderflow (x >>= next) ↔ NoUnderflow x ∧ ∀ value, x = .ok value → NoUnderflow (next value) := by
  cases x <;> simp [NoUnderflow, Ends, bind, Except.bind]

@[simp] theorem ite_iff {c : Prop} [Decidable c] {y : Checked α} :
    NoUnderflow (if c then x else y) ↔ (c → NoUnderflow x) ∧ (¬ c → NoUnderflow y) := by
  split <;> simp_all

@[simp] theorem map_iff {f : α → β} : NoUnderflow (f <$> x) ↔ NoUnderflow x := by
  cases x <;> rfl

/-- What is known of values holds of those of a computation that never goes below zero. -/
theorem and (h : NoUnderflow x) (values : Ends (fun _ => True) x good) :
    Ends (· ≠ .underflow) x good := (Ends.and h values).imp fun _ => And.right

@[simp] theorem foldlM {step : β → α → Checked β} {xs : List α}
    (each : ∀ a ∈ xs, ∀ state, NoUnderflow (step state a)) (start : β) :
    NoUnderflow (xs.foldlM step start) :=
  Ends.foldlM_keeps trivial fun a member state _ => each a member state

@[simp] theorem allM {test : α → Checked Bool} {xs : List α}
    (each : ∀ a ∈ xs, NoUnderflow (test a)) : NoUnderflow (xs.allM test) := by
  induction xs with
  | nil => trivial
  | cons a rest ih =>
    simp only [List.allM, bind_iff]
    refine ⟨each a (by simp), fun fits _ => ?_⟩
    cases fits <;> simp_all

@[simp] theorem mapM {f : α → Checked β} (each : ∀ a, NoUnderflow (f a)) (xs : List α) :
    NoUnderflow (xs.mapM f) := Ends.mapM each xs

@[simp] theorem ensure (condition : Bool) (cause : Breach) :
    NoUnderflow (ensure condition cause : Checked Unit) := by
  cases condition <;> simp [ObjectLayout.ensure]

@[simp] theorem fit (n : Nat) : NoUnderflow (Quantity.fit n) := by
  simp [Quantity.fit]

@[simp] theorem add (a b : Nat) : NoUnderflow (Quantity.add a b) := fit _

@[simp] theorem mul (a b : Nat) : NoUnderflow (Quantity.mul a b) := fit _

@[simp] theorem toBits (n : Bytes) : NoUnderflow (Bytes.toBits n) := mul _ _

@[simp] theorem alignTo (a b : Nat) : NoUnderflow (Quantity.alignTo a b) := by
  simp [Quantity.alignTo]

@[simp] theorem nextPowerOfTwo (n : Nat) : NoUnderflow (Quantity.nextPowerOfTwo n) := by
  simp [Quantity.nextPowerOfTwo]

/-- A subtraction stays above zero where there is enough. -/
@[simp] theorem sub_iff {a b : Nat} : NoUnderflow (Quantity.sub a b) ↔ b ≤ a := by
  simp [Quantity.sub]

section Layouts

variable (layout : RecordLayout) (r : RecordId)

@[simp] theorem classLayout : NoUnderflow layout.classLayout := by
  unfold RecordLayout.classLayout
  split <;> simp

@[simp] theorem nonVirtualSize : NoUnderflow layout.nonVirtualSize := map_iff.mpr (classLayout layout)

@[simp] theorem nonVirtualAlignment : NoUnderflow layout.nonVirtualAlignment :=
  map_iff.mpr (classLayout layout)

@[simp] theorem baseOffset : NoUnderflow (layout.baseOffset r) := by
  simp only [RecordLayout.baseOffset, bind_iff, classLayout, true_and]
  intro tables _
  split <;> simp

@[simp] theorem virtualBaseSlot : NoUnderflow (layout.virtualBaseSlot r) := by
  simp only [RecordLayout.virtualBaseSlot, bind_iff, classLayout, true_and]
  intro tables _
  split <;> simp

@[simp] theorem virtualBaseOffset : NoUnderflow (layout.virtualBaseOffset r) :=
  map_iff.mpr (virtualBaseSlot layout r)

@[simp] theorem fieldOffset (index : Nat) : NoUnderflow (layout.fieldOffset index) := by
  unfold RecordLayout.fieldOffset
  split <;> simp

theorem storedField {s : Setting} {r : RecordId} {part : Ty × Checked Bytes}
    (member : part ∈ EmptyMap.storedFields s r layout) : NoUnderflow part.2 := by
  obtain ⟨⟨field, index⟩, _, same⟩ := List.mem_filterMap.mp member
  dsimp only at same
  split at same
  · cases same
  · obtain rfl := Option.some.inj same
    exact map_iff.mpr (fieldOffset layout index)

@[simp] theorem within {offset : Bytes} {inner : Checked Bytes} :
    NoUnderflow (EmptyMap.within offset inner) ↔ NoUnderflow inner := by
  simp [EmptyMap.within]

end Layouts

end NoUnderflow

namespace LayoutM

@[simp] theorem eval_ite {known : Known} {c : Prop} [Decidable c] (x y : LayoutM α) :
    (if c then x else y).eval known = if c then x.eval known else y.eval known := by
  split <;> rfl

@[simp] theorem eval_endless {known : Known} : (endless : LayoutM α).eval known = .error .endless := rfl

@[simp] theorem eval_answered {known : Known} (question : Placement) (isFree : Bool) :
    (answered question isFree).eval known = .ok () := rfl

theorem noUnderflow_bind {known : Known} {x : LayoutM α} {next : α → LayoutM β}
    (first : NoUnderflow (x.eval known)) (rest : ∀ value, NoUnderflow ((next value).eval known)) :
    NoUnderflow ((x >>= next).eval known) :=
  ends_bind first fun value _ => rest value

end LayoutM

/-- None of the layouts that are known failed in a subtraction. -/
structure Known.NoUnderflow (known : Known) : Prop where
  record : ∀ r, ObjectLayout.NoUnderflow (known.record r)
  type : ∀ type, ObjectLayout.NoUnderflow (known.type type)

attribute [simp] Known.NoUnderflow.record Known.NoUnderflow.type

section Lookups

attribute [local simp] LayoutM.eval_bind LayoutM.eval_map LayoutM.eval_foldlM LayoutM.eval_allM

variable {s : Setting} {known : Known} {map : EmptyMap} {graph : SubobjectGraph}
variable (h : known.NoUnderflow)
include h

namespace SubobjectGraph

omit h in
@[simp] theorem claimLate_noUnderflow (i : SubobjectId) (primary : Option RecordId) :
    NoUnderflow (graph.claimLate i primary) := by
  unfold claimLate
  repeat' split <;> simp

@[simp] theorem visit_noUnderflow (r : RecordId) (isVirtual : Bool) (graph : SubobjectGraph) :
    NoUnderflow ((visit s r isVirtual graph).eval known) := by
  refine descendWithin_keeps (K := fun visit : Bool → SubobjectGraph → LayoutM _ =>
    ∀ isVirtual graph, NoUnderflow ((visit isVirtual graph).eval known)) ?_ ?_ _ r isVirtual graph
  · simp
  · intro visit below r isVirtual graph
    dsimp only
    split <;> simp [h, below]

theorem ofClass_noUnderflow (r : RecordId) : NoUnderflow ((ofClass s r).eval known) := by
  simp [ofClass, h]

end SubobjectGraph

namespace EmptyMap

omit h in
theorem elementsFit_noUnderflow {fits : Bytes → LayoutM Bool}
    (each : ∀ offset, NoUnderflow ((fits offset).eval known)) (size : Bytes) (count : Nat)
    (offset : Bytes) : NoUnderflow ((elementsFit map fits size count offset).eval known) := by
  induction count generalizing offset with
  | zero => simp [elementsFit]
  | succ count ih => simp [elementsFit, each, ih]

omit h in
theorem recordElements_noUnderflow {update : Bytes → EmptyMap → LayoutM EmptyMap}
    (each : ∀ offset map, NoUnderflow ((update offset map).eval known)) (size : Bytes) (count : Nat)
    (offset : Bytes) (map : EmptyMap) :
    NoUnderflow ((recordElements update size count offset map).eval known) := by
  induction count generalizing offset map with
  | zero => simp [recordElements]
  | succ count ih => simp [recordElements, each, ih]

omit h in
@[simp] theorem arrayOfRecords_noUnderflow (type : Ty) : NoUnderflow (map.arrayOfRecords type) := by
  unfold arrayOfRecords count
  split
  · simp
  · split <;> simp

theorem fieldTypeFits_noUnderflow {fits : RecordId → Bytes → LayoutM Bool}
    (each : ∀ r offset, NoUnderflow ((fits r offset).eval known)) (type : Ty) (offset : Bytes) :
    NoUnderflow ((map.fieldTypeFits fits type offset).eval known) := by
  unfold fieldTypeFits
  cases named : type.asRecord? with
  | some r => simp [each]
  | none =>
    simp only [LayoutM.eval_ite, LayoutM.eval_bind, LayoutM.eval_lift, NoUnderflow.ite_iff,
      NoUnderflow.bind_iff]
    refine ⟨fun _ => by simp, fun _ => ⟨by simp, fun found _ => ?_⟩⟩
    rcases found with _ | ⟨r, count⟩
    · simp
    · simp [h, elementsFit_noUnderflow (each r)]

theorem recordFieldType_noUnderflow {update : RecordId → Bytes → EmptyMap → LayoutM EmptyMap}
    (each : ∀ r offset map, NoUnderflow ((update r offset map).eval known)) (type : Ty)
    (offset : Bytes) (map : EmptyMap) :
    NoUnderflow ((recordFieldType update type offset map).eval known) := by
  unfold recordFieldType
  cases named : type.asRecord? with
  | some r => simp [each]
  | none =>
    simp only [LayoutM.eval_bind, LayoutM.eval_lift, NoUnderflow.bind_iff]
    refine ⟨by simp, fun found _ => ?_⟩
    rcases found with _ | ⟨r, count⟩
    · simp
    · simp [h, recordElements_noUnderflow (each r)]

theorem recordFits_noUnderflow (r : RecordId) (isComplete : Bool) (offset : Bytes) :
    NoUnderflow ((recordFits s map r isComplete offset).eval known) := by
  refine descendWithin_keeps (K := fun fits : Bool → Bytes → LayoutM Bool =>
    ∀ isComplete offset, NoUnderflow ((fits isComplete offset).eval known)) ?_ ?_ _ r isComplete offset
  · simp
  · intro fits below r isComplete offset
    have field (type : Ty) (offset : Bytes) :
        NoUnderflow ((map.fieldTypeFits (fits · true) type offset).eval known) :=
      fieldTypeFits_noUnderflow h (fun r => below r true) type offset
    have fields (layout : RecordLayout) : NoUnderflow ((storedFields s r layout).allM fun part => do
        let offset ← within offset part.2
        (map.fieldTypeFits (fits · true) part.1 offset).eval known) :=
      .allM fun part member => by simp [NoUnderflow.storedField layout member, field]
    simp [h, below, fields]

theorem recordWhole_noUnderflow (r : RecordId) (isComplete : Bool) (offset : Bytes)
    (map : EmptyMap) : NoUnderflow ((recordWhole s r isComplete offset map).eval known) := by
  refine descendWithin_keeps (K := fun record : Bool → Bytes → EmptyMap → LayoutM EmptyMap =>
    ∀ isComplete offset map, NoUnderflow ((record isComplete offset map).eval known)) ?_ ?_ _ r
    isComplete offset map
  · simp
  · intro record below r isComplete offset map
    have field (type : Ty) (offset : Bytes) (map : EmptyMap) :
        NoUnderflow ((recordFieldType (record · true) type offset map).eval known) :=
      recordFieldType_noUnderflow h (fun r => below r true) type offset map
    have fields (layout : RecordLayout) (map : EmptyMap) : NoUnderflow
        ((storedFields s r layout).foldlM (fun map part => do
          let offset ← within offset part.2
          (recordFieldType (record · true) part.1 offset map).eval known) map) :=
      .foldlM (fun part member map => by simp [NoUnderflow.storedField layout member, field]) map
    simp [h, below, fields]

theorem fieldFits_noUnderflow (type : Ty) (offset : Bytes) :
    NoUnderflow ((fieldFits s map type offset).eval known) :=
  fieldTypeFits_noUnderflow h (fun r => recordFits_noUnderflow h r true) type offset

theorem recordField_noUnderflow (type : Ty) (offset : Bytes) (map : EmptyMap) :
    NoUnderflow ((recordField s type offset map).eval known) :=
  recordFieldType_noUnderflow h (fun r => recordWhole_noUnderflow h r true) type offset map

theorem baseFits_noUnderflow (i : SubobjectId) (offset : Bytes) :
    NoUnderflow ((baseFits s graph map i offset).eval known) := by
  refine descendWithin_keeps (K := fun fits : Bytes → LayoutM Bool =>
    ∀ offset, NoUnderflow ((fits offset).eval known)) ?_ ?_ _ i offset
  · simp
  · intro fits below i offset
    have fields (layout : RecordLayout) : NoUnderflow
        ((storedFields s (graph.node i).record layout).allM fun part => do
          let offset ← within offset part.2
          (fieldFits s map part.1 offset).eval known) :=
      .allM fun part member => by
        simp [NoUnderflow.storedField layout member, fieldFits_noUnderflow h]
    simp [h, below, fields]

theorem recordBase_noUnderflow (isEmptyBase : Bool) (i : SubobjectId) (offset : Bytes)
    (map : EmptyMap) : NoUnderflow ((recordBase s graph isEmptyBase i offset map).eval known) := by
  refine descendWithin_keeps (K := fun record : Bytes → EmptyMap → LayoutM EmptyMap =>
    ∀ offset map, NoUnderflow ((record offset map).eval known)) ?_ ?_ _ i offset map
  · simp
  · intro record below i offset map
    have fields (layout : RecordLayout) (map : EmptyMap) : NoUnderflow
        ((storedFields s (graph.node i).record layout).foldlM (fun map part => do
          let offset ← within offset part.2
          (recordField s part.1 offset map).eval known) map) :=
      .foldlM (fun part member map => by
        simp [NoUnderflow.storedField layout member, recordField_noUnderflow h]) map
    cases graph.claimedPrimary? i <;> simp [h, below, fields]

theorem placeBase?_noUnderflow (i : SubobjectId) (offset : Bytes) :
    NoUnderflow ((placeBase? s graph map i offset).eval known) := by
  simp [placeBase?, baseFits_noUnderflow h, recordBase_noUnderflow h]

theorem placeField?_noUnderflow (type : Ty) (offset : Bytes) :
    NoUnderflow ((placeField? s map type offset).eval known) := by
  simp [placeField?, fieldFits_noUnderflow h, recordField_noUnderflow h]

theorem ofClass_noUnderflow (tracking : Tracking) (r : RecordId) :
    NoUnderflow ((ofClass s tracking r).eval known) := by
  simp [ofClass, h]

end EmptyMap

end Lookups

end ObjectLayout
