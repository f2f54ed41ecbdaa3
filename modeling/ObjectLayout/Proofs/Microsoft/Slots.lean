import Mathlib.Order.CompletePartialOrder
import Mathlib.Order.Interval.Set.Disjoint
import ObjectLayout.Microsoft.State

/-! The slots of an object under the Microsoft rules: stretches of bits, each of which belongs to one
part of the object. In a chain of slots everything lies past what comes before it. -/
namespace ObjectLayout.Microsoft

/-- What an object is made of. -/
inductive Part where
  | vfptr
  | vbptr
  | base (record : RecordId)
  | field (index : Nat)
  /-- The displacement before a virtual base. -/
  | vtordisp (record : RecordId)
  | virtualBase (record : RecordId)
  deriving DecidableEq

/-- The part is in every object of the class, also where it is a base of another. -/
def Part.isNonVirtual : Part → Bool
  | .vfptr | .vbptr | .base _ | .field _ => true
  | .vtordisp _ | .virtualBase _ => false

structure Slot where
  part : Part
  start : Nat
  stop : Nat

namespace Slot

/-- The slot of whole bytes that start at an offset. -/
def ofBytes (part : Part) (offset size : Nat) : Slot := ⟨part, 8 * offset, 8 * (offset + size)⟩

def shift (distance : Nat) (slot : Slot) : Slot :=
  ⟨slot.part, slot.start + distance, slot.stop + distance⟩

def bits (slot : Slot) : Set Nat := Set.Ico slot.start slot.stop

theorem shift_ofBytes (part : Part) (offset size distance : Nat) :
    (ofBytes part offset size).shift (8 * distance) = ofBytes part (offset + distance) size := by
  simp only [shift, ofBytes, mk.injEq, true_and]
  omega

theorem disjoint_of_le {slot slot' : Slot} (past : slot.stop ≤ slot'.start) :
    Disjoint slot.bits slot'.bits :=
  Set.Ico_disjoint_Ico.mpr ((min_le_left _ _).trans (past.trans (le_max_right _ _)))

end Slot

/-- Slots between two bounds, each past the one before it. -/
inductive Chain : Nat → List Slot → Nat → Prop
  | nil {low high : Nat} (le : low ≤ high) : Chain low [] high
  | cons {low high : Nat} {slot : Slot} {slots : List Slot} (past : low ≤ slot.start)
      (ends : slot.start ≤ slot.stop) (rest : Chain slot.stop slots high) :
      Chain low (slot :: slots) high

namespace Chain

variable {low low' middle high high' distance : Nat} {slot slot' : Slot} {slots slots' : List Slot}

theorem single (past : low ≤ slot.start) (ends : slot.start ≤ slot.stop) (le : slot.stop ≤ high) :
    Chain low [slot] high :=
  .cons past ends (.nil le)

theorem le (h : Chain low slots high) : low ≤ high := by
  induction h with
  | nil le => exact le
  | cons past ends _ ih => omega

theorem lower (h : Chain low slots high) (le : low' ≤ low) : Chain low' slots high := by
  cases h with
  | nil inside => exact .nil (le.trans inside)
  | cons past ends rest => exact .cons (le.trans past) ends rest

theorem append (h : Chain low slots middle) (h' : Chain middle slots' high) :
    Chain low (slots ++ slots') high := by
  induction h with
  | nil le => exact h'.lower le
  | cons past ends _ ih => exact .cons past ends (ih h')

theorem raise (h : Chain low slots high) (le : high ≤ high') : Chain low slots high' := by
  have := h.append (.nil le)
  rwa [List.append_nil] at this

theorem shift (h : Chain low slots high) (distance : Nat) :
    Chain (low + distance) (slots.map (·.shift distance)) (high + distance) := by
  induction h with
  | nil le => exact .nil (Nat.add_le_add_right le distance)
  | cons past ends _ ih =>
    exact .cons (Nat.add_le_add_right past distance) (Nat.add_le_add_right ends distance) ih

theorem inside (h : Chain low slots high) :
    ∀ slot ∈ slots, low ≤ slot.start ∧ slot.start ≤ slot.stop ∧ slot.stop ≤ high := by
  induction h with
  | nil => exact fun _ member => nomatch member
  | cons past ends rest ih =>
    intro slot member
    rcases List.mem_cons.mp member with rfl | member
    · exact ⟨past, ends, rest.le⟩
    · have := ih slot member
      omega

/-- Slots of different parts share no bit. -/
theorem disjoint (h : Chain low slots high) (member : slot ∈ slots) (member' : slot' ∈ slots)
    (differ : slot.part ≠ slot'.part) : Disjoint slot.bits slot'.bits := by
  induction h with
  | nil => cases member
  | @cons _ _ first _ past ends rest ih =>
    rcases List.mem_cons.mp member with rfl | later <;>
      rcases List.mem_cons.mp member' with rfl | later'
    · exact absurd rfl differ
    · exact Slot.disjoint_of_le (rest.inside slot' later').1
    · exact (Slot.disjoint_of_le (rest.inside slot later).1).symm
    · exact ih later later'

end Chain

end ObjectLayout.Microsoft
