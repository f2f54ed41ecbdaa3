import ObjectLayout.Proofs.Held
import ObjectLayout.Proofs.Microsoft.Powers
import ObjectLayout.Proofs.Session.Depth

/-! Computations that fail in their arithmetic alone. The layout of a type is one of them where nothing
at the bottom of the type stands in its way, as far as the layout of the record at the bottom is. -/
namespace ObjectLayout

open LayoutM (ends_bind ends_lift_bind typeLayoutOf)
open Quantity (isPowerOfTwo)

/-- A number has left the range of quantities at one of its ends. -/
def Fault.IsArithmetic (fault : Fault) : Prop := fault = .overflow ∨ fault = .underflow

/-- Nothing but the arithmetic keeps the computation from its value. -/
abbrev Arithmetic (outcome : Checked α) : Prop := Ends Fault.IsArithmetic outcome fun _ => True

namespace Arithmetic

theorem fit (n : Nat) : Arithmetic (Quantity.fit n) :=
  (OnlyOverflows.fit n).mono (fun _ => .inl) fun _ _ => id

theorem add (a b : Nat) : Arithmetic (Quantity.add a b) := fit _

theorem mul (a b : Nat) : Arithmetic (Quantity.mul a b) := fit _

theorem toBits (n : Bytes) : Arithmetic (Bytes.toBits n) := mul _ _

theorem sub (a b : Nat) : Arithmetic (Quantity.sub a b) := by
  unfold Quantity.sub
  split
  · trivial
  · exact .inr rfl

theorem alignTo (a : Nat) {b : Nat} (positive : 0 < b) : Arithmetic (Quantity.alignTo a b) := by
  unfold Quantity.alignTo
  rw [if_neg (Nat.pos_iff_ne_zero.mp positive)]
  exact fit _

theorem nextPowerOfTwo (n : Nat) : Arithmetic (Quantity.nextPowerOfTwo n) := by
  unfold Quantity.nextPowerOfTwo
  split
  · trivial
  · exact fit _

theorem mapValuesM {f : α → Checked β} (each : ∀ a, Arithmetic (f a)) (map : OrderedMap κ α) :
    Arithmetic (map.mapValuesM f) := by
  unfold OrderedMap.mapValuesM
  refine Ends.bind (Ends.mapM ?_ _) fun _ _ => trivial
  rintro ⟨key, value⟩
  exact Ends.bind (each value) fun _ _ => trivial

/-- Without subtractions below zero an overflow is all that is left. -/
theorem overflow {outcome : Checked α} (h : Arithmetic outcome) (above : outcome ≠ .error .underflow) :
    OnlyOverflows outcome := by
  cases outcome with
  | ok value => trivial
  | error fault => exact h.resolve_right fun below => above (congrArg _ below)

end Arithmetic

/-- Whether a record is one that can be laid out. -/
def Record.isComplete (record : Record) : Bool :=
  record.isDefined && !record.isInvalid && !record.isDependent

namespace Ty

/-- Whether the bottom of a type has no layout, however deep in arrays and under whatever names. -/
def isObstructed (tree : Tree) : Ty → Bool
  | .typedef _ _ _ inner _ | .elaborated _ inner | .array _ inner _ | .incompleteArray _ inner
  | .variableArray _ inner | .vector _ inner _ | .complex _ inner | .enumeration _ _ _ inner =>
    inner.isObstructed tree
  | .record _ r => !(tree.record r).isComplete
  | .openEnumeration .. | .dependentArray .. | .templateParam .. | .unresolved _ => true
  | _ => false

variable {type part : Ty} (member : part ∈ type.parts)
include member

theorem isObstructed_of_part (tree : Tree) : part.isObstructed tree = type.isObstructed tree := by
  cases type <;> simp_all [parts, isObstructed]

theorem enclosedRecord?_of_part : part.enclosedRecord? = type.enclosedRecord? := by
  cases type <;> simp_all [parts, enclosedRecord?]

theorem sizeOf_lt_of_part : sizeOf part < sizeOf type := by
  cases type <;> simp_all [parts] <;> omega

end Ty

namespace TypeLayout

theorem vector_arithmetic (element : TypeLayout) (count : Nat) : Arithmetic (vector element count) := by
  unfold vector
  refine Ends.bind (Arithmetic.mul _ _) fun width _ => ?_
  refine Ends.bind (Arithmetic.nextPowerOfTwo width).remember fun alignment found => ?_
  have positive := Quantity.pos_of_isPowerOfTwo (Quantity.nextPowerOfTwo_isPowerOfTwo found.1)
  exact Ends.bind (Arithmetic.alignTo width positive) fun _ _ => trivial

theorem memberPointer_arithmetic (s : Setting) (pointee owner : Ty) :
    Arithmetic (memberPointer s pointee owner) := by
  unfold memberPointer
  dsimp only
  split
  · trivial
  · unfold microsoftMemberPointer
    refine Ends.bind (Arithmetic.add _ _) fun width _ => ?_
    have positive : 0 < (if pointee.canonical.isFunction then s.target.pointerLayout.alignment
        else s.target.intLayout.alignment) := by
      split
      · exact Quantity.pos_of_isPowerOfTwo s.target.pointerWidth_isPowerOfTwo
      · exact Nat.succ_pos 3
    dsimp only
    split
    · exact Ends.bind (Arithmetic.alignTo _ positive) fun _ _ => trivial
    · trivial

variable {s : Setting} {known : Known} {type : Ty}

/-- Everything but the record at the bottom has a layout as soon as its parts have one. -/
theorem ofTy_arithmetic (free : type.isObstructed s.tree = false)
    (record : ∀ m, type.enclosedRecord? = some m → Arithmetic (known.record m))
    (parts : ∀ part ∈ type.parts, Arithmetic (known.type part)) :
    Arithmetic ((ofTy s type).eval known) := by
  have part (part : Ty) (member : part ∈ type.parts) :
      Arithmetic ((typeLayoutOf part).eval known) := by
    rw [LayoutM.eval_typeLayoutOf]
    exact parts part member
  unfold ofTy
  cases type with
  | scalar | pointer | blockPointer | lvalueReference | rvalueReference | function => trivial
  | memberPointer id pointee owner =>
    rw [LayoutM.eval_lift]
    exact memberPointer_arithmetic s pointee owner
  | array id element count | complex id element =>
    refine ends_bind (part element (List.mem_singleton_self _)) fun layout _ => ?_
    exact ends_lift_bind (Arithmetic.mul _ _) fun _ _ => trivial
  | incompleteArray id element | variableArray id element =>
    exact ends_bind (part element (List.mem_singleton_self _)) fun _ _ => trivial
  | vector id element count =>
    refine ends_bind (part element (List.mem_singleton_self _)) fun layout _ => ?_
    rw [LayoutM.eval_lift]
    exact vector_arithmetic layout count
  | record id m =>
    refine ends_bind (G := fun _ => True) ?_ fun _ _ => trivial
    rw [LayoutM.eval_layoutOf]
    exact record m rfl
  | enumeration id declaration name underlying => exact part underlying (List.mem_singleton_self _)
  | typedef id declaration name aliased alignment =>
    exact ends_bind (part aliased (List.mem_singleton_self _)) fun _ _ => trivial
  | elaborated id inner => exact part inner (List.mem_singleton_self _)
  | openEnumeration | dependentArray | templateParam | unresolved => cases free

end TypeLayout

/-- A complete record has a layout if the rules arrive at one. -/
theorem RecordLayout.ofRecord_arithmetic {s : Setting} {known : Known} {r : RecordId}
    (complete : (s.tree.record r).isComplete = true)
    (rules : Arithmetic ((byRules s r).eval known)) : Arithmetic ((ofRecord s r).eval known) := by
  have passes : ensureComplete (s.tree.record r) = .ok () := by
    simp only [Record.isComplete, Bool.and_eq_true] at complete
    obtain ⟨⟨isDefined, valid⟩, plain⟩ := complete
    rw [ensureComplete, isDefined, valid, plain]
    rfl
  unfold ofRecord
  rw [LayoutM.eval_lift_bind passes]
  exact ends_bind (G := fun _ => True) trivial fun _ _ => ends_bind rules fun _ _ => trivial

/-- An integer is as wide as a power of two. -/
theorem Target.scalarLayout_width_power (target : Target) {scalar : Scalar}
    (integer : scalar.isInteger = true) : isPowerOfTwo (target.scalarLayout scalar).width = true := by
  cases scalar with
  | wideChar =>
    change isPowerOfTwo (if _ then 2 else 4) = true
    split <;> decide
  | integer rank sign =>
    cases rank with
    | long =>
      change isPowerOfTwo (if _ then 4 else 8) = true
      split <;> decide
    | longLong =>
      change isPowerOfTwo target.eightByteLayout.width = true
      unfold Target.eightByteLayout
      split <;> decide
    | char => exact Quantity.isPowerOfTwo_pow 0
    | short => exact Quantity.isPowerOfTwo_pow 1
    | int => exact Quantity.isPowerOfTwo_pow 2
  | bool | plainChar => exact Quantity.isPowerOfTwo_pow 0
  | char16 => exact Quantity.isPowerOfTwo_pow 1
  | char32 => exact Quantity.isPowerOfTwo_pow 2
  | int128 => exact Quantity.isPowerOfTwo_pow 4
  | void | float | nullPointer => cases integer

section Types

variable {s : Setting} {types : List Ty}

/-- By recursion down the type, which ends at a record or at something that needs no other layout. -/
theorem Setting.type_arithmetic (catalog : s.tree.Catalog types) {type : Ty} (listed : type ∈ types)
    (free : type.isObstructed s.tree = false)
    (record : ∀ m, type.enclosedRecord? = some m → Arithmetic ((s.known s.depth).record m)) :
    Arithmetic ((s.known s.depth).type type) := by
  rw [(Setting.known_agrees_depth catalog).type type listed]
  refine TypeLayout.ofTy_arithmetic free record fun part member => ?_
  have same := Ty.enclosedRecord?_of_part member
  exact type_arithmetic catalog (catalog.parts type listed part member)
    ((Ty.isObstructed_of_part member s.tree).trans free) (same ▸ record)
termination_by sizeOf type
decreasing_by exact Ty.sizeOf_lt_of_part member

/-- So is an integer type under whatever names, or an enumeration. -/
theorem Setting.type_width_power {type : Ty} {layout : TypeLayout} {depth : Nat}
    (integer : type.isInteger = true) (laid : (s.known depth).type type = .ok layout) :
    isPowerOfTwo layout.width = true := by
  induction depth generalizing type layout with
  | zero => cases laid
  | succ depth ih =>
    have rules : (TypeLayout.ofTy s type).eval (s.known depth) = .ok layout := laid
    cases type with
    | scalar id scalar =>
      cases rules
      exact s.target.scalarLayout_width_power integer
    | enumeration id declaration name inner | elaborated id inner =>
      unfold TypeLayout.ofTy at rules
      rw [LayoutM.eval_typeLayoutOf] at rules
      exact @ih inner layout integer rules
    | typedef id declaration name aliased alignment =>
      obtain ⟨inner, asked, same⟩ := LayoutM.eval_bind_eq_ok.mp rules
      rw [LayoutM.eval_typeLayoutOf] at asked
      cases same
      have power := @ih aliased inner integer asked
      cases alignment <;> exact power
    | openEnumeration => cases rules
    | _ => cases integer

end Types

end ObjectLayout
