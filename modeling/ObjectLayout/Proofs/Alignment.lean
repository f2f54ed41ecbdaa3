import Mathlib.Algebra.Group.Nat.Defs
import Mathlib.Order.Bounds.Basic
import ObjectLayout.Proofs.Knowledge

/-! Alignments that are powers of two. Rules that raise, clamp and merge alignments never leave the
powers of two if none was asked for outside them, and a type whose parts are as wide as a multiple of
their alignment is so too. -/
namespace ObjectLayout

namespace Quantity

variable {m n : Nat}

theorem roundUp_isLeast (positive : 0 < n) : IsLeast {p | m ≤ p ∧ n ∣ p} (roundUp m n) :=
  ⟨⟨le_roundUp positive, dvd_roundUp m n⟩, fun _ later => roundUp_le positive later.1 later.2⟩

/-- To round up to more leaves a number where it is just if that is a multiple already. -/
theorem roundUp_eq_iff {a b : Nat} (positive : 0 < a) (le : a ≤ b) :
    roundUp n a = roundUp n b ↔ b ∣ roundUp n a := by
  refine ⟨fun same => same ▸ dvd_roundUp n b, fun whole => ?_⟩
  have lower := roundUp_le (positive.trans_le le) (le_roundUp positive) whole
  have upper : n ≤ roundUp n b := le_roundUp (positive.trans_le le)
  have near : roundUp n a ≤ n + a - 1 := Nat.div_mul_le_self _ _
  have gap : roundUp n a - roundUp n b = 0 :=
    Nat.eq_zero_of_dvd_of_lt (Nat.dvd_sub whole (dvd_roundUp n b)) (by omega)
  omega

/-- Where the roundings to the least and to the greatest of three alignments agree, so does that to
the one between. -/
theorem roundUp_between {a b c : Nat} (ha : 0 < a) (hb : 0 < b) (hc : 0 < c) (first : a ∣ b)
    (second : b ∣ c) (same : roundUp n a = roundUp n c) : roundUp n b = roundUp n a := by
  apply Nat.le_antisymm
  · rw [same]
    exact roundUp_le hb (le_roundUp hc) (Nat.dvd_trans second (dvd_roundUp _ _))
  · exact roundUp_le ha (le_roundUp hb) (Nat.dvd_trans first (dvd_roundUp _ _))

theorem pos_of_isPowerOfTwo (h : isPowerOfTwo n = true) : 0 < n := by
  simp only [isPowerOfTwo, Bool.and_eq_true, bne_iff_ne] at h
  omega

theorem isPowerOfTwo_pow (exponent : Nat) : isPowerOfTwo (2 ^ exponent) = true := by
  rw [isPowerOfTwo, Nat.log2_two_pow, Bool.and_eq_true, bne_iff_ne]
  exact ⟨Nat.ne_of_gt (Nat.two_pow_pos exponent), beq_iff_eq.mpr rfl⟩

theorem exists_pow_of_isPowerOfTwo (h : isPowerOfTwo n = true) : ∃ k, n = 2 ^ k := by
  simp only [isPowerOfTwo, Bool.and_eq_true, beq_iff_eq] at h
  exact ⟨_, h.2⟩

theorem isPowerOfTwo_bits (h : isPowerOfTwo n = true) : isPowerOfTwo (8 * n) = true := by
  obtain ⟨k, rfl⟩ := exists_pow_of_isPowerOfTwo h
  rw [show 8 * 2 ^ k = 2 ^ (k + 3) by rw [Nat.pow_add, Nat.mul_comm]]
  exact isPowerOfTwo_pow (k + 3)

/-- Of two powers of two the smaller one divides the larger. -/
theorem dvd_of_isPowerOfTwo (hm : isPowerOfTwo m = true) (hn : isPowerOfTwo n = true) (le : m ≤ n) :
    m ∣ n := by
  obtain ⟨k, rfl⟩ := exists_pow_of_isPowerOfTwo hm
  obtain ⟨l, rfl⟩ := exists_pow_of_isPowerOfTwo hn
  exact Nat.pow_dvd_pow 2 ((Nat.pow_le_pow_iff_right (by decide)).mp le)

/-- A power of two that is rounded up to another one stays a multiple of itself. -/
theorem dvd_roundUp_self (hm : isPowerOfTwo m = true) (hn : isPowerOfTwo n = true) :
    m ∣ roundUp m n := by
  have positive := pos_of_isPowerOfTwo hn
  rcases Nat.le_total n m with le | le
  · have same : roundUp m n = m :=
      Nat.le_antisymm (roundUp_le positive (Nat.le_refl m) (dvd_of_isPowerOfTwo hn hm le)) (le_roundUp positive)
    exact ⟨1, by rw [same, Nat.mul_one]⟩
  · exact Nat.dvd_trans (dvd_of_isPowerOfTwo hm hn le) (dvd_roundUp m n)

theorem isPowerOfTwo_max (hm : isPowerOfTwo m = true) (hn : m < n → isPowerOfTwo n = true) :
    isPowerOfTwo (max m n) = true := by
  rcases Nat.lt_or_ge m n with less | le
  · rw [Nat.max_eq_right (Nat.le_of_lt less)]
    exact hn less
  · rwa [Nat.max_eq_left le]

theorem nextPowerOfTwo_isPowerOfTwo (h : nextPowerOfTwo n = .ok m) : isPowerOfTwo m = true := by
  unfold nextPowerOfTwo fit at h
  split at h
  · cases h
    exact isPowerOfTwo_pow 0
  · split at h
    · cases h
      exact isPowerOfTwo_pow _
    · cases h

/-- A power of two, or zero for nothing that was asked for. -/
def IsPowerOrZero (n : Nat) : Prop := n = 0 ∨ isPowerOfTwo n = true

theorem IsPowerOrZero.max (hm : IsPowerOrZero m) (hn : IsPowerOrZero n) :
    IsPowerOrZero (max m n) := by
  rcases Nat.le_total m n with le | le
  · rwa [Nat.max_eq_right le]
  · rwa [Nat.max_eq_left le]

theorem IsPowerOrZero.getD {asked : Option Nat} (h : ∀ n ∈ asked, isPowerOfTwo n = true) :
    IsPowerOrZero (asked.getD 0) := by
  cases asked with
  | none => exact .inl rfl
  | some n => exact .inr (h n rfl)

/-- Nothing but a power of two counts in a maximum with one. -/
theorem isPowerOfTwo_max_right (hm : isPowerOfTwo m = true) (hn : IsPowerOrZero n) :
    isPowerOfTwo (Max.max m n) = true :=
  isPowerOfTwo_max hm fun less => hn.resolve_left (Nat.ne_zero_of_lt less)

/-- An alignment under a maximum, where zero stands for no maximum. -/
theorem isPowerOfTwo_min {most : Nat} (hm : IsPowerOrZero most) (hn : isPowerOfTwo n = true) :
    isPowerOfTwo (if most = 0 then n else min n most) = true := by
  split
  · exact hn
  · rename_i some
    rcases Nat.le_total n most with le | le
    · rwa [Nat.min_eq_left le]
    · rw [Nat.min_eq_right le]
      exact hm.resolve_left some

end Quantity

open Quantity (isPowerOfTwo IsPowerOrZero)

/-- Nothing in the type replaces the alignment that it has by its nature: no typedef that its layout
goes through has an alignment of its own. -/
def Ty.keepsAlignment : Ty → Bool
  | .typedef _ _ _ aliased alignment => alignment.isNone && aliased.keepsAlignment
  | .elaborated _ inner | .array _ inner _ | .incompleteArray _ inner | .variableArray _ inner
  | .vector _ inner _ | .complex _ inner | .enumeration _ _ _ inner => inner.keepsAlignment
  | _ => true

/-- The record that an object of the type is made of copies of. -/
def Ty.copiedRecord? : Ty → Option RecordId
  | .typedef _ _ _ inner _ | .elaborated _ inner | .array _ inner _ | .complex _ inner
  | .enumeration _ _ _ inner => inner.copiedRecord?
  | .record _ r => some r
  | _ => none

/-- Every alignment that a record asks for is a power of two, and no typedef among the types of its
fields asks for any. -/
structure Record.AsksForPowers (record : Record) : Prop where
  alignment : ∀ n ∈ record.attributes.alignment, isPowerOfTwo n = true
  pack : ∀ n ∈ record.attributes.maxFieldAlignment, isPowerOfTwo n = true
  field : ∀ field ∈ record.fields, ∀ n ∈ field.alignment, isPowerOfTwo n = true
  typedef : ∀ field ∈ record.fields, field.type.keepsAlignment = true

theorem Record.asksForPowers_iff {record : Record} : record.AsksForPowers ↔
    (∀ n ∈ record.attributes.alignment, isPowerOfTwo n = true) ∧
    (∀ n ∈ record.attributes.maxFieldAlignment, isPowerOfTwo n = true) ∧
    (∀ field ∈ record.fields, ∀ n ∈ field.alignment, isPowerOfTwo n = true) ∧
    ∀ field ∈ record.fields, field.type.keepsAlignment = true :=
  ⟨fun h => ⟨h.alignment, h.pack, h.field, h.typedef⟩, fun ⟨h₁, h₂, h₃, h₄⟩ => ⟨h₁, h₂, h₃, h₄⟩⟩

instance (record : Record) : Decidable record.AsksForPowers :=
  decidable_of_iff _ Record.asksForPowers_iff.symm

/-- Every alignment that is asked for anywhere is a power of two, and none is asked for by a
typedef. -/
structure Setting.AsksForPowers (s : Setting) : Prop where
  record : ∀ r, (s.tree.record r).AsksForPowers
  packStruct : ∀ n ∈ s.options.packStruct, isPowerOfTwo n = true

/-- The only records whose size need not be a multiple of their alignment: classes with virtual bases
under the Microsoft rules for 32 bits, where nothing requires an alignment of them. -/
structure Setting.IsUnrounded (s : Setting) (r : RecordId) (layout : RecordLayout) : Prop where
  microsoft : s.usesMicrosoftLayout = true
  narrow : s.target.is64Bit = false
  virtualBases : s.tree.hasVirtualBases r = true
  unrequired : layout.requiredAlignment = 0

/-- What can be relied on in the finished layout of any record. -/
structure RecordLayout.WellFormed (s : Setting) (r : RecordId) (layout : RecordLayout) : Prop where
  counted : layout.fieldOffsets.length = (s.tree.record r).fields.length
  isClass : layout.asClass.isSome = (s.tree.record r).isClass
  power : isPowerOfTwo layout.alignment = true
  requiredPower : IsPowerOrZero layout.requiredAlignment
  whole : ¬ s.IsUnrounded r layout → layout.alignment ∣ layout.size
  data : layout.dataSize ≤ layout.size
  nonVirtual : ∀ part, layout.asClass = some part → part.nonVirtualSize ≤ layout.size
  occupied : s.usesMicrosoftLayout = true → 1 ≤ layout.size
  required : s.usesMicrosoftLayout = true → layout.requiredAlignment ≤ layout.alignment

/-- What can be relied on in the layout of any type, where the layouts of records are known. -/
structure TypeLayout.WellFormed (s : Setting) (known : Known) (type : Ty) (layout : TypeLayout) :
    Prop where
  power : isPowerOfTwo layout.alignment = true
  whole : (∀ r held, type.copiedRecord? = some r → known.record r = .ok held →
    ¬ s.IsUnrounded r held) → layout.alignment ∣ layout.width

/-- All that is known is well-formed. -/
structure Known.WellFormed (s : Setting) (known : Known) : Prop where
  record : ∀ r layout, known.record r = .ok layout → layout.WellFormed s r
  type : ∀ type layout, type.keepsAlignment = true → known.type type = .ok layout →
    layout.WellFormed s known type

namespace TypeLayout

variable {s : Setting} {known : Known} {type : Ty} {width alignment : Nat}

theorem WellFormed.natural {size : Nat} (power : isPowerOfTwo size = true) :
    (TypeLayout.natural size).WellFormed s known type := ⟨power, fun _ => Nat.dvd_refl _⟩

theorem WellFormed.aligned (power : isPowerOfTwo alignment = true) (whole : alignment ∣ width) :
    (TypeLayout.aligned width alignment).WellFormed s known type := ⟨power, fun _ => whole⟩

end TypeLayout

namespace Target

variable {s : Setting} {known : Known} {type : Ty}

theorem pointerWidth_isPowerOfTwo (target : Target) : isPowerOfTwo target.pointerWidth = true := by
  unfold pointerWidth
  split <;> decide

theorem pointerLayout_wellFormed (target : Target) :
    target.pointerLayout.WellFormed s known type := .natural target.pointerWidth_isPowerOfTwo

theorem eightByteLayout_wellFormed (target : Target) :
    target.eightByteLayout.WellFormed s known type := by
  unfold eightByteLayout
  split
  · exact .aligned (by decide) (by decide)
  · exact .natural (by decide)

theorem longDoubleLayout_wellFormed (target : Target) :
    target.longDoubleLayout.WellFormed s known type := by
  unfold longDoubleLayout
  split
  · exact .natural (by decide)
  split
  case h_2 => exact .aligned (by decide) (by decide)
  all_goals exact .natural (by decide)

theorem scalarLayout_wellFormed (target : Target) (scalar : Scalar) :
    (target.scalarLayout scalar).WellFormed s known type := by
  cases scalar with
  | void => exact .aligned (by decide) (by decide)
  | wideChar =>
    refine .natural ?_
    split <;> decide
  | integer rank sign =>
    cases rank with
    | long =>
      refine .natural ?_
      split <;> decide
    | longLong => exact target.eightByteLayout_wellFormed
    | _ => exact .natural (by decide)
  | float format =>
    cases format with
    | double => exact target.eightByteLayout_wellFormed
    | longDouble => exact target.longDoubleLayout_wellFormed
    | _ => exact .natural (by decide)
  | nullPointer => exact target.pointerLayout_wellFormed
  | _ => exact .natural (by decide)

end Target

namespace TypeLayout

open LayoutM (typeLayoutOf)

variable {s : Setting} {known : Known} {type : Ty}

/-- A member pointer is a row of pointers and integers, rounded up to the larger of the two where
they differ. -/
theorem microsoftMemberPointer_ends (target : Target) (isFunction : Bool)
    (model : InheritanceModel) :
    Ends (fun _ => True) (microsoftMemberPointer target isFunction model) fun layout =>
      layout.WellFormed s known type := by
  unfold microsoftMemberPointer
  refine Ends.bind Ends.any fun width sum => ?_
  obtain ⟨rfl, _⟩ := Quantity.add_eq_ok_iff.mp sum
  have power : isPowerOfTwo (if isFunction then target.pointerLayout.alignment
      else target.intLayout.alignment) = true := by
    split
    · exact target.pointerWidth_isPowerOfTwo
    · exact Quantity.isPowerOfTwo_pow 2
  dsimp only
  split
  case isTrue wide =>
    refine Ends.bind Ends.any fun rounded aligned => ?_
    obtain ⟨_, rfl, _⟩ := Quantity.alignTo_eq_ok_iff.mp aligned
    exact .aligned power (Quantity.dvd_roundUp _ _)
  case isFalse narrow =>
    have four : target.pointerLayout = .natural 4 := by
      simp [Target.pointerLayout, Target.pointerWidth, narrow]
    rw [four] at power ⊢
    refine .aligned power ?_
    have four' : (if isFunction then (natural 4).alignment else target.intLayout.alignment) = 4 := by
      cases isFunction <;> rfl
    rw [four']
    exact Nat.dvd_add (Nat.dvd_mul_right _ _) (Nat.dvd_mul_right _ _)

theorem memberPointer_ends (s : Setting) (pointee owner : Ty) :
    Ends (fun _ => True) (memberPointer s pointee owner) fun layout =>
      layout.WellFormed s known type := by
  unfold memberPointer
  dsimp only
  split
  case h_1 =>
    have power := s.target.pointerWidth_isPowerOfTwo
    split
    · exact WellFormed.aligned power (Nat.dvd_mul_right _ _)
    · exact WellFormed.natural power
  case h_2 => exact microsoftMemberPointer_ends _ _ _

theorem vector_ends (element : TypeLayout) (count : Nat) :
    Ends (fun _ => True) (vector element count) fun layout => layout.WellFormed s known type := by
  unfold vector
  refine Ends.bind Ends.any fun width _ => ?_
  refine Ends.bind Ends.any fun alignment next => ?_
  refine Ends.bind Ends.any fun rounded aligned => ?_
  obtain ⟨_, rfl, _⟩ := Quantity.alignTo_eq_ok_iff.mp aligned
  exact WellFormed.aligned (Quantity.nextPowerOfTwo_isPowerOfTwo next) (Quantity.dvd_roundUp _ _)

/-- The layout of a type is well-formed if those of its parts are: one case for every way to build a
type. -/
theorem ofTy_ends (below : known.WellFormed s) (keeps : type.keepsAlignment = true) :
    Ends (fun _ => True) ((ofTy s type).eval known) fun layout => layout.WellFormed s known type := by
  -- What a type takes over from the one that it is another name for, or consists of copies of.
  have inner (part : Ty) (keeps : part.keepsAlignment = true)
      (copies : type.copiedRecord? = part.copiedRecord?) :
      Ends (fun _ => True) ((typeLayoutOf part).eval known) fun layout =>
        layout.WellFormed s known type := by
    rw [LayoutM.eval_typeLayoutOf]
    refine Ends.any.imp fun layout laid => ?_
    have known := below.type part layout keeps laid
    exact ⟨known.power, by rw [copies]; exact known.whole⟩
  have repeated (part : Ty) (keeps : part.keepsAlignment = true)
      (copies : type.copiedRecord? = part.copiedRecord?) (count : Nat) :
      Ends (fun _ => True) ((do
          let element ← typeLayoutOf part
          return { element with width := ← Quantity.mul element.width count } :
            LayoutM TypeLayout).eval known) fun layout => layout.WellFormed s known type := by
    refine LayoutM.ends_bind (inner part keeps copies) fun element h => ?_
    refine LayoutM.ends_lift_bind Ends.any fun width product => ?_
    obtain ⟨rfl, _⟩ := Quantity.mul_eq_ok_iff.mp product
    exact ⟨h.power, fun rounded => Nat.dvd_mul_right_of_dvd (h.whole rounded) count⟩
  unfold ofTy
  cases type with
  | scalar id scalar => exact s.target.scalarLayout_wellFormed scalar
  | pointer id pointee | blockPointer id pointee | lvalueReference id referee
  | rvalueReference id referee => exact s.target.pointerLayout_wellFormed
  | memberPointer id pointee owner =>
    rw [LayoutM.eval_lift]
    exact memberPointer_ends s pointee owner
  | array id element count => exact repeated element keeps rfl count
  | complex id element => exact repeated element keeps rfl 2
  | incompleteArray id element | variableArray id element =>
    refine LayoutM.ends_bind Ends.any fun layout laid => ?_
    rw [LayoutM.eval_typeLayoutOf] at laid
    exact ⟨(below.type element layout keeps laid).power, fun _ => Nat.dvd_zero _⟩
  | vector id element count =>
    refine LayoutM.ends_bind Ends.any fun layout _ => ?_
    rw [LayoutM.eval_lift]
    exact vector_ends layout count
  | record id r =>
    refine LayoutM.ends_bind Ends.any fun layout laid => ?_
    rw [LayoutM.eval_layoutOf] at laid
    have known := below.record r layout laid
    exact ⟨known.power, fun rounded => known.whole (rounded r layout rfl laid)⟩
  | enumeration id declaration name underlying => exact inner underlying keeps rfl
  | typedef id declaration name aliased alignment =>
    obtain ⟨rfl, keeps⟩ : alignment = none ∧ aliased.keepsAlignment = true := by
      simpa [Ty.keepsAlignment] using keeps
    exact LayoutM.ends_bind (inner aliased keeps rfl) fun layout h => h
  | elaborated id part => exact inner part keeps rfl
  | function id result params variadic => exact WellFormed.aligned (by decide) (by decide)
  | openEnumeration | dependentArray | templateParam | unresolved => exact trivial

end TypeLayout

/-- Well-formed layouts of types stay so where more is known. -/
theorem TypeLayout.WellFormed.mono {s : Setting} {known known' : Known} {type : Ty}
    {layout : TypeLayout} (h : layout.WellFormed s known type)
    (within : ∀ r layout, known.record r = .ok layout → known'.record r = .ok layout) :
    layout.WellFormed s known' type :=
  ⟨h.power, fun rounded => h.whole fun r held copies laid => rounded r held copies (within r held laid)⟩

namespace Known

variable {s : Setting} {known : Known} {type : Ty} {m : RecordId} {layout : TypeLayout}
variable (types : ∀ {type layout}, known.type type = .ok layout →
  (TypeLayout.ofTy s type).eval known = .ok layout)
include types

/-- Arrays are aligned as their elements are, and other names do not matter. -/
theorem alignment_of_baseElement (keeps : type.keepsAlignment = true)
    (laid : known.type type = .ok layout) : ∃ base,
      (TypeLayout.ofTy s type.baseElement).eval known = .ok base ∧
        layout.alignment = base.alignment := by
  have rules := types laid
  fun_induction Ty.baseElement type generalizing layout with
  | case1 id declaration name aliased alignment ih =>
    obtain ⟨rfl, keeps⟩ : alignment = none ∧ aliased.keepsAlignment = true := by
      simpa [Ty.keepsAlignment] using keeps
    obtain ⟨inner, asked, rules⟩ := LayoutM.eval_bind_eq_ok.mp rules
    rw [LayoutM.eval_typeLayoutOf] at asked
    cases rules
    exact ih keeps asked (types asked)
  | case2 id inner ih =>
    change (LayoutM.typeLayoutOf inner).eval known = _ at rules
    rw [LayoutM.eval_typeLayoutOf] at rules
    exact ih keeps rules (types rules)
  | case3 id element count ih =>
    obtain ⟨inner, asked, rules⟩ := LayoutM.eval_bind_eq_ok.mp rules
    obtain ⟨width, _, rules⟩ := LayoutM.eval_bind_eq_ok.mp rules
    rw [LayoutM.eval_typeLayoutOf] at asked
    cases rules
    have deeper := ih keeps asked (types asked)
    exact deeper
  | case4 id element ih | case5 id element ih =>
    obtain ⟨inner, asked, rules⟩ := LayoutM.eval_bind_eq_ok.mp rules
    rw [LayoutM.eval_typeLayoutOf] at asked
    cases rules
    have deeper := ih keeps asked (types asked)
    exact deeper
  | case6 => cases rules
  | case7 => exact ⟨layout, rules, rfl⟩

/-- A type of records is aligned as the record is. -/
theorem alignment_of_records (keeps : type.keepsAlignment = true)
    (laid : known.type type = .ok layout) (names : type.baseElement.asRecord? = some m) :
    ∃ inner, known.record m = .ok inner ∧ layout.alignment = inner.alignment := by
  obtain ⟨base, rules, same⟩ := Known.alignment_of_baseElement types keeps laid
  have bottom : ∃ id, type.baseElement = .record id m := by
    clear laid keeps rules
    fun_induction Ty.baseElement type with
    | case7 type noTypedef noElaborated =>
      cases type with
      | record id named =>
        cases names
        exact ⟨id, rfl⟩
      | typedef => exact absurd rfl (noTypedef _ _ _ _ _)
      | elaborated => exact absurd rfl (noElaborated _ _)
      | _ => cases names
    | _ => simp_all
  obtain ⟨id, bottom⟩ := bottom
  rw [bottom] at rules
  obtain ⟨inner, asked, rules⟩ := LayoutM.eval_bind_eq_ok.mp rules
  rw [LayoutM.eval_layoutOf] at asked
  cases rules
  exact ⟨inner, asked, same⟩

end Known

end ObjectLayout
