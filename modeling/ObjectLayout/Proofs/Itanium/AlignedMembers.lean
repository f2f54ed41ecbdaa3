import ObjectLayout.Proofs.Itanium.NaturalOffsets

/-! Members at any depth of a complete object. Each lies at a multiple of the alignment of its type
and of the alignment that it asks for itself, counted from the start of the whole object, and both
divide the alignment of the whole object. One thing can spoil this: under `ms_struct` a scalar asks
for its own size, and a size that is no power of two can win over an attribute that does not divide
it. -/
namespace ObjectLayout

open Quantity (isPowerOfTwo)

variable {s : Setting} {known : Known} {d c m : RecordId} {isComplete : Bool} {x depth : Nat}
variable {layout : RecordLayout}

/-- A record inside a complete object of `d`, and where it lies. Virtual bases belong to complete
objects; a member is a complete object of its own, and so is each element of an array of records. -/
inductive RecordAt (s : Setting) (known : Known) (d : RecordId) : RecordId → Bool → Nat → Prop
  | whole : RecordAt s known d d true 0
  | base {c b : RecordId} {isComplete : Bool} {x offset : Nat}
      (outer : RecordAt s known d c isComplete x) (edge : s.tree.InheritsPlainly c b)
      (at' : known.baseOffset? c b = some offset) : RecordAt s known d b false (x + offset)
  | virtualBase {c v : RecordId} {x offset : Nat} (outer : RecordAt s known d c true x)
      (listed : v ∈ s.tree.virtualBases c) (at' : known.virtualBaseOffset? c v = some offset) :
      RecordAt s known d v false (x + offset)
  | member {c m : RecordId} {isComplete : Bool} {x index element byte : Nat} {field : Field}
      (outer : RecordAt s known d c isComplete x)
      (found : (s.tree.record c).fields[index]? = some field) (stored : field.bitWidth = none)
      (at' : known.fieldOffset? c index = some (8 * byte)) (contains : field.type.Contains element m) :
      RecordAt s known d m true (x + (byte + element * known.size m))

/-- Where `ms_struct` has a field ask for the size of its scalar, the attribute of the field asks for
at least that much or for a divisor of it. -/
def Setting.FloorsFit (s : Setting) (r : RecordId) : Prop :=
  ∀ field ∈ (s.tree.record r).fields, field.bitWidth = none → ∀ n ∈ field.alignment,
    Itanium.fieldExtent.scalarFloor (.ofRecord s r none) field.type ≤ n ∨
      n ∣ Itanium.fieldExtent.scalarFloor (.ofRecord s r none) field.type

instance (s : Setting) (r : RecordId) : Decidable (s.FloorsFit r) :=
  inferInstanceAs (Decidable (∀ field ∈ _, _ → ∀ n ∈ _, _))

/-- The alignment of a complete object of the record, or of the record as a base. -/
def Known.startAlignment (known : Known) (r : RecordId) (isComplete : Bool) : Nat :=
  if isComplete then (known.record r).toOption.elim 0 (·.alignment) else known.nonVirtualAlignment r

theorem Known.startAlignment_eq (laid : known.record c = .ok layout) :
    known.startAlignment c true = layout.alignment := by
  simp [startAlignment, laid, Except.toOption]

/-- The alignment that a field gets is a multiple of all that was asked for. -/
theorem dvd_max_asked {alignment floor natural : Nat} {asked : Option Nat}
    (power : isPowerOfTwo alignment = true)
    (is : natural = alignment ∨ natural = max alignment floor)
    (whole : floor = 0 ∨ alignment ∣ floor) (powers : ∀ n ∈ asked, isPowerOfTwo n = true)
    (fits : ∀ n ∈ asked, floor ≤ n ∨ n ∣ floor) :
    alignment ∣ max natural (asked.getD 0) ∧ ∀ n ∈ asked, n ∣ max natural (asked.getD 0) := by
  have merge {a : Nat} (first : alignment ∣ a) (le : ∀ n ∈ asked, a ≤ n → alignment ≤ n)
      (fits : ∀ n ∈ asked, a ≤ n ∨ n ∣ a) (positive : 0 < a) :
      alignment ∣ max a (asked.getD 0) ∧ ∀ n ∈ asked, n ∣ max a (asked.getD 0) := by
    cases asked with
    | none => exact ⟨by simpa using first, nofun⟩
    | some n =>
      rcases fits n rfl with less | dvd
      · rw [Option.getD_some, Nat.max_eq_right less]
        refine ⟨Quantity.dvd_of_isPowerOfTwo power (powers n rfl) (le n rfl less), ?_⟩
        rintro _ ⟨⟩
        exact Nat.dvd_refl n
      · rw [Option.getD_some, Nat.max_eq_left (Nat.le_of_dvd positive dvd)]
        refine ⟨first, ?_⟩
        rintro _ ⟨⟩
        exact dvd
  have alone : alignment ∣ max alignment (asked.getD 0) ∧
      ∀ n ∈ asked, n ∣ max alignment (asked.getD 0) := by
    refine merge (Nat.dvd_refl _) (fun _ _ => id) (fun n member => ?_)
      (Quantity.pos_of_isPowerOfTwo power)
    rcases Nat.le_total alignment n with le | le
    · exact .inl le
    · exact .inr (Quantity.dvd_of_isPowerOfTwo (powers n member) power le)
  rcases is with rfl | rfl
  · exact alone
  · rcases Nat.eq_zero_or_pos floor with rfl | positive
    · rwa [Nat.max_eq_left (Nat.zero_le _)]
    · have dvd := whole.resolve_left positive.ne'
      have le := Nat.le_of_dvd positive dvd
      rw [Nat.max_eq_right le]
      exact merge dvd (fun _ _ => le.trans) fits positive

section Known

variable (itanium : s.IsItanium) (natural : s.IsNatural d)
variable (laid : (s.known depth).record d = .ok layout)
include itanium natural laid

namespace RecordAt

omit natural in
theorem reached (inside : RecordAt s (s.known depth) d c isComplete x) :
    Relation.ReflTransGen s.Holds d c ∧ (isComplete = false → (s.tree.record c).isClass = true) := by
  have knows := s.known_knows itanium.rules depth
  induction inside with
  | whole => exact ⟨.refl, nofun⟩
  | base _ edge at' ih =>
    obtain ⟨_, laid'⟩ := knows.reached ⟨_, laid⟩ ih.1
    exact ⟨ih.1.tail (Tree.Inherits.holds edge.inherits),
      fun _ => ((knows.sound itanium laid').base_inside _ _ at').1⟩
  | virtualBase _ listed at' ih =>
    obtain ⟨_, laid'⟩ := knows.reached ⟨_, laid⟩ ih.1
    exact ⟨ih.1.trans (Tree.HasVirtualBase.of_mem listed).holds.to_reflTransGen,
      fun _ => ((knows.sound itanium laid').virtualBase_inside _ _ at').1⟩
  | member _ found _ _ contains ih =>
    exact ⟨ih.1.tail (contains.holds (List.mem_of_getElem? found)), nofun⟩

end RecordAt

/-- A member of a record that is inside the object, seen from the start of that record. -/
theorem exists_member (floors : ∀ r, Relation.ReflTransGen s.Holds d r → s.FloorsFit r)
    (inside : RecordAt s (s.known depth) d c isComplete x) {index : Nat} {field : Field}
    (found : (s.tree.record c).fields[index]? = some field) (stored : field.bitWidth = none) :
    ∃ byte deeper type, (s.known depth).fieldOffset? c index = some (8 * byte) ∧
      (s.known deeper).type field.type = .ok type ∧
      ∀ n, n = type.alignment ∨ n ∈ field.alignment →
        n ∣ byte ∧ n ∣ (s.known depth).startAlignment c isComplete := by
  have knows := s.known_knows itanium.rules depth
  obtain ⟨path, isClass⟩ := inside.reached itanium laid
  obtain ⟨layout', laid'⟩ := knows.reached ⟨_, laid⟩ path
  have sound := knows.sound itanium laid'
  obtain ⟨_, same, _, count⟩ := sound.laid
  cases laid'.symm.trans same
  have member := List.mem_of_getElem? found
  obtain ⟨bound, _⟩ := List.getElem?_eq_some_iff.mp found
  have at' : (s.known depth).fieldOffset? c index = some _ :=
    (Known.fieldOffset?_eq laid' index).trans (List.getElem?_eq_getElem (count ▸ bound))
  obtain ⟨size, asked, extent, whole, le, leBase⟩ :=
    (knows.natural itanium (natural.lower path) laid').fields layout' laid' index field _ found
      stored at'
  have keeps := (natural.record c path).asks.typedef field member
  obtain ⟨deeper, type, laidType, is⟩ := Itanium.fieldExtent_type (f := .ofRecord s c none) keeps extent
  have power := ((itanium.wellFormed deeper).type field.type type keeps laidType).power
  have powers := (natural.record c path).asks.field field member
  obtain ⟨first, second⟩ := dvd_max_asked power is
    (Itanium.alignment_dvd_scalarFloor (f := .ofRecord s c none)
      (s.known_knows itanium.rules deeper) keeps laidType) powers
    (floors c path field member stored)
  have start : isPowerOfTwo ((s.known depth).startAlignment c isComplete) = true ∧
      max asked (field.alignment.getD 0) ≤ (s.known depth).startAlignment c isComplete := by
    cases isComplete with
    | true =>
      rw [Known.startAlignment_eq laid']
      exact ⟨((itanium.wellFormed depth).record c layout' laid').power, le⟩
    | false => exact ⟨sound.aligned (isClass rfl), leBase (isClass rfl)⟩
  have positive : 0 < max asked (field.alignment.getD 0) := by
    have atLeast : type.alignment ≤ asked := by
      rcases is with rfl | rfl
      · exact le_rfl
      · exact Nat.le_max_left _ _
    exact (Quantity.pos_of_isPowerOfTwo power).trans_le (atLeast.trans (Nat.le_max_left _ _))
  obtain ⟨byte, eight⟩ := Nat.dvd_trans (Nat.dvd_mul_right _ _) whole
  rw [eight] at at' whole
  have bytes := Nat.dvd_of_mul_dvd_mul_left (by decide) whole
  refine ⟨byte, deeper, type, at', laidType, ?_⟩
  rintro n (rfl | member)
  · exact ⟨first.trans bytes, Quantity.dvd_of_isPowerOfTwo power start.1
      ((Nat.le_of_dvd positive first).trans start.2)⟩
  · exact ⟨(second n member).trans bytes, Quantity.dvd_of_isPowerOfTwo (powers n member) start.1
      ((Nat.le_of_dvd positive (second n member)).trans start.2)⟩

/-- Whatever is inside the object lies at a multiple of its own alignment, which divides that of the
whole object. -/
theorem RecordAt.aligned (floors : ∀ r, Relation.ReflTransGen s.Holds d r → s.FloorsFit r)
    (inside : RecordAt s (s.known depth) d c isComplete x) :
    (s.known depth).startAlignment c isComplete ∣ x ∧
      (s.known depth).startAlignment c isComplete ∣ layout.alignment := by
  have knows := s.known_knows itanium.rules depth
  -- The record around, which has a layout of its own.
  have around {c : RecordId} {isComplete : Bool} {x : Nat}
      (outer : RecordAt s (s.known depth) d c isComplete x) :
      ∃ layout', (s.known depth).record c = .ok layout' ∧ Natural s (s.known depth) c := by
    obtain ⟨path, _⟩ := outer.reached itanium laid
    obtain ⟨layout', laid'⟩ := knows.reached ⟨_, laid⟩ path
    exact ⟨layout', laid', knows.natural itanium (natural.lower path) laid'⟩
  induction inside with
  | whole =>
    rw [Known.startAlignment_eq laid]
    exact ⟨Nat.dvd_zero _, Nat.dvd_refl _⟩
  | @base c b isComplete x offset outer edge at' ih =>
    obtain ⟨layout', laid', placed⟩ := around outer
    obtain ⟨whole, needs⟩ := placed.bases b offset at'
    have less : (s.known depth).nonVirtualAlignment b ∣ (s.known depth).startAlignment c isComplete := by
      cases isComplete with
      | false => exact needs
      | true =>
        rw [Known.startAlignment_eq laid']
        exact needs.trans (placed.nested layout' laid' (Tree.isClass_of_inherits edge.inherits))
    exact ⟨Nat.dvd_add (less.trans ih.1) whole, less.trans ih.2⟩
  | @virtualBase c v x offset outer listed at' ih =>
    obtain ⟨layout', laid', placed⟩ := around outer
    obtain ⟨whole, needs⟩ := placed.virtualBases layout' laid' v offset at'
    rw [Known.startAlignment_eq laid'] at ih
    exact ⟨Nat.dvd_add (needs.trans ih.1) whole, needs.trans ih.2⟩
  | @member c m isComplete x index element byte field outer found stored at' contains ih =>
    obtain ⟨path, _⟩ := outer.reached itanium laid
    have held := path.tail (contains.holds (List.mem_of_getElem? found))
    obtain ⟨inner, laidInner⟩ := knows.reached ⟨_, laid⟩ held
    obtain ⟨byte', deeper, type, at'', laidType, dvd⟩ :=
      exists_member itanium natural laid floors outer found stored
    obtain rfl : byte = byte' := by
      have := Option.some.inj (at'.symm.trans at'')
      omega
    have keeps := (natural.record c path).asks.typedef field (List.mem_of_getElem? found)
    -- The alignment of the type is that of the record.
    obtain ⟨inner', laidInner', same⟩ :=
      Known.alignment_of_records Setting.known_type keeps
        ((s.known_le (Nat.le_max_right _ _)).type _ _ laidType)
        (Ty.baseElement_of_constantArrayRecord? contains.1)
    cases laidInner'.symm.trans ((s.known_le (Nat.le_max_left _ _)).record _ _ laidInner)
    obtain ⟨whole, needs⟩ := dvd type.alignment (.inl rfl)
    rw [same] at whole needs
    have size : inner.alignment ∣ (s.known depth).size m := by
      rw [Known.size_eq laidInner]
      refine ((itanium.wellFormed depth).record m inner laidInner).whole fun unrounded => ?_
      exact absurd unrounded.microsoft (by simp [itanium.rules])
    rw [Known.startAlignment_eq laidInner]
    refine ⟨Nat.dvd_add (needs.trans ih.1) ?_, needs.trans ih.2⟩
    exact Nat.dvd_add whole (Nat.dvd_mul_left_of_dvd size _)

end Known

/-- Every member of a record inside the object lies at a multiple of the alignment of its type and of
its own attribute, and both divide the alignment of the object. -/
theorem members_naturally_aligned (itanium : s.IsItanium) (natural : s.IsNatural d)
    (floors : ∀ r, Relation.ReflTransGen s.Holds d r → s.FloorsFit r)
    (laid : (s.known depth).record d = .ok layout)
    (inside : RecordAt s (s.known depth) d c isComplete x) {index : Nat} {field : Field}
    (found : (s.tree.record c).fields[index]? = some field) (stored : field.bitWidth = none) :
    ∃ byte deeper type, (s.known depth).fieldOffset? c index = some (8 * byte) ∧
      (s.known deeper).type field.type = .ok type ∧
      (type.alignment ∣ x + byte ∧ type.alignment ∣ layout.alignment) ∧
      ∀ n ∈ field.alignment, n ∣ x + byte ∧ n ∣ layout.alignment := by
  obtain ⟨start, outer⟩ := inside.aligned itanium natural laid floors
  obtain ⟨byte, deeper, type, at', laidType, dvd⟩ :=
    exists_member itanium natural laid floors inside found stored
  have sum (n : Nat) (asked : n = type.alignment ∨ n ∈ field.alignment) :
      n ∣ x + byte ∧ n ∣ layout.alignment := by
    obtain ⟨whole, needs⟩ := dvd n asked
    exact ⟨Nat.dvd_add (needs.trans start) whole, needs.trans outer⟩
  exact ⟨byte, deeper, type, at', laidType, sum _ (.inl rfl), fun n member => sum n (.inr member)⟩

/-- For 32-bit Linux: `D` holds two of `M` in its base `A`, which has claimed `V`. Under `ms_struct`
the `long double` in `M` asks for its 12 bytes. -/
def claimedAbove : Setting :=
  { Setting.linux [
      .ofClass "V" [] [] [⟨0⟩],
      .ofClass "M" [{ name := "c", type := .scalar ⟨0⟩ .plainChar },
        { name := "x", type := .scalar ⟨1⟩ (.float .longDouble) }] [] []
        { alignment := some 16, isMsStruct := true },
      .ofClass "A" [{ name := "m", type := .array ⟨3⟩ (.record ⟨2⟩ ⟨1⟩) 2 }]
        [{ record := ⟨0⟩, isVirtual := true }] [],
      .ofClass "D" [{ name := "s", type := .scalar ⟨4⟩ (.integer .short .signed), alignment := some 4 }]
        [{ record := ⟨2⟩ }] []]
      [{ name := "v", owner := ⟨0⟩, isVirtual := true }] with
    target := { arch := some .x86, os := some .linux } }

/-- The `x` of the second `M` lies 60 bytes into a `D`. -/
theorem members_naturally_aligned_claimedAbove : ∃ layout,
    (claimedAbove.known 7).record ⟨3⟩ = .ok layout ∧ layout.alignment = 16 ∧
      RecordAt claimedAbove (claimedAbove.known 7) ⟨3⟩ ⟨1⟩ true 48 ∧
      ∃ byte deeper type, (claimedAbove.known 7).fieldOffset? ⟨1⟩ 1 = some (8 * byte) ∧
        (claimedAbove.known deeper).type (.scalar ⟨1⟩ (.float .longDouble)) = .ok type ∧
        type.alignment ∣ 48 + byte ∧ type.alignment ∣ layout.alignment := by
  obtain ⟨layout, laid⟩ := exists_ok (by decide +kernel :
    ((claimedAbove.known 7).record ⟨3⟩).isOk = true)
  have alignment : ((claimedAbove.known 7).record ⟨3⟩).map (·.alignment) = .ok 16 := by decide +kernel
  rw [laid] at alignment
  have itanium : claimedAbove.IsItanium := ⟨rfl, fun _ => rfl⟩
  have natural : claimedAbove.IsNatural ⟨3⟩ :=
    ⟨rfl, fun r _ => Tree.forall_record (by decide) (by decide) r⟩
  have floors (r : RecordId) : claimedAbove.FloorsFit r := by
    obtain ⟨position⟩ := r
    by_cases declared : position < 4
    · exact (by decide : ∀ position < 4, claimedAbove.FloorsFit ⟨position⟩) position declared
    · intro field member
      rw [Tree.record_undeclared declared] at member
      cases member
  have size : (claimedAbove.known 7).size ⟨1⟩ = 32 := by decide +kernel
  have inner : (claimedAbove.known 7).baseOffset? ⟨3⟩ ⟨2⟩ = some 0 := by decide +kernel
  have base : RecordAt claimedAbove (claimedAbove.known 7) ⟨3⟩ ⟨2⟩ false 0 :=
    .base .whole ⟨{ record := ⟨2⟩ }, by decide, rfl⟩ inner
  have inside : RecordAt claimedAbove (claimedAbove.known 7) ⟨3⟩ ⟨1⟩ true 48 := by
    have members : (claimedAbove.tree.record ⟨2⟩).fields[0]? = some
        { name := "m", type := .array ⟨3⟩ (.record ⟨2⟩ ⟨1⟩) 2 } := rfl
    have start : (claimedAbove.known 7).fieldOffset? ⟨2⟩ 0 = some (8 * 16) := by decide +kernel
    have second : Ty.Contains (.array ⟨3⟩ (.record ⟨2⟩ ⟨1⟩) 2) 1 ⟨1⟩ := ⟨rfl, by decide⟩
    have at' := RecordAt.member base members rfl start second
    rwa [size] at at'
  have found : (claimedAbove.tree.record ⟨1⟩).fields[1]? = some
      { name := "x", type := .scalar ⟨1⟩ (.float .longDouble) } := rfl
  obtain ⟨byte, deeper, type, at', laidType, aligned, _⟩ :=
    members_naturally_aligned itanium natural (fun r _ => floors r) laid inside found rfl
  exact ⟨layout, laid, Except.ok.inj alignment, inside, byte, deeper, type, at', laidType, aligned⟩

/-- For 32-bit Linux, C declarations. Under `ms_struct` the 12 bytes of the `long double` outweigh the
alignment of 8 that the field asks for, and pass as an alignment because the record already has 16. -/
def unevenScalar : Setting :=
  { Setting.linux [
      .ofClass "S" [{ name := "c", type := .scalar ⟨0⟩ .plainChar },
        { name := "x", type := .scalar ⟨1⟩ (.float .longDouble), alignment := some 8 }] [] []
        { alignment := some 16, isMsStruct := true }] [] with
    target := { arch := some .x86, os := some .linux }, options := {} }

/-- Without a condition on `ms_struct` a member may lie at no multiple of its own attribute. -/
theorem members_unaligned_unevenScalar :
    unevenScalar.IsItanium ∧ unevenScalar.IsNatural ⟨0⟩ ∧
      (∃ layout, (unevenScalar.known 3).record ⟨0⟩ = .ok layout) ∧
      RecordAt unevenScalar (unevenScalar.known 3) ⟨0⟩ ⟨0⟩ true 0 ∧
      ((unevenScalar.tree.record ⟨0⟩).fields[1]?.bind (·.alignment)) = some 8 ∧
      (unevenScalar.known 3).fieldOffset? ⟨0⟩ 1 = some (8 * 12) ∧ ¬ 8 ∣ 0 + 12 := by
  refine ⟨⟨rfl, fun _ => rfl⟩, ⟨rfl, fun r _ => Tree.forall_record (by decide) (by decide) r⟩, ?_,
    .whole, rfl, by decide +kernel, by decide⟩
  exact exists_ok (by decide +kernel)

end ObjectLayout
