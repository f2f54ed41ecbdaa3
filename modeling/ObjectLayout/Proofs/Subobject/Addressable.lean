import ObjectLayout.Proofs.Subobject.Place

/-! What it takes to go through everything inside a subobject. The layouts of the records in it have to
be there and to say where their parts lie; and no offset that is worked out on the way may be too large,
nor a number of elements, which are counted before the first of them is looked at. -/
namespace ObjectLayout

variable {s : Setting} {known : Known} {g : SubobjectGraph} {allowed : Fault → Prop}
variable {p q : Place} {x o : Nat} {r m : RecordId} {type : Ty} {tracking : Tracking}

/-- Whatever is looked up in the layout of a record is there. -/
structure Located (s : Setting) (known : Known) (r : RecordId) : Prop where
  laid : ∃ layout, known.record r = .ok layout ∧
    layout.asClass.isSome = (s.tree.record r).isClass ∧
    layout.fieldOffsets.length = (s.tree.record r).fields.length
  bases : ∀ b, s.tree.InheritsPlainly r b → (known.baseOffset? r b).isSome
  virtualBases : ∀ v, s.tree.HasVirtualBase r v → (known.virtualBaseOffset? r v).isSome
  primary : ∀ v, known.virtualPrimary? r = some v → s.tree.HasVirtualBase r v

theorem Sound.located (h : Sound s known r) : Located s known r where
  laid := h.laid
  bases b := (h.bases b).mpr
  virtualBases v := (h.virtualBases v).mpr
  primary v names := (h.primary v names).1

/-- Whatever is looked up inside a record is there. -/
structure Legible (s : Setting) (known : Known) (r : RecordId) : Prop where
  grounded : Grounded s.Holds r
  located : ∀ m, Relation.ReflTransGen s.Holds r m → Located s known m

namespace Legible

variable (h : Legible s known r)
include h

theorem here : Located s known r := h.located r .refl

theorem lower (path : Relation.TransGen s.Holds r m) : Legible s known m where
  grounded := h.grounded.lowerAll path.to_reflTransGen
  located _ further := h.located _ (path.to_reflTransGen.trans further)

theorem acyclic : s.tree.Acyclic r := h.grounded.mono fun _ _ edge => edge.holds

end Legible

/-- Everything inside a record can be looked into. -/
structure Explorable (s : Setting) (known : Known) (r : RecordId) : Prop where
  grounded : Grounded s.Holds r
  sound : Sound s known r
  below : SoundBelow s known r

namespace Explorable

theorem lower (h : Explorable s known r) (path : Relation.TransGen s.Holds r m) :
    Explorable s known m where
  grounded := h.grounded.lowerAll path.to_reflTransGen
  sound := h.below m path
  below _ further := h.below _ (path.trans further)

theorem acyclic (h : Explorable s known r) : s.tree.Acyclic r :=
  h.grounded.mono fun _ _ edge => edge.holds

theorem legible (h : Explorable s known r) : Legible s known r where
  grounded := h.grounded
  located m path := by
    rcases Relation.reflTransGen_iff_eq_or_transGen.mp path with rfl | path
    · exact h.sound.located
    · exact (h.below m path).located

end Explorable

/-- Nested constant arrays of this type have more elements than can be counted. It does not help if a
later length is zero. -/
def Ty.Overcounts (type : Ty) : Prop := ∃ n, Quantity.limit ≤ (type.constantLengths.take n).prod

/-- The records in a field at `x` can be gone through, one after the other. Only a map that prunes
minds how many they are. -/
structure Ty.Traversable (known : Known) (tracking : Tracking) (type : Ty) (x : Nat) : Prop where
  count : tracking = .pruned → ¬ type.Overcounts
  element : type.asRecord? = none → ∀ k m, type.Contains k m →
    x + (k + 1) * known.size m < Quantity.limit

/-- Nothing that is worked out on the way through a subobject at `x` is too large. -/
inductive Addressable (s : Setting) (known : Known) (g : SubobjectGraph) (tracking : Tracking) :
    Place → Nat → Prop
  | intro {p : Place} {x : Nat}
      (sum : ∀ o q, HasPart s known g p o q → x + o < Quantity.limit)
      (part : ∀ o q, HasPart s known g p o q → Addressable s known g tracking q (x + o))
      (field : ∀ index field offset, (s.tree.record (p.record g)).fields[index]? = some field →
        field.bitWidth = none → known.fieldOffset? (p.record g) index = some offset →
        x + offset / 8 < Quantity.limit ∧ field.type.Traversable known tracking (x + offset / 8)) :
      Addressable s known g tracking p x

namespace Addressable

variable (h : Addressable s known g tracking p x)
include h

theorem sum (part : HasPart s known g p o q) : x + o < Quantity.limit := by
  cases h with
  | intro sum => exact sum o q part

theorem part (part : HasPart s known g p o q) : Addressable s known g tracking q (x + o) := by
  cases h with
  | intro _ parts => exact parts o q part

theorem field {index offset : Nat} {field : Field}
    (found : (s.tree.record (p.record g)).fields[index]? = some field)
    (stored : field.bitWidth = none)
    (at' : known.fieldOffset? (p.record g) index = some offset) :
    x + offset / 8 < Quantity.limit ∧ field.type.Traversable known tracking (x + offset / 8) := by
  cases h with
  | intro _ _ fields => exact fields index field offset found stored at'

end Addressable

/-- A sum of offsets overflows, or there is room for the whole place. -/
def Room (allowed : Fault → Prop) (s : Setting) (known : Known) (g : SubobjectGraph) (p : Place)
    (x : Nat) : Prop :=
  allowed .overflow ∨ (p.IsProper s g ∧ x + p.extent s known g < Quantity.limit)

section Sound

variable (knows : s.Knows known) (claims : g.ClaimsPrimaries known)
include knows claims

/-- Where there is room for a place, there is room for its parts and fields. -/
theorem Explorable.addressable_of_parts (h : Explorable s known (p.record g))
    (proper : p.IsProper s g) (fits : x + p.extent s known g < Quantity.limit)
    (parts : ∀ o q, HasPart s known g p o q → q.IsProper s g →
      x + o + q.extent s known g < Quantity.limit → Addressable s known g .full q (x + o)) :
    Addressable s known g .full p x := by
  have inside {o : Nat} {q : Place} (part : HasPart s known g p o q) :=
    part.inside knows claims h.acyclic h.sound proper
  refine .intro (fun o q part => ?_) (fun o q part => ?_) fun index field offset found stored at' => ?_
  · have := (inside part).2
    omega
  · obtain ⟨proper', le⟩ := inside part
    exact parts o q part proper' (by omega)
  · obtain ⟨width, wide, _, reaches⟩ := h.sound.field_inside proper found stored at'
    refine ⟨by omega, nofun, fun _ k m contains => ?_⟩
    have le := knows.contained_le wide contains
    rw [Nat.succ_mul]
    omega

theorem Explorable.addressable (h : Explorable s known r) {isComplete : Bool}
    (proper : (Place.inner r isComplete).IsProper s g)
    (fits : x + (Place.inner r isComplete).extent s known g < Quantity.limit) :
    Addressable s known g .full (.inner r isComplete) x := by
  have grounded := h.grounded.transGen
  induction grounded generalizing isComplete x with
  | intro r _ ih =>
  refine h.addressable_of_parts (p := .inner r isComplete) knows claims proper fits ?_
  have below {m : RecordId} {isComplete : Bool} {y : Nat} (path : Relation.TransGen s.Holds r m)
      (proper : (Place.inner m isComplete).IsProper s g)
      (fits : y + (Place.inner m isComplete).extent s known g < Quantity.limit) :
      Addressable s known g .full (.inner m isComplete) y := ih m path (h.lower path) proper fits
  rintro o q part proper' fits'
  cases part with
  | innerBase member =>
    exact below (.single (Tree.Inherits.holds ⟨_, (List.mem_filter.mp member).1, rfl⟩)) proper' fits'
  | virtualBase member =>
    exact below (SoundBelow.inherits (Tree.HasVirtualBase.of_mem member).below) proper' fits'
  | field found _ _ contains =>
    exact below (.single (contains.holds (List.mem_of_getElem? found))) proper' fits'

end Sound

end ObjectLayout
