import ObjectLayout.Proofs.Itanium.Soundness

/-! The two notions of plain old data, that of C++03 and that of C++11. Each follows the fields of a
class down to the records in them on its own, yet what the older one accepts the newer one accepts as
well. So a target that goes by the newer one leaves the tail padding alone wherever a target that goes
by the older one does. -/
namespace ObjectLayout

section DescendWithin

variable {κ : Type} {step step' : (κ → Bool) → κ → Bool}

/-- By induction on the bound, which both descents have in common. -/
theorem descendWithin_imp
    (carries : ∀ f g k, (∀ k', f k' = true → g k' = true) → step f k = true → step' g k = true) :
    ∀ depth k, descendWithin false step depth k = true → descendWithin false step' depth k = true := by
  intro depth
  induction depth with
  | zero => exact fun _ accepted => accepted
  | succ depth ih => exact fun k => carries _ _ k ih

end DescendWithin

namespace Ty

variable {type : Ty} {f g : RecordId → Bool} {r : RecordId}

theorem baseElement_of_asRecord? (named : type.baseElement.asRecord? = some r) :
    ∃ id, type.baseElement = .record id r := by
  fun_induction baseElement type with
  | case1 _ _ _ aliased _ ih => exact ih named
  | case2 _ inner ih => exact ih named
  | case3 _ element _ ih | case4 _ element ih | case5 _ element ih | case6 _ element ih =>
    exact ih named
  | case7 type typedef elaborated =>
    cases type with
    | record id _ => exact ⟨id, congrArg _ (Option.some.inj named)⟩
    | typedef => exact absurd rfl (typedef _ _ _ _ _)
    | elaborated => exact absurd rfl (elaborated _ _)
    | _ => cases named

theorem isPodWith_asRecord? (pod : type.isPodWith f = true) :
    type.baseElement.asRecord?.all f = true := by
  rw [Option.all_eq_true]
  intro r named
  obtain ⟨id, same⟩ := baseElement_of_asRecord? named
  rwa [isPodWith, same] at pod

end Ty

namespace Tree

variable {tree : Tree} {r : RecordId} {f g : RecordId → Bool}

theorem hasUniformAccess_of_publicly {fields : List Field}
    (publicly : ∀ field ∈ fields, field.access = .publicly) : hasUniformAccess fields = true := by
  cases fields with
  | nil => rfl
  | cons first rest =>
    rw [hasUniformAccess, List.all_eq_true]
    intro field later
    rw [publicly field (.tail _ later), publicly first List.mem_cons_self]
    rfl

theorem isNonstandardField_of_isPodWith {field : Field} (wider : ∀ r, f r = true → g r = true)
    (pod : field.type.isPodWith f = true) : isNonstandardField g field = false := by
  unfold Ty.isPodWith at pod
  unfold isNonstandardField
  split
  case h_1 _ r same =>
    rw [same] at pod
    rw [wider r pod]
    rfl
  case h_2 same | h_3 same =>
    rw [same] at pod
    cases pod
  case h_4 => rfl

theorem firstFieldIsNoBase_of_noBases (none : (tree.record r).bases = []) :
    tree.firstFieldIsNoBase r = true := by
  simp only [firstFieldIsNoBase, none]
  split <;> rfl

/-- What a class of its own must look like to be plain old data in the older sense, `f` deciding for the
records in it. -/
structure IsPodClass (tree : Tree) (f : RecordId → Bool) (r : RecordId) : Prop where
  noBases : (tree.record r).bases = []
  monomorphic : tree.isPolymorphic r = false
  noConstructor : tree.hasUserDeclared r .constructor = false
  noDestructor : tree.hasUserDeclared r .destructor = false
  publicly : ∀ field ∈ (tree.record r).fields, field.access = .publicly
  fields : ∀ field ∈ (tree.record r).fields, field.type.isPodWith f = true

theorem isPodClass_iff : tree.IsPodClass f r ↔ ((tree.record r).bases.isEmpty
    && !tree.isPolymorphic r
    && !tree.hasUserDeclared r .constructor
    && !tree.hasUserDeclared r .destructor
    && (tree.record r).fields.all fun field =>
      field.access == .publicly && field.type.isPodWith f) = true := by
  simp only [Bool.and_eq_true, Bool.not_eq_true', List.isEmpty_iff, List.all_eq_true, beq_iff_eq]
  constructor
  · intro h
    exact ⟨⟨⟨⟨h.noBases, h.monomorphic⟩, h.noConstructor⟩, h.noDestructor⟩,
      fun field member => ⟨h.publicly field member, h.fields field member⟩⟩
  · rintro ⟨⟨⟨⟨noBases, monomorphic⟩, noConstructor⟩, noDestructor⟩, fields⟩
    exact ⟨noBases, monomorphic, noConstructor, noDestructor, fun field member => (fields field member).1,
      fun field member => (fields field member).2⟩

namespace IsPodClass

theorem isDynamic (h : tree.IsPodClass f r) : tree.isDynamic r = false := by
  rw [Tree.isDynamic, h.monomorphic, hasVirtualBases_of_noBases h.noBases]
  rfl

theorem keepsFieldsTogether (h : tree.IsPodClass f r) : tree.keepsFieldsTogether r = true := by
  simp only [Tree.keepsFieldsTogether, h.noBases, List.countP_nil]
  rfl

end IsPodClass

theorem isTrivial_of_isPod (pod : tree.isPod r = true) : tree.isTrivial r = true := by
  unfold isPod at pod
  refine descendWithin_imp (fun f g r wider accepted => ?_) _ r pod
  simp only [Bool.or_eq_true] at accepted ⊢
  refine accepted.imp id fun pod => ?_
  have h := isPodClass_iff.mpr pod
  rw [h.isDynamic, h.noConstructor, h.noDestructor, h.noBases]
  simp only [Bool.not_false, Bool.true_and, List.all_nil, List.all_eq_true]
  intro field member
  have inner := Ty.isPodWith_asRecord? (h.fields field member)
  rw [Option.all_eq_true] at inner ⊢
  exact fun r named => wider r (inner r named)

theorem isStandardLayout_of_isPod (pod : tree.isPod r = true) : tree.isStandardLayout r = true := by
  unfold isPod at pod
  refine descendWithin_imp (fun f g r wider accepted => ?_) _ r pod
  simp only [Bool.or_eq_true] at accepted ⊢
  refine accepted.imp id fun pod => ?_
  have h := isPodClass_iff.mpr pod
  have standard : (tree.record r).fields.any (isNonstandardField g) = false := by
    rw [List.any_eq_false]
    intro field member
    rw [isNonstandardField_of_isPodWith wider (h.fields field member)]
    exact Bool.false_ne_true
  rw [h.isDynamic, hasUniformAccess_of_publicly h.publicly, standard, h.keepsFieldsTogether,
    firstFieldIsNoBase_of_noBases h.noBases, h.noBases]
  rfl

theorem isTrivialStandardLayout_of_isPod (pod : tree.isPod r = true) :
    tree.isTrivialStandardLayout r = true := by
  rw [isTrivialStandardLayout, isTrivial_of_isPod pod, isStandardLayout_of_isPod pod]
  rfl

end Tree

namespace Itanium

variable {f : Frame} {known : Known} {layout : RecordLayout}

/-- Nothing that a derived class may take over as its own is left at the end of the layout. -/
structure LeavesNoTail (layout : RecordLayout) : Prop where
  dataSize : layout.dataSize = layout.size
  nonVirtualSize : ∀ part, layout.asClass = some part → part.nonVirtualSize = layout.size

theorem layPlain_leavesNoTail (laid : (layPlain f).eval known = .ok layout) :
    LeavesNoTail layout := by
  obtain ⟨start, fixed, last, stages⟩ := Ends.holds layPlain_stages laid
  rw [stages.layout]
  exact ⟨rfl, nofun⟩

theorem layClass_leavesNoTail {tracking : Tracking} (keeps : keepsTailPadding f = true)
    (laid : (layClass f tracking).eval known = .ok layout) : LeavesNoTail layout := by
  obtain ⟨map, start, mid, fixed, st, last, stages⟩ := Ends.holds (layClass_stages tracking) laid
  rw [stages.layout, keeps]
  refine ⟨rfl, ?_⟩
  rintro part ⟨⟩
  rfl

theorem layout_leavesNoTail {s : Setting} {r : RecordId} {supplied : Option SuppliedLayout}
    (keeps : keepsTailPadding (.ofRecord s r supplied) = true)
    (laid : (Itanium.layout s r supplied).eval known = .ok layout) : LeavesNoTail layout := by
  unfold Itanium.layout layoutTracking at laid
  dsimp only at laid
  split at laid
  · exact layClass_leavesNoTail keeps laid
  · exact layPlain_leavesNoTail laid

end Itanium

/-- Plain old data in the older sense is plain old data in the newer one. So a record of which the rule
of most targets keeps the tail padding is laid out, by the rule that goes by the newer sense, without
any tail padding to reuse. -/
theorem older_plain_old_data_is_newer (tree : Tree) (r : RecordId) :
    (tree.isPod r = true → tree.isTrivialStandardLayout r = true) ∧
      ∀ s s' : Setting, s.tree = tree → s'.tree = tree →
        s.target.tailPadding = .unlessPod03 → s'.target.tailPadding = .unlessPod11 →
        ∀ supplied supplied', Itanium.keepsTailPadding (.ofRecord s r supplied) = true →
          Itanium.keepsTailPadding (.ofRecord s' r supplied') = true ∧
          ∀ known layout, (Itanium.layout s' r supplied').eval known = .ok layout →
            Itanium.LeavesNoTail layout := by
  refine ⟨Tree.isTrivialStandardLayout_of_isPod, ?_⟩
  intro s s' same same' older newer supplied supplied' protects
  have pod : tree.isPod r = true := by
    simpa only [Itanium.keepsTailPadding, Itanium.Frame.target, Itanium.Frame.tree,
      Itanium.Frame.ofRecord, older, same] using protects
  have keeps : Itanium.keepsTailPadding (.ofRecord s' r supplied') = true := by
    simpa only [Itanium.keepsTailPadding, Itanium.Frame.target, Itanium.Frame.tree,
      Itanium.Frame.ofRecord, newer, same'] using Tree.isTrivialStandardLayout_of_isPod pod
  exact ⟨keeps, fun known layout => Itanium.layout_leavesNoTail keeps⟩

/-- A class with three bytes of tail padding and a constructor of the compiler's, and a class that holds an
array of it under another name. -/
def heldPairs : Tree where
  records := ⟨#[
    .ofClass "Pair" [
      { name := "a", type := .scalar ⟨0⟩ (.integer .int .signed) },
      { name := "b", type := .scalar ⟨1⟩ .plainChar }] [] [⟨0⟩],
    .ofClass "Holder" [
      { name := "pairs", type := .typedef ⟨2⟩ ⟨0⟩ "Pairs" (.array ⟨3⟩ (.record ⟨4⟩ ⟨0⟩) 2) none },
      { name := "next", type := .pointer ⟨5⟩ (.record ⟨6⟩ ⟨1⟩) },
      { name := "c", type := .scalar ⟨1⟩ .plainChar }] [] []]⟩
  methods := ⟨#[{ name := "Pair", owner := ⟨0⟩, kind := .constructor, isImplicit := true }]⟩
  typeCount := 7

def heldPairsOn (arch : Arch) (os : Os) : Setting where
  tree := heldPairs
  target := { arch, os }

theorem older_plain_old_data_is_newer_heldPairs :
    heldPairs.isPod ⟨1⟩ = true ∧ heldPairs.isTrivialStandardLayout ⟨1⟩ = true ∧
      ∃ layout, ((heldPairsOn .aarch64 .mac).known 9).record ⟨1⟩ = .ok layout ∧
        layout.size = 32 ∧ Itanium.LeavesNoTail layout := by
  have pod : heldPairs.isPod ⟨1⟩ = true := by decide
  obtain ⟨newer, leaves⟩ := older_plain_old_data_is_newer heldPairs ⟨1⟩
  obtain ⟨layout, laid⟩ := exists_ok (by decide +kernel :
    (((heldPairsOn .aarch64 .mac).known 9).record ⟨1⟩).isOk = true)
  have size : (((heldPairsOn .aarch64 .mac).known 9).record ⟨1⟩).map (·.size) = .ok 32 := by
    decide +kernel
  rw [laid] at size
  have itanium : (heldPairsOn .aarch64 .mac).IsItanium := ⟨rfl, fun _ => rfl⟩
  have rules := (Setting.known_knows itanium.rules 9).layout_eq itanium laid
  have noTail := (leaves (heldPairsOn .x86_64 .linux) (heldPairsOn .aarch64 .mac) rfl rfl rfl rfl none
    none pod).2 _ layout rules
  exact ⟨pod, newer pod, layout, laid, Except.ok.inj size, noTail⟩

end ObjectLayout
