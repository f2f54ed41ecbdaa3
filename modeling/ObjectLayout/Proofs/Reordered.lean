import ObjectLayout.Proofs.PlainOldData

/-! Records that differ in the order of their fields only. Each property of a class asks of its fields
what does not depend on their order, except that the first field of a class of standard layout may not
have the type of a base. -/
namespace ObjectLayout

namespace Tree

variable {tree : Tree} {r r' : RecordId}

/-- The second record is declared like the first, with its fields in any order. -/
structure Reorders (tree : Tree) (r r' : RecordId) : Prop where
  fields : ((tree.record r').fields).Perm (tree.record r).fields
  attributes : (tree.record r').attributes = (tree.record r).attributes
  isUnion : (tree.record r').isUnion = (tree.record r).isUnion
  isClass : (tree.record r').isClass = (tree.record r).isClass
  bases : (tree.record r').bases = (tree.record r).bases
  methods : (tree.methodsOf r').any (·.isVirtual) = (tree.methodsOf r).any (·.isVirtual)
  declared : ∀ kind, tree.hasUserDeclared r' kind = tree.hasUserDeclared r kind

theorem hasUniformAccess_iff {fields : List Field} :
    hasUniformAccess fields = true ↔ ∀ a ∈ fields, ∀ b ∈ fields, a.access = b.access := by
  cases fields with
  | nil => simp [hasUniformAccess]
  | cons first rest =>
    simp only [hasUniformAccess, List.all_eq_true, beq_iff_eq]
    constructor
    · intro same a member b member'
      have likeFirst {field : Field} (member : field ∈ first :: rest) :
          field.access = first.access := by
        rcases List.mem_cons.mp member with rfl | later
        · rfl
        · exact same field later
      rw [likeFirst member, likeFirst member']
    · exact fun same field later => same field (.tail _ later) first List.mem_cons_self

theorem hasUniformAccess_perm {fields fields' : List Field} (perm : fields'.Perm fields) :
    hasUniformAccess fields' = hasUniformAccess fields := by
  rw [Bool.eq_iff_iff, hasUniformAccess_iff, hasUniformAccess_iff]
  simp only [perm.mem_iff]

/-- With or without cycles, a direct virtual base is listed. -/
theorem mem_virtualBases_of_virtual {base : Base} (member : base ∈ (tree.record r).bases)
    (virt : base.isVirtual = true) : base.record ∈ tree.virtualBases r := by
  unfold virtualBases descend descendWithin
  generalize descendWithin _ _ _ = inherited
  have kept (bases : List Base) : ∀ found : List RecordId, base.record ∈ found →
      base.record ∈ bases.foldl (fun found base =>
        let found := appendNew found (inherited base.record)
        if base.isVirtual then appendNew found [base.record] else found) found := by
    induction bases with
    | nil => exact fun _ => id
    | cons other rest ih =>
      intro found known
      refine ih _ ?_
      dsimp only
      split
      · exact mem_appendNew.mpr (.inl (mem_appendNew.mpr (.inl known)))
      · exact mem_appendNew.mpr (.inl known)
  obtain ⟨before, after, split⟩ := List.append_of_mem member
  rw [split, List.foldl_append, List.foldl_cons]
  refine kept after _ ?_
  dsimp only
  rw [if_pos virt]
  exact mem_appendNew.mpr (.inr List.mem_cons_self)

theorem isDynamic_of_virtual {base : Base} (member : base ∈ (tree.record r).bases)
    (virt : base.isVirtual = true) : tree.isDynamic r = true := by
  rw [isDynamic, hasVirtualBases,
    List.isEmpty_eq_false_iff_exists_mem.mpr ⟨_, mem_virtualBases_of_virtual member virt⟩]
  exact Bool.or_true _

namespace Reorders

variable (reorders : tree.Reorders r r')
include reorders

theorem isPolymorphic : tree.isPolymorphic r' = tree.isPolymorphic r := by
  unfold Tree.isPolymorphic descend descendWithin
  rw [reorders.methods, reorders.bases]

theorem virtualBases : tree.virtualBases r' = tree.virtualBases r := by
  unfold Tree.virtualBases descend descendWithin
  rw [reorders.bases]

theorem isDynamic : tree.isDynamic r' = tree.isDynamic r := by
  rw [Tree.isDynamic, Tree.isDynamic, hasVirtualBases, hasVirtualBases, reorders.isPolymorphic,
    reorders.virtualBases]

theorem isEmptyClass : tree.isEmptyClass r' = tree.isEmptyClass r := by
  have methods : (tree.methodsOf r').all (!·.isVirtual) = (tree.methodsOf r).all (!·.isVirtual) := by
    rw [← List.not_any_eq_all_not, ← List.not_any_eq_all_not, reorders.methods]
  unfold Tree.isEmptyClass descend descendWithin
  rw [reorders.isClass, reorders.fields.all_eq, methods, reorders.bases]

theorem isPod : tree.isPod r' = tree.isPod r := by
  unfold Tree.isPod descend descendWithin
  dsimp only
  rw [reorders.isClass, reorders.bases, reorders.isPolymorphic, reorders.declared, reorders.declared,
    reorders.fields.all_eq]

theorem isTrivial : tree.isTrivial r' = tree.isTrivial r := by
  unfold Tree.isTrivial descend descendWithin
  dsimp only
  rw [reorders.isClass, reorders.isDynamic, reorders.declared, reorders.declared, reorders.bases,
    reorders.fields.all_eq]

theorem keepsFieldsTogether : tree.keepsFieldsTogether r' = tree.keepsFieldsTogether r := by
  unfold Tree.keepsFieldsTogether
  dsimp only
  rw [reorders.bases, reorders.fields.isEmpty_eq]

/-- A class with virtual bases has no standard layout anyway. -/
theorem isStandardLayout (virtual : (tree.record r).nonVirtualBases = []) :
    tree.isStandardLayout r' = tree.isStandardLayout r := by
  unfold Tree.isStandardLayout descend descendWithin
  dsimp only
  rw [reorders.isClass, reorders.isDynamic, hasUniformAccess_perm reorders.fields,
    reorders.fields.any_eq, reorders.bases, reorders.keepsFieldsTogether]
  cases bases : (tree.record r).bases with
  | nil =>
    rw [firstFieldIsNoBase_of_noBases bases,
      firstFieldIsNoBase_of_noBases (reorders.bases.trans bases)]
  | cons base rest =>
    have member : base ∈ (tree.record r).bases := by rw [bases]; exact List.mem_cons_self
    have virt : base.isVirtual = true := by
      have := List.filter_eq_nil_iff.mp virtual base member
      simpa using this
    rw [isDynamic_of_virtual member virt]
    rfl

theorem isTrivialStandardLayout (virtual : (tree.record r).nonVirtualBases = []) :
    tree.isTrivialStandardLayout r' = tree.isTrivialStandardLayout r := by
  rw [Tree.isTrivialStandardLayout, Tree.isTrivialStandardLayout, reorders.isTrivial,
    reorders.isStandardLayout virtual]

theorem heldRecords {s : Setting} (same : s.tree = tree) :
    (EmptyMap.heldRecords s r').Perm (EmptyMap.heldRecords s r) := by
  unfold EmptyMap.heldRecords
  rw [same, reorders.bases]
  exact (reorders.fields.filterMap _).append_left _

end Reorders

end Tree

end ObjectLayout
