import ObjectLayout.Decl.Class
import ObjectLayout.Proofs.Descent

/-! The inheritance graph of a declaration tree, and what the properties of classes say of it where
it has no cycles. `virtualBases` lists exactly the classes at the far end of a virtual edge, and a
class that counts as empty has nothing virtual. -/
namespace ObjectLayout

section AppendNew

variable {α : Type} [DecidableEq α]

theorem mem_appendNew {xs ys : List α} {a : α} : a ∈ appendNew xs ys ↔ a ∈ xs ∨ a ∈ ys := by
  unfold appendNew
  induction ys generalizing xs with
  | nil => simp
  | cons y rest ih =>
    rw [List.foldl_cons, ih]
    split
    · rename_i known
      constructor
      · rintro (h | h)
        · exact .inl h
        · exact .inr (.tail _ h)
      · rintro (h | h)
        · exact .inl h
        · rcases List.mem_cons.mp h with rfl | h
          · exact .inl known
          · exact .inr h
    · simp only [List.mem_append, List.mem_cons, List.not_mem_nil, or_false, or_assoc]

theorem nodup_appendNew {xs ys : List α} (distinct : xs.Nodup) : (appendNew xs ys).Nodup := by
  unfold appendNew
  induction ys generalizing xs with
  | nil => exact distinct
  | cons y rest ih =>
    rw [List.foldl_cons]
    split
    · exact ih distinct
    · rename_i fresh
      refine ih (List.nodup_append.mpr ⟨distinct, List.nodup_singleton y, ?_⟩)
      rintro a known b here rfl
      exact fresh (List.mem_singleton.mp here ▸ known)

end AppendNew

namespace Tree

variable (tree : Tree)

def Inherits (r b : RecordId) : Prop := ∃ base ∈ (tree.record r).bases, base.record = b

def InheritsVirtually (r v : RecordId) : Prop :=
  ∃ base ∈ (tree.record r).bases, base.isVirtual = true ∧ base.record = v

def InheritsPlainly (r b : RecordId) : Prop :=
  ∃ base ∈ (tree.record r).nonVirtualBases, base.record = b

/-- Some inheritance path from `r` ends with a virtual edge to `v`. -/
def HasVirtualBase (r v : RecordId) : Prop :=
  ∃ c, Relation.ReflTransGen tree.Inherits r c ∧ tree.InheritsVirtually c v

/-- The inheritance graph below `r` has no cycle. -/
abbrev Acyclic (r : RecordId) : Prop := Grounded tree.Inherits r

variable {tree} {r b c v : RecordId}

theorem InheritsVirtually.inherits (h : tree.InheritsVirtually r v) : tree.Inherits r v := by
  obtain ⟨base, member, _, same⟩ := h
  exact ⟨base, member, same⟩

theorem InheritsPlainly.inherits (h : tree.InheritsPlainly r b) : tree.Inherits r b := by
  obtain ⟨base, member, same⟩ := h
  exact ⟨base, (List.mem_filter.mp member).1, same⟩

theorem HasVirtualBase.direct (h : tree.InheritsVirtually r v) : tree.HasVirtualBase r v :=
  ⟨r, .refl, h⟩

theorem HasVirtualBase.under (edge : tree.Inherits r b) (h : tree.HasVirtualBase b v) :
    tree.HasVirtualBase r v := by
  obtain ⟨c, path, last⟩ := h
  exact ⟨c, .head edge path, last⟩

theorem HasVirtualBase.underAll (path : Relation.ReflTransGen tree.Inherits r b)
    (h : tree.HasVirtualBase b v) : tree.HasVirtualBase r v := by
  obtain ⟨c, further, last⟩ := h
  exact ⟨c, path.trans further, last⟩

theorem HasVirtualBase.below (h : tree.HasVirtualBase r v) :
    Relation.TransGen tree.Inherits r v := by
  obtain ⟨c, path, last⟩ := h
  exact Relation.TransGen.tail' path last.inherits

theorem isClass_of_inherits (edge : tree.Inherits r b) : (tree.record r).isClass = true := by
  obtain ⟨base, member, _⟩ := edge
  by_contra plain
  have none : (tree.record r).asClass? = none := by simpa [Record.isClass] using plain
  simp [Record.bases, none] at member

theorem HasVirtualBase.isClass (h : tree.HasVirtualBase r v) : (tree.record r).isClass = true := by
  obtain ⟨b, edge, _⟩ := Relation.TransGen.head'_iff.mp h.below
  exact isClass_of_inherits edge

theorem hasVirtualBase_iff : tree.HasVirtualBase r v ↔
    ∃ base ∈ (tree.record r).bases,
      (base.isVirtual = true ∧ base.record = v) ∨ tree.HasVirtualBase base.record v := by
  constructor
  · rintro ⟨c, path, last⟩
    rcases Relation.ReflTransGen.cases_head path with rfl | ⟨b, ⟨base, member, rfl⟩, further⟩
    · obtain ⟨base, member, here⟩ := last
      exact ⟨base, member, .inl here⟩
    · exact ⟨base, member, .inr ⟨c, further, last⟩⟩
  · rintro ⟨base, member, here | there⟩
    · exact .direct ⟨base, member, here⟩
    · exact .under ⟨base, member, rfl⟩ there

theorem record_undeclared (outside : ¬ r.position < tree.records.size) :
    tree.record r = .undeclared := by
  have none : tree.records.items[r.position]? = none :=
    Array.getElem?_eq_none (Nat.le_of_not_lt outside)
  simp only [Tree.record, Arena.getD, Arena.get?, none, Option.getD_none]

/-- A property of all declarations is one of every position, if what is not declared has it too. -/
theorem forall_record {P : Record → Prop} (declared : ∀ record ∈ tree.records.items.toList, P record)
    (undeclared : P .undeclared) (r : RecordId) : P (tree.record r) := by
  change P ((tree.records.items[r.position]?).getD .undeclared)
  rw [← Array.getElem?_toList]
  cases found : tree.records.items.toList[r.position]? with
  | none => exact undeclared
  | some record => exact declared record (List.mem_of_getElem? found)

theorem Inherits.declared (h : tree.Inherits r b) : r.position < tree.records.size := by
  obtain ⟨base, member, _⟩ := h
  by_contra outside
  rw [record_undeclared outside] at member
  cases member

theorem isEmptyClass_eq (acyclic : tree.Acyclic r) :
    tree.isEmptyClass r = ((tree.record r).isClass
      && (tree.record r).fields.all (·.bitWidth == some 0)
      && (tree.methodsOf r).all (!·.isVirtual)
      && (tree.record r).bases.all fun base => !base.isVirtual && tree.isEmptyClass base.record) := by
  refine tree.descend_eq (fun _ _ h => h.declared) (fun f g r same => ?_) acyclic
  congr 1
  rw [Bool.eq_iff_iff, List.all_eq_true, List.all_eq_true]
  exact forall₂_congr fun base member => by rw [same base.record ⟨base, member, rfl⟩]

theorem isPolymorphic_eq (acyclic : tree.Acyclic r) :
    tree.isPolymorphic r = ((tree.methodsOf r).any (·.isVirtual)
      || (tree.record r).bases.any (tree.isPolymorphic ·.record)) := by
  refine tree.descend_eq (fun _ _ h => h.declared) (fun f g r same => ?_) acyclic
  congr 1
  rw [Bool.eq_iff_iff, List.any_eq_true, List.any_eq_true]
  exact exists_congr fun base => and_congr_right fun member => by
    rw [same base.record ⟨base, member, rfl⟩]

theorem virtualBases_eq (acyclic : tree.Acyclic r) :
    tree.virtualBases r = (tree.record r).bases.foldl (fun found base =>
      let found := appendNew found (tree.virtualBases base.record)
      if base.isVirtual then appendNew found [base.record] else found) [] := by
  refine tree.descend_eq (fun _ _ h => h.declared) (fun f g r same => ?_) acyclic
  refine List.foldl_ext _ _ _ fun found base member => ?_
  rw [same base.record ⟨base, member, rfl⟩]

theorem mem_virtualBases (acyclic : tree.Acyclic r) :
    v ∈ tree.virtualBases r ↔ tree.HasVirtualBase r v := by
  induction acyclic with
  | intro r lower ih =>
  have acyclic : tree.Acyclic r := .intro lower
  have fold : ∀ (bases : List Base) (found : List RecordId),
      (∀ base ∈ bases, tree.Inherits r base.record) →
      (v ∈ bases.foldl (fun found base =>
        let found := appendNew found (tree.virtualBases base.record)
        if base.isVirtual then appendNew found [base.record] else found) found ↔
      v ∈ found ∨ ∃ base ∈ bases,
        (base.isVirtual = true ∧ base.record = v) ∨ tree.HasVirtualBase base.record v) := by
    intro bases
    induction bases with
    | nil => simp
    | cons base rest more =>
      intro found edges
      have here := ih base.record (edges base List.mem_cons_self)
      rw [List.foldl_cons, more _ fun base member => edges base (.tail _ member)]
      simp only [List.exists_mem_cons_iff, ← here]
      split <;> rename_i virt <;>
        simp only [mem_appendNew, List.mem_singleton, virt, true_and, false_and, false_or,
          eq_comm (a := base.record), or_assoc, or_comm, or_left_comm, Bool.false_eq_true]
  rw [virtualBases_eq acyclic, hasVirtualBase_iff,
    fold _ [] fun base member => ⟨base, member, rfl⟩]
  simp

theorem HasVirtualBase.of_mem_foldl {inherited : RecordId → List RecordId}
    (good : ∀ b u, u ∈ inherited b → tree.HasVirtualBase b u)
    (member : v ∈ (tree.record r).bases.foldl (fun found base =>
      let found := appendNew found (inherited base.record)
      if base.isVirtual then appendNew found [base.record] else found) []) :
    tree.HasVirtualBase r v := by
  have fold : ∀ (bases : List Base) (found : List RecordId), (∀ u ∈ found, tree.HasVirtualBase r u) →
      (∀ base ∈ bases, base ∈ (tree.record r).bases) →
      ∀ u ∈ bases.foldl (fun found base =>
        let found := appendNew found (inherited base.record)
        if base.isVirtual then appendNew found [base.record] else found) found,
      tree.HasVirtualBase r u := by
    intro bases
    induction bases with
    | nil => exact fun found known _ => known
    | cons base rest more =>
      intro found known edges
      have here := edges base List.mem_cons_self
      rw [List.foldl_cons]
      refine more _ (fun u member => ?_) fun base' later => edges base' (.tail _ later)
      have before : ∀ u ∈ appendNew found (inherited base.record), tree.HasVirtualBase r u := by
        intro u member
        rcases mem_appendNew.mp member with member | member
        · exact known u member
        · exact (good base.record u member).under ⟨base, here, rfl⟩
      dsimp only at member
      split at member
      · rename_i virt
        rcases mem_appendNew.mp member with member | member
        · exact before u member
        · cases List.mem_singleton.mp member
          exact .direct ⟨base, here, virt, rfl⟩
      · exact before u member
  exact fold _ [] nofun (fun _ => id) v member

/-- Cycles or not, nothing but virtual bases is listed. -/
theorem HasVirtualBase.of_mem (member : v ∈ tree.virtualBases r) : tree.HasVirtualBase r v := by
  unfold virtualBases Tree.descend at member
  generalize tree.records.size + 1 = depth at member
  induction depth generalizing r v with
  | zero => cases member
  | succ depth ih => exact .of_mem_foldl (fun b u => ih) member

theorem virtualBases_nodup (acyclic : tree.Acyclic r) : (tree.virtualBases r).Nodup := by
  rw [virtualBases_eq acyclic]
  have fold : ∀ (bases : List Base) (found : List RecordId), found.Nodup →
      (bases.foldl (fun found base =>
        let found := appendNew found (tree.virtualBases base.record)
        if base.isVirtual then appendNew found [base.record] else found) found).Nodup := by
    intro bases
    induction bases with
    | nil => exact fun _ distinct => distinct
    | cons base rest more =>
      intro found distinct
      rw [List.foldl_cons]
      refine more _ ?_
      dsimp only
      split
      · exact nodup_appendNew (nodup_appendNew distinct)
      · exact nodup_appendNew distinct
  exact fold _ [] List.nodup_nil

theorem hasVirtualBases_iff (acyclic : tree.Acyclic r) :
    tree.hasVirtualBases r = true ↔ ∃ v, tree.HasVirtualBase r v := by
  unfold hasVirtualBases
  simp only [← mem_virtualBases acyclic]
  cases tree.virtualBases r with
  | nil => simp
  | cons v rest => simp

theorem isEmptyClass_isClass (acyclic : tree.Acyclic r) (empty : tree.isEmptyClass r = true) :
    (tree.record r).isClass = true := by
  rw [isEmptyClass_eq acyclic] at empty
  simp only [Bool.and_eq_true] at empty
  exact empty.1.1.1

theorem isEmptyClass_bitWidth (acyclic : tree.Acyclic r) (empty : tree.isEmptyClass r = true)
    {field : Field} (member : field ∈ (tree.record r).fields) : field.bitWidth = some 0 := by
  rw [isEmptyClass_eq acyclic] at empty
  simp only [Bool.and_eq_true, List.all_eq_true, beq_iff_eq] at empty
  exact empty.1.1.2 field member

theorem isEmptyClass_base (acyclic : tree.Acyclic r) (empty : tree.isEmptyClass r = true)
    {base : Base} (member : base ∈ (tree.record r).bases) :
    base.isVirtual = false ∧ tree.isEmptyClass base.record = true := by
  rw [isEmptyClass_eq acyclic] at empty
  simp only [Bool.and_eq_true, List.all_eq_true, Bool.not_eq_true'] at empty
  exact empty.2 base member

/-- Nothing virtual is declared in an empty class or inherited by it. -/
theorem not_isDynamic_of_isEmptyClass (acyclic : tree.Acyclic r)
    (empty : tree.isEmptyClass r = true) : tree.isDynamic r = false := by
  induction acyclic with
  | intro r lower ih =>
  have acyclic : tree.Acyclic r := .intro lower
  have bases := fun base (member : base ∈ (tree.record r).bases) =>
    isEmptyClass_base acyclic empty member
  have still : ∀ base ∈ (tree.record r).bases, tree.isDynamic base.record = false :=
    fun base member => ih base.record ⟨base, member, rfl⟩ (bases base member).2
  simp only [isDynamic, Bool.or_eq_false_iff] at still ⊢
  constructor
  · rw [isEmptyClass_eq acyclic] at empty
    simp only [Bool.and_eq_true, List.all_eq_true, Bool.not_eq_true'] at empty
    rw [isPolymorphic_eq acyclic]
    simp only [Bool.or_eq_false_iff, List.any_eq_false, Bool.not_eq_true]
    exact ⟨empty.1.2, fun base member => (still base member).1⟩
  · by_contra has
    rw [Bool.not_eq_false, hasVirtualBases_iff acyclic] at has
    obtain ⟨v, has⟩ := has
    obtain ⟨base, member, ⟨virt, _⟩ | deeper⟩ := hasVirtualBase_iff.mp has
    · exact absurd virt (by simp [(bases base member).1])
    · have none := (still base member).2
      have some := (hasVirtualBases_iff (acyclic.lower ⟨base, member, rfl⟩)).mpr ⟨v, deeper⟩
      rw [none] at some
      cases some

theorem isDynamic_of_hasVirtualBase (acyclic : tree.Acyclic r) (h : tree.HasVirtualBase r v) :
    tree.isDynamic r = true := by
  have := (hasVirtualBases_iff acyclic).mpr ⟨v, h⟩
  simp [isDynamic, this]

section NoBases

variable (none : (tree.record r).bases = [])
include none

theorem not_inherits_of_noBases : ¬ tree.Inherits r b := by
  rintro ⟨base, member, _⟩
  rw [none] at member
  cases member

theorem acyclic_of_noBases : tree.Acyclic r :=
  .intro fun _ edge => absurd edge (not_inherits_of_noBases none)

theorem hasVirtualBases_of_noBases : tree.hasVirtualBases r = false := by
  rw [hasVirtualBases, virtualBases_eq (acyclic_of_noBases none), none]
  rfl

end NoBases

/-- A plain record, and a class declared like it that has neither bases nor virtual methods. -/
structure DeclaredAlike (tree : Tree) (plain bare : RecordId) : Prop where
  fields : (tree.record bare).fields = (tree.record plain).fields
  attributes : (tree.record bare).attributes = (tree.record plain).attributes
  isUnion : (tree.record bare).isUnion = (tree.record plain).isUnion
  isPlain : (tree.record plain).isClass = false
  isClass : (tree.record bare).isClass = true
  bases : (tree.record bare).bases = []
  methods : (tree.methodsOf bare).any (·.isVirtual) = false

namespace DeclaredAlike

variable {plain bare : RecordId} (alike : tree.DeclaredAlike plain bare)
include alike

theorem acyclic : tree.Acyclic bare := acyclic_of_noBases alike.bases

theorem notDynamic : tree.isDynamic bare = false := by
  have polymorphic : tree.isPolymorphic bare = false := by
    rw [isPolymorphic_eq alike.acyclic, alike.methods, alike.bases]
    rfl
  rw [isDynamic, polymorphic, hasVirtualBases_of_noBases alike.bases]
  rfl

end DeclaredAlike

end Tree

end ObjectLayout
