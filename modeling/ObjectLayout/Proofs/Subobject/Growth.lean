import ObjectLayout.Proofs.Itanium.Primary

/-! Growing the graph of base subobjects. Each visit adds the occurrences of one class and of its
bases, leaves what is there alone, and sees to it that the virtual primary base of every occurrence
is claimed. `Growing` is the invariant of the whole construction, with the occurrences still being
worked on set aside. -/
namespace ObjectLayout.SubobjectGraph

open LayoutM (ends_bind)

variable {s : Setting} {known : Known} {allowed : Fault → Prop}
variable {g g' g'' : SubobjectGraph} {i j k p : SubobjectId} {r v top : RecordId}

def Has (g : SubobjectGraph) (i : SubobjectId) : Prop := i.position < g.nodes.size

section Nodes

theorem node_push_next (x : Subobject) : (g.push x).node g.nodes.next = x := by
  simp [node, push, Arena.getD, Arena.get?_push_next]

theorem node_push_of_has (x : Subobject) (has : g.Has i) : (g.push x).node i = g.node i := by
  simp only [node, push, Arena.getD, Arena.get?_push_of_lt _ _ _ has]

theorem has_push (x : Subobject) : (g.push x).Has i ↔ g.Has i ∨ i = g.nodes.next := by
  obtain ⟨position⟩ := i
  simp only [Has, push, Arena.push, Arena.size, Array.size_push, Arena.next, Idx.mk.injEq]
  omega

theorem node_missing (missing : ¬ g.Has i) : g.node i = SubobjectGraph.missing := by
  have none : g.nodes.items[i.position]? = none :=
    Array.getElem?_eq_none (Nat.le_of_not_lt missing)
  simp only [node, Arena.getD, Arena.get?, none, Option.getD_none]

@[simp] theorem size_modify (f : Subobject → Subobject) :
    (g.modify i f).nodes.size = g.nodes.size := by
  simp [modify, Arena.modify, Arena.size]

@[simp] theorem has_modify (f : Subobject → Subobject) : (g.modify i f).Has j ↔ g.Has j := by
  simp only [Has, size_modify]

theorem node_modify_self (f : Subobject → Subobject) (has : g.Has i) :
    (g.modify i f).node i = f (g.node i) := by
  have bound : i.position < g.nodes.items.size := has
  simp [node, modify, Arena.modify, Arena.getD, Arena.get?, Array.getElem?_modify,
    Array.getElem?_eq_getElem bound]

theorem node_modify_of_ne (f : Subobject → Subobject) (ne : j ≠ i) :
    (g.modify i f).node j = g.node j := by
  have differs : i.position ≠ j.position := fun same => ne (Idx.position_injective same).symm
  simp [node, modify, Arena.modify, Arena.getD, Arena.get?, Array.getElem?_modify, differs]

@[simp] theorem virtualBases_modify (f : Subobject → Subobject) :
    (g.modify i f).virtualBases = g.virtualBases := rfl

@[simp] theorem nonVirtualBases_modify (f : Subobject → Subobject) :
    (g.modify i f).nonVirtualBases = g.nonVirtualBases := rfl

/-- A field that a modification leaves alone everywhere. -/
theorem node_modify_field {α : Type} (field : Subobject → α) {f : Subobject → Subobject}
    (same : ∀ x, field (f x) = field x) (has : g.Has i) :
    field ((g.modify i f).node j) = field (g.node j) := by
  by_cases h : j = i
  · subst h
    rw [node_modify_self f has, same]
  · rw [node_modify_of_ne f h]

theorem node_push (x : Subobject) :
    (g.push x).node k = if k = g.nodes.next then x else g.node k := by
  split
  · subst k
    exact node_push_next x
  · rename_i other
    by_cases has : g.Has k
    · exact node_push_of_has x has
    · rw [node_missing has, node_missing fun has' => ((has_push x).mp has').elim has other]

theorem node_occurrence {isVirtual : Bool} : (g.occurrence r isVirtual).1.node k =
    if k = g.nodes.next then { record := r, isVirtual } else g.node k := by
  cases isVirtual <;> exact node_push _

theorem has_occurrence {isVirtual : Bool} :
    (g.occurrence r isVirtual).1.Has k ↔ g.Has k ∨ k = g.nodes.next := by
  cases isVirtual <;> exact has_push _

theorem not_has_next : ¬ g.Has g.nodes.next := Nat.lt_irrefl _

theorem node_occurrence_of_has {isVirtual : Bool} (has : g.Has k) :
    (g.occurrence r isVirtual).1.node k = g.node k := by
  rw [node_occurrence, if_neg]
  rintro rfl
  exact not_has_next has

theorem find?_occurrence {isVirtual : Bool} :
    (g.occurrence r isVirtual).1.virtualBases.find? v =
      if isVirtual = true ∧ v = r then some g.nodes.next else g.virtualBases.find? v := by
  cases isVirtual with
  | false => simp [occurrence, push]
  | true =>
    by_cases same : v = r
    · subst same
      simp [occurrence, push, OrderedMap.find?_insert_self]
    · simp [occurrence, push, OrderedMap.find?_insert_of_ne _ _ same, same]

@[simp] theorem size_claim : (g.claim i p).nodes.size = g.nodes.size := by
  simp [claim]

@[simp] theorem has_claim : (g.claim i p).Has j ↔ g.Has j := by
  simp [claim]

/-- A field that no claim touches. -/
theorem node_claim_field {α : Type} (field : Subobject → α)
    (same : ∀ x v, field { x with primaryVirtual := v } = field x)
    (same' : ∀ x c, field { x with claimedBy := c } = field x) (here : g.Has i) (there : g.Has p) :
    field ((g.claim i p).node j) = field (g.node j) := by
  unfold claim
  rw [node_modify_field field (fun x => same' x _) ((has_modify _).mpr there),
    node_modify_field field (fun x => same x _) here]

theorem record_claim (here : g.Has i) (there : g.Has p) (k : SubobjectId) :
    ((g.claim i p).node k).record = (g.node k).record :=
  node_claim_field (·.record) (fun _ _ => rfl) (fun _ _ => rfl) here there

theorem isVirtual_claim (here : g.Has i) (there : g.Has p) (k : SubobjectId) :
    ((g.claim i p).node k).isVirtual = (g.node k).isVirtual :=
  node_claim_field (·.isVirtual) (fun _ _ => rfl) (fun _ _ => rfl) here there

theorem bases_claim (here : g.Has i) (there : g.Has p) (k : SubobjectId) :
    ((g.claim i p).node k).bases = (g.node k).bases :=
  node_claim_field (·.bases) (fun _ _ => rfl) (fun _ _ => rfl) here there

theorem primaryVirtual_claim (here : g.Has i) (there : g.Has p) :
    ((g.claim i p).node j).primaryVirtual = if j = i then some p else (g.node j).primaryVirtual := by
  have outer : ((g.claim i p).node j).primaryVirtual =
      ((g.modify i ({ · with primaryVirtual := some p })).node j).primaryVirtual :=
    node_modify_field (·.primaryVirtual) (fun _ => rfl) ((has_modify _).mpr there)
  rw [outer]
  split
  · subst j
    rw [node_modify_self _ here]
  · rw [node_modify_of_ne _ ‹_›]

theorem claimedBy_claim (here : g.Has i) (there : g.Has p) :
    ((g.claim i p).node j).claimedBy = if j = p then some i else (g.node j).claimedBy := by
  unfold claim
  split
  · subst j
    rw [node_modify_self _ ((has_modify _).mpr there)]
  · rw [node_modify_of_ne _ ‹_›]
    exact node_modify_field (·.claimedBy) (fun _ => rfl) here

/-- One more base for an occurrence, the last one so far. -/
def addBase (g : SubobjectGraph) (i j : SubobjectId) : SubobjectGraph :=
  g.modify i fun node => { node with bases := node.bases ++ [j] }

@[simp] theorem has_addBase : (g.addBase i j).Has k ↔ g.Has k := has_modify _

theorem bases_addBase_of_ne (ne : k ≠ i) : ((g.addBase i j).node k).bases = (g.node k).bases :=
  congrArg Subobject.bases (node_modify_of_ne _ ne)

section AddBase

variable (here : g.Has i)
include here

theorem record_addBase (k : SubobjectId) : ((g.addBase i j).node k).record = (g.node k).record :=
  node_modify_field (·.record) (fun _ => rfl) here

theorem isVirtual_addBase (k : SubobjectId) :
    ((g.addBase i j).node k).isVirtual = (g.node k).isVirtual :=
  node_modify_field (·.isVirtual) (fun _ => rfl) here

theorem primaryVirtual_addBase (k : SubobjectId) :
    ((g.addBase i j).node k).primaryVirtual = (g.node k).primaryVirtual :=
  node_modify_field (·.primaryVirtual) (fun _ => rfl) here

theorem claimedBy_addBase (k : SubobjectId) :
    ((g.addBase i j).node k).claimedBy = (g.node k).claimedBy :=
  node_modify_field (·.claimedBy) (fun _ => rfl) here

theorem bases_addBase_self : ((g.addBase i j).node i).bases = (g.node i).bases ++ [j] :=
  congrArg Subobject.bases (node_modify_self _ here)

theorem mem_bases_addBase {l : SubobjectId} :
    l ∈ ((g.addBase i j).node k).bases ↔ l ∈ (g.node k).bases ∨ k = i ∧ l = j := by
  by_cases same : k = i
  · subst same
    rw [bases_addBase_self here]
    simp
  · rw [bases_addBase_of_ne same]
    simp [same]

end AddBase

end Nodes

/-- The bases of an occurrence are those of its class, its virtual primary base is claimed, and
every virtual base below it has an occurrence. -/
structure Finished (s : Setting) (known : Known) (g : SubobjectGraph) (i : SubobjectId) : Prop where
  bases : List.Forall₂ (fun base j => g.Has j ∧ (g.node j).record = base.record ∧
    (g.node j).isVirtual = base.isVirtual) (s.tree.record (g.node i).record).bases (g.node i).bases
  claimed : ∀ v, known.virtualPrimary? (g.node i).record = some v →
    ∃ p, g.virtualBases.find? v = some p ∧ (g.node p).claimedBy.isSome
  covered : ∀ v, s.tree.HasVirtualBase (g.node i).record v → (g.virtualBases.find? v).isSome

structure Growing (s : Setting) (known : Known) (top : RecordId) (opened : SubobjectId → Prop)
    (g : SubobjectGraph) : Prop where
  found : ∀ r k, g.virtualBases.find? r = some k →
    g.Has k ∧ (g.node k).record = r ∧ (g.node k).isVirtual = true
  listed : ∀ k, g.Has k → (g.node k).isVirtual = true →
    g.virtualBases.find? (g.node k).record = some k
  primary : ∀ c p, (g.node c).primaryVirtual = some p → g.Has p ∧ (g.node p).isVirtual = true ∧
    known.virtualPrimary? (g.node c).record = some (g.node p).record
  holder : ∀ p c, (g.node p).claimedBy = some c → g.Has c ∧ (g.node c).primaryVirtual = some p
  finished : ∀ i, g.Has i → ¬ opened i → Finished s known g i
  inner : ∀ i j, j ∈ (g.node i).bases → g.Has j
  once : ∀ i i' j, (g.node j).isVirtual = false → j ∈ (g.node i).bases → j ∈ (g.node i').bases →
    i = i'
  distinct : ∀ i, (g.nonVirtualBasesOf i).Nodup
  below : ∀ i, g.Has i → Relation.TransGen s.tree.Inherits top (g.node i).record
  virtual : ∀ i, g.Has i → (g.node i).isVirtual = true →
    s.tree.HasVirtualBase top (g.node i).record

/-- What is there stays as it is, except that a virtual base may come to be claimed by another; and
no occurrence that is not one of a virtual base becomes the base of a further one. -/
structure Extends (g g' : SubobjectGraph) : Prop where
  size : g.nodes.size ≤ g'.nodes.size
  record : ∀ k, g.Has k → (g'.node k).record = (g.node k).record
  isVirtual : ∀ k, g.Has k → (g'.node k).isVirtual = (g.node k).isVirtual
  bases : ∀ k, g.Has k → (g'.node k).bases = (g.node k).bases
  primary : ∀ k, g.Has k → (g'.node k).primaryVirtual = (g.node k).primaryVirtual
  claimed : ∀ k, g.Has k → (g.node k).claimedBy.isSome → (g'.node k).claimedBy.isSome
  found : ∀ r k, g.virtualBases.find? r = some k → g'.virtualBases.find? r = some k
  plain : g'.nonVirtualBases = g.nonVirtualBases
  settled : ∀ k i, g.Has k → (g.node k).isVirtual = false → k ∈ (g'.node i).bases →
    g.Has i ∧ k ∈ (g.node i).bases

namespace Extends

theorem refl (g : SubobjectGraph) : Extends g g where
  size := le_rfl
  record _ _ := rfl
  isVirtual _ _ := rfl
  bases _ _ := rfl
  primary _ _ := rfl
  claimed _ _ := id
  found _ _ := id
  plain := rfl
  settled k i _ _ member := by
    refine ⟨?_, member⟩
    by_contra missing
    rw [node_missing missing] at member
    cases member

theorem member (h : Extends g g') (inside : j ∈ (g.node k).bases) : j ∈ (g'.node k).bases := by
  have has : g.Has k := by
    by_contra missing
    rw [node_missing missing] at inside
    cases inside
  rwa [h.bases k has]

theorem has (h : Extends g g') (here : g.Has k) : g'.Has k := lt_of_lt_of_le here h.size

theorem trans (h : Extends g g') (h' : Extends g' g'') : Extends g g'' where
  size := h.size.trans h'.size
  record k here := (h'.record k (h.has here)).trans (h.record k here)
  isVirtual k here := (h'.isVirtual k (h.has here)).trans (h.isVirtual k here)
  bases k here := (h'.bases k (h.has here)).trans (h.bases k here)
  primary k here := (h'.primary k (h.has here)).trans (h.primary k here)
  claimed k here some := h'.claimed k (h.has here) (h.claimed k here some)
  found r k same := h'.found r k (h.found r k same)
  plain := h'.plain.trans h.plain
  settled k i here plain member :=
    h.settled k i here plain
      (h'.settled k i (h.has here) ((h.isVirtual k here).trans plain) member).2

theorem occurrence {isVirtual : Bool}
    (unlisted : isVirtual = true → g.virtualBases.find? r = none) :
    Extends g (g.occurrence r isVirtual).1 where
  size := by cases isVirtual <;> simp [SubobjectGraph.occurrence, push, Arena.push, Arena.size]
  record k has := by rw [node_occurrence_of_has has]
  isVirtual k has := by rw [node_occurrence_of_has has]
  bases k has := by rw [node_occurrence_of_has has]
  primary k has := by rw [node_occurrence_of_has has]
  claimed k has := by rw [node_occurrence_of_has has]; exact id
  found v k found := by
    rw [find?_occurrence, if_neg]
    · exact found
    · rintro ⟨virt, rfl⟩
      rw [unlisted virt] at found
      cases found
  plain := by cases isVirtual <;> rfl
  settled k i has _ member := by
    rw [node_occurrence] at member
    split at member
    · cases member
    · refine ⟨?_, member⟩
      by_contra missing
      rw [node_missing missing] at member
      cases member

/-- An occurrence that was not there may get bases that were not there or are virtual. -/
theorem addBase (h : Extends g g') (missing : ¬ g.Has i) (here : g'.Has i)
    (fresh : g.Has j → (g.node j).isVirtual = true) : Extends g (g'.addBase i j) where
  size := by simpa [SubobjectGraph.addBase] using h.size
  record k old := by rw [record_addBase here, h.record k old]
  isVirtual k old := by rw [isVirtual_addBase here, h.isVirtual k old]
  bases k old := by
    rw [bases_addBase_of_ne, h.bases k old]
    rintro rfl
    exact missing old
  primary k old := by rw [primaryVirtual_addBase here, h.primary k old]
  claimed k old := by rw [claimedBy_addBase here]; exact h.claimed k old
  found := h.found
  plain := h.plain
  settled k l old plain member := by
    rcases (mem_bases_addBase here).mp member with member | ⟨rfl, rfl⟩
    · exact h.settled k l old plain member
    · rw [fresh old] at plain
      cases plain

/-- An occurrence that was not there may claim anything. -/
theorem claim (h : Extends g g') (missing : ¬ g.Has i) (here : g'.Has i) (there : g'.Has p) :
    Extends g (g'.claim i p) where
  size := by simpa using h.size
  record k old := by rw [record_claim here there, h.record k old]
  isVirtual k old := by rw [isVirtual_claim here there, h.isVirtual k old]
  bases k old := by rw [bases_claim here there, h.bases k old]
  primary k old := by
    have ne : k ≠ i := by
      rintro rfl
      exact missing old
    rw [primaryVirtual_claim here there, if_neg ne, h.primary k old]
  claimed k old some := by
    rw [claimedBy_claim here there]
    split
    · rfl
    · exact h.claimed k old some
  found r k same := h.found r k same
  plain := h.plain
  settled k l old virt member := by
    rw [bases_claim here there] at member
    exact h.settled k l old virt member

end Extends

/-- An occurrence is finished as long as what it was finished with is still there. -/
theorem Finished.keep (h : Finished s known g i) (has : ∀ k, g.Has k → g'.Has k)
    (here : g.Has i) (record : ∀ k, g.Has k → (g'.node k).record = (g.node k).record)
    (isVirtual : ∀ k, g.Has k → (g'.node k).isVirtual = (g.node k).isVirtual)
    (bases : (g'.node i).bases = (g.node i).bases)
    (claimed : ∀ k, g.Has k → (g.node k).claimedBy.isSome → (g'.node k).claimedBy.isSome)
    (listed : ∀ r k, g.virtualBases.find? r = some k → g.Has k ∧ g'.virtualBases.find? r = some k) :
    Finished s known g' i where
  bases := by
    rw [record i here, bases]
    refine h.bases.imp fun base j ⟨there, same, virt⟩ => ?_
    exact ⟨has j there, (record j there).trans same, (isVirtual j there).trans virt⟩
  claimed v primary := by
    rw [record i here] at primary
    obtain ⟨p, found, some⟩ := h.claimed v primary
    exact ⟨p, (listed v p found).2, claimed p (listed v p found).1 some⟩
  covered v has := by
    rw [record i here] at has
    obtain ⟨k, found⟩ := Option.isSome_iff_exists.mp (h.covered v has)
    exact Option.isSome_iff_exists.mpr ⟨k, (listed v k found).2⟩

namespace Growing

variable {opened opened' : SubobjectId → Prop}

theorem nonVirtualBasesOf_addBase (h : Growing s known top opened g) (here : g.Has i)
    (fresh : (g.node j).isVirtual = false → ∀ i', j ∉ (g.node i').bases) (k : SubobjectId) :
    ((g.addBase i j).nonVirtualBasesOf k).Nodup := by
  have filtered : (g.addBase i j).nonVirtualBasesOf k =
      ((g.addBase i j).node k).bases.filter fun base => !(g.node base).isVirtual := by
    simp only [nonVirtualBasesOf, isVirtual_addBase here]
  rw [filtered]
  by_cases same : k = i
  · subst same
    rw [bases_addBase_self here, List.filter_append]
    refine List.nodup_append.mpr ⟨h.distinct k, ?_, ?_⟩
    · exact List.Nodup.filter _ (List.nodup_singleton j)
    · rintro a old b new rfl
      simp only [List.mem_filter, List.mem_singleton, Bool.not_eq_true'] at old new
      obtain ⟨rfl, plain⟩ := new
      exact fresh plain k old.1
  · rw [bases_addBase_of_ne same]
    exact h.distinct k

theorem addBase (h : Growing s known top opened g) (here : g.Has i) (working : opened i)
    (there : g.Has j) (fresh : (g.node j).isVirtual = false → ∀ i', j ∉ (g.node i').bases) :
    Growing s known top opened (g.addBase i j) := by
  have record := record_addBase (j := j) here
  have isVirtual := isVirtual_addBase (j := j) here
  constructor
  case found =>
    intro r k found
    rw [has_addBase, record, isVirtual]
    exact h.found r k found
  case listed =>
    intro k has virt
    rw [isVirtual] at virt
    rw [record]
    exact h.listed k (has_addBase.mp has) virt
  case primary =>
    intro c p same
    rw [primaryVirtual_addBase here] at same
    rw [has_addBase, record, record, isVirtual]
    exact h.primary c p same
  case holder =>
    intro p c same
    rw [claimedBy_addBase here] at same
    rw [has_addBase, primaryVirtual_addBase here]
    exact h.holder p c same
  case finished =>
    intro k has closed
    have has := has_addBase.mp has
    have ne : k ≠ i := fun same => closed (same ▸ working)
    refine (h.finished k has closed).keep (fun _ => has_addBase.mpr) has (fun k _ => record k)
      (fun k _ => isVirtual k) (bases_addBase_of_ne ne) (fun k _ => by rw [claimedBy_addBase here]; exact id)
      (fun r k found => ⟨(h.found r k found).1, found⟩)
  case inner =>
    intro k l member
    rw [has_addBase]
    rcases (mem_bases_addBase here).mp member with old | ⟨rfl, rfl⟩
    · exact h.inner k l old
    · exact there
  case once =>
    intro k k' l plain member member'
    rw [isVirtual] at plain
    rcases (mem_bases_addBase here).mp member with old | ⟨rfl, rfl⟩
    · rcases (mem_bases_addBase here).mp member' with old' | ⟨rfl, rfl⟩
      · exact h.once k k' l plain old old'
      · exact absurd old (fresh plain k)
    · rcases (mem_bases_addBase here).mp member' with old' | ⟨same, _⟩
      · exact absurd old' (fresh plain k')
      · exact same.symm
  case distinct => exact h.nonVirtualBasesOf_addBase here fresh
  case below =>
    intro k has
    rw [record]
    exact h.below k (has_addBase.mp has)
  case virtual =>
    intro k has virt
    rw [isVirtual] at virt
    rw [record]
    exact h.virtual k (has_addBase.mp has) virt

/-- Claiming a virtual base keeps all the rest; who held it before has lost it. -/
theorem claim (h : Growing s known top opened g) (here : g.Has i) (working : opened i)
    (unclaiming : (g.node i).primaryVirtual = none) (there : g.Has p)
    (virt : (g.node p).isVirtual = true)
    (names : known.virtualPrimary? (g.node i).record = some (g.node p).record) :
    Growing s known top opened (g.claim i p) := by
  have record := record_claim here there
  have isVirtual := isVirtual_claim here there
  have bases := bases_claim here there
  constructor
  case found => exact fun r k found => by simpa only [has_claim, record, isVirtual] using h.found r k found
  case listed =>
    intro k has virt
    rw [has_claim] at has
    rw [isVirtual] at virt
    rw [record]
    exact h.listed k has virt
  case primary =>
    intro c p' same
    rw [primaryVirtual_claim here there] at same
    simp only [has_claim, record, isVirtual]
    split at same
    · rename_i eq
      subst eq
      cases same
      exact ⟨there, virt, names⟩
    · exact h.primary c p' same
  case holder =>
    intro p' c same
    rw [claimedBy_claim here there] at same
    rw [has_claim, primaryVirtual_claim here there]
    split at same
    · rename_i eq
      cases same
      exact ⟨here, by rw [if_pos rfl, eq]⟩
    · have old := h.holder p' c same
      have ne : c ≠ i := by
        rintro rfl
        rw [unclaiming] at old
        cases old.2
      rw [if_neg ne]
      exact old
  case finished =>
    intro k has closed
    rw [has_claim] at has
    refine (h.finished k has closed).keep (fun _ => has_claim.mpr) has (fun k _ => record k)
      (fun k _ => isVirtual k) (bases k) (fun k _ some => ?_)
      (fun r k found => ⟨(h.found r k found).1, found⟩)
    rw [claimedBy_claim here there]
    split
    · rfl
    · exact some
  case inner =>
    intro k l member
    rw [bases] at member
    exact has_claim.mpr (h.inner k l member)
  case once =>
    intro k k' l plain member member'
    rw [isVirtual] at plain
    rw [bases] at member member'
    exact h.once k k' l plain member member'
  case distinct =>
    intro k
    have same : (g.claim i p).nonVirtualBasesOf k = g.nonVirtualBasesOf k := by
      simp only [nonVirtualBasesOf, isVirtual, bases]
    rw [same]
    exact h.distinct k
  case below =>
    intro k has
    rw [has_claim] at has
    rw [record]
    exact h.below k has
  case virtual =>
    intro k has virt
    rw [has_claim] at has
    rw [isVirtual] at virt
    rw [record]
    exact h.virtual k has virt

/-- A new occurrence of a class is still to be worked on. -/
theorem occurrence {isVirtual : Bool} (h : Growing s known top opened g)
    (unlisted : isVirtual = true → g.virtualBases.find? r = none)
    (path : Relation.TransGen s.tree.Inherits top r)
    (inherited : isVirtual = true → s.tree.HasVirtualBase top r) :
    Growing s known top (fun k => opened k ∨ k = g.nodes.next) (g.occurrence r isVirtual).1 := by
  have extends' := Extends.occurrence unlisted
  have old (k : SubobjectId) (has : g.Has k) : (g.occurrence r isVirtual).1.node k = g.node k :=
    node_occurrence_of_has has
  constructor
  case found =>
    intro u k found
    rw [find?_occurrence] at found
    split at found
    · rename_i here
      obtain ⟨rfl, rfl⟩ := here
      cases found
      simp [has_occurrence, node_occurrence]
    · obtain ⟨has, same, virt⟩ := h.found u k found
      rw [old k has]
      exact ⟨extends'.has has, same, virt⟩
  case listed =>
    intro k has virt
    rcases has_occurrence.mp has with has | rfl
    · rw [old k has] at virt ⊢
      exact extends'.found _ _ (h.listed k has virt)
    · rw [node_occurrence, if_pos rfl] at virt ⊢
      rw [find?_occurrence, if_pos ⟨virt, rfl⟩]
  case primary =>
    intro c p same
    rw [node_occurrence] at same
    split at same
    · cases same
    · rename_i other
      obtain ⟨has, virt, names⟩ := h.primary c p same
      rw [node_occurrence (k := c), if_neg other, old p has]
      exact ⟨extends'.has has, virt, names⟩
  case holder =>
    intro p c same
    rw [node_occurrence] at same
    split at same
    · cases same
    · obtain ⟨has, names⟩ := h.holder p c same
      rw [old c has]
      exact ⟨extends'.has has, names⟩
  case finished =>
    intro k has closed
    rw [not_or] at closed
    have has := (has_occurrence.mp has).resolve_right closed.2
    exact (h.finished k has closed.1).keep (fun _ => extends'.has) has extends'.record
      extends'.isVirtual (extends'.bases k has) extends'.claimed
      fun r k found => ⟨(h.found r k found).1, extends'.found r k found⟩
  case inner =>
    intro k l member
    rw [node_occurrence] at member
    split at member
    · cases member
    · exact extends'.has (h.inner k l member)
  case once =>
    intro k k' l plain member member'
    rw [node_occurrence] at member member'
    split at member
    · cases member
    split at member'
    · cases member'
    rw [old l (h.inner k l member)] at plain
    exact h.once k k' l plain member member'
  case distinct =>
    intro k
    by_cases same : k = g.nodes.next
    · simp [nonVirtualBasesOf, node_occurrence, same]
    · have kept : (g.occurrence r isVirtual).1.nonVirtualBasesOf k = g.nonVirtualBasesOf k := by
        unfold nonVirtualBasesOf
        rw [node_occurrence, if_neg same]
        exact List.filter_congr fun l member => by rw [old l (h.inner k l member)]
      rw [kept]
      exact h.distinct k
  case below =>
    intro k has
    rcases has_occurrence.mp has with has | rfl
    · rw [old k has]
      exact h.below k has
    · rw [node_occurrence, if_pos rfl]
      exact path
  case virtual =>
    intro k has virt
    rcases has_occurrence.mp has with has | rfl
    · rw [old k has] at virt ⊢
      exact h.virtual k has virt
    · rw [node_occurrence, if_pos rfl] at virt ⊢
      exact inherited virt

/-- An occurrence with everything it needs no longer counts as being worked on. -/
theorem close (h : Growing s known top opened g) (finished : Finished s known g i)
    (others : ∀ k, opened k → opened' k ∨ k = i) : Growing s known top opened' g where
  found := h.found
  listed := h.listed
  primary := h.primary
  holder := h.holder
  finished k has closed := by
    by_cases working : opened k
    · rcases others k working with still | rfl
      · exact absurd still closed
      · exact finished
    · exact h.finished k has working
  inner := h.inner
  once := h.once
  distinct := h.distinct
  below := h.below
  virtual := h.virtual

end Growing

end ObjectLayout.SubobjectGraph
