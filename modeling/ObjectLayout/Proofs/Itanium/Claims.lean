import ObjectLayout.Proofs.Itanium.Bases
import ObjectLayout.Proofs.OrderedMap

/-! The virtual bases that come to lie inside a base subobject because something in it has claimed
them. Each of them is listed once, at the place of its claimant; placing a base subobject adds exactly
this list to the table of virtual bases. -/
namespace ObjectLayout

variable {s : Setting} {known : Known} {allowed : Fault → Prop} {g : SubobjectGraph}
variable {i j k p q : SubobjectId} {d : RecordId} {own : Option RecordId} {x y o : Nat}

section Inside

theorem PartAt.inner_only {r : RecordId} {isComplete : Bool} {t : Place}
    (h : PartAt s known g (.inner r isComplete) o t) : ∃ r' isComplete', t = .inner r' isComplete' := by
  generalize same : Place.inner r isComplete = p at h
  induction h generalizing r isComplete with
  | here p => exact ⟨r, isComplete, same.symm⟩
  | deeper part inside ih =>
    subst same
    cases part with
    | innerBase => exact ih rfl
    | virtualBase => exact ih rfl
    | field => exact ih rfl

/-- The base subobjects inside a base subobject are itself and those inside its parts. -/
theorem partAt_base_iff : PartAt s known g (.base i) o (.base k) ↔ (o = 0 ∧ k = i) ∨
    ∃ first j second, HasPart s known g (.base i) first (.base j) ∧
      PartAt s known g (.base j) second (.base k) ∧ o = first + second := by
  constructor
  · intro h
    cases h with
    | here => exact .inl ⟨rfl, rfl⟩
    | @deeper _ q _ first second part inside =>
      cases q with
      | base j => exact .inr ⟨first, j, second, part, inside, rfl⟩
      | inner r isComplete =>
        obtain ⟨_, _, same⟩ := inside.inner_only
        cases same
  · rintro (⟨rfl, rfl⟩ | ⟨first, j, second, part, inside, rfl⟩)
    · exact .here _
    · exact .deeper part inside

theorem hasPart_base_base_iff : HasPart s known g (.base i) o (.base j) ↔
    (j ∈ g.nonVirtualBasesOf i ∧
      known.baseOffset? (g.node i).record (g.node j).record = some o) ∨
    (g.claimedPrimary? i = some j ∧ o = 0) := by
  constructor
  · intro part
    cases part with
    | base member at' => exact .inl ⟨member, at'⟩
    | claimed claimed => exact .inr ⟨claimed, rfl⟩
  · rintro (⟨member, at'⟩ | ⟨claimed, rfl⟩)
    · exact .base member at'
    · exact .claimed claimed

theorem HasPart.child (part : HasPart s known g (.base i) o (.base j)) : g.Child i j :=
  (hasPart_base_base_iff.mp part).imp And.left And.left

theorem PartAt.trans {p q t : Place} (h : PartAt s known g p x q) (h' : PartAt s known g q y t) :
    PartAt s known g p (x + y) t := by
  induction h with
  | here p => rwa [Nat.zero_add]
  | deeper part _ ih =>
    rw [Nat.add_assoc]
    exact .deeper part (ih h')

theorem PartAt.path (h : PartAt s known g (.base i) o (.base k)) :
    Relation.ReflTransGen g.Child i k := by
  generalize same : Place.base i = p, same' : Place.base k = t at h
  induction h generalizing i with
  | here p =>
    cases same.trans same'.symm |> Place.base.inj
    exact .refl
  | @deeper p q t first second part inside ih =>
    subst same same'
    cases q with
    | base j => exact .head part.child (ih rfl rfl)
    | inner r isComplete =>
      obtain ⟨_, _, same⟩ := inside.inner_only
      cases same

end Inside

namespace SubobjectGraph.Forest

variable (h : Forest s known d own g)
include h

/-- Of two occurrences that hold a third one, one holds the other. -/
theorem nested (first : Relation.ReflTransGen g.Child i q) (second : Relation.ReflTransGen g.Child j q) :
    Relation.ReflTransGen g.Child i j ∨ Relation.ReflTransGen g.Child j i := by
  have unique : Relator.RightUnique (Function.swap g.Child) := fun _ _ _ a b => h.parent_unique a b
  have first : Relation.ReflTransGen (Function.swap g.Child) q i := Relation.reflTransGen_swap.mpr first
  have second : Relation.ReflTransGen (Function.swap g.Child) q j := Relation.reflTransGen_swap.mpr second
  rcases Relation.ReflTransGen.total_of_right_unique unique first second with path | path
  · exact .inr (Relation.reflTransGen_swap.mp path)
  · exact .inl (Relation.reflTransGen_swap.mp path)

theorem roots_apart (root : g.IsRoot i) (root' : g.IsRoot j)
    (first : Relation.ReflTransGen g.Child i q) (second : Relation.ReflTransGen g.Child j q) :
    i = j := by
  rcases h.nested first second with path | path
  · rcases Relation.ReflTransGen.cases_tail path with same | ⟨k, _, child⟩
    · exact same.symm
    · exact absurd child (root'.2 k)
  · rcases Relation.ReflTransGen.cases_tail path with same | ⟨k, _, child⟩
    · exact same
    · exact absurd child (root.2 k)

theorem siblings_apart (grounded : Grounded g.Child k) (child : g.Child k i) (child' : g.Child k j)
    (first : Relation.ReflTransGen g.Child i q) (second : Relation.ReflTransGen g.Child j q) :
    i = j := by
  have climb {a b : SubobjectId} (child : g.Child k a) (child' : g.Child k b)
      (path : Relation.ReflTransGen g.Child a b) : a = b := by
    rcases Relation.ReflTransGen.cases_tail path with same | ⟨l, path, last⟩
    · exact same.symm
    · obtain rfl := h.parent_unique last child'
      exact absurd (Relation.TransGen.head' child path) grounded.irrefl
  rcases h.nested first second with path | path
  · exact climb child child' path
  · exact (climb child' child path).symm

/-- Where something is claimed, the class has virtual bases. -/
theorem hasVirtualBases_of_claimed
    (primaries : Itanium.PrimariesInherited s known d) (acyclic : s.tree.Acyclic d) (has : g.Has i)
    (path : Relation.ReflTransGen g.Child i k) (claimed : g.claimedPrimary? k = some p) :
    s.tree.hasVirtualBases (g.node i).record = true := by
  have claims : g.Child k p := .inr claimed
  have virt := primaries _ _ (h.below k claims.has_parent) (h.claimed_record claimed).2.2
  have path : Relation.ReflTransGen s.tree.Inherits (g.node i).record (g.node k).record := by
    refine Relation.ReflTransGen.trans_induction_on path (fun _ => .refl) ?_ fun _ _ => .trans
    exact fun child => (h.child_below primaries child).to_reflTransGen
  have acyclic : s.tree.Acyclic (g.node i).record :=
    acyclic.lowerAll (h.below i has).to_reflTransGen
  exact (Tree.hasVirtualBases_iff acyclic).mpr ⟨_, virt.underAll path⟩

end SubobjectGraph.Forest

/-- The finished graph of a class of which everything it holds is known. -/
structure Charted (s : Setting) (known : Known) (d : RecordId) (own : Option RecordId)
    (g : SubobjectGraph) : Prop where
  forest : g.Forest s known d own
  acyclic : s.tree.Acyclic d
  sound : SoundBelow s known d

namespace Charted

variable (h : Charted s known d own g)
include h

theorem grounded (i : SubobjectId) : Grounded g.Child i :=
  h.forest.grounded h.sound.primariesInherited h.acyclic i

theorem sound_node (has : g.Has i) : Sound s known (g.node i).record :=
  h.sound _ (SoundBelow.inherits (h.forest.below i has))

/-- A base of an occurrence has its offset from the class of the occurrence. -/
theorem offset (member : j ∈ g.nonVirtualBasesOf k) :
    ∃ o, known.baseOffset? (g.node k).record (g.node j).record = some o := by
  have child : g.Child k j := .inl member
  exact Option.isSome_iff_exists.mp
    (((h.sound_node child.has_parent).bases _).mpr (h.forest.plain_edge member))

/-- Whatever is placed together with a base subobject lies somewhere in it. -/
theorem exists_partAt (path : Relation.ReflTransGen g.Child i k) :
    ∃ o, PartAt s known g (.base i) o (.base k) := by
  induction path using Relation.ReflTransGen.head_induction_on with
  | refl => exact ⟨0, .here _⟩
  | @head i j child _ ih =>
    obtain ⟨second, inside⟩ := ih
    rcases child with member | claimed
    · obtain ⟨first, at'⟩ := h.offset member
      exact ⟨first + second, .deeper (.base member at') inside⟩
    · exact ⟨0 + second, .deeper (.claimed claimed) inside⟩

/-- A virtual base inside a base subobject lies there because something in it has claimed it. -/
theorem claimed_or_self (part : PartAt s known g (.base i) o (.base p))
    (virt : (g.node p).isVirtual = true) : (p = i ∧ o = 0) ∨
      ∃ k, PartAt s known g (.base i) o (.base k) ∧ g.claimedPrimary? k = some p := by
  have grounded := h.grounded i
  induction grounded generalizing o with
  | intro i _ ih =>
    rcases partAt_base_iff.mp part with ⟨rfl, rfl⟩ | ⟨first, j, second, edge, inside, rfl⟩
    · exact .inl ⟨rfl, rfl⟩
    · right
      rcases ih j edge.child inside with ⟨rfl, rfl⟩ | ⟨k, inside, claimed⟩
      · rcases hasPart_base_base_iff.mp edge with ⟨member, _⟩ | ⟨claimed, rfl⟩
        · rw [(SubobjectGraph.mem_nonVirtualBasesOf.mp member).2] at virt
          cases virt
        · exact ⟨i, .here _, claimed⟩
      · exact ⟨k, .deeper edge inside, claimed⟩

end Charted

namespace Itanium

/-- The virtual bases claimed inside a base subobject at `x`, with where each of them lies. -/
def claimedFrom (known : Known) (g : SubobjectGraph) : SubobjectId → Nat → List (SubobjectId × Nat) :=
  g.descend (fun _ => []) fun claimedFrom i x =>
    (g.claimedPrimary? i).toList.flatMap (fun p => (p, x) :: claimedFrom p x)
      ++ (g.nonVirtualBasesOf i).flatMap fun j =>
        claimedFrom j (x + (known.baseOffset? (g.node i).record (g.node j).record).getD 0)

theorem claimedFrom_eq (grounded : Grounded g.Child i) (x : Nat) :
    claimedFrom known g i x =
      (g.claimedPrimary? i).toList.flatMap (fun p => (p, x) :: claimedFrom known g p x)
        ++ (g.nonVirtualBasesOf i).flatMap fun j =>
          claimedFrom known g j
            (x + (known.baseOffset? (g.node i).record (g.node j).record).getD 0) := by
  unfold claimedFrom
  rw [g.descend_eq (fun _ _ (child : g.Child _ _) => child.has_parent) ?looks grounded]
  intro f h i same
  funext x
  congr 1
  · refine List.flatMap_congr fun p member => ?_
    rw [same p (.inr (Option.mem_toList.mp member))]
  · refine List.flatMap_congr fun j member => ?_
    rw [same j (.inl member)]

section Listed

variable (h : Charted s known d own g)
include h

/-- What is listed for a base subobject are the bases that something in it has claimed. -/
theorem mem_claimedFrom : (p, y) ∈ claimedFrom known g i x ↔
    ∃ k o, PartAt s known g (.base i) o (.base k) ∧ g.claimedPrimary? k = some p ∧ y = x + o := by
  have grounded := h.grounded i
  induction grounded generalizing x with
  | intro i lower ih =>
  rw [claimedFrom_eq (h.grounded i), List.mem_append, List.mem_flatMap, List.mem_flatMap]
  constructor
  · rintro (⟨c, claimed, member⟩ | ⟨j, member, inside⟩)
    · have claimed := Option.mem_toList.mp claimed
      rcases List.mem_cons.mp member with same | inside
      · cases same
        exact ⟨i, 0, .here _, claimed, rfl⟩
      · obtain ⟨k, o, part, holds, rfl⟩ := (ih c (.inr claimed)).mp inside
        exact ⟨k, 0 + o, .deeper (.claimed claimed) part, holds, by rw [Nat.zero_add]⟩
    · obtain ⟨first, at'⟩ := h.offset member
      rw [at', Option.getD_some] at inside
      obtain ⟨k, o, part, holds, rfl⟩ := (ih j (.inl member)).mp inside
      exact ⟨k, first + o, .deeper (.base member at') part, holds, Nat.add_assoc _ _ _⟩
  · rintro ⟨k, o, part, holds, rfl⟩
    rcases partAt_base_iff.mp part with ⟨rfl, rfl⟩ | ⟨first, j, second, edge, inside, rfl⟩
    · exact .inl ⟨p, Option.mem_toList.mpr holds, List.mem_cons_self⟩
    · rcases hasPart_base_base_iff.mp edge with ⟨member, at'⟩ | ⟨claimed, rfl⟩
      · refine .inr ⟨j, member, ?_⟩
        rw [at', Option.getD_some]
        exact (ih j (.inl member)).mpr ⟨k, second, inside, holds, (Nat.add_assoc _ _ _).symm⟩
      · refine .inl ⟨j, Option.mem_toList.mpr claimed, .tail _ ?_⟩
        exact (ih j (.inr claimed)).mpr ⟨k, second, inside, holds, by rw [Nat.zero_add]⟩

theorem path_of_mem_claimedFrom (member : (p, y) ∈ claimedFrom known g i x) :
    Relation.TransGen g.Child i p := by
  obtain ⟨k, o, part, holds, _⟩ := (mem_claimedFrom h).mp member
  exact Relation.TransGen.tail' part.path (.inr holds)

/-- Nothing is listed twice. -/
theorem claimedFrom_nodup : ((claimedFrom known g i x).map Prod.fst).Nodup := by
  have grounded := h.grounded i
  induction grounded generalizing x with
  | intro i lower ih =>
  -- No two parts of the same occurrence list the same base, nor does a part list another one.
  have apart {j k q : SubobjectId} {y z : Nat} (child : g.Child i j) (child' : g.Child i k)
      (first : q ∈ (claimedFrom known g j y).map Prod.fst)
      (second : q = k ∨ q ∈ (claimedFrom known g k z).map Prod.fst) : j = k := by
    have path {j q : SubobjectId} {y : Nat} (member : q ∈ (claimedFrom known g j y).map Prod.fst) :
        Relation.ReflTransGen g.Child j q := by
      obtain ⟨⟨q, _⟩, there, rfl⟩ := List.mem_map.mp member
      exact (path_of_mem_claimedFrom h there).to_reflTransGen
    refine h.forest.siblings_apart (h.grounded i) child child' (path first) ?_
    rcases second with rfl | second
    · exact .refl
    · exact path second
  rw [claimedFrom_eq (h.grounded i), List.map_append, List.nodup_append]
  refine ⟨?_, ?_, ?_⟩
  · cases claimed : g.claimedPrimary? i with
    | none => simp
    | some p =>
      have own : p ∉ (claimedFrom known g p x).map Prod.fst := by
        intro member
        obtain ⟨⟨q, _⟩, there, rfl⟩ := List.mem_map.mp member
        exact (h.grounded q).irrefl (path_of_mem_claimedFrom h there)
      simpa using ⟨by simpa using own, ih p (.inr claimed)⟩
  · rw [List.map_flatMap, List.nodup_flatMap]
    refine ⟨fun j member => ih j (.inl member), ?_⟩
    refine (h.forest.distinct i).imp_of_mem fun {j k} member member' differs => ?_
    exact fun q first second => differs (apart (.inl member) (.inl member') first (.inr second))
  · rintro q first q' second rfl
    rw [List.map_flatMap] at first second
    obtain ⟨p, claimed, first⟩ := List.mem_flatMap.mp first
    obtain ⟨j, member, second⟩ := List.mem_flatMap.mp second
    have claimed := Option.mem_toList.mp claimed
    obtain rfl := apart (.inl member) (.inr claimed) second (List.mem_cons.mp first)
    have virt := (h.forest.claimed_record claimed).2.1
    rw [(SubobjectGraph.mem_nonVirtualBasesOf.mp member).2] at virt
    cases virt

/-- Nothing is claimed where the class has no virtual bases. -/
theorem claimedFrom_eq_nil (has : g.Has i)
    (none : s.tree.hasVirtualBases (g.node i).record = false) : claimedFrom known g i x = [] := by
  rw [List.eq_nil_iff_forall_not_mem]
  rintro ⟨p, y⟩ member
  obtain ⟨k, o, part, holds, _⟩ := (mem_claimedFrom h).mp member
  have some := h.forest.hasVirtualBases_of_claimed h.sound.primariesInherited h.acyclic has
    part.path holds
  rw [some] at none
  cases none

end Listed

section Placing

open LayoutM (ends_bind ends_lift_bind layoutOf)

variable {slots : OrderedMap RecordId VirtualBaseSlot}

/-- The entries of the table of virtual bases for occurrences that lie where they are listed. -/
def slotsOf (g : SubobjectGraph) (listed : List (SubobjectId × Nat)) :
    List (RecordId × VirtualBaseSlot) :=
  listed.map fun e => ((g.node e.1).record, { offset := e.2 })

theorem slotsOf_append (g : SubobjectGraph) (listed listed' : List (SubobjectId × Nat)) :
    slotsOf g (listed ++ listed') = slotsOf g listed ++ slotsOf g listed' := List.map_append

theorem placeClaimed_eq (grounded : Grounded g.Child i) (x : Nat) :
    placeClaimed s g i x slots = (do
      let r := (g.node i).record
      if !s.tree.hasVirtualBases r then return slots
      let slots ← match g.claimedPrimary? i with
        | none => pure slots
        | some primary => do
          let primaryRecord := (g.node primary).record
          ensure (!slots.contains primaryRecord) .primaryVirtualBaseAlreadyPlaced
          placeClaimed s g primary x (slots.insert primaryRecord { offset := x })
      let layout ← layoutOf r
      (g.nonVirtualBasesOf i).foldlM (fun slots base => do
        let inner := layout.baseOffset (g.node base).record
        placeClaimed s g base (← EmptyMap.within x inner) slots) slots) := by
  unfold placeClaimed
  refine (congrFun (congrFun (g.descend_eq
    (fun _ _ (child : g.Child _ _) => child.has_parent) ?_ grounded) x) slots).trans rfl
  intro f h i same
  funext x slots
  have bases (layout : RecordLayout) (slots : OrderedMap RecordId VirtualBaseSlot) :
      (g.nonVirtualBasesOf i).foldlM (m := LayoutM) (fun slots base => do
        f base (← EmptyMap.within x (layout.baseOffset (g.node base).record)) slots) slots =
      (g.nonVirtualBasesOf i).foldlM (m := LayoutM) (fun slots base => do
        h base (← EmptyMap.within x (layout.baseOffset (g.node base).record)) slots) slots :=
    foldlM_congr (fun j member slots => by simp only [same j (.inl member)]) slots
  simp only [bases]
  cases claimed : g.claimedPrimary? i with
  | none => rfl
  | some p => simp only [same p (.inr claimed)]

/-- Placing what is claimed inside a base subobject adds exactly what is listed for it, if that is
not in the table yet. -/
theorem placeClaimed_ends (h : Charted s known d own g) (overflow : allowed .overflow) (has : g.Has i)
    (fresh : (slots.keys ++ (slotsOf g (claimedFrom known g i x)).map Prod.fst).Nodup) :
    Ends allowed ((placeClaimed s g i x slots).eval known) fun slots' =>
      slots'.entries = slots.entries ++ slotsOf g (claimedFrom known g i x) := by
  have grounded := h.grounded i
  induction grounded generalizing x slots with
  | intro i lower ih =>
  rw [placeClaimed_eq (h.grounded i)]
  dsimp only
  cases virt : s.tree.hasVirtualBases (g.node i).record with
  | false =>
    rw [claimedFrom_eq_nil h has virt]
    exact (List.append_nil _).symm
  | true =>
  simp only [Bool.not_true, Bool.false_eq_true, if_false]
  rw [claimedFrom_eq (h.grounded i), slotsOf_append] at fresh ⊢
  obtain ⟨layout, laid, _⟩ := (h.sound_node has).laid
  generalize claims : slotsOf g ((g.claimedPrimary? i).toList.flatMap
    fun p => (p, x) :: claimedFrom known g p x) = first at fresh ⊢
  rw [List.map_append, ← List.append_assoc] at fresh
  have bases (slots₁ : OrderedMap RecordId VirtualBaseSlot)
      (same₁ : slots₁.entries = slots.entries ++ first) :
      Ends allowed ((layoutOf (g.node i).record >>= fun layout =>
        (g.nonVirtualBasesOf i).foldlM (fun slots base => do
          placeClaimed s g base (← EmptyMap.within x (layout.baseOffset (g.node base).record)) slots)
          slots₁).eval known) fun slots' => slots'.entries = slots.entries ++ (first ++
            slotsOf g ((g.nonVirtualBasesOf i).flatMap fun j => claimedFrom known g j
              (x + (known.baseOffset? (g.node i).record (g.node j).record).getD 0))) := by
    rw [LayoutM.eval_layoutOf_bind laid, LayoutM.eval_foldlM]
    refine (Ends.foldlM (K := fun done _ slots' => slots'.entries = slots.entries ++ first ++
      slotsOf g (done.flatMap fun j => claimedFrom known g j
        (x + (known.baseOffset? (g.node i).record (g.node j).record).getD 0)))
      (by simpa [slotsOf] using same₁) ?_).imp fun slots' same => by rw [same, List.append_assoc]
    intro done j rest slots' split same
    have member : j ∈ g.nonVirtualBasesOf i := by simp [split]
    obtain ⟨o, at'⟩ := h.offset member
    refine ends_lift_bind (within_ends (Known.baseOffset_eq laid at') (.inr overflow)) fun y within => ?_
    subst within
    refine (ih j (.inl member) (h.forest.has_child (.inl member)) ?_).imp fun slots'' same' => ?_
    · refine fresh.sublist ?_
      rw [OrderedMap.keys, same, split]
      simp [OrderedMap.keys, slotsOf, at']
    · rw [same', same]
      simp [slotsOf, at']
  cases claimed : g.claimedPrimary? i with
  | none =>
    subst claims
    exact bases slots (by simp [claimed, slotsOf])
  | some p =>
    have listed : first = ((g.node p).record, { offset := x })
        :: slotsOf g (claimedFrom known g p x) := by
      rw [← claims, claimed]
      simp [slotsOf]
    subst listed
    have before := (List.nodup_append.mp fresh).1
    have new : (g.node p).record ∉ slots.keys := fun member =>
      (List.nodup_append.mp before).2.2 _ member _ List.mem_cons_self rfl
    have entries : (slots.insert (g.node p).record { offset := x }).entries
        = slots.entries ++ [((g.node p).record, { offset := x })] := OrderedMap.entries_insert new
    have absent : (!slots.contains (g.node p).record) = true := by
      simpa using mt OrderedMap.contains_iff.mp new
    refine ends_bind (G := fun _ => True) ?_ fun _ _ => ?_
    · rw [LayoutM.eval_ensure, absent]
      trivial
    refine ends_bind (ih p (.inr claimed) (h.forest.has_child (.inr claimed)) ?_) fun slots₁ same => ?_
    · simpa [OrderedMap.keys, entries] using before
    · exact bases slots₁ (by simp [same, entries])

end Placing

end Itanium

end ObjectLayout
