import ObjectLayout.Proofs.Subobject.Growth

/-! What one visit adds to the graph: an occurrence that is finished when the visit ends, below which
everything is finished too. An occurrence is expanded base by base; its virtual primary base is
claimed before its bases are visited if it is there, and after them otherwise. -/
namespace ObjectLayout.SubobjectGraph

open LayoutM (ends_bind)
open Itanium (PrimariesInherited)

variable {s : Setting} {known : Known} {allowed : Fault → Prop}
variable {g g' g'' : SubobjectGraph} {i j k p : SubobjectId} {r v top : RecordId}
variable {opened : SubobjectId → Prop}

/-- The graph after a visit, and the occurrence that the visit was for. -/
structure Visited (s : Setting) (known : Known) (top : RecordId) (opened : SubobjectId → Prop)
    (g : SubobjectGraph) (r : RecordId) (isVirtual : Bool) (g' : SubobjectGraph)
    (j : SubobjectId) : Prop where
  growing : Growing s known top opened g'
  grown : Extends g g'
  has : g'.Has j
  record : (g'.node j).record = r
  kind : (g'.node j).isVirtual = isVirtual
  finished : Finished s known g' j
  orphan : isVirtual = false → ¬ g.Has j ∧ ∀ k, j ∉ (g'.node k).bases
  parented : ∀ k, g'.Has k → ¬ g.Has k → (g'.node k).isVirtual = false → k ≠ j →
    ∃ l, k ∈ (g'.node l).bases

/-- An occurrence that was there before the visit is that of a virtual base. -/
theorem Visited.fresh {isVirtual : Bool} (h : Visited s known top opened g r isVirtual g' i) :
    ¬ g.Has i ∨ (g'.node i).isVirtual = true := by
  by_cases plain : isVirtual = false
  · exact .inl (h.orphan plain).1
  · exact .inr (h.kind.trans (by simpa using plain))

/-- An occurrence `i`, new since `g`, of which the bases `done` have been visited. If `unclaimed` is
there it is the virtual primary base that `i` has yet to claim. -/
structure Expanding (s : Setting) (known : Known) (top : RecordId) (opened : SubobjectId → Prop)
    (g : SubobjectGraph) (r : RecordId) (isVirtual : Bool) (i : SubobjectId)
    (unclaimed : Option RecordId) (done : List Base) (g' : SubobjectGraph) : Prop where
  growing : Growing s known top (fun k => opened k ∨ k = i) g'
  grown : Extends g g'
  has : g'.Has i
  record : (g'.node i).record = r
  kind : (g'.node i).isVirtual = isVirtual
  bases : List.Forall₂ (fun base j => g'.Has j ∧ (g'.node j).record = base.record ∧
    (g'.node j).isVirtual = base.isVirtual) done (g'.node i).bases
  covered : ∀ base ∈ done, ∀ v, s.tree.HasVirtualBase base.record v →
    (g'.virtualBases.find? v).isSome
  orphan : isVirtual = false → ∀ k, i ∉ (g'.node k).bases
  parented : ∀ k, g'.Has k → ¬ g.Has k → (g'.node k).isVirtual = false → k ≠ i →
    ∃ l, k ∈ (g'.node l).bases
  pending : ∀ v, unclaimed = some v →
    known.virtualPrimary? r = some v ∧ (g'.node i).primaryVirtual = none
  claimed : unclaimed = none → ∀ v, known.virtualPrimary? r = some v →
    ∃ p, g'.virtualBases.find? v = some p ∧ (g'.node p).claimedBy.isSome

namespace Expanding

variable {isVirtual : Bool} {unclaimed : Option RecordId} {done : List Base}

/-- Whatever an occurrence claims, or leaves to be claimed later, before its bases are there. -/
theorem start (h : Growing s known top opened g)
    (unlisted : isVirtual = true → g.virtualBases.find? r = none)
    (path : Relation.TransGen s.tree.Inherits top r)
    (inherited : isVirtual = true → s.tree.HasVirtualBase top r) :
    Expanding s known top opened g r isVirtual g.nodes.next
      ((known.virtualPrimary? r).elim ((g.occurrence r isVirtual).1, none)
        ((g.occurrence r isVirtual).1.claimEarly g.nodes.next)).2 []
      ((known.virtualPrimary? r).elim ((g.occurrence r isVirtual).1, none)
        ((g.occurrence r isVirtual).1.claimEarly g.nodes.next)).1 := by
  have growing := h.occurrence unlisted path inherited
  have grown := Extends.occurrence unlisted
  have here : (g.occurrence r isVirtual).1.node g.nodes.next = { record := r, isVirtual } := by
    rw [node_occurrence, if_pos rfl]
  have has : (g.occurrence r isVirtual).1.Has g.nodes.next := has_occurrence.mpr (.inr rfl)
  have orphan : ∀ k, g.nodes.next ∉ ((g.occurrence r isVirtual).1.node k).bases := by
    intro k member
    rw [node_occurrence] at member
    split at member
    · cases member
    · exact not_has_next (h.inner k _ member)
  have fresh (unclaimed : Option RecordId)
      (later : ∀ v, unclaimed = some v → known.virtualPrimary? r = some v)
      (claimed : unclaimed = none → ∀ v, known.virtualPrimary? r = some v →
        ∃ p, (g.occurrence r isVirtual).1.virtualBases.find? v = some p ∧
          ((g.occurrence r isVirtual).1.node p).claimedBy.isSome) :
      Expanding s known top opened g r isVirtual g.nodes.next unclaimed []
        (g.occurrence r isVirtual).1 :=
    { growing, grown, has
      record := by rw [here]
      kind := by rw [here]
      bases := by rw [here]; exact .nil
      covered := by simp
      orphan := fun _ => orphan
      parented := fun k has new _ other => absurd ((has_occurrence.mp has).resolve_right other) new
      pending := fun v same => ⟨later v same, by rw [here]⟩
      claimed }
  cases names : known.virtualPrimary? r with
  | none => exact fresh none (by simp) fun _ v same => by rw [names] at same; cases same
  | some v =>
    simp only [Option.elim_some, claimEarly]
    cases found : (g.occurrence r isVirtual).1.virtualBases.find? v with
    | none => exact fresh (some v) (fun u same => same ▸ names) (by simp)
    | some p =>
      dsimp only
      split
      · rename_i some
        refine fresh none (by simp) fun _ u same => ⟨p, ?_, some⟩
        rw [names] at same
        cases same
        exact found
      · obtain ⟨there, same, virt⟩ := growing.found v p found
        have bases := bases_claim has there
        exact {
          growing := growing.claim has (.inr rfl) (by rw [here]) there virt (by
            rw [here, same]
            exact names)
          grown := grown.claim not_has_next has there
          has := has_claim.mpr has
          record := (record_claim has there _).trans (by rw [here])
          kind := (isVirtual_claim has there _).trans (by rw [here])
          bases := by rw [bases, here]; exact .nil
          covered := by simp
          orphan := fun _ k => by rw [bases]; exact orphan k
          parented := fun k has new _ other =>
            absurd ((has_occurrence.mp (has_claim.mp has)).resolve_right other) new
          pending := by simp
          claimed := fun _ u same => by
            rw [names] at same
            cases same
            exact ⟨p, found, by rw [claimedBy_claim has there, if_pos rfl]; rfl⟩ }

section AddBase

variable {base : Base}
variable (h : Expanding s known top opened g r isVirtual i unclaimed done g')
variable (next : Visited s known top (fun k => opened k ∨ k = i) g' base.record base.isVirtual g'' j)
include h next

theorem bases_addBase : List.Forall₂ (fun base l => (g''.addBase i j).Has l ∧
    ((g''.addBase i j).node l).record = base.record ∧
    ((g''.addBase i j).node l).isVirtual = base.isVirtual) (done ++ [base])
      ((g''.addBase i j).node i).bases := by
  have has : g''.Has i := next.grown.has h.has
  rw [bases_addBase_self has]
  refine List.rel_append (R := _) ?_ ?_
  · rw [next.grown.bases i h.has]
    refine h.bases.imp fun base k ⟨there, same, same'⟩ => ?_
    rw [has_addBase, record_addBase has, isVirtual_addBase has, next.grown.record k there,
      next.grown.isVirtual k there]
    exact ⟨next.grown.has there, same, same'⟩
  · refine .cons ?_ .nil
    rw [has_addBase, record_addBase has, isVirtual_addBase has]
    exact ⟨next.has, next.record, next.kind⟩

theorem orphan_addBase (plain : isVirtual = false) (k : SubobjectId) :
    i ∉ ((g''.addBase i j).node k).bases := by
  have plainHere : (g'.node i).isVirtual = false := h.kind.trans plain
  intro member
  rcases (mem_bases_addBase (next.grown.has h.has)).mp member with old | ⟨_, same⟩
  · exact h.orphan plain k (next.grown.settled i k h.has plainHere old).2
  · rcases next.fresh with missing | virt
    · exact missing (same ▸ h.has)
    · rw [← same, next.grown.isVirtual i h.has, plainHere] at virt
      cases virt

theorem parented_addBase {k : SubobjectId} (there : g''.Has k) (new : ¬ g.Has k)
    (plain : (g''.node k).isVirtual = false) (other : k ≠ i) :
    ∃ l, k ∈ ((g''.addBase i j).node l).bases := by
  have has : g''.Has i := next.grown.has h.has
  by_cases old : g'.Has k
  · rw [next.grown.isVirtual k old] at plain
    obtain ⟨l, member⟩ := h.parented k old new plain other
    exact ⟨l, (mem_bases_addBase has).mpr (.inl (next.grown.member member))⟩
  · by_cases same : k = j
    · exact ⟨i, (mem_bases_addBase has).mpr (.inr ⟨rfl, same⟩)⟩
    · obtain ⟨l, member⟩ := next.parented k there old plain same
      exact ⟨l, (mem_bases_addBase has).mpr (.inl member)⟩

theorem addBase (missing : ¬ g.Has i) :
    Expanding s known top opened g r isVirtual i unclaimed (done ++ [base]) (g''.addBase i j) := by
  have has : g''.Has i := next.grown.has h.has
  constructor
  case growing =>
    exact next.growing.addBase has (.inr rfl) next.has fun plain =>
      (next.orphan (next.kind.symm.trans plain)).2
  case grown =>
    refine (h.grown.trans next.grown).addBase missing has fun old => ?_
    have there := h.grown.has old
    rw [← h.grown.isVirtual j old, ← next.grown.isVirtual j there]
    exact (next.fresh).resolve_left (not_not.mpr there)
  case has => exact has_addBase.mpr has
  case record => rw [record_addBase has, next.grown.record i h.has, h.record]
  case kind => rw [isVirtual_addBase has, next.grown.isVirtual i h.has, h.kind]
  case bases => exact h.bases_addBase next
  case covered =>
    intro base' member v below
    rcases List.mem_append.mp member with member | member
    · obtain ⟨p, found⟩ := Option.isSome_iff_exists.mp (h.covered base' member v below)
      exact Option.isSome_iff_exists.mpr ⟨p, next.grown.found v p found⟩
    · cases List.mem_singleton.mp member
      exact next.finished.covered v (by rwa [next.record])
  case orphan => exact h.orphan_addBase next
  case parented =>
    intro k there new plain other
    rw [isVirtual_addBase has] at plain
    exact h.parented_addBase next (has_addBase.mp there) new plain other
  case pending =>
    intro v same
    rw [primaryVirtual_addBase has, next.grown.primary i h.has]
    exact h.pending v same
  case claimed =>
    intro none v same
    obtain ⟨p, found, some⟩ := h.claimed none v same
    refine ⟨p, next.grown.found v p found, ?_⟩
    rw [claimedBy_addBase has]
    exact next.grown.claimed p (h.growing.found v p found).1 some

end AddBase

/-- A virtual base below the class has an occurrence once all bases have been visited. -/
theorem covers (h : Expanding s known top opened g r isVirtual i unclaimed
    (s.tree.record r).bases g') (has : s.tree.HasVirtualBase r v) :
    (g'.virtualBases.find? v).isSome := by
  obtain ⟨base, member, ⟨virt, same⟩ | deeper⟩ := Tree.hasVirtualBase_iff.mp has
  · obtain ⟨j, _, there, same', virt'⟩ : ∃ j ∈ (g'.node i).bases, g'.Has j ∧
        (g'.node j).record = base.record ∧ (g'.node j).isVirtual = base.isVirtual := by
      obtain ⟨position, bound, rfl⟩ := List.getElem_of_mem member
      have length := h.bases.length_eq
      exact ⟨(g'.node i).bases[position], List.getElem_mem _, h.bases.get bound (length ▸ bound)⟩
    rw [← same, ← same', h.growing.listed j there (virt'.trans virt)]
    rfl
  · exact h.covered base member v deeper

/-- What was left to be claimed can be claimed when the bases are there, and nothing else is needed
for the occurrence to be finished. -/
theorem finish (missing : ¬ g.Has i)
    (h : Expanding s known top opened g r isVirtual i unclaimed (s.tree.record r).bases g')
    (inherited : ∀ v, known.virtualPrimary? r = some v → s.tree.HasVirtualBase r v) :
    Ends allowed (g'.claimLate i unclaimed) fun g' =>
      Visited s known top opened g r isVirtual g' i := by
  have done (g') (h : Expanding s known top opened g r isVirtual i none (s.tree.record r).bases g') :
      Visited s known top opened g r isVirtual g' i := by
    have finished : Finished s known g' i :=
      { bases := by rw [h.record]; exact h.bases
        claimed := by rw [h.record]; exact h.claimed rfl
        covered := by rw [h.record]; exact fun v => h.covers }
    exact {
      growing := h.growing.close finished fun _ => id
      grown := h.grown
      has := h.has
      record := h.record
      kind := h.kind
      finished
      orphan := fun plain => ⟨missing, h.orphan plain⟩
      parented := h.parented }
  cases unclaimed with
  | none => exact done g' h
  | some v =>
    obtain ⟨names, unclaiming⟩ := h.pending v rfl
    obtain ⟨p, found⟩ := Option.isSome_iff_exists.mp (h.covers (inherited v names))
    obtain ⟨there, same, virt⟩ := h.growing.found v p found
    rw [claimLate, found]
    change Visited s known top opened g r isVirtual (g'.claim i p) i
    refine done _ ?_
    have record := record_claim h.has there
    have kind := isVirtual_claim h.has there
    have bases := bases_claim h.has there
    exact {
      growing := h.growing.claim h.has (.inr rfl) unclaiming there virt (by
        rw [h.record, same]
        exact names)
      grown := h.grown.claim missing h.has there
      has := has_claim.mpr h.has
      record := (record i).trans h.record
      kind := (kind i).trans h.kind
      bases := by
        rw [bases]
        exact h.bases.imp fun base k ⟨has, same⟩ =>
          ⟨has_claim.mpr has, by rw [record, kind]; exact same⟩
      covered := h.covered
      orphan := fun plain k => by rw [bases]; exact h.orphan plain k
      parented := fun k has new plain other => by
        rw [kind] at plain
        simpa only [bases] using h.parented k (has_claim.mp has) new plain other
      pending := nofun
      claimed := fun _ u same' => by
        rw [names] at same'
        cases same'
        exact ⟨p, found, by rw [claimedBy_claim h.has there, if_pos rfl]; rfl⟩ }

end Expanding

/-- The visits of the bases of `i`, one after the other. -/
def visitBases (s : Setting) (i : SubobjectId) (r : RecordId) (g : SubobjectGraph) :
    LayoutM SubobjectGraph :=
  (s.tree.record r).bases.foldlM (fun g base => do
    let (g, below) ← visit s base.record base.isVirtual g
    return g.modify i fun node => { node with bases := node.bases ++ [below] }) g

/-- The virtual primary base of a record, which a record without virtual bases cannot have. -/
def askPrimary (s : Setting) (r : RecordId) : LayoutM (Option RecordId) :=
  if s.tree.hasVirtualBases r then (·.virtualPrimaryBase?) <$> LayoutM.layoutOf r else pure none

theorem visit_eq (acyclic : s.tree.Acyclic r) (isVirtual : Bool) (g : SubobjectGraph) :
    visit s r isVirtual g = match if isVirtual then g.virtualBases.find? r else none with
      | some existing => pure (g, existing)
      | none => askPrimary s r >>= fun primary =>
        let early := primary.elim ((g.occurrence r isVirtual).1, none)
          ((g.occurrence r isVirtual).1.claimEarly g.nodes.next)
        visitBases s g.nodes.next r early.1 >>= fun g' =>
          (liftM (g'.claimLate g.nodes.next early.2) : LayoutM SubobjectGraph) >>= fun g' =>
            pure (g', g.nodes.next) := by
  unfold visit
  rw [s.tree.descend_eq (fun _ _ (h : s.tree.Inherits _ _) => h.declared) ?looks acyclic]
  · congr 1
    funext _
    by_cases has : s.tree.hasVirtualBases r = true
    · simp only [askPrimary, if_pos has]
      rfl
    · simp only [askPrimary, if_neg has]
      rfl
  · intro f h r same
    funext isVirtual g
    congr 1
    funext _
    have bases (i : SubobjectId) (g : SubobjectGraph) :
        ((s.tree.record r).bases.foldlM (fun g base => do
          let (g, below) ← f base.record base.isVirtual g
          return g.modify i fun node => { node with bases := node.bases ++ [below] }) g) =
        ((s.tree.record r).bases.foldlM (fun g base => do
          let (g, below) ← h base.record base.isVirtual g
          return g.modify i fun node => { node with bases := node.bases ++ [below] }) g) :=
      foldlM_congr (fun base member g => by rw [same base.record ⟨base, member, rfl⟩]) g
    simp only [bases]

/-- The layouts that the graph of `top` takes: those of the classes below with virtual bases. Whichever
of them is not known is missing for a reason that is allowed. -/
def Asks (s : Setting) (known : Known) (top : RecordId) (allowed : Fault → Prop) : Prop :=
  ∀ r, Relation.TransGen s.tree.Inherits top r → s.tree.hasVirtualBases r = true →
    Ends allowed (known.record r) fun _ => True

theorem Asks.of_laid (laid : Itanium.BasesLaid s known top) : Asks s known top allowed := by
  intro r path _
  obtain ⟨layout, known, _⟩ := laid r path
  rw [known]
  trivial

theorem askPrimary_ends (acyclic : s.tree.Acyclic r)
    (asks : s.tree.hasVirtualBases r = true → Ends allowed (known.record r) fun _ => True)
    (inherited : ∀ v, known.virtualPrimary? r = some v → s.tree.HasVirtualBase r v) :
    Ends allowed ((askPrimary s r).eval known) (· = known.virtualPrimary? r) := by
  unfold askPrimary
  split
  · rename_i has
    have asked := asks has
    rw [LayoutM.eval_map, LayoutM.eval_layoutOf]
    cases laid : known.record r with
    | ok layout => exact (Known.virtualPrimary?_eq laid).symm
    | error fault => exact .error (asked.fault laid)
  · rename_i without
    cases names : known.virtualPrimary? r with
    | none => rfl
    | some v => exact absurd ((Tree.hasVirtualBases_iff acyclic).mpr ⟨v, inherited v names⟩) without

/-- The classes being worked on are above every class that is visited. -/
def Above (s : Setting) (g : SubobjectGraph) (r : RecordId) (opened : SubobjectId → Prop) : Prop :=
  ∀ o, opened o → g.Has o ∧ Relation.TransGen s.tree.Inherits (g.node o).record r

theorem visit_ends (acyclic : s.tree.Acyclic r) (asks : Asks s known top allowed)
    (primaries : PrimariesInherited s known top)
    (h : Growing s known top opened g) (above : Above s g r opened) {isVirtual : Bool}
    (path : Relation.TransGen s.tree.Inherits top r)
    (inherited : isVirtual = true → s.tree.HasVirtualBase top r) :
    Ends allowed ((visit s r isVirtual g).eval known) fun result =>
      Visited s known top opened g r isVirtual result.1 result.2 := by
  induction acyclic generalizing g isVirtual opened with
  | intro r lower ih =>
  have acyclic : s.tree.Acyclic r := .intro lower
  rw [visit_eq acyclic]
  split
  · rename_i existing found
    have virt : isVirtual = true := by
      cases isVirtual with
      | true => rfl
      | false => cases found
    rw [if_pos virt] at found
    obtain ⟨has, same, virt'⟩ := h.found r existing found
    refine ⟨h, .refl g, has, same, virt'.trans virt.symm, h.finished existing has fun working => ?_,
      fun plain => ?_, fun k here new => absurd here new⟩
    · have cycle := (above existing working).2
      rw [same] at cycle
      exact acyclic.irrefl cycle
    · rw [virt] at plain
      cases plain
  rename_i unlisted
  have unlisted : isVirtual = true → g.virtualBases.find? r = none := by
    intro virt
    rwa [if_pos virt] at unlisted
  have names := fun v => primaries r v path
  have opening := Expanding.start h unlisted path inherited
  refine ends_bind (askPrimary_ends acyclic (asks r path) names) ?_
  rintro _ rfl
  generalize (known.virtualPrimary? r).elim ((g.occurrence r isVirtual).1, none)
    ((g.occurrence r isVirtual).1.claimEarly g.nodes.next) = early at opening ⊢
  obtain ⟨g', unclaimed⟩ := early
  dsimp only at opening ⊢
  refine ends_bind (G := Expanding s known top opened g r isVirtual g.nodes.next unclaimed
    (s.tree.record r).bases) ?_ fun g'' expanded => ?_
  · unfold visitBases
    rw [LayoutM.eval_foldlM]
    refine Ends.foldlM (K := fun done _ => Expanding s known top opened g r isVirtual
      g.nodes.next unclaimed done) opening fun done base rest g' split sofar => ?_
    have edge : s.tree.Inherits r base.record := ⟨base, by simp [split], rfl⟩
    refine ends_bind (ih base.record edge sofar.growing (fun o working => ?_) (path.tail edge)
      fun virt => ?_) fun result next => sofar.addBase next not_has_next
    · rcases working with working | rfl
      · obtain ⟨old, higher⟩ := above o working
        refine ⟨sofar.grown.has old, ?_⟩
        rw [sofar.grown.record o old]
        exact higher.tail edge
      · refine ⟨sofar.has, ?_⟩
        rw [sofar.record]
        exact .single edge
    · exact ⟨r, path.to_reflTransGen, base, by simp [split], virt, rfl⟩
  · exact LayoutM.ends_lift_bind (expanded.finish not_has_next names) fun _ visited => visited

end ObjectLayout.SubobjectGraph
