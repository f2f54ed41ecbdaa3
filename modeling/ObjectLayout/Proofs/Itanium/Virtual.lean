import ObjectLayout.Proofs.Itanium.NonVirtual

/-! The pass over the virtual bases. It searches the inheritance graph depth first and gives up below
a base that it has met before: that base is not above the place where it is met again, so its own
search is over and everything due below it has been met. -/
namespace ObjectLayout.Itanium

open LayoutM (ends_bind ends_lift_bind layoutOf)

variable {f : Frame} {known : Known} {allowed : Fault → Prop} {g : SubobjectGraph}
variable {st st' st'' : State} {before pieces : List Piece} {x : Nat} {i p : SubobjectId}
variable {own : Option RecordId} {indirect : List RecordId} {r u v : RecordId}

theorem RootLaid.grows (next : RootLaid f known g i x st st') : st.size ≤ st'.size := by
  obtain ⟨mid, placed, same⟩ := next.placed
  have size : st'.size = mid.size := by rw [same]
  exact size ▸ placed.grows

/-- A state of the pass, in which the virtual bases that have been visited are those with a place. -/
structure VirtualLaid (f : Frame) (known : Known) (own : Option RecordId) (g : SubobjectGraph)
    (indirect : List RecordId) (before pieces : List Piece) (st : State) : Prop where
  progress : Progress f known g st.dataSize pieces st
  kept : ∀ piece ∈ before, piece ∈ pieces
  indirect : st.indirectPrimaryBases = indirect
  visited : ∀ v p, g.virtualBases.find? v = some p →
    ((∃ x, Piece.base p x ∈ pieces) ↔ v ∈ st.visitedVirtualBases)
  direct : ∀ b i, g.nonVirtualBases.find? b = some i → ∃ x, Piece.base i x ∈ pieces
  own : ∀ v, own = some v → ∃ p, g.virtualBases.find? v = some p ∧ Piece.base p 0 ∈ pieces

/-- What has been visited does not matter to what has its place. -/
theorem Laid.visiting {front : Bits} (h : Laid f known g front pieces st) (visited : List RecordId) :
    Laid f known g front pieces { st with visitedVirtualBases := visited } :=
  { h with }

theorem VirtualLaid.push (h : VirtualLaid f known own g indirect before pieces st)
    (work : Workable f known allowed) (charted : Charted f.setting known f.record own g)
    (found : g.virtualBases.find? v = some p) (root : g.IsRoot p)
    (new : ∀ y, Piece.base p y ∉ pieces)
    (next : RootLaid f known g p x
      { st with visitedVirtualBases := st.visitedVirtualBases ++ [v] } st') :
    VirtualLaid f known own g indirect before (pieces ++ [.base p x]) st' := by
  have rest := SameRest.of_eq next.rest
  have progress : Progress f known g st.dataSize pieces
      { st with visitedVirtualBases := st.visitedVirtualBases ++ [v] } :=
    ⟨h.progress.laid.visiting _, fun cplusplus notUnion =>
      ⟨(h.progress.tracked cplusplus notUnion).kept, (h.progress.tracked cplusplus notUnion).apart⟩⟩
  constructor
  case progress => exact progress.push_root work charted root next le_rfl new
  case kept => exact fun piece member => List.mem_append_left _ (h.kept piece member)
  case indirect => exact rest.indirectPrimaryBases.trans h.indirect
  case visited =>
    intro w q found'
    rw [rest.visitedVirtualBases, List.mem_append, List.mem_singleton, ← h.visited w q found']
    constructor
    · rintro ⟨y, member⟩
      rcases List.mem_append.mp member with member | last
      · exact .inl ⟨y, member⟩
      · cases List.mem_singleton.mp last
        have record := (charted.forest.found w p found').2.1
        exact .inr (record.symm.trans (charted.forest.found v p found).2.1)
    · rintro (⟨y, member⟩ | rfl)
      · exact ⟨y, List.mem_append_left _ member⟩
      · rw [found] at found'
        cases found'
        exact ⟨x, by simp⟩
  case direct =>
    exact fun b i found => (h.direct b i found).imp fun y member => List.mem_append_left _ member
  case own =>
    exact fun w same => (h.own w same).imp fun q both => ⟨both.1, List.mem_append_left _ both.2⟩

/-- All virtual bases of `u` that are due have been visited. -/
def Complete (f : Frame) (indirect : List RecordId) (u : RecordId) (st : State) : Prop :=
  ∀ w, f.tree.HasVirtualBase u w → w ∉ indirect → w ∈ st.visitedVirtualBases

/-- A later state of the pass. Below everything that was visited meanwhile the search is over. -/
structure Later (f : Frame) (indirect : List RecordId) (st st' : State) : Prop where
  rest : st'.rest = { st with visitedVirtualBases := st'.visitedVirtualBases }.rest
  grows : st.size ≤ st'.size
  visited : ∀ u ∈ st.visitedVirtualBases, u ∈ st'.visitedVirtualBases
  closed : ∀ u ∈ st'.visitedVirtualBases, u ∉ indirect →
    u ∈ st.visitedVirtualBases ∨ Complete f indirect u st'

theorem Complete.later (h : Complete f indirect u st) (later : Later f indirect st st') :
    Complete f indirect u st' := fun w has due => later.visited w (h w has due)

theorem Later.refl (st : State) : Later f indirect st st :=
  ⟨rfl, le_rfl, fun _ => id, fun _ visited _ => .inl visited⟩

theorem Later.trans (h : Later f indirect st st') (h' : Later f indirect st' st'') :
    Later f indirect st st'' where
  rest := by
    have first := h.rest
    have second := h'.rest
    simp only [State.rest, Prod.mk.injEq] at first second ⊢
    exact ⟨second.1.trans first.1, second.2.1.trans first.2.1, second.2.2.1.trans first.2.2.1,
      second.2.2.2.1.trans first.2.2.2.1, trivial⟩
  grows := h.grows.trans h'.grows
  visited u member := h'.visited u (h.visited u member)
  closed u member due := by
    rcases h'.closed u member due with visited | complete
    · exact (h.closed u visited due).imp_right fun complete => complete.later h'
    · exact .inr complete

/-- A visit is over when everything due below has been visited. -/
theorem Later.visit
    (rest : st'.rest = { st with visitedVirtualBases := st.visitedVirtualBases ++ [v] }.rest)
    (grows : st.size ≤ st'.size) (h : Later f indirect st' st'') (complete : Complete f indirect v st'') :
    Later f indirect st st'' := by
  have rest := SameRest.of_eq rest
  have first := SameRest.of_eq h.rest
  constructor
  case rest =>
    simp only [State.rest, Prod.mk.injEq]
    exact ⟨first.fieldOffsets.trans rest.fieldOffsets, first.unfilledBits.trans rest.unfilledBits,
      first.primaryBase.trans rest.primaryBase,
      first.indirectPrimaryBases.trans rest.indirectPrimaryBases, trivial⟩
  case grows => exact grows.trans h.grows
  case visited =>
    intro u member
    exact h.visited u (rest.visitedVirtualBases ▸ List.mem_append_left _ member)
  case closed =>
    intro u member due
    rcases h.closed u member due with visited | complete
    · rw [rest.visitedVirtualBases] at visited
      rcases List.mem_append.mp visited with visited | last
      · exact .inl visited
      · cases List.mem_singleton.mp last
        exact .inr complete
    · exact .inr complete

/-- The visits that are not over are those of classes above `r`. -/
def OpenAbove (f : Frame) (indirect : List RecordId) (r : RecordId) (st : State) : Prop :=
  ∀ u ∈ st.visitedVirtualBases, u ∉ indirect →
    Complete f indirect u st ∨ Relation.ReflTransGen f.tree.Inherits u r

namespace OpenAbove

theorem later (h : OpenAbove f indirect r st) (next : Later f indirect st st') :
    OpenAbove f indirect r st' := by
  intro u visited due
  rcases next.closed u visited due with visited | complete
  · exact (h u visited due).imp_left fun complete => complete.later next
  · exact .inl complete

theorem below (h : OpenAbove f indirect r st) (edge : f.tree.Inherits r v) :
    OpenAbove f indirect v st := fun u visited due =>
  (h u visited due).imp_right fun route => route.tail edge

/-- The visit of a class is open for the search below the class. -/
theorem visit (h : OpenAbove f indirect r st) (edge : f.tree.Inherits r v)
    (visited : st'.visitedVirtualBases = st.visitedVirtualBases ++ [v]) :
    OpenAbove f indirect v st' := by
  intro u met due
  rw [visited] at met
  rcases List.mem_append.mp met with met | last
  · refine (h.below edge u met due).imp_left fun complete w has due => ?_
    rw [visited]
    exact List.mem_append_left _ (complete w has due)
  · cases List.mem_singleton.mp last
    exact .inr .refl

end OpenAbove

/-- A base has been dealt with: it has been visited if it is due, and so has all that is due below. -/
structure Covered (f : Frame) (indirect : List RecordId) (base : Base) (st : State) : Prop where
  visited : base.isVirtual = true → base.record ∉ indirect → base.record ∈ st.visitedVirtualBases
  complete : Complete f indirect base.record st

theorem Covered.later {base : Base} (h : Covered f indirect base st)
    (next : Later f indirect st st') : Covered f indirect base st' :=
  ⟨fun virt due => next.visited _ (h.visited virt due), h.complete.later next⟩

theorem Complete.of_covered (h : ∀ base ∈ (f.tree.record r).bases, Covered f indirect base st) :
    Complete f indirect r st := by
  intro w has due
  obtain ⟨base, member, ⟨virt, rfl⟩ | below⟩ := Tree.hasVirtualBase_iff.mp has
  · exact (h base member).visited virt due
  · exact (h base member).complete w below due

theorem layVirtualBasesBelow_eq (acyclic : f.tree.Acyclic r) (primary : Option PrimaryBase) :
    layVirtualBasesBelow f r primary st = (f.tree.record r).bases.foldlM (fun st base => do
      let isDue := base.isVirtual && primary != some ⟨base.record, true⟩
        && !st.indirectPrimaryBases.contains base.record
      if isDue && st.visitedVirtualBases.contains base.record then return st
      let st ← if isDue then
          layVirtualBase f (← st.graph.virtualBase base.record)
            { st with visitedVirtualBases := st.visitedVirtualBases ++ [base.record] }
        else pure st
      if !f.tree.hasVirtualBases base.record then return st
      layVirtualBasesBelow f base.record (← layoutOf base.record).primaryBase? st) st := by
  unfold layVirtualBasesBelow
  rw [f.tree.descend_eq (fun _ _ (edge : f.tree.Inherits _ _) => edge.declared) ?looks acyclic]
  intro h h' r same
  funext primary st
  refine foldlM_congr (fun base member st => ?_) st
  simp only [same base.record ⟨base, member, rfl⟩]

/-- What the search needs of the invariant `K` of its states: where there is one, a virtual base that
is due and has not been visited gets its place, whatever else the search knows of staying the same. -/
structure Searchable (f : Frame) (known : Known) (allowed : Fault → Prop) (indirect : List RecordId)
    (K : State → Prop) : Prop where
  acyclic : f.tree.Acyclic f.record
  laid : BasesLaid f.setting known f.record
  /-- The primary base of a class below, if it is virtual, is never due. -/
  primary : ∀ b v, Relation.TransGen f.tree.Inherits f.record b → known.virtualPrimary? b = some v →
    v ∈ indirect
  used : ∀ st, K st → st.indirectPrimaryBases = indirect
  due : ∀ st v, K st → f.tree.HasVirtualBase f.record v → v ∉ indirect →
    v ∉ st.visitedVirtualBases →
    Ends allowed ((do
      layVirtualBase f (← st.graph.virtualBase v)
        { st with visitedVirtualBases := st.visitedVirtualBases ++ [v] } : LayoutM State).eval known)
      fun st' => K st' ∧
        st'.rest = { st with visitedVirtualBases := st.visitedVirtualBases ++ [v] }.rest ∧
        st.size ≤ st'.size

section Search

variable {K : State → Prop} {base : Base}

/-- What the search below `r` does from states on in which the open visits are those of classes above. -/
def SearchedBelow (f : Frame) (known : Known) (allowed : Fault → Prop) (indirect : List RecordId)
    (K : State → Prop) (r : RecordId) : Prop :=
  ∀ (primary : Option PrimaryBase) (st : State), (∀ v, primary = some ⟨v, true⟩ → v ∈ indirect) → K st →
    OpenAbove f indirect r st → Ends allowed ((layVirtualBasesBelow f r primary st).eval known)
      fun st' => K st' ∧ Later f indirect st st' ∧ Complete f indirect r st'

variable (searchable : Searchable f known allowed indirect K)
include searchable

/-- A base is due just if it is virtual and no class uses it as its primary base. -/
theorem Searchable.isDue_eq (h : K st) {primary : Option PrimaryBase}
    (unowed : ∀ v, primary = some ⟨v, true⟩ → v ∈ indirect) :
    (base.isVirtual && primary != some ⟨base.record, true⟩ &&
      !st.indirectPrimaryBases.contains base.record) =
        decide (base.isVirtual = true ∧ base.record ∉ indirect) := by
  rw [searchable.used _ h]
  by_cases due : base.record ∈ indirect
  · simp [due]
  · have other : primary ≠ some ⟨base.record, true⟩ := fun same => due (unowed _ same)
    simp [due, other]

/-- The search below a base, once the base itself has been dealt with. -/
theorem Searchable.below (path : Relation.TransGen f.tree.Inherits f.record base.record)
    (search : SearchedBelow f known allowed indirect K base.record) (h : K st)
    (above : OpenAbove f indirect base.record st) :
    Ends allowed ((do
      if !f.tree.hasVirtualBases base.record then return st
      layVirtualBasesBelow f base.record (← layoutOf base.record).primaryBase? st
        : LayoutM State).eval known) fun st' =>
      K st' ∧ Later f indirect st st' ∧ Complete f indirect base.record st' := by
  have acyclic : f.tree.Acyclic base.record := searchable.acyclic.lowerAll path.to_reflTransGen
  cases has : f.tree.hasVirtualBases base.record with
  | false =>
    refine ⟨h, .refl st, fun w virt _ => ?_⟩
    rw [(Tree.hasVirtualBases_iff acyclic).mpr ⟨w, virt⟩] at has
    cases has
  | true =>
    obtain ⟨layout, laid, _⟩ := searchable.laid base.record path
    simp only [Bool.not_true, Bool.false_eq_true, if_false]
    rw [LayoutM.eval_layoutOf_bind laid]
    refine search layout.primaryBase? st (fun v names => searchable.primary _ _ path ?_) h above
    rw [Known.virtualPrimary?_eq laid, RecordLayout.virtualPrimaryBase?, names]
    rfl

/-- The search over one base of `r`. A base that is due and has been visited before is not above `r`, so
its visit is over. -/
theorem Searchable.step (path : Relation.ReflTransGen f.tree.Inherits f.record r)
    (member : base ∈ (f.tree.record r).bases)
    (search : SearchedBelow f known allowed indirect K base.record) (h : K st)
    (above : OpenAbove f indirect r st) :
    Ends allowed ((do
      let isDue := decide (base.isVirtual = true ∧ base.record ∉ indirect)
      if isDue && st.visitedVirtualBases.contains base.record then return st
      let st ← if isDue then
          layVirtualBase f (← st.graph.virtualBase base.record)
            { st with visitedVirtualBases := st.visitedVirtualBases ++ [base.record] }
        else pure st
      if !f.tree.hasVirtualBases base.record then return st
      layVirtualBasesBelow f base.record (← layoutOf base.record).primaryBase? st
        : LayoutM State).eval known) fun st' =>
      K st' ∧ Later f indirect st st' ∧ Covered f indirect base st' := by
  have edge : f.tree.Inherits r base.record := ⟨base, member, rfl⟩
  have below : Relation.TransGen f.tree.Inherits f.record base.record := .tail' path edge
  by_cases due : base.isVirtual = true ∧ base.record ∉ indirect
  · obtain ⟨virt, away⟩ := due
    simp only [virt, away, not_false_eq_true, and_self, decide_true, Bool.true_and, if_true]
    by_cases visited : base.record ∈ st.visitedVirtualBases
    · rw [if_pos (by simpa using visited)]
      refine ⟨h, .refl st, fun _ _ => visited, (above _ visited away).resolve_right fun back => ?_⟩
      exact (searchable.acyclic.lowerAll path).irrefl (Relation.TransGen.head' edge back)
    · rw [if_neg (by simpa using visited), ← bind_assoc]
      refine ends_bind (searchable.due st _ h ⟨r, path, base, member, virt, rfl⟩ away visited) ?_
      rintro st₁ ⟨h₁, rest, grows⟩
      have visited₁ := (SameRest.of_eq rest).visitedVirtualBases
      refine (searchable.below below search h₁ (above.visit edge visited₁)).imp ?_
      rintro st' ⟨laid, later, complete⟩
      refine ⟨laid, .visit rest grows later complete, fun _ _ => ?_, complete⟩
      exact later.visited _ (by rw [visited₁]; simp)
  · simp only [due, decide_false, Bool.false_and, Bool.false_eq_true, if_false, pure_bind]
    refine (searchable.below below search h (above.below edge)).imp ?_
    rintro st' ⟨laid, later, complete⟩
    exact ⟨laid, later, fun virt away => absurd ⟨virt, away⟩ due, complete⟩

/-- After the search below `r` every virtual base of `r` that is due has been visited, if the visits
that are not over are those of classes above `r`. -/
theorem Searchable.complete (path : Relation.ReflTransGen f.tree.Inherits f.record r) :
    SearchedBelow f known allowed indirect K r := by
  have acyclic : f.tree.Acyclic r := searchable.acyclic.lowerAll path
  induction acyclic with
  | intro r lower ih =>
  intro primary st unowed h above
  rw [layVirtualBasesBelow_eq (.intro lower), LayoutM.eval_foldlM]
  refine (Ends.foldlM (K := fun done _ st' => K st' ∧ Later f indirect st st' ∧
    ∀ base ∈ done, Covered f indirect base st') ⟨h, .refl st, nofun⟩ ?_).imp ?_
  · rintro done base rest st₁ split ⟨h₁, later, covered⟩
    have member : base ∈ (f.tree.record r).bases := by simp [split]
    have edge : f.tree.Inherits r base.record := ⟨base, member, rfl⟩
    have search := ih base.record edge (path.tail edge)
    dsimp only
    rw [searchable.isDue_eq h₁ unowed]
    refine (searchable.step path member search h₁ (above.later later)).imp ?_
    rintro st' ⟨laid, next, here⟩
    refine ⟨laid, later.trans next, fun base' there => ?_⟩
    rcases List.mem_append.mp there with there | last
    · exact (covered base' there).later next
    · cases List.mem_singleton.mp last
      exact here
  · exact fun st' ⟨laid, later, covered⟩ => ⟨laid, later, .of_covered covered⟩

end Search

section Pass

variable (work : Workable f known allowed) (charted : Charted f.setting known f.record own g)
variable (used : ∀ u, u ∈ indirect ↔ own = some u ∨
  ∃ b, f.tree.Inherits f.record b ∧ IsPrimaryFrom f.setting known b u)
include used

/-- The primary base of a class below, if it is virtual, is never due. -/
theorem primary_indirect {b : RecordId} (path : Relation.TransGen f.tree.Inherits f.record b)
    (names : known.virtualPrimary? b = some v) : v ∈ indirect := by
  obtain ⟨b₀, edge, further⟩ := Relation.TransGen.head'_iff.mp path
  exact (used v).mpr (.inr ⟨b₀, edge, b, further, names⟩)

include charted

/-- A virtual base that nothing uses as its primary base hangs from nothing. -/
theorem due_isRoot (found : g.virtualBases.find? v = some p) (due : v ∉ indirect) : g.IsRoot p := by
  obtain ⟨has, _, virt⟩ := charted.forest.found v p found
  refine SubobjectGraph.free_isRoot has virt ?_
  by_contra some
  have claimed := (charted.forest.claimed_iff found).mp (Option.isSome_iff_ne_none.mpr some)
  exact due ((used v).mpr (.inr claimed.2))

include work

/-- A virtual base that is due and was not visited yet gets its place. -/
theorem layDue_ends (h : VirtualLaid f known own g indirect before pieces st)
    (has : f.tree.HasVirtualBase f.record v) (due : v ∉ indirect)
    (unvisited : v ∉ st.visitedVirtualBases) :
    Ends allowed ((do
      layVirtualBase f (← st.graph.virtualBase v)
        { st with visitedVirtualBases := st.visitedVirtualBases ++ [v] } : LayoutM State).eval known)
      fun st' => (∃ pieces, VirtualLaid f known own g indirect before pieces st') ∧
        st'.rest = { st with visitedVirtualBases := st.visitedVirtualBases ++ [v] }.rest ∧
        st.size ≤ st'.size := by
  obtain ⟨p, found⟩ := Option.isSome_iff_exists.mp (charted.forest.covered v has)
  obtain ⟨_, _, virt⟩ := charted.forest.found v p found
  have root := due_isRoot charted used found due
  have new (y : Nat) : Piece.base p y ∉ pieces :=
    fun member => unvisited ((h.visited v p found).mp ⟨y, member⟩)
  have lookup : st.graph.virtualBase v = .ok p := by
    rw [h.progress.laid.graph, SubobjectGraph.virtualBase, found]
  rw [LayoutM.eval_lift_bind lookup]
  refine (layVirtualBase_ends work charted (h.progress.laid.visiting _) root new virt).imp ?_
  rintro st' ⟨x, next⟩
  exact ⟨⟨_, h.push work charted found root new next⟩, next.rest, next.grows⟩

/-- The pass is such a search. -/
theorem searchable : Searchable f known allowed indirect fun st =>
    ∃ pieces, VirtualLaid f known own g indirect before pieces st where
  acyclic := work.acyclic
  laid := work.sound.basesLaid
  primary _ _ := primary_indirect used
  used := fun _ ⟨_, h⟩ => h.indirect
  due := fun _ _ ⟨_, h⟩ => layDue_ends work charted used h

end Pass

end ObjectLayout.Itanium
