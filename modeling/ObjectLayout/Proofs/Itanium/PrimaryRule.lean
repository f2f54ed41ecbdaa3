import ObjectLayout.Proofs.Itanium.Moves
import ObjectLayout.Proofs.Itanium.Soundness

/-! The choice of a primary base as a rule about the inheritance graph. The search for a nearly empty
virtual base stops as soon as it meets one that no base uses; what it has found by then is the first
such class, and the first of all, in the order in which a walk meets the bases. -/
namespace ObjectLayout

/-- The first in a list that has a property. -/
def IsFirst (p : α → Prop) (xs : List α) (x : α) : Prop :=
  ∃ before after, xs = before ++ x :: after ∧ p x ∧ ∀ y ∈ before, ¬ p y

theorem IsFirst.find? {p : α → Prop} {q : α → Bool} {xs : List α} {x : α} (h : IsFirst p xs x)
    (same : ∀ y, q y = true ↔ p y) : xs.find? q = some x := by
  obtain ⟨before, after, split, here, others⟩ := h
  apply List.find?_eq_some_iff_append.mpr
  refine ⟨(same x).mpr here, before, after, split, ?_⟩
  intro y member
  have no : ¬ q y = true := fun yes => others y member ((same y).mp yes)
  simpa using no

/-- The direct and indirect bases of a record in the order in which a walk meets them, each before
its own bases. What is inherited along several paths is met as often. -/
def Tree.basesInOrder (tree : Tree) : RecordId → List Base :=
  tree.descend [] fun below r => (tree.record r).bases.flatMap fun base => base :: below base.record

theorem Tree.basesInOrder_eq {tree : Tree} {r : RecordId} (acyclic : tree.Acyclic r) :
    tree.basesInOrder r =
      (tree.record r).bases.flatMap fun base => base :: tree.basesInOrder base.record := by
  refine tree.descend_eq (fun _ _ h => h.declared) ?_ acyclic
  intro f g r same
  apply List.flatMap_congr
  intro base member
  rw [same base.record ⟨base, member, rfl⟩]

theorem Tree.mem_basesInOrder {tree : Tree} {r : RecordId} {base : Base} (acyclic : tree.Acyclic r) :
    base ∈ tree.basesInOrder r ↔
      ∃ c, Relation.ReflTransGen tree.Inherits r c ∧ base ∈ (tree.record c).bases := by
  induction acyclic with
  | intro r lower ih =>
  rw [basesInOrder_eq (.intro lower), List.mem_flatMap]
  constructor
  · rintro ⟨first, member, there⟩
    rcases List.mem_cons.mp there with rfl | deeper
    · exact ⟨r, .refl, member⟩
    · have edge : tree.Inherits r first.record := ⟨first, member, rfl⟩
      obtain ⟨c, path, last⟩ := (ih first.record edge).mp deeper
      exact ⟨c, .head edge path, last⟩
  · rintro ⟨c, path, last⟩
    rcases Relation.ReflTransGen.cases_head path with rfl | ⟨_, ⟨first, member, rfl⟩, further⟩
    · exact ⟨base, last, List.mem_cons_self⟩
    · have deeper := (ih first.record ⟨first, member, rfl⟩).mpr ⟨c, further, last⟩
      exact ⟨first, member, List.mem_cons_of_mem _ deeper⟩

/-- By the known layouts, a class is dynamic and no larger than a table pointer. -/
def Setting.nearlyEmpty (s : Setting) (known : Known) (v : RecordId) : Bool :=
  s.tree.isDynamic v && known.nonVirtualSize v == s.target.pointerWidth

/-- The nearly empty classes that a walk below a record meets as virtual bases. -/
def Setting.candidates (s : Setting) (known : Known) (r : RecordId) : List RecordId :=
  ((s.tree.basesInOrder r).filter fun base =>
    base.isVirtual && s.nearlyEmpty known base.record).map (·.record)

/-- A direct or indirect base of `d` has `v` as its virtual primary base. -/
def Setting.Takes (s : Setting) (known : Known) (d v : RecordId) : Prop :=
  ∃ b, Relation.TransGen s.tree.Inherits d b ∧ known.virtualPrimary? b = some v

/-- The rule that gives a class its primary base, and a table pointer of its own where it has none. -/
structure FollowsPrimaryRule (s : Setting) (known : Known) (d : RecordId) (layout : RecordLayout) :
    Prop where
  still : s.tree.isDynamic d = false → layout.primaryBase? = none
  /-- The first dynamic direct base that is not virtual is preferred to all others. -/
  direct : s.tree.isDynamic d = true → ∀ base,
    IsFirst (fun base : Base => s.tree.isDynamic base.record = true)
      (s.tree.record d).nonVirtualBases base → layout.primaryBase? = some ⟨base.record, false⟩
  /-- Then comes the first candidate that no base has taken, -/
  free : s.tree.isDynamic d = true →
    (∀ base ∈ (s.tree.record d).nonVirtualBases, s.tree.isDynamic base.record = false) →
    ∀ v, IsFirst (fun v => ¬ s.Takes known d v) (s.candidates known d) v →
      layout.primaryBase? = some ⟨v, true⟩
  /-- then the first of all; where there are no candidates, there is no primary base. -/
  taken : s.tree.isDynamic d = true →
    (∀ base ∈ (s.tree.record d).nonVirtualBases, s.tree.isDynamic base.record = false) →
    (∀ v ∈ s.candidates known d, s.Takes known d v) →
      layout.primaryBase? = (s.candidates known d).head?.map (⟨·, true⟩)
  pointer : layout.hasOwnVfptr = true ↔ s.tree.isDynamic d = true ∧ layout.primaryBase? = none
  plain_start : ∀ b, layout.primaryBase? = some ⟨b, false⟩ → layout.baseOffset b = .ok 0
  virtual_start : ∀ v, layout.primaryBase? = some ⟨v, true⟩ → layout.virtualBaseOffset v = .ok 0

namespace Itanium

open LayoutM (ends_bind ends_lift_bind eval_bind_eq_ok)

variable {s : Setting} {known : Known} {allowed : Fault → Prop} {r v : RecordId}

theorem isNearlyEmpty_value (acyclic : s.tree.Acyclic v)
    (laid : ∃ layout, known.record v = .ok layout ∧
      layout.asClass.isSome = (s.tree.record v).isClass) :
    (isNearlyEmpty s v).eval known = .ok (s.nearlyEmpty known v) := by
  unfold isNearlyEmpty Setting.nearlyEmpty
  cases dynamic : s.tree.isDynamic v with
  | false => rfl
  | true =>
    obtain ⟨layout, found, isSome⟩ := laid
    obtain ⟨part, asClass⟩ := Option.isSome_iff_exists.mp
      (isSome.trans (isClass_of_isDynamic acyclic dynamic))
    have sized : layout.nonVirtualSize = .ok part.nonVirtualSize := by
      simp [RecordLayout.nonVirtualSize, RecordLayout.classLayout, asClass, Except.map]
    have same : known.nonVirtualSize v = part.nonVirtualSize := by
      rw [Known.nonVirtualSize, Known.classLayout?_eq found, asClass]
      rfl
    rw [same, Bool.true_and]
    change (LayoutM.layoutOf v >>= _).eval known = _
    rw [LayoutM.eval_layoutOf_bind found, LayoutM.eval_lift_bind sized]
    rfl

section Search

/-- After meeting the candidates `met` the search has come from `before` to `after`. -/
structure Searched (used met : List RecordId) (before after : Candidates) : Prop where
  unused : after.unused = before.unused.or (met.find? fun v => !used.contains v)
  first : after.unused = none → after.first = before.first.or met.head?

namespace Searched

variable {used met met' : List RecordId} {start mid last : Candidates}

theorem refl : Searched used [] start start where
  unused := by simp
  first _ := by simp

/-- Once there is a candidate that no base uses, nothing is looked at any more. -/
theorem closed (found : start.unused.isSome = true) : Searched used met start start where
  unused := by
    obtain ⟨v, unused⟩ := Option.isSome_iff_exists.mp found
    rw [unused, Option.some_or]
  first none := by
    rw [none] at found
    cases found

theorem append (h : Searched used met start mid) (h' : Searched used met' mid last) :
    Searched used (met ++ met') start last where
  unused := by rw [h'.unused, h.unused, List.find?_append, Option.or_assoc]
  first none := by
    have earlier : mid.unused = Option.none := by
      have both := h'.unused.symm.trans none
      exact (Option.or_eq_none_iff.mp both).1
    rw [h'.first none, h.first earlier, List.head?_append, Option.or_assoc]

end Searched

/-- A walk meets a base, if it is a candidate, and then the candidates below it. -/
theorem candidates_eq (acyclic : s.tree.Acyclic r) : s.candidates known r =
    (s.tree.record r).bases.flatMap fun base =>
      (if base.isVirtual && s.nearlyEmpty known base.record then [base.record] else []) ++
        s.candidates known base.record := by
  unfold Setting.candidates
  rw [Tree.basesInOrder_eq acyclic, List.filter_flatMap, List.map_flatMap]
  apply List.flatMap_congr
  intro base _
  rw [List.filter_cons]
  split <;> simp

theorem searchNearlyEmpty_searches (used : List RecordId) (acyclic : s.tree.Acyclic r)
    (laid : BasesLaid s known r) (found : Candidates) :
    Ends allowed ((searchNearlyEmpty s used r found).eval known)
      (Searched used (s.candidates known r) found) := by
  induction acyclic generalizing found with
  | intro r lower ih =>
  have acyclic : s.tree.Acyclic r := .intro lower
  rw [searchNearlyEmpty_eq used acyclic, LayoutM.eval_foldlM, candidates_eq acyclic]
  -- The invariant of the loop: what the bases so far, and all below them, had to offer.
  refine Ends.foldlM (K := fun done _ state => Searched used (done.flatMap fun base : Base =>
    (if base.isVirtual && s.nearlyEmpty known base.record then [base.record] else []) ++
      s.candidates known base.record) found state) .refl ?_
  intro done base rest state split sofar
  have member : base ∈ (s.tree.record r).bases := by simp [split]
  have edge : s.tree.Inherits r base.record := ⟨base, member, rfl⟩
  have further (start : Candidates) :=
    ih base.record edge (laid.lower edge) start
  rw [List.flatMap_append, List.flatMap_singleton]
  cases closed : state.unused.isSome with
  | true => exact sofar.append (.closed closed)
  | false =>
  have unmet : state.unused = none := by simpa using closed
  -- What becomes of the base once it is known whether it is a candidate.
  have goes (candidate : Bool) : Ends allowed ((if candidate && !used.contains base.record then
      pure { state with unused := some base.record }
    else searchNearlyEmpty s used base.record (if candidate then
      { state with first := state.first.or (some base.record) } else state)).eval known)
      (Searched used ((if candidate then [base.record] else []) ++ s.candidates known base.record)
        state) := by
    cases candidate with
    | false => exact further state
    | true =>
      cases taken : used.contains base.record with
      | false =>
        have free : base.record ∉ used := by simpa using taken
        constructor
        case unused => simp [unmet, free]
        case first => nofun
      | true =>
        have member : base.record ∈ used := by simpa using taken
        refine (further _).imp fun _ next => .append ?_ next
        constructor
        case unused => simp [unmet, member]
        case first => exact fun _ => rfl
  cases virt : base.isVirtual with
  | false => exact (goes false).imp fun _ next => sofar.append next
  | true =>
    have nearly := isNearlyEmpty_value (acyclic.lower edge) (laid base.record (.single edge))
    simp only [Bool.false_eq_true, if_false, if_true, Bool.true_and]
    rw [LayoutM.eval_bind, nearly]
    exact (goes (s.nearlyEmpty known base.record)).imp fun _ next => sofar.append next

end Search

section Choice

/-- The bases counted as used are those that the rule speaks of. -/
theorem takes_iff : s.Takes known r v ↔
    ∃ b, s.tree.Inherits r b ∧ IsPrimaryFrom s known b v := by
  constructor
  · rintro ⟨c, path, primary⟩
    obtain ⟨b, edge, further⟩ := Relation.TransGen.head'_iff.mp path
    exact ⟨b, edge, c, further, primary⟩
  · rintro ⟨b, edge, c, further, primary⟩
    exact ⟨c, .head' edge further, primary⟩

theorem candidates_eq_nil (acyclic : s.tree.Acyclic r)
    (still : s.tree.hasVirtualBases r = false) : s.candidates known r = [] := by
  have none (base : Base) (member : base ∈ s.tree.basesInOrder r) : base.isVirtual = false := by
    by_contra virt
    obtain ⟨c, path, last⟩ := (Tree.mem_basesInOrder acyclic).mp member
    have has : s.tree.HasVirtualBase r base.record := ⟨c, path, base, last, by simpa using virt, rfl⟩
    rw [(Tree.hasVirtualBases_iff acyclic).mpr ⟨_, has⟩] at still
    cases still
  unfold Setting.candidates
  rw [List.map_eq_nil_iff, List.filter_eq_nil_iff]
  intro base member
  simp [none base member]

/-- The primary base that the rule names where the virtual bases `used` are taken. -/
def primaryByRule (s : Setting) (known : Known) (used : List RecordId) (r : RecordId) :
    Option PrimaryBase :=
  if s.tree.isDynamic r then
    match firstDynamicBase? s r with
    | some base => some ⟨base, false⟩
    | none =>
      let candidates := s.candidates known r
      ((candidates.find? fun v => !used.contains v).or candidates.head?).map (⟨·, true⟩)
  else none

theorem choosePrimaryBase_rules (acyclic : s.tree.Acyclic r) (laid : BasesLaid s known r)
    (primaries : PrimariesInherited s known r) :
    Ends allowed ((choosePrimaryBase s r).eval known) fun choice =>
      choice.1 = primaryByRule s known choice.2 r ∧ ∀ v, v ∈ choice.2 ↔ s.Takes known r v := by
  unfold choosePrimaryBase primaryByRule
  cases dynamic : s.tree.isDynamic r with
  | false =>
    refine ⟨rfl, fun v => iff_of_false List.not_mem_nil ?_⟩
    rw [takes_iff]
    exact not_isPrimaryFrom_of_not_dynamic acyclic primaries dynamic
  | true =>
  refine ends_bind (indirectPrimaryBases_ends acyclic laid primaries) ?_
  intro used usedIff
  have taken (v : RecordId) : v ∈ used ↔ s.Takes known r v := (usedIff v).trans takes_iff.symm
  cases firstDynamicBase? s r with
  | some base => exact ⟨rfl, taken⟩
  | none =>
  cases virt : s.tree.hasVirtualBases r with
  | false =>
    rw [candidates_eq_nil acyclic virt]
    exact ⟨rfl, taken⟩
  | true =>
  refine ends_bind (searchNearlyEmpty_searches used acyclic laid {}) ?_
  intro found searched
  have unused : found.unused = (s.candidates known r).find? fun v => !used.contains v :=
    searched.unused
  refine ⟨?_, taken⟩
  change (found.unused.or found.first).map _ = ((Option.or _ _).map _ : Option PrimaryBase)
  rw [← unused]
  cases none : found.unused with
  | some v => rfl
  | none => rw [searched.first none, Option.none_or, Option.none_or]

end Choice

section Run

variable {f : Frame} {st st' : State} {i : SubobjectId}

/-- Neither the primary base nor the table pointer has changed, and no unit of bits either. -/
def KeepsPointer (st st' : State) : Prop :=
  st'.primaryBase = st.primaryBase ∧ st'.hasOwnVfptr = st.hasOwnVfptr ∧
    st'.storageUnit = st.storageUnit

theorem BaseHoused.keepsPointer {x : Nat} {tables : State → State}
    (h : BaseHoused f known i x tables st st') (same : ∀ mid, KeepsPointer mid (tables mid)) :
    KeepsPointer st st' := by
  obtain ⟨mid, slots, raised, _, rfl⟩ := h.housed
  have tabled := same mid
  rw [raised.frame] at tabled
  rw [raised.frame]
  exact tabled

theorem layNonVirtualBase_keepsPointer (unsupplied : f.supplied = none) :
    Ends (fun _ => True) ((layNonVirtualBase f i st).eval known) (KeepsPointer st) :=
  (layNonVirtualBase_houses unsupplied).imp fun _ ⟨_, housed⟩ =>
    housed.keepsPointer fun _ => ⟨rfl, rfl, rfl⟩

theorem layPrimaryBase_keepsPointer (unsupplied : f.supplied = none) (primary : PrimaryBase) :
    Ends (fun _ => True) ((layPrimaryBase f primary st).eval known) (KeepsPointer st) := by
  unfold layPrimaryBase
  split
  · refine ends_bind Ends.any fun stolen _ => ends_bind Ends.any fun _ _ => ?_
    exact (layVirtualBase_houses unsupplied).imp fun _ ⟨_, housed⟩ =>
      housed.keepsPointer fun _ => ⟨rfl, rfl, rfl⟩
  · exact ends_bind Ends.any fun _ _ => layNonVirtualBase_keepsPointer unsupplied

theorem directBases_keepsPointer (unsupplied : f.supplied = none) (bases : List Base) :
    Ends (fun _ => True) ((bases.foldlM (m := LayoutM) (fun st base => do
      if isNonVirtualPrimary st base.record then return st
      layNonVirtualBase f (← st.graph.nonVirtualBase base.record) st) st).eval known)
      (KeepsPointer st) := by
  rw [LayoutM.eval_foldlM]
  refine Ends.foldlM_keeps ⟨rfl, rfl, rfl⟩ ?_
  intro base _ mid sofar
  split
  · exact sofar
  · refine ends_bind Ends.any fun _ _ => (layNonVirtualBase_keepsPointer unsupplied).imp ?_
    intro next kept
    exact ⟨kept.1.trans sofar.1, kept.2.1.trans sofar.2.1, kept.2.2.trans sofar.2.2⟩

/-- The primary base follows the rule, and there is a table pointer where it leaves none to share. -/
def PointsByRule (s : Setting) (known : Known) (r : RecordId) (primary : Option PrimaryBase)
    (hasOwnVfptr : Bool) : Prop :=
  (∃ used, primary = primaryByRule s known used r ∧ ∀ v, v ∈ used ↔ s.Takes known r v) ∧
    hasOwnVfptr = (s.tree.isDynamic r && primary.isNone)

theorem layNonVirtualBases_points (work : Workable f known fun _ => True)
    (start : st.hasOwnVfptr = false) :
    Ends (fun _ => True) ((layNonVirtualBases f st).eval known) fun st' =>
      PointsByRule f.setting known f.record st'.primaryBase st'.hasOwnVfptr ∧
        st'.storageUnit = st.storageUnit := by
  unfold layNonVirtualBases
  refine ends_bind (choosePrimaryBase_rules work.acyclic work.sound.basesLaid
    work.sound.primariesInherited) ?_
  rintro ⟨chosen, used⟩ rules
  refine ends_bind Ends.any fun graph _ => ?_
  -- What the loop over the direct bases makes of a state in which the pointer has been decided.
  have loop {mid : State} (primary : mid.primaryBase = chosen)
      (pointer : mid.hasOwnVfptr = (f.tree.isDynamic f.record && chosen.isNone))
      (unit : mid.storageUnit = st.storageUnit) :
      Ends (fun _ => True) ((f.declaration.nonVirtualBases.foldlM (m := LayoutM) (fun st base => do
        if isNonVirtualPrimary st base.record then return st
        layNonVirtualBase f (← st.graph.nonVirtualBase base.record) st) mid).eval known) fun st' =>
        PointsByRule f.setting known f.record st'.primaryBase st'.hasOwnVfptr ∧
          st'.storageUnit = st.storageUnit := by
    refine (directBases_keepsPointer work.unsupplied _).imp fun st' kept => ?_
    rw [kept.1, kept.2.1, primary, pointer]
    exact ⟨⟨⟨used, rules⟩, rfl⟩, kept.2.2.trans unit⟩
  cases chosen with
  | none =>
    cases dynamic : f.tree.isDynamic f.record with
    | false =>
      refine loop rfl ?_ rfl
      rw [dynamic]
      exact start
    | true =>
      refine ends_lift_bind (layTablePointer_raises work.unsupplied) fun mid raised => ?_
      rw [raised.1]
      refine loop rfl ?_ rfl
      rw [dynamic]
      rfl
  | some primary =>
    refine ends_bind (layPrimaryBase_keepsPointer work.unsupplied primary) fun mid kept => ?_
    refine loop kept.1 ?_ kept.2.2
    rw [kept.2.1, Option.isNone_some, Bool.and_false]
    exact start

/-- The layout of a class, with the state `mid` after its bases and the state `fixed` after its
fields. -/
structure ClassPhases (f : Frame) (known : Known) (own : Option RecordId) (g : SubobjectGraph)
    (pieces : List Piece) (mid fixed : State) (layout : RecordLayout) : Prop where
  nonVirtual : NonVirtualLaid f known own g pieces mid
  points : PointsByRule f.setting known f.record mid.primaryBase mid.hasOwnVfptr
  storageUnit : mid.storageUnit = 0
  fields : (layFields f mid).eval known = .ok fixed
  fieldOffsets : layout.fieldOffsets = fixed.fieldOffsets
  inside : fixed.size ≤ 8 * layout.size
  part : ∃ part, layout.asClass = some part ∧ part.primaryBase = mid.primaryBase ∧
    part.hasOwnVfptr = mid.hasOwnVfptr ∧ part.baseOffsets = mid.baseOffsets

theorem ClassStages.phases {map : EmptyMap} {start mid fixed st last : State} {layout : RecordLayout}
    {tracking : Tracking} (h : ClassStages f known tracking map start mid fixed st last layout)
    (work : Workable f known fun _ => True) {own : Option RecordId} {g : SubobjectGraph}
    {based added pieces : List Piece}
    (placed : ClassPieces f known own g based added pieces mid fixed st) :
    ClassPhases f known own g based mid fixed layout := by
  obtain ⟨nonVirtual, fields, _, all⟩ := placed
  have bare := Ends.holds (initial_frame work.unsupplied (some map)) h.started
  obtain ⟨points, unit⟩ := Ends.holds (layNonVirtualBases_points work (by rw [bare])) h.bases
  have entries : f.declaration.fields.zipIdx = [] ++ f.declaration.fields.zipIdx ++ [] := by simp
  obtain ⟨_, _, _, same⟩ := layAnyFields_moves work.unsupplied entries
    (by rw [nonVirtual.direct.fieldOffsets]; rfl) h.fields
  have graph : fixed.graph = g := by
    rw [same]
    exact nonVirtual.direct.progress.laid.graph
  obtain ⟨_, same'⟩ := layVirtualBasesBelow_moves work nonVirtual.charted nonVirtual.indirect
    work.acyclic _ graph (by rw [same]) h.virtualBases
  have finish := Ends.holds (finish_ends work.unsupplied) h.finished
  obtain ⟨size, frame⟩ := finish.frame
  obtain rfl := h.layout
  refine ⟨nonVirtual, points, ?_, h.fields, ?_, ?_, _, rfl, ?_, ?_, ?_⟩
  · rw [unit, bare]
  · change last.fieldOffsets = fixed.fieldOffsets
    rw [frame, same']
  · exact (all.grows.trans finish.grows).trans (le_toBytesCeil last.size)
  all_goals
    dsimp only
    rw [frame, same', same]

theorem layClass_phases (work : Workable f known fun _ => True) (tracking : Tracking) :
    Ends (fun _ => True) ((layClass f tracking).eval known) fun layout =>
      ∃ own g pieces mid fixed, ClassPhases f known own g pieces mid fixed layout := by
  refine (layClass_stages tracking).imp ?_
  rintro layout ⟨map, start, mid, fixed, st, last, stages⟩
  obtain ⟨own, g, based, added, pieces, placed⟩ := stages.placed work
  exact ⟨own, g, based, mid, fixed, stages.phases work placed⟩

variable {own : Option RecordId} {g : SubobjectGraph} {pieces : List Piece} {mid fixed : State}
variable {layout : RecordLayout}

theorem ClassPhases.primaryBase?_eq (h : ClassPhases f known own g pieces mid fixed layout) :
    layout.primaryBase? = mid.primaryBase := by
  obtain ⟨part, asClass, primary, _⟩ := h.part
  rw [RecordLayout.primaryBase?, asClass]
  exact primary

theorem ClassPhases.hasOwnVfptr_eq (h : ClassPhases f known own g pieces mid fixed layout) :
    layout.hasOwnVfptr = mid.hasOwnVfptr := by
  obtain ⟨part, asClass, _, pointer, _⟩ := h.part
  rw [RecordLayout.hasOwnVfptr, asClass]
  exact pointer

theorem ClassLaid.primaryBase?_eq {st : State}
    (built : ClassLaid f known own g pieces fixed st layout) :
    layout.primaryBase? = st.primaryBase := by
  obtain ⟨part, asClass, primary, _⟩ := built.part
  rw [RecordLayout.primaryBase?, asClass]
  exact primary

/-- A primary base shares the table pointer at the start, whether it is virtual or not. -/
theorem ClassLaid.primary_at_start {st : State}
    (built : ClassLaid f known own g pieces fixed st layout)
    (laid : known.record f.record = .ok layout) :
    (∀ b, layout.primaryBase? = some ⟨b, false⟩ → layout.baseOffset b = .ok 0) ∧
      ∀ v, layout.primaryBase? = some ⟨v, true⟩ → layout.virtualBaseOffset v = .ok 0 := by
  have chosen := built.primaryBase?_eq
  constructor
  · intro b same
    obtain ⟨i, found, member⟩ := built.plain b (chosen.symm.trans same)
    obtain ⟨_, record, plain, _⟩ := built.charted.forest.direct b i found
    exact Known.baseOffset_eq laid ((built.baseOffset?_iff laid).mpr ⟨i, member, plain, record⟩)
  · intro v same
    have owns : own = some v := by
      rw [built.owned, ← chosen, same]
      rfl
    obtain ⟨p, found, member⟩ := built.own v owns
    obtain ⟨_, record, virt⟩ := built.charted.forest.found v p found
    exact Known.virtualBaseOffset_eq laid
      ((built.virtualBaseOffset?_iff laid).mpr ⟨p, 0, p, 0, member, .here _, virt, record, rfl⟩)

end Run

end Itanium

section Rule

open Itanium

variable {s : Setting} {known : Known} {d : RecordId} {layout : RecordLayout} {used : List RecordId}

theorem primaryByRule_direct {base : Base} (dynamic : s.tree.isDynamic d = true)
    (first : IsFirst (fun base : Base => s.tree.isDynamic base.record = true)
      (s.tree.record d).nonVirtualBases base) :
    primaryByRule s known used d = some ⟨base.record, false⟩ := by
  have found := first.find? (q := fun base : Base => s.tree.isDynamic base.record) fun _ => .rfl
  have direct : firstDynamicBase? s d = some base.record := by rw [firstDynamicBase?, found]; rfl
  rw [primaryByRule, if_pos dynamic, direct]

/-- Where no direct base that is not virtual is dynamic, the candidates decide. -/
theorem primaryByRule_virtual (dynamic : s.tree.isDynamic d = true)
    (noDirect : ∀ base ∈ (s.tree.record d).nonVirtualBases, s.tree.isDynamic base.record = false) :
    primaryByRule s known used d = (((s.candidates known d).find? fun v => !used.contains v).or
      (s.candidates known d).head?).map (⟨·, true⟩) := by
  have direct : firstDynamicBase? s d = none := by
    rw [firstDynamicBase?, Option.map_eq_none_iff, List.find?_eq_none]
    intro base member
    rw [noDirect base member]
    exact Bool.false_ne_true
  rw [primaryByRule, if_pos dynamic, direct]

/-- The primary base of every class, and its own table pointer, are those that the rule gives it. -/
theorem primary_base_follows_rule {depth : Nat} (itanium : s.IsItanium)
    (isClass : (s.tree.record d).isClass = true)
    (laid : (s.known depth).record d = .ok layout) :
    FollowsPrimaryRule s (s.known depth) d layout := by
  have knows := Setting.known_knows itanium.rules depth
  have below := (knows.sound_and_below itanium laid).2
  have work := Workable.of_knows knows (knows.grounded laid) below
  have rules := knows.layout_eq itanium laid
  rw [layoutTracking_eq, if_pos isClass] at rules
  obtain ⟨_, _, _, mid, _, phases⟩ := Ends.holds (layClass_phases work .pruned) rules
  have points := phases.points
  rw [← phases.primaryBase?_eq, ← phases.hasOwnVfptr_eq] at points
  obtain ⟨⟨used, primary, taken⟩, pointer⟩ := points
  obtain ⟨_, _, _, _, _, built⟩ := knows.classLaid itanium laid isClass
  have starts := built.primary_at_start laid
  change layout.primaryBase? = primaryByRule s (s.known depth) used d at primary
  change ∀ v, v ∈ used ↔ s.Takes (s.known depth) d v at taken
  change layout.hasOwnVfptr = (s.tree.isDynamic d && layout.primaryBase?.isNone) at pointer
  constructor
  case still =>
    intro still
    rw [primary, primaryByRule, still]
    rfl
  case direct =>
    intro dynamic base first
    rw [primary, primaryByRule_direct dynamic first]
  case free =>
    intro dynamic noDirect v first
    have found := first.find? (q := fun v => !used.contains v) fun v => by simp [taken]
    rw [primary, primaryByRule_virtual dynamic noDirect, found]
    rfl
  case taken =>
    intro dynamic noDirect all
    have none : (s.candidates (s.known depth) d).find? (fun v => !used.contains v) = none := by
      rw [List.find?_eq_none]
      intro v member
      simpa using (taken v).mpr (all v member)
    rw [primary, primaryByRule_virtual dynamic noDirect, none, Option.none_or]
  case pointer =>
    rw [pointer, Bool.and_eq_true, Option.isNone_iff_eq_none]
  case plain_start => exact starts.1
  case virtual_start => exact starts.2

end Rule

/-- The class `V` comes first among the virtual bases of `D`, but `B` has taken it. -/
def takenFirst : Setting :=
  .linux [
    .ofClass "V" [] [] [⟨0⟩],
    .ofClass "B" [] [{ record := ⟨0⟩, isVirtual := true }] [],
    .ofClass "D" [{ name := "d", type := .scalar ⟨0⟩ .plainChar }]
      [{ record := ⟨0⟩, isVirtual := true }, { record := ⟨1⟩, isVirtual := true }] []]
    [{ name := "f", owner := ⟨0⟩, isVirtual := true }]

theorem primary_base_follows_rule_takenFirst : ∃ layout,
    (takenFirst.known 3).record ⟨2⟩ = .ok layout ∧
      takenFirst.candidates (takenFirst.known 3) ⟨2⟩ = [⟨0⟩, ⟨1⟩, ⟨0⟩] ∧
      takenFirst.Takes (takenFirst.known 3) ⟨2⟩ ⟨0⟩ ∧
      layout.primaryBase? = some ⟨⟨1⟩, true⟩ ∧
      FollowsPrimaryRule takenFirst (takenFirst.known 3) ⟨2⟩ layout := by
  obtain ⟨layout, laid⟩ := exists_ok (by decide +kernel :
    ((takenFirst.known 3).record ⟨2⟩).isOk = true)
  have chosen : ((takenFirst.known 3).record ⟨2⟩).toOption.bind (·.primaryBase?) =
      some ⟨⟨1⟩, true⟩ := by decide +kernel
  rw [laid] at chosen
  have edge : takenFirst.tree.Inherits ⟨2⟩ ⟨1⟩ := ⟨_, List.mem_of_getElem? (i := 1) rfl, rfl⟩
  refine ⟨layout, laid, by decide +kernel, ⟨⟨1⟩, .single edge, by decide +kernel⟩, chosen, ?_⟩
  exact primary_base_follows_rule (Setting.linux_isItanium _ _) (by decide) laid

end ObjectLayout
