import ObjectLayout.Proofs.Itanium.Progress

/-! The table pointer and the non-virtual bases. The primary base comes first and lies at the start;
after the loop over the direct bases every one of them has its place, and of the virtual bases only
those that came along with one of them. -/
namespace ObjectLayout.Itanium

open LayoutM (ends_bind ends_lift_bind)

variable {f : Frame} {known : Known} {allowed : Fault → Prop} {g : SubobjectGraph}
variable {st st' : State} {pieces : List Piece} {front x : Nat} {i : SubobjectId}
variable {own : Option RecordId} {done : List Base} {primary : PrimaryBase}

/-- What placing a base leaves alone. -/
def State.rest (st : State) :=
  (st.fieldOffsets, st.unfilledBits, st.primaryBase, st.indirectPrimaryBases,
    st.visitedVirtualBases)

structure SameRest (st st' : State) : Prop where
  fieldOffsets : st'.fieldOffsets = st.fieldOffsets
  unfilledBits : st'.unfilledBits = st.unfilledBits
  primaryBase : st'.primaryBase = st.primaryBase
  indirectPrimaryBases : st'.indirectPrimaryBases = st.indirectPrimaryBases
  visitedVirtualBases : st'.visitedVirtualBases = st.visitedVirtualBases

theorem SameRest.of_eq (same : st'.rest = st.rest) : SameRest st st' := by
  simp only [State.rest, Prod.mk.injEq] at same
  obtain ⟨fields, bits, primary, indirect, visited⟩ := same
  exact ⟨fields, bits, primary, indirect, visited⟩

theorem RootLaid.rest (next : RootLaid f known g i x st st') : st'.rest = st.rest := by
  rw [next.frame]
  rfl

/-- A state in which nothing was placed yet. -/
structure Fresh (f : Frame) (known : Known) (st : State) : Prop where
  bases : st.baseOffsets.entries = []
  slots : st.virtualBaseSlots.entries = []
  fieldOffsets : st.fieldOffsets = []
  unfilledBits : st.unfilledBits = 0
  level : st.dataSize = st.size
  /-- There may be a table pointer. -/
  pointed : st.size = 0 ∨
    (f.tree.isDynamic f.record = true ∧ st.size = 8 * f.target.pointerWidth)
  power : Quantity.isPowerOfTwo st.alignment = true
  map : ∀ map, st.emptyMap = some map → map.placed = [] ∧
    ∀ r, f.setting.Holds f.record r → f.setting.largestIn known r ≤ map.largest
  mapped : f.declaration.isClass = true → st.emptyMap.isSome

theorem Fresh.laid (fresh : Fresh f known st) (front : Nat) :
    Laid f known st.graph front [] st where
  graph := rfl
  rooted _ _ member := nomatch member
  distinct := .nil
  isClass _ _ member := nomatch member
  bases := fresh.bases
  slots := fresh.slots
  inside _ _ member := nomatch member
  fields := by simp [fresh.fieldOffsets]
  stored _ _ member := nomatch member
  ordered _ := .nil
  reached _ _ member := nomatch member
  sized := fresh.level.le
  whole _ := by
    rcases fresh.pointed with none | ⟨_, same⟩
    · exact none ▸ Nat.dvd_zero 8
    · exact same ▸ Nat.dvd_mul_right 8 _
  tight _ bound _ pointer _ := by
    rcases fresh.pointed with none | ⟨dynamic, same⟩
    · rw [none]
      exact Nat.zero_le _
    · rw [same]
      exact pointer dynamic
  power := fresh.power
  bounded map here e member := by
    rw [(fresh.map map here).1] at member
    cases member
  mapped := fresh.mapped

theorem Fresh.progress (fresh : Fresh f known st) (front : Nat) :
    Progress f known st.graph front [] st where
  laid := fresh.laid front
  tracked _ _ := by
    refine ⟨fun map here => ?_, fun _ => .nil⟩
    obtain ⟨placed, large⟩ := fresh.map map here
    constructor
    case only => simp [placed]
    case kept => simp
    case idle => simp
    case large => exact large
    case bounded => exact fun e member => by simp [placed] at member

/-- The pieces after the direct non-virtual bases `done` and, if there is one, the primary base. -/
structure DirectLaid (f : Frame) (known : Known) (own : Option RecordId) (g : SubobjectGraph)
    (primary : Option PrimaryBase) (done : List Base) (pieces : List Piece) (st : State) : Prop where
  progress : Progress f known g st.dataSize pieces st
  /-- A direct base that has its place is one of those, -/
  only : ∀ i x, Piece.base i x ∈ pieces → (g.node i).isVirtual = false →
    (∃ base ∈ done, base.record = (g.node i).record) ∨ primary = some ⟨(g.node i).record, false⟩
  /-- and they all have. -/
  all : ∀ b i, g.nonVirtualBases.find? b = some i →
    (∃ base ∈ done, base.record = b) ∨ primary = some ⟨b, false⟩ → ∃ x, Piece.base i x ∈ pieces
  virtual : ∀ i x, Piece.base i x ∈ pieces → (g.node i).isVirtual = true →
    own = some (g.node i).record
  own : ∀ v, own = some v → ∃ p, g.virtualBases.find? v = some p ∧ Piece.base p 0 ∈ pieces
  /-- A primary base that is not virtual lies at the start too. -/
  plain : ∀ b, primary = some ⟨b, false⟩ →
    ∃ i, g.nonVirtualBases.find? b = some i ∧ Piece.base i 0 ∈ pieces
  primaryBase : st.primaryBase = primary
  fieldOffsets : st.fieldOffsets = []
  unfilledBits : st.unfilledBits = 0
  dynamic : f.tree.isDynamic f.record = true → 8 * f.target.pointerWidth ≤ st.dataSize
  /-- The data ends with the table pointer of the class or with that of a base, if there is any. -/
  attained : st.dataSize = 0 ∨ (f.tree.isDynamic f.record = true ∧ primary = none ∧
    st.dataSize = 8 * f.target.pointerWidth) ∨
    ∃ piece ∈ pieces, piece.isHollow f g = false ∧ st.dataSize = piece.stop f known g
  /-- Data begins past the table pointer, if that is not the one of a primary base. -/
  leading : f.tree.isDynamic f.record = true → ∀ i x, Piece.base i x ∈ pieces →
    f.tree.isEmptyClass (g.node i).record = false →
    f.target.pointerWidth ≤ x ∨ (x = 0 ∧ f.tree.isDynamic (g.node i).record = true)

/-- The data is made of whole bytes. -/
theorem DirectLaid.whole {primary : Option PrimaryBase}
    (h : DirectLaid f known own g primary done pieces st) : 8 ∣ st.dataSize := by
  rcases h.attained with none | ⟨_, _, same⟩ | ⟨piece, member, _, same⟩
  · exact none ▸ Nat.dvd_zero 8
  · exact same ▸ Nat.dvd_mul_right 8 _
  · cases piece with
    | base i x => exact same ▸ Nat.dvd_mul_right 8 _
    | field index offset =>
      rw [h.progress.laid.fields, h.fieldOffsets] at member
      cases member

section Loop

variable (work : Workable f known allowed) (charted : Charted f.setting known f.record own g)
variable {base : Base} {choice : Option PrimaryBase}
include work charted

theorem DirectLaid.push (h : DirectLaid f known own g choice done pieces st)
    (found : g.nonVirtualBases.find? base.record = some i)
    (new : ∀ y, Piece.base i y ∉ pieces) (next : RootLaid f known g i x st st') :
    DirectLaid f known own g choice (done ++ [base]) (pieces ++ [.base i x]) st' := by
  obtain ⟨has, record, plain, _⟩ := charted.forest.direct _ _ found
  have root := charted.forest.direct_isRoot found
  have rest := SameRest.of_eq next.rest
  constructor
  case progress => exact h.progress.push_root work charted root next le_rfl new
  case only =>
    intro j y member notVirtual
    rcases List.mem_append.mp member with member | last
    · refine (h.only j y member notVirtual).imp_left fun ⟨base', there, same⟩ => ?_
      exact ⟨base', List.mem_append_left _ there, same⟩
    · cases List.mem_singleton.mp last
      exact .inl ⟨base, by simp, record.symm⟩
  case all =>
    intro b j found' named
    by_cases same : b = base.record
    · subst same
      rw [found] at found'
      cases found'
      exact ⟨x, by simp⟩
    · have old : (∃ base ∈ done, base.record = b) ∨ choice = some ⟨b, false⟩ := by
        refine named.imp_left fun ⟨base', member, same'⟩ => ?_
        rcases List.mem_append.mp member with member | last
        · exact ⟨base', member, same'⟩
        · cases List.mem_singleton.mp last
          exact absurd same'.symm same
      exact (h.all b j found' old).imp fun y member => List.mem_append_left _ member
  case virtual =>
    intro j y member virt
    rcases List.mem_append.mp member with member | last
    · exact h.virtual j y member virt
    · cases List.mem_singleton.mp last
      rw [plain] at virt
      cases virt
  case own =>
    intro v same
    exact (h.own v same).imp fun p both => ⟨both.1, List.mem_append_left _ both.2⟩
  case plain =>
    intro b same
    exact (h.plain b same).imp fun i both => ⟨both.1, List.mem_append_left _ both.2⟩
  case primaryBase => exact rest.primaryBase.trans h.primaryBase
  case fieldOffsets => exact rest.fieldOffsets.trans h.fieldOffsets
  case unfilledBits => exact rest.unfilledBits.trans h.unfilledBits
  case dynamic => exact fun dynamic => (h.dynamic dynamic).trans next.dataSize_le
  case attained =>
    rw [next.dataSize, h.progress.laid.graph]
    split
    · refine h.attained.imp_right (Or.imp_right ?_)
      rintro ⟨piece, member, full, stop⟩
      exact ⟨piece, List.mem_append_left _ member, full, stop⟩
    · rename_i full
      refine .inr (.inr ⟨.base i x, by simp, ?_, rfl⟩)
      exact Bool.eq_false_iff.mpr full
  case leading =>
    intro dynamic j y member full
    rcases List.mem_append.mp member with member | last
    · exact h.leading dynamic j y member full
    · cases List.mem_singleton.mp last
      obtain ⟨mid, placed, _⟩ := next.placed
      have pointer := h.dynamic dynamic
      rcases placed.start with ⟨empty, _⟩ | past
      · rw [h.progress.laid.graph] at empty
        exact absurd (full.symm.trans empty) Bool.false_ne_true
      · exact .inl (Nat.le_of_mul_le_mul_left (pointer.trans past) (by decide))

/-- The loop over the direct non-virtual bases gives a place to each of them. -/
theorem directBases_ends (start : DirectLaid f known own g choice [] pieces st)
    {visited indirect : List RecordId} (visited' : st.visitedVirtualBases = visited)
    (indirect' : st.indirectPrimaryBases = indirect) :
    Ends allowed ((f.declaration.nonVirtualBases.foldlM (m := LayoutM) (fun st base => do
      if isNonVirtualPrimary st base.record then return st
      layNonVirtualBase f (← st.graph.nonVirtualBase base.record) st) st).eval known) fun st' =>
        ∃ pieces, DirectLaid f known own g choice f.declaration.nonVirtualBases pieces st' ∧
          st'.visitedVirtualBases = visited ∧ st'.indirectPrimaryBases = indirect := by
  rw [LayoutM.eval_foldlM]
  refine Ends.foldlM (K := fun done _ st => ∃ pieces,
    DirectLaid f known own g choice done pieces st ∧ st.visitedVirtualBases = visited ∧
      st.indirectPrimaryBases = indirect) ⟨pieces, start, visited', indirect'⟩ ?_
  rintro done base rest st split ⟨pieces, h, visited, indirect⟩
  have direct : base ∈ f.declaration.nonVirtualBases := by simp [split]
  obtain ⟨i, found⟩ := Option.isSome_iff_exists.mp
    ((charted.forest.plain base.record).mpr ⟨base, direct, rfl⟩)
  obtain ⟨has, record, plain, _⟩ := charted.forest.direct _ _ found
  cases isPrimary : isNonVirtualPrimary st base.record with
  | true =>
    rw [if_pos rfl]
    have same : choice = some ⟨base.record, false⟩ := by
      rw [← h.primaryBase]
      simpa [isNonVirtualPrimary] using isPrimary
    refine ⟨pieces, ⟨h.progress, fun j y member notVirtual => ?_, fun b j found' named => ?_,
      h.virtual, h.own, h.plain, h.primaryBase, h.fieldOffsets, h.unfilledBits, h.dynamic,
      h.attained, h.leading⟩, visited, indirect⟩
    · refine (h.only j y member notVirtual).imp_left fun ⟨base', there, same⟩ => ?_
      exact ⟨base', List.mem_append_left _ there, same⟩
    · refine h.all b j found' ?_
      rcases named with ⟨base', member, same'⟩ | named
      · rcases List.mem_append.mp member with member | last
        · exact .inl ⟨base', member, same'⟩
        · cases List.mem_singleton.mp last
          exact .inr (same' ▸ same)
      · exact .inr named
  | false =>
    simp only [Bool.false_eq_true, if_false]
    have lookup : st.graph.nonVirtualBase base.record = .ok i := by
      rw [h.progress.laid.graph, SubobjectGraph.nonVirtualBase, found]
    rw [LayoutM.eval_lift_bind lookup]
    have new (y : Nat) : Piece.base i y ∉ pieces := by
      intro member
      rcases h.only i y member plain with ⟨base', there, same⟩ | same
      · -- No direct base is there twice.
        have unrepeated := charted.forest.unrepeated
        change (f.declaration.nonVirtualBases.map (·.record)).Nodup at unrepeated
        rw [split, List.map_append, List.map_cons] at unrepeated
        exact (List.nodup_append.mp unrepeated).2.2 _ (List.mem_map_of_mem there) _
          List.mem_cons_self (same.trans record)
      · rw [← h.primaryBase, record] at same
        simp [isNonVirtualPrimary, same] at isPrimary
    refine (layNonVirtualBase_ends work charted h.progress.laid
      (charted.forest.direct_isRoot found) new plain).imp fun st' ⟨x, next⟩ => ?_
    have kept := SameRest.of_eq next.rest
    exact ⟨_, h.push work charted found new next, kept.visitedVirtualBases.trans visited,
      kept.indirectPrimaryBases.trans indirect⟩

end Loop

section Primary

/-- The table pointer is all that there is of the data then. -/
theorem layTablePointer_ends (work : Workable f known allowed) (fresh : Fresh f known st)
    (start : st.dataSize = 0) (dynamic : f.tree.isDynamic f.record = true) :
    Ends allowed (layTablePointer f st) fun st' =>
      Fresh f known st' ∧ st'.graph = st.graph ∧ st'.rest = st.rest ∧
        st'.dataSize = 8 * f.target.pointerWidth := by
  have natural : Quantity.isPowerOfTwo
      (if f.isPacked then 1 else f.target.pointerLayout.alignment) = true := by
    split
    · decide
    · exact f.target.pointerWidth_isPowerOfTwo
  have clamped {n : Nat} (power : Quantity.isPowerOfTwo n = true) :=
    work.powers.imp_left fun powers => clamp_isPowerOfTwo powers power
  unfold layTablePointer
  refine (ends_ensure (G := fun _ => True) (fun _ => trivial) fun no => ?_).bind fun _ _ => ?_
  · rw [start] at no
    cases no
  refine (alignTo_ends work.overflow (clamp_pos (Quantity.pos_of_isPowerOfTwo natural))).bind
    fun at' aligned => ?_
  refine (toBits_ends work.overflow).bind fun bits same => ?_
  refine (raiseAlignment_ends (clamped natural) (clamped f.target.pointerWidth_isPowerOfTwo)).bind
    fun raised aligned' => ?_
  refine (add_ends (b := f.target.pointerLayout.width) work.overflow).bind fun stop sum => ?_
  refine (toBits_ends work.overflow).bind fun stopBits same' => ?_
  subst same'
  have frame := aligned'.frame
  have unsized : st.sizeInBytes = 0 := by
    rw [State.sizeInBytes, ← fresh.level, start]
    rfl
  have atStart : at' = 0 := by
    rw [aligned.2.2, unsized, Quantity.roundUp_zero (clamp_pos (Quantity.pos_of_isPowerOfTwo natural))]
  have reaches : 8 * stop = 8 * f.target.pointerWidth := by
    rw [sum, atStart, Nat.zero_add]
    rfl
  refine ⟨⟨?_, ?_, ?_, ?_, rfl, .inr ⟨dynamic, reaches⟩, aligned'.power fresh.power, ?_, ?_⟩,
    ?_, ?_, reaches⟩
  · rw [frame]; exact fresh.bases
  · rw [frame]; exact fresh.slots
  · rw [frame]; exact fresh.fieldOffsets
  · rw [frame]; exact fresh.unfilledBits
  · rw [frame]; exact fresh.map
  · rw [frame]; exact fresh.mapped
  · rw [frame]
  · rw [frame]; rfl

/-- The first base that is placed lies at the start. -/
theorem RootLaid.first (work : Workable f known allowed)
    (charted : Charted f.setting known f.record own g) (fresh : Fresh f known st)
    (start : st.dataSize = 0) (graph : st.graph = g) (root : g.IsRoot i)
    (next : RootLaid f known g i x st st') : x = 0 := by
  subst graph
  obtain ⟨mid, placed, _⟩ := next.placed
  refine placed.leading start fun map here refused => ?_
  have empty := (fresh.map map here).1
  have bounded : map.Bounded := fun e member => by simp [empty] at member
  have inside := (work.placeable charted root.1).inside
  refine (placeBase?_ends work.knows bounded (.inl work.overflow) inside
    (.inl work.overflow)).value refused ?_
  exact fun o c _ member => by simp [empty] at member

variable {b v : RecordId} {used : List RecordId}

/-- A class with a table pointer is not empty. -/
theorem Workable.full_of_dynamic (work : Workable f known allowed)
    (path : Relation.TransGen f.setting.Holds f.record b) (record : (g.node i).record = b)
    (dynamic : f.tree.isDynamic b = true) : f.tree.isEmptyClass (g.node i).record = false := by
  by_contra empty
  rw [Bool.not_eq_false, record] at empty
  have still := Tree.not_isDynamic_of_isEmptyClass (work.settled.acyclic path) empty
  exact absurd (dynamic.symm.trans still) Bool.true_eq_false.mp

/-- The primary base is the first part that gets its place. -/
theorem RootLaid.directLaid {primary : PrimaryBase} (work : Workable f known allowed)
    (charted : Charted f.setting known f.record own g) (fresh : Fresh f known st)
    (start : st.dataSize = 0) (graph : st.graph = g) (chosen : st.primaryBase = some primary)
    (root : g.IsRoot i) (record : (g.node i).record = primary.record)
    (kind : (g.node i).isVirtual = primary.isVirtual)
    (dynamic : f.tree.isDynamic primary.record = true)
    (owned : own = if primary.isVirtual then some primary.record else none)
    (plain : primary.isVirtual = false → g.nonVirtualBases.find? primary.record = some i)
    (virtual : primary.isVirtual = true → g.virtualBases.find? primary.record = some i)
    (next : RootLaid f known g i x st st') :
    ∃ pieces, DirectLaid f known own g (some primary) [] pieces st' ∧ st'.rest = st.rest := by
  obtain rfl := next.first work charted fresh start graph root
  obtain ⟨r, isVirtual⟩ := primary
  dsimp only at record kind dynamic owned plain virtual
  subst record kind graph
  have progress := fresh.progress st.dataSize
  have path := SoundBelow.inherits (charted.forest.below i root.1)
  have full : (Piece.base i 0).isHollow f st.graph = false := work.full_of_dynamic path rfl dynamic
  have dataSize := next.dataSize.trans (if_neg (Bool.eq_false_iff.mp full))
  refine ⟨[.base i 0], ?_, next.rest⟩
  have kept := SameRest.of_eq next.rest
  constructor
  case progress =>
    exact progress.push_root work charted root next le_rfl fun _ => List.not_mem_nil
  case only =>
    intro j y member plain
    cases List.mem_singleton.mp member
    exact .inr (by rw [plain])
  case all =>
    rintro b' j found' (⟨_, member, _⟩ | same)
    · cases member
    · obtain ⟨rfl, isPlain⟩ := PrimaryBase.mk.inj (Option.some.inj same)
      rw [plain isPlain] at found'
      cases found'
      exact ⟨0, List.mem_singleton.mpr rfl⟩
  case virtual =>
    intro j y member virt
    cases List.mem_singleton.mp member
    rw [owned, if_pos virt]
  case own =>
    intro v same
    rw [owned] at same
    split at same
    · rename_i virt
      cases same
      exact ⟨i, virtual virt, List.mem_singleton.mpr rfl⟩
    · cases same
  case plain =>
    intro b' same
    obtain ⟨rfl, isPlain⟩ := PrimaryBase.mk.inj (Option.some.inj same)
    exact ⟨i, plain isPlain, List.mem_singleton.mpr rfl⟩
  case primaryBase => exact kept.primaryBase.trans chosen
  case fieldOffsets => exact kept.fieldOffsets.trans fresh.fieldOffsets
  case unfilledBits => exact kept.unfilledBits.trans fresh.unfilledBits
  case dynamic =>
    intro _
    rw [dataSize, Piece.stop]
    have reaches := (work.sound _ path).dynamic dynamic
    exact Nat.mul_le_mul_left 8 (reaches.trans (Nat.le_add_left _ _))
  case attained => exact .inr (.inr ⟨_, List.mem_singleton.mpr rfl, full, dataSize⟩)
  case leading =>
    intro _ j y member _
    cases List.mem_singleton.mp member
    exact .inr ⟨rfl, dynamic⟩

theorem layDirectPrimary_ends (work : Workable f known allowed)
    (charted : Charted f.setting known f.record none g) (fresh : Fresh f known st)
    (start : st.dataSize = 0) (graph : st.graph = g) (chosen : st.primaryBase = some ⟨b, false⟩)
    (choice : PrimaryChoice f.setting known f.record (some ⟨b, false⟩) used) :
    Ends allowed ((layPrimaryBase f ⟨b, false⟩ st).eval known) fun st' =>
      ∃ pieces, DirectLaid f known none g (some ⟨b, false⟩) [] pieces st' ∧
        st'.rest = st.rest := by
  obtain ⟨edge, dynamic⟩ := choice.plain b rfl
  obtain ⟨i, found⟩ := Option.isSome_iff_exists.mp ((charted.forest.plain b).mpr edge)
  obtain ⟨has, record, plain, _⟩ := charted.forest.direct b i found
  have root := charted.forest.direct_isRoot found
  have lookup : st.graph.nonVirtualBase b = .ok i := by
    rw [graph, SubobjectGraph.nonVirtualBase, found]
  have progress := fresh.progress st.dataSize
  rw [graph] at progress
  unfold layPrimaryBase
  simp only [Bool.false_eq_true, if_false]
  rw [LayoutM.eval_lift_bind lookup]
  exact (layNonVirtualBase_ends work charted progress.laid root (fun _ => List.not_mem_nil)
    plain).imp fun st' ⟨x, next⟩ => next.directLaid work charted fresh start graph chosen root record
      plain dynamic rfl (fun _ => found) nofun

theorem layVirtualPrimary_ends (work : Workable f known allowed)
    (charted : Charted f.setting known f.record (some v) g) (fresh : Fresh f known st)
    (start : st.dataSize = 0) (graph : st.graph = g) (chosen : st.primaryBase = some ⟨v, true⟩)
    (nearly : NearlyEmpty f.setting known v) (found : g.virtualBases.find? v = some i) :
    Ends allowed ((layVirtualBase f i st).eval known) fun st' =>
      ∃ pieces, DirectLaid f known (some v) g (some ⟨v, true⟩) [] pieces st' ∧
        st'.rest = st.rest := by
  obtain ⟨has, record, virt⟩ := charted.forest.found v i found
  have root := SubobjectGraph.free_isRoot has virt (charted.forest.free i has (by rw [record]))
  have progress := fresh.progress st.dataSize
  rw [graph] at progress
  exact (layVirtualBase_ends work charted progress.laid root (fun _ => List.not_mem_nil)
    virt).imp fun st' ⟨x, next⟩ => next.directLaid work charted fresh start graph chosen root record
      virt nearly.dynamic rfl nofun fun _ => found

end Primary

/-- Without a primary base nothing has its place before the loop over the direct bases. -/
theorem Fresh.directLaid (fresh : Fresh f known st) (primary : st.primaryBase = none)
    (dynamic : st.dataSize =
      if f.tree.isDynamic f.record then 8 * f.target.pointerWidth else 0) :
    DirectLaid f known none st.graph none [] [] st where
  progress := fresh.progress _
  only _ _ member := nomatch member
  all b i _ named := by
    rcases named with ⟨_, member, _⟩ | same
    · cases member
    · cases same
  virtual _ _ member := nomatch member
  own := nofun
  plain := nofun
  primaryBase := primary
  fieldOffsets := fresh.fieldOffsets
  unfilledBits := fresh.unfilledBits
  dynamic yes := by rw [dynamic, if_pos yes]
  attained := by
    split at dynamic
    · rename_i yes
      exact .inr (.inl ⟨yes, rfl, dynamic⟩)
    · exact .inl dynamic
  leading _ _ _ member := nomatch member

/-- The graph of a class, less the claim to the virtual base that the class keeps for itself. -/
def graphOf (s : Setting) (known : Known) (d : RecordId) (own : Option RecordId) :
    Checked SubobjectGraph := do
  let whole ← (SubobjectGraph.ofClass s d).eval known
  match own with
  | none => return whole
  | some v => return (← whole.stealVirtualBase v).1

/-- Only the claim to the class's own virtual base is missing in the graph. -/
structure IsGraphOf (s : Setting) (known : Known) (d : RecordId) (own : Option RecordId)
    (g : SubobjectGraph) : Prop where
  computed : graphOf s known d own = .ok g
  agrees : ∃ whole, (SubobjectGraph.ofClass s d).eval known = .ok whole ∧
    SubobjectGraph.AgreesOff own whole g

section Graph

variable {s : Setting} {d : RecordId} {whole : SubobjectGraph}

theorem IsGraphOf.of_whole
    (built : (SubobjectGraph.ofClass s d).eval known = .ok whole) : IsGraphOf s known d none whole where
  computed := by
    rw [graphOf, built]
    rfl
  agrees := ⟨whole, built, .refl _ _⟩

theorem IsGraphOf.of_stolen {v : RecordId} {p : SubobjectId}
    (built : (SubobjectGraph.ofClass s d).eval known = .ok whole)
    (stolen : whole.stealVirtualBase v = .ok (g, p))
    (agrees : SubobjectGraph.AgreesOff (some v) whole g) : IsGraphOf s known d (some v) g where
  computed := by
    rw [graphOf, built]
    change (whole.stealVirtualBase v >>= fun result => pure result.1) = _
    rw [stolen]
    rfl
  agrees := ⟨whole, built, agrees⟩

end Graph

/-- A state after all non-virtual bases. The virtual bases that something uses as its primary base
are known then; only that of the class itself has been visited. -/
structure NonVirtualLaid (f : Frame) (known : Known) (own : Option RecordId) (g : SubobjectGraph)
    (pieces : List Piece) (st : State) : Prop where
  charted : Charted f.setting known f.record own g
  computed : IsGraphOf f.setting known f.record own g
  choice : ∃ used, PrimaryChoice f.setting known f.record st.primaryBase used
  owned : own = (st.primaryBase.filter (·.isVirtual)).map (·.record)
  direct : DirectLaid f known own g st.primaryBase f.declaration.nonVirtualBases pieces st
  visited : st.visitedVirtualBases = own.toList
  indirect : ∀ u, u ∈ st.indirectPrimaryBases ↔ own = some u ∨
    ∃ b, f.tree.Inherits f.record b ∧ IsPrimaryFrom f.setting known b u

/-- A state that knows its primary base and its graph, and in which nothing was placed yet. -/
structure Chosen (f : Frame) (known : Known) (primary : Option PrimaryBase) (used : List RecordId)
    (whole : SubobjectGraph) (st : State) : Prop where
  fresh : Fresh f known st
  start : st.dataSize = 0
  unvisited : st.visitedVirtualBases = []
  primaryBase : st.primaryBase = primary
  indirect : st.indirectPrimaryBases = used
  graph : st.graph = whole
  choice : PrimaryChoice f.setting known f.record primary used
  built : (SubobjectGraph.ofClass f.setting f.record).eval known = .ok whole
  forest : whole.Forest f.setting known f.record none

theorem Fresh.chosen {primary : Option PrimaryBase} {used : List RecordId} {whole : SubobjectGraph}
    (fresh : Fresh f known st) (start : st.dataSize = 0) (unvisited : st.visitedVirtualBases = [])
    (choice : PrimaryChoice f.setting known f.record primary used)
    (built : (SubobjectGraph.ofClass f.setting f.record).eval known = .ok whole)
    (forest : whole.Forest f.setting known f.record none) :
    Chosen f known primary used whole
      { st with primaryBase := primary, indirectPrimaryBases := used, graph := whole } where
  fresh := { fresh with }
  start := start
  unvisited := unvisited
  primaryBase := rfl
  indirect := rfl
  graph := rfl
  choice := choice
  built := built
  forest := forest

/-- What lies first in a record: the primary base, a table pointer of its own, or neither. -/
def layPrimaryPart (f : Frame) (primary : Option PrimaryBase) (st : State) : LayoutM State :=
  match primary with
  | some primary => layPrimaryBase f primary st
  | none => if f.tree.isDynamic f.record then layTablePointer f st else pure st

theorem layNonVirtualBases_eq : layNonVirtualBases f st = (do
    let (primary, used) ← choosePrimaryBase f.setting f.record
    let graph ← SubobjectGraph.ofClass f.setting f.record
    let st ← layPrimaryPart f primary
      { st with primaryBase := primary, indirectPrimaryBases := used, graph }
    f.declaration.nonVirtualBases.foldlM (fun st base => do
      if isNonVirtualPrimary st base.record then return st
      layNonVirtualBase f (← st.graph.nonVirtualBase base.record) st) st) := by
  unfold layNonVirtualBases layPrimaryPart
  refine bind_congr fun ⟨primary, used⟩ => bind_congr fun graph => ?_
  cases primary with
  | none =>
    dsimp only
    split <;> rfl
  | some primary => rfl

/-- A state in which what lies first has its place and no other base has. -/
structure PrimaryLaid (f : Frame) (known : Known) (primary : Option PrimaryBase)
    (own : Option RecordId) (g : SubobjectGraph) (pieces : List Piece) (st : State) : Prop where
  charted : Charted f.setting known f.record own g
  computed : IsGraphOf f.setting known f.record own g
  owned : own = (primary.filter (·.isVirtual)).map (·.record)
  direct : DirectLaid f known own g primary [] pieces st
  visited : st.visitedVirtualBases = own.toList
  indirect : ∀ u, u ∈ st.indirectPrimaryBases ↔ own = some u ∨
    ∃ b, f.tree.Inherits f.record b ∧ IsPrimaryFrom f.setting known b u

namespace Chosen

variable {primary : Option PrimaryBase} {used : List RecordId} {whole : SubobjectGraph} {b : RecordId}

/-- Without a virtual primary base nothing is claimed and no virtual base is visited. -/
theorem primaryLaid (h : Chosen f known primary used whole st) (work : Workable f known allowed)
    (owned : none = (primary.filter (·.isVirtual)).map (·.record))
    (direct : DirectLaid f known none whole primary [] pieces st') (kept : st'.rest = st.rest) :
    PrimaryLaid f known primary none whole pieces st' where
  charted := work.charted h.forest
  computed := .of_whole h.built
  owned := owned
  direct := direct
  visited := (SameRest.of_eq kept).visitedVirtualBases.trans h.unvisited
  indirect u := by
    rw [(SameRest.of_eq kept).indirectPrimaryBases, h.indirect, h.choice.used]
    simp only [reduceCtorEq, false_or]
    rfl

theorem layNoPrimary_ends (h : Chosen f known none used whole st) (work : Workable f known allowed) :
    Ends allowed ((layPrimaryPart f none st).eval known) fun st' =>
      ∃ pieces, PrimaryLaid f known none none whole pieces st' := by
  have graph := h.graph
  subst graph
  unfold layPrimaryPart
  cases dynamic : f.tree.isDynamic f.record with
  | false =>
    have direct := h.fresh.directLaid h.primaryBase (by rw [dynamic]; exact h.start)
    exact ⟨[], h.primaryLaid work rfl direct rfl⟩
  | true =>
    rw [if_pos rfl, LayoutM.eval_lift]
    refine (layTablePointer_ends work h.fresh h.start dynamic).imp ?_
    rintro st' ⟨fresh, same, kept, stop⟩
    have primaryBase := (SameRest.of_eq kept).primaryBase.trans h.primaryBase
    have direct := fresh.directLaid primaryBase (by rw [dynamic]; exact stop)
    rw [same] at direct
    exact ⟨[], h.primaryLaid work rfl direct kept⟩

theorem layPlainPrimary_ends (h : Chosen f known (some ⟨b, false⟩) used whole st)
    (work : Workable f known allowed) :
    Ends allowed ((layPrimaryPart f (some ⟨b, false⟩) st).eval known) fun st' =>
      ∃ pieces, PrimaryLaid f known (some ⟨b, false⟩) none whole pieces st' :=
  (layDirectPrimary_ends work (work.charted h.forest) h.fresh h.start h.graph h.primaryBase
    h.choice).imp fun _ ⟨pieces, direct, kept⟩ => ⟨pieces, h.primaryLaid work rfl direct kept⟩

/-- The class claims a primary base that is virtual, which counts as visited from then on. -/
theorem layVirtualPrimary_ends (h : Chosen f known (some ⟨b, true⟩) used whole st)
    (work : Workable f known allowed) :
    Ends allowed ((layPrimaryPart f (some ⟨b, true⟩) st).eval known) fun st' =>
      ∃ g pieces, PrimaryLaid f known (some ⟨b, true⟩) (some b) g pieces st' := by
  have graph := h.graph
  subst graph
  obtain ⟨has, nearly⟩ := h.choice.virtual b rfl
  obtain ⟨g, i, stolen, forest, found, agrees⟩ := h.forest.steal has
  have charted := work.charted forest
  change Ends allowed ((layPrimaryBase f ⟨b, true⟩ st).eval known) _
  unfold layPrimaryBase
  rw [if_pos rfl, LayoutM.eval_lift_bind stolen]
  refine ends_bind (G := fun _ => True) ?_ fun _ _ => ?_
  · rw [LayoutM.eval_ensure]
    refine ends_ensure (fun _ => trivial) fun visited => ?_
    simp [h.unvisited] at visited
  have fresh : Fresh f known { st with
      graph := g
      indirectPrimaryBases := appendNew st.indirectPrimaryBases [b]
      visitedVirtualBases := st.visitedVirtualBases ++ [b] } := { h.fresh with }
  refine (Itanium.layVirtualPrimary_ends work charted fresh h.start rfl h.primaryBase nearly
    found).imp ?_
  rintro st' ⟨pieces, direct, kept⟩
  have kept := SameRest.of_eq kept
  refine ⟨g, pieces, charted, .of_stolen h.built stolen agrees, rfl, direct, ?_, fun u => ?_⟩
  · rw [kept.visitedVirtualBases, h.unvisited]
    rfl
  · rw [kept.indirectPrimaryBases, mem_appendNew, h.indirect, h.choice.used, List.mem_singleton,
      or_comm, eq_comm]
    simp only [Option.some.injEq]
    rfl

theorem layPrimaryPart_ends (h : Chosen f known primary used whole st)
    (work : Workable f known allowed) :
    Ends allowed ((layPrimaryPart f primary st).eval known) fun st' =>
      ∃ own g pieces, PrimaryLaid f known primary own g pieces st' := by
  rcases primary with _ | ⟨b, _ | _⟩
  · exact (h.layNoPrimary_ends work).imp fun _ laid => ⟨none, whole, laid⟩
  · exact (h.layPlainPrimary_ends work).imp fun _ laid => ⟨none, whole, laid⟩
  · exact (h.layVirtualPrimary_ends work).imp fun _ laid => ⟨some b, laid⟩

end Chosen

theorem layNonVirtualBases_ends (work : Workable f known allowed) (fresh : Fresh f known st)
    (start : st.dataSize = 0) (unvisited : st.visitedVirtualBases = []) :
    Ends allowed ((layNonVirtualBases f st).eval known) fun st' =>
      ∃ own g pieces, NonVirtualLaid f known own g pieces st' := by
  have basesLaid := work.sound.basesLaid
  have primaries := work.sound.primariesInherited
  rw [layNonVirtualBases_eq]
  refine ends_bind (choosePrimaryBase_ends work.acyclic basesLaid primaries) ?_
  rintro ⟨primary, used⟩ choice
  refine ends_bind (SubobjectGraph.ofClass_ends work.acyclic (.of_laid basesLaid) primaries
    work.repeats).remember fun whole ⟨built, forest⟩ => ?_
  have chosen := fresh.chosen start unvisited choice built forest
  refine ends_bind (chosen.layPrimaryPart_ends work) ?_
  rintro st₁ ⟨own, g, pieces, first⟩
  refine (directBases_ends work first.charted first.direct rfl rfl).imp ?_
  rintro st' ⟨pieces', direct, visited, indirect⟩
  have primaryBase := direct.primaryBase
  subst primaryBase
  refine ⟨own, g, pieces', first.charted, first.computed, ⟨used, choice⟩, first.owned, direct,
    visited.trans first.visited, fun u => ?_⟩
  rw [indirect]
  exact first.indirect u

end ObjectLayout.Itanium
