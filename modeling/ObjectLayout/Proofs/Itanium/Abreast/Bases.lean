import ObjectLayout.Proofs.Itanium.Abreast.Places
import ObjectLayout.Proofs.Itanium.Supplied.Fields

/-! Bases in two runs abreast. What a run does besides asking its map does not depend on the map, and
a base that has found its place has left room for all that the other run looks into on its way there. -/
namespace ObjectLayout.Itanium

open LayoutM (Mirrors Follows layoutOf eval_bind_eq_ok)

variable {f : Frame} {known : Known} {lax : Prop} {g : SubobjectGraph} {st st' : State}
variable {d' : RecordId} {own : Option RecordId} {i : SubobjectId} {front front' x : Nat}

section Blind

/-- The state with another map of empty subobjects. -/
def State.withMap (st : State) (map : Option EmptyMap) : State := { st with emptyMap := map }

/-- A step that neither looks at the map nor changes it. -/
def Blind (step : State → Checked State) : Prop :=
  ∀ st map, step (st.withMap map) = (State.withMap · map) <$> step st

theorem Blind.emptyMap {step : State → Checked State} (blind : Blind step)
    (done : step st = .ok st') : st'.emptyMap = st.emptyMap := by
  have same := blind st st.emptyMap
  change step st = _ at same
  rw [done] at same
  rw [Except.ok.inj same]
  rfl

/-- Blind steps keep states beside one another. -/
theorem Beside.blind {M : Option EmptyMap → Option EmptyMap → Prop} (h : Beside M st st')
    {step : State → Checked State} (blind : Blind step) :
    Mirrors known lax (Beside M) (liftM (step st) : LayoutM State) (liftM (step st')) := by
  refine .lift fun a done => ?_
  have again := blind st st'.emptyMap
  have frame : st.withMap st'.emptyMap = st' := h.frame.symm
  rw [frame, done] at again
  rw [again]
  refine ⟨rfl, ?_⟩
  rw [blind.emptyMap done]
  exact h.maps

theorem Blind.pure {step : State → State} (same : ∀ st map, step (st.withMap map) = (step st).withMap map) :
    Blind fun st => Pure.pure (step st) := fun st map => congrArg Except.ok (same st map)

theorem Blind.bind {first second : State → Checked State} (blind : Blind first)
    (blind' : Blind second) : Blind fun st => first st >>= second := by
  intro st map
  change first (st.withMap map) >>= second = _ <$> (first st >>= second)
  rw [blind st map]
  cases first st with
  | ok mid => exact blind' mid map
  | error fault => rfl

/-- A value that is worked out from anything but the map. -/
theorem Blind.bind_value {value : State → Checked α} {step : α → State → Checked State}
    (same : ∀ st map, value (st.withMap map) = value st) (blind : ∀ a, Blind (step a)) :
    Blind fun st => value st >>= (step · st) := by
  intro st map
  change value (st.withMap map) >>= _ = _ <$> (value st >>= _)
  rw [same]
  cases value st with
  | ok a => exact blind a st map
  | error fault => rfl

theorem blind_raiseAlignment (packed unpacked : Bytes) : Blind (·.raiseAlignment f packed unpacked) := by
  intro st map
  unfold State.raiseAlignment
  dsimp only
  change (if st.isAlignmentSettled f = true then _ else _) = _
  split
  · rfl
  · change (if packed > st.alignment then _ else _) = _
    have ensured (n : Bytes) (condition : Prop) [Decidable condition] (next next' : Checked State)
        (same : next = (State.withMap · map) <$> next') :
        (if condition then ensure (Quantity.isPowerOfTwo n) .alignmentNotPowerOfTwo >>= fun _ => next
          else next) = (State.withMap · map) <$> (if condition then
            ensure (Quantity.isPowerOfTwo n) .alignmentNotPowerOfTwo >>= fun _ => next' else next') := by
      rw [same]
      split
      · cases Quantity.isPowerOfTwo n <;> rfl
      · rfl
    exact ensured packed _ _ _ (ensured unpacked _ _ _ rfl)

theorem blind_setSize (size : State → Bytes) (same : ∀ st map, size (st.withMap map) = size st) :
    Blind fun st => st.setSize (size st) := by
  unfold State.setSize
  refine Blind.bind_value (fun st map => by rw [same]) fun _ => ?_
  exact .pure fun _ _ => rfl

theorem blind_occupyBase (isEmpty : Bool) (layout : RecordLayout) (offset : Bytes) :
    Blind (occupyBase · isEmpty layout offset) := by
  unfold occupyBase
  cases isEmpty with
  | true =>
    refine Blind.bind_value (fun _ _ => rfl) fun stop => ?_
    exact blind_setSize (fun st => max st.sizeInBytes stop) fun _ _ => rfl
  | false =>
    refine Blind.bind_value (fun _ _ => rfl) fun size => ?_
    refine Blind.bind_value (fun _ _ => rfl) fun stop => ?_
    refine Blind.bind_value (fun _ _ => rfl) fun bits => ?_
    exact .pure fun _ _ => rfl

theorem blind_layTablePointer : Blind (layTablePointer f) := by
  unfold layTablePointer
  refine Blind.bind_value (fun _ _ => rfl) fun _ => ?_
  refine Blind.bind_value (fun _ _ => rfl) fun start => ?_
  refine Blind.bind_value (fun _ _ => rfl) fun bits => ?_
  refine Blind.bind ?_ ?_
  · exact fun st map => blind_raiseAlignment _ _ { st with dataSize := bits } map
  · refine Blind.bind_value (fun _ _ => rfl) fun stop => ?_
    refine Blind.bind_value (fun _ _ => rfl) fun bits => ?_
    exact .pure fun _ _ => rfl

end Blind

section Room

variable {r : RecordId} {layout : RecordLayout}

theorem setSize_fits {n : Nat} : Ends (fun _ => True) (st.setSize n) fun _ => n < Quantity.limit := by
  unfold State.setSize
  refine Ends.bind Ends.any fun bits whole => ?_
  obtain ⟨_, small⟩ := Quantity.mul_eq_ok_iff.mp whole
  exact (Nat.le_mul_of_pos_right n (by decide)).trans_lt small

/-- A base that has been given room lies inside the range of offsets. -/
theorem occupyBase_fits (laid : known.record r = .ok layout) (part : layout.asClass.isSome) :
    Ends (fun _ => True) (occupyBase st (f.tree.isEmptyClass r) layout x) fun _ =>
      x + f.setting.span known r < Quantity.limit := by
  unfold occupyBase Setting.span
  change Ends _ _ fun _ => x + (if f.tree.isEmptyClass r then _ else _) < _
  cases f.tree.isEmptyClass r with
  | true =>
    rw [if_pos rfl, if_pos rfl, Known.size_eq laid]
    refine Ends.bind Ends.any fun stop sum => ?_
    obtain ⟨rfl, small⟩ := Quantity.add_eq_ok_iff.mp sum
    exact Ends.any.imp fun _ _ => small
  | false =>
    rw [if_neg Bool.false_ne_true, if_neg Bool.false_ne_true, (baseLayout_eq laid part).2]
    refine Ends.bind Ends.any fun size same => ?_
    cases same
    refine Ends.bind Ends.any fun stop sum => ?_
    obtain ⟨rfl, small⟩ := Quantity.add_eq_ok_iff.mp sum
    exact Ends.any.imp fun _ _ => small

end Room

theorem Abreast.bounded (h : Abreast f known lax d' front st st') : st.MapBounded ∧ st'.MapBounded := by
  have maps := h.maps
  unfold State.MapBounded
  generalize st.emptyMap = map at maps
  generalize st'.emptyMap = map' at maps
  cases maps with
  | none => exact ⟨nofun, nofun⟩
  | some alike =>
    refine ⟨?_, ?_⟩
    · rintro _ ⟨⟩
      exact alike.bounded.1
    · rintro _ ⟨⟩
      exact alike.bounded.2

/-- A state that another one is abreast with after a base has got its place in both. -/
structure Together (f : Frame) (known : Known) (lax : Prop) (d' : RecordId) (st a b : State) :
    Prop where
  abreast : Abreast f known lax d' a.dataSize a b
  graph : a.graph = st.graph
  rest : a.rest = st.rest

theorem placeClaimed_abreast (h : Abreast f known lax d' st.dataSize st st') :
    Mirrors known lax (Together f known lax d' st) (st.placeClaimed f i x) (st'.placeClaimed f i x) := by
  obtain ⟨map', rfl⟩ : ∃ map', st' = st.withMap map' := ⟨_, h.frame⟩
  unfold State.placeClaimed
  exact .bind_same fun slots _ => .pure ⟨⟨rfl, h.maps⟩, rfl, rfl⟩

section Base

variable (shared : Shared f known d' own g) (root : g.IsRoot i)
include shared root

/-- The search past the data. -/
theorem findBaseOffset_abreast (h : Abreast f known lax d' st.dataSize st st') (graph : st.graph = g)
    (isClass : (f.tree.record (g.node i).record).isClass = true) {alignment : Nat} {found : State × Nat}
    (done : (findBaseOffset f st i alignment).eval known = .ok found)
    (room : found.2 + f.setting.span known (g.node i).record < Quantity.limit)
    (after : f.tree.isEmptyClass (g.node i).record = false →
      8 * (found.2 + known.nonVirtualSize (g.node i).record) ≤ front')
    (le : st.dataSize ≤ front') :
    Follows known lax (fun a b => b.2 = a.2 ∧ Abreast f known lax d' front' a.1 b.1)
      (findBaseOffset f st i alignment) found (findBaseOffset f st' i alignment) := by
  have dataSize : st'.dataSizeInBytes = st.dataSizeInBytes := by rw [h.frame]; rfl
  have bounded := h.bounded.2
  have explorable := (shared.work.placeable shared.charted root.1).inside
  have graph' : st'.graph = g := by rw [h.frame]; exact graph
  unfold findBaseOffset at done ⊢
  rw [dataSize]
  obtain ⟨start, aligned, rest⟩ := eval_bind_eq_ok.mp done
  refine (Mirrors.refl _ start aligned).bind aligned fun start' _ same => ?_
  subst same
  rw [LayoutM.eval_lift] at aligned
  obtain ⟨positive, _⟩ := Quantity.alignTo_eq_ok_iff.mp aligned
  have past := alignTo_le aligned
  have rounded := le_toBytesCeil st.dataSize
  have before (y : Nat) (from' : start ≤ y) : st.dataSize ≤ 8 * y := by
    unfold State.dataSizeInBytes at past
    lia
  refine (probe_follows _ rest (fun y from' upTo => ?_) (fun y refused => ?_) _
    (attemptsFrom_enough (st'.emptyMap.getD {}) start (Nat.pos_of_ne_zero positive))).imp
      fun b _ both => ⟨both.2, both.1⟩
  · exact placeBase?_abreast shared root h graph isClass (by lia) (.inr (before y from')) le
      fun full => (Nat.mul_le_mul_left 8 (Nat.add_le_add_right upTo _)).trans (after full)
  · have answer := Ends.holds (State.placeBase?_ends shared.work.knows trivial bounded
      (graph' ▸ explorable) y) refused
    obtain ⟨map', here, refused⟩ := answer
    rw [here]
    have explorable' : BaseExplorable f.setting known st'.graph i := graph' ▸ explorable
    by_contra past
    exact Ends.holds (ObjectLayout.placeBase?_ends shared.work.knows (bounded map' here) (.inl trivial)
      explorable' (.inl trivial)) refused ((bounded map' here).free (Nat.lt_of_not_le past))

/-- Where a base that does not go to the start is put, and how it raises the alignment. -/
def searchBase (f : Frame) (i : SubobjectId) (isEmpty : Bool) (layout : RecordLayout)
    (packed unpacked : Bytes) (st : State) : LayoutM (State × Bytes) := do
  let found ← findBaseOffset f st i packed
  let st ← occupyBase found.1 isEmpty layout found.2
  return (← st.raiseAlignment f packed unpacked, found.2)

/-- How an empty base goes on from what the start of the record answers. -/
def afterStart (f : Frame) (i : SubobjectId) (layout : RecordLayout) (packed unpacked : Bytes)
    (st : State) : Option State → LayoutM (State × Bytes)
  | some st => do
    let st ← st.setSize (max st.sizeInBytes layout.size)
    return (← st.raiseAlignment f packed unpacked, 0)
  | none => searchBase f i true layout (f.clamp packed) (f.clamp unpacked) st

/-- An empty base goes to the start if it can. -/
def layEmptyBase (f : Frame) (i : SubobjectId) (layout : RecordLayout) (packed unpacked : Bytes)
    (st : State) : LayoutM (State × Bytes) := do
  afterStart f i layout packed unpacked st (← st.placeBase? f i 0)

section Placed

variable (h : Abreast f known lax d' st.dataSize st st') (graph : st.graph = g)
variable (isClass : (f.tree.record (g.node i).record).isClass = true) {layout : RecordLayout}
variable (laid : known.record (g.node i).record = .ok layout) (part : layout.asClass.isSome)
include h graph isClass laid part

theorem searchBase_abreast (packed unpacked : Bytes) :
    Mirrors known lax (fun a b => b.2 = a.2 ∧ Abreast f known lax d' a.1.dataSize a.1 b.1)
      (searchBase f i (f.tree.isEmptyClass (g.node i).record) layout packed unpacked st)
      (searchBase f i (f.tree.isEmptyClass (g.node i).record) layout packed unpacked st') := by
  unfold searchBase
  refine Mirrors.bind_reaching (R := fun a b => b.2 = a.2 ∧ a.1.dataSize = st.dataSize ∧
    Abreast f known lax d' (if f.tree.isEmptyClass (g.node i).record then st.dataSize
      else 8 * (a.2 + known.nonVirtualSize (g.node i).record)) a.1 b.1)
    (fun found result done rest => ?_) ?_
  · obtain ⟨st₁, occupied, _⟩ := eval_bind_eq_ok.mp rest
    rw [LayoutM.eval_lift] at occupied
    obtain ⟨placed, start, aligned', later⟩ := findBaseOffset_ok done
    have frame := placeBase?_frame placed
    have past := (le_toBytesCeil st.dataSize).trans
      (Nat.mul_le_mul_left 8 ((alignTo_le aligned').trans later))
    refine (findBaseOffset_abreast shared root h graph isClass done
      ((occupyBase_fits laid part).value occupied) (fun full => ?_) ?_).imp
        fun b _ both => ⟨both.1, by rw [frame], both.2⟩
    · rw [full]
      exact le_rfl
    · split
      · exact le_rfl
      · lia
  · rintro ⟨st₁, x⟩ ⟨st₁', _⟩ _ _ ⟨rfl, dataSize, abreast⟩
    refine (abreast.blind (blind_occupyBase _ layout _)).bind fun st₂ st₂' done _ abreast => ?_
    refine (abreast.blind (blind_raiseAlignment _ _)).bind fun st₃ st₃' done' _ abreast => .pure ?_
    rw [LayoutM.eval_lift] at done done'
    have occupied := Ends.holds (occupyBase_ends (f := f) trivial laid part) done
    have aligned := Ends.holds (raiseAlignment_ends (.inr trivial) (.inr trivial)) done'
    have same : st₃.dataSize = st₂.dataSize := by rw [aligned.frame]
    refine ⟨rfl, ?_⟩
    rw [same, occupied.dataSize, dataSize]
    exact abreast

variable (empty : f.tree.isEmptyClass (g.node i).record = true)
include empty

/-- An empty base that goes to the start in one run goes there in the other. -/
theorem placeAtStart_abreast {packed unpacked : Bytes} {answer : Option State}
    {result : State × Bytes} (done : (st.placeBase? f i 0).eval known = .ok answer)
    (rest : (afterStart f i layout packed unpacked st answer).eval known = .ok result) :
    Follows known lax (Option.Rel (Abreast f known lax d' st.dataSize)) (st.placeBase? f i 0) answer
      (st'.placeBase? f i 0) := by
  have span : f.setting.span known (g.node i).record = layout.size :=
    (if_pos empty).trans (Known.size_eq laid)
  refine placeBase?_abreast shared root h graph isClass ?_ (.inl ⟨empty, rfl⟩) le_rfl
    (fun full => ?_) answer done
  · rw [span, Nat.zero_add]
    cases answer with
    | some st₁ =>
      obtain ⟨st₂, sized, _⟩ := eval_bind_eq_ok.mp rest
      rw [LayoutM.eval_lift] at sized
      exact (Nat.le_max_right _ _).trans_lt (setSize_fits.value sized)
    | none =>
      obtain ⟨found, _, rest⟩ := eval_bind_eq_ok.mp rest
      obtain ⟨st₁, occupied, _⟩ := eval_bind_eq_ok.mp rest
      rw [LayoutM.eval_lift, ← empty] at occupied
      have fits := (occupyBase_fits laid part).value occupied
      rw [span] at fits
      exact (Nat.le_add_left _ _).trans_lt fits
  · rw [empty] at full
    cases full

theorem layEmptyBase_abreast (packed unpacked : Bytes) :
    Mirrors known lax (fun a b => b.2 = a.2 ∧ Abreast f known lax d' a.1.dataSize a.1 b.1)
      (layEmptyBase f i layout packed unpacked st) (layEmptyBase f i layout packed unpacked st') := by
  unfold layEmptyBase
  refine Mirrors.bind_reaching (R := Option.Rel (Abreast f known lax d' st.dataSize))
    (fun answer result done rest =>
      placeAtStart_abreast shared root h graph isClass laid part empty done rest)
    fun answer answer' done _ related => ?_
  cases related with
  | none =>
    have search := searchBase_abreast shared root h graph isClass laid part (f.clamp packed)
      (f.clamp unpacked)
    rwa [empty] at search
  | @some st₁ st₁' abreast =>
    have frame := placeBase?_frame done
    have dataSize : st₁.dataSize = st.dataSize := by rw [frame]
    refine (abreast.blind (blind_setSize (fun st => max st.sizeInBytes layout.size)
      fun _ _ => rfl)).bind fun st₂ st₂' done _ abreast => ?_
    refine (abreast.blind (blind_raiseAlignment _ _)).bind fun st₃ st₃' done' _ abreast => .pure ?_
    rw [LayoutM.eval_lift] at done done'
    have sized := Ends.holds (setSize_ends trivial) done
    have aligned := Ends.holds (raiseAlignment_ends (.inr trivial) (.inr trivial)) done'
    have same : st₃.dataSize = st₁.dataSize := by rw [aligned.frame, sized]
    exact ⟨rfl, by rw [same, dataSize]; exact abreast⟩

end Placed

theorem layBase_abreast (h : Abreast f known lax d' st.dataSize st st') (graph : st.graph = g) :
    Mirrors known lax (fun a b => b.2 = a.2 ∧ Abreast f known lax d' a.1.dataSize a.1 b.1)
      (layBase f i st) (layBase f i st') := by
  subst graph
  have placeable := shared.work.placeable shared.charted root.1
  have sound := (placeable.inside.below i .refl).sound
  obtain ⟨layout, laid, asClass, _⟩ := sound.laid
  have graph' : st'.graph = st.graph := by rw [h.frame]
  have unsupplied : suppliedBaseOffset? f (st.graph.node i) = none := by
    simp [suppliedBaseOffset?, placeable.unsupplied]
  unfold layBase
  rw [graph']
  simp only [unsupplied, Option.all_none, Bool.and_true]
  refine .bind_same fun _ _ => .bind_same fun layout' laid' => ?_
  rw [LayoutM.eval_layoutOf, laid] at laid'
  cases laid'
  refine .bind_same fun unpacked aligned => ?_
  -- Only a class has an alignment as a base.
  have part : layout.asClass.isSome := by
    by_contra plain
    rw [Option.not_isSome_iff_eq_none] at plain
    rw [LayoutM.eval_lift, RecordLayout.nonVirtualAlignment, RecordLayout.classLayout, plain] at aligned
    cases aligned
  have isClass : (f.tree.record (st.graph.node i).record).isClass = true := asClass.symm.trans part
  generalize (if f.isPacked = true then 1 else unpacked) = packed
  cases empty : f.tree.isEmptyClass (st.graph.node i).record with
  | true => exact layEmptyBase_abreast shared root h rfl isClass laid part empty packed unpacked
  | false =>
    have search := searchBase_abreast shared root h rfl isClass laid part (f.clamp packed)
      (f.clamp unpacked)
    rw [empty] at search
    exact search

/-- The graph, and what bases have nothing to do with, stay as they were on both sides. -/
theorem layBase_together (h : Abreast f known lax d' st.dataSize st st') (graph : st.graph = g) :
    Mirrors known lax (fun found found' => ∃ map', found' = (found.1.withMap map', found.2) ∧
      Abreast f known lax d' found.1.dataSize found.1 (found.1.withMap map') ∧
      found.1.graph = st.graph ∧ found.1.rest = st.rest) (layBase f i st) (layBase f i st') := by
  refine (layBase_abreast shared root h graph).imp ?_
  rintro ⟨mid, offset⟩ ⟨mid', offset'⟩ done _ ⟨same, abreast⟩
  cases same
  have placed := (layBase_ends shared.work.knows h.bounded.1
    (graph ▸ shared.work.placeable shared.charted root.1)).value done
  obtain ⟨map', rfl⟩ : ∃ map', mid' = mid.withMap map' := ⟨_, abreast.frame⟩
  exact ⟨map', rfl, abreast, (congrArg State.graph placed.frame).trans rfl,
    (congrArg State.rest placed.frame).trans rfl⟩

theorem layNonVirtualBase_abreast (h : Abreast f known lax d' st.dataSize st st') (graph : st.graph = g) :
    Mirrors known lax (Together f known lax d' st) (layNonVirtualBase f i st)
      (layNonVirtualBase f i st') := by
  unfold layNonVirtualBase
  refine (layBase_together shared root h graph).bind ?_
  rintro ⟨mid, offset⟩ _ _ _ ⟨map', rfl, abreast, sameGraph, sameRest⟩
  refine .bind_same fun _ _ => ?_
  have abreast' : Abreast f known lax d' mid.dataSize
      { mid with baseOffsets := mid.baseOffsets.insert (mid.graph.node i).record offset }
      { mid.withMap map' with
        baseOffsets := mid.baseOffsets.insert (mid.graph.node i).record offset } :=
    ⟨rfl, abreast.maps⟩
  exact (placeClaimed_abreast abreast').imp fun a b _ _ next =>
    ⟨next.abreast, next.graph.trans sameGraph, next.rest.trans sameRest⟩

theorem layVirtualBase_abreast (h : Abreast f known lax d' st.dataSize st st') (graph : st.graph = g) :
    Mirrors known lax (Together f known lax d' st) (layVirtualBase f i st)
      (layVirtualBase f i st') := by
  unfold layVirtualBase
  refine .bind_same fun _ _ => (layBase_together shared root h graph).bind ?_
  rintro ⟨mid, offset⟩ _ _ _ ⟨map', rfl, abreast, sameGraph, sameRest⟩
  refine .bind_same fun _ _ => ?_
  have abreast' : Abreast f known lax d' mid.dataSize
      { mid with
        virtualBaseSlots := mid.virtualBaseSlots.insert (mid.graph.node i).record { offset } }
      { mid.withMap map' with
        virtualBaseSlots := mid.virtualBaseSlots.insert (mid.graph.node i).record { offset } } :=
    ⟨rfl, abreast.maps⟩
  exact (placeClaimed_abreast abreast').imp fun a b _ _ next =>
    ⟨next.abreast, next.graph.trans sameGraph, next.rest.trans sameRest⟩

end Base

end ObjectLayout.Itanium
