import ObjectLayout.Proofs.Confined
import ObjectLayout.Proofs.Itanium.Located

/-! The states that a layout goes through. A step chooses the primary base and builds the graph, lays
the table pointer, one base or one field, or notes that a virtual base has been visited. In whatever
order such steps are taken, the map keeps an upper bound that is attained, and every base in the graph
can be looked into. -/
namespace ObjectLayout

variable {s : Setting} {known : Known} {d v : RecordId} {own : Option RecordId}
variable {g g' : SubobjectGraph} {i j : SubobjectId}

namespace SubobjectGraph

/-- Every occurrence in the graph can be looked into, and what is found by its class is there. -/
structure Browsable (s : Setting) (known : Known) (g : SubobjectGraph) : Prop where
  legible : ∀ i, g.Has i → BaseLegible s known g i
  direct : ∀ b i, g.nonVirtualBases.find? b = some i → g.Has i
  virtual : ∀ v i, g.virtualBases.find? v = some i → g.Has i

theorem Browsable.empty : ({} : SubobjectGraph).Browsable s known where
  legible _ has := absurd has (Nat.not_lt_zero _)
  direct := nofun
  virtual := nofun

theorem Forest.browsable (forest : Forest s known d own g) (acyclic : s.tree.Acyclic d)
    (legible : ∀ r, Relation.TransGen s.Holds d r → Legible s known r) : g.Browsable s known where
  legible i has := by
    have primaries : Itanium.PrimariesInherited s known d := fun b v path =>
      (legible b (SoundBelow.inherits path)).here.primary v
    refine ⟨forest.claimsPrimaries, forest.grounded primaries acyclic i, fun j path => ?_,
      fun k j _ member => forest.plain_edge member⟩
    exact legible _ (SoundBelow.inherits (forest.below j (forest.has_descendant has path)))
  direct b i found := (forest.direct b i found).1
  virtual v p found := (forest.found v p found).1

section Found

variable (h : g.Browsable s known)
include h

theorem Browsable.has_nonVirtualBase (found : g.nonVirtualBase v = .ok i) : g.Has i := by
  unfold nonVirtualBase at found
  split at found
  · rename_i here
    cases found
    exact h.direct v _ here
  · cases found

theorem Browsable.has_virtualBase (found : g.virtualBase v = .ok i) : g.Has i := by
  unfold virtualBase at found
  split at found
  · rename_i here
    cases found
    exact h.virtual v _ here
  · cases found

end Found

/-- A base that has been taken away from its claimant hangs from it no longer. -/
theorem Browsable.steal (h : g.Browsable s known) (stolen : g.stealVirtualBase v = .ok (g', i)) :
    g'.Browsable s known := by
  obtain ⟨i', found, same⟩ := except_bind_eq_ok.mp stolen
  cases same
  have released := released_modify (h.has_virtualBase found)
  -- Whatever hangs from an occurrence hung from it before.
  have path {k j} (path : Relation.ReflTransGen _ k j) : Relation.ReflTransGen g.Child k j :=
    Relation.ReflTransGen.mono (fun _ _ => released.child) _ _ path
  refine ⟨fun k has => ?_, ?_, ?_⟩
  · have before := h.legible k ((released.has k).mp has)
    constructor
    case claims =>
      intro c p claims
      rw [released.record, released.record]
      exact before.claims c p (released.claimed claims)
    case grounded => exact before.grounded.mono fun _ _ => released.child
    case below => exact fun j inside => by rw [released.record]; exact before.below j (path inside)
    case edges =>
      intro c j inside member
      rw [released.record, released.record]
      exact before.edges c j (path inside) (released.nonVirtualBasesOf c ▸ member)
  · simpa only [released.nonVirtualBases, released.has] using h.direct
  · simpa only [released.virtualBases, released.has] using h.virtual

end SubobjectGraph

/-- A map that prunes and knows how far it reaches: its highest offset is that of something recorded,
if there is anything. -/
structure EmptyMap.Exact (map : EmptyMap) : Prop where
  pruned : map.tracking = .pruned
  bounded : map.Bounded
  attained : map.Attained

theorem Recorded.exact {map map' : EmptyMap} {exempt : Bool} {new : Nat × RecordId → Prop}
    (h : Recorded exempt map map' new) (before : map.Exact) : map'.Exact where
  pruned := h.tracking.trans before.pruned
  bounded := h.bounded before.bounded
  attained := h.attained before.attained

namespace Itanium

open LayoutM (ends_bind ends_lift_bind)

variable {f : Frame} {st st₁ st' start : State}

/-- The states in which a layout begins: that of a class has a map of empty subobjects. -/
inductive Starts (f : Frame) (known : Known) (st : State) : Prop
  | ofClass {map : EmptyMap} (isClass : f.declaration.isClass = true)
      (mapped : (EmptyMap.ofClass f.setting .pruned f.record).eval known = .ok map)
      (started : State.initial f (some map) = .ok st)
  | plain (isPlain : f.declaration.isClass = false) (started : State.initial f none = .ok st)

/-- A step of a layout. -/
inductive Advances (f : Frame) (known : Known) : State → State → Prop
  | plan {st : State} {primaryBase : Option PrimaryBase} {used : List RecordId}
      {graph : SubobjectGraph} (isClass : f.declaration.isClass = true)
      (chosen : (choosePrimaryBase f.setting f.record).eval known = .ok (primaryBase, used))
      (built : (SubobjectGraph.ofClass f.setting f.record).eval known = .ok graph) :
      Advances f known st { st with primaryBase, indirectPrimaryBases := used, graph }
  /-- The class takes its own primary base, if that is virtual, away from whatever has claimed it. -/
  | steal {st : State} {v : RecordId} {graph : SubobjectGraph} {i : SubobjectId}
      (stolen : st.graph.stealVirtualBase v = .ok (graph, i)) :
      Advances f known st { st with
        graph
        indirectPrimaryBases := appendNew st.indirectPrimaryBases [v]
        visitedVirtualBases := st.visitedVirtualBases ++ [v] }
  | visit {st : State} (v : RecordId) :
      Advances f known st { st with visitedVirtualBases := st.visitedVirtualBases ++ [v] }
  | tablePointer {st st' : State} (laid : layTablePointer f st = .ok st') : Advances f known st st'
  | base {st st' : State} {b : RecordId} {i : SubobjectId}
      (found : st.graph.nonVirtualBase b = .ok i)
      (laid : (layNonVirtualBase f i st).eval known = .ok st') : Advances f known st st'
  | virtualBase {st st' : State} {v : RecordId} {i : SubobjectId}
      (found : st.graph.virtualBase v = .ok i)
      (laid : (layVirtualBase f i st).eval known = .ok st') : Advances f known st st'
  /-- A field that is no bit-field leaves the rest of a unit of bits behind. -/
  | leaveUnit {st : State} : Advances f known st { st with unfilledBits := 0, storageUnit := 0 }
  | field {st st' : State} {entry : Field × Nat} (member : entry ∈ f.declaration.fields.zipIdx)
      (laid : (layAnyField f st entry).eval known = .ok st') : Advances f known st st'

/-- A state that a layout can get to. -/
def Reached (f : Frame) (known : Known) (st : State) : Prop :=
  ∃ start, Starts f known start ∧ Relation.ReflTransGen (Advances f known) start st

section Runs

theorem Reached.step (h : Reached f known st) (step : Advances f known st st') :
    Reached f known st' := by
  obtain ⟨start, starts, path⟩ := h
  exact ⟨start, starts, path.tail step⟩

variable (h : Reached f known st)
include h

theorem layPrimaryBase_reached {primary : PrimaryBase} :
    Ends (fun _ => True) ((layPrimaryBase f primary st).eval known) (Reached f known) := by
  unfold layPrimaryBase
  split
  · refine ends_lift_bind Ends.any fun taken stolen => ends_bind Ends.any fun _ _ => ?_
    obtain ⟨graph, i⟩ := taken
    have stolen' := h.step (.steal stolen)
    have found : graph.virtualBase primary.record = .ok i := by
      obtain ⟨i', found, same⟩ := except_bind_eq_ok.mp stolen
      cases same
      exact found
    exact Ends.any.imp fun st' laid => stolen'.step (.virtualBase found laid)
  · exact ends_lift_bind Ends.any fun i found => Ends.any.imp fun st' laid => h.step (.base found laid)

theorem layNonVirtualBases_reached (isClass : f.declaration.isClass = true) :
    Ends (fun _ => True) ((layNonVirtualBases f st).eval known) (Reached f known) := by
  unfold layNonVirtualBases
  refine ends_bind Ends.any fun choice chosen => ends_bind Ends.any fun graph built => ?_
  obtain ⟨primaryBase, used⟩ := choice
  have planned := h.step (.plan isClass chosen built)
  have loop (st₁ : State) (h₁ : Reached f known st₁) : Ends (fun _ => True)
      ((f.declaration.nonVirtualBases.foldlM (m := LayoutM) (fun st base => do
        if isNonVirtualPrimary st base.record then return st
        layNonVirtualBase f (← st.graph.nonVirtualBase base.record) st) st₁).eval known)
      (Reached f known) := by
    rw [LayoutM.eval_foldlM]
    refine Ends.foldlM_keeps h₁ fun base _ st₂ h₂ => ?_
    split
    · exact h₂
    · exact ends_lift_bind Ends.any fun i found =>
        Ends.any.imp fun st' laid => h₂.step (.base found laid)
  dsimp only
  cases primaryBase with
  | some primary => exact ends_bind (layPrimaryBase_reached planned) loop
  | none =>
    dsimp only
    split
    · exact ends_lift_bind Ends.any fun st₁ laid => loop st₁ (planned.step (.tablePointer laid))
    · exact loop _ planned

theorem layFields_reached :
    Ends (fun _ => True) ((layFields f st).eval known) (Reached f known) := by
  unfold layFields
  rw [LayoutM.eval_foldlM]
  exact Ends.foldlM_keeps h fun entry member st₁ h₁ =>
    Ends.any.imp fun st₂ laid => h₁.step (.field member laid)

theorem layVirtualBases_reached :
    Ends (fun _ => True) ((layVirtualBases f st).eval known) (Reached f known) := by
  unfold layVirtualBases layVirtualBasesBelow
  refine descendWithin_keeps (K := fun lay : Option PrimaryBase → State → LayoutM State =>
    ∀ primary st, Reached f known st → Ends (fun _ => True) ((lay primary st).eval known)
      (Reached f known)) ?_ ?_ _ _ _ _ h
  · exact fun _ _ _ => trivial
  intro layBelow keeps r primary st h
  rw [LayoutM.eval_foldlM]
  refine Ends.foldlM_keeps h fun base _ st₁ h₁ => ?_
  have below (st₂ : State) (h₂ : Reached f known st₂) : Ends (fun _ => True) ((do
      if !f.tree.hasVirtualBases base.record then return st₂
      layBelow base.record (← LayoutM.layoutOf base.record).primaryBase? st₂ :
        LayoutM State).eval known) (Reached f known) := by
    split
    · exact h₂
    · exact ends_bind Ends.any fun layout _ => keeps _ _ _ h₂
  dsimp only
  split
  · exact h₁
  · split
    · refine ends_lift_bind Ends.any fun i found => ends_bind Ends.any fun st₂ laid => ?_
      exact below st₂ ((h₁.step (.visit base.record)).step (.virtualBase found laid))
    · exact below st₁ h₁

end Runs

/-- All that a class goes through up to the rounding of its size. -/
theorem classParts_reached (isClass : f.declaration.isClass = true) : Ends (fun _ => True) ((do
    let map ← EmptyMap.ofClass f.setting .pruned f.record
    let fixed ← layFields f (← layNonVirtualBases f (← State.initial f (some map)))
    layVirtualBases f fixed : LayoutM State).eval known) (Reached f known) := by
  refine ends_bind Ends.any fun map mapped => ends_lift_bind Ends.any fun start started => ?_
  have begun : Reached f known start := ⟨start, .ofClass isClass mapped started, .refl⟩
  refine ends_bind (layNonVirtualBases_reached begun isClass) fun st based => ?_
  refine ends_bind (layFields_reached based) fun fixed filled => ?_
  exact layVirtualBases_reached filled

section Invariant

/-- What the states of a layout have in common. -/
structure Sturdy (f : Frame) (known : Known) (st : State) : Prop where
  mapped : st.emptyMap.isSome → f.declaration.isClass = true
  held : f.declaration.isClass = true → ∀ m, f.setting.Holds f.record m →
    ∃ layout, known.record m = .ok layout
  map : ∀ map, st.emptyMap = some map → map.Exact
  graph : st.graph.Browsable f.setting known

theorem Starts.sturdy (starts : Starts f known st) : Sturdy f known st := by
  cases starts with
  | @ofClass map isClass mapped started =>
    rw [(initial_resizes _).holds started]
    refine ⟨fun _ => isClass, fun _ => EmptyMap.ofClass_asks mapped, ?_, .empty⟩
    rintro _ ⟨⟩
    obtain ⟨largest, _, done⟩ := LayoutM.eval_bind_eq_ok.mp mapped
    cases done
    exact ⟨rfl, nofun, .inl rfl⟩
  | plain isPlain started =>
    rw [(initial_resizes _).holds started]
    refine ⟨nofun, fun isClass => ?_, nofun, .empty⟩
    simp [isPlain] at isClass

namespace Sturdy

theorem of_same (h : Sturdy f known st) (map : st'.emptyMap = st.emptyMap)
    (graph : st'.graph = st.graph) : Sturdy f known st' :=
  ⟨map ▸ h.mapped, h.held, map ▸ h.map, graph ▸ h.graph⟩

/-- A map in which something has been placed is as exact as it was. -/
theorem placed (h : Sturdy f known st) {place? : EmptyMap → LayoutM (Option EmptyMap)}
    (next : Mapped known place? st st')
    (exact : ∀ map map', st.emptyMap = some map → (place? map).eval known = .ok (some map') →
      map'.Exact) : Sturdy f known st' := by
  have graph : st'.graph = st.graph := by rw [next.frame]
  refine ⟨fun isSome => ?_, h.held, fun map' here' => ?_, graph ▸ h.graph⟩
  · obtain ⟨map', here'⟩ := Option.isSome_iff_exists.mp isSome
    refine h.mapped (Option.isSome_iff_ne_none.mpr fun none => ?_)
    rw [next.unmapped none] at here'
    cases here'
  · cases here : st.emptyMap with
    | none =>
      rw [next.unmapped here] at here'
      cases here'
    | some map =>
      obtain ⟨map'', same, done⟩ := next.mapped map here
      cases same.symm.trans here'
      exact exact map map' here done

variable {x : Nat} {field : Field}

theorem placeBase (h : Sturdy f known st) (has : st.graph.Has i)
    (done : (st.placeBase? f i x).eval known = .ok (some st')) : Sturdy f known st' := by
  refine h.placed ((placeIn_ends fun _ _ => Ends.any.imp fun _ _ => trivial).value done)
    fun map map' here answer => ?_
  have exact := h.map map here
  rcases Ends.holds (placeBase?_answers exact.bounded (h.graph.legible i has) (.inl trivial))
    answer with ⟨_, rfl⟩ | ⟨_, recorded⟩
  · exact exact
  · exact recorded.exact exact

theorem takesBase (h : Sturdy f known st) (has : st.graph.Has i)
    (taken : TakesBase f known i st st') : Sturdy f known st' := by
  obtain ⟨x, mid, placed, resizes⟩ := taken.placed
  refine (h.placeBase has placed).of_same ?_ ?_ <;> rw [resizes]

variable (knows : f.setting.Knows known) (itanium : f.setting.usesMicrosoftLayout = false)
include knows itanium

theorem legible (h : Sturdy f known st) (isSome : st.emptyMap.isSome)
    (member : field ∈ f.declaration.fields) {m : RecordId}
    (names : field.type.constantArrayRecord? = some m) : Legible f.setting known m :=
  knows.legible itanium (h.held (h.mapped isSome) m
    (.of_field member (Ty.baseElement_of_constantArrayRecord? names)))

theorem placeField (h : Sturdy f known st) (member : field ∈ f.declaration.fields)
    (done : (st.placeField? f field.type x).eval known = .ok (some st')) : Sturdy f known st' := by
  unfold State.placeField? at done
  cases union : f.isUnion with
  | true =>
    rw [union] at done
    cases done
    exact h
  | false =>
    rw [union] at done
    refine h.placed ((placeIn_ends fun _ _ => Ends.any.imp fun _ _ => trivial).value done)
      fun map map' here answer => ?_
    have exact := h.map map here
    have isSome : st.emptyMap.isSome := by rw [here]; rfl
    exact (Ends.holds (placeField?_answers exact.bounded
      (fun m => h.legible knows itanium isSome member) (.inl trivial)) answer).2.exact exact

theorem takesField (h : Sturdy f known st) (member : field ∈ f.declaration.fields)
    (taken : TakesField f known field st st') : Sturdy f known st' := by
  obtain ⟨st₁, mid, offset, before, after, placed⟩ := taken.placed
  have h₁ : Sturdy f known st₁ := by refine h.of_same ?_ ?_ <;> rw [before]
  have mid' : Sturdy f known mid := by
    rcases placed with rfl | ⟨x, placed⟩
    · exact h₁
    · exact h₁.placeField knows itanium member placed
  refine mid'.of_same ?_ ?_ <;> (rw [after]; rfl)

end Sturdy

theorem layNonVirtualBase_takes : Ends (fun _ => True) ((layNonVirtualBase f i st).eval known)
    fun st' => ∃ st₁, TakesBase f known i st st₁ ∧ st'.emptyMap = st₁.emptyMap ∧
      st'.graph = st₁.graph := by
  unfold layNonVirtualBase State.placeClaimed
  refine ends_bind layBase_takes fun placed taken => ends_bind Ends.any fun _ _ => ?_
  exact ends_bind Ends.any fun slots _ => ⟨placed.1, taken, rfl, rfl⟩

theorem layVirtualBase_takes : Ends (fun _ => True) ((layVirtualBase f i st).eval known)
    fun st' => ∃ st₁, TakesBase f known i st st₁ ∧ st'.emptyMap = st₁.emptyMap ∧
      st'.graph = st₁.graph := by
  unfold layVirtualBase State.placeClaimed
  refine ends_bind Ends.any fun _ _ => ends_bind layBase_takes fun placed taken => ?_
  refine ends_bind Ends.any fun _ _ => ends_bind Ends.any fun slots _ => ?_
  exact ⟨placed.1, taken, rfl, rfl⟩

variable (knows : f.setting.Knows known) (itanium : f.setting.usesMicrosoftLayout = false)
include knows itanium

/-- The graph that is built for a class can be looked into. -/
theorem Sturdy.plan (h : Sturdy f known st) (isClass : f.declaration.isClass = true)
    (built : (SubobjectGraph.ofClass f.setting f.record).eval known = .ok g) :
    g.Browsable f.setting known := by
  have legible (r) (path : Relation.TransGen f.setting.Holds f.record r) :
      Legible f.setting known r := by
    obtain ⟨m, holds, further⟩ := Relation.TransGen.head'_iff.mp path
    have top := knows.legible itanium (h.held isClass m holds)
    rcases Relation.reflTransGen_iff_eq_or_transGen.mp further with rfl | further
    · exact top
    · exact top.lower further
  have acyclic : f.tree.Acyclic f.record :=
    .intro fun b edge => (legible b (.single edge.holds)).acyclic
  have below {b} (path : Relation.TransGen f.tree.Inherits f.record b) :
      Located f.setting known b := (legible b (SoundBelow.inherits path)).here
  have basesLaid : BasesLaid f.setting known f.record := fun b path =>
    (below path).laid.imp fun _ ⟨found, isClass, _⟩ => ⟨found, isClass⟩
  have forest := Ends.holds (SubobjectGraph.ofClass_ends acyclic (.of_laid basesLaid)
    (fun b v path => (below path).primary v) fun _ => trivial) built
  exact forest.browsable acyclic legible

theorem Advances.sturdy (step : Advances f known st st') (h : Sturdy f known st) :
    Sturdy f known st' := by
  cases step with
  | plan isClass _ built => exact ⟨h.mapped, h.held, h.map, h.plan knows itanium isClass built⟩
  | steal stolen => exact ⟨h.mapped, h.held, h.map, h.graph.steal stolen⟩
  | visit => exact h.of_same rfl rfl
  | tablePointer laid =>
    have same := Resizes.layTablePointer.holds laid
    refine h.of_same ?_ ?_ <;> rw [same]
  | base found laid =>
    obtain ⟨st₁, taken, map, graph⟩ := layNonVirtualBase_takes.holds laid
    exact (h.takesBase (h.graph.has_nonVirtualBase found) taken).of_same map graph
  | virtualBase found laid =>
    obtain ⟨st₁, taken, map, graph⟩ := layVirtualBase_takes.holds laid
    exact (h.takesBase (h.graph.has_virtualBase found) taken).of_same map graph
  | leaveUnit => exact h.of_same rfl rfl
  | field member laid =>
    exact h.takesField knows itanium (List.fst_mem_of_mem_zipIdx member)
      (layAnyField_takes.holds laid)

/-- By induction over the steps. -/
theorem Reached.sturdy (h : Reached f known st) : Sturdy f known st := by
  obtain ⟨start, starts, path⟩ := h
  induction path with
  | refl => exact starts.sturdy
  | tail _ step ih => exact step.sturdy knows itanium ih

end Invariant

end Itanium

end ObjectLayout
