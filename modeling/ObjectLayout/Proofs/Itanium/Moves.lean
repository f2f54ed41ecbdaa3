import ObjectLayout.Proofs.Itanium.Raising
import ObjectLayout.Proofs.Itanium.Whole

/-! The layout of a class as a run of steps. Whatever each step keeps, a whole run keeps, so that an
invariant is shown step by step and the loops are gone through once, here. -/
namespace ObjectLayout.Itanium

open LayoutM (ends_bind ends_lift_bind eval_bind_eq_ok layoutOf)

variable {f : Frame} {known : Known} {st st' : State} {g : SubobjectGraph} {own : Option RecordId}
variable {indirect : List RecordId} {r : RecordId}

/-- One step: bookkeeping, the table pointer, a base with a graph that is fit for it, or a field in
its turn. -/
inductive Move (f : Frame) (known : Known) : State → State → Prop
  | plan (st : State) (graph : SubobjectGraph) (primaryBase : Option PrimaryBase)
      (indirectPrimaryBases visitedVirtualBases : List RecordId) :
      Move f known st
        { st with graph, primaryBase, indirectPrimaryBases, visitedVirtualBases }
  | tablePointer {st st' : State} (dynamic : f.tree.isDynamic f.record = true)
      (done : layTablePointer f st = .ok st') : Move f known st st'
  | nonVirtualBase {st st' : State} {own : Option RecordId} {i : SubobjectId}
      (charted : Charted f.setting known f.record own st.graph) (root : st.graph.IsRoot i)
      (done : (layNonVirtualBase f i st).eval known = .ok st') : Move f known st st'
  | virtualBase {st st' : State} {own : Option RecordId} {i : SubobjectId}
      (charted : Charted f.setting known f.record own st.graph) (root : st.graph.IsRoot i)
      (done : (layVirtualBase f i st).eval known = .ok st') : Move f known st st'
  | field {st st' : State} {field : Field}
      (turn : f.declaration.fields[st.fieldOffsets.length]? = some field)
      (done : (layAnyField f st (field, st.fieldOffsets.length)).eval known = .ok st') :
      Move f known st st'

/-- A run of steps. -/
abbrev Moves (f : Frame) (known : Known) : State → State → Prop :=
  Relation.ReflTransGen (Move f known)

/-- What every step keeps, a run keeps. -/
theorem Moves.keeps {K : State → Prop} (run : Moves f known st st') (start : K st)
    (each : ∀ a b, K a → Move f known a b → K b) : K st' := by
  induction run with
  | refl => exact start
  | tail _ move ih => exact each _ _ ih move

/-- The alignment never falls, and stays a power of two. -/
theorem Moves.alignment_le (run : Moves f known st st') (unsupplied : f.supplied = none) :
    st.alignment ≤ st'.alignment ∧
      (Quantity.isPowerOfTwo st.alignment = true → Quantity.isPowerOfTwo st'.alignment = true) := by
  refine run.keeps (K := fun st' => st.alignment ≤ st'.alignment ∧
    (Quantity.isPowerOfTwo st.alignment = true → Quantity.isPowerOfTwo st'.alignment = true))
    ⟨le_rfl, id⟩ ?_
  rintro a b ⟨le, power⟩ move
  have base {i : SubobjectId} {x : Nat} {tables : State → State}
      (housed : BaseHoused f known i x tables a b)
      (same : ∀ mid, (tables mid).alignment = mid.alignment) : a.alignment ≤ b.alignment ∧
        (Quantity.isPowerOfTwo a.alignment = true → Quantity.isPowerOfTwo b.alignment = true) := by
    obtain ⟨mid, slots, raised, _, rfl⟩ := housed.housed
    have power := raised.power
    change a.alignment ≤ (tables mid).alignment ∧
      (_ → Quantity.isPowerOfTwo (tables mid).alignment = true)
    rw [same]
    refine ⟨?_, power⟩
    rw [raised.frame]
    exact f.le_raised _ _
  have next : a.alignment ≤ b.alignment ∧
      (Quantity.isPowerOfTwo a.alignment = true → Quantity.isPowerOfTwo b.alignment = true) := by
    cases move with
    | plan => exact ⟨le_rfl, id⟩
    | tablePointer _ done => exact (Ends.holds (layTablePointer_raises unsupplied) done).2
    | nonVirtualBase _ _ done =>
      obtain ⟨x, housed⟩ := Ends.holds (layNonVirtualBase_houses unsupplied) done
      exact base housed fun _ => rfl
    | virtualBase _ _ done =>
      obtain ⟨x, housed⟩ := Ends.holds (layVirtualBase_houses unsupplied) done
      exact base housed fun _ => rfl
    | field _ done =>
      obtain ⟨offset, raised⟩ := Ends.holds (layAnyField_raises unsupplied) done
      exact ⟨raised.grows, raised.power⟩
  exact ⟨le.trans next.1, fun before => next.2 (power before)⟩

/-- A fold whose steps are runs is a run. -/
theorem Moves.foldlM {α : Type} {step : State → α → LayoutM State} {K : State → Prop} {xs : List α}
    (start : K st) (each : ∀ x ∈ xs, ∀ st st', K st → (step st x).eval known = .ok st' →
      Moves f known st st' ∧ K st')
    (done : (xs.foldlM step st).eval known = .ok st') : Moves f known st st' ∧ K st' := by
  rw [LayoutM.eval_foldlM] at done
  have whole : Ends (fun _ => True) _ fun st' => Moves f known st st' ∧ K st' :=
    Ends.foldlM_keeps ⟨.refl, start⟩ fun x member mid ⟨before, kept⟩ =>
      Ends.any.imp fun next done => by
        obtain ⟨run, kept⟩ := each x member mid next kept done
        exact ⟨before.trans run, kept⟩
  exact whole.holds done

theorem layAnyFields_moves (unsupplied : f.supplied = none) {before entries after : List (Field × Nat)}
    (split : f.declaration.fields.zipIdx = before ++ entries ++ after)
    (count : st.fieldOffsets.length = before.length)
    (done : (entries.foldlM (layAnyField f) st).eval known = .ok st') :
    Moves f known st st' ∧ st'.fieldOffsets.length = (before ++ entries).length ∧
      st.fieldOffsets <+: st'.fieldOffsets ∧ st' = { st with
        size := st'.size, dataSize := st'.dataSize, emptyMap := st'.emptyMap
        unfilledBits := st'.unfilledBits, storageUnit := st'.storageUnit
        fieldOffsets := st'.fieldOffsets
        alignment := st'.alignment, unpackedAlignment := st'.unpackedAlignment } := by
  induction entries generalizing before st with
  | nil =>
    cases done
    exact ⟨.refl, by rw [count, List.append_nil], List.prefix_rfl, rfl⟩
  | cons entry rest ih =>
    rw [List.foldlM_cons] at done
    obtain ⟨mid, first, others⟩ := eval_bind_eq_ok.mp done
    obtain ⟨field, index⟩ := entry
    have here : f.declaration.fields.zipIdx[before.length]? = some (field, index) := by
      rw [split, List.append_assoc, List.getElem?_append_right le_rfl]
      simp
    rw [List.getElem?_zipIdx, Option.map_eq_some_iff] at here
    obtain ⟨field', turn, same⟩ := here
    obtain ⟨rfl, rfl⟩ := Prod.mk.inj same
    rw [Nat.zero_add, ← count] at first
    rw [← count] at turn
    obtain ⟨offset, raised⟩ := Ends.holds (layAnyField_raises unsupplied) first
    have more : mid.fieldOffsets.length = (before ++ [(field', 0 + before.length)]).length := by
      rw [raised.frame]
      simp [count]
    obtain ⟨run, total, kept, frame⟩ := ih (by rw [split]; simp) more others
    refine ⟨.head (.field turn first) run, by rw [total]; simp, ?_, ?_⟩
    · rw [raised.frame] at kept
      exact (List.prefix_append _ _).trans kept
    · rw [frame, raised.frame]

section Bases

variable (work : Workable f known fun _ => True)
include work

theorem layNonVirtualBase_graph {i : SubobjectId}
    (done : (layNonVirtualBase f i st).eval known = .ok st') :
    st'.graph = st.graph ∧ st'.rest = st.rest := by
  obtain ⟨x, housed⟩ := Ends.holds (layNonVirtualBase_houses work.unsupplied) done
  exact ⟨(housed.frame fun _ => rfl).1, (housed.frame fun _ => rfl).2.1⟩

theorem layVirtualBase_frame {i : SubobjectId} (done : (layVirtualBase f i st).eval known = .ok st') :
    st' = { st with
      size := st'.size, dataSize := st'.dataSize, emptyMap := st'.emptyMap
      alignment := st'.alignment, unpackedAlignment := st'.unpackedAlignment
      virtualBaseSlots := st'.virtualBaseSlots } := by
  obtain ⟨x, housed⟩ := Ends.holds (layVirtualBase_houses work.unsupplied) done
  obtain ⟨mid, slots, raised, _, rfl⟩ := housed.housed
  rw [raised.frame]
  rfl

/-- A virtual primary base brings its alignment before anything else does. -/
theorem layPrimaryBase_moves {primary : PrimaryBase} {used : List RecordId}
    (forest : st.graph.Forest f.setting known f.record none)
    (choice : PrimaryChoice f.setting known f.record (some primary) used)
    (done : (layPrimaryBase f primary st).eval known = .ok st') :
    Moves f known st st' ∧ (∃ own, Charted f.setting known f.record own st'.graph) ∧
      st'.primaryBase = st.primaryBase ∧ (primary.isVirtual = true → ∃ alignment,
        f.raised alignment (f.clamp (f.baseAlignment known primary.record)) ≤ st'.alignment) := by
  have charted := work.charted forest
  unfold layPrimaryBase at done
  obtain ⟨b, _ | _⟩ := primary
  · obtain ⟨i, found, done⟩ := eval_bind_eq_ok.mp done
    rw [LayoutM.eval_lift, SubobjectGraph.nonVirtualBase] at found
    split at found
    · rename_i i found'
      cases found
      obtain ⟨graph, rest⟩ := layNonVirtualBase_graph work done
      have rest := SameRest.of_eq rest
      exact ⟨.single (.nonVirtualBase charted (forest.direct_isRoot found') done),
        ⟨none, graph ▸ charted⟩, rest.primaryBase, fun same => absurd same Bool.false_ne_true⟩
    · cases found
  · obtain ⟨has, _⟩ := choice.virtual b rfl
    obtain ⟨g, i, stolen, stolenForest, found, _⟩ := forest.steal has
    obtain ⟨there, record, virt⟩ := stolenForest.found b i found
    have root := SubobjectGraph.free_isRoot there virt (stolenForest.free i there (by rw [record]))
    rw [if_pos rfl, LayoutM.eval_lift_bind stolen] at done
    obtain ⟨_, _, done⟩ := eval_bind_eq_ok.mp done
    have charted' := work.charted stolenForest
    have frame := layVirtualBase_frame work done
    refine ⟨.tail (.single (.plan st g st.primaryBase _ _)) (.virtualBase charted' root done),
      ⟨some b, by rw [frame]; exact charted'⟩, by rw [frame], fun _ => ⟨st.alignment, ?_⟩⟩
    obtain ⟨x, housed⟩ := Ends.holds (layVirtualBase_houses work.unsupplied) done
    rw [(housed.frame fun _ => rfl).2.2, record]
    exact f.raised_mono (f.clamp_le_broughtBy b x)

theorem directBases_moves (charted : Charted f.setting known f.record own st.graph)
    (done : (f.declaration.nonVirtualBases.foldlM (m := LayoutM) (fun st base => do
      if isNonVirtualPrimary st base.record then return st
      layNonVirtualBase f (← st.graph.nonVirtualBase base.record) st) st).eval known = .ok st') :
    Moves f known st st' ∧ st'.primaryBase = st.primaryBase := by
  suffices whole : Moves f known st st' ∧ st'.graph = st.graph ∧ st'.rest = st.rest by
    obtain ⟨run, _, same⟩ := whole
    have same := SameRest.of_eq same
    exact ⟨run, same.primaryBase⟩
  refine Moves.foldlM (K := fun mid => mid.graph = st.graph ∧ mid.rest = st.rest)
    ⟨rfl, rfl⟩ ?_ done
  rintro base _ mid next ⟨same, rest⟩ done
  split at done
  · cases done
    exact ⟨.refl, same, rest⟩
  · obtain ⟨i, found, done⟩ := eval_bind_eq_ok.mp done
    rw [LayoutM.eval_lift, SubobjectGraph.nonVirtualBase] at found
    split at found
    · rename_i i found'
      cases found
      have root : mid.graph.IsRoot i := by
        rw [same] at found' ⊢
        exact charted.forest.direct_isRoot found'
      obtain ⟨same', rest'⟩ := layNonVirtualBase_graph work done
      exact ⟨.single (.nonVirtualBase (same ▸ charted) root done), same'.trans same, rest'.trans rest⟩
    · cases found

/-- The non-virtual bases are a run, and what they bring includes the alignment of a virtual primary
base. -/
theorem layNonVirtualBases_moves (done : (layNonVirtualBases f st).eval known = .ok st') :
    Moves f known st st' ∧ ∀ v, st'.primaryBase = some ⟨v, true⟩ → ∃ alignment,
      f.raised alignment (f.clamp (f.baseAlignment known v)) ≤ st'.alignment := by
  unfold layNonVirtualBases at done
  obtain ⟨⟨chosen, used⟩, choice, done⟩ := eval_bind_eq_ok.mp done
  obtain ⟨graph, built, done⟩ := eval_bind_eq_ok.mp done
  have forest : graph.Forest f.setting known f.record none :=
    Ends.holds (SubobjectGraph.ofClass_ends work.acyclic (.of_laid work.sound.basesLaid)
      work.sound.primariesInherited fun _ => trivial) built
  have first : Move f known st _ := .plan st graph chosen used st.visitedVirtualBases
  rcases chosen with _ | primary
  · have charted := work.charted forest
    dsimp only at done
    split at done
    · obtain ⟨mid, second, done⟩ := eval_bind_eq_ok.mp done
      rw [LayoutM.eval_lift] at second
      have frame := (Ends.holds (layTablePointer_raises work.unsupplied) second).1
      have same : mid.graph = graph := by rw [frame]
      have none : mid.primaryBase = none := by rw [frame]
      obtain ⟨run, primary⟩ := directBases_moves work (same ▸ charted) done
      refine ⟨.head first (.head (.tablePointer ‹_› second) run), fun v chosen => ?_⟩
      rw [primary, none] at chosen
      cases chosen
    · obtain ⟨run, primary⟩ := directBases_moves work charted done
      refine ⟨.head first run, fun v chosen => ?_⟩
      rw [primary] at chosen
      cases chosen
  · have choice := Ends.holds (choosePrimaryBase_ends work.acyclic work.sound.basesLaid
      work.sound.primariesInherited) choice
    obtain ⟨mid, second, done⟩ := eval_bind_eq_ok.mp done
    obtain ⟨run, ⟨own, charted⟩, same, brings⟩ := layPrimaryBase_moves work forest choice second
    obtain ⟨run', primary'⟩ := directBases_moves work charted done
    refine ⟨.head first (run.trans run'), fun v chosen => ?_⟩
    rw [primary', same] at chosen
    cases chosen
    obtain ⟨alignment, le⟩ := brings rfl
    exact ⟨alignment, le.trans (run'.alignment_le work.unsupplied).1⟩

end Bases

section Pass

variable (work : Workable f known fun _ => True) (charted : Charted f.setting known f.record own g)
variable (used : ∀ u, u ∈ indirect ↔ own = some u ∨
  ∃ b, f.tree.Inherits f.record b ∧ IsPrimaryFrom f.setting known b u)
include work charted used

/-- The pass over the virtual bases is a run that leaves everything but them where it was. -/
theorem layVirtualBasesBelow_moves (acyclic : f.tree.Acyclic r) (primary : Option PrimaryBase)
    (graph : st.graph = g) (same : st.indirectPrimaryBases = indirect)
    (done : (layVirtualBasesBelow f r primary st).eval known = .ok st') :
    Moves f known st st' ∧ st' = { st with
      size := st'.size, dataSize := st'.dataSize, emptyMap := st'.emptyMap
      alignment := st'.alignment, unpackedAlignment := st'.unpackedAlignment
      virtualBaseSlots := st'.virtualBaseSlots
      visitedVirtualBases := st'.visitedVirtualBases } := by
  induction acyclic generalizing primary st st' with
  | intro r lower ih =>
  rw [layVirtualBasesBelow_eq (.intro lower)] at done
  refine Moves.foldlM (K := fun mid => mid = { st with
    size := mid.size, dataSize := mid.dataSize, emptyMap := mid.emptyMap
    alignment := mid.alignment, unpackedAlignment := mid.unpackedAlignment
    virtualBaseSlots := mid.virtualBaseSlots
    visitedVirtualBases := mid.visitedVirtualBases }) rfl ?_ done
  rintro base member mid next frame done
  have graph : mid.graph = g := by rw [frame]; exact graph
  have same : mid.indirectPrimaryBases = indirect := by rw [frame]; exact same
  -- The search below the base, once the base itself has been dealt with.
  have search {mid : State} (graph : mid.graph = g) (same : mid.indirectPrimaryBases = indirect)
      (done : (do
        if !f.tree.hasVirtualBases base.record then return mid
        layVirtualBasesBelow f base.record (← layoutOf base.record).primaryBase? mid
          : LayoutM State).eval known = .ok next) :
      Moves f known mid next ∧ next = { mid with
        size := next.size, dataSize := next.dataSize, emptyMap := next.emptyMap
        alignment := next.alignment, unpackedAlignment := next.unpackedAlignment
        virtualBaseSlots := next.virtualBaseSlots
        visitedVirtualBases := next.visitedVirtualBases } := by
    split at done
    · cases done
      exact ⟨.refl, rfl⟩
    · obtain ⟨layout, _, done⟩ := eval_bind_eq_ok.mp done
      exact ih base.record ⟨base, member, rfl⟩ _ graph same done
  dsimp only at done
  split at done
  · cases done
    exact ⟨.refl, frame⟩
  · split at done
    · rename_i isDue
      obtain ⟨p, found, done⟩ := eval_bind_eq_ok.mp done
      obtain ⟨laid, placed, done⟩ := eval_bind_eq_ok.mp done
      rw [LayoutM.eval_lift, SubobjectGraph.virtualBase] at found
      split at found
      · rename_i p found'
        cases found
        simp only [same, Bool.and_eq_true, Bool.not_eq_true', List.contains_eq_mem,
          decide_eq_false_iff_not] at isDue
        have root := due_isRoot charted used (graph ▸ found') isDue.2
        have frame' := layVirtualBase_frame work placed
        obtain ⟨run, later⟩ := search (by rw [frame']; exact graph) (by rw [frame']; exact same) done
        refine ⟨.head (.plan mid mid.graph mid.primaryBase mid.indirectPrimaryBases _)
          (.head (.virtualBase (by rw [graph]; exact charted) (by rw [graph]; exact root) placed)
            run), ?_⟩
        rw [later, frame', frame]
      · cases found
    · obtain ⟨run, later⟩ := search graph same done
      exact ⟨run, by rw [later, frame]⟩

end Pass

section Whole

variable {tracking : Tracking} {layout : RecordLayout}

/-- A class layout with the run that it is the result of. The state `fixed` is that before the pass
over the virtual bases, `st` that after it. -/
structure ClassRun (f : Frame) (known : Known) (tracking : Tracking) (start fixed st : State)
    (layout : RecordLayout) : Prop where
  fresh : Fresh f known start
  empty : start.size = 0 ∧ start.dataSize = 0
  part : ∃ map part, (EmptyMap.ofClass f.setting tracking f.record).eval known = .ok map ∧
    start.emptyMap = some map ∧ layout.asClass = some part ∧
    part.largestEmptySubobject = map.largest ∧ part.nonVirtualAlignment = fixed.alignment ∧
    part.primaryBase = fixed.primaryBase ∧ part.baseOffsets = fixed.baseOffsets ∧
    part.virtualBaseSlots = st.virtualBaseSlots
  direct : Moves f known start fixed
  virtual : Moves f known fixed st
  primary : ∀ v, fixed.primaryBase = some ⟨v, true⟩ → ∃ alignment,
    f.raised alignment (f.clamp (f.baseAlignment known v)) ≤ fixed.alignment
  finished : ∃ last, (finish f st).eval known = .ok last ∧ layout.size = last.sizeInBytes
  alignment : layout.alignment = st.alignment
  fieldOffsets : layout.fieldOffsets = fixed.fieldOffsets

theorem layClass_runs (work : Workable f known fun _ => True) :
    Ends (fun _ => True) ((layClass f tracking).eval known) fun layout =>
      ∃ start fixed st, ClassRun f known tracking start fixed st layout := by
  unfold layClass
  refine ends_bind Ends.any fun map built => ends_lift_bind Ends.any fun start begun => ?_
  refine ends_bind Ends.any fun mid bases => ends_bind Ends.any fun fixed fields => ?_
  refine ends_bind Ends.any fun st pass => ends_bind Ends.any fun last finished => ?_
  obtain ⟨_, empty, large⟩ := Ends.holds (ofClass_ends work.sound tracking) built
  obtain ⟨fresh, none, unvisited, small, mapped, _⟩ := Ends.holds (initial_ends known work.unsupplied (some map)
    (fun _ _ => .inr trivial) (fun map' same => by cases same; exact ⟨empty, large⟩)
    fun _ => rfl) begun
  obtain ⟨own, g, pieces, nonVirtual⟩ :=
    Ends.holds (layNonVirtualBases_ends work fresh none unvisited) bases
  obtain ⟨run, primary⟩ := layNonVirtualBases_moves work bases
  have entries : f.declaration.fields.zipIdx = [] ++ f.declaration.fields.zipIdx ++ [] := by simp
  obtain ⟨run', _, _, same⟩ := layAnyFields_moves work.unsupplied entries
    (by rw [nonVirtual.direct.fieldOffsets]; rfl) fields
  have graph : fixed.graph = g := by
    rw [same]
    exact nonVirtual.direct.progress.laid.graph
  obtain ⟨run'', same'⟩ := layVirtualBasesBelow_moves work nonVirtual.charted nonVirtual.indirect
    work.acyclic _ graph (by rw [same]) pass
  obtain ⟨size, frame'⟩ := (Ends.holds (finish_ends work.unsupplied) finished).frame
  refine ⟨start, fixed, st, fresh, ⟨small, none⟩,
    ⟨map, _, built, mapped, rfl, rfl, rfl, ?_, ?_, ?_⟩, run.trans run', run'', ?_,
    ⟨last, finished, rfl⟩, ?_, ?_⟩
  · rw [frame', same']
  · rw [frame', same']
  · rw [frame']
  · intro v chosen
    obtain ⟨alignment, le⟩ := primary v (by rw [same] at chosen; exact chosen)
    exact ⟨alignment, le.trans (run'.alignment_le work.unsupplied).1⟩
  · rw [frame']
  · rw [frame', same']

/-- The layout of a record that is no class, with the run that it is the result of. -/
structure PlainRun (f : Frame) (known : Known) (start st : State) (layout : RecordLayout) : Prop where
  fresh : Fresh f known start
  fields : Moves f known start st
  asClass : layout.asClass = none
  alignment : layout.alignment = st.alignment
  fieldOffsets : layout.fieldOffsets = st.fieldOffsets

theorem layPlain_runs (unsupplied : f.supplied = none) (plain : f.declaration.isClass = false) :
    Ends (fun _ => True) ((layPlain f).eval known) fun layout =>
      ∃ start st, PlainRun f known start st layout := by
  unfold layPlain
  refine ends_lift_bind Ends.any fun start begun => ends_bind Ends.any fun st fields => ?_
  refine ends_bind (finish_ends unsupplied) fun last finished => ?_
  obtain ⟨fresh, _⟩ := Ends.holds (initial_ends known unsupplied none (fun _ _ => .inr trivial) nofun
    fun isClass => by simp [plain] at isClass) begun
  have entries : f.declaration.fields.zipIdx = [] ++ f.declaration.fields.zipIdx ++ [] := by simp
  obtain ⟨run, _⟩ := layAnyFields_moves unsupplied entries (by rw [fresh.fieldOffsets]; rfl) fields
  obtain ⟨size, rfl⟩ := finished.frame
  exact ⟨start, st, fresh, run, rfl, rfl, rfl⟩

end Whole

end ObjectLayout.Itanium
