import ObjectLayout.Proofs.Itanium.Abreast.Bases

/-! The table pointer and the non-virtual bases of two classes with the same bases, laid out abreast.
Both have the same primary base and the same graph of base subobjects. -/
namespace ObjectLayout

/-- Two classes with the same bases, both dynamic or neither. -/
structure SameBases (s : Setting) (d d' : RecordId) : Prop where
  bases : (s.tree.record d').bases = (s.tree.record d).bases
  dynamic : s.tree.isDynamic d' = s.tree.isDynamic d

namespace SameBases

variable {s : Setting} {d d' : RecordId}

theorem refl (s : Setting) (d : RecordId) : SameBases s d d := ⟨rfl, rfl⟩

variable (h : SameBases s d d')
include h

theorem nonVirtualBases : (s.tree.record d').nonVirtualBases = (s.tree.record d).nonVirtualBases := by
  rw [Record.nonVirtualBases, h.bases]
  rfl

theorem hasVirtualBases : s.tree.hasVirtualBases d' = s.tree.hasVirtualBases d := by
  unfold Tree.hasVirtualBases Tree.virtualBases Tree.descend descendWithin
  rw [h.bases]

theorem hasVirtualBase {v : RecordId} (has : s.tree.HasVirtualBase d v) :
    s.tree.HasVirtualBase d' v := by
  rw [Tree.hasVirtualBase_iff] at has ⊢
  rwa [h.bases]

theorem ofClass : SubobjectGraph.ofClass s d' = SubobjectGraph.ofClass s d := by
  unfold SubobjectGraph.ofClass
  rw [h.bases]

theorem choosePrimaryBase : Itanium.choosePrimaryBase s d' = Itanium.choosePrimaryBase s d := by
  have search (used : List RecordId) (found : Itanium.Candidates) :
      Itanium.searchNearlyEmpty s used d' found = Itanium.searchNearlyEmpty s used d found := by
    unfold Itanium.searchNearlyEmpty Tree.descend descendWithin
    rw [h.bases]
  unfold Itanium.choosePrimaryBase Itanium.indirectPrimaryBases Itanium.firstDynamicBase?
  simp only [h.dynamic, h.bases, h.nonVirtualBases, h.hasVirtualBases, search]

end SameBases

namespace Itanium

open LayoutM (Mirrors Follows layoutOf eval_bind_eq_ok)

variable {f : Frame} {known : Known} {lax : Prop} {g : SubobjectGraph} {st st' : State}
variable {d' : RecordId} {own : Option RecordId} {i : SubobjectId} {primary : PrimaryBase}

theorem layTablePointer_abreast (h : Abreast f known lax d' st.dataSize st st') :
    Mirrors known lax (Together f known lax d' st) (liftM (layTablePointer f st) : LayoutM State)
      (liftM (layTablePointer f st')) := by
  refine (h.blind blind_layTablePointer).imp fun a b done _ abreast => ?_
  rw [LayoutM.eval_lift] at done
  unfold layTablePointer at done
  obtain ⟨_, start, done⟩ := except_bind_eq_ok.mp done
  obtain ⟨offset, _, done⟩ := except_bind_eq_ok.mp done
  obtain ⟨bits, _, done⟩ := except_bind_eq_ok.mp done
  obtain ⟨raised, grown, done⟩ := except_bind_eq_ok.mp done
  obtain ⟨stop, _, done⟩ := except_bind_eq_ok.mp done
  obtain ⟨stopBits, _, done⟩ := except_bind_eq_ok.mp done
  cases done
  have frame := (Ends.holds (raiseAlignment_ends (.inr trivial) (.inr trivial)) grown).frame
  have first : st.dataSize = 0 := by simpa using ensure_eq_ok.mp start
  exact ⟨Abreast.mono abreast (by rw [first]; exact Nat.zero_le _), by rw [frame], by rw [frame]; rfl⟩

section Loop

variable (shared : Shared f known d' own g)
include shared

/-- The loop over the direct non-virtual bases. -/
theorem directBases_abreast (same : SameBases f.setting f.record d')
    (h : Abreast f known lax d' st.dataSize st st') (graph : st.graph = g) :
    Mirrors known lax (fun a b => Abreast f known lax d' a.dataSize a b ∧ a.graph = g ∧
        a.rest = st.rest)
      (f.declaration.nonVirtualBases.foldlM (m := LayoutM) (fun st base => do
        if isNonVirtualPrimary st base.record then return st
        layNonVirtualBase f (← st.graph.nonVirtualBase base.record) st) st)
      ((f.tree.record d').nonVirtualBases.foldlM (m := LayoutM) (fun st base => do
        if isNonVirtualPrimary st base.record then return st
        layNonVirtualBase f (← st.graph.nonVirtualBase base.record) st) st') := by
  have bases : (f.tree.record d').nonVirtualBases = f.declaration.nonVirtualBases :=
    same.nonVirtualBases
  rw [bases]
  refine .foldlM ⟨h, graph, rfl⟩ ?_
  rintro base _ st₁ st₁' ⟨h₁, graph₁, rest₁⟩
  obtain ⟨map', rfl⟩ : ∃ map', st₁' = st₁.withMap map' := ⟨_, h₁.frame⟩
  change Mirrors known lax _ (if isNonVirtualPrimary st₁ base.record = true then _ else _)
    (if isNonVirtualPrimary st₁ base.record = true then _ else _)
  refine .ite (fun _ => .pure ⟨h₁, graph₁, rest₁⟩) fun _ => ?_
  refine .bind_same fun i found => ?_
  rw [LayoutM.eval_lift, graph₁, SubobjectGraph.nonVirtualBase] at found
  split at found
  · rename_i i found'
    cases found
    have root := shared.charted.forest.direct_isRoot found'
    exact (layNonVirtualBase_abreast shared root h₁ graph₁).imp fun a b _ _ next =>
      ⟨next.abreast, next.graph.trans graph₁, next.rest.trans rest₁⟩
  · cases found

end Loop

section Primary

variable (work : Workable f known fun _ => True)
variable (work' : Workable { f with record := d' } known fun _ => True)
variable (same : SameBases f.setting f.record d')
include work work' same

/-- The primary base, with the graph that the bases after it are looked up in. -/
theorem layPrimaryBase_abreast (h : Abreast f known lax d' st.dataSize st st')
    (forest : st.graph.Forest f.setting known f.record none)
    (forest' : st.graph.Forest f.setting known d' none)
    {used : List RecordId} (choice : PrimaryChoice f.setting known f.record (some primary) used) :
    Mirrors known lax (fun a b => Abreast f known lax d' a.dataSize a b ∧
        ∃ own, Shared f known d' own a.graph)
      (layPrimaryBase f primary st) (layPrimaryBase f primary st') := by
  obtain ⟨map', rfl⟩ : ∃ map', st' = st.withMap map' := ⟨_, h.frame⟩
  have shared : Shared f known d' none st.graph :=
    ⟨work, work', work.charted forest, work'.charted forest'⟩
  obtain ⟨b, _ | _⟩ := primary
  · refine .bind_same fun i found => ?_
    rw [LayoutM.eval_lift, SubobjectGraph.nonVirtualBase] at found
    split at found
    · rename_i i found'
      cases found
      have root := forest.direct_isRoot found'
      exact (layNonVirtualBase_abreast shared root h rfl).imp fun a b _ _ next =>
        ⟨next.abreast, none, by rw [next.graph]; exact shared⟩
    · cases found
  · obtain ⟨has, _⟩ := choice.virtual b rfl
    obtain ⟨g, i, stolen, stolenForest, found, _⟩ := forest.steal has
    obtain ⟨g', i', stolen', stolenForest', _⟩ := forest'.steal (same.hasVirtualBase has)
    rw [stolen] at stolen'
    cases stolen'
    obtain ⟨there, record, virt⟩ := stolenForest.found b i found
    have root := SubobjectGraph.free_isRoot there virt (stolenForest.free i there (by rw [record]))
    have shared' : Shared f known d' (some b) g :=
      ⟨work, work', work.charted stolenForest, work'.charted stolenForest'⟩
    refine .bind_same fun result stolen' => ?_
    rw [LayoutM.eval_lift, stolen] at stolen'
    cases stolen'
    refine .bind_same fun _ _ => ?_
    have abreast : Abreast f known lax d' st.dataSize
        { st with
          graph := g
          indirectPrimaryBases := appendNew st.indirectPrimaryBases [b]
          visitedVirtualBases := st.visitedVirtualBases ++ [b] }
        { st.withMap map' with
          graph := g
          indirectPrimaryBases := appendNew st.indirectPrimaryBases [b]
          visitedVirtualBases := st.visitedVirtualBases ++ [b] } := ⟨rfl, h.maps⟩
    exact (layVirtualBase_abreast shared' root abreast rfl).imp fun a b _ _ next =>
      ⟨next.abreast, _, by rw [next.graph]; exact shared'⟩

/-- After the non-virtual bases the states are still abreast. -/
theorem layNonVirtualBases_abreast (h : Abreast f known lax d' st.dataSize st st') :
    Mirrors known lax (fun a b => Abreast f known lax d' a.dataSize a b)
      (layNonVirtualBases f st) (layNonVirtualBases { f with record := d' } st') := by
  obtain ⟨map', rfl⟩ : ∃ map', st' = st.withMap map' := ⟨_, h.frame⟩
  unfold layNonVirtualBases
  change Mirrors known lax _ (choosePrimaryBase f.setting f.record >>= _)
    (choosePrimaryBase f.setting d' >>= _)
  rw [same.choosePrimaryBase]
  refine .bind_same ?_
  rintro ⟨chosen, used⟩ choice
  change Mirrors known lax _ (SubobjectGraph.ofClass f.setting f.record >>= _)
    (SubobjectGraph.ofClass f.setting d' >>= _)
  have forest {f : Frame} (work : Workable f known fun _ => True) {graph}
      (built : (SubobjectGraph.ofClass f.setting f.record).eval known = .ok graph) :
      graph.Forest f.setting known f.record none :=
    Ends.holds (SubobjectGraph.ofClass_ends work.acyclic (.of_laid work.sound.basesLaid)
      work.sound.primariesInherited fun _ => trivial) built
  rw [same.ofClass]
  refine .bind_same fun graph built => ?_
  have whole := forest work built
  have whole' : graph.Forest f.setting known d' none := forest work' (same.ofClass ▸ built)
  have shared : Shared f known d' none graph :=
    ⟨work, work', work.charted whole, work'.charted whole'⟩
  have start : Abreast f known lax d' st.dataSize
      { st with primaryBase := chosen, indirectPrimaryBases := used, graph }
      { st.withMap map' with primaryBase := chosen, indirectPrimaryBases := used, graph } :=
    ⟨rfl, h.maps⟩
  have loop {a b : State} (next : Abreast f known lax d' a.dataSize a b ∧
      ∃ own, Shared f known d' own a.graph) := next.2.elim fun _ shared =>
    (directBases_abreast shared same next.1 rfl).imp fun _ _ _ _ next => next.1
  rcases chosen with _ | primary
  · change Mirrors known lax _
      (if f.tree.isDynamic f.record = true then (liftM (layTablePointer f _) : LayoutM State) >>= _
        else _)
      (if f.tree.isDynamic d' = true then (liftM (layTablePointer f _) : LayoutM State) >>= _ else _)
    rw [show f.tree.isDynamic d' = f.tree.isDynamic f.record from same.dynamic]
    refine .ite (fun _ => ?_) fun _ => loop ⟨start, none, shared⟩
    exact (layTablePointer_abreast start).bind fun a b _ _ next =>
      loop ⟨next.abreast, none, by rw [next.graph]; exact shared⟩
  · have primary := Ends.holds (choosePrimaryBase_ends work.acyclic work.sound.basesLaid
      work.sound.primariesInherited) choice
    exact (layPrimaryBase_abreast work work' same start whole whole' primary).bind
      fun a b _ _ next => loop next

end Primary

end Itanium

end ObjectLayout
