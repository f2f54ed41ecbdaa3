import ObjectLayout.Proofs.Itanium.Abreast.Fields
import ObjectLayout.Proofs.Itanium.Abreast.NonVirtual
import ObjectLayout.Proofs.Itanium.Whole

/-! Two whole layouts abreast: their start, before anything was placed, the pass over the virtual bases
and the end. -/
namespace ObjectLayout

open LayoutM (Mirrors Follows layoutOf eval_bind_eq_ok)

namespace Itanium

variable {f : Frame} {known : Known} {lax : Prop} {st st' : State} {d' r : RecordId}
variable {map map' : Option EmptyMap} {front : Nat}

section Start

theorem initial_withMap (unsupplied : f.supplied = none) (map map' : Option EmptyMap) :
    State.initial f map' = (State.withMap · map') <$> State.initial f map := by
  unfold State.initial
  rw [unsupplied]
  cases f.isMac68k with
  | true => rfl
  | false =>
    cases f.declaration.attributes.alignment with
    | none => rfl
    | some alignment =>
      have raised : State.raiseAlignment f { emptyMap := map' } alignment alignment =
          (State.withMap · map') <$> State.raiseAlignment f { emptyMap := map } alignment alignment :=
        blind_raiseAlignment (f := f) alignment alignment { emptyMap := map } map'
      change (State.raiseAlignment f { emptyMap := map' } alignment alignment >>= _) =
        _ <$> (State.raiseAlignment f { emptyMap := map } alignment alignment >>= _)
      rw [raised]
      cases State.raiseAlignment f { emptyMap := map } alignment alignment <;> rfl

/-- Of what is declared only the attributes matter for the start. -/
theorem initial_attributes (same : (f.tree.record r).attributes = f.declaration.attributes)
    (map : Option EmptyMap) : State.initial { f with record := r } map = State.initial f map := by
  have attributes : ({ f with record := r } : Frame).declaration.attributes =
      f.declaration.attributes := same
  unfold State.initial
  rw [attributes]
  rfl

end Start

section Pass

variable {own : Option RecordId} {g : SubobjectGraph} {indirect : List RecordId}

/-- Two states of the pass over the virtual bases of one class. A union has none. -/
structure Passing (f : Frame) (known : Known) (lax : Prop) (g : SubobjectGraph)
    (indirect : List RecordId) (a b : State) : Prop where
  abreast : ∃ front, Abreast f known lax f.record front a b ∧ (f.isUnion = false → front ≤ a.dataSize)
  graph : a.graph = g
  indirect : a.indirectPrimaryBases = indirect

variable (shared : Shared f known f.record own g)
variable (used : ∀ u, u ∈ indirect ↔ own = some u ∨
  ∃ b, f.tree.Inherits f.record b ∧ IsPrimaryFrom f.setting known b u)
include shared used

theorem layDue_abreast {v : RecordId} (h : Passing f known lax g indirect st st')
    (due : v ∉ indirect) : Mirrors known lax (Passing f known lax g indirect)
      (do
        layVirtualBase f (← st.graph.virtualBase v)
          { st with visitedVirtualBases := st.visitedVirtualBases ++ [v] } : LayoutM State)
      (do
        layVirtualBase f (← st'.graph.virtualBase v)
          { st' with visitedVirtualBases := st'.visitedVirtualBases ++ [v] }) := by
  obtain ⟨front, abreast, within⟩ := h.abreast
  obtain ⟨map', rfl⟩ : ∃ map', st' = st.withMap map' := ⟨_, abreast.frame⟩
  refine .bind_same fun p found => ?_
  rw [LayoutM.eval_lift, h.graph, SubobjectGraph.virtualBase] at found
  split at found
  · rename_i p found'
    cases found
    have root := due_isRoot shared.charted used found' due
    cases union : f.isUnion with
    | true =>
      intro a done
      unfold layVirtualBase at done
      obtain ⟨_, no, _⟩ := eval_bind_eq_ok.mp done
      rw [LayoutM.eval_ensure] at no
      simp [union, ensure_eq_ok] at no
    | false =>
      have next : Abreast f known lax f.record st.dataSize
          { st with visitedVirtualBases := st.visitedVirtualBases ++ [v] }
          { st.withMap map' with visitedVirtualBases := st.visitedVirtualBases ++ [v] } :=
        ⟨rfl, (abreast.mono (within union)).maps⟩
      have placed : Mirrors known lax (Together f known lax f.record
          { st with visitedVirtualBases := st.visitedVirtualBases ++ [v] }) _ _ :=
        layVirtualBase_abreast shared root next h.graph
      refine placed.imp fun a b _ _ both =>
        ⟨⟨a.dataSize, both.abreast, fun _ => le_rfl⟩, both.graph.trans h.graph, ?_⟩
      have rest := SameRest.of_eq both.rest
      exact rest.indirectPrimaryBases.trans h.indirect
  · cases found

theorem layVirtualBasesBelow_abreast (acyclic : f.tree.Acyclic r) (primary : Option PrimaryBase)
    (h : Passing f known lax g indirect st st') :
    Mirrors known lax (Passing f known lax g indirect) (layVirtualBasesBelow f r primary st)
      (layVirtualBasesBelow f r primary st') := by
  induction acyclic generalizing primary st st' with
  | intro r lower ih =>
  have acyclic : f.tree.Acyclic r := .intro lower
  rw [layVirtualBasesBelow_eq acyclic, layVirtualBasesBelow_eq acyclic]
  refine .foldlM h fun base member a b passing => ?_
  have edge : f.tree.Inherits r base.record := ⟨base, member, rfl⟩
  -- The search below the base, once the base itself has been dealt with.
  have search {a b : State} (passing : Passing f known lax g indirect a b) :
      Mirrors known lax (Passing f known lax g indirect)
        (do
          if !f.tree.hasVirtualBases base.record then return a
          layVirtualBasesBelow f base.record (← layoutOf base.record).primaryBase? a
            : LayoutM State)
        (do
          if !f.tree.hasVirtualBases base.record then return b
          layVirtualBasesBelow f base.record (← layoutOf base.record).primaryBase? b) :=
    .ite (fun _ => .pure passing) fun _ => .bind_same fun layout _ => ih base.record edge _ passing
  obtain ⟨_, abreast, _⟩ := passing.abreast
  have claimed : b.indirectPrimaryBases = a.indirectPrimaryBases := by rw [abreast.frame]
  have visited : b.visitedVirtualBases.contains base.record =
      a.visitedVirtualBases.contains base.record := by
    rw [abreast.frame]
  have alike : (base.isVirtual && primary != some ⟨base.record, true⟩ &&
      !b.indirectPrimaryBases.contains base.record) = (base.isVirtual &&
      primary != some ⟨base.record, true⟩ && !a.indirectPrimaryBases.contains base.record) := by
    rw [claimed]
  dsimp only
  rw [alike, visited]
  generalize isDue : (base.isVirtual && primary != some ⟨base.record, true⟩ &&
    !a.indirectPrimaryBases.contains base.record) = due
  refine .ite (fun _ => .pure passing) fun _ => ?_
  cases due with
  | false =>
    simp only [Bool.false_eq_true, if_false, pure_bind]
    exact search passing
  | true =>
    simp only [passing.indirect, Bool.and_eq_true, Bool.not_eq_true', List.contains_eq_mem,
      decide_eq_false_iff_not] at isDue
    have both := (layDue_abreast shared used passing isDue.2).bind fun a b _ _ passing =>
      search passing
    simpa only [if_true, bind_assoc] using both

end Pass

section Finish

theorem blind_avoidSizeZero : Blind (·.avoidSizeZero f) := by
  intro st map
  unfold State.avoidSizeZero
  dsimp only
  change (if (f.setting.options.cplusplus && st.size == 0 && _) = true then _ else _) = _
  split
  · exact blind_setSize (fun _ => 1) (fun _ _ => rfl) st map
  · rfl

theorem reportSize_abreast (h : Abreast f known lax d' front st st') (unpadded unpacked : Bits) :
    Mirrors known lax (fun _ _ => True) (reportSize f st unpadded unpacked)
      (reportSize f st' unpadded unpacked) := by
  obtain ⟨map', rfl⟩ : ∃ map', st' = st.withMap map' := ⟨_, h.frame⟩
  exact (Mirrors.refl (reportSize f st unpadded unpacked)).imp fun _ _ _ _ _ => trivial

theorem finish_abreast (unsupplied : f.supplied = none) (h : Abreast f known lax d' front st st') :
    Mirrors known lax (Abreast f known lax d' front) (finish f st) (finish f st') := by
  unfold finish
  refine (h.blind blind_avoidSizeZero).bind fun st₁ st₁' _ _ abreast => ?_
  obtain ⟨map', rfl⟩ : ∃ map', st₁' = st₁.withMap map' := ⟨_, abreast.frame⟩
  refine .bind_same fun _ _ => .bind_same fun _ _ => .bind_same fun _ _ => ?_
  refine .bind_same fun _ _ => .bind_same fun rounded _ => ?_
  rw [unsupplied]
  have rounded := abreast.step (fun st => { st with size := rounded }) (fun _ _ => rfl) rfl
  exact (reportSize_abreast rounded _ _).bind fun _ _ _ _ _ => .pure rounded

end Finish

end Itanium

end ObjectLayout
