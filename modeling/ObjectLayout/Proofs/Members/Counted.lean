import ObjectLayout.Proofs.Itanium.Supplied.Adopted
import ObjectLayout.Proofs.Microsoft.Offsets

/-! A finished layout has an offset for each field, under both sets of rules and with or without a
supplied layout. -/
namespace ObjectLayout

namespace Itanium

open LayoutM (ends_bind ends_lift_bind eval_bind_eq_ok)

variable {f : Frame} {known : Known} {st : State}

theorem layFields_counted (fresh : st.fieldOffsets = []) :
    Ends (fun _ => True) ((layFields f st).eval known) fun st' =>
      st'.fieldOffsets.length = f.declaration.fields.length := by
  unfold layFields
  rw [LayoutM.eval_foldlM]
  rw [← List.length_zipIdx]
  refine Ends.foldlM (K := fun done _ (st' : State) => st'.fieldOffsets.length = done.length)
    (by rw [fresh]; rfl) fun done entry rest st₁ _ sofar => ?_
  refine layAnyField_takes.imp fun st₂ taken => ?_
  obtain ⟨offset, appended⟩ := taken.appends
  rw [appended, List.length_append, List.length_append, sofar]
  rfl

/-- Nothing has been placed at the start. -/
theorem initial_empty (map : Option EmptyMap) :
    Ends (fun _ => True) (State.initial f map) fun st => st.fieldOffsets = [] ∧ st.graph = {} :=
  (initial_resizes map).imp fun st same => by
    rw [same]
    exact ⟨rfl, rfl⟩

theorem layNonVirtualBases_keeps :
    Ends (fun _ => True) ((layNonVirtualBases f st).eval known) (Keeps st) := by
  cases given : f.supplied with
  | none =>
    have replays : Replays known { size := 0 } st (layNonVirtualBases f st) _ :=
      layNonVirtualBases_replays given
    exact replays.imp fun _ ⟨keeps, _⟩ => keeps
  | some supplied => exact (layNonVirtualBases_adopts given).imp fun _ ⟨steps, _⟩ => steps.keeps

theorem layVirtualBases_keeps (sorted : st.graph.Sorted) :
    Ends (fun _ => True) ((layVirtualBases f st).eval known) (Keeps st) := by
  cases given : f.supplied with
  | none =>
    have replays : Replays known { size := 0 } st (layVirtualBases f st) _ :=
      layVirtualBases_replays given sorted
    exact replays.imp fun _ ⟨keeps, _⟩ => keeps
  | some supplied => exact (layVirtualBases_adopts given).imp fun _ steps => steps.keeps

theorem layFields_graph :
    Ends (fun _ => True) ((layFields f st).eval known) fun st' => st'.graph = st.graph :=
  layFields_frame.imp fun _ frame => by rw [frame]

theorem finish_fields : Ends (fun _ => True) ((finish f st).eval known) fun st' =>
    st'.fieldOffsets = st.fieldOffsets :=
  finish_resizes.imp fun _ resizes => by rw [resizes]

theorem layPlain_counted : Ends (fun _ => True) ((layPlain f).eval known) fun layout =>
    layout.fieldOffsets.length = f.declaration.fields.length := by
  unfold layPlain
  refine ends_lift_bind (initial_empty none) fun st₀ ⟨fresh, _⟩ => ?_
  refine ends_bind (layFields_counted fresh) fun st₁ counted => ?_
  exact ends_bind finish_fields fun st₂ same => (congrArg List.length same).trans counted

theorem layClass_counted (tracking : Tracking) :
    Ends (fun _ => True) ((layClass f tracking).eval known) fun layout =>
      layout.fieldOffsets.length = f.declaration.fields.length := by
  unfold layClass
  refine ends_bind Ends.any fun map _ => ends_lift_bind (initial_empty _) fun st₀ ⟨fresh, graph⟩ => ?_
  refine ends_bind layNonVirtualBases_keeps fun st₁ keeps => ?_
  have fresh₁ := keeps.fields.trans fresh
  refine ends_bind Ends.any fun fixed done => ?_
  have counted := Ends.holds (layFields_counted fresh₁) done
  have same := Ends.holds layFields_graph done
  have sorted : fixed.graph.Sorted := by
    rw [same]
    apply keeps.sorted
    rw [graph]
    exact SubobjectGraph.sorted_empty
  refine ends_bind (layVirtualBases_keeps sorted) fun st₂ keeps' => ?_
  refine ends_bind finish_fields fun st₃ same' => ?_
  change st₃.fieldOffsets.length = _
  rw [same', keeps'.fields, counted]

theorem layout_counted {s : Setting} {r : RecordId} {supplied : Option SuppliedLayout}
    {layout : RecordLayout} (laid : (Itanium.layout s r supplied).eval known = .ok layout) :
    layout.fieldOffsets.length = (s.tree.record r).fields.length := by
  unfold Itanium.layout layoutTracking at laid
  dsimp only at laid
  split at laid
  · exact (layClass_counted .pruned).holds laid
  · exact layPlain_counted.holds laid

end Itanium

variable {s : Setting} {r : RecordId} {layout : RecordLayout} {known : Known}

theorem RecordLayout.ofRecord_counted (laid : (RecordLayout.ofRecord s r).eval known = .ok layout) :
    layout.fieldOffsets.length = (s.tree.record r).fields.length := by
  cases rules : s.usesMicrosoftLayout with
  | false => exact Itanium.layout_counted (RecordLayout.ofRecord_itanium rules laid).2
  | true =>
    cases isClass : (s.tree.record r).isClass with
    | true =>
      obtain ⟨run, rfl⟩ := Microsoft.classRun rules isClass laid
      exact run.hasOffsets.counted
    | false =>
      obtain ⟨run, rfl⟩ := Microsoft.plainRun rules isClass laid
      exact run.counted

end ObjectLayout
