import ObjectLayout.Proofs.Itanium.Abreast.Whole
import ObjectLayout.Proofs.Itanium.CompleteObjects

/-! A class laid out with a map that prunes and with one that keeps everything. Both maps are asked the
same and answer the same, so it does not show in the layout which of them was used. -/
namespace ObjectLayout

open LayoutM (Mirrors layoutOf)

namespace Itanium

variable {f : Frame} {known : Known} {lax : Prop} {tracking tracking' : Tracking}

/-- A map that was just made knows all that was placed: nothing. -/
theorem ofClass_kept (sound : SoundBelow f.setting known f.record) {map : EmptyMap}
    (built : (EmptyMap.ofClass f.setting tracking f.record).eval known = .ok map) :
    map.tracking = tracking ∧ Kept f.setting known f.record (fun _ => False) 0 map := by
  obtain ⟨same, empty, large⟩ := Ends.holds (ofClass_ends sound tracking) built
  refine ⟨same, ?_, fun _ => False.elim, fun _ _ => False.elim, large, ?_⟩
  · intro e member
    rw [empty] at member
    cases member
  · intro e member
    rw [empty] at member
    cases member

theorem ofClass_alike (sound : SoundBelow f.setting known f.record)
    (cplusplus : f.setting.options.cplusplus = true) (counts : lax ∨ tracking' = .full) :
    Mirrors known lax (fun map map' => Alike f.setting known lax f.record f.record 0 map map' ∧
        map'.largest = map.largest)
      (EmptyMap.ofClass f.setting tracking f.record)
      (EmptyMap.ofClass f.setting tracking' f.record) := by
  refine Mirrors.imp (R := fun map map' => map'.largest = map.largest) ?_ fun map map' built built' same =>
    ⟨⟨?_, .inl ⟨cplusplus, _, (ofClass_kept sound built).2, (ofClass_kept sound built').2⟩⟩, same⟩
  · unfold EmptyMap.ofClass
    exact .bind_same fun _ _ => .pure rfl
  · exact counts.imp_right (ofClass_kept sound built').1.trans

/-- Whichever way a class keeps track of its empty subobjects, it gets the same layout. -/
theorem layClass_abreast (work : Workable f known fun _ => True)
    (cplusplus : f.setting.options.cplusplus = true) (counts : lax ∨ tracking' = .full) :
    Mirrors known lax Eq (layClass f tracking) (layClass f tracking') := by
  unfold layClass
  refine (ofClass_alike work.sound cplusplus counts).bind fun map map' built _ ⟨alike, same⟩ => ?_
  obtain ⟨_, empty, large⟩ := Ends.holds (ofClass_ends work.sound tracking) built
  have start : Mirrors known lax (fun a b => b = a.withMap (some map') ∧ a.emptyMap = some map)
      (liftM (State.initial f (some map)) : LayoutM State) (liftM (State.initial f (some map'))) :=
    .lift fun a done => by
      have keeps := initial_withMap work.unsupplied (some map) (some map)
      rw [done] at keeps
      rw [initial_withMap work.unsupplied (some map), done]
      have keeps : a = a.withMap (some map) := Except.ok.inj keeps
      exact ⟨rfl, by rw [keeps]; rfl⟩
  refine start.bind fun st₀ st₀' done₀ _ ⟨moved, mapped⟩ => ?_
  subst moved
  rw [LayoutM.eval_lift] at done₀
  obtain ⟨fresh, none, unvisited, _⟩ := Ends.holds (initial_ends known work.unsupplied (some map)
    (fun _ _ => .inr trivial) (fun map' same => by cases same; exact ⟨empty, large⟩)
    fun _ => rfl) done₀
  have abreast₀ : Abreast f known lax f.record st₀.dataSize st₀ (st₀.withMap (some map')) := by
    refine ⟨rfl, ?_⟩
    rw [mapped]
    exact .some (alike.mono (Nat.zero_le _))
  refine (layNonVirtualBases_abreast work work (.refl _ _) abreast₀).bind
    fun st₁ st₁' done₁ _ abreast₁ => ?_
  obtain ⟨own, g, pieces, nonVirtual⟩ :=
    Ends.holds (layNonVirtualBases_ends work fresh none unvisited) done₁
  have direct := nonVirtual.direct
  have used : st₁.used = st₁.dataSize := by rw [State.used, direct.unfilledBits, Nat.sub_zero]
  have remaining : st₁.unfilledBits ≤ st₁.dataSize := by
    rw [direct.unfilledBits]
    exact Nat.zero_le _
  have level : Level f known lax f.record st₁ st₁' :=
    ⟨⟨_, abreast₁, fun _ => used.ge⟩, fun _ => remaining⟩
  refine (layAnyFields_abreast level fun entry member =>
    have declared := List.fst_mem_of_mem_zipIdx member
    ⟨work, work, declared, declared⟩).bind fun fixed fixed' done₂ _ level => ?_
  obtain ⟨added, fields, _⟩ := Ends.holds (layFields_ends work (used ▸ direct.progress)
    direct.fieldOffsets fun _ => remaining) done₂
  have rest := SameRest.of_eq fields.rest
  obtain ⟨front, abreast₂, within⟩ := level.abreast
  have passing : Passing f known lax g st₁.indirectPrimaryBases fixed fixed' :=
    ⟨⟨front, abreast₂, fun notUnion => (within notUnion).trans (Nat.sub_le _ _)⟩,
      fields.progress.laid.graph, rest.indirectPrimaryBases⟩
  have shared : Shared f known f.record own g :=
    ⟨work, work, nonVirtual.charted, nonVirtual.charted⟩
  have pass : Mirrors known lax (Passing f known lax g st₁.indirectPrimaryBases)
      (layVirtualBases f fixed) (layVirtualBases f fixed') := by
    unfold layVirtualBases
    rw [show fixed'.primaryBase = fixed.primaryBase by rw [abreast₂.frame]]
    exact layVirtualBasesBelow_abreast shared nonVirtual.indirect work.acyclic _ passing
  refine pass.bind fun st st' _ _ passing => ?_
  obtain ⟨front', abreast₃, _⟩ := passing.abreast
  refine (finish_abreast work.unsupplied abreast₃).bind fun last last' _ _ abreast => .pure ?_
  rw [abreast.frame, abreast₂.frame, same]
  rfl

end Itanium

open Itanium

/-- A map that keeps every empty subobject, wherever it lies, answers whatever the builder asks as the
map that prunes does, and leads to the same layout. -/
theorem full_map_answers_alike {s : Setting} {depth : Nat} {d : RecordId} {layout : RecordLayout}
    (itanium : s.IsItanium) (cplusplus : s.options.cplusplus = true)
    (laid : (s.known depth).record d = .ok layout) :
    (∀ tracking, (layoutTracking tracking s d none).eval (s.known depth) = .ok layout) ∧
      (layoutTracking .full s d none).answers (s.known depth) =
        (layoutTracking .pruned s d none).answers (s.known depth) := by
  have knows := Setting.known_knows itanium.rules depth
  have settled := knows.settled itanium laid
  have pruned := knows.layout_eq itanium laid
  have alike : Mirrors (s.known depth) False Eq (layoutTracking .pruned s d none)
      (layoutTracking .full s d none) := by
    rw [layoutTracking_eq, layoutTracking_eq]
    exact .ite (fun _ => layClass_abreast (.of_knows knows settled.grounded settled.sound) cplusplus
      (.inr rfl)) fun _ => .refl _
  obtain ⟨_, full, rfl, answers⟩ := (alike layout pruned).exists_value
  refine ⟨fun tracking => ?_, answers⟩
  cases tracking with
  | pruned => exact pruned
  | full => exact full

theorem full_map_answers_alike_movedClaim : ∃ layout,
    (movedClaim.known 10).record ⟨9⟩ = .ok layout ∧
      (∀ tracking, (layoutTracking tracking movedClaim ⟨9⟩ none).eval (movedClaim.known 10) =
        .ok layout) ∧
      (layoutTracking .full movedClaim ⟨9⟩ none).answers (movedClaim.known 10) =
        (layoutTracking .pruned movedClaim ⟨9⟩ none).answers (movedClaim.known 10) := by
  obtain ⟨layout, laid⟩ := exists_ok (by decide +kernel :
    ((Known.remembering (movedClaim.found.toOption.getD [])).record ⟨9⟩).isOk = true)
  have laid := movedClaim.within.record _ _ laid
  exact ⟨layout, laid, full_map_answers_alike (Setting.linux_isItanium _ _) rfl laid⟩

end ObjectLayout
