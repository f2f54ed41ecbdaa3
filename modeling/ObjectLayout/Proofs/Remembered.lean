import ObjectLayout.Proofs.Guarantees

/-! Layouts found one after another, each with the help of those found before it. They are the layouts
that are known, found without working out any of them twice. -/
namespace ObjectLayout

variable {s : Setting} {known known' : Known} {r b v : RecordId}

/-- Knows the layouts of some records, and of nothing else. -/
def Known.remembering (found : List (RecordId × RecordLayout)) : Known where
  record r := ((found.find? (·.1 == r)).map (·.2)).elim (.error .endless) .ok
  type _ := .error .endless

theorem Known.remembering_type {found : List (RecordId × RecordLayout)} {type : Ty}
    {layout : TypeLayout} : (remembering found).type type ≠ .ok layout := by
  intro h
  cases h

/-- The layouts of records that need no types, in an order in which each needs earlier ones alone. -/
def Setting.layInOrder (s : Setting) (order : List RecordId) :
    Checked (List (RecordId × RecordLayout)) :=
  order.foldlM (fun found r => do
    return found ++ [(r, ← (RecordLayout.ofRecord s r).eval (.remembering found))]) []

theorem Known.remembering_push {found : List (RecordId × RecordLayout)} {layout : RecordLayout}
    (before : (remembering found).Within known) (next : known.record r = .ok layout) :
    (remembering (found ++ [(r, layout)])).Within known where
  record r' layout' h := by
    simp only [remembering, List.find?_append, List.find?_singleton] at h
    cases here : found.find? (·.1 == r') with
    | some entry =>
      refine before.record r' layout' ?_
      simpa [remembering, here] using h
    | none =>
      rw [here, Option.none_or] at h
      split at h
      · rename_i same
        cases h
        rwa [← eq_of_beq same]
      · cases h
  type _ _ h := absurd h remembering_type

/-- What is found in order is known to a depth as great as there are records. -/
theorem Setting.layInOrder_within (s : Setting) (order : List RecordId) :
    Ends (fun _ => True) (s.layInOrder order) fun found =>
      (Known.remembering found).Within (s.known order.length) := by
  unfold Setting.layInOrder
  apply Ends.foldlM (K := fun done _ found => (Known.remembering found).Within (s.known done.length))
  case first =>
    refine ⟨fun r layout h => ?_, fun _ _ h => absurd h Known.remembering_type⟩
    cases h
  case next =>
    intro done r rest found _ within
    refine Ends.bind Ends.any fun layout laid => ?_
    rw [List.length_append]
    have deeper := s.known_succ done.length
    refine Known.remembering_push ⟨?_, ?_⟩ (LayoutM.eval_mono within _ laid)
    · exact fun r layout h => deeper.record r layout (within.record r layout h)
    · exact fun _ _ h => absurd h Known.remembering_type

namespace Known.Within

variable (within : known.Within known')
include within

theorem classLayout? {part : ClassLayout} (h : known.classLayout? r = some part) :
    known'.classLayout? r = some part := by
  cases laid : known.record r with
  | error fault => simp [Known.classLayout?, laid, Except.toOption] at h
  | ok layout =>
    rw [Known.classLayout?_eq laid] at h
    rw [Known.classLayout?_eq (within.record r layout laid), h]

theorem baseOffset? {offset : Nat} (h : known.baseOffset? r b = some offset) :
    known'.baseOffset? r b = some offset := by
  obtain ⟨part, laid, found⟩ := Option.bind_eq_some_iff.mp h
  exact Option.bind_eq_some_iff.mpr ⟨part, within.classLayout? laid, found⟩

theorem virtualBaseOffset? {offset : Nat} (h : known.virtualBaseOffset? r v = some offset) :
    known'.virtualBaseOffset? r v = some offset := by
  obtain ⟨slot, listed, same⟩ := Option.map_eq_some_iff.mp h
  obtain ⟨part, laid, found⟩ := Option.bind_eq_some_iff.mp listed
  exact Option.map_eq_some_iff.mpr
    ⟨slot, Option.bind_eq_some_iff.mpr ⟨part, within.classLayout? laid, found⟩, same⟩

end Known.Within

end ObjectLayout
