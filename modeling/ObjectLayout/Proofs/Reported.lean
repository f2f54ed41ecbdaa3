import Mathlib.Algebra.Ring.Nat
import ObjectLayout.Proofs.Runs

/-! The gaps that a computation reports: how many bits of padding lie before a field or at the end of a
record. Like the outcome of a computation they are found step by step, and most steps report none. -/
namespace ObjectLayout

/-- A gap before a field, or at the end where no field is named, and the bits in it. -/
abbrev Gap := Option Nat × Bits

def Remark.gap? : Remark → Option Gap
  | .paddedField _ index padding => some (some index, padding.toBits)
  | .paddedSize padding => some (none, padding.toBits)
  | .unnecessaryPackedField .. | .unnecessaryPackedRecord => none

def Note.gap? : Note → Option Gap
  | .warning told => told.remark.gap?
  | .event _ | .answered .. => none

/-- A note that reports no gap. -/
abbrev Note.IsQuiet (note : Note) : Prop := note.gap? = none

/-- The gap from where one thing ends to where the next begins, if there is any. -/
def gapTo (place : Option Nat) (stop start : Bits) : List Gap :=
  if stop < start then [(place, start - stop)] else []

section Gaps

variable {place : Option Nat} {stop stop' start : Bits}

theorem gapTo_inj (within : stop ≤ start) (within' : stop' ≤ start) :
    gapTo place stop start = gapTo place stop' start ↔ stop = stop' := by
  refine ⟨fun same => ?_, fun same => by rw [same]⟩
  unfold gapTo at same
  split at same <;> split at same
  · have bits := congrArg Prod.snd (List.cons.inj same).1
    dsimp only at bits
    lia
  · cases same
  · cases same
  · lia

/-- A gap that is reported says where it begins. -/
theorem stop_add_of_gapTo {bits : Bits} (same : gapTo place stop start = [(place, bits)]) :
    stop + bits = start := by
  unfold gapTo at same
  split at same
  · have amount := congrArg Prod.snd (List.cons.inj same).1
    dsimp only at amount
    lia
  · cases same

theorem sum_gapTo (place : Option Nat) (within : stop ≤ start) :
    stop + ((gapTo place stop start).map Prod.snd).sum = start := by
  unfold gapTo
  split
  · simp only [List.map_cons, List.map_nil, List.sum_cons, List.sum_nil]
    lia
  · simp only [List.map_nil, List.sum_nil]
    lia

/-- Nothing is said of other places. -/
theorem place_of_mem_gapTo {gap : Gap} (member : gap ∈ gapTo place stop start) : gap.1 = place := by
  unfold gapTo at member
  split at member
  · rw [List.mem_singleton.mp member]
  · cases member

/-- The gaps at one place. -/
def gapsAt (place : Option Nat) (gaps : List Gap) : List Gap := gaps.filter (·.1 == place)

theorem gapsAt_append (gaps gaps' : List Gap) :
    gapsAt place (gaps ++ gaps') = gapsAt place gaps ++ gapsAt place gaps' := List.filter_append ..

theorem gapsAt_gapTo : gapsAt place (gapTo place stop start) = gapTo place stop start :=
  List.filter_eq_self.mpr fun _ member => beq_iff_eq.mpr (place_of_mem_gapTo member)

theorem gapsAt_eq_nil {gaps : List Gap} (elsewhere : ∀ gap ∈ gaps, gap.1 ≠ place) :
    gapsAt place gaps = [] :=
  List.filter_eq_nil_iff.mpr fun gap member same => elsewhere gap member (beq_iff_eq.mp same)

/-- Other places have no part in a gap. -/
theorem gapsAt_gapTo_ne {place' : Option Nat} (differs : place ≠ place') :
    gapsAt place' (gapTo place stop start) = [] :=
  gapsAt_eq_nil fun _ member same => differs ((place_of_mem_gapTo member).symm.trans same)

end Gaps

namespace LayoutM

variable {known : Known} {x : LayoutM α} {next : α → LayoutM β}

/-- The gaps that a computation reports, in their order. -/
def gaps (known : Known) (x : LayoutM α) : List Gap := (x.told known).filterMap Note.gap?

theorem gaps_bind {value : α} (done : x.eval known = .ok value) :
    (x >>= next).gaps known = x.gaps known ++ (next value).gaps known := by
  rw [gaps, told_bind done, List.filterMap_append]
  rfl

/-- The computation reports no gap, whatever it asks for. -/
abbrev IsQuiet (x : LayoutM α) : Prop := x.Confined (fun _ => True) Note.IsQuiet

theorem gaps_eq_nil (quiet : x.IsQuiet) (known : Known) : x.gaps known = [] :=
  List.filterMap_eq_nil_iff.mpr (quiet.told known)

/-- The computation has a `good` value together with what it reports, if it has a value. -/
def Reports (known : Known) (x : LayoutM α) (good : α → List Gap → Prop) : Prop :=
  Ends (fun _ => True) (x.eval known) fun value => good value (x.gaps known)

namespace Reports

variable {good good' : α → List Gap → Prop} {after : β → List Gap → Prop} {G : α → Prop}

theorem imp (h : Reports known x good) (values : ∀ value gaps, good value gaps → good' value gaps) :
    Reports known x good' := Ends.imp h fun value => values value _

theorem and_ends (h : Reports known x good) (ends : Ends (fun _ => True) (x.eval known) G) :
    Reports known x fun value gaps => good value gaps ∧ G value := by
  unfold Reports at h ⊢
  exact Ends.of_all (fun _ => trivial) fun value same => ⟨h.holds same, ends.holds same⟩

theorem of_quiet (quiet : x.IsQuiet)
    (h : Ends (fun _ => True) (x.eval known) fun value => good value []) : Reports known x good := by
  rw [Reports, gaps_eq_nil quiet]
  exact h

theorem lift {x : Checked α} (h : Ends (fun _ => True) x fun value => good value []) :
    Reports known (liftM x) good :=
  of_quiet (.lift x) (by rwa [eval_lift])

theorem bind (first : Reports known x good)
    (second : ∀ value gaps, good value gaps →
      Reports known (next value) fun result gaps' => after result (gaps ++ gaps')) :
    Reports known (x >>= next) after := by
  unfold Reports
  rw [eval_bind]
  refine Ends.bind (Ends.remember first) fun value ⟨reached, holds⟩ => ?_
  exact Ends.imp (second value _ holds) fun result holds => by rwa [gaps_bind reached]

/-- A step that reports nothing. -/
theorem quiet_bind (quiet : x.IsQuiet)
    (first : Ends (fun _ => True) (x.eval known) G)
    (second : ∀ value, G value → Reports known (next value) after) :
    Reports known (x >>= next) after := by
  have silent : Reports known x fun value gaps => G value ∧ gaps = [] :=
    of_quiet quiet (first.imp fun _ holds => ⟨holds, rfl⟩)
  refine silent.bind ?_
  rintro value _ ⟨holds, rfl⟩
  exact second value holds

theorem lift_bind {x : Checked α} (first : Ends (fun _ => True) x G)
    (second : ∀ value, G value → Reports known (next value) after) :
    Reports known ((liftM x : LayoutM α) >>= next) after :=
  quiet_bind (.lift x) (by rwa [eval_lift]) second

end Reports

end LayoutM

end ObjectLayout
