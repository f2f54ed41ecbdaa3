import ObjectLayout.Proofs.Session.Completed

/-! The warnings that a session keeps. Each of them is about a record whose layout was worked out, and
of what there is to say about a record all is kept, once, in its order, when the layout is stored. -/
namespace ObjectLayout

variable {s : Setting} {types : List Ty} {reporting : Reporting} {flags : WarningFlags}
variable {memory between memory' : Memory}

/-- Whether a warning is kept. -/
def WarningFlags.keeps (flags : WarningFlags) (warning : Warning) : Bool :=
  flags.wants warning.remark && !flags.printOnly

/-- The warnings that have been kept, oldest first. -/
def Memory.warnings (memory : Memory) : List Warning := memory.diagnostics.collected.toList

/-- The warning to be kept of a note, if it is one. -/
def Note.kept? (flags : WarningFlags) : Note → Option Warning
  | .warning told => if flags.keeps told then some told else none
  | .event _ | .answered .. => none

/-- The warnings to be kept of a computation, which are its own and none of what it asks for. -/
def LayoutM.warnings (s : Setting) (flags : WarningFlags) (x : LayoutM α) : List Warning :=
  (x.told (s.known s.depth)).filterMap (·.kept? flags)

theorem LayoutM.warnings_askRecord {r : RecordId} {layout : RecordLayout}
    {next : RecordLayout → LayoutM α} (laid : (s.known s.depth).record r = .ok layout) :
    (askRecord r next).warnings s flags = (next layout).warnings s flags := by
  rw [warnings, told, laid]
  rfl

theorem LayoutM.warnings_askType {type : Ty} {layout : TypeLayout} {next : TypeLayout → LayoutM α}
    (laid : (s.known s.depth).type type = .ok layout) :
    (askType type next).warnings s flags = (next layout).warnings s flags := by
  rw [warnings, told, laid]
  rfl

theorem LayoutM.warnings_tell {note : Note} {rest : LayoutM α} :
    (tell note rest).warnings s flags = (note.kept? flags).toList ++ rest.warnings s flags := by
  rw [warnings, told, List.filterMap_cons]
  cases note.kept? flags <;> rfl

/-- The warnings to be kept about a record. -/
def RecordLayout.warnings (s : Setting) (flags : WarningFlags) (r : RecordId) : List Warning :=
  (ofRecord s r).warnings s flags

/-- The warnings about one record, among warnings with the records that they are about. -/
def warningsAbout (r : RecordId) (warnings : List (RecordId × Warning)) : List Warning :=
  (warnings.filter (·.1 == r)).map (·.2)

section About

variable {r owner : RecordId} {warnings warnings' : List (RecordId × Warning)}

theorem warningsAbout_append : warningsAbout r (warnings ++ warnings') =
    warningsAbout r warnings ++ warningsAbout r warnings' := by
  rw [warningsAbout, List.filter_append, List.map_append]
  rfl

theorem warningsAbout_map (own : List Warning) :
    warningsAbout r (own.map (owner, ·)) = if r = owner then own else [] := by
  unfold warningsAbout
  split
  · subst r
    rw [List.filter_eq_self.mpr (by simp), List.map_map]
    exact List.map_id own
  · rename_i differs
    have other : ∀ entry ∈ own.map (owner, ·), ¬ (entry.1 == r) = true := by
      simpa using fun _ _ same => differs same.symm
    rw [List.filter_eq_nil_iff.mpr other]
    rfl

/-- The warnings about a record say how often each of them is there. -/
theorem count_warningsAbout (warning : Warning) :
    (warningsAbout r warnings).count warning = warnings.count (r, warning) := by
  induction warnings with
  | nil => rfl
  | cons entry rest ih =>
    obtain ⟨r', warning'⟩ := entry
    rw [List.count_cons, ← ih]
    by_cases same : r' = r
    · subst r'
      simp [warningsAbout, List.count_cons]
    · simp [warningsAbout, same]

theorem perm_of_warningsAbout (same : ∀ r, warningsAbout r warnings = warningsAbout r warnings') :
    warnings.Perm warnings' := by
  rw [List.perm_iff_count]
  intro (r, warning)
  rw [← count_warningsAbout, ← count_warningsAbout, same]

end About

namespace Session

theorem take_flags (note : Note) :
    (memory.take reporting note).diagnostics.flags = memory.diagnostics.flags := by
  unfold Memory.take Diagnostics.report Diagnostics.push
  split <;> (repeat' split) <;> rfl

theorem take_warnings (note : Note) : (memory.take reporting note).warnings =
    memory.warnings ++ (note.kept? memory.diagnostics.flags).toList := by
  unfold Memory.warnings Memory.take Diagnostics.report Diagnostics.push Note.kept? WarningFlags.keeps
  cases note with
  | warning warning =>
    by_cases wanted : memory.diagnostics.flags.wants warning.remark = true <;>
      by_cases printed : memory.diagnostics.flags.printOnly = true <;> simp [wanted, printed]
  | event event =>
    dsimp only
    split <;> simp
  | answered question isFree => simp

/-- The warnings about a record whose layout has been stored between two memories. -/
def newWarnings (s : Setting) (flags : WarningFlags) (memory memory' : Memory) (r : RecordId) :
    List Warning :=
  if (Subject.record r).isStored memory' && !(Subject.record r).isStored memory then
    RecordLayout.warnings s flags r
  else []

section New

variable {r : RecordId}

theorem newWarnings_of_missing (missing : (Subject.record r).isStored memory' = false) :
    newWarnings s flags memory memory' r = [] := by
  rw [newWarnings, missing]
  rfl

theorem newWarnings_of_stored (stored : (Subject.record r).isStored memory = true) :
    newWarnings s flags memory memory' r = [] := by
  rw [newWarnings, stored, Bool.not_true, Bool.and_false]
  rfl

theorem newWarnings_trans
    (first : (Subject.record r).isStored memory = true → (Subject.record r).isStored between = true)
    (second : (Subject.record r).isStored between = true → (Subject.record r).isStored memory' = true) :
    newWarnings s flags memory memory' r =
      newWarnings s flags memory between r ++ newWarnings s flags between memory' r := by
  cases middle : (Subject.record r).isStored between with
  | true =>
    rw [newWarnings_of_stored middle, List.append_nil]
    unfold newWarnings
    rw [second middle, middle]
  | false =>
    rw [newWarnings_of_missing middle, List.nil_append]
    have before : (Subject.record r).isStored memory = false := by
      by_contra stored
      cases (first (by simpa using stored)).symm.trans middle
    unfold newWarnings
    rw [before, middle]

end New

/-- What comes between two memories in the list of warnings: some that are charged to records, and all
about records whose layouts have been stored. -/
structure Warns (s : Setting) (flags : WarningFlags) (charged : RecordId → List Warning)
    (memory memory' : Memory) (warnings : List (RecordId × Warning)) : Prop where
  keeps : ∀ r, (Subject.record r).isStored memory = true → (Subject.record r).isStored memory' = true
  sameFlags : memory'.diagnostics.flags = memory.diagnostics.flags
  collected : memory'.warnings = memory.warnings ++ warnings.map (·.2)
  about : ∀ r, warningsAbout r warnings = charged r ++ newWarnings s flags memory memory' r

/-- Some warnings that are charged to one record. -/
def chargedTo (owner : RecordId) (own : List Warning) : RecordId → List Warning :=
  fun r => if r = owner then own else []

theorem chargedTo_nil (owner : RecordId) : chargedTo owner [] = fun _ => [] :=
  funext fun _ => ite_self _

/-- Nothing is charged to a record that is stored. -/
def Apart (charged : RecordId → List Warning) (memory : Memory) : Prop :=
  ∀ r, charged r = [] ∨ (Subject.record r).isStored memory = false

namespace Apart

variable {owner : RecordId} {own own' : List Warning}

theorem of_missing (missing : (Subject.record owner).isStored memory = false) :
    Apart (chargedTo owner own) memory := by
  intro r
  by_cases here : r = owner
  · exact .inr (here ▸ missing)
  · exact .inl (if_neg here)

theorem of_append (h : Apart (chargedTo owner (own ++ own')) memory) :
    Apart (chargedTo owner own') memory := by
  intro r
  refine (h r).imp_left fun nothing => ?_
  unfold chargedTo at nothing ⊢
  split
  · rw [if_pos ‹_›] at nothing
    exact (List.append_eq_nil_iff.mp nothing).2
  · rfl

end Apart

namespace Warns

variable {charged : RecordId → List Warning} {warnings warnings' : List (RecordId × Warning)}

theorem refl (memory : Memory) : Warns s flags (fun _ => []) memory memory [] where
  keeps _ := id
  sameFlags := rfl
  collected := (List.append_nil _).symm
  about r := by
    cases stored : (Subject.record r).isStored memory with
    | true => exact (newWarnings_of_stored stored).symm
    | false => exact (newWarnings_of_missing stored).symm

theorem missing (h : Warns s flags charged memory memory' warnings) {r : RecordId}
    (later : (Subject.record r).isStored memory' = false) :
    (Subject.record r).isStored memory = false := by
  cases stored : (Subject.record r).isStored memory with
  | false => rfl
  | true => cases (h.keeps r stored).symm.trans later

/-- What is charged to nobody comes before what is charged to somebody. -/
theorem append (first : Warns s flags (fun _ => []) memory between warnings)
    (second : Warns s flags charged between memory' warnings') (apart : Apart charged memory') :
    Warns s flags charged memory memory' (warnings ++ warnings') where
  keeps r stored := second.keeps r (first.keeps r stored)
  sameFlags := second.sameFlags.trans first.sameFlags
  collected := by
    rw [second.collected, first.collected, List.map_append, List.append_assoc]
  about r := by
    rw [warningsAbout_append, first.about, second.about, List.nil_append,
      newWarnings_trans (first.keeps r) (second.keeps r)]
    rcases apart r with nothing | missing
    · rw [nothing, List.nil_append, List.nil_append]
    · rw [newWarnings_of_missing missing, newWarnings_of_missing (second.missing missing),
        List.nil_append, List.nil_append]

/-- What was charged to a record is what there is to say about it, once it is stored. -/
theorem store {r : RecordId} (layout : RecordLayout) {own : List Warning}
    (h : Warns s flags (chargedTo r own) memory memory' warnings)
    (same : own = RecordLayout.warnings s flags r)
    (missing : (Subject.record r).isStored memory' = false) :
    Warns s flags (fun _ => []) memory (memory'.rememberRecord r layout) warnings where
  keeps r' stored := (Subject.isStored_rememberRecord _).mpr (.inr (h.keeps r' stored))
  sameFlags := h.sameFlags
  collected := h.collected
  about r' := by
    have stored : (Subject.record r').isStored (memory'.rememberRecord r layout) = true ↔ _ :=
      Subject.isStored_rememberRecord _
    rw [h.about]
    by_cases here : r' = r
    · subst r'
      rw [chargedTo, if_pos rfl, newWarnings_of_missing missing, List.append_nil, same, newWarnings,
        stored.mpr (.inl rfl), h.missing missing]
      rfl
    · have alike : (Subject.record r').isStored (memory'.rememberRecord r layout) =
          (Subject.record r').isStored memory' := by
        rw [Bool.eq_iff_iff, stored, Subject.record.injEq]
        exact or_iff_right here
      rw [chargedTo, if_neg here, newWarnings, newWarnings, alike]

theorem storeType {id : TypeId} {layout : TypeLayout}
    (h : Warns s flags charged memory memory' warnings) :
    Warns s flags charged memory (memory'.rememberType id layout) warnings :=
  ⟨h.keeps, h.sameFlags, h.collected, h.about⟩

/-- A warning that is charged to a record comes first. -/
theorem charge {owner : RecordId} {own : List Warning} (note : Note)
    (h : Warns s flags (chargedTo owner own) (memory.take reporting note) memory' warnings)
    (same : memory.diagnostics.flags = flags) :
    Warns s flags (chargedTo owner ((note.kept? flags).toList ++ own)) memory memory'
      ((note.kept? flags).toList.map (owner, ·) ++ warnings) where
  keeps r stored := h.keeps r ((Subject.isStored_take _ _).trans stored)
  sameFlags := h.sameFlags.trans (take_flags note)
  collected := by
    rw [h.collected, take_warnings, same, List.map_append, List.map_map, List.append_assoc]
    exact congrArg _ (congrArg (· ++ _) (List.map_id _).symm)
  about r := by
    have alike : newWarnings s flags (memory.take reporting note) memory' r =
        newWarnings s flags memory memory' r := by rw [newWarnings, Subject.isStored_take, newWarnings]
    rw [warningsAbout_append, warningsAbout_map, h.about, alike, ← List.append_assoc,
      chargedTo, chargedTo]
    split <;> rfl

end Warns

namespace Completes

variable {α : Type} {x : LayoutM α} {value : α}

/-- A completed computation leaves its own warnings, and those about the records that it has stored. -/
theorem warns (h : Completes s types reporting x memory value memory') (owner : RecordId)
    (same : memory.diagnostics.flags = flags)
    (apart : Apart (chargedTo owner (x.warnings s flags)) memory') :
    ∃ warnings, Warns s flags (chargedTo owner (x.warnings s flags)) memory memory' warnings := by
  induction h generalizing owner with
  | done value memory =>
    refine ⟨[], ?_⟩
    rw [show (LayoutM.done value).warnings s flags = [] from rfl, chargedTo_nil]
    exact .refl memory
  | recallRecord laid found rest ih =>
    rw [LayoutM.warnings_askRecord laid] at apart ⊢
    exact ih owner same apart
  | @workRecord _ r layout _ _ _ _ _ laid missing work rest ih ih' =>
    rw [LayoutM.warnings_askRecord laid] at apart ⊢
    have free := leaves_out laid missing work
    obtain ⟨first, inner⟩ := ih r same (.of_missing free)
    have inner := inner.store layout rfl free
    obtain ⟨second, outer⟩ := ih' owner (inner.sameFlags.trans same) apart
    exact ⟨_, inner.append outer apart⟩
  | recallType listed laid found rest ih =>
    rw [LayoutM.warnings_askType laid] at apart ⊢
    exact ih owner same apart
  | @workType _ type _ _ _ _ _ _ listed laid missing work rest ih ih' =>
    rw [LayoutM.warnings_askType laid] at apart ⊢
    have silent : (TypeLayout.ofTy s type).warnings s flags = [] := by
      rw [LayoutM.warnings, LayoutM.told_eq_nil (TypeLayout.ofTy_confined type)]
      rfl
    simp only [silent, chargedTo_nil] at ih
    obtain ⟨first, inner⟩ := ih owner same fun _ => .inl rfl
    obtain ⟨second, outer⟩ := ih' owner (inner.sameFlags.trans same) apart
    exact ⟨_, inner.storeType.append outer apart⟩
  | @tell _ note _ _ _ _ more ih =>
    rw [LayoutM.warnings_tell] at apart ⊢
    obtain ⟨warnings, later⟩ := ih owner ((take_flags note).trans same) apart.of_append
    exact ⟨_, later.charge note same⟩

/-- A completed computation with nothing to say leaves the warnings about the records that it has
stored. -/
theorem warns_silent (h : Completes s types reporting x memory value memory')
    (same : memory.diagnostics.flags = flags) (silent : x.warnings s flags = []) :
    ∃ warnings, Warns s flags (fun _ => []) memory memory' warnings := by
  have warned := h.warns ⟨0⟩ same
  rw [silent, chargedTo_nil] at warned
  exact warned fun _ => .inl rfl

end Completes

end Session

end ObjectLayout
