import ObjectLayout.Proofs.Itanium.Fields

/-! All fields of a record. Each of them is placed past what is used, so their pieces follow one another
in the order of declaration; no base moves. -/
namespace ObjectLayout

theorem Kept.congr {s : Setting} {known : Known} {d : RecordId} {all all' : Nat × RecordId → Prop}
    {front : Nat} {map : EmptyMap} (h : Kept s known d all front map)
    (same : ∀ e, all e ↔ all' e) : Kept s known d all' front map := by
  have eq : all = all' := funext fun e => propext (same e)
  exact eq ▸ h

namespace Itanium

variable {f : Frame} {known : Known} {allowed : Fault → Prop} {g : SubobjectGraph}
variable {st st' : State} {pieces added : List Piece} {front front' : Nat} {field : Field}
variable {offset : Nat}

/-- What follows may leave some room. -/
theorem Progress.mono (h : Progress f known g front pieces st) (le : front ≤ front') :
    Progress f known g front' pieces st where
  laid := { h.laid with
    reached := fun sequential piece member full =>
      (h.laid.reached sequential piece member full).trans le }
  tracked cplusplus notUnion :=
    ⟨fun map here => ((h.tracked cplusplus notUnion).kept map here).mono le,
      (h.tracked cplusplus notUnion).apart⟩

section Map

variable (work : Workable f known allowed) (member : field ∈ f.declaration.fields)
include work member

theorem Workable.explorable_field {m : RecordId} (names : field.type.constantArrayRecord? = some m) :
    Explorable f.setting known m :=
  work.explorable m (.single (.of_field member (Ty.baseElement_of_constantArrayRecord? names)))

/-- No field is refused past everything that is recorded. -/
theorem le_highest_of_refusedField (bounded : st.MapBounded) {x : Nat}
    (refused : (st.placeField? f field.type x).eval known = .ok none) :
    x ≤ (st.emptyMap.getD {}).highest := by
  unfold State.placeField? at refused
  cases union : f.isUnion with
  | true =>
    rw [union] at refused
    cases refused
  | false =>
    rw [union] at refused
    obtain ⟨map, here, refused⟩ := (placeIn_ends fun _ _ => Ends.any.imp fun _ _ => trivial).value refused
    have taken := (placeField?_ends work.knows (bounded map here) (.inl work.overflow)
      (fun m => work.explorable_field member) fun _ _ _ => .inr work.overflow).value refused
    rw [here]
    by_contra past
    refine taken fun k m _ => (bounded map here).free ?_
    exact (Nat.lt_of_not_le past).trans_le (Nat.le_add_right _ _)

/-- What is recorded for a field is counted in the highest offset. -/
theorem FieldLaid.mapBounded (next : FieldLaid f known field offset st st')
    (bounded : st.MapBounded) : st'.MapBounded := by
  intro map' here'
  by_cases skip : f.isUnion = true ∨ field.bitWidth.isSome
  · rw [next.skipped skip] at here'
    exact bounded map' here'
  · simp only [not_or, Bool.not_eq_true, Option.isSome_eq_false_iff, Option.isNone_iff_eq_none]
      at skip
    obtain ⟨unmapped, mapped⟩ := next.placed skip.1 skip.2
    cases here : st.emptyMap with
    | none =>
      rw [unmapped here] at here'
      cases here'
    | some map =>
      obtain ⟨map'', same, answer⟩ := mapped map here
      rw [same] at here'
      cases here'
      exact ((placeField?_ends work.knows (bounded map here) (.inl work.overflow)
        (fun m => work.explorable_field member) fun _ _ _ =>
          .inr work.overflow).value answer).2.bounded (bounded map here)

end Map

/-- A map stays a map. -/
theorem FieldLaid.mapped (next : FieldLaid f known field offset st st')
    (some : st.emptyMap.isSome) : st'.emptyMap.isSome := by
  by_cases skip : f.isUnion = true ∨ field.bitWidth.isSome
  · rwa [next.skipped skip]
  · simp only [not_or, Bool.not_eq_true, Option.isSome_eq_false_iff, Option.isNone_iff_eq_none]
      at skip
    obtain ⟨map, here⟩ := Option.isSome_iff_exists.mp some
    obtain ⟨map', same, _⟩ := (next.placed skip.1 skip.2).2 map here
    rw [same]
    rfl

section Push

variable (work : Workable f known allowed) (next : FieldLaid f known field offset st st')
variable (found : f.declaration.fields[st.fieldOffsets.length]? = some field)
variable (remaining : f.isUnion = false → st.unfilledBits ≤ st.dataSize)

section

include next

theorem Tabled.push_field (h : Tabled f known g pieces st) :
    Tabled f known g (pieces ++ [.field st.fieldOffsets.length offset]) st' := by
  have inside {i : SubobjectId} {x : Nat}
      (member : Piece.base i x ∈ pieces ++ [.field st.fieldOffsets.length offset]) :
      Piece.base i x ∈ pieces := by simpa using member
  constructor
  case graph => exact next.tables.1.trans h.graph
  case rooted => exact fun i x member => h.rooted i x (inside member)
  case distinct => exact h.distinct.push (by simp [Piece.base?])
  case isClass => exact fun i x member => h.isClass i x (inside member)
  case bases =>
    rw [next.tables.2.1, h.bases]
    simp [Piece.baseEntry]
  case slots =>
    rw [next.tables.2.2, h.slots]
    simp [Piece.occurrences]
  case fields =>
    intro index offset'
    rw [next.listed, List.mem_append, List.mem_singleton, h.fields, List.getElem?_append]
    by_cases before : index < st.fieldOffsets.length
    · rw [if_pos before]
      refine or_iff_left fun same => ?_
      cases same
      exact lt_irrefl _ before
    · rw [if_neg before, List.getElem?_eq_none (Nat.le_of_not_lt before)]
      by_cases last : index = st.fieldOffsets.length
      · subst last
        simp [eq_comm]
      · have past : 0 < index - st.fieldOffsets.length := by omega
        have none : ([offset] : List Bits)[index - st.fieldOffsets.length]? = none :=
          List.getElem?_eq_none past
        rw [none]
        simp [last]

end

section

include next found remaining

/-- The size grows to the byte in which the field ends. -/
theorem FieldLaid.widens :
    Widens f known g (.field st.fieldOffsets.length offset) st st' where
  grows := next.grows
  sized _ := next.sized
  whole sequential before := by
    have after := next.whole sequential.1 sequential.not_sharesUnit
    rw [next.size]
    lia
  tight sequential _ bound whole before last := by
    rw [Piece.reach, Piece.stop, found] at last
    have alone : ¬ f.SharesUnit known field := sequential.not_sharesUnit
    rw [next.size, next.whole sequential.1 alone,
      (next.apart sequential.1 alone (remaining sequential.1)).2.1]
    exact Nat.max_le.mpr ⟨before, toBytesCeil_le whole last⟩

theorem Measured.push_field (h : Measured f known g st.used pieces st) :
    Measured f known g st'.used (pieces ++ [.field st.fieldOffsets.length offset]) st' := by
  refine h.push (next.widens found remaining) nofun ?_
    (fun sequential => next.used_le sequential.1 (remaining sequential.1)) fun sequential _ => ?_
  · rintro _ _ ⟨⟩ field' found' isPlain
    rw [found] at found'
    cases found'
    obtain ⟨width, wide, whole, reaches, _⟩ := next.stored isPlain
    exact ⟨width, wide, whole, reaches⟩
  · have apart := next.apart sequential.1 sequential.not_sharesUnit (remaining sequential.1)
    refine ⟨apart.1, ?_⟩
    rw [Piece.stop, found]
    exact apart.2.1.ge

end

include work next found remaining

theorem Laid.push_field (h : Laid f known g st.used pieces st) :
    Laid f known g st'.used (pieces ++ [.field st.fieldOffsets.length offset]) st' where
  toTabled := h.toTabled.push_field next
  toMeasured := h.toMeasured.push_field next found remaining
  power := next.power h.power
  bounded := next.mapBounded work (List.mem_of_getElem? found) h.bounded
  mapped isClass := next.mapped (h.mapped isClass)

theorem Tracked.push_field (h : Tracked f known g st.used pieces st)
    (cplusplus : f.setting.options.cplusplus = true) (notUnion : f.isUnion = false) :
    Tracked f known g st'.used (pieces ++ [.field st.fieldOffsets.length offset]) st' := by
  have le := next.used_le notUnion (remaining notUnion)
  have lies (e : Nat × RecordId) :
      (Piece.field st.fieldOffsets.length offset).Lies f known g e ↔
        field.bitWidth = none ∧ FieldTypeLies f.setting known field.type (offset / 8) e := by
    constructor
    · rintro ⟨field', found', stored, lies⟩
      rw [found] at found'
      cases found'
      exact ⟨stored, lies⟩
    · exact fun ⟨stored, lies⟩ => ⟨field, found, stored, lies⟩
  cases width : field.bitWidth with
  | some bits =>
    have same := next.skipped (.inr (by simp [width]))
    refine h.push (fun none => same.trans none) fun map here => ⟨map, same.trans here, ?_, ?_⟩
    · intro e inside
      rw [lies, width] at inside
      cases inside.1
    · refine ((h.kept map here).mono le).congr fun e => ?_
      rw [lies, width]
      simp
  | none =>
    obtain ⟨unmapped, mapped⟩ := next.placed notUnion width
    refine h.push unmapped fun map here => ?_
    obtain ⟨map', same, answer⟩ := mapped map here
    obtain ⟨bytes, wide, whole, _, apart⟩ := next.stored width
    obtain ⟨past, reaches⟩ := apart notUnion
    have bits : 8 * (offset / 8) = offset := Nat.mul_div_cancel' whole
    have held (m : RecordId) (names : field.type.constantArrayRecord? = some m) :
        f.setting.Holds f.record m :=
      .of_field (List.mem_of_getElem? found) (Ty.baseElement_of_constantArrayRecord? names)
    have placing := (h.kept map here).placeField (x := offset / 8)
      work.settled cplusplus held (fun m names => work.explorable m (.single (held m names)))
      (.inl work.overflow)
      (fun _ _ _ => .inr work.overflow) wide (by rw [bits]; exact past) le
      (by rw [Nat.mul_add, bits]; exact reaches)
    obtain ⟨free, kept⟩ := placing.value answer
    refine ⟨map', same, fun e inside => free e ((lies e).mp inside).2, kept.congr fun e => ?_⟩
    rw [lies, and_iff_right width]

theorem Progress.push_field (h : Progress f known g st.used pieces st) :
    Progress f known g st'.used (pieces ++ [.field st.fieldOffsets.length offset]) st' where
  laid := h.laid.push_field work next found remaining
  tracked cplusplus notUnion :=
    (h.tracked cplusplus notUnion).push_field work next found remaining cplusplus notUnion

end Push

/-- A state after some of the fields. Only field pieces were added, and all of them past the front. -/
structure FieldsLaid (f : Frame) (known : Known) (g : SubobjectGraph) (pieces added : List Piece)
    (st st' : State) : Prop where
  progress : Progress f known g st'.used (pieces ++ added) st'
  fields : ∀ piece ∈ added, ∃ index offset, piece = .field index offset
  past : f.IsSequential → ∀ piece ∈ added, st.used ≤ piece.start
  rest : st'.rest = { st with
    fieldOffsets := st'.fieldOffsets, unfilledBits := st'.unfilledBits }.rest
  grows : st.size ≤ st'.size
  remaining : f.isUnion = false → st'.unfilledBits ≤ st'.dataSize
  used_le : f.isUnion = false → st.used ≤ st'.used
  /-- What is used ends with a field, if there is any. -/
  attained : f.IsSequential → st'.used = st.used ∨
    ∃ piece ∈ added, st'.used = piece.stop f known g
  whole : f.IsSequential → st.dataSize = 8 * Bits.toBytesCeil st.used →
    st'.dataSize = 8 * Bits.toBytesCeil st'.used

theorem FieldsLaid.start (progress : Progress f known g st.used pieces st)
    (remaining : f.isUnion = false → st.unfilledBits ≤ st.dataSize) :
    FieldsLaid f known g pieces [] st st where
  progress := by rwa [List.append_nil]
  fields := nofun
  past _ := nofun
  rest := rfl
  grows := le_rfl
  remaining := remaining
  used_le _ := le_rfl
  attained _ := .inl rfl
  whole _ := id

theorem FieldsLaid.push {st₀ : State} (h : FieldsLaid f known g pieces added st₀ st)
    (work : Workable f known allowed) (next : FieldLaid f known field offset st st')
    (found : f.declaration.fields[st.fieldOffsets.length]? = some field) :
    FieldsLaid f known g pieces (added ++ [.field st.fieldOffsets.length offset]) st₀ st' := by
  have earlier := SameRest.of_eq h.rest
  have rest := SameRest.of_eq next.rest
  constructor
  case progress =>
    rw [← List.append_assoc]
    exact h.progress.push_field work next found h.remaining
  case fields =>
    intro piece member
    rcases List.mem_append.mp member with member | last
    · exact h.fields piece member
    · exact ⟨_, _, List.mem_singleton.mp last⟩
  case past =>
    intro sequential piece member
    rcases List.mem_append.mp member with member | last
    · exact h.past sequential piece member
    · cases List.mem_singleton.mp last
      exact (h.used_le sequential.1).trans
        (next.apart sequential.1 sequential.not_sharesUnit (h.remaining sequential.1)).1
  case rest =>
    simp only [State.rest, Prod.mk.injEq]
    exact ⟨trivial, trivial, rest.primaryBase.trans earlier.primaryBase,
      rest.indirectPrimaryBases.trans earlier.indirectPrimaryBases,
      rest.visitedVirtualBases.trans earlier.visitedVirtualBases⟩
  case grows => exact h.grows.trans next.grows
  case remaining => exact fun notUnion => next.remaining notUnion (h.remaining notUnion)
  case used_le =>
    exact fun notUnion => (h.used_le notUnion).trans (next.used_le notUnion (h.remaining notUnion))
  case attained =>
    intro sequential
    refine .inr ⟨.field st.fieldOffsets.length offset, by simp, ?_⟩
    rw [Piece.stop, found]
    exact (next.apart sequential.1 sequential.not_sharesUnit (h.remaining sequential.1)).2.1
  case whole => exact fun sequential _ => next.whole sequential.1 sequential.not_sharesUnit

theorem layFirstFields_ends (work : Workable f known allowed)
    (progress : Progress f known g st.used pieces st) (unplaced : st.fieldOffsets = [])
    (remaining : f.isUnion = false → st.unfilledBits ≤ st.dataSize)
    {entries later : List (Field × Nat)} (split : f.declaration.fields.zipIdx = entries ++ later) :
    Ends (fun _ => True) ((entries.foldlM (layAnyField f) st).eval known) fun st' => ∃ added,
      FieldsLaid f known g pieces added st st' ∧ st'.fieldOffsets.length = entries.length := by
  rw [LayoutM.eval_foldlM]
  apply Ends.foldlM (K := fun done _ st' => ∃ added, FieldsLaid f known g pieces added st st' ∧
    st'.fieldOffsets.length = done.length) ⟨[], .start progress remaining, by simp [unplaced]⟩
  rintro done ⟨field, index⟩ rest st₁ split' ⟨added, h, count⟩
  have here : f.declaration.fields.zipIdx[done.length]? = some (field, index) := by
    simp [split, split']
  rw [List.getElem?_zipIdx, Option.map_eq_some_iff] at here
  obtain ⟨field', found, same⟩ := here
  cases same
  rw [← count] at found
  refine (layAnyField_ends work.unsupplied).imp fun st₂ ⟨offset, next⟩ => ?_
  refine ⟨_, h.push work next found, ?_⟩
  rw [next.listed, List.length_append, count]
  simp

theorem layFields_ends (work : Workable f known allowed)
    (progress : Progress f known g st.used pieces st) (unplaced : st.fieldOffsets = [])
    (remaining : f.isUnion = false → st.unfilledBits ≤ st.dataSize) :
    Ends (fun _ => True) ((layFields f st).eval known) fun st' => ∃ added,
      FieldsLaid f known g pieces added st st' ∧
        st'.fieldOffsets.length = f.declaration.fields.length := by
  refine (layFirstFields_ends work progress unplaced remaining (List.append_nil _).symm).imp ?_
  rintro st' ⟨added, h, count⟩
  exact ⟨added, h, count.trans (by simp)⟩

end Itanium

end ObjectLayout
