import Mathlib.Data.List.Pairwise
import ObjectLayout.Proofs.Microsoft.Apart

/-! Classes that are laid out with their pointers leading. The vbptr comes after the last base, or before
the last bases if they have no data, of which the last one then moves behind it. Which bases are last
is found out by their offsets, in the order of declaration. A base that is declared after them and lies
no lower is overlooked, and may come upon the vbptr or the fields; all others are kept apart. -/
namespace ObjectLayout.Microsoft

open LayoutM (ends_bind ends_lift_bind)

variable {f : Frame} {known : Known} {st st' : State}

theorem Frame.pointerSize_pos (f : Frame) : 0 < f.pointerSize := by
  unfold Frame.pointerSize Target.pointerWidth
  split <;> decide

theorem VbptrPlaced.size_pos (h : VbptrPlaced f known st st') : 0 < st'.size := by
  obtain ⟨_, _, _, _, _, _, _, _, _, stop, room, placed⟩ := h.placed
  rw [placed]
  have := f.pointerSize_pos
  exact Nat.lt_of_lt_of_le this ((Nat.le_add_left _ _).trans room)

variable {row : List PlacedBase} {start based between : State}

theorem Assembled.grows (h : Assembled f known start row based between st) :
    start.size ≤ based.size ∧ between.size ≤ st.size := by
  obtain ⟨ends, inRow⟩ := h.bases.inRow
  exact ⟨inRow.le, h.fields.grows⟩

/-- The flags that decide how a class is laid out are those that it ends up with. -/
theorem Assembled.needsOwnVbptr (h : Assembled f known start row based between st) :
    based.needsOwnVbptr = st.needsOwnVbptr := by
  obtain ⟨size, vbptrOffset, baseOffsets, rfl⟩ := h.moved
  have same := h.fields.classPart
  simp only [State.classPart, Prod.mk.injEq] at same
  rw [State.needsOwnVbptr, State.needsOwnVbptr, same.2.2.2.1, same.2.2.2.2.2.1]

theorem layPointers_size_pos (once : LaidOnce f known row based st) :
    Ends (fun _ => True) ((layPointers f st).eval known) fun st' =>
      0 < st.size ∨ st.hasOwnVfptr = true ∨ st.needsOwnVbptr = true → 0 < st'.size := by
  apply layPointers_cases
  case none => exact fun none none' some => some.resolve_right (by simp [none, none'])
  case again =>
    intro relaid
    refine (layWithLeadingPointers_ends st).imp ?_
    rintro st' ⟨row', based', between', laid', again, placed, _, rfl⟩ _
    have flags := again.flags.trans once.flags.symm
    simp only [State.flags, Prod.mk.injEq] at flags
    obtain ⟨grows, grows'⟩ := again.grows
    refine Nat.lt_of_lt_of_le ?_ grows'
    rcases (layVbptrAsBase_ends based').value placed with ⟨shared, rfl⟩ | ⟨_, vbptr⟩
    · have needs : st.needsOwnVbptr = false := by
        rw [again.needsOwnVbptr, State.needsOwnVbptr, flags.2.2.2.1, flags.2.2.2.2] at shared
        exact shared
      have own : st.hasOwnVfptr = true := by
        simp only [State.isRelaid, needs, Bool.or_false, Bool.and_eq_true] at relaid
        exact relaid.1.1
      have start : (leadingStart f st).size = f.pointerSize := if_pos own
      rw [start] at grows
      exact Nat.lt_of_lt_of_le f.pointerSize_pos grows
    · exact vbptr.size_pos
  case pushed =>
    intro _
    refine Ends.bind (injectVbptr_ends st) fun st₁ first => ?_
    refine (injectVfptr_ends st₁).imp fun st₂ second => ?_
    intro some
    have some₁ : 0 < st₁.size ∨ st₁.hasOwnVfptr = true := by
      rcases first with ⟨none, rfl⟩ | ⟨start, distance, _, past, room, rfl⟩
      · exact some.imp_right fun pointer => pointer.resolve_right (by simp [none])
      · have far : f.pointerSize ≤ distance := by
          have reach := (Nat.add_le_add_right past f.pointerSize).trans room
          exact Nat.le_of_add_le_add_left reach
        exact .inl (Nat.add_pos_right _ (f.pointerSize_pos.trans_le far))
    rcases second with ⟨none, rfl⟩ | ⟨distance, _, _, room, _, rfl⟩
    · exact some₁.resolve_right (by simp [none])
    · exact Nat.add_pos_right _ (Nat.lt_of_lt_of_le f.pointerSize_pos room)

/-- A class with a table pointer that derived classes can use has data: the pointer. -/
theorem dataSize_pos {s : Setting} {r : RecordId} (microsoft : s.usesMicrosoftLayout = true)
    (depth : Nat) {layout : RecordLayout} (laid : (s.known depth).record r = .ok layout)
    (extendable : layout.hasExtendableVfptr = true) : 0 < layout.dataSize := by
  induction depth generalizing r layout with
  | zero => cases laid
  | succ depth ih =>
    cases isClass : (s.tree.record r).isClass with
    | false => simp [RecordLayout.hasExtendableVfptr, plain_asClass microsoft isClass laid] at extendable
    | true =>
      obtain ⟨run, rfl⟩ := classRun microsoft isClass laid
      have flags := run.flags_eq
      have primary := run.once.flags
      simp only [State.flags, Prod.mk.injEq] at flags primary
      have some : 0 < run.laid.size ∨ run.laid.hasOwnVfptr = true := by
        have extendable : (run.last.hasOwnVfptr || run.last.primaryBase.isSome) = true := extendable
        rw [flags.2.2.1, flags.2.1, Bool.or_eq_true] at extendable
        refine extendable.symm.imp_left fun hasPrimary => ?_
        -- The primary base is in the row, and has data itself.
        rw [primary.2.1, Option.isSome_map] at hasPrimary
        obtain ⟨base, found⟩ := Option.isSome_iff_exists.mp hasPrimary
        have leading := List.find?_some found
        have placed : base.record ∈ run.row.map (·.record) := by
          rw [run.once.bases.records]
          exact List.mem_append_left _ (List.mem_map_of_mem
            (List.mem_filter.mpr ⟨List.mem_of_find?_eq_some found, leading⟩))
        obtain ⟨p, member, same⟩ := List.mem_map.mp placed
        have known := run.once.bases.laid p member
        have data : 0 < p.layout.dataSize := by
          refine ih known ?_
          simp only [leads, Bool.and_eq_true, ← same, Known.has_eq known] at leading
          exact leading.2
        obtain ⟨ends, inRow⟩ := run.once.bases.inRow
        have inside := (inRow.inside p member).2
        have grows := run.once.grows.2
        exact (data.trans_le (Nat.le_add_left _ _)).trans_le (inside.trans grows)
      obtain ⟨size, grows, _, closed⟩ := run.closing
      have dataSize : run.last.classLayout.dataSize = run.closed.size := run.last_eq.2.2.2.2.1
      rw [dataSize, closed]
      exact ((layPointers_size_pos run.once).value run.pointers (some.imp_right .inl)).trans_le grows

section Scan

/-- Where a base has been put. -/
def placeIn (offsets : OrderedMap RecordId Bytes) (r : RecordId) : Nat := (offsets.find? r).getD 0

theorem placeIn_eq {offsets : OrderedMap RecordId Bytes} {r : RecordId} {offset : Nat}
    (found : offsets.find? r = some offset) : placeIn offsets r = offset := by
  rw [placeIn, found]
  rfl

theorem baseOffset_eq_ok_iff {r : RecordId} {offset : Nat} :
    st.baseOffset r = .ok offset ↔ st.baseOffsets.find? r = some offset := by
  unfold State.baseOffset
  split <;> simp_all

/-- The first of the bases that are put highest, and those declared before and after it. -/
structure FirstHighest (offsets : OrderedMap RecordId Bytes) (bases before : List Base) (base : Base)
    (after : List Base) : Prop where
  split : bases = before ++ base :: after
  past : ∀ b ∈ before, placeIn offsets b.record < placeIn offsets base.record
  highest : ∀ b ∈ after, placeIn offsets b.record ≤ placeIn offsets base.record

namespace FirstHighest

variable {offsets : OrderedMap RecordId Bytes} {bases before after : List Base} {base last : Base}
variable (h : FirstHighest offsets bases before base after)
include h

theorem member : base ∈ bases := by simp [h.split]

theorem le : ∀ b ∈ bases, placeIn offsets b.record ≤ placeIn offsets base.record := by
  intro b member
  rw [h.split, List.mem_append, List.mem_cons] at member
  rcases member with earlier | rfl | later
  · exact (h.past b earlier).le
  · exact le_rfl
  · exact h.highest b later

theorem push_within (within : placeIn offsets last.record ≤ placeIn offsets base.record) :
    FirstHighest offsets (bases ++ [last]) before base (after ++ [last]) := by
  refine ⟨by simp [h.split], h.past, fun b member => ?_⟩
  rcases List.mem_append.mp member with later | here
  · exact h.highest b later
  · cases List.mem_singleton.mp here
    exact within

theorem push_past (past : placeIn offsets base.record < placeIn offsets last.record) :
    FirstHighest offsets (bases ++ [last]) bases last [] :=
  ⟨rfl, fun b member => (h.le b member).trans_lt past, nofun⟩

/-- There is only one base that is the first of the highest. -/
theorem unique {before' after' : List Base} {base' : Base}
    (h' : FirstHighest offsets bases before' base' after') : base = base' := by
  rcases List.append_eq_append_iff.mp (h.split.symm.trans h'.split) with
    ⟨between, split', split⟩ | ⟨between, split, split'⟩
  all_goals
    cases between with
    | nil => simp_all
    | cons first rest => ?_
  case inl.cons =>
    obtain ⟨rfl, rfl⟩ := List.cons.inj split
    exact absurd (h.highest base' (by simp)) (h'.past base (by simp [split'])).not_ge
  case inr.cons =>
    obtain ⟨rfl, rfl⟩ := List.cons.inj split'
    exact absurd (h'.highest base (by simp)) (h.past base' (by simp [split])).not_ge

end FirstHighest

/-- What the search for the last bases finds: the first of those that are put highest, and among the
bases declared before it, if there are any, again the first. -/
inductive Scanned (offsets : OrderedMap RecordId Bytes) : List Base → LastBases → Prop
  | none : Scanned offsets [] ⟨none, none⟩
  | only {bases after : List Base} {base : Base} (last : FirstHighest offsets bases [] base after) :
      Scanned offsets bases ⟨some base.record, none⟩
  | both {bases before after before' between : List Base} {base base' : Base}
      (last : FirstHighest offsets bases before base after)
      (penultimate : FirstHighest offsets before before' base' between) :
      Scanned offsets bases ⟨some base.record, some base'.record⟩

theorem Scanned.last_mem {offsets : OrderedMap RecordId Bytes} {bases : List Base} {found : LastBases}
    {r : RecordId} (h : Scanned offsets bases found) (last : found.last = some r) :
    ∃ base ∈ bases, base.record = r := by
  cases h with
  | none => cases last
  | only first | both first => exact ⟨_, first.member, Option.some.inj last⟩

/-- One more base is the last if it lies past the last one so far. -/
theorem Scanned.push {offsets : OrderedMap RecordId Bytes} {done : List Base} {base : Base}
    {last : RecordId} {penultimate : Option RecordId}
    (h : Scanned offsets done ⟨some last, penultimate⟩) : Scanned offsets (done ++ [base])
      (if decide (placeIn offsets last < placeIn offsets base.record) = true
        then ⟨some base.record, some last⟩ else ⟨some last, penultimate⟩) := by
  split
  case isTrue past =>
    have past := of_decide_eq_true past
    cases h with
    | only first => exact .both (first.push_past past) first
    | both first _ => exact .both (first.push_past past) first
  case isFalse within =>
    have within : placeIn offsets base.record ≤ placeIn offsets last := by simpa using within
    cases h with
    | only first => exact .only (first.push_within within)
    | both first second => exact .both (first.push_within within) second

theorem lastBases_ends (st : State) : Ends (fun _ => True) (lastBases f st)
    (Scanned st.baseOffsets f.declaration.nonVirtualBases) := by
  unfold lastBases
  apply Ends.foldlM (K := fun done _ => Scanned st.baseOffsets done)
  case first => exact .none
  case next =>
    intro done base rest found split scanned
    obtain ⟨last, penultimate⟩ := found
    cases last with
    | none =>
      cases scanned
      exact .only ⟨rfl, nofun, nofun⟩
    | some last =>
      refine Ends.bind Ends.any fun lastOffset atLast => ?_
      refine Ends.bind Ends.any fun offset at' => ?_
      rw [← placeIn_eq (baseOffset_eq_ok_iff.mp atLast), ← placeIn_eq (baseOffset_eq_ok_iff.mp at')]
      exact scanned.push

theorem zeroSized?_ends {r : Option RecordId} : Ends (fun _ => True) ((zeroSized? r).eval known)
    fun zero => ∀ r' layout, zero = some (r', layout) →
      r = some r' ∧ known.record r' = .ok layout ∧ layout.dataSize = 0 := by
  unfold zeroSized?
  split
  case h_1 => exact nofun
  case h_2 r =>
    refine ends_bind Ends.any fun layout laid => ?_
    rw [LayoutM.eval_layoutOf] at laid
    split
    case isTrue none =>
      rintro _ _ ⟨⟩
      exact ⟨rfl, laid, none⟩
    case isFalse => exact nofun

/-- The record has a layout, in which its data take no space. -/
def ZeroSized (known : Known) (r : RecordId) : Prop :=
  ∃ layout, known.record r = .ok layout ∧ layout.dataSize = 0

theorem not_zeroSized_ends {r : RecordId} : Ends (fun _ => True) ((zeroSized? (some r)).eval known)
    fun zero => zero = none → ¬ ZeroSized known r := by
  refine ends_bind Ends.any fun layout laid => ?_
  rw [LayoutM.eval_layoutOf] at laid
  split
  case isTrue => exact nofun
  case isFalse some =>
    rintro _ ⟨layout', laid', none⟩
    cases laid.symm.trans laid'
    exact some none

/-- The vbptr is put before `base`, since the search ends with it and neither it nor `moved`, which is
to move behind the vbptr, has data. The search has found nothing higher in `behind`. -/
inductive PutBefore (known : Known) (offsets : OrderedMap RecordId Bytes) (bases : List Base)
    (moved : Base) : Base → List Base → Prop
  | last {before after : List Base} (last : FirstHighest offsets bases before moved after)
      (zeroSized : ZeroSized known moved.record)
      (noOther : ∀ before' base between, FirstHighest offsets before before' base between →
        ¬ ZeroSized known base.record) : PutBefore known offsets bases moved moved after
  | penultimate {before after before' between : List Base} {base : Base}
      (last : FirstHighest offsets bases before moved after) (zeroSized : ZeroSized known moved.record)
      (penultimate : FirstHighest offsets before before' base between)
      (zeroSized' : ZeroSized known base.record) :
      PutBefore known offsets bases moved base (between ++ after)

/-- The search passes a base over although it lies no lower than the one that the vbptr is put
before. -/
def Overlooked (known : Known) (offsets : OrderedMap RecordId Bytes) (bases : List Base)
    (r : RecordId) : Prop :=
  ∃ moved base behind, PutBefore known offsets bases moved base behind ∧
    r ∈ behind.map (·.record) ∧ placeIn offsets base.record ≤ placeIn offsets r

namespace PutBefore

variable {offsets : OrderedMap RecordId Bytes} {bases behind : List Base} {moved base : Base}
variable (h : PutBefore known offsets bases moved base behind)
include h

theorem zeroSized : ZeroSized known base.record := by
  cases h <;> assumption

theorem movedZeroSized : ZeroSized known moved.record := by
  cases h <;> assumption

/-- Bases that are not behind lie lower, or are the one in question. -/
theorem cases {b : Base} (member : b ∈ bases) (other : b.record ≠ moved.record) :
    placeIn offsets b.record < placeIn offsets base.record ∨ b = base ∨ b ∈ behind := by
  cases h with
  | last last =>
    rw [last.split, List.mem_append, List.mem_cons] at member
    rcases member with earlier | rfl | later
    · exact .inl (last.past b earlier)
    · exact absurd rfl other
    · exact .inr (.inr later)
  | penultimate last _ second =>
    rw [last.split, List.mem_append, List.mem_cons] at member
    rcases member with earlier | rfl | later
    · rw [second.split, List.mem_append, List.mem_cons] at earlier
      rcases earlier with earlier | rfl | between
      · exact .inl (second.past b earlier)
      · exact .inr (.inl rfl)
      · exact .inr (.inr (List.mem_append_left _ between))
    · exact absurd rfl other
    · exact .inr (.inr (List.mem_append_right _ later))

end PutBefore

/-- Where all bases have data but for the one declared last, the search overlooks none. -/
theorem not_overlooked {offsets : OrderedMap RecordId Bytes} {bases : List Base}
    (data : ∀ base ∈ bases.dropLast, ¬ ZeroSized known base.record) (r : RecordId) :
    ¬ Overlooked known offsets bases r := by
  have atEnd {before after : List Base} {moved : Base}
      (last : FirstHighest offsets bases before moved after) (zeroSized : ZeroSized known moved.record) :
      after = [] := by
    cases after with
    | nil => rfl
    | cons next rest => exact absurd zeroSized (data moved (by simp [last.split]))
  rintro ⟨moved, base, behind, put, listed, _⟩
  cases put with
  | last last zeroSized => simp [atEnd last zeroSized] at listed
  | penultimate last zeroSized second zeroSized' =>
    refine data base ?_ zeroSized'
    rw [last.split, atEnd last zeroSized, List.dropLast_concat]
    exact second.member

/-- The vbptr starts after all bases, or before the one that the search ends with. -/
theorem vbptrStart_cases {found : LastBases} {last penultimate : Option (RecordId × RecordLayout)}
    {bases : List Base} {site : Nat} (scanned : Scanned st.baseOffsets bases found)
    (isLast : (zeroSized? found.last).eval known = .ok last)
    (isPenultimate : (zeroSized? found.penultimate).eval known = .ok penultimate)
    (starts : vbptrStart st last penultimate = .ok site) :
    (last = none ∧ site = st.size) ∨
    ∃ moved layout base behind, last = some (moved.record, layout) ∧
      PutBefore known st.baseOffsets bases moved base behind ∧
      st.baseOffsets.find? base.record = some site := by
  cases last with
  | none =>
    cases starts
    exact .inl ⟨rfl, rfl⟩
  | some last =>
    obtain ⟨l, layout⟩ := last
    obtain ⟨foundLast, laid, empty⟩ := zeroSized?_ends.value isLast l layout rfl
    have zeroSized : ZeroSized known l := ⟨layout, laid, empty⟩
    refine .inr ?_
    cases penultimate with
    | none =>
      have at' := baseOffset_eq_ok_iff.mp starts
      cases scanned with
      | none => cases foundLast
      | only last =>
        cases foundLast
        exact ⟨_, layout, _, _, rfl, .last last zeroSized fun _ _ _ other => by simpa using other.split, at'⟩
      | both last second =>
        cases foundLast
        refine ⟨_, layout, _, _, rfl, .last last zeroSized fun _ _ _ other => ?_, at'⟩
        rw [other.unique second]
        exact not_zeroSized_ends.value isPenultimate rfl
    | some penultimate =>
      obtain ⟨p, layout'⟩ := penultimate
      obtain ⟨foundPenultimate, laid', empty'⟩ := zeroSized?_ends.value isPenultimate p layout' rfl
      have at' := baseOffset_eq_ok_iff.mp starts
      cases scanned with
      | none | only => cases foundPenultimate
      | both last second =>
        cases foundLast
        cases foundPenultimate
        exact ⟨_, layout, _, _, rfl, .penultimate last zeroSized second ⟨layout', laid', empty'⟩, at'⟩

end Scan

section Order

/-- Bases lie in their row in the order of its list. -/
theorem Row.before {size size' : Nat} {ends ends' : Bool} {p q : PlacedBase}
    (h : Row f size ends row size' ends') (distinct : (row.map (·.record)).Nodup) (member : p ∈ row)
    (member' : q ∈ row) (order : List.Sublist [p.record, q.record] (row.map (·.record))) :
    p.stop ≤ q.offset := by
  obtain ⟨some, inRow, same⟩ := List.sublist_map_iff.mp order
  obtain ⟨p', q', rfl⟩ := List.length_eq_two.mp (by simpa using (congrArg List.length same).symm)
  simp only [List.map_cons, List.map_nil, List.cons.injEq, and_true] at same
  obtain rfl := List.inj_on_of_nodup_map distinct member (inRow.subset (by simp)) same.1
  obtain rfl := List.inj_on_of_nodup_map distinct member' (inRow.subset (by simp)) same.2
  simpa using List.Pairwise.sublist inRow h.ordered

/-- A base that is placed in the first walk. -/
def isLeading (known : Known) (base : Base) : Bool := known.has (·.hasExtendableVfptr) base.record

namespace BasesLaid

variable (h : BasesLaid f known start row based)
variable (distinct : (f.declaration.nonVirtualBases.map (·.record)).Nodup)

include h

theorem records_eq : row.map (·.record)
    = (f.declaration.nonVirtualBases.filter (isLeading known)
      ++ f.declaration.nonVirtualBases.filter (!isLeading known ·)).map (·.record) := by
  rw [h.records, ← List.map_append]
  simp only [Record.nonVirtualBases, List.filter_filter, Bool.and_comm]
  rfl

theorem exists_in_row {base : Base} (member : base ∈ f.declaration.nonVirtualBases) :
    ∃ p ∈ row, p.record = base.record := by
  have placed : base.record ∈ row.map (·.record) := by
    rw [h.records_eq]
    exact List.mem_map_of_mem ((List.filter_append_perm _ _).mem_iff.mpr member)
  exact List.mem_map.mp placed

theorem declared {p : PlacedBase} (member : p ∈ row) :
    ∃ base ∈ f.declaration.nonVirtualBases, base.record = p.record := by
  have placed : p.record ∈ row.map (·.record) := List.mem_map_of_mem member
  rw [h.records_eq] at placed
  obtain ⟨base, placed, same⟩ := List.mem_map.mp placed
  exact ⟨base, (List.filter_append_perm _ _).mem_iff.mp placed, same⟩

include distinct

theorem nodup : (row.map (·.record)).Nodup := by
  rw [h.records_eq]
  exact ((List.filter_append_perm _ _).map _).nodup_iff.mpr distinct

theorem find? (none : start.baseOffsets = .empty) {p : PlacedBase} (member : p ∈ row) :
    based.baseOffsets.find? p.record = some p.offset := by
  obtain ⟨base, declared, same⟩ := h.declared member
  obtain ⟨offset, found⟩ := Option.isSome_iff_exists.mp (h.entered base declared)
  rw [same] at found
  obtain ⟨q, member', same', rfl⟩ := h.exists_placed none found
  rw [List.inj_on_of_nodup_map (h.nodup distinct) member member' same'.symm] at found ⊢
  exact found

theorem before {p q : PlacedBase} (member : p ∈ row) (member' : q ∈ row)
    (order : List.Sublist [p.record, q.record]
      ((f.declaration.nonVirtualBases.filter (isLeading known)
        ++ f.declaration.nonVirtualBases.filter (!isLeading known ·)).map (·.record))) :
    p.stop ≤ q.offset := by
  obtain ⟨ends, inRow⟩ := h.inRow
  exact inRow.before (h.nodup distinct) member member' (h.records_eq ▸ order)

omit distinct in
/-- Of two bases one ends before the other starts. -/
theorem total {p q : PlacedBase} (member : p ∈ row) (member' : q ∈ row) (differ : p ≠ q) :
    p.stop ≤ q.offset ∨ q.stop ≤ p.offset := by
  obtain ⟨ends, inRow⟩ := h.inRow
  let Apart (p q : PlacedBase) : Prop := p.stop ≤ q.offset ∨ q.stop ≤ p.offset
  have symmetric : Std.Symm Apart := ⟨fun _ _ => Or.symm⟩
  have either : row.Pairwise Apart := inRow.ordered.imp Or.inl
  exact either.forall member member' differ

end BasesLaid

section Site

theorem PlacedBase.stop_eq {p : PlacedBase} (empty : p.layout.dataSize = 0) : p.stop = p.offset := by
  rw [PlacedBase.stop, empty]
  rfl

variable (h : BasesLaid f known start row based)
include h

/-- The bases declared past one without data, as long as they are placed past it as well. -/
theorem stop_le_of_after (distinct : (f.declaration.nonVirtualBases.map (·.record)).Nodup)
    {before after : List Base} {base base' : Base} {p q : PlacedBase}
    (split : f.declaration.nonVirtualBases = before ++ base :: after) (later : base' ∈ after)
    (member : p ∈ row) (member' : q ∈ row) (same : base.record = p.record)
    (same' : base'.record = q.record) (follows : isLeading known base = false)
    (follows' : isLeading known base' = false) : p.stop ≤ q.offset := by
  refine h.before distinct member member' ?_
  rw [List.map_append]
  refine List.Sublist.trans ?_ (List.sublist_append_right _ _)
  have pair : List.Sublist [base, base'] f.declaration.nonVirtualBases := by
    rw [split]
    exact List.Sublist.trans (.cons_cons base (List.singleton_sublist.mpr later))
      (List.sublist_append_right _ _)
  have kept := (pair.filter (!isLeading known ·)).map (·.record)
  simpa [follows, follows', same, same'] using kept

variable (none : start.baseOffsets = .empty)
include none

/-- A base ends before the vbptr, unless it moves behind it or is overlooked. -/
theorem PutBefore.stop_le {moved base : Base} {behind : List Base} {site : Nat}
    (put : PutBefore known based.baseOffsets f.declaration.nonVirtualBases moved base behind)
    (starts : based.baseOffsets.find? base.record = some site) {p : PlacedBase} (member : p ∈ row)
    (at' : based.baseOffsets.find? p.record = some p.offset) (other : p.record ≠ moved.record) :
    p.stop ≤ site ∨
      Overlooked known based.baseOffsets f.declaration.nonVirtualBases p.record := by
  obtain ⟨q, member', same, rfl⟩ := h.exists_placed none starts
  obtain ⟨layout, laid, empty⟩ := put.zeroSized
  rw [← same] at laid
  cases (h.laid q member').symm.trans laid
  obtain ⟨b, declared, sameB⟩ := h.declared member
  by_cases first : p.stop ≤ q.offset
  · exact .inl first
  -- The row has `q`, which takes no space, before `p`.
  have past : q.offset ≤ p.offset := by
    by_cases here : p = q
    · rw [here]
    · have later := (h.total member member' here).resolve_left first
      rwa [PlacedBase.stop_eq empty] at later
  rcases put.cases declared (sameB ▸ other) with lower | rfl | later
  · rw [sameB, placeIn_eq at', placeIn_eq starts] at lower
    exact absurd past lower.not_ge
  · have together : p.record = q.record := sameB.symm.trans same.symm
    have laid' := h.laid p member
    rw [together] at laid'
    rw [together, same, starts] at at'
    have layouts := Except.ok.inj (laid'.symm.trans (h.laid q member'))
    rw [PlacedBase.stop_eq (layouts ▸ empty)]
    exact .inl (Option.some.inj at').ge
  · refine .inr ⟨moved, base, behind, put, sameB ▸ List.mem_map_of_mem later, ?_⟩
    rwa [placeIn_eq at', placeIn_eq starts]

end Site

end Order

section Leading

/-- Where the bases of a class with leading pointers end up: between the vfptr and `site`, or moved
behind the vbptr, or overlooked. -/
structure BasesLead (f : Frame) (known : Known) (start : State) (row : List PlacedBase)
    (based between : State) (site : Nat) : Prop where
  start_le : start.size ≤ site
  le_size : site ≤ between.size
  vbptr : between.needsOwnVbptr = true → site ≤ between.vbptrOffset ∧
    between.vbptrOffset + f.pointerSize ≤ between.size
  base : ∀ {r layout} {offset : Nat}, known.record r = .ok layout →
    between.baseOffsets.find? r = some offset → (layout.dataSize = 0 ∧ offset ≤ between.size) ∨
      ⟨r, layout, offset⟩ ∈ row ∧ (offset + layout.dataSize ≤ site ∨ between.needsOwnVbptr = true ∧
        Overlooked known based.baseOffsets f.declaration.nonVirtualBases r)

theorem layVbptrAsBase_leads (h : BasesLaid f known start row based)
    (none : start.baseOffsets = .empty) :
    Ends (fun _ => True) ((layVbptrAsBase f based).eval known) fun between =>
      ∃ site, BasesLead f known start row based between site := by
  obtain ⟨ends, inRow⟩ := h.inRow
  have placed {r : RecordId} {layout : RecordLayout} {offset : Nat} (laid : known.record r = .ok layout)
      (found : based.baseOffsets.find? r = some offset) : ⟨r, layout, offset⟩ ∈ row := by
    obtain ⟨p, member, rfl, rfl⟩ := h.exists_placed none found
    cases (h.laid p member).symm.trans laid
    exact member
  refine (layVbptrAsBase_ends based).imp ?_
  rintro between (⟨shared, rfl⟩ | ⟨own, ⟨found, last, penultimate, site, scan, isLast, isPenultimate,
    starts, past, stop, room, state⟩⟩)
  case inl =>
    refine ⟨between.size, inRow.le, le_rfl, fun own => by simp [shared] at own, ?_⟩
    intro r layout offset laid found
    have member := placed laid found
    exact .inr ⟨member, .inl (inRow.inside _ member).2⟩
  case inr =>
    have size : between.size = stop := congrArg State.size state
    have own : between.needsOwnVbptr = true := by
      rw [state]
      exact own
    have offsets := congrArg State.baseOffsets state
    dsimp only at offsets
    have scanned := (lastBases_ends based).value scan
    have within : site ≤ between.size := by
      rw [size]
      exact (past.trans (Nat.le_add_right _ _)).trans room
    rcases vbptrStart_cases scanned isLast isPenultimate starts with
      ⟨rfl, rfl⟩ | ⟨moved, layout, base, behind, rfl, put, starts⟩
    case inl =>
      refine ⟨_, inRow.le, within, fun _ => ⟨past, size ▸ room⟩, ?_⟩
      intro r layout offset laid found
      rw [offsets] at found
      have member := placed laid found
      exact .inr ⟨member, .inl (inRow.inside _ member).2⟩
    case inr =>
      refine ⟨site, ?_, within, fun _ => ⟨past, size ▸ room⟩, ?_⟩
      case refine_1 =>
        obtain ⟨p, member, _, rfl⟩ := h.exists_placed none starts
        exact (inRow.inside p member).1
      case refine_2 =>
        intro r layout' offset laid found
        rw [offsets] at found
        by_cases here : r = moved.record
        · obtain ⟨empty, laidMoved, none⟩ := put.movedZeroSized
          rw [here] at laid
          cases laid.symm.trans laidMoved
          rw [here, Option.elim_some, OrderedMap.find?_insert_self] at found
          rw [size]
          exact .inl ⟨none, (Option.some.inj found).ge⟩
        · rw [Option.elim_some, OrderedMap.find?_insert_of_ne _ _ here] at found
          have member := placed laid found
          refine .inr ⟨member, ?_⟩
          exact (put.stop_le h none starts member found here).imp_right fun overlooked =>
            ⟨own, overlooked⟩

variable {before : State} {site : Nat}

/-- The part is placed after all bases. -/
def Part.isPlacedLast : Part → Bool
  | .vbptr | .field _ => true
  | .vfptr | .base _ | .vtordisp _ | .virtualBase _ => false

/-- The slot of a leading vfptr. -/
def leadingVfptr (f : Frame) (st : State) : List Slot :=
  if st.hasOwnVfptr then [.ofBytes .vfptr 0 f.pointerSize] else []

/-- The slots of what follows the bases. -/
def vbptrAndFields (f : Frame) (known : Known) (st : State) : List Slot :=
  (if st.needsOwnVbptr then [.ofBytes .vbptr st.vbptrOffset f.pointerSize] else [])
    ++ fieldSlots known f.declaration.fields st.fieldOffsets

theorem Placed.listed {slot : Slot} (h : Placed f known st slot) :
    (∃ r layout offset, known.record r = .ok layout ∧ st.baseOffsets.find? r = some offset ∧
      slot = .ofBytes (.base r) offset layout.dataSize) ∨
    slot ∈ leadingVfptr f st ∨ slot ∈ vbptrAndFields f known st ∧ slot.part.isPlacedLast = true := by
  cases h with
  | vfptr has => exact .inr (.inl (by simp [leadingVfptr, has]))
  | vbptr needs => exact .inr (.inr ⟨by simp [vbptrAndFields, needs], rfl⟩)
  | base laid at' => exact .inl ⟨_, _, _, laid, at', rfl⟩
  | field declared at' => exact .inr (.inr ⟨List.mem_append_right _ (mem_fieldSlots declared at'), rfl⟩)

section Assembled

variable (h : Assembled f known (leadingStart f before) row based between st)
variable (leading : BasesLead f known (leadingStart f before) row based between site)
variable (own : st.hasOwnVfptr = before.hasOwnVfptr)

theorem Assembled.between_needsOwnVbptr (h : Assembled f known start row based between st) :
    between.needsOwnVbptr = st.needsOwnVbptr := by
  obtain ⟨size, vbptrOffset, baseOffsets, rfl⟩ := h.moved
  exact h.needsOwnVbptr

include own in
theorem leadingVfptr_chain : Chain 0 (leadingVfptr f st) (8 * (leadingStart f before).size) := by
  unfold leadingVfptr leadingStart
  rw [own]
  dsimp only
  split
  · exact .single le_rfl (Nat.mul_le_mul_left 8 (Nat.le_add_right _ _))
      (Nat.mul_le_mul_left 8 (Nat.zero_add _).le)
  · exact .nil (Nat.zero_le _)

include h leading

theorem Assembled.vbptrAndFields_chain (notUnion : f.isUnion = false) :
    Chain (8 * site) (vbptrAndFields f known st) (8 * st.size) := by
  have fields := h.fields.chain notUnion
  simp only [State.front, Bool.false_eq_true, if_false] at fields
  refine Chain.append ?_ (fields.raise st.front_le)
  rw [← h.between_needsOwnVbptr, h.fields.vbptrOffset]
  change Chain _ _ (8 * between.size)
  split
  case isTrue needs =>
    obtain ⟨past, room⟩ := leading.vbptr needs
    exact .single (Nat.mul_le_mul_left 8 past) (Nat.mul_le_mul_left 8 (Nat.le_add_right _ _))
      (Nat.mul_le_mul_left 8 room)
  case isFalse => exact .nil (Nat.mul_le_mul_left 8 leading.le_size)

/-- Where a base of the class ended up. -/
theorem Assembled.base_cases {r : RecordId} {layout : RecordLayout} {offset : Nat}
    (laid : known.record r = .ok layout) (at' : st.baseOffsets.find? r = some offset) :
    (layout.dataSize = 0 ∧ offset ≤ between.size) ∨
      ⟨r, layout, offset⟩ ∈ row ∧ (offset + layout.dataSize ≤ site ∨ st.needsOwnVbptr = true ∧
        Overlooked known based.baseOffsets f.declaration.nonVirtualBases r) := by
  rw [h.fields.baseOffsets] at at'
  rw [← h.between_needsOwnVbptr]
  exact leading.base laid at'

include own

/-- Everything ends inside if the overlooked bases do. -/
theorem Assembled.endsBy {stop : Nat} (past : st.size ≤ stop)
    (inside : st.needsOwnVbptr = true → ∀ r,
      Overlooked known based.baseOffsets f.declaration.nonVirtualBases r →
        ∀ slot, Placed f known st slot → slot.part = .base r → slot.stop ≤ 8 * stop) :
    EndsBy f known st stop := by
  have past : between.size ≤ stop := h.fields.grows.trans past
  have upToSite {n : Nat} (le : n ≤ site) : n ≤ stop := (le.trans leading.le_size).trans past
  intro slot placed
  have slotPlaced := placed
  cases placed with
  | vfptr has =>
    have leads := (leadingVfptr_chain (f := f) own).inside (.ofBytes .vfptr 0 f.pointerSize)
      (by simp [leadingVfptr, has])
    exact leads.2.2.trans (Nat.mul_le_mul_left 8 (upToSite leading.start_le))
  | vbptr needs =>
    rw [← h.between_needsOwnVbptr] at needs
    have room := (leading.vbptr needs).2
    rw [← h.fields.vbptrOffset] at room
    exact Nat.mul_le_mul_left 8 (room.trans past)
  | @base r layout offset laid at' =>
    rcases h.base_cases leading laid at' with ⟨empty, moved⟩ | ⟨_, first | ⟨needs, overlooked⟩⟩
    · rw [empty]
      exact Nat.mul_le_mul_left 8 (moved.trans past)
    · exact Nat.mul_le_mul_left 8 (upToSite first)
    · exact inside needs r overlooked _ slotPlaced rfl
  | field declared at' =>
    exact (h.fields.inside _ (mem_fieldSlots declared at')).trans (Nat.mul_le_mul_left 8 ‹_›)

/-- A base shares no bit with another part, unless it is overlooked and has come upon the vbptr or a
field. -/
theorem Assembled.base_disjoint (notUnion : f.isUnion = false) {r : RecordId} {layout : RecordLayout}
    {offset : Nat} (laid : known.record r = .ok layout) (at' : st.baseOffsets.find? r = some offset)
    {slot : Slot} (placed : Placed f known st slot) (differ : Part.base r ≠ slot.part)
    (apart : slot.part.isPlacedLast = true → st.needsOwnVbptr = true →
      Overlooked known based.baseOffsets f.declaration.nonVirtualBases r →
        Disjoint (Slot.ofBytes (.base r) offset layout.dataSize).bits slot.bits) :
    Disjoint (Slot.ofBytes (.base r) offset layout.dataSize).bits slot.bits := by
  obtain ⟨ends, inRow⟩ := h.bases.inRow
  have without {r : RecordId} {layout : RecordLayout} {offset : Nat} (empty : layout.dataSize = 0) :
      (Slot.ofBytes (.base r) offset layout.dataSize).bits = ∅ := by
    simp [Slot.bits, Slot.ofBytes, empty]
  rcases h.base_cases leading laid at' with ⟨empty, _⟩ | ⟨member, place⟩
  · simp [without empty]
  have inside := inRow.inside _ member
  rcases placed.listed with ⟨r', layout', offset', laid', found, rfl⟩ | vfptr | ⟨later, last⟩
  · rcases h.base_cases leading laid' found with ⟨empty, _⟩ | ⟨member', _⟩
    · simp [without empty]
    · exact inRow.chain.disjoint (List.mem_map_of_mem member) (List.mem_map_of_mem member') differ
  · have stops := ((leadingVfptr_chain own).inside _ vfptr).2.2
    exact (Slot.disjoint_of_le (stops.trans (Nat.mul_le_mul_left 8 inside.1))).symm
  · rcases place with first | ⟨needs, overlooked⟩
    · have starts := ((h.vbptrAndFields_chain leading notUnion).inside _ later).1
      exact Slot.disjoint_of_le ((Nat.mul_le_mul_left 8 first).trans starts)
    · exact apart last needs overlooked

/-- Nothing overlaps if the overlooked bases leave the vbptr and the fields alone. -/
theorem Assembled.spread (notUnion : f.isUnion = false) (apart : st.needsOwnVbptr = true → ∀ r,
      Overlooked known based.baseOffsets f.declaration.nonVirtualBases r →
        ∀ slot slot', Placed f known st slot → Placed f known st slot' → slot.part = .base r →
          slot'.part.isPlacedLast = true → Disjoint slot.bits slot'.bits) : Spread f known st := by
  have base {r : RecordId} {layout : RecordLayout} {offset : Nat}
      (laid : known.record r = .ok layout) (at' : st.baseOffsets.find? r = some offset) {slot : Slot}
      (placed : Placed f known st slot) (differ : Part.base r ≠ slot.part) :
      Disjoint (Slot.ofBytes (.base r) offset layout.dataSize).bits slot.bits :=
    h.base_disjoint leading own notUnion laid at' placed differ fun last needs overlooked =>
      apart needs r overlooked _ _ (.base laid at') placed rfl last
  have others := ((leadingVfptr_chain own).raise (Nat.mul_le_mul_left 8 leading.start_le)).append
    (h.vbptrAndFields_chain leading notUnion)
  intro slot slot' placed placed' differ
  rcases placed.listed with ⟨r, layout, offset, laid, at', rfl⟩ | other
  · exact base laid at' placed' differ
  rcases placed'.listed with ⟨r, layout, offset, laid, at', rfl⟩ | other'
  · exact (base laid at' placed differ.symm).symm
  exact others.disjoint (List.mem_append.mpr (other.imp_right And.left))
    (List.mem_append.mpr (other'.imp_right And.left)) differ

end Assembled

end Leading

section Relaid

variable {s : Setting} {d : RecordId} {layout : RecordLayout} {depth : Nat}

/-- The non-virtual bases in the order in which they are placed. -/
def placementOrder (s : Setting) (known : Known) (d : RecordId) : List RecordId :=
  let bases := (s.tree.record d).nonVirtualBases
  (bases.filter (isLeading known) ++ bases.filter (!isLeading known ·)).map (·.record)

/-- Where the bases of a class are put before a leading vbptr is. -/
structure FirstPlaces (s : Setting) (known : Known) (d : RecordId) (layout : RecordLayout)
    (row : List PlacedBase) : Prop where
  inRow : ∃ size ends, Row (Frame.ofRecord s d)
    (if layout.hasOwnVfptr then s.target.pointerWidth else 0) false row size ends
  laid : ∀ p ∈ row, known.record p.record = .ok p.layout
  records : row.map (·.record) = placementOrder s known d

/-- A class that is laid out again, with a vbptr of its own leading, overlooks a base in its search for
the last ones. -/
structure OverlooksBase (s : Setting) (known : Known) (d : RecordId) (layout : RecordLayout)
    (r : RecordId) : Prop where
  wide : s.target.is64Bit = true
  aligned : 8 < layout.requiredAlignment
  vbptr : layout.hasOwnVbptr = true
  overlooked : ∃ row, FirstPlaces s known d layout row ∧
    Overlooked known (enter .empty row) (s.tree.record d).nonVirtualBases r

/-- A base ends inside its class. -/
def BaseInside (s : Setting) (known : Known) (d : RecordId) (layout : RecordLayout) (r : RecordId) :
    Prop :=
  ∀ slot, Occupies s known d layout slot → slot.part = .base r → slot.stop ≤ 8 * layout.dataSize

/-- A base leaves the vbptr and the fields of its class alone. -/
def BaseApart (s : Setting) (known : Known) (d : RecordId) (layout : RecordLayout) (r : RecordId) :
    Prop :=
  ∀ slot slot', Occupies s known d layout slot → Occupies s known d layout slot' →
    slot.part = .base r → slot'.part.isPlacedLast = true → Disjoint slot.bits slot'.bits

namespace ClassRun

variable {known : Known} (run : ClassRun (Frame.ofRecord s d) known)
variable (relaid : run.laid.isRelaid (Frame.ofRecord s d) = true)
include relaid

/-- What a class that is laid out again is assembled from. -/
theorem exists_leading : ∃ row based between st site,
    Assembled (Frame.ofRecord s d) known (leadingStart (Frame.ofRecord s d) run.laid) row based between
      st ∧
    BasesLead (Frame.ofRecord s d) known (leadingStart (Frame.ofRecord s d) run.laid) row based between
      site ∧
    st.hasOwnVfptr = run.laid.hasOwnVfptr ∧ run.pointed = { st with hasZeroSizedSubobject := false } ∧
    (st.needsOwnVbptr = true → ∀ r, Overlooked known based.baseOffsets
      (s.tree.record d).nonVirtualBases r → OverlooksBase s known d run.last.classLayout r) := by
  suffices again : Ends (fun _ => True) ((layPointers (Frame.ofRecord s d) run.laid).eval known)
      fun pointed => ∃ row based between st site,
        Assembled (Frame.ofRecord s d) known (leadingStart (Frame.ofRecord s d) run.laid) row based
          between st ∧
        BasesLead (Frame.ofRecord s d) known (leadingStart (Frame.ofRecord s d) run.laid) row based
          between site ∧
        st.hasOwnVfptr = run.laid.hasOwnVfptr ∧ pointed = { st with hasZeroSizedSubobject := false } ∧
        (st.needsOwnVbptr = true → ∀ r, Overlooked known based.baseOffsets
          (s.tree.record d).nonVirtualBases r → OverlooksBase s known d run.last.classLayout r) from
    again.value run.pointers
  refine layPointers_cases (fun none none' => ?none) (fun _ => ?_) fun once => ?once
  case none => simp [State.isRelaid, none, none'] at relaid
  case once => simp [relaid] at once
  refine (layWithLeadingPointers_ends run.laid).imp ?_
  rintro st' ⟨row, based, between, st, again, placed, _, rfl⟩
  obtain ⟨site, leading⟩ := (layVbptrAsBase_leads again.bases rfl).value placed
  have flags := again.flags.trans run.once.flags.symm
  simp only [State.flags, Prod.mk.injEq] at flags
  obtain ⟨_, _, own, hasVbptr, vbptrBase⟩ := flags
  refine ⟨row, based, between, st, site, again, leading, own, rfl, fun needs r overlooked => ?_⟩
  have places : FirstPlaces s known d run.last.classLayout row := by
    obtain ⟨ends, inRow⟩ := again.bases.inRow
    refine ⟨?_, again.bases.laid, again.bases.records_eq⟩
    rw [run.hasOwnVfptr_eq]
    exact ⟨_, ends, inRow⟩
  obtain ⟨_, wide, aligned⟩ := run.isRelaid_iff.mp relaid
  refine ⟨(Frame.is64Bit_eq _).symm.trans wide, aligned, ?_, row, places,
    again.bases.baseOffsets ▸ overlooked⟩
  rw [run.hasOwnVbptr_eq, State.needsOwnVbptr, ← hasVbptr, ← vbptrBase]
  exact needs

theorem leading_endsBy (inside : ∀ r, OverlooksBase s known d run.last.classLayout r →
      BaseInside s known d run.last.classLayout r) :
    EndsBy (Frame.ofRecord s d) known run.pointed run.last.classLayout.dataSize := by
  obtain ⟨row, based, between, st, site, again, leading, own, pointed, overlooks⟩ :=
    run.exists_leading relaid
  have same : run.pointed.places = st.places := by rw [pointed]; rfl
  obtain ⟨size, grows, _, closed⟩ := run.closing
  have past : st.size ≤ run.last.classLayout.dataSize := by
    rw [run.dataSize_eq, closed]
    exact (congrArg State.size pointed).ge.trans grows
  have ends := again.endsBy leading own past fun needs r overlooked slot placed part =>
    inside r (overlooks needs r overlooked) slot (run.occupies (placed.congr same)) part
  exact fun slot placed => ends slot (placed.congr same.symm)

theorem leading_spread (notUnion : (s.tree.record d).isUnion = false)
    (apart : ∀ r, OverlooksBase s known d run.last.classLayout r →
      BaseApart s known d run.last.classLayout r) : Spread (Frame.ofRecord s d) known run.pointed := by
  obtain ⟨row, based, between, st, site, again, leading, own, pointed, overlooks⟩ :=
    run.exists_leading relaid
  have same : run.pointed.places = st.places := by rw [pointed]; rfl
  have spread := again.spread leading own notUnion
    fun needs r overlooked slot slot' placed placed' part last =>
      apart r (overlooks needs r overlooked) slot slot' (run.occupies (placed.congr same))
        (run.occupies (placed'.congr same)) part last
  exact fun slot slot' placed placed' =>
    spread slot slot' (placed.congr same.symm) (placed'.congr same.symm)

end ClassRun

/-- The parts of any record are inside it, as long as the bases that it overlooks are. -/
theorem parts_inside (microsoft : s.usesMicrosoftLayout = true)
    (laid : (s.known depth).record d = .ok layout)
    (overlooked : ∀ r, OverlooksBase s (s.known depth) d layout r →
      BaseInside s (s.known depth) d layout r) : PartsInside s (s.known depth) d layout := by
  cases isClass : (s.tree.record d).isClass with
  | true =>
    obtain ⟨run, rfl⟩ := classRun microsoft isClass (s.known_record laid)
    cases relaid : run.laid.isRelaid (Frame.ofRecord s d) with
    | true => exact run.partsInside (run.leading_endsBy relaid overlooked)
    | false => exact run.partsInside (run.pushed_endsBy relaid)
  | false =>
    obtain ⟨run, rfl⟩ := plainRun microsoft isClass (s.known_record laid)
    exact run.partsInside

/-- Parts of a class that is laid out again with its pointers leading do not overlap, and all of them
lie inside, just if this is so of the bases that the search for the last ones overlooks. -/
theorem leading_parts_never_overlap (microsoft : s.usesMicrosoftLayout = true)
    (isClass : (s.tree.record d).isClass = true) (notUnion : (s.tree.record d).isUnion = false)
    (laid : (s.known depth).record d = .ok layout) (wide : s.target.is64Bit = true)
    (aligned : 8 < layout.requiredAlignment)
    (pointer : layout.hasOwnVfptr = true ∨ layout.hasOwnVbptr = true) :
    (PartsApart s (s.known depth) d layout ∧ PartsInside s (s.known depth) d layout) ↔
      ∀ r, OverlooksBase s (s.known depth) d layout r →
        BaseInside s (s.known depth) d layout r ∧ BaseApart s (s.known depth) d layout r := by
  have hasVbptr := hasVbptr_of_virtualBases microsoft laid
  obtain ⟨run, rfl⟩ := classRun microsoft isClass (s.known_record laid)
  have relaid : run.laid.isRelaid (Frame.ofRecord s d) = true :=
    run.isRelaid_iff.mpr ⟨pointer, (Frame.is64Bit_eq _).trans wide, aligned⟩
  constructor
  · rintro ⟨apart, inside⟩ r _
    refine ⟨fun slot occupies part => inside.nonVirtual slot occupies (part ▸ rfl), ?_⟩
    intro slot slot' occupies occupies' part last
    refine apart.disjoint slot slot' occupies occupies' fun same => ?_
    simp [← same, part, Part.isPlacedLast] at last
  · intro overlooked
    have inside := run.leading_endsBy relaid fun r overlooks => (overlooked r overlooks).1
    have spread := run.leading_spread relaid notUnion fun r overlooks => (overlooked r overlooks).2
    exact ⟨run.partsApart inside spread hasVbptr, run.partsInside inside⟩

end Relaid

section Examples

/-- `D` asks for an alignment of sixteen bytes and inherits from `Z`, which has no data, `N`, which has,
and virtually from `V`. -/
def overAligned (bases : List Base) : Setting :=
  .windows .x86_64 [
    .ofClass "Z" [] [] [],
    .ofClass "N" [{ name := "n", type := .scalar ⟨0⟩ (.integer .int .signed) }] [] [],
    .ofClass "V" [{ name := "v", type := .scalar ⟨0⟩ (.integer .int .signed) }] [] [],
    .ofClass "D" [{ name := "d", type := .scalar ⟨0⟩ (.integer .int .signed) }]
      (bases ++ [{ record := ⟨2⟩, isVirtual := true }]) [] { alignment := some 16 }] []

def dataFirst : Setting := overAligned [{ record := ⟨1⟩ }, { record := ⟨0⟩ }]

def dataLast : Setting := overAligned [{ record := ⟨0⟩ }, { record := ⟨1⟩ }]

theorem leading_parts_never_overlap_dataFirst : ∃ layout,
    (dataFirst.known 4).record ⟨3⟩ = .ok layout ∧
      PartsApart dataFirst (dataFirst.known 4) ⟨3⟩ layout ∧
      PartsInside dataFirst (dataFirst.known 4) ⟨3⟩ layout := by
  obtain ⟨layout, laid⟩ := exists_ok (by decide +kernel :
    ((dataFirst.known 4).record ⟨3⟩).isOk = true)
  have aligned : (dataFirst.known 4).has (decide <| 8 < ·.requiredAlignment) ⟨3⟩ = true := by
    decide +kernel
  have own : (dataFirst.known 4).has (·.hasOwnVbptr) ⟨3⟩ = true := by decide +kernel
  have data : (dataFirst.known 4).has (·.dataSize != 0) ⟨1⟩ = true := by decide +kernel
  rw [Known.has_eq laid] at aligned own
  have none (base : Base) (member : base ∈ (dataFirst.tree.record ⟨3⟩).nonVirtualBases.dropLast) :
      ¬ ZeroSized (dataFirst.known 4) base.record := by
    cases List.mem_singleton.mp member
    rintro ⟨inner, laidInner, empty⟩
    rw [Known.has_eq laidInner, empty] at data
    cases data
  exact ⟨layout, laid, (leading_parts_never_overlap (by decide) (by decide) (by decide) laid
    (by decide) (of_decide_eq_true aligned) (.inr own)).mpr
    fun r overlooks => absurd overlooks.overlooked fun ⟨_, _, overlooked⟩ =>
      not_overlooked none r overlooked⟩

/-- Where `Z` is declared before `N`, both start where the vbptr is put, and `N` stays there. -/
theorem leading_vbptr_overlaps_dataLast : ∃ layout,
    (dataLast.known 4).record ⟨3⟩ = .ok layout ∧ dataLast.usesMicrosoftLayout = true ∧
      dataLast.target.is64Bit = true ∧ 8 < layout.requiredAlignment ∧ layout.hasOwnVbptr = true ∧
      ∃ slot slot', Occupies dataLast (dataLast.known 4) ⟨3⟩ layout slot ∧
        Occupies dataLast (dataLast.known 4) ⟨3⟩ layout slot' ∧
        slot.part = .vbptr ∧ slot'.part = .base ⟨1⟩ ∧ ¬ Disjoint slot.bits slot'.bits := by
  obtain ⟨layout, laid⟩ := exists_ok (by decide +kernel :
    ((dataLast.known 4).record ⟨3⟩).isOk = true)
  obtain ⟨base, laidBase⟩ := exists_ok (by decide +kernel :
    ((dataLast.known 4).record ⟨1⟩).isOk = true)
  have aligned : (dataLast.known 4).has (decide <| 8 < ·.requiredAlignment) ⟨3⟩ = true := by
    decide +kernel
  have vbptr : (dataLast.known 4).has (·.vbptr? == some ⟨0, none⟩) ⟨3⟩ = true := by decide +kernel
  have at' : (dataLast.known 4).has (fun layout => layout.baseOffset ⟨1⟩ matches .ok 0) ⟨3⟩ = true := by
    decide +kernel
  have data : (dataLast.known 4).has (·.dataSize == 4) ⟨1⟩ = true := by decide +kernel
  rw [Known.has_eq laid] at aligned vbptr at'
  rw [Known.has_eq laidBase, beq_iff_eq] at data
  have vbptr := beq_iff_eq.mp vbptr
  have at' : layout.baseOffset ⟨1⟩ = .ok 0 := by
    split at at' <;> first | assumption | cases at'
  refine ⟨layout, laid, by decide, by decide, of_decide_eq_true aligned, ?_, _, _, .vbptr vbptr,
    .base at' laidBase, rfl, rfl, ?_⟩
  · rw [RecordLayout.hasOwnVbptr, vbptr]
    rfl
  · refine Set.not_disjoint_iff.mpr ⟨0, ?_, ?_⟩
    · exact ⟨le_rfl, by decide⟩
    · rw [data]
      exact ⟨le_rfl, by decide⟩

end Examples

end ObjectLayout.Microsoft
