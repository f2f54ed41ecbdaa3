import ObjectLayout.Proofs.Microsoft.Leading
import ObjectLayout.Proofs.Microsoft.Vbptr

/-! What a class keeps in its tables. Each non-virtual base has one offset and each virtual base one
slot, the primary base lies at the start, and a shared vbptr is where its base has it. Pushing pointers
in, or laying the class out again behind them, moves bases about but loses sight of none of this. -/
namespace ObjectLayout.Microsoft

open LayoutM (ends_bind ends_lift_bind)

variable {f : Frame} {known : Known} {st st' start based : State} {row : List PlacedBase}

/-- A row of bases that are not yet in the table adds one entry for each, in its own order. -/
theorem keys_enter {offsets : OrderedMap RecordId Bytes}
    (distinct : (row.map (·.record)).Nodup) (fresh : ∀ p ∈ row, p.record ∉ offsets.keys) :
    (enter offsets row).keys = offsets.keys ++ row.map (·.record) := by
  induction row generalizing offsets with
  | nil => simp [enter]
  | cons p row ih =>
    simp only [List.map_cons, List.nodup_cons] at distinct
    obtain ⟨alone, distinct⟩ := distinct
    have first : (offsets.insert p.record p.offset).keys = offsets.keys ++ [p.record] :=
      offsets.keys_insert_of_not_mem p.offset (fresh p (by simp))
    have rest : ∀ q ∈ row, q.record ∉ (offsets.insert p.record p.offset).keys := by
      intro q member
      have other : q.record ≠ p.record := fun same => alone (same ▸ List.mem_map_of_mem member)
      simp [first, other, fresh q (.tail _ member)]
    calc (enter (offsets.insert p.record p.offset) row).keys
      _ = offsets.keys ++ [p.record] ++ row.map (·.record) := by rw [ih distinct rest, first]
      _ = offsets.keys ++ (p :: row).map (·.record) := by simp

/-- Every non-virtual base has an entry in the table, nothing else has one, and the primary base is at
the start. -/
structure State.BasesListed (f : Frame) (st : State) : Prop where
  keys : st.baseOffsets.keys.Perm (f.declaration.nonVirtualBases.map (·.record))
  primary : ∀ p, st.primaryBase = some p → st.baseOffsets.find? p = some 0

namespace BasesLaid

variable (h : BasesLaid f known start row based)
include h

theorem keys_perm (none : start.baseOffsets = .empty)
    (distinct : (f.declaration.nonVirtualBases.map (·.record)).Nodup) :
    based.baseOffsets.keys.Perm (f.declaration.nonVirtualBases.map (·.record)) := by
  rw [h.baseOffsets, none, keys_enter (h.nodup distinct) (by simp [OrderedMap.empty, OrderedMap.keys])]
  simp only [OrderedMap.keys, OrderedMap.empty, List.map_nil, List.nil_append, h.records_eq]
  exact (List.filter_append_perm _ _).map _

/-- The primary base is the first of its row, and has a table pointer. -/
theorem exists_primary {p : RecordId} (primary : based.primaryBase = some p) :
    ∃ q rest, row = q :: rest ∧ q.record = p ∧ q.layout.hasExtendableVfptr = true := by
  rw [h.primaryBase, Option.map_eq_some_iff] at primary
  obtain ⟨base, found, rfl⟩ := primary
  have first : (f.declaration.bases.filter (leads known)).head? = some base := by
    rw [List.head?_filter, found]
  obtain ⟨others, split⟩ := List.head?_eq_some_iff.mp first
  have records := h.records
  rw [split, List.map_cons, List.cons_append, List.map_eq_cons_iff] at records
  obtain ⟨q, rest, rfl, same, _⟩ := records
  refine ⟨q, rest, rfl, same, ?_⟩
  have leading : known.has (·.hasExtendableVfptr) base.record = true := by
    have leads := List.find?_some found
    simp only [Microsoft.leads, Bool.and_eq_true] at leads
    exact leads.2
  rwa [← same, Known.has_eq (h.laid q (by simp))] at leading

variable (data : ∀ {r layout}, known.record r = .ok layout → layout.hasExtendableVfptr = true →
  0 < layout.dataSize)
include data

/-- The primary base lies at the start, before everything that the class adds. -/
theorem primary_placed (empty : start.size = 0) {p : RecordId} (primary : based.primaryBase = some p) :
    ∃ q ∈ row, q.record = p ∧ q.offset = 0 ∧ 0 < q.layout.dataSize := by
  obtain ⟨q, rest, rfl, rfl, extendable⟩ := h.exists_primary primary
  obtain ⟨ends, inRow⟩ := h.inRow
  refine ⟨q, by simp, rfl, ?_, data (h.laid q (by simp)) extendable⟩
  cases inRow with
  | cons positive offset _ =>
    rw [offset, empty]
    have least := Quantity.roundUp_le (Nat.pos_of_ne_zero positive) le_rfl (Nat.dvd_zero _)
    exact Nat.eq_zero_of_le_zero least

theorem basesListed (none : start.baseOffsets = .empty)
    (distinct : (f.declaration.nonVirtualBases.map (·.record)).Nodup)
    (empty : based.primaryBase.isSome = true → start.size = 0) : based.BasesListed f := by
  constructor
  case keys => exact h.keys_perm none distinct
  case primary =>
    intro p primary
    obtain ⟨q, member, rfl, atStart, _⟩ := h.primary_placed data (empty (by simp [primary])) primary
    rw [h.find? distinct none member, atStart]

end BasesLaid

namespace State.BasesListed

theorem congr (h : st.BasesListed f) (primaryBase : st'.primaryBase = st.primaryBase)
    (baseOffsets : st'.baseOffsets = st.baseOffsets) : st'.BasesListed f := by
  constructor
  · exact baseOffsets ▸ h.keys
  · rw [primaryBase, baseOffsets]
    exact h.primary

/-- Bases can move as long as the primary base does not. -/
theorem shifted (h : st.BasesListed f) (distance : Nat) (moves : Nat → Bool)
    (stays : st.primaryBase.isSome = true → moves 0 = false) :
    (st.shifted distance moves).BasesListed f := by
  constructor
  case keys => simpa [State.shifted] using h.keys
  case primary =>
    intro p primary
    have primary : st.primaryBase = some p := primary
    simp [State.shifted, OrderedMap.find?_mapValues, h.primary p primary, stays (by simp [primary])]

end State.BasesListed

section Pointers

theorem injectVbptr_basesListed (h : st.BasesListed f)
    (behind : st.needsOwnVbptr = true → st.primaryBase.isSome = true → 0 < st.vbptrOffset) :
    Ends (fun _ => True) (injectVbptr f st) (State.BasesListed f) := by
  apply (injectVbptr_ends st).imp
  rintro st' (⟨_, rfl⟩ | ⟨start, distance, own, _, _, rfl⟩)
  · exact h
  · have shifted := h.shifted distance (fun offset => decide (st.vbptrOffset ≤ offset))
      fun primary => by simpa using (behind own primary).ne'
    exact shifted.congr rfl rfl

theorem injectVfptr_basesListed (h : st.BasesListed f)
    (alone : st.hasOwnVfptr = true → st.primaryBase = none) :
    Ends (fun _ => True) (injectVfptr f st) (State.BasesListed f) := by
  apply (injectVfptr_ends st).imp
  rintro st' (⟨_, rfl⟩ | ⟨distance, vbptrOffset, own, _, _, rfl⟩)
  · exact h
  · have shifted := h.shifted distance (fun _ => true) fun primary => by simp [alone own] at primary
    exact shifted.congr rfl rfl

/-- The base that moves behind the vbptr is in the table already, and has no data, so it is not the
primary one. -/
theorem layVbptrAsBase_basesListed (h : st.BasesListed f)
    (primary : ∀ p, st.primaryBase = some p → ∃ layout, known.record p = .ok layout ∧
      0 < layout.dataSize) :
    Ends (fun _ => True) ((layVbptrAsBase f st).eval known) (State.BasesListed f) := by
  apply (layVbptrAsBase_ends st).imp
  rintro st' (⟨_, rfl⟩ | ⟨_, ⟨found, last, penultimate, site, scan, isLast, _, _, _, stop, _, placed⟩⟩)
  · exact h
  cases last with
  | none =>
    rw [placed]
    exact h.congr rfl rfl
  | some last =>
    obtain ⟨r, layout⟩ := last
    obtain ⟨isLast, laid, empty⟩ := zeroSized?_ends.value isLast r layout rfl
    obtain ⟨base, member, rfl⟩ := ((lastBases_ends st).value scan).last_mem isLast
    have listed : base.record ∈ st.baseOffsets.keys := h.keys.mem_iff.mpr (List.mem_map_of_mem member)
    rw [placed]
    constructor
    case keys =>
      dsimp only [Option.elim]
      rw [st.baseOffsets.keys_insert_of_contains stop listed]
      exact h.keys
    case primary =>
      intro p isPrimary
      obtain ⟨layout', laid', data⟩ := primary p isPrimary
      have other : p ≠ base.record := by
        rintro rfl
        cases laid.symm.trans laid'
        exact absurd data empty.not_gt
      exact (OrderedMap.find?_insert_of_ne _ _ other).trans (h.primary p isPrimary)

end Pointers

section Class

variable {laid : State}
variable (distinct : (f.declaration.nonVirtualBases.map (·.record)).Nodup)
variable (data : ∀ {r layout}, known.record r = .ok layout → layout.hasExtendableVfptr = true →
  0 < layout.dataSize)

theorem Assembled.hasOwnVfptr {between : State} (h : Assembled f known start row based between st) :
    st.hasOwnVfptr = true → st.primaryBase = none := by
  have flags := h.flags
  simp only [State.flags, Prod.mk.injEq] at flags
  obtain ⟨_, primaryBase, hasOwnVfptr, _⟩ := flags
  intro own
  rw [hasOwnVfptr, Bool.and_eq_true, Option.isNone_iff_eq_none] at own
  exact primaryBase.trans own.1

include data

/-- A class with a primary base has its own vbptr, if any, behind that base. -/
theorem LaidOnce.vbptr_behind_primary (once : LaidOnce f known row based st)
    (own : st.needsOwnVbptr = true) (primary : st.primaryBase.isSome = true) : 0 < st.vbptrOffset := by
  obtain ⟨p, isPrimary⟩ := Option.isSome_iff_exists.mp primary
  obtain ⟨q, member, _, _, some⟩ :=
    once.bases.primary_placed data rfl (once.fields.primaryBase.symm.trans isPrimary)
  obtain ⟨ends, inRow⟩ := once.bases.inRow
  simp only [State.needsOwnVbptr, Bool.and_eq_true, Option.isNone_iff_eq_none] at own
  have atEnd : st.vbptrOffset = based.size := by
    rw [once.fields.vbptrOffset, once.bases.vbptrOffset (once.fields.vbptrBase ▸ own.2), inRow.size_eq]
    rfl
  have stop : q.stop ≤ based.size := (inRow.inside q member).2
  have length : q.layout.dataSize ≤ q.stop := Nat.le_add_left _ _
  exact atEnd ▸ some.trans_le (length.trans stop)

include distinct

theorem layWithLeadingPointers_basesListed {before : State} :
    Ends (fun _ => True) ((layWithLeadingPointers f before).eval known) fun st' =>
      (before.hasOwnVfptr = true → st'.primaryBase = none) → st'.BasesListed f := by
  apply (layWithLeadingPointers_ends before).imp
  rintro st' ⟨row', based', between', laid', again, placed, _, rfl⟩ alone
  have kept : between'.primaryBase = based'.primaryBase := by
    obtain ⟨size, vbptrOffset, baseOffsets, rfl⟩ := again.moved
    rfl
  have primaryBase : laid'.primaryBase = based'.primaryBase := again.fields.primaryBase.trans kept
  have empty (primary : based'.primaryBase.isSome = true) : (leadingStart f before).size = 0 := by
    refine if_neg fun own => ?_
    have none : laid'.primaryBase = none := alone own
    simp [← primaryBase, none] at primary
  have listed := again.bases.basesListed data rfl distinct empty
  refine ((layVbptrAsBase_basesListed listed fun p primary => ?_).value placed).congr
    again.fields.primaryBase again.fields.baseOffsets
  obtain ⟨q, member, rfl, _, some⟩ := again.bases.primary_placed data (empty (by simp [primary])) primary
  exact ⟨q.layout, again.bases.laid q member, some⟩

/-- However the pointers of a class come in, its bases stay listed. -/
theorem layPointers_basesListed (once : LaidOnce f known row based st) :
    Ends (fun _ => True) ((layPointers f st).eval known) (State.BasesListed f) := by
  have listed : st.BasesListed f :=
    (once.bases.basesListed data rfl distinct fun _ => rfl).congr once.fields.primaryBase
      once.fields.baseOffsets
  apply layPointers_cases
  case none => exact fun _ _ => listed
  case again =>
    intro _
    apply (layWithLeadingPointers_ends st).remember.mono (fun _ => id)
    rintro st' _ ⟨placed, row', based', between', laid', again, _, _, rfl⟩
    refine (layWithLeadingPointers_basesListed distinct data).value placed fun own => ?_
    have same := State.primaryBase_of_flags (again.flags.trans once.flags.symm)
    exact same.trans (once.hasOwnVfptr own)
  case pushed =>
    intro _
    apply Ends.bind ((injectVbptr_ends st).remember)
    rintro st₁ ⟨first, cases⟩
    have listed₁ : st₁.BasesListed f :=
      (injectVbptr_basesListed listed (once.vbptr_behind_primary data)).value first
    have alone : st₁.hasOwnVfptr = true → st₁.primaryBase = none := by
      rcases cases with ⟨_, rfl⟩ | ⟨_, _, _, _, _, rfl⟩ <;> exact once.hasOwnVfptr
    apply (injectVfptr_basesListed listed₁ alone).imp
    exact fun st₂ listed₂ => listed₂.congr rfl rfl

end Class

/-- Virtual bases get their slots in the order that they are listed in. -/
theorem layVirtualBases_keys (fresh : st.virtualBaseSlots = .empty)
    (distinct : (f.tree.virtualBases f.record).Nodup) :
    Ends (fun _ => True) ((layVirtualBases f st).eval known) fun st' =>
      st'.virtualBaseSlots.keys = if st.hasVbptr then f.tree.virtualBases f.record else [] := by
  unfold layVirtualBases
  split
  case isTrue without =>
    have without : st.hasVbptr = false := by simpa using without
    simp [without, fresh, Ends, OrderedMap.keys, OrderedMap.empty]
  case isFalse has =>
    have has : st.hasVbptr = true := by simpa using has
    apply ends_bind Ends.any
    intro found _
    rw [if_pos has]
    refine ends_bind (G := fun walk : BaseWalk =>
      walk.state.virtualBaseSlots.keys = f.tree.virtualBases f.record) ?_ fun walk keys => keys
    rw [LayoutM.eval_foldlM]
    apply Ends.foldlM (K := fun done _ (walk : BaseWalk) => walk.state.virtualBaseSlots.keys = done)
    case first => simp [fresh, OrderedMap.keys, OrderedMap.empty]
    case next =>
      intro done v rest walk split keys
      apply layVirtualBase_placed.imp
      rintro walk' ⟨layout, slot, _, _, placed⟩
      have alone : v ∉ done := by
        rw [split, List.nodup_append] at distinct
        exact fun member => distinct.2.2 v member v (by simp) rfl
      rw [placed.state]
      dsimp only
      rw [OrderedMap.keys_insert_of_not_mem _ _ (keys ▸ alone), keys]

/-- What the layout of a class says about its bases and pointers. -/
structure TablesKept (s : Setting) (known : Known) (d : RecordId) (layout : RecordLayout) : Prop where
  /-- The table of non-virtual bases has these bases as its keys, and that of virtual bases these, in
  the order that the class lists them in. -/
  keys : ∃ tables, layout.classLayout = .ok tables ∧
    tables.baseOffsets.keys.Perm ((s.tree.record d).nonVirtualBases.map (·.record)) ∧
    tables.virtualBaseSlots.keys = s.tree.virtualBases d
  hasVbptr : layout.vbptr?.isSome = true ↔ s.tree.virtualBases d ≠ []
  primary : ∀ p, layout.primaryBase? = some p →
    layout.baseOffset p.record = .ok 0 ∧ layout.hasOwnVfptr = false
  shared : ∀ slot b, layout.vbptr? = some slot → slot.sharedWith = some b →
    ∃ inner offset slot', known.record b = .ok inner ∧ layout.baseOffset b = .ok offset ∧
      inner.vbptr? = some slot' ∧ slot.offset = offset + slot'.offset

namespace State

theorem classLayout_hasVbptr (st : State) : st.classLayout.hasVbptr = st.hasVbptr := by
  cases has : st.hasVbptr <;> simp [classLayout, RecordLayout.hasVbptr, RecordLayout.vbptr?, has]

theorem classLayout_vbptrSlot {slot : VbptrSlot} : st.classLayout.vbptr? = some slot ↔
    st.hasVbptr = true ∧ slot = ⟨st.vbptrOffset, st.vbptrBase⟩ := by
  cases has : st.hasVbptr <;> simp [classLayout, RecordLayout.vbptr?, has, eq_comm]

end State

namespace ClassRun

variable (run : ClassRun f known)
include run

theorem hasVbptr_closed : run.closed.hasVbptr = run.last.hasVbptr := by
  have finished := State.hasVbptr_of_nonVirtual run.finished.nonVirtual
  exact (finished.trans (State.hasVbptr_of_nonVirtual run.virtual.nonVirtual)).symm

theorem virtualBaseSlots_keys (distinct : (f.tree.virtualBases f.record).Nodup) :
    run.last.virtualBaseSlots.keys
      = if run.last.hasVbptr then f.tree.virtualBases f.record else [] := by
  have fresh : run.closed.virtualBaseSlots = .empty := by
    obtain ⟨size, _, _, closed⟩ := run.closing
    rw [closed]
    exact ((layPointers_flags run.once).value run.pointers).2
  have keys := (layVirtualBases_keys fresh distinct).value run.virtualBases
  rw [run.finished.virtualBaseSlots, keys, run.hasVbptr_closed]

theorem last_basesListed (distinct : (f.declaration.nonVirtualBases.map (·.record)).Nodup)
    (data : ∀ {r layout}, known.record r = .ok layout → layout.hasExtendableVfptr = true →
      0 < layout.dataSize) : run.last.BasesListed f := by
  have listed := (layPointers_basesListed distinct data run.once).value run.pointers
  obtain ⟨_, baseOffsets, _, flags, _⟩ := run.last_eq
  exact listed.congr (State.primaryBase_of_flags flags) baseOffsets

/-- The base that the vbptr is shared with has one. -/
theorem shared_hasVbptr {b : RecordId} {inner : RecordLayout} (laid : known.record b = .ok inner)
    (shared : run.last.vbptrBase = some b) : inner.hasVbptr = true := by
  have flags := run.flags_eq.trans run.once.flags
  simp only [State.flags, Prod.mk.injEq] at flags
  rw [flags.2.2.2.2, Option.map_eq_some_iff] at shared
  obtain ⟨base, found, rfl⟩ := shared
  have brings := List.find?_some found
  simp only [bringsVbptr, Bool.and_eq_true, Known.has_eq laid] at brings
  exact brings.2

theorem primary_hasNoVfptr (primary : run.last.primaryBase.isSome = true) :
    run.last.hasOwnVfptr = false := by
  have hasOwnVfptr : run.last.hasOwnVfptr = run.laid.hasOwnVfptr := run.hasOwnVfptr_eq
  rw [State.primaryBase_of_flags run.flags_eq] at primary
  rw [hasOwnVfptr]
  by_contra own
  simp [run.once.hasOwnVfptr (by simpa using own)] at primary

end ClassRun

/-- Whichever way a class is laid out, its tables list the bases that it has, its primary base is at
its start, and a shared vbptr is where the base has it. -/
theorem class_tables_kept {s : Setting} {d : RecordId} {depth : Nat} {layout : RecordLayout}
    (microsoft : s.usesMicrosoftLayout = true) (isClass : (s.tree.record d).isClass = true)
    (distinct : ((s.tree.record d).nonVirtualBases.map (·.record)).Nodup)
    (laid : (s.known depth).record d = .ok layout) : TablesKept s (s.known depth) d layout := by
  obtain ⟨acyclic, hasVbptr⟩ := hasVbptr_iff microsoft depth laid
  have data {r : RecordId} {layout : RecordLayout} := @dataSize_pos s r microsoft depth layout
  obtain _ | depth := depth
  · cases laid
  have rules := LayoutM.eval_mono (s.known_succ depth) _ laid
  obtain ⟨run, rfl⟩ := classRun microsoft isClass rules
  have listed := run.last_basesListed distinct data
  have virtuals : run.last.hasVbptr = true ↔ s.tree.virtualBases d ≠ [] := by
    rw [← run.last.classLayout_hasVbptr, hasVbptr, Ne, List.eq_nil_iff_forall_not_mem]
    simp [Tree.mem_virtualBases acyclic]
  constructor
  case keys =>
    refine ⟨_, rfl, listed.keys, ?_⟩
    dsimp only
    rw [run.virtualBaseSlots_keys (Tree.virtualBases_nodup acyclic)]
    split
    case isTrue => rfl
    case isFalse without => exact (not_not.mp (mt virtuals.mpr without)).symm
  case hasVbptr =>
    rw [← virtuals, ← run.last.classLayout_hasVbptr]
    rfl
  case primary =>
    intro p primary
    obtain ⟨p, isPrimary, rfl⟩ := Option.map_eq_some_iff.mp primary
    exact ⟨State.classLayout_baseOffset.mpr (listed.primary p isPrimary),
      run.primary_hasNoVfptr (by simp [isPrimary])⟩
  case shared =>
    intro slot b vbptr shared
    obtain ⟨has, rfl⟩ := State.classLayout_vbptrSlot.mp vbptr
    obtain ⟨inner, offset, laid', found, same⟩ := run.last_sharesVbptr b has shared
    obtain ⟨slot', has'⟩ := Option.isSome_iff_exists.mp (run.shared_hasVbptr laid' shared)
    refine ⟨inner, offset, slot', laid', State.classLayout_baseOffset.mpr found, has', ?_⟩
    rw [has'] at same
    exact same

/-- `D` declares a virtual method and shares the vbptr of its base `B`, which has a virtual base. -/
def movedSharing (alignment : Option Bytes) : Setting :=
  .windows .x86_64 [
    .ofClass "V" [{ name := "v", type := .scalar ⟨0⟩ (.integer .int .signed) }] [] [],
    .ofClass "B" [{ name := "b", type := .scalar ⟨0⟩ (.integer .int .signed) }]
      [{ record := ⟨0⟩, isVirtual := true }] [],
    .ofClass "N" [{ name := "n", type := .scalar ⟨1⟩ .plainChar }] [] [],
    .ofClass "D" [] [{ record := ⟨2⟩ }, { record := ⟨1⟩ }] [⟨0⟩] { alignment }]
    [{ name := "f", owner := ⟨3⟩, isVirtual := true }]

/-- The vfptr is pushed in and moves `B` along, or it leads from the start because `D` asks for sixteen
bytes. -/
theorem class_tables_kept_movedSharing :
    (∃ layout, ((movedSharing none).known 4).record ⟨3⟩ = .ok layout ∧
      layout.vbptr? = some ⟨16, some ⟨1⟩⟩ ∧
      TablesKept (movedSharing none) ((movedSharing none).known 4) ⟨3⟩ layout) ∧
    ∃ layout, ((movedSharing (some 16)).known 4).record ⟨3⟩ = .ok layout ∧
      layout.vbptr? = some ⟨16, some ⟨1⟩⟩ ∧
      TablesKept (movedSharing (some 16)) ((movedSharing (some 16)).known 4) ⟨3⟩ layout := by
  constructor
  · obtain ⟨layout, laid⟩ := exists_ok (by decide +kernel :
      (((movedSharing none).known 4).record ⟨3⟩).isOk = true)
    have vbptr : ((movedSharing none).known 4).has (·.vbptr? == some ⟨16, some ⟨1⟩⟩) ⟨3⟩ = true := by
      decide +kernel
    rw [Known.has_eq laid, beq_iff_eq] at vbptr
    exact ⟨layout, laid, vbptr, class_tables_kept (by decide) (by decide) (by decide) laid⟩
  · obtain ⟨layout, laid⟩ := exists_ok (by decide +kernel :
      (((movedSharing (some 16)).known 4).record ⟨3⟩).isOk = true)
    have vbptr : ((movedSharing (some 16)).known 4).has (·.vbptr? == some ⟨16, some ⟨1⟩⟩) ⟨3⟩ = true := by
      decide +kernel
    rw [Known.has_eq laid, beq_iff_eq] at vbptr
    exact ⟨layout, laid, vbptr, class_tables_kept (by decide) (by decide) (by decide) laid⟩

end ObjectLayout.Microsoft
