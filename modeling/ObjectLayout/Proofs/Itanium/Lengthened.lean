import ObjectLayout.Proofs.Itanium.Abreast.Class
import ObjectLayout.Proofs.Itanium.SizeZero

/-! A record and another one that is declared like it, with further fields at the end. Both are laid out
abreast up to the end of the common fields, although the maps of empty subobjects need not prune the
same; what follows leaves the common part alone. The alignment of the longer one is at least that of
the shorter one, unless an empty virtual base that has escaped the maximum for fields in the shorter
one no longer does. -/
namespace ObjectLayout

open LayoutM (Mirrors Follows ends_bind ends_lift_bind eval_bind_eq_ok layoutOf)

variable {s : Setting} {known : Known} {r r' : RecordId} {extra : List Field}

/-- The second record is declared like the first, with more fields at the end. -/
structure Tree.Lengthens (tree : Tree) (r r' : RecordId) (extra : List Field) : Prop where
  fields : (tree.record r').fields = (tree.record r).fields ++ extra
  attributes : (tree.record r').attributes = (tree.record r).attributes
  isUnion : (tree.record r').isUnion = (tree.record r).isUnion
  isClass : (tree.record r').isClass = (tree.record r).isClass
  bases : (tree.record r').bases = (tree.record r).bases
  methods : (tree.methodsOf r').any (·.isVirtual) = (tree.methodsOf r).any (·.isVirtual)

namespace Tree.Lengthens

variable (longer : s.tree.Lengthens r r' extra)
include longer

theorem sameBases (acyclic : s.tree.Acyclic r) (acyclic' : s.tree.Acyclic r') :
    SameBases s r r' := by
  refine ⟨longer.bases, ?_⟩
  have virtual : s.tree.hasVirtualBases r' = s.tree.hasVirtualBases r := by
    unfold Tree.hasVirtualBases Tree.virtualBases Tree.descend descendWithin
    rw [longer.bases]
  rw [Tree.isDynamic, Tree.isDynamic, virtual, Tree.isPolymorphic_eq acyclic',
    Tree.isPolymorphic_eq acyclic, longer.methods, longer.bases]

theorem frame : Itanium.Frame.ofRecord s r' none =
    { Itanium.Frame.ofRecord s r none with record := r' } := by
  simp only [Itanium.Frame.ofRecord, longer.attributes, longer.isUnion]

end Tree.Lengthens

namespace Itanium

variable {f : Frame} {st st' a b a' b' : State} {i : SubobjectId}

/-- A state that has gone through more fields than another one. -/
structure MoreFields (a b : State) : Prop where
  frame : b = { a with
    size := b.size, dataSize := b.dataSize, emptyMap := b.emptyMap
    unfilledBits := b.unfilledBits, storageUnit := b.storageUnit
    fieldOffsets := b.fieldOffsets
    alignment := b.alignment, unpackedAlignment := b.unpackedAlignment }
  fieldOffsets : a.fieldOffsets <+: b.fieldOffsets
  alignment : a.alignment ≤ b.alignment

theorem layFields_longer (longer : f.tree.Lengthens f.record r' extra)
    (work : Workable f known fun _ => True)
    (work' : Workable { f with record := r' } known fun _ => True)
    (level : Level f known True r' st st') (none : st.fieldOffsets = [])
    (done : (layFields f st).eval known = .ok a)
    (done' : (layFields { f with record := r' } st').eval known = .ok b) : MoreFields a b := by
  have entries : (f.tree.record r').fields.zipIdx =
      f.declaration.fields.zipIdx ++ extra.zipIdx f.declaration.fields.length := by
    rw [longer.fields, List.zipIdx_append, Nat.zero_add]
    rfl
  unfold layFields at done done'
  change ((f.tree.record r').fields.zipIdx.foldlM (layAnyField { f with record := r' }) st').eval known
    = _ at done'
  rw [entries, List.foldlM_append] at done'
  obtain ⟨mid, common, others⟩ := eval_bind_eq_ok.mp done'
  have declares (entry : Field × Nat) (member : entry ∈ f.declaration.fields.zipIdx) :
      Declares f known r' entry.1 := by
    have here := List.fst_mem_of_mem_zipIdx member
    refine ⟨work, work', here, ?_⟩
    rw [longer.fields]
    exact List.mem_append_left _ here
  obtain ⟨⟨front, abreast, _⟩, _⟩ :=
    ((layAnyFields_abreast level declares a done).value common).1
  have alone : f.declaration.fields.zipIdx = [] ++ f.declaration.fields.zipIdx ++ [] := by simp
  have counted := layAnyFields_moves work.unsupplied alone (by rw [none]; rfl) done
  have count : mid.fieldOffsets.length = f.declaration.fields.zipIdx.length := by
    rw [abreast.frame]
    exact counted.2.1
  have rest : (f.tree.record r').fields.zipIdx =
      f.declaration.fields.zipIdx ++ extra.zipIdx f.declaration.fields.length ++ [] := by
    rw [entries, List.append_nil]
  obtain ⟨run, _, kept, frame⟩ := layAnyFields_moves work'.unsupplied rest count others
  have grows := (run.alignment_le work'.unsupplied).1
  rw [abreast.frame] at kept grows
  refine ⟨?_, kept, grows⟩
  rw [frame, abreast.frame]

section Virtual

/-- An empty base of class `v` at the start brings more alignment than it would bring elsewhere. -/
def Frame.Escapes (f : Frame) (known : Known) (v : RecordId) : Prop :=
  f.isMac68k = false ∧ f.tree.isEmptyClass v = true ∧
    f.clamp (f.baseAlignment known v) < f.baseAlignment known v

/-- What escapes the maximum for fields in the one table does so in the other. -/
def EscapesAlike (f : Frame) (known : Known) (slots slots' : OrderedMap RecordId VirtualBaseSlot) :
    Prop :=
  ∀ v x, f.Escapes known v → (slots.find? v).map (·.offset) = some 0 →
    (slots'.find? v).map (·.offset) = some x → x = 0

theorem EscapesAlike.of_extends {slots slots' later later' : OrderedMap RecordId VirtualBaseSlot}
    (h : EscapesAlike f known later later') (first : slots.Extends later)
    (second : slots'.Extends later') : EscapesAlike f known slots slots' := by
  intro v x escapes start at'
  obtain ⟨slot, found, zero⟩ := Option.map_eq_some_iff.mp start
  obtain ⟨slot', found', same⟩ := Option.map_eq_some_iff.mp at'
  refine h v x escapes ?_ ?_
  · rw [first v slot found, Option.map_some, zero]
  · rw [second v slot' found', Option.map_some, same]

/-- A base that brings less elsewhere has escaped the maximum for fields at the start. -/
theorem Frame.raised_broughtBy_le {v : RecordId} {x y alignment alignment' : Nat}
    (le : alignment ≤ alignment') (stays : f.Escapes known v → x = 0 → y = 0) :
    f.raised alignment (f.broughtBy known v x) ≤ f.raised alignment' (f.broughtBy known v y) := by
  unfold Frame.raised
  split
  · exact le
  · rename_i notMac68k
    have brought : f.broughtBy known v x ≤ f.broughtBy known v y := by
      by_cases start : f.tree.isEmptyClass v = true ∧ x = 0
      · obtain ⟨empty, rfl⟩ := start
        by_cases exceeds : f.clamp (f.baseAlignment known v) < f.baseAlignment known v
        · rw [stays ⟨by simpa using notMac68k, empty, exceeds⟩ rfl]
        · have same : f.clamp (f.baseAlignment known v) = f.baseAlignment known v :=
            Nat.le_antisymm (f.clamp_le _) (Nat.le_of_not_lt exceeds)
          unfold Frame.broughtBy
          rw [same, ite_self, ite_self]
      · rw [Frame.broughtBy, if_neg start]
        exact f.clamp_le_broughtBy v y
    exact max_le_max le brought

/-- A virtual base that gets its place is listed where it lies, and everything else stays listed. -/
theorem layVirtualBase_lists (unsupplied : f.supplied = none) :
    Ends (fun _ => True) ((layVirtualBase f i st).eval known) fun st' => ∃ x,
      st'.virtualBaseSlots.find? (st.graph.node i).record = some { offset := x } ∧
      st.virtualBaseSlots.Extends st'.virtualBaseSlots ∧
      st'.alignment = f.raised st.alignment (f.broughtBy known (st.graph.node i).record x) ∧
      st' = { st with
        size := st'.size, dataSize := st'.dataSize, emptyMap := st'.emptyMap
        alignment := st'.alignment, unpackedAlignment := st'.unpackedAlignment
        virtualBaseSlots := st'.virtualBaseSlots } := by
  refine Ends.mono (layVirtualBase_houses unsupplied).remember (fun _ => id) ?_
  rintro st' _ ⟨done, x, housed⟩
  obtain ⟨_, _, alignment⟩ := housed.frame fun _ => rfl
  obtain ⟨mid, slots, raised, placed, rfl⟩ := housed.housed
  have free : st.virtualBaseSlots.contains (st.graph.node i).record = false := by
    unfold layVirtualBase at done
    obtain ⟨_, _, done⟩ := eval_bind_eq_ok.mp done
    obtain ⟨⟨mid', y⟩, laid, done⟩ := eval_bind_eq_ok.mp done
    obtain ⟨_, new, _⟩ := eval_bind_eq_ok.mp done
    have frame := ((layBase_raises unsupplied).value laid).frame
    rw [LayoutM.eval_ensure, ensure_eq_ok] at new
    dsimp only at frame new
    rw [frame] at new
    simpa using new
  have later := placeClaimed_keeps.value placed
  have same : (State.withVirtualBase (st.graph.node i).record x mid).virtualBaseSlots =
      st.virtualBaseSlots.insert (st.graph.node i).record { offset := x } := by
    rw [State.withVirtualBase, raised.frame]
  rw [same] at later
  refine ⟨x, ?_, ?_, alignment, ?_⟩
  · exact later _ _ (OrderedMap.find?_insert_self _ _ _)
  · exact (OrderedMap.Extends.insert free _).trans later
  · rw [State.withVirtualBase, raised.frame]

/-- Two states of the pass over the virtual bases, the second one of the longer record. -/
structure Behind (f : Frame) (known : Known) (a b : State) : Prop where
  fieldOffsets : a.fieldOffsets <+: b.fieldOffsets
  bases : b.baseOffsets = a.baseOffsets
  primaryBase : b.primaryBase = a.primaryBase
  hasOwnVfptr : b.hasOwnVfptr = a.hasOwnVfptr
  graph : b.graph = a.graph
  indirect : b.indirectPrimaryBases = a.indirectPrimaryBases
  visited : b.visitedVirtualBases = a.visitedVirtualBases
  alignment : EscapesAlike f known a.virtualBaseSlots b.virtualBaseSlots → a.alignment ≤ b.alignment

theorem Behind.place (h : Behind f known a b) (unsupplied : f.supplied = none)
    (done : (layVirtualBase f i a).eval known = .ok a')
    (done' : (layVirtualBase f i b).eval known = .ok b') : Behind f known a' b' := by
  obtain ⟨x, listed, grows, alignment, frame⟩ := (layVirtualBase_lists unsupplied).value done
  obtain ⟨y, listed', grows', alignment', frame'⟩ := (layVirtualBase_lists unsupplied).value done'
  have raises (alike : EscapesAlike f known a'.virtualBaseSlots b'.virtualBaseSlots) :
      a'.alignment ≤ b'.alignment := by
    rw [alignment, alignment', h.graph]
    refine f.raised_broughtBy_le (h.alignment (alike.of_extends grows grows')) fun escapes start => ?_
    subst start
    rw [h.graph] at listed'
    exact alike _ y escapes (by rw [listed]; rfl) (by rw [listed']; rfl)
  constructor
  case alignment => exact raises
  case fieldOffsets => rw [frame, frame']; exact h.fieldOffsets
  case bases => rw [frame, frame']; exact h.bases
  case primaryBase => rw [frame, frame']; exact h.primaryBase
  case hasOwnVfptr => rw [frame, frame']; exact h.hasOwnVfptr
  case graph => rw [frame, frame']; exact h.graph
  case indirect => rw [frame, frame']; exact h.indirect
  case visited => rw [frame, frame']; exact h.visited

/-- What each step keeps of two states, a fold keeps. -/
theorem eval_foldlM_both {α : Type} {step step' : State → α → LayoutM State}
    {K : State → State → Prop} {xs : List α} (start : K a b)
    (each : ∀ x ∈ xs, ∀ a b a' b', K a b → (step a x).eval known = .ok a' →
      (step' b x).eval known = .ok b' → K a' b')
    (done : (xs.foldlM step a).eval known = .ok a')
    (done' : (xs.foldlM step' b).eval known = .ok b') : K a' b' := by
  induction xs generalizing a b with
  | nil =>
    cases done
    cases done'
    exact start
  | cons x rest ih =>
    rw [List.foldlM_cons] at done done'
    obtain ⟨mid, first, others⟩ := eval_bind_eq_ok.mp done
    obtain ⟨mid', first', others'⟩ := eval_bind_eq_ok.mp done'
    exact ih (each x List.mem_cons_self a b mid mid' start first first')
      (fun x member => each x (.tail _ member)) others others'

/-- The passes over the virtual bases of both records go the same way. -/
theorem Behind.pass (h : Behind f known a b) (unsupplied : f.supplied = none)
    (acyclic : f.tree.Acyclic r) (primary : Option PrimaryBase)
    (done : (layVirtualBasesBelow f r primary a).eval known = .ok a')
    (done' : (layVirtualBasesBelow f r primary b).eval known = .ok b') : Behind f known a' b' := by
  induction acyclic generalizing primary a b a' b' with
  | intro r lower ih =>
  rw [layVirtualBasesBelow_eq (.intro lower)] at done done'
  refine eval_foldlM_both h (fun base member a b a' b' h done done' => ?_) done done'
  -- The search below the base, once the base itself has been dealt with.
  have search {a b : State} (h : Behind f known a b)
      (done : (do
        if !f.tree.hasVirtualBases base.record then return a
        layVirtualBasesBelow f base.record (← layoutOf base.record).primaryBase? a
          : LayoutM State).eval known = .ok a')
      (done' : (do
        if !f.tree.hasVirtualBases base.record then return b
        layVirtualBasesBelow f base.record (← layoutOf base.record).primaryBase? b
          : LayoutM State).eval known = .ok b') : Behind f known a' b' := by
    split at done
    · rename_i none
      rw [if_pos none] at done'
      cases done
      cases done'
      exact h
    · rename_i some
      rw [if_neg some] at done'
      obtain ⟨layout, laid, done⟩ := eval_bind_eq_ok.mp done
      obtain ⟨layout', laid', done'⟩ := eval_bind_eq_ok.mp done'
      cases laid.symm.trans laid'
      exact ih base.record ⟨base, member, rfl⟩ h _ done done'
  dsimp only at done done'
  rw [h.indirect, h.visited] at done'
  split at done
  · rename_i again
    rw [if_pos again] at done'
    cases done
    cases done'
    exact h
  · rename_i first
    rw [if_neg first] at done'
    split at done
    · rename_i isDue
      rw [if_pos isDue, h.graph] at done'
      obtain ⟨p, found, done⟩ := eval_bind_eq_ok.mp done
      obtain ⟨mid, placed, done⟩ := eval_bind_eq_ok.mp done
      obtain ⟨_, found', done'⟩ := eval_bind_eq_ok.mp done'
      cases found.symm.trans found'
      obtain ⟨mid', placed', done'⟩ := eval_bind_eq_ok.mp done'
      have next : Behind f known
          { a with visitedVirtualBases := a.visitedVirtualBases ++ [base.record] }
          { b with
            graph := a.graph
            indirectPrimaryBases := a.indirectPrimaryBases
            visitedVirtualBases := a.visitedVirtualBases ++ [base.record] } :=
        ⟨h.fieldOffsets, h.bases, h.primaryBase, h.hasOwnVfptr, rfl, rfl, rfl, h.alignment⟩
      exact search (next.place unsupplied placed placed') done done'
    · rename_i notDue
      rw [if_neg notDue] at done'
      exact search h done done'

/-- The pass starts below the longer record as it starts below the other one. -/
theorem layVirtualBasesBelow_lengthens (longer : f.tree.Lengthens f.record r' extra)
    (acyclic : f.tree.Acyclic f.record) (acyclic' : f.tree.Acyclic r')
    (primary : Option PrimaryBase) (st : State) :
    layVirtualBasesBelow { f with record := r' } r' primary st =
      layVirtualBasesBelow f f.record primary st := by
  have same : layVirtualBasesBelow { f with record := r' } = layVirtualBasesBelow f := rfl
  rw [same, layVirtualBasesBelow_eq acyclic', layVirtualBasesBelow_eq acyclic, longer.bases]

end Virtual

section Whole

/-- Two runs that have started alike, with maps that answer alike. -/
theorem initial_abreast (longer : f.tree.Lengthens f.record r' extra) (unsupplied : f.supplied = none)
    {map map' : Option EmptyMap}
    (maps : Option.Rel (Alike f.setting known True f.record r' 0) map map')
    (done : State.initial f map = .ok a) (done' : State.initial { f with record := r' } map' = .ok b)
    (mapped : a.emptyMap = map) : Abreast f known True r' 0 a b := by
  rw [initial_attributes longer.attributes, initial_withMap unsupplied map map', done] at done'
  cases done'
  refine ⟨rfl, ?_⟩
  rw [mapped]
  exact maps

/-- What the layouts of two records, the second one with more fields, have in common. -/
structure SharedLayout (f : Frame) (known : Known) (layout layout' : RecordLayout) : Prop where
  fieldOffsets : layout.fieldOffsets <+: layout'.fieldOffsets
  bases : layout'.asClass.map (·.baseOffsets) = layout.asClass.map (·.baseOffsets)
  primaryBase : layout'.primaryBase? = layout.primaryBase?
  hasOwnVfptr : layout'.hasOwnVfptr = layout.hasOwnVfptr
  alignment : EscapesAlike f known (layout.asClass.elim .empty (·.virtualBaseSlots))
    (layout'.asClass.elim .empty (·.virtualBaseSlots)) → layout.alignment ≤ layout'.alignment

theorem layPlain_shared (longer : f.tree.Lengthens f.record r' extra)
    (work : Workable f known fun _ => True)
    (work' : Workable { f with record := r' } known fun _ => True) {layout layout' : RecordLayout}
    (plain : f.declaration.isClass = false)
    (done : (layPlain f).eval known = .ok layout)
    (done' : (layPlain { f with record := r' }).eval known = .ok layout') :
    SharedLayout f known layout layout' := by
  unfold layPlain at done done'
  obtain ⟨start, begun, done⟩ := eval_bind_eq_ok.mp done
  obtain ⟨fixed, fields, done⟩ := eval_bind_eq_ok.mp done
  obtain ⟨last, finished, same⟩ := eval_bind_eq_ok.mp done
  obtain ⟨start', begun', done'⟩ := eval_bind_eq_ok.mp done'
  obtain ⟨fixed', fields', done'⟩ := eval_bind_eq_ok.mp done'
  obtain ⟨last', finished', same'⟩ := eval_bind_eq_ok.mp done'
  rw [LayoutM.eval_lift] at begun begun'
  obtain ⟨fresh, _, _, _, mapped, _⟩ := Ends.holds (initial_ends known work.unsupplied none
    (fun _ _ => .inr trivial) nofun fun isClass => by simp [plain] at isClass) begun
  have abreast : Abreast f known True r' 0 start start' :=
    initial_abreast longer work.unsupplied .none begun begun' mapped
  have level : Level f known True r' start start' := by
    refine ⟨⟨0, abreast, fun _ => Nat.zero_le _⟩, fun _ => ?_⟩
    rw [fresh.unfilledBits]
    exact Nat.zero_le _
  have more := layFields_longer longer work work' level fresh.fieldOffsets fields fields'
  obtain ⟨size, rfl⟩ := ((finish_ends work.unsupplied).holds finished).frame
  obtain ⟨size', rfl⟩ := ((finish_ends work'.unsupplied).holds finished').frame
  cases same
  cases same'
  exact ⟨more.fieldOffsets, rfl, rfl, rfl, fun _ => more.alignment⟩

theorem layClass_shared (longer : f.tree.Lengthens f.record r' extra)
    (work : Workable f known fun _ => True)
    (work' : Workable { f with record := r' } known fun _ => True) {layout layout' : RecordLayout}
    (maps : ∀ map map', (EmptyMap.ofClass f.setting .pruned f.record).eval known = .ok map →
      (EmptyMap.ofClass f.setting .pruned r').eval known = .ok map' →
      Alike f.setting known True f.record r' 0 map map')
    (done : (layClass f .pruned).eval known = .ok layout)
    (done' : (layClass { f with record := r' } .pruned).eval known = .ok layout') :
    SharedLayout f known layout layout' := by
  unfold layClass at done done'
  obtain ⟨map, built, done⟩ := eval_bind_eq_ok.mp done
  obtain ⟨start, begun, done⟩ := eval_bind_eq_ok.mp done
  obtain ⟨direct, bases, done⟩ := eval_bind_eq_ok.mp done
  obtain ⟨fixed, fields, done⟩ := eval_bind_eq_ok.mp done
  obtain ⟨st, pass, done⟩ := eval_bind_eq_ok.mp done
  obtain ⟨last, finished, same⟩ := eval_bind_eq_ok.mp done
  obtain ⟨map', built', done'⟩ := eval_bind_eq_ok.mp done'
  obtain ⟨start', begun', done'⟩ := eval_bind_eq_ok.mp done'
  obtain ⟨direct', bases', done'⟩ := eval_bind_eq_ok.mp done'
  obtain ⟨fixed', fields', done'⟩ := eval_bind_eq_ok.mp done'
  obtain ⟨st', pass', done'⟩ := eval_bind_eq_ok.mp done'
  obtain ⟨last', finished', same'⟩ := eval_bind_eq_ok.mp done'
  rw [LayoutM.eval_lift] at begun begun'
  obtain ⟨_, empty, large⟩ := Ends.holds (ofClass_ends work.sound .pruned) built
  obtain ⟨fresh, none, unvisited, _, mapped, _⟩ := Ends.holds (initial_ends known work.unsupplied
    (some map) (fun _ _ => .inr trivial) (fun map' same => by cases same; exact ⟨empty, large⟩)
    fun _ => rfl) begun
  have abreast := initial_abreast longer work.unsupplied (.some (maps map map' built built')) begun
    begun' mapped
  have sameBases := longer.sameBases work.acyclic work'.acyclic
  have abreast := ((layNonVirtualBases_abreast work work' sameBases
    (abreast.mono (Nat.zero_le _)) direct bases).value bases').1
  obtain ⟨own, g, pieces, nonVirtual⟩ :=
    Ends.holds (layNonVirtualBases_ends work fresh none unvisited) bases
  have unfilled := nonVirtual.direct.unfilledBits
  have level : Level f known True r' direct direct' := by
    refine ⟨⟨_, abreast, fun _ => ?_⟩, fun _ => ?_⟩
    · rw [State.used, unfilled, Nat.sub_zero]
    · rw [unfilled]
      exact Nat.zero_le _
  have more := layFields_longer longer work work' level nonVirtual.direct.fieldOffsets fields fields'
  have behind : Behind f known fixed fixed' := by
    refine ⟨more.fieldOffsets, ?_, ?_, ?_, ?_, ?_, ?_, fun _ => more.alignment⟩
    all_goals rw [more.frame]
  have pass' : (layVirtualBasesBelow f f.record fixed.primaryBase fixed').eval known = .ok st' := by
    have same := layVirtualBasesBelow_lengthens longer work.acyclic work'.acyclic fixed.primaryBase fixed'
    rw [← same, ← behind.primaryBase]
    exact pass'
  have behind := behind.pass work.unsupplied work.acyclic fixed.primaryBase pass pass'
  obtain ⟨size, rfl⟩ := ((finish_ends work.unsupplied).holds finished).frame
  obtain ⟨size', rfl⟩ := ((finish_ends work'.unsupplied).holds finished').frame
  cases same
  cases same'
  exact ⟨behind.fieldOffsets, congrArg some behind.bases, behind.primaryBase, behind.hasOwnVfptr,
    behind.alignment⟩

end Whole

end Itanium

open Itanium

namespace Setting.Knows

variable (knows : s.Knows known) (itanium : s.IsItanium)
variable {layout layout' : RecordLayout} (laid : known.record r = .ok layout)
variable (laid' : known.record r' = .ok layout')
include knows itanium laid laid'

/-- The maps that two classes start with answer alike, whatever else either of them will hold. -/
theorem ofClass_alike {map map' : EmptyMap}
    (built : (EmptyMap.ofClass s .pruned r).eval known = .ok map)
    (built' : (EmptyMap.ofClass s .pruned r').eval known = .ok map') :
    Alike s known True r r' 0 map map' := by
  refine ⟨.inl trivial, ?_⟩
  cases cplusplus : s.options.cplusplus with
  | true =>
    have sound := (knows.sound_and_below itanium laid).2
    have sound' := (knows.sound_and_below itanium laid').2
    exact .inl ⟨rfl, _, (Itanium.ofClass_kept (f := Frame.ofRecord s r none) sound built).2,
      (Itanium.ofClass_kept (f := Frame.ofRecord s r' none) sound' built').2⟩
  | false =>
    exact .inr ⟨(knows.ofClass_isBare itanium cplusplus laid).value built,
      (knows.ofClass_isBare itanium cplusplus laid').value built'⟩

theorem shared (longer : s.tree.Lengthens r r' extra) :
    SharedLayout (Frame.ofRecord s r none) known layout layout' := by
  have work := Workable.of_knows knows (knows.grounded laid) (knows.sound_and_below itanium laid).2
  have work' := Workable.of_knows knows (knows.grounded laid') (knows.sound_and_below itanium laid').2
  have rules := knows.layout_eq itanium laid
  have rules' := knows.layout_eq itanium laid'
  rw [layoutTracking_eq] at rules rules'
  rw [longer.isClass] at rules'
  rw [longer.frame] at work' rules'
  cases isClass : (s.tree.record r).isClass with
  | true =>
    rw [if_pos isClass] at rules rules'
    exact layClass_shared (f := Frame.ofRecord s r none) longer work work'
      (fun _ _ => knows.ofClass_alike itanium laid laid') rules rules'
  | false =>
    rw [isClass, if_neg Bool.false_ne_true] at rules rules'
    exact layPlain_shared (f := Frame.ofRecord s r none) longer work work' isClass rules rules'

end Setting.Knows

/-- What was declared before a record got more fields keeps its place. Its alignment does not shrink,
unless an empty virtual base whose alignment escaped the maximum for fields, being at the start, has
to lie elsewhere now. -/
theorem appended_fields_move_nothing {depth : Nat} {layout layout' : RecordLayout}
    (itanium : s.IsItanium) (longer : s.tree.Lengthens r r' extra)
    (laid : (s.known depth).record r = .ok layout)
    (laid' : (s.known depth).record r' = .ok layout') :
    layout.fieldOffsets <+: layout'.fieldOffsets ∧
      layout'.asClass.map (·.baseOffsets) = layout.asClass.map (·.baseOffsets) ∧
      layout'.primaryBase? = layout.primaryBase? ∧ layout'.hasOwnVfptr = layout.hasOwnVfptr ∧
      ((∀ v x, (Frame.ofRecord s r none).Escapes (s.known depth) v →
        layout.virtualBaseOffset v = .ok 0 → layout'.virtualBaseOffset v = .ok x → x = 0) →
        layout.alignment ≤ layout'.alignment) := by
  have shared := (s.known_knows itanium.rules depth).shared itanium laid laid' longer
  -- Where a table of virtual bases has an entry, the layout has an offset to name.
  have names {layout : RecordLayout} {v : RecordId} {x : Nat}
      (at' : ((layout.asClass.elim .empty (·.virtualBaseSlots)).find? v).map (·.offset) = some x) :
      layout.virtualBaseOffset v = .ok x := by
    obtain ⟨slot, found, rfl⟩ := Option.map_eq_some_iff.mp at'
    cases asClass : layout.asClass with
    | none =>
      rw [asClass] at found
      cases found
    | some part =>
      rw [asClass] at found
      have found : part.virtualBaseSlots.find? v = some slot := found
      simp only [RecordLayout.virtualBaseOffset, RecordLayout.virtualBaseSlot,
        RecordLayout.classLayout, asClass, bind, Except.bind, found]
      rfl
  refine ⟨shared.fieldOffsets, shared.bases, shared.primaryBase, shared.hasOwnVfptr,
    fun stays => shared.alignment fun v x escapes start at' => ?_⟩
  exact stays v x escapes (names start) (names at')

/-- Packed to 2, `S` has the empty virtual base `E` of alignment 16 at its start. What `K` adds leaves
`E` there; the `P` that `L` adds would meet the second one in `E`, which has to give way. -/
def outgrown : Setting :=
  let letters : Field := { name := "c", type := .array ⟨2⟩ (.scalar ⟨0⟩ .plainChar) 6 }
  let around (name : String) (extra : List Field) : Record :=
    .ofClass name (letters :: extra) [{ record := ⟨5⟩ }, { record := ⟨2⟩, isVirtual := true }] []
      { maxFieldAlignment := some 2 }
  Setting.linux [
    .ofClass "P" [] [] [] { alignment := some 16 },
    .ofClass "Q" [] [{ record := ⟨0⟩ }] [],
    .ofClass "E" [] [{ record := ⟨0⟩ }, { record := ⟨1⟩ }] [],
    .ofClass "W" [] [] [] { alignment := some 64 },
    .ofClass "T" [{ name := "t", type := .scalar ⟨0⟩ .plainChar }] [{ record := ⟨3⟩ }] [],
    .ofClass "N" [{ name := "n", type := .scalar ⟨1⟩ (.integer .short .signed) }] [] [],
    around "S" [],
    around "K" [{ name := "t", type := .record ⟨3⟩ ⟨4⟩ }],
    around "L" [{ name := "p", type := .record ⟨4⟩ ⟨0⟩ }]] []

/-- The empty base of `S` has escaped the maximum and stays at the start of `K`, although the map of
`K` looks twice as far for empty subobjects. -/
theorem appended_fields_move_nothing_outgrown : ∃ layout layout',
    (outgrown.known 10).record ⟨6⟩ = .ok layout ∧ (outgrown.known 10).record ⟨7⟩ = .ok layout' ∧
      (Frame.ofRecord outgrown ⟨6⟩ none).Escapes (outgrown.known 10) ⟨2⟩ ∧
      layout.largestEmptySubobject = 32 ∧ layout'.largestEmptySubobject = 64 ∧
      layout.fieldOffsets = [80] ∧ layout.fieldOffsets <+: layout'.fieldOffsets ∧
      layout.alignment = 16 ∧ layout.alignment ≤ layout'.alignment := by
  obtain ⟨layout, laid⟩ := exists_ok (by decide +kernel :
    ((outgrown.known 10).record ⟨6⟩).isOk = true)
  obtain ⟨layout', laid'⟩ := exists_ok (by decide +kernel :
    ((outgrown.known 10).record ⟨7⟩).isOk = true)
  have shorter : ((outgrown.known 10).record ⟨6⟩).map (fun layout =>
      (layout.largestEmptySubobject, layout.fieldOffsets, layout.alignment)) = .ok (32, [80], 16) := by
    decide +kernel
  have slots : ((outgrown.known 10).record ⟨7⟩).map (fun layout =>
      (layout.largestEmptySubobject, layout.asClass.map (·.virtualBaseSlots.entries))) =
        .ok (64, some [(⟨2⟩, { offset := 0 })]) := by
    decide +kernel
  rw [laid] at shorter
  rw [laid'] at slots
  simp only [Except.map, Except.ok.injEq, Prod.mk.injEq] at shorter slots
  obtain ⟨part, asClass, entries⟩ := Option.map_eq_some_iff.mp slots.2
  have longer : outgrown.tree.Lengthens ⟨6⟩ ⟨7⟩ [{ name := "t", type := .record ⟨3⟩ ⟨4⟩ }] := by
    constructor <;> rfl
  obtain ⟨offsets, _, _, _, aligned⟩ :=
    appended_fields_move_nothing (Setting.linux_isItanium _ _) longer laid laid'
  refine ⟨layout, layout', laid, laid', ⟨rfl, by decide, by decide +kernel⟩, shorter.1, slots.1,
    shorter.2.1, offsets, shorter.2.2, aligned fun v x _ _ at' => ?_⟩
  -- No other virtual base is listed.
  simp only [RecordLayout.virtualBaseOffset, RecordLayout.virtualBaseSlot, RecordLayout.classLayout,
    asClass, bind, Except.bind, OrderedMap.find?, entries, List.lookup_cons, List.lookup_nil] at at'
  cases here : v == ⟨2⟩ with
  | false =>
    rw [here] at at'
    cases at'
  | true =>
    rw [here] at at'
    exact (Except.ok.inj at').symm

/-- Where the empty base has to move, the longer record is less aligned. -/
theorem appended_field_lowers_alignment : outgrown.IsItanium ∧
    outgrown.tree.Lengthens ⟨6⟩ ⟨8⟩ [{ name := "p", type := .record ⟨4⟩ ⟨0⟩ }] ∧
    ∃ layout layout', (outgrown.known 10).record ⟨6⟩ = .ok layout ∧
      (outgrown.known 10).record ⟨8⟩ = .ok layout' ∧ ¬ layout.alignment ≤ layout'.alignment := by
  refine ⟨Setting.linux_isItanium _ _, by constructor <;> rfl, ?_⟩
  obtain ⟨layout, laid⟩ := exists_ok (by decide +kernel :
    ((outgrown.known 10).record ⟨6⟩).isOk = true)
  obtain ⟨layout', laid'⟩ := exists_ok (by decide +kernel :
    ((outgrown.known 10).record ⟨8⟩).isOk = true)
  have wide : ((outgrown.known 10).record ⟨6⟩).map (·.alignment) = .ok 16 := by decide +kernel
  have narrow : ((outgrown.known 10).record ⟨8⟩).map (·.alignment) = .ok 2 := by decide +kernel
  rw [laid] at wide
  rw [laid'] at narrow
  refine ⟨layout, layout', laid, laid', ?_⟩
  have wide : layout.alignment = 16 := Except.ok.inj wide
  have narrow : layout'.alignment = 2 := Except.ok.inj narrow
  rw [wide, narrow]
  decide

end ObjectLayout
