import ObjectLayout.Proofs.Itanium.Alike
import ObjectLayout.Proofs.Itanium.Moves
import ObjectLayout.Proofs.Itanium.Soundness

/-! Empty classes outside C++. Nothing is made larger there for being empty, so an empty class is of
size zero, and no map of empty subobjects has anything to record. -/
namespace ObjectLayout

open LayoutM (ends_bind ends_lift_bind eval_bind_eq_ok layoutOf)

variable {s : Setting} {known : Known} {d r : RecordId}

namespace Itanium

variable {f : Frame} {st st' : State} {i : SubobjectId} {field : Field} {index : Nat}

/-- A state in which nothing takes up any room. -/
structure Void (st : State) : Prop where
  size : st.size = 0
  dataSize : st.dataSize = 0
  unfilledBits : st.unfilledBits = 0
  bare : ∃ map, st.emptyMap = some map ∧ map.IsBare

theorem Void.of_frame (h : Void st) (size : st'.size = st.size) (dataSize : st'.dataSize = st.dataSize)
    (unfilledBits : st'.unfilledBits = st.unfilledBits) (map : st'.emptyMap = st.emptyMap) :
    Void st' :=
  ⟨size.trans h.size, dataSize.trans h.dataSize, unfilledBits.trans h.unfilledBits, map ▸ h.bare⟩

theorem alignTo_zero {b c : Nat} (aligned : Quantity.alignTo 0 b = .ok c) : c = 0 := by
  obtain ⟨positive, rfl, _⟩ := Quantity.alignTo_eq_ok_iff.mp aligned
  exact Quantity.roundUp_zero (Nat.pos_of_ne_zero positive)

section Bases

variable (unsupplied : f.supplied = none) (h : Void st)
variable (empty : f.tree.isEmptyClass (st.graph.node i).record = true)
variable (zero : known.size (st.graph.node i).record = 0)
include unsupplied h empty zero

theorem layBase_void : Ends (fun _ => True) ((layBase f i st).eval known) fun result =>
    Void result.1 := by
  obtain ⟨map, mapped, bare⟩ := h.bare
  have none : suppliedBaseOffset? f (st.graph.node i) = none := by
    simp [suppliedBaseOffset?, unsupplied]
  have placed : (st.placeBase? f i 0).eval known = .ok (some { st with emptyMap := some map }) := by
    unfold State.placeBase?
    rw [mapped]
    dsimp only
    rw [bare.placeBase]
    rfl
  refine layBase_stages.imp ?_
  rintro ⟨st', x⟩ ⟨layout, unpacked, laid, _, stages⟩
  cases stages with
  | atStart _ _ admitted covered raised =>
    cases placed.symm.trans admitted
    rw [Known.size_eq laid] at zero
    rw [(Ends.holds (raiseAlignment_raises unsupplied) raised).frame,
      Ends.holds (setSize_ends trivial) covered, zero]
    have size : max (Bits.toBytesCeil st.size) 0 = 0 := by
      rw [h.size]
      rfl
    exact ⟨congrArg (8 * ·) size, h.dataSize, h.unfilledBits, map, rfl, bare⟩
  | elsewhere refused _ _ _ => cases placed.symm.trans (refused empty (by rw [none]; rfl))

theorem layNonVirtualBase_void :
    Ends (fun _ => True) ((layNonVirtualBase f i st).eval known) Void := by
  unfold layNonVirtualBase
  refine ends_bind (layBase_void unsupplied h empty zero) ?_
  rintro ⟨mid, x⟩ void
  refine ends_bind Ends.any fun _ _ => ends_bind Ends.any fun slots _ => ?_
  exact void.of_frame rfl rfl rfl rfl

theorem layVirtualBase_void :
    Ends (fun _ => True) ((layVirtualBase f i st).eval known) Void := by
  unfold layVirtualBase
  refine ends_bind Ends.any fun _ _ => ends_bind (layBase_void unsupplied h empty zero) ?_
  rintro ⟨mid, x⟩ void
  refine ends_bind Ends.any fun _ _ => ends_bind Ends.any fun slots _ => ?_
  exact void.of_frame rfl rfl rfl rfl

end Bases

section Fields

theorem avoidCrossing_zero (alignment typeSize : Nat) :
    Ends (fun _ => True) (avoidCrossing f 0 alignment 0 typeSize) (· = 0) :=
  Ends.any.imp fun _ => alignTo_zero

variable (unsupplied : f.supplied = none) (h : Void st)
include h

theorem occupyBits_void (typeSize : Nat) : Ends (fun _ => True) (st.occupyBits f 0 0 typeSize)
    fun st' => Void (st'.setDataSize st'.dataSize) := by
  unfold State.occupyBits
  split
  · have dataSize : max st.dataSize 0 = 0 := by rw [h.dataSize, Nat.max_self]
    refine ⟨?_, dataSize, h.unfilledBits, h.bare⟩
    change max st.size (max st.dataSize 0) = 0
    rw [h.size, dataSize, Nat.max_self]
  · simp only [bne_self_eq_false, Bool.and_false, Bool.false_eq_true, if_false]
    exact ⟨congrArg (max · 0) h.size, rfl, rfl, h.bare⟩

include unsupplied

/-- A bit-field of width zero has nothing to align. -/
theorem layAnyField_void (none : field.bitWidth = some 0) :
    Ends (fun _ => True) ((layAnyField f st (field, index)).eval known) Void := by
  unfold layAnyField
  simp only [none]
  refine layBitField_enters.imp ?_
  rintro st' ⟨type, _, _, ⟨wide, _⟩ | ⟨_, done⟩⟩
  · exact absurd wide (Nat.not_lt_zero _)
  have void : Void (st.entering f type) := by
    rw [entering_frame.1]
    exact ⟨h.size, h.dataSize, Nat.le_zero.mp (h.unfilledBits ▸ entering_frame.2), h.bare⟩
  obtain ⟨alignment, start, computed, taken, stages⟩ := layNarrowBitField_stages.holds done
  have used : (st.entering f type).used = 0 := by
    rw [State.used, void.dataSize, void.unfilledBits]
  obtain rfl : start = 0 := by
    have started := stages.started
    rw [used, ite_self] at started
    split at started
    · exact alignTo_zero started
    · exact (Except.ok.inj started).symm
  obtain rfl : computed = 0 := (avoidCrossing_zero _ _).holds stages.avoided
  have occupied := stages.occupied
  simp only [adoptFieldOffset, unsupplied, Option.bind_none] at occupied
  have placed : Void ((st.entering f type).placeFieldAt 0) := void.of_frame rfl rfl rfl rfl
  have taken := (occupyBits_void placed _).holds occupied
  have raised := Ends.holds (raiseAlignment_raises unsupplied) stages.raised
  exact taken.of_frame (by rw [raised.frame]) (by rw [raised.frame]) (by rw [raised.frame])
    (by rw [raised.frame])

end Fields

/-- Rounding up leaves a size of zero alone. -/
theorem finish_zero (unsupplied : f.supplied = none) :
    Ends (fun _ => True) ((finish f st).eval known) fun st' =>
      ∃ sized, st.avoidSizeZero f = .ok sized ∧ (sized.size = 0 → st'.size = 0) := by
  refine finish_stages.imp ?_
  rintro st' ⟨rounded, sized, stages⟩
  refine ⟨sized, stages.avoided, fun zero => ?_⟩
  have aligned := stages.aligned
  rw [zero] at aligned
  rw [stages.computed unsupplied]
  exact alignTo_zero aligned

theorem finish_void (unsupplied : f.supplied = none) (c : f.setting.options.cplusplus = false)
    (h : Void st) : Ends (fun _ => True) ((finish f st).eval known) fun st' => st'.size = 0 := by
  refine (finish_zero unsupplied).imp fun st' ⟨sized, avoided, zero⟩ => ?_
  unfold State.avoidSizeZero at avoided
  rw [c] at avoided
  cases avoided
  exact zero h.size

/-- What an empty class inherits is empty too. -/
theorem isEmptyClass_below {tree : Tree} {d b : RecordId} (acyclic : tree.Acyclic d)
    (empty : tree.isEmptyClass d = true) (path : Relation.TransGen tree.Inherits d b) :
    tree.isEmptyClass b = true := by
  have next {c b : RecordId} (acyclic : tree.Acyclic c) (empty : tree.isEmptyClass c = true)
      (edge : tree.Inherits c b) : tree.isEmptyClass b = true := by
    obtain ⟨base, member, rfl⟩ := edge
    exact (Tree.isEmptyClass_base acyclic empty member).2
  induction path with
  | single edge => exact next acyclic empty edge
  | tail above edge ih => exact next (acyclic.lowerAll above.to_reflTransGen) ih edge

/-- No step of the layout of an empty class takes up room if the empty classes below take up none. -/
theorem Void.move (work : Workable f known fun _ => True)
    (empty : f.tree.isEmptyClass f.record = true)
    (zero : ∀ b, Relation.TransGen f.setting.Holds f.record b → f.tree.isEmptyClass b = true →
      known.size b = 0) (h : Void st) (move : Move f known st st') : Void st' := by
  have base {own : Option RecordId} {i : SubobjectId}
      (charted : Charted f.setting known f.record own st.graph) (has : st.graph.Has i) :
      f.tree.isEmptyClass (st.graph.node i).record = true ∧
        known.size (st.graph.node i).record = 0 := by
    have path := charted.forest.below i has
    have empty := isEmptyClass_below work.acyclic empty path
    exact ⟨empty, zero _ (SoundBelow.inherits path) empty⟩
  cases move with
  | plan => exact h.of_frame rfl rfl rfl rfl
  | tablePointer dynamic =>
    rw [Tree.not_isDynamic_of_isEmptyClass work.acyclic empty] at dynamic
    cases dynamic
  | nonVirtualBase charted root done =>
    obtain ⟨empty, zero⟩ := base charted root.1
    exact (layNonVirtualBase_void work.unsupplied h empty zero).value done
  | virtualBase charted root done =>
    obtain ⟨empty, zero⟩ := base charted root.1
    exact (layVirtualBase_void work.unsupplied h empty zero).value done
  | field turn done =>
    have none := Tree.isEmptyClass_bitWidth work.acyclic empty (List.mem_of_getElem? turn)
    exact (layAnyField_void work.unsupplied h none).value done

end Itanium

open Itanium

variable {layout : RecordLayout}

/-- The map of a class that holds nothing with an empty subobject to record. -/
theorem ofClass_isBare (zero : ∀ held, s.Holds d held → ∃ layout, known.record held = .ok layout ∧
      EmptyMap.largestIn s held layout = 0) :
    Ends (fun _ => True) ((EmptyMap.ofClass s .pruned d).eval known) EmptyMap.IsBare := by
  unfold EmptyMap.ofClass
  refine ends_bind (G := (· = 0)) ?_ ?_
  · rw [LayoutM.eval_foldlM]
    refine Ends.foldlM_keeps rfl fun held member largest sofar => ?_
    obtain ⟨layout, laid, none⟩ := zero held member
    rw [LayoutM.eval_layoutOf_bind laid, sofar, none]
    exact rfl
  · rintro _ rfl
    exact ⟨rfl, rfl⟩

/-- Outside C++ a layout has no empty subobjects to record, and an empty class is of size zero. -/
structure Weightless (s : Setting) (r : RecordId) (layout : RecordLayout) : Prop where
  largest : layout.largestEmptySubobject = 0
  size : s.tree.isEmptyClass r = true → layout.size = 0

theorem Weightless.largestIn (h : Weightless s r layout) : EmptyMap.largestIn s r layout = 0 := by
  unfold EmptyMap.largestIn
  split
  · exact h.size ‹_›
  · exact h.largest

namespace Setting.Knows

variable (knows : s.Knows known) (itanium : s.IsItanium) (c : s.options.cplusplus = false)
include knows itanium c

theorem weightless (laid : known.record r = .ok layout) : Weightless s r layout := by
  have grounded := (knows.grounded laid).transGen
  induction grounded generalizing layout with
  | intro r _ ih =>
  have below (held : RecordId) (path : Relation.TransGen s.Holds r held) :
      ∃ layout, known.record held = .ok layout ∧ Weightless s held layout := by
    obtain ⟨_, laid'⟩ := knows.reached ⟨layout, laid⟩ path.to_reflTransGen
    exact ⟨_, laid', ih held path laid'⟩
  have work := Workable.of_knows knows (knows.grounded laid) (knows.sound_and_below itanium laid).2
  have rules := knows.layout_eq itanium laid
  rw [layoutTracking_eq] at rules
  cases isClass : (s.tree.record r).isClass with
  | false =>
    rw [isClass, if_neg Bool.false_ne_true] at rules
    obtain ⟨start, st, run⟩ := (layPlain_runs work.unsupplied isClass).holds rules
    refine ⟨by rw [RecordLayout.largestEmptySubobject, run.asClass]; rfl, fun empty => ?_⟩
    have full : (s.tree.record r).isClass = true := Tree.isEmptyClass_isClass work.acyclic empty
    rw [isClass] at full
    cases full
  | true =>
    rw [if_pos isClass] at rules
    obtain ⟨start, fixed, st, run⟩ := (layClass_runs work).holds rules
    obtain ⟨map, part, built, mapped, asClass, largest, _⟩ := run.part
    have bare : map.IsBare := (ofClass_isBare fun held holds =>
      (below held (.single holds)).imp fun _ inner => ⟨inner.1, inner.2.largestIn⟩).value built
    refine ⟨?_, fun empty => ?_⟩
    · have idle := bare.idle
      simp only [EmptyMap.isIdle, Bool.and_eq_true, beq_iff_eq] at idle
      rw [RecordLayout.largestEmptySubobject, asClass]
      exact largest.trans idle.2
    · have zero (b : RecordId) (path : Relation.TransGen s.Holds r b)
          (empty : s.tree.isEmptyClass b = true) : known.size b = 0 := by
        obtain ⟨_, laid', weightless⟩ := below b path
        rw [Known.size_eq laid']
        exact weightless.size empty
      have void : Void start := ⟨run.empty.1, run.empty.2, run.fresh.unfilledBits, map, mapped, bare⟩
      have whole : Moves _ known start st := run.direct.trans run.virtual
      have void : Void st := whole.keeps void fun _ _ before move => before.move work empty zero move
      obtain ⟨last, finished, size⟩ := run.finished
      have zero := (finish_void work.unsupplied c void).value finished
      rw [size, State.sizeInBytes, zero]
      rfl

/-- The map of a class outside C++ records nothing. -/
theorem ofClass_isBare (laid : known.record r = .ok layout) :
    Ends (fun _ => True) ((EmptyMap.ofClass s .pruned r).eval known) EmptyMap.IsBare :=
  ObjectLayout.ofClass_isBare fun _ holds =>
    let ⟨layout, laid'⟩ := knows.held laid holds
    ⟨layout, laid', (knows.weightless itanium c laid').largestIn⟩

end Setting.Knows

end ObjectLayout
