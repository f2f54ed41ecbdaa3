import ObjectLayout.Proofs.Itanium.Placing
import ObjectLayout.Proofs.OrderedMap
import ObjectLayout.Proofs.Subobject.Kinds

/-! Bases whose offsets are supplied back to the rules that found them. The offset that the second run
is told was found at or past where it would look first, so nothing looks packed, and both runs go
through the same states. What is told is what the first run ends with: a base that has its place keeps
it. -/
namespace ObjectLayout.Itanium

open LayoutM (ends_bind ends_lift_bind eval_bind_eq_ok)

variable {f : Frame} {known : Known} {supplied : SuppliedLayout} {st st₁ st' : State}
variable {i : SubobjectId} {x : Nat}

/-- The same rules with a layout supplied to them. -/
def Frame.supplying (f : Frame) (supplied : SuppliedLayout) : Frame :=
  { f with supplied := some supplied }

/-- The same state, with the alignment still to be inferred. -/
def State.inferring (st : State) : State := { st with infersAlignment := true }

/-- Every base that has its place has it where the supplied layout says. -/
structure Matches (supplied : SuppliedLayout) (st : State) : Prop where
  base : ∀ b x, st.baseOffsets.find? b = some x → supplied.baseOffsets.find? b = some x
  virtualBase : ∀ v slot, st.virtualBaseSlots.find? v = some slot →
    supplied.virtualBaseOffsets.find? v = some slot.offset

/-- Bases that have their place keep it, and no field gets one. -/
structure Keeps (st st' : State) : Prop where
  sorted : st.graph.Sorted → st'.graph.Sorted
  fields : st'.fieldOffsets = st.fieldOffsets
  base : st.baseOffsets.Extends st'.baseOffsets
  virtualBase : st.virtualBaseSlots.Extends st'.virtualBaseSlots

namespace Keeps

theorem refl (st : State) : Keeps st st := ⟨id, rfl, .refl _, .refl _⟩

theorem trans (h : Keeps st st₁) (h' : Keeps st₁ st') : Keeps st st' where
  sorted sorted := h'.sorted (h.sorted sorted)
  fields := h'.fields.trans h.fields
  base := h.base.trans h'.base
  virtualBase := h.virtualBase.trans h'.virtualBase

theorem earlier (h : Keeps st st') (after : Matches supplied st') : Matches supplied st where
  base b x found := after.base b x (h.base b x found)
  virtualBase v slot found := after.virtualBase v slot (h.virtualBase v slot found)

end Keeps

/-- Nothing is placed between two states, and the graph stays as it is. -/
structure SamePlaces (st st' : State) : Prop where
  graph : st'.graph = st.graph
  fields : st'.fieldOffsets = st.fieldOffsets
  bases : st'.baseOffsets = st.baseOffsets
  virtualBases : st'.virtualBaseSlots = st.virtualBaseSlots

theorem Reckons.samePlaces (h : Reckons st st') : SamePlaces st st' := by
  unfold Reckons Resizes at h
  rw [h]
  exact ⟨rfl, rfl, rfl, rfl⟩

theorem SamePlaces.keeps (h : SamePlaces st st') : Keeps st st' := by
  constructor
  · rw [h.graph]; exact id
  · exact h.fields
  · rw [h.bases]; exact .refl _
  · rw [h.virtualBases]; exact .refl _

section Leaves

theorem raiseAlignment_again (unsupplied : f.supplied = none) (packed unpacked : Bytes) :
    st.inferring.raiseAlignment (f.supplying supplied) packed unpacked =
      State.inferring <$> st.raiseAlignment f packed unpacked := by
  have settled : st.inferring.isAlignmentSettled (f.supplying supplied) =
      st.isAlignmentSettled f := by
    simp [State.isAlignmentSettled, State.inferring, Frame.supplying, unsupplied]
  unfold State.raiseAlignment
  rw [settled]
  split
  · rfl
  · by_cases higher : packed > st.alignment <;>
      by_cases further : unpacked > st.unpackedAlignment <;>
      cases Quantity.isPowerOfTwo packed <;> cases Quantity.isPowerOfTwo unpacked <;>
      simp [State.inferring, higher, further, ensure]

theorem placeBase?_again (i : SubobjectId) (x : Bytes) :
    st.inferring.placeBase? (f.supplying supplied) i x =
      Option.map State.inferring <$> st.placeBase? f i x := by
  unfold State.placeBase?
  cases here : st.emptyMap with
  | none => simp [State.inferring, here]
  | some map =>
    simp only [State.inferring, here, map_bind]
    refine congrArg _ (funext fun placed => ?_)
    cases placed <;> rfl

theorem placeField?_again (type : Ty) (x : Bytes) :
    st.inferring.placeField? (f.supplying supplied) type x =
      Option.map State.inferring <$> st.placeField? f type x := by
  unfold State.placeField?
  have union : (f.supplying supplied).isUnion = f.isUnion := rfl
  rw [union]
  cases f.isUnion with
  | true => rfl
  | false =>
    cases here : st.emptyMap with
    | none => simp [State.inferring, here]
    | some map =>
      simp only [State.inferring, Bool.false_eq_true, if_false, here, map_bind]
      refine congrArg _ (funext fun placed => ?_)
      cases placed <;> rfl

theorem occupyBase_again (isEmpty : Bool) (layout : RecordLayout) (x : Bytes) :
    occupyBase st.inferring isEmpty layout x = State.inferring <$> occupyBase st isEmpty layout x := by
  unfold occupyBase
  cases isEmpty with
  | true => simp [State.setSize, State.inferring, State.sizeInBytes]
  | false => simp [State.setDataSize, State.inferring]

end Leaves

section Bases

/-- The offset that the search ends with is adopted. -/
theorem findBaseOffset_again {alignment : Bytes}
    (done : (findBaseOffset f st i alignment).eval known = .ok (st', x)) :
    (adoptBaseOffset (f.supplying supplied) st.inferring i alignment x).eval known =
      .ok (st'.inferring, x) := by
  obtain ⟨placed, start, aligned, later⟩ := findBaseOffset_ok done
  have same : st'.inferring.dataSizeInBytes = st.dataSizeInBytes := by
    rw [placeBase?_frame placed]
    rfl
  have within : ¬ x < start := Nat.not_lt_of_le later
  unfold adoptBaseOffset
  refine eval_bind_eq_ok.mpr ⟨some st'.inferring, ?_, ?_⟩
  · rw [placeBase?_again, LayoutM.eval_map, placed]
    rfl
  · simp only [State.inferring, Bool.not_true, Bool.false_eq_true, if_false]
    refine eval_bind_eq_ok.mpr ⟨start, ?_, ?_⟩
    · rw [LayoutM.eval_lift]
      exact (congrArg (Quantity.alignTo · alignment) same).trans aligned
    · simp [State.settlePackedIf, within]

theorem liftM_again {x : Checked State} {next : State → LayoutM α} {result : α}
    (done : ((liftM x : LayoutM State) >>= next).eval known = .ok result) :
    ∃ st₁, x = .ok st₁ ∧ (next st₁).eval known = .ok result := by
  obtain ⟨st₁, first, done⟩ := eval_bind_eq_ok.mp done
  rw [LayoutM.eval_lift] at first
  exact ⟨st₁, first, done⟩

/-- A step that has the same effect on both states. -/
theorem again_bind {x : Checked State} {y : Checked State} {next : State → LayoutM α} {result : α}
    (same : y = State.inferring <$> x) (first : x = .ok st₁)
    (rest : (next st₁.inferring).eval known = .ok result) :
    ((liftM y : LayoutM State) >>= next).eval known = .ok result := by
  rw [same, first]
  exact rest

theorem layBase_samePlaces :
    Ends (fun _ => True) ((layBase f i st).eval known) fun result => SamePlaces st result.1 :=
  layBase_takes.imp fun _ taken => by
    rw [taken.frame]
    exact ⟨rfl, rfl, rfl, rfl⟩

theorem layBase_again (unsupplied : f.supplied = none)
    (told : suppliedBaseOffset? (f.supplying supplied) (st.graph.node i) = some x)
    (done : (layBase f i st).eval known = .ok (st', x)) :
    (layBase (f.supplying supplied) i st.inferring).eval known = .ok (st'.inferring, x) := by
  have none : suppliedBaseOffset? f (st.graph.node i) = none := by
    simp [suppliedBaseOffset?, unsupplied]
  have told : suppliedBaseOffset? (f.supplying supplied) (st.inferring.graph.node i) = some x :=
    told
  unfold layBase at *
  simp only [none, Option.all_none, Bool.and_true] at done
  simp only [told, Option.all_some]
  obtain ⟨_, plain, done⟩ := eval_bind_eq_ok.mp done
  obtain ⟨layout, asked, done⟩ := eval_bind_eq_ok.mp done
  obtain ⟨unpacked, aligned, done⟩ := eval_bind_eq_ok.mp done
  refine eval_bind_eq_ok.mpr ⟨_, plain, eval_bind_eq_ok.mpr ⟨_, asked, ?_⟩⟩
  refine eval_bind_eq_ok.mpr ⟨_, aligned, ?_⟩
  -- What the search past the data finds is adopted.
  have search (isEmpty : Bool) (alignment packed unpacked : Bytes) (done : (do
        let found ← findBaseOffset f st i alignment
        let st' ← occupyBase found.1 isEmpty layout found.2
        return (← st'.raiseAlignment f packed unpacked, found.2) : LayoutM (State × Bytes)).eval
          known = .ok (st', x)) : (do
        let found ← adoptBaseOffset (f.supplying supplied) st.inferring i alignment x
        let st' ← occupyBase found.1 isEmpty layout found.2
        return (← st'.raiseAlignment (f.supplying supplied) packed unpacked, found.2)
          : LayoutM (State × Bytes)).eval known = .ok (st'.inferring, x) := by
    obtain ⟨⟨st₁, y⟩, found, done⟩ := eval_bind_eq_ok.mp done
    obtain ⟨st₂, occupied, done⟩ := liftM_again done
    obtain ⟨st₃, raised, done⟩ := liftM_again done
    cases done
    refine eval_bind_eq_ok.mpr ⟨_, findBaseOffset_again found, ?_⟩
    refine again_bind (occupyBase_again _ _ _) occupied ?_
    exact again_bind (raiseAlignment_again unsupplied _ _) raised rfl
  have isEmpty : (f.supplying supplied).tree.isEmptyClass (st.inferring.graph.node i).record =
      f.tree.isEmptyClass (st.graph.node i).record := rfl
  rw [isEmpty]
  cases empty : f.tree.isEmptyClass (st.graph.node i).record with
  | false =>
    rw [empty] at done
    exact search _ _ _ _ done
  | true =>
    rw [empty] at done
    obtain ⟨atStart, placed, done⟩ := eval_bind_eq_ok.mp done
    have placed' : (st.inferring.placeBase? (f.supplying supplied) i 0).eval known =
        .ok (atStart.map State.inferring) := by
      rw [placeBase?_again, LayoutM.eval_map, placed]
      rfl
    cases atStart with
    | none =>
      by_cases start : x = 0
      · subst x
        exact eval_bind_eq_ok.mpr ⟨_, placed', search _ _ _ _ done⟩
      · have elsewhere : ¬ (true && x == 0) = true := by simpa using start
        rw [if_neg elsewhere]
        exact search _ _ _ _ done
    | some st₁ =>
      obtain ⟨st₂, sized, done⟩ := liftM_again done
      obtain ⟨st₃, raised, done⟩ := liftM_again done
      cases done
      refine eval_bind_eq_ok.mpr ⟨_, placed', ?_⟩
      refine again_bind ?_ sized (again_bind (raiseAlignment_again unsupplied _ _) raised rfl)
      simp [State.setSize, State.inferring, State.sizeInBytes]

/-- Where the first computation ends, what was placed stays in place, and the second, which is told
the places that the first ends with, ends in the same state. -/
def Replays (known : Known) (supplied : SuppliedLayout) (st : State)
    (first second : LayoutM State) : Prop :=
  Ends (fun _ => True) (first.eval known) fun st' =>
    Keeps st st' ∧ (Matches supplied st' → second.eval known = .ok st'.inferring)

namespace Replays

variable {first second first' second' : LayoutM State} {next next' : State → LayoutM State}

theorem done (keeps : Keeps st st') : Replays known supplied st (pure st') (pure st'.inferring) :=
  ⟨keeps, fun _ => rfl⟩

theorem after (keeps : Keeps st st₁) (h : Replays known supplied st₁ first second) :
    Replays known supplied st first second :=
  h.imp fun _ ⟨later, again⟩ => ⟨keeps.trans later, again⟩

theorem bind_of_done (h : Replays known supplied st first second)
    (rest : ∀ st₁, first.eval known = .ok st₁ → Keeps st st₁ →
      Replays known supplied st₁ (next st₁) (next' st₁.inferring)) :
    Replays known supplied st (first >>= next) (second >>= next') := by
  refine ends_bind h.remember fun st₁ ⟨done, keeps, again⟩ => ?_
  refine (rest st₁ done keeps).imp fun st' ⟨later, again'⟩ => ⟨keeps.trans later, fun after => ?_⟩
  exact eval_bind_eq_ok.mpr ⟨st₁.inferring, again (later.earlier after), again' after⟩

theorem bind (h : Replays known supplied st first second)
    (rest : ∀ st₁, Keeps st st₁ → Replays known supplied st₁ (next st₁) (next' st₁.inferring)) :
    Replays known supplied st (first >>= next) (second >>= next') :=
  h.bind_of_done fun st₁ _ => rest st₁

/-- Both computations ask the same question first. -/
theorem ask {x : LayoutM α} {next next' : α → LayoutM State}
    (rest : ∀ a, x.eval known = .ok a → Replays known supplied st (next a) (next' a)) :
    Replays known supplied st (x >>= next) (x >>= next') := by
  refine ends_bind Ends.any fun a asked => (rest a asked).imp fun st' ⟨keeps, again⟩ => ?_
  exact ⟨keeps, fun after => eval_bind_eq_ok.mpr ⟨a, asked, again after⟩⟩

theorem lift {x : Checked α} {next next' : α → LayoutM State}
    (rest : ∀ a, x = .ok a → Replays known supplied st (next a) (next' a)) :
    Replays known supplied st ((liftM x : LayoutM α) >>= next) ((liftM x : LayoutM α) >>= next') :=
  ask fun a asked => rest a (by rwa [LayoutM.eval_lift] at asked)

theorem ite {c : Prop} [Decidable c] (yes : c → Replays known supplied st first second)
    (no : ¬ c → Replays known supplied st first' second') :
    Replays known supplied st (if c then first else first') (if c then second else second') := by
  split
  · exact yes ‹c›
  · exact no ‹¬ c›

/-- Both branches go on in the same way, the first of them perhaps after some more steps. -/
theorem ite_bind {c : Prop} [Decidable c]
    (rest : ∀ st₁, Keeps st st₁ → Replays known supplied st₁ (next st₁) (next' st₁.inferring))
    (yes : c → (∀ st₁, Keeps st st₁ →
      Replays known supplied st₁ (next st₁) (next' st₁.inferring)) →
      Replays known supplied st first second)
    (no : ¬ c → Replays known supplied st first' second') :
    Replays known supplied st (if c then first else first' >>= next)
      (if c then second else second' >>= next') :=
  ite (fun holds => yes holds rest) fun fails => (no fails).bind rest

theorem foldlM {step step' : State → α → LayoutM State} {xs : List α}
    (each : ∀ x ∈ xs, ∀ st₁, Keeps st st₁ →
      Replays known supplied st₁ (step st₁ x) (step' st₁.inferring x)) :
    Replays known supplied st (xs.foldlM step st) (xs.foldlM step' st.inferring) := by
  induction xs generalizing st with
  | nil => exact done (.refl st)
  | cons x rest ih =>
    rw [List.foldlM_cons, List.foldlM_cons]
    refine (each x List.mem_cons_self st (.refl st)).bind fun st₁ keeps => ?_
    exact ih fun x' member st₂ later => each x' (.tail _ member) st₂ (keeps.trans later)

end Replays

/-- Claimed virtual bases get slots that were free. -/
theorem placeClaimed_keeps {s : Setting} {graph : SubobjectGraph}
    {slots : OrderedMap RecordId VirtualBaseSlot} :
    Ends (fun _ => True) ((placeClaimed s graph i x slots).eval known) slots.Extends := by
  unfold placeClaimed SubobjectGraph.descend
  generalize graph.nodes.size + 1 = depth
  induction depth generalizing i x slots with
  | zero => trivial
  | succ depth ih =>
    rw [descendWithin]
    extract_lets r placeBases
    split
    · exact .refl slots
    have bases (slots₁ : OrderedMap RecordId VirtualBaseSlot) (kept : slots.Extends slots₁) :
        Ends (fun _ => True) ((placeBases slots₁).eval known) slots.Extends := by
      refine ends_bind Ends.any fun layout _ => ?_
      rw [LayoutM.eval_foldlM]
      refine Ends.foldlM_keeps kept fun base _ slots₂ sofar => ?_
      exact ends_lift_bind Ends.any fun y _ => ih.imp fun slots' => sofar.trans
    split
    · exact bases slots (.refl slots)
    · rename_i primary _
      refine ends_bind (G := fun _ => slots.contains (graph.node primary).record = false) ?_ ?_
      · rw [LayoutM.eval_ensure]
        exact ends_ensure (by simp) fun _ => trivial
      · intro _ free
        refine ends_bind ih fun slots₁ kept => bases slots₁ ?_
        exact (OrderedMap.Extends.insert free _).trans kept

theorem placeClaimed_replays (supplied : SuppliedLayout) : Replays known supplied st (st.placeClaimed f i x)
    (st.inferring.placeClaimed (f.supplying supplied) i x) := by
  unfold State.placeClaimed
  refine Replays.ask fun slots placed => Replays.done ⟨id, rfl, .refl _, ?_⟩
  exact placeClaimed_keeps.value placed

theorem layNonVirtualBase_replays (unsupplied : f.supplied = none)
    (plain : (st.graph.node i).isVirtual = false) :
    Replays known supplied st (layNonVirtualBase f i st)
      (layNonVirtualBase (f.supplying supplied) i st.inferring) := by
  refine Ends.of_all (fun _ => trivial) fun st' done => ?_
  unfold layNonVirtualBase at *
  obtain ⟨⟨st₁, x⟩, laid, done⟩ := eval_bind_eq_ok.mp done
  obtain ⟨_, new, done⟩ := eval_bind_eq_ok.mp done
  have same := layBase_samePlaces.value laid
  have free : st₁.baseOffsets.contains (st₁.graph.node i).record = false := by
    simpa using ensure_eq_ok.mp ((LayoutM.eval_ensure _ _).symm.trans new)
  obtain ⟨later, again⟩ := (placeClaimed_replays supplied).value done
  have listed : Keeps st₁ { st₁ with
      baseOffsets := st₁.baseOffsets.insert (st₁.graph.node i).record x } :=
    ⟨id, rfl, .insert free x, .refl _⟩
  refine ⟨(same.keeps.trans listed).trans later, fun after => ?_⟩
  have told := after.base _ x (later.base _ x (OrderedMap.find?_insert_self _ _ _))
  rw [same.graph] at told
  refine eval_bind_eq_ok.mpr ⟨_, layBase_again unsupplied ?_ laid, ?_⟩
  · simpa [suppliedBaseOffset?, Frame.supplying, plain] using told
  · exact eval_bind_eq_ok.mpr ⟨_, new, again after⟩

theorem layVirtualBase_replays (unsupplied : f.supplied = none)
    (virt : (st.graph.node i).isVirtual = true) :
    Replays known supplied st (layVirtualBase f i st)
      (layVirtualBase (f.supplying supplied) i st.inferring) := by
  refine Ends.of_all (fun _ => trivial) fun st' done => ?_
  unfold layVirtualBase at *
  obtain ⟨_, notUnion, done⟩ := eval_bind_eq_ok.mp done
  obtain ⟨⟨st₁, x⟩, laid, done⟩ := eval_bind_eq_ok.mp done
  obtain ⟨_, new, done⟩ := eval_bind_eq_ok.mp done
  have same := layBase_samePlaces.value laid
  have free : st₁.virtualBaseSlots.contains (st₁.graph.node i).record = false := by
    simpa using ensure_eq_ok.mp ((LayoutM.eval_ensure _ _).symm.trans new)
  obtain ⟨later, again⟩ := (placeClaimed_replays supplied).value done
  have listed : Keeps st₁ { st₁ with
      virtualBaseSlots := st₁.virtualBaseSlots.insert (st₁.graph.node i).record { offset := x } } :=
    ⟨id, rfl, .refl _, .insert free _⟩
  refine ⟨(same.keeps.trans listed).trans later, fun after => ?_⟩
  have told := after.virtualBase _ _ (later.virtualBase _ _ (OrderedMap.find?_insert_self _ _ _))
  rw [same.graph] at told
  refine eval_bind_eq_ok.mpr ⟨_, notUnion, ?_⟩
  refine eval_bind_eq_ok.mpr ⟨_, layBase_again unsupplied ?_ laid, ?_⟩
  · simpa [suppliedBaseOffset?, Frame.supplying, virt] using told
  · exact eval_bind_eq_ok.mpr ⟨_, new, again after⟩

theorem layTablePointer_replays (unsupplied : f.supplied = none) :
    Replays known supplied st (liftM (layTablePointer f st))
      (liftM (layTablePointer (f.supplying supplied) st.inferring)) := by
  refine Ends.of_all (fun _ => trivial) fun st' done => ?_
  rw [LayoutM.eval_lift] at *
  unfold layTablePointer at *
  obtain ⟨_, first, done⟩ := except_bind_eq_ok.mp done
  obtain ⟨start, aligned, done⟩ := except_bind_eq_ok.mp done
  obtain ⟨bits, whole, done⟩ := except_bind_eq_ok.mp done
  obtain ⟨st₁, raised, done⟩ := except_bind_eq_ok.mp done
  obtain ⟨stop, sum, done⟩ := except_bind_eq_ok.mp done
  obtain ⟨stopBits, whole', done⟩ := except_bind_eq_ok.mp done
  cases done
  have same := ((Reckons.raiseAlignment _ _).value raised).samePlaces
  have places : SamePlaces st { st₁ with hasOwnVfptr := true, size := stopBits, dataSize := stopBits } :=
    ⟨same.graph, same.fields, same.bases, same.virtualBases⟩
  refine ⟨places.keeps, fun _ => ?_⟩
  refine except_bind_eq_ok.mpr ⟨_, first, except_bind_eq_ok.mpr ⟨_, aligned, ?_⟩⟩
  refine except_bind_eq_ok.mpr ⟨_, whole, except_bind_eq_ok.mpr ⟨st₁.inferring, ?_, ?_⟩⟩
  · exact (raiseAlignment_again unsupplied _ _).trans (congrArg (State.inferring <$> ·) raised)
  · exact except_bind_eq_ok.mpr ⟨_, sum, except_bind_eq_ok.mpr ⟨_, whole', rfl⟩⟩

theorem nonVirtualBase_plain {r : RecordId} (sorted : st.graph.Sorted)
    (listed : st.graph.nonVirtualBase r = .ok i) : (st.graph.node i).isVirtual = false := by
  unfold SubobjectGraph.nonVirtualBase at listed
  split at listed
  · rename_i found
    cases listed
    exact (sorted.plain r i found).2
  · cases listed

theorem nonVirtualBase_record {r : RecordId} (sorted : st.graph.Sorted)
    (listed : st.graph.nonVirtualBase r = .ok i) : (st.graph.node i).record = r := by
  unfold SubobjectGraph.nonVirtualBase at listed
  split at listed
  · rename_i found
    cases listed
    exact sorted.record r i found
  · cases listed

theorem virtualBase_virtual {r : RecordId} (sorted : st.graph.Sorted)
    (listed : st.graph.virtualBase r = .ok i) : (st.graph.node i).isVirtual = true := by
  unfold SubobjectGraph.virtualBase at listed
  split at listed
  · rename_i found
    cases listed
    exact (sorted.virtual r i found).2
  · cases listed

theorem layPrimaryBase_replays (unsupplied : f.supplied = none) (sorted : st.graph.Sorted)
    (primary : PrimaryBase) :
    Replays known supplied st (layPrimaryBase f primary st)
      (layPrimaryBase (f.supplying supplied) primary st.inferring) := by
  unfold layPrimaryBase
  refine Replays.ite (fun _ => ?_) fun _ => ?_
  · refine Replays.lift fun stolen free => ?_
    obtain ⟨kept, virt⟩ := (SubobjectGraph.sorted_steal sorted).value free
    obtain ⟨graph, i⟩ := stolen
    refine Replays.ask fun _ _ => ?_
    have keeps : Keeps st { st with
        graph
        indirectPrimaryBases := appendNew st.indirectPrimaryBases [primary.record]
        visitedVirtualBases := st.visitedVirtualBases ++ [primary.record] } :=
      ⟨fun _ => kept, rfl, .refl _, .refl _⟩
    exact Replays.after keeps (layVirtualBase_replays unsupplied virt)
  · refine Replays.lift fun i listed => ?_
    exact layNonVirtualBase_replays unsupplied (nonVirtualBase_plain sorted listed)

theorem layNonVirtualBases_replays (unsupplied : f.supplied = none) :
    Replays known supplied st (layNonVirtualBases f st)
      (layNonVirtualBases (f.supplying supplied) st.inferring) := by
  unfold layNonVirtualBases
  refine Replays.ask fun choice _ => ?_
  obtain ⟨primaryBase, indirectPrimaryBases⟩ := choice
  refine Replays.ask fun graph found => ?_
  have sorted := SubobjectGraph.sorted_ofClass.value found
  have keeps : Keeps st { st with primaryBase, indirectPrimaryBases, graph } :=
    ⟨fun _ => sorted, rfl, .refl _, .refl _⟩
  refine Replays.after keeps ?_
  have bases (st₁ : State) (sorted : st₁.graph.Sorted) : Replays known supplied st₁
      (f.declaration.nonVirtualBases.foldlM (fun st base => do
        if isNonVirtualPrimary st base.record then return st
        layNonVirtualBase f (← st.graph.nonVirtualBase base.record) st) st₁)
      (f.declaration.nonVirtualBases.foldlM (fun st base => do
        if isNonVirtualPrimary st base.record then return st
        layNonVirtualBase (f.supplying supplied) (← st.graph.nonVirtualBase base.record) st)
        st₁.inferring) := by
    refine Replays.foldlM fun base _ st₂ kept => Replays.ite (fun _ => .done (.refl st₂)) ?_
    refine fun _ => Replays.lift fun i listed => ?_
    exact layNonVirtualBase_replays unsupplied (nonVirtualBase_plain (kept.sorted sorted) listed)
  cases primaryBase with
  | some primary =>
    exact (layPrimaryBase_replays unsupplied sorted primary).bind fun st₁ kept =>
      bases st₁ (kept.sorted sorted)
  | none =>
    refine Replays.ite_bind (fun st₁ kept => bases st₁ (kept.sorted sorted)) (fun _ rest => ?_)
      fun _ => .done (.refl _)
    exact (layTablePointer_replays unsupplied).bind rest

theorem layVirtualBases_replays (unsupplied : f.supplied = none) (sorted : st.graph.Sorted) :
    Replays known supplied st (layVirtualBases f st)
      (layVirtualBases (f.supplying supplied) st.inferring) := by
  unfold layVirtualBases layVirtualBasesBelow Tree.descend
  have primaryBase : st.inferring.primaryBase = st.primaryBase := rfl
  have record : (f.supplying supplied).record = f.record := rfl
  have tree : (f.supplying supplied).tree = f.tree := rfl
  rw [primaryBase, record, tree]
  clear primaryBase record tree
  generalize f.record = r
  generalize st.primaryBase = primary
  generalize f.tree.records.size + 1 = depth
  induction depth generalizing r primary st with
  | zero => trivial
  | succ depth ih =>
    rw [descendWithin, descendWithin]
    refine Replays.foldlM fun base _ st₁ kept => ?_
    have sorted := kept.sorted sorted
    refine Replays.ite (fun _ => .done (.refl st₁)) fun _ => ?_
    refine Replays.ite_bind (fun st₂ kept => ?_) (fun _ rest => ?_) fun _ => .done (.refl st₁)
    · refine Replays.ite (fun _ => .done (.refl st₂)) fun _ => ?_
      exact Replays.ask fun layout _ => ih (kept.sorted sorted) _ _
    · refine Replays.lift fun i listed => ?_
      have keeps : Keeps st₁ { st₁ with
          visitedVirtualBases := st₁.visitedVirtualBases ++ [base.record] } :=
        ⟨id, rfl, .refl _, .refl _⟩
      refine Replays.after keeps ?_
      refine Replays.bind (layVirtualBase_replays unsupplied ?_) fun st₂ later => ?_
      · exact virtualBase_virtual sorted listed
      · exact rest st₂ (keeps.trans later)

end Bases

end ObjectLayout.Itanium
