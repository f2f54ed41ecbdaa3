import ObjectLayout.Proofs.Subobject.EmptyMap

/-! What recording a subobject does to a map of empty subobjects. Nothing is added but the empty
subobjects inside it, and all of them are, except that a map that prunes may leave out those at or
past the size of the largest; an empty base is recorded in full wherever it lies. -/
namespace ObjectLayout

open LayoutM (ends_bind layoutOf)
open EmptyMap

variable {s : Setting} {known : Known} {allowed : Fault → Prop}
variable {g : SubobjectGraph} {map map' map'' : EmptyMap} {p q : Place} {x y : Nat}
variable {d r m c : RecordId} {type : Ty} {exempt : Bool}
variable {new new' : Nat × RecordId → Prop} {e : Nat × RecordId} {tracking : Tracking}

/-- An empty subobject of a place that begins at `x`, with where it lies. -/
def Lies (s : Setting) (known : Known) (g : SubobjectGraph) (p : Place) (x : Nat)
    (e : Nat × RecordId) : Prop :=
  ∃ o, HasEmpty s known g p o e.2 ∧ e.1 = x + o

theorem lies_iff : Lies s known g p x e ↔
    (s.tree.isEmptyClass (p.record g) = true ∧ e = (x, p.record g)) ∨
      ∃ o q, HasPart s known g p o q ∧ Lies s known g q (x + o) e := by
  obtain ⟨at', c⟩ := e
  constructor
  · rintro ⟨o, inside, same⟩
    rcases hasEmpty_iff.mp inside with ⟨rfl, rfl, empty⟩ | ⟨first, q, second, part, below, rfl⟩
    · exact .inl ⟨empty, by simpa using same⟩
    · exact .inr ⟨first, q, part, second, below, by rw [Nat.add_assoc]; exact same⟩
  · rintro (⟨empty, same⟩ | ⟨o, q, part, o', below, same⟩)
    · cases same
      exact ⟨0, hasEmpty_iff.mpr (.inl ⟨rfl, rfl, empty⟩), rfl⟩
    · refine ⟨o + o', hasEmpty_iff.mpr (.inr ⟨o, q, o', part, below, rfl⟩), ?_⟩
      rw [← Nat.add_assoc]
      exact same

theorem Lies.le (h : Lies s known g p x e) : x ≤ e.1 := by
  obtain ⟨o, _, same⟩ := h
  rw [same]
  exact Nat.le_add_right x o

/-- The highest offset is that of something recorded, if there is anything. -/
def EmptyMap.Attained (map : EmptyMap) : Prop :=
  map.highest = 0 ∨ ∃ e ∈ map.placed, e.1 = map.highest

/-- A map after the recording of `new`, of which nothing is left out if the recording is `exempt`
from pruning. -/
structure Recorded (exempt : Bool) (map map' : EmptyMap) (new : Nat × RecordId → Prop) : Prop where
  tracking : map'.tracking = map.tracking
  largest : map'.largest = map.largest
  old : ∀ e ∈ map.placed, e ∈ map'.placed
  mem : ∀ e ∈ map'.placed, e ∈ map.placed ∨ new e
  kept : ∀ e, new e → exempt = true ∨ map.isBeyond e.1 = false → e ∈ map'.placed
  bounded : map.Bounded → map'.Bounded
  attained : map.Attained → map'.Attained

namespace Recorded

theorem counts (h : Recorded exempt map map' new) (before : map.Counts allowed) :
    map'.Counts allowed :=
  before.imp_right h.tracking.trans

theorem refl (map : EmptyMap) : Recorded exempt map map fun _ => False :=
  ⟨rfl, rfl, fun _ => id, fun _ => .inl, fun _ none => none.elim, id, id⟩

theorem isBeyond (h : Recorded exempt map map' new) (x : Nat) :
    map'.isBeyond x = map.isBeyond x := by
  unfold EmptyMap.isBeyond
  rw [h.tracking, h.largest]

theorem trans (h : Recorded exempt map map' new) (h' : Recorded exempt map' map'' new') :
    Recorded exempt map map'' fun e => new e ∨ new' e where
  tracking := h'.tracking.trans h.tracking
  largest := h'.largest.trans h.largest
  old e member := h'.old e (h.old e member)
  mem e member := by
    rcases h'.mem e member with member | here
    · exact (h.mem e member).imp_right .inl
    · exact .inr (.inr here)
  kept e here reached := by
    rcases here with first | second
    · exact h'.old e (h.kept e first reached)
    · exact h'.kept e second (reached.imp_right fun near => (h.isBeyond e.1).trans near)
  bounded before := h'.bounded (h.bounded before)
  attained before := h'.attained (h.attained before)

theorem congr (h : Recorded exempt map map' new) (same : ∀ e, new e ↔ new' e) :
    Recorded exempt map map' new' := by
  have eq : new = new' := funext fun e => propext (same e)
  exact eq ▸ h

/-- Where nothing counts as recorded at or past a distant offset, nothing needs to be. -/
theorem of_beyond (beyond : map.isBeyond x = true) (far : ∀ e, new e → x ≤ e.1) :
    Recorded false map map new where
  tracking := rfl
  largest := rfl
  old _ := id
  mem _ := .inl
  kept e here reached := by
    have near := reached.resolve_left Bool.false_ne_true
    have le := far e here
    simp only [EmptyMap.isBeyond, Bool.and_eq_true, decide_eq_true_eq] at beyond near
    simp only [beyond.1, Bool.true_and, decide_eq_false_iff_not] at near
    exact absurd (beyond.2.trans le) near
  bounded := id
  attained := id

theorem record (map : EmptyMap) (r : RecordId) (x : Nat) :
    Recorded exempt map (map.record s r x)
      fun e => s.tree.isEmptyClass r = true ∧ e = (x, r) := by
  unfold EmptyMap.record
  split
  · rename_i skip
    refine ⟨rfl, rfl, fun _ => id, fun _ => .inl, ?_, id, id⟩
    rintro e ⟨empty, rfl⟩ _
    simpa [empty] using skip
  · rename_i new
    simp only [Bool.or_eq_true, Bool.not_eq_true', not_or, Bool.not_eq_false] at new
    refine ⟨rfl, rfl, fun e member => List.mem_append_left _ member, fun e member => ?_, ?_, ?_, ?_⟩
    · exact (List.mem_append.mp member).imp_right fun here => ⟨new.1, List.mem_singleton.mp here⟩
    · rintro e ⟨_, rfl⟩ _
      exact List.mem_append_right _ (List.mem_singleton.mpr rfl)
    · intro bounded e member
      rcases List.mem_append.mp member with old | here
      · exact (bounded e old).trans (Nat.le_max_left _ _)
      · rw [List.mem_singleton.mp here]
        exact Nat.le_max_right _ _
    · intro attained
      rcases Nat.le_total x map.highest with below | above
      · have same : max map.highest x = map.highest := Nat.max_eq_left below
        refine attained.imp same.trans fun ⟨e, member, at'⟩ => ?_
        exact ⟨e, List.mem_append_left _ member, at'.trans same.symm⟩
      · exact .inr ⟨(x, r), by simp, (Nat.max_eq_right above).symm⟩

end Recorded

theorem foldlM_recorded {xs : List α} {step : EmptyMap → α → Checked EmptyMap}
    {new : α → Nat × RecordId → Prop}
    (each : ∀ a ∈ xs, ∀ map, map.tracking = tracking →
      Ends allowed (step map a) fun map' => Recorded exempt map map' (new a))
    (map : EmptyMap) (kind : map.tracking = tracking) :
    Ends allowed (xs.foldlM step map) fun map' =>
      Recorded exempt map map' fun e => ∃ a ∈ xs, new a e := by
  refine (Ends.foldlM (K := fun done _ map' => Recorded exempt map map'
    fun e => ∃ a ∈ done, new a e) ((Recorded.refl map).congr fun e => by simp) ?_).imp
    fun map' h => h
  intro done a rest map' split sofar
  refine (each a (by simp [split]) map' (sofar.tracking.trans kind)).imp fun map'' next => ?_
  refine (sofar.trans next).congr fun e => ?_
  simp only [List.mem_append, List.mem_singleton, or_and_right, exists_or, exists_eq_left]

section Arrays

theorem recordElements_ends {update : Nat → EmptyMap → LayoutM EmptyMap} {size : Nat}
    (count start : Nat)
    (each : ∀ k, start ≤ k → k < start + count → ∀ map, map.tracking = tracking →
      Ends allowed ((update (x + k * size) map).eval known) fun map' =>
        Recorded false map map' (Lies s known g p (x + k * size)))
    (room : allowed .overflow ∨ ∀ k, start ≤ k → k < start + count →
      x + (k + 1) * size < Quantity.limit)
    (map : EmptyMap) (kind : map.tracking = tracking) :
    Ends allowed ((recordElements update size count (x + start * size) map).eval known) fun map' =>
      Recorded false map map' fun e =>
        ∃ k, start ≤ k ∧ k < start + count ∧ Lies s known g p (x + k * size) e := by
  induction count generalizing start map with
  | zero =>
    refine (Recorded.refl map).congr fun e => ⟨False.elim, fun ⟨k, low, high, _⟩ => ?_⟩
    omega
  | succ count ih =>
    unfold recordElements
    split
    · rename_i beyond
      refine Recorded.of_beyond beyond fun e ⟨k, low, _, here⟩ => ?_
      exact (Nat.add_le_add_left (Nat.mul_le_mul_right size low) x).trans here.le
    have inRange : start < start + (count + 1) := by omega
    refine ends_bind (each start le_rfl inRange map kind) fun map' first => ?_
    have room' := room.imp_right fun fits => fits start le_rfl inRange
    refine LayoutM.ends_lift_bind (nextElement_ends room') ?_
    · rintro _ rfl
      refine (ih (start + 1) (fun k low high => each k (by omega) (by omega))
        (room.imp_right fun fits k low high => fits k (by omega) (by omega)) map'
        (first.tracking.trans kind)).imp
        fun map'' rest => ?_
      refine (first.trans rest).congr fun e => ?_
      constructor
      · rintro (here | ⟨k, low, high, here⟩)
        · exact ⟨start, le_rfl, inRange, here⟩
        · exact ⟨k, by omega, by omega, here⟩
      · rintro ⟨k, low, high, here⟩
        by_cases same : k = start
        · exact .inl (same ▸ here)
        · exact .inr ⟨k, by omega, by omega, here⟩

/-- Recording a field records all the records in it. -/
theorem recordFieldType_ends {update : RecordId → Nat → EmptyMap → LayoutM EmptyMap}
    (each : ∀ k m, type.Contains k m → ∀ map, map.tracking = tracking →
      Ends allowed ((update m (x + k * known.size m) map).eval known) fun map' =>
        Recorded false map map' (Lies s known g (.inner m true) (x + k * known.size m)))
    (held : ∀ m, type.constantArrayRecord? = some m → ∃ layout, known.record m = .ok layout)
    (room : allowed .overflow ∨ type.Traversable known tracking x)
    (map : EmptyMap) (kind : map.tracking = tracking) :
    Ends allowed ((recordFieldType update type x map).eval known) fun map' =>
      Recorded false map map' fun e => ∃ k m, type.Contains k m ∧
        Lies s known g (.inner m true) (x + k * known.size m) e := by
  unfold recordFieldType
  cases names : type.asRecord? with
  | some m =>
    have only := Ty.contains_iff_of_asRecord? names
    have here := each 0 m ((only 0 m).mpr ⟨rfl, rfl⟩) map kind
    rw [Nat.zero_mul, Nat.add_zero] at here
    refine here.imp fun map' recorded => recorded.congr fun e => ⟨fun lies => ?_, ?_⟩
    · exact ⟨0, m, (only 0 m).mpr ⟨rfl, rfl⟩, by simpa using lies⟩
    · rintro ⟨k, m', contains, lies⟩
      obtain ⟨rfl, rfl⟩ := (only k m').mp contains
      simpa using lies
  | none =>
    refine LayoutM.ends_lift_bind (arrayOfRecords_ends names (room.imp_right (kind ▸ ·.count))) ?_
    rintro _ rfl
    cases record : type.constantArrayRecord? with
    | none =>
      refine (Recorded.refl map).congr fun e => ⟨False.elim, ?_⟩
      rintro ⟨k, m, contains, _⟩
      rw [Ty.Contains, record] at contains
      cases contains.1
    | some m =>
      obtain ⟨layout, laid⟩ := held m record
      have contains : ∀ k, type.Contains k m ↔ k < type.constantLengths.prod := by
        simp [Ty.Contains, record]
      simp only [Option.map_some]
      rw [LayoutM.eval_layoutOf_bind laid, ← Known.size_eq laid]
      have elements := recordElements_ends (s := s) (g := g) (p := .inner m true)
        type.constantLengths.prod 0
        (fun k _ high => each k m ((contains k).mpr (by omega)))
        (room.imp_right fun fits k _ high => fits.element names k m ((contains k).mpr (by omega)))
        map kind
      rw [Nat.zero_mul, Nat.add_zero] at elements
      refine elements.imp fun map' recorded => recorded.congr fun e => ⟨?_, ?_⟩
      · rintro ⟨k, _, high, lies⟩
        exact ⟨k, m, (contains k).mpr (by omega), lies⟩
      · rintro ⟨k, m', inside, lies⟩
        have same : m = m' := Option.some.inj (record.symm.trans inside.1)
        subst same
        exact ⟨k, Nat.zero_le k, by have := (contains k).mp inside; omega, lies⟩

theorem recordFieldType_congr {update update' : RecordId → Nat → EmptyMap → LayoutM EmptyMap}
    (same : ∀ m, type.constantArrayRecord? = some m → update m = update' m) :
    recordFieldType update type = recordFieldType update' type := by
  funext x map
  unfold recordFieldType
  cases names : type.asRecord? with
  | some m => simp only [same m (Ty.asRecord?_eq_some.mp names).1]
  | none =>
    refine arrayOfRecords_congr rfl fun m count record => ?_
    simp only [same m record]

end Arrays

/-- The common part of recording base subobjects and what lies inside fields. -/
def recordInto (s : Setting) (exempt : Bool) (r : RecordId) (x : Nat) (bases : List α)
    (intoBase : RecordLayout → EmptyMap → α → LayoutM EmptyMap) (others : List β)
    (intoOther : RecordLayout → EmptyMap → β → LayoutM EmptyMap)
    (intoField : EmptyMap → Ty × Checked Bytes → LayoutM EmptyMap) (map : EmptyMap) :
    LayoutM EmptyMap := do
  if !exempt && map.isBeyond x then return map
  let map := map.record s r x
  let layout ← layoutOf r
  let map ← bases.foldlM (intoBase layout) map
  let map ← others.foldlM (intoOther layout) map
  (storedFields s r layout).foldlM intoField map

section RecordInto

variable {α β : Type} {bases : List α} {others : List β}
variable {intoBase intoBase' : RecordLayout → EmptyMap → α → LayoutM EmptyMap}
variable {intoOther intoOther' : RecordLayout → EmptyMap → β → LayoutM EmptyMap}
variable {intoField intoField' : EmptyMap → Ty × Checked Bytes → LayoutM EmptyMap}

theorem recordInto_congr (exempt : Bool)
    (sameBase : ∀ layout, ∀ a ∈ bases, ∀ map, intoBase layout map a = intoBase' layout map a)
    (sameOther : ∀ layout, ∀ a ∈ others, ∀ map, intoOther layout map a = intoOther' layout map a)
    (sameField : ∀ layout, ∀ a ∈ storedFields s r layout, ∀ map, intoField map a = intoField' map a) :
    recordInto s exempt r x bases intoBase others intoOther intoField =
      recordInto s exempt r x bases intoBase' others intoOther' intoField' := by
  funext map
  unfold recordInto
  have first := fun layout => foldlM_congr (sameBase layout)
  have second := fun layout => foldlM_congr (sameOther layout)
  have third := fun layout => foldlM_congr (sameField layout)
  simp only [first, second, third]

theorem recordInto_ends {layout : RecordLayout} (laid : known.record (p.record g) = .ok layout)
    {newBase : α → Nat × RecordId → Prop} {newOther : β → Nat × RecordId → Prop}
    {newField : Ty × Checked Bytes → Nat × RecordId → Prop}
    (eachBase : ∀ a ∈ bases, ∀ map, map.tracking = tracking →
      Ends allowed ((intoBase layout map a).eval known)
        fun map' => Recorded exempt map map' (newBase a))
    (eachOther : ∀ a ∈ others, ∀ map, map.tracking = tracking →
      Ends allowed ((intoOther layout map a).eval known)
        fun map' => Recorded exempt map map' (newOther a))
    (eachField : ∀ a ∈ storedFields s (p.record g) layout, ∀ map, map.tracking = tracking →
      Ends allowed ((intoField map a).eval known) fun map' => Recorded exempt map map' (newField a))
    (parts : ∀ e, (∃ o q, HasPart s known g p o q ∧ Lies s known g q (x + o) e) ↔
      (∃ a ∈ bases, newBase a e) ∨ (∃ a ∈ others, newOther a e) ∨
        ∃ a ∈ storedFields s (p.record g) layout, newField a e)
    (map : EmptyMap) (kind : map.tracking = tracking) :
    Ends allowed ((recordInto s exempt (p.record g) x bases intoBase others intoOther intoField
      map).eval known) fun map' => Recorded exempt map map' (Lies s known g p x) := by
  unfold recordInto
  split
  · rename_i skipped
    simp only [Bool.and_eq_true, Bool.not_eq_true'] at skipped
    rw [skipped.1]
    exact Recorded.of_beyond skipped.2 fun e lies => lies.le
  rw [LayoutM.eval_layoutOf_bind laid]
  have zeroth : Recorded exempt map _ _ := Recorded.record (s := s) map (p.record g) x
  refine ends_bind (by
    rw [LayoutM.eval_foldlM]
    exact foldlM_recorded eachBase _ (zeroth.tracking.trans kind)) fun map₁ first => ?_
  have sofar := zeroth.trans first
  refine ends_bind (by
    rw [LayoutM.eval_foldlM]
    exact foldlM_recorded eachOther _ (sofar.tracking.trans kind)) fun map₂ second => ?_
  have sofar := sofar.trans second
  rw [LayoutM.eval_foldlM]
  refine (foldlM_recorded eachField _ (sofar.tracking.trans kind)).imp fun map₃ third => ?_
  refine (sofar.trans third).congr fun e => ?_
  rw [lies_iff, parts]
  simp only [or_assoc]

end RecordInto

/-- The offset of a part, then the recording of the part. -/
theorem part_recorded {o : Nat} (part : HasPart s known g p o q)
    (room : allowed .overflow ∨ Addressable s known g tracking p x) {inner : Checked Bytes}
    (at' : inner = .ok o) (into : Nat → LayoutM EmptyMap) {map : EmptyMap}
    (each : allowed .overflow ∨ Addressable s known g tracking q (x + o) →
      Ends allowed ((into (x + o)).eval known)
        fun map' => Recorded exempt map map' (Lies s known g q (x + o))) :
    Ends allowed (((liftM (within x inner) : LayoutM Bytes) >>= into).eval known)
      fun map' => Recorded exempt map map' (Lies s known g q (x + o)) := by
  refine LayoutM.ends_lift_bind (within_ends at' (room.imp_right (·.sum part)).symm) ?_
  rintro _ rfl
  exact each (room.imp_right (·.part part))

/-- What the fields of a place add. -/
def FieldLies (s : Setting) (known : Known) (g : SubobjectGraph) (x : Nat)
    (entry : Ty × Checked Bytes) (e : Nat × RecordId) : Prop :=
  ∃ o : Nat, entry.2 = .ok o ∧ ∃ k m, entry.1.Contains k m ∧
    Lies s known g (.inner m true) (x + (o + k * known.size m)) e

theorem storedField_recorded (h : Legible s known (p.record g)) {layout : RecordLayout}
    (laid : known.record (p.record g) = .ok layout)
    {update : RecordId → Nat → EmptyMap → LayoutM EmptyMap}
    (each : ∀ m, s.Holds (p.record g) m → ∀ y,
      allowed .overflow ∨ Addressable s known g tracking (.inner m true) y → ∀ map,
      map.tracking = tracking → Ends allowed ((update m y map).eval known) fun map' =>
        Recorded false map map' (Lies s known g (.inner m true) y))
    (room : allowed .overflow ∨ Addressable s known g tracking p x) {entry : Ty × Checked Bytes}
    (member : entry ∈ storedFields s (p.record g) layout)
    (map : EmptyMap) (kind : map.tracking = tracking) :
    Ends allowed (((liftM (within x entry.2) : LayoutM Bytes) >>=
      fun y => recordFieldType update entry.1 y map).eval known) fun map' =>
      Recorded false map map' (FieldLies s known g x entry) := by
  obtain ⟨index, field, found, stored, rfl⟩ := mem_storedFields.mp member
  obtain ⟨offset, at', same⟩ := storedField_offset h.here laid found
  have inFields : field ∈ (s.tree.record (p.record g)).fields := List.mem_of_getElem? found
  have fit := room.imp_right fun addressable => addressable.field found stored at'
  refine LayoutM.ends_lift_bind (within_ends same (fit.imp_right And.left).symm) ?_
  rintro _ rfl
  refine (recordFieldType_ends (s := s) (g := g) (fun k m contains map kind => ?_) (fun m names => ?_)
    (fit.imp_right And.right) map kind).imp fun map' recorded => recorded.congr fun e => ?_
  · rw [Nat.add_assoc]
    exact each m (contains.holds inFields) _
      (room.imp_right (·.part (.field found stored at' contains))) map kind
  · have holds := Setting.Holds.of_field inFields (Ty.baseElement_of_constantArrayRecord? names)
    exact (h.lower (.single holds)).here.laid.imp fun _ => And.left
  · simp only [FieldLies, same, Except.ok.injEq, exists_eq_left', Nat.add_assoc]

section RecordWhole

theorem recordWhole_eq (grounded : Grounded s.Holds r) (isComplete : Bool) (x : Nat) :
    recordWhole s r isComplete x = recordInto s false r x
      (s.tree.record r).nonVirtualBases
      (fun layout map base => (liftM (within x (layout.baseOffset base.record)) : LayoutM Bytes) >>=
        fun y => recordWhole s base.record false y map)
      (if isComplete then s.tree.virtualBases r else [])
      (fun layout map v => (liftM (within x (layout.virtualBaseOffset v)) : LayoutM Bytes) >>=
        fun y => recordWhole s v false y map)
      (fun map entry => (liftM (within x entry.2) : LayoutM Bytes) >>=
        fun y => recordFieldType (recordWhole s · true) entry.1 y map) := by
  unfold recordWhole
  rw [s.tree.descend_eq (fun _ _ => Setting.Holds.declared_of_transGen) ?looks grounded.transGen]
  · rfl
  intro f h r same
  funext isComplete x
  refine recordInto_congr false (fun layout base member map => ?_)
    (fun layout v member map => ?_) fun layout entry member map => ?_
  · rw [same _ (.single (Tree.Inherits.holds ⟨base, (List.mem_filter.mp member).1, rfl⟩))]
  · cases isComplete with
    | true => rw [same v (SoundBelow.inherits (Tree.HasVirtualBase.of_mem member).below)]
    | false => cases member
  · obtain ⟨index, field, found, _, rfl⟩ := mem_storedFields.mp member
    refine congrArg _ (funext fun y => congrFun (congrFun (recordFieldType_congr fun m names => ?_) y) map)
    rw [same m (.single (.of_field (List.mem_of_getElem? found)
      (Ty.baseElement_of_constantArrayRecord? names)))]

theorem exists_hasPart_inner {layout : RecordLayout} {isComplete : Bool} (located : Located s known r)
    (laid : known.record r = .ok layout) :
    (∃ o q, HasPart s known g (.inner r isComplete) o q ∧ Lies s known g q (x + o) e) ↔
      (∃ base ∈ (s.tree.record r).nonVirtualBases, ∃ o, known.baseOffset? r base.record = some o ∧
        Lies s known g (.inner base.record false) (x + o) e) ∨
      (∃ v ∈ (if isComplete then s.tree.virtualBases r else []), ∃ o,
        known.virtualBaseOffset? r v = some o ∧ Lies s known g (.inner v false) (x + o) e) ∨
      ∃ entry ∈ storedFields s r layout, FieldLies s known g x entry e := by
  have none := hasPart_inner (g := g) isComplete located laid fun o q => ¬ Lies s known g q (x + o) e
  rw [← not_iff_not]
  simp only [FieldLies, not_or, not_exists, not_and] at none ⊢
  exact none

theorem recordWhole_ends (h : Legible s known r) {isComplete : Bool}
    (room : allowed .overflow ∨ Addressable s known g tracking (.inner r isComplete) x)
    (map : EmptyMap) (kind : map.tracking = tracking) :
    Ends allowed ((recordWhole s r isComplete x map).eval known) fun map' =>
      Recorded false map map' (Lies s known g (.inner r isComplete) x) := by
  have grounded := h.grounded.transGen
  induction grounded generalizing isComplete x map with
  | intro r _ ih =>
  have ih : ∀ m, Relation.TransGen s.Holds r m → ∀ isComplete x,
      allowed .overflow ∨ Addressable s known g tracking (.inner m isComplete) x →
      ∀ map, map.tracking = tracking →
      Ends allowed ((recordWhole s m isComplete x map).eval known) fun map' =>
        Recorded false map map' (Lies s known g (.inner m isComplete) x) :=
    fun m path isComplete x room map kind => ih m path (h.lower path) room map kind
  obtain ⟨layout, laid, _⟩ := h.here.laid
  rw [recordWhole_eq h.grounded]
  refine recordInto_ends (p := .inner r isComplete) laid (fun base member map kind => ?_)
    (fun v member map kind => ?_) (fun entry member map kind => ?_)
    (fun e => exists_hasPart_inner h.here laid) map kind
  · obtain ⟨o, at'⟩ := Option.isSome_iff_exists.mp
      (h.here.bases base.record ⟨base, member, rfl⟩)
    have path : Relation.TransGen s.Holds r base.record :=
      .single (Tree.Inherits.holds ⟨base, (List.mem_filter.mp member).1, rfl⟩)
    refine (part_recorded (p := .inner r isComplete) (.innerBase member at') room
      (Known.baseOffset_eq laid at') (fun y => recordWhole s base.record false y map)
      fun room => ih _ path _ _ room map kind).imp fun map' recorded => recorded.congr fun e => ?_
    rw [at']
    exact ⟨fun lies => ⟨o, rfl, lies⟩, fun ⟨_, same, lies⟩ => Option.some.inj same ▸ lies⟩
  · cases isComplete with
    | false => cases member
    | true =>
      have has := Tree.HasVirtualBase.of_mem member
      obtain ⟨o, at'⟩ := Option.isSome_iff_exists.mp (h.here.virtualBases v has)
      refine (part_recorded (p := .inner r true) (.virtualBase member at') room
        (Known.virtualBaseOffset_eq laid at') (fun y => recordWhole s v false y map)
        fun room => ih _ (SoundBelow.inherits has.below) _ _ room map kind).imp
        fun map' recorded => recorded.congr fun e => ?_
      rw [at']
      exact ⟨fun lies => ⟨o, rfl, lies⟩, fun ⟨_, same, lies⟩ => Option.some.inj same ▸ lies⟩
  · exact storedField_recorded (p := .inner r isComplete) h laid
      (fun m holds y room map kind => ih m (.single holds) true y room map kind) room member
      map kind

end RecordWhole

section RecordBase

variable {i : SubobjectId}

theorem recordBase_eq (grounded : Grounded g.Child i) (x : Nat) :
    recordBase s g exempt i x = recordInto s exempt (g.node i).record x
      (g.nonVirtualBasesOf i)
      (fun layout map j => (liftM (within x (layout.baseOffset (g.node j).record)) : LayoutM Bytes) >>=
        fun y => recordBase s g exempt j y map)
      (g.claimedPrimary? i).toList (fun _ map p => recordBase s g exempt p x map)
      (fun map entry => (liftM (within x entry.2) : LayoutM Bytes) >>=
        fun y => recordFieldType (recordWhole s · true) entry.1 y map) := by
  unfold recordBase
  rw [g.descend_eq (fun _ _ (child : g.Child _ _) => child.has_parent) ?looks grounded]
  · rfl
  intro f h i same
  funext x
  refine recordInto_congr exempt (fun layout j member map => ?_) (fun layout p member map => ?_)
    fun layout entry member map => rfl
  · rw [same j (.inl member)]
  · rw [same p (.inr (Option.mem_toList.mp member))]

theorem exists_hasPart_base {layout : RecordLayout} (located : Located s known (g.node i).record)
    (laid : known.record (g.node i).record = .ok layout) :
    (∃ o q, HasPart s known g (.base i) o q ∧ Lies s known g q (x + o) e) ↔
      (∃ j ∈ g.nonVirtualBasesOf i, ∃ o,
        known.baseOffset? (g.node i).record (g.node j).record = some o ∧
          Lies s known g (.base j) (x + o) e) ∨
      (∃ p ∈ (g.claimedPrimary? i).toList, Lies s known g (.base p) x e) ∨
      ∃ entry ∈ storedFields s (g.node i).record layout, FieldLies s known g x entry e := by
  have none := hasPart_base located laid fun o q => ¬ Lies s known g q (x + o) e
  rw [← not_iff_not]
  simp only [FieldLies, not_or, not_exists, not_and, Nat.add_zero] at none ⊢
  exact none

/-- An empty class holds nothing but empty non-virtual bases. -/
theorem storedFields_of_isEmptyClass (acyclic : s.tree.Acyclic r)
    (empty : s.tree.isEmptyClass r = true) (layout : RecordLayout) : storedFields s r layout = [] := by
  refine List.eq_nil_iff_forall_not_mem.mpr fun entry member => ?_
  obtain ⟨index, field, found, stored, _⟩ := mem_storedFields.mp member
  rw [Tree.isEmptyClass_bitWidth acyclic empty (List.mem_of_getElem? found)] at stored
  cases stored

theorem claimedPrimary?_of_isEmptyClass (claims : g.ClaimsPrimaries known)
    (h : Legible s known (g.node i).record)
    (empty : s.tree.isEmptyClass (g.node i).record = true) : g.claimedPrimary? i = none := by
  by_contra some
  obtain ⟨p, claimed⟩ := Option.ne_none_iff_exists'.mp some
  have has := h.here.primary _ (claims i p claimed)
  have dynamic := Tree.isDynamic_of_hasVirtualBase h.acyclic has
  rw [Tree.not_isDynamic_of_isEmptyClass h.acyclic empty] at dynamic
  cases dynamic

theorem recordBase_ends (claims : g.ClaimsPrimaries known) (grounded : Grounded g.Child i)
    (legible : ∀ j, Relation.ReflTransGen g.Child i j → Legible s known (g.node j).record)
    (edges : ∀ k j, Relation.ReflTransGen g.Child i k → j ∈ g.nonVirtualBasesOf k →
      s.tree.InheritsPlainly (g.node k).record (g.node j).record)
    (empty : exempt = true → s.tree.isEmptyClass (g.node i).record = true)
    (room : allowed .overflow ∨ Addressable s known g tracking (.base i) x) (map : EmptyMap)
    (kind : map.tracking = tracking) :
    Ends allowed ((recordBase s g exempt i x map).eval known) fun map' =>
      Recorded exempt map map' (Lies s known g (.base i) x) := by
  induction grounded generalizing x map with
  | intro i lower ih =>
  have grounded : Grounded g.Child i := .intro lower
  have ih : ∀ j, g.Child i j → (exempt = true → s.tree.isEmptyClass (g.node j).record = true) →
      ∀ x, allowed .overflow ∨ Addressable s known g tracking (.base j) x →
      ∀ map, map.tracking = tracking →
      Ends allowed ((recordBase s g exempt j x map).eval known) fun map' =>
        Recorded exempt map map' (Lies s known g (.base j) x) :=
    fun j child empty x room map => ih j child (fun k path => legible k (path.head child))
      (fun k l path => edges k l (path.head child)) empty room map
  have h := legible i .refl
  obtain ⟨layout, laid, _⟩ := h.here.laid
  rw [recordBase_eq grounded]
  refine recordInto_ends (p := .base i) laid (fun j member map kind => ?_)
    (fun p member map kind => ?_) (fun entry member map kind => ?_)
    (fun e => exists_hasPart_base h.here laid) map kind
  · obtain ⟨base, inside, same⟩ := edges i j .refl member
    obtain ⟨o, at'⟩ := Option.isSome_iff_exists.mp
      (h.here.bases (g.node j).record (edges i j .refl member))
    refine (part_recorded (p := .base i) (.base member at') room
      (Known.baseOffset_eq laid at') (fun y => recordBase s g exempt j y map) fun room =>
        ih j (.inl member) (fun yes => ?_) _ room map kind).imp fun map' recorded => recorded.congr fun e => ?_
    · rw [← same]
      exact (Tree.isEmptyClass_base h.acyclic (empty yes) (List.mem_filter.mp inside).1).2
    · rw [at']
      exact ⟨fun lies => ⟨o, rfl, lies⟩, fun ⟨_, same, lies⟩ => Option.some.inj same ▸ lies⟩
  · have claimed := Option.mem_toList.mp member
    refine ih p (.inr claimed) (fun yes => ?_) x (room.imp_right fun addressable => by
      simpa using addressable.part (.claimed claimed)) map kind
    rw [claimedPrimary?_of_isEmptyClass claims h (empty yes)] at claimed
    cases claimed
  · cases exempt with
    | true =>
      have none := storedFields_of_isEmptyClass h.acyclic (empty rfl) layout
      exact absurd (none ▸ member : entry ∈ []) List.not_mem_nil
    | false =>
      exact storedField_recorded (p := .base i) h laid
        (fun m holds y room map kind => recordWhole_ends (h.lower (.single holds)) room map kind)
        room member map kind

end RecordBase

/-- Whatever is looked up inside a base subobject is there. -/
structure BaseLegible (s : Setting) (known : Known) (g : SubobjectGraph) (i : SubobjectId) :
    Prop where
  claims : g.ClaimsPrimaries known
  grounded : Grounded g.Child i
  below : ∀ j, Relation.ReflTransGen g.Child i j → Legible s known (g.node j).record
  edges : ∀ k j, Relation.ReflTransGen g.Child i k → j ∈ g.nonVirtualBasesOf k →
    s.tree.InheritsPlainly (g.node k).record (g.node j).record

/-- A base subobject is placed if it is free to lie at the offset, and everything inside it is
recorded then. A map that has nothing to record places everything. -/
theorem placeBase?_answers (bounded : map.Bounded) {i : SubobjectId} (h : BaseLegible s known g i)
    (room : allowed .overflow ∨ Addressable s known g map.tracking (.base i) x) :
    Ends allowed ((map.placeBase? s g i x).eval known) fun
      | none => ¬ map.Free s known g (.base i) x
      | some map' => (map.isIdle = true ∧ map' = map) ∨ (map.Free s known g (.base i) x ∧
          Recorded (s.tree.isEmptyClass (g.node i).record) map map' (Lies s known g (.base i) x)) := by
  unfold EmptyMap.placeBase?
  split
  · rename_i idle
    exact .inl ⟨idle, rfl⟩
  refine ends_bind (baseFits_ends bounded h.grounded h.below h.edges room) fun fits free => ?_
  cases fits with
  | false => exact fun yes => Bool.false_ne_true (free.mpr yes)
  | true =>
    refine ends_bind (recordBase_ends h.claims h.grounded h.below h.edges id room map rfl)
      fun map' recorded => ?_
    exact .inr ⟨free.mp rfl, recorded⟩

/-- All records in a field of this type are free to lie where they would. -/
def FieldTypeFree (map : EmptyMap) (s : Setting) (known : Known) (type : Ty) (x : Nat) : Prop :=
  ∀ k m, type.Contains k m → map.Free s known {} (.inner m true) (x + k * known.size m)

def FieldTypeLies (s : Setting) (known : Known) (type : Ty) (x : Nat) (e : Nat × RecordId) : Prop :=
  ∃ k m, type.Contains k m ∧ Lies s known {} (.inner m true) (x + k * known.size m) e

theorem claimsPrimaries_empty : ({} : SubobjectGraph).ClaimsPrimaries known := by
  intro i p claimed
  have := (SubobjectGraph.claimedPrimary?_eq_some.mp claimed).1
  rw [SubobjectGraph.node_missing (Nat.not_lt_zero _)] at this
  cases this

/-- Nothing that is worked out on the way through the records in a field is too large. -/
structure FieldTypeAddressable (s : Setting) (known : Known) (tracking : Tracking) (type : Ty)
    (x : Nat) : Prop where
  traversable : type.Traversable known tracking x
  inner : ∀ k m, type.Contains k m →
    Addressable s known {} tracking (.inner m true) (x + k * known.size m)

theorem placeField?_answers (bounded : map.Bounded)
    (legible : ∀ m, type.constantArrayRecord? = some m → Legible s known m)
    (room : allowed .overflow ∨ FieldTypeAddressable s known map.tracking type x) :
    Ends allowed ((map.placeField? s type x).eval known) fun
      | none => ¬ FieldTypeFree map s known type x
      | some map' => FieldTypeFree map s known type x ∧
          Recorded false map map' (FieldTypeLies s known type x) := by
  have held : ∀ m, type.constantArrayRecord? = some m → ∃ layout, known.record m = .ok layout :=
    fun m names => (legible m names).here.laid.imp fun _ h => h.1
  have inside {k m} (contains : type.Contains k m) := room.imp_right (·.inner k m contains)
  unfold EmptyMap.placeField?
  refine ends_bind (fieldTypeFits_ends (g := {}) bounded (fun k m contains =>
    recordFits_ends bounded (legible m contains.1) (inside contains)) held
    (room.imp_right (·.traversable))) fun fits free => ?_
  cases fits with
  | false => exact fun yes => Bool.false_ne_true (free.mpr yes)
  | true =>
    refine ends_bind (recordFieldType_ends (g := {}) (fun k m contains map =>
      recordWhole_ends (legible m contains.1) (inside contains) map) held
      (room.imp_right (·.traversable)) map rfl) fun map' recorded => ?_
    exact ⟨free.mp rfl, recorded⟩

section Sound

/-- Everything inside a base subobject can be looked into. -/
structure BaseExplorable (s : Setting) (known : Known) (g : SubobjectGraph) (i : SubobjectId) :
    Prop where
  claims : g.ClaimsPrimaries known
  grounded : Grounded g.Child i
  below : ∀ j, Relation.ReflTransGen g.Child i j → Explorable s known (g.node j).record
  edges : ∀ k j, Relation.ReflTransGen g.Child i k → j ∈ g.nonVirtualBasesOf k →
    s.tree.InheritsPlainly (g.node k).record (g.node j).record

theorem SubobjectGraph.Forest.baseExplorable {own : Option RecordId}
    (forest : g.Forest s known d own) (acyclic : s.tree.Acyclic d)
    (explorable : ∀ r, Relation.TransGen s.Holds d r → Explorable s known r)
    {i : SubobjectId} (has : g.Has i) : BaseExplorable s known g i := by
  have sound : SoundBelow s known d := fun r path => (explorable r path).sound
  exact {
    claims := forest.claimsPrimaries
    grounded := forest.grounded sound.primariesInherited acyclic i
    below := fun j path =>
      explorable _ (SoundBelow.inherits (forest.below j (forest.has_descendant has path)))
    edges := fun k j _ member => forest.plain_edge member }

namespace BaseExplorable

variable {i : SubobjectId}

theorem legible (h : BaseExplorable s known g i) : BaseLegible s known g i :=
  ⟨h.claims, h.grounded, fun j path => (h.below j path).legible, h.edges⟩

theorem addressable (h : BaseExplorable s known g i) (knows : s.Knows known)
    (proper : (Place.base i).IsProper s g)
    (fits : x + (Place.base i).extent s known g < Quantity.limit) :
    Addressable s known g .full (.base i) x := by
  obtain ⟨claims, grounded, below, edges⟩ := h
  induction grounded generalizing x with
  | intro i _ ih =>
  have here := below i .refl
  have child {j : SubobjectId} {y : Nat} (child : g.Child i j) (proper : (Place.base j).IsProper s g)
      (fits : y + (Place.base j).extent s known g < Quantity.limit) :
      Addressable s known g .full (.base j) y :=
    ih j child proper fits (fun k path => below k (path.head child))
      fun k l path => edges k l (path.head child)
  refine here.addressable_of_parts (p := .base i) knows claims proper fits ?_
  rintro o q part proper' fits'
  cases part with
  | base member => exact child (.inl member) proper' fits'
  | claimed claimed => exact child (.inr claimed) proper' fits'
  | field found _ _ contains =>
    have holds := contains.holds (List.mem_of_getElem? found)
    exact (here.lower (.single holds)).addressable knows claims proper' fits'

end BaseExplorable

/-- Where there is room for the whole place, nothing on the way through it is too large. -/
theorem Room.addressable {p : Place} (room : Room allowed s known g p x)
    (counts : map.Counts allowed)
    (enough : p.IsProper s g → x + p.extent s known g < Quantity.limit →
      Addressable s known g .full p x) :
    allowed .overflow ∨ Addressable s known g map.tracking p x := by
  rcases counts with overflow | full
  · exact .inl overflow
  · rw [full]
    exact room.imp_right fun ⟨proper, fits⟩ => enough proper fits

theorem placeBase?_ends (knows : s.Knows known) (bounded : map.Bounded)
    (counts : map.Counts allowed) {i : SubobjectId}
    (h : BaseExplorable s known g i) (room : Room allowed s known g (.base i) x) :
    Ends allowed ((map.placeBase? s g i x).eval known) fun
      | none => ¬ map.Free s known g (.base i) x
      | some map' => (map.isIdle = true ∧ map' = map) ∨ (map.Free s known g (.base i) x ∧
          Recorded (s.tree.isEmptyClass (g.node i).record) map map' (Lies s known g (.base i) x)) :=
  placeBase?_answers bounded h.legible (room.addressable counts (h.addressable knows))

theorem placeField?_ends (knows : s.Knows known) (bounded : map.Bounded)
    (counts : map.Counts allowed)
    (explorable : ∀ m, type.constantArrayRecord? = some m → Explorable s known m)
    (room : ∀ k m, type.Contains k m →
      x + (k + 1) * known.size m < Quantity.limit ∨ allowed .overflow) :
    Ends allowed ((map.placeField? s type x).eval known) fun
      | none => ¬ FieldTypeFree map s known type x
      | some map' => FieldTypeFree map s known type x ∧
          Recorded false map map' (FieldTypeLies s known type x) := by
  refine placeField?_answers bounded (fun m names => (explorable m names).legible) ?_
  rcases counts with overflow | full
  · exact .inl overflow
  by_cases overflow : allowed .overflow
  · exact .inl overflow
  have fits (k m) (contains : type.Contains k m) := (room k m contains).resolve_right overflow
  refine .inr ⟨⟨by simp [full], fun _ => fits⟩, fun k m contains => ?_⟩
  rw [full]
  refine (explorable m contains.1).addressable knows claimsPrimaries_empty trivial ?_
  have := fits k m contains
  rw [Nat.succ_mul] at this
  change x + k * known.size m + known.size m < _
  omega

end Sound

end ObjectLayout
