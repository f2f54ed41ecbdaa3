import ObjectLayout.Proofs.Subobject.Addressable

/-! What the questions to a map of empty subobjects mean. Whatever is skipped because it lies past the
highest recorded offset could not collide, so a subobject is free to lie at an offset exactly if none
of the empty subobjects inside it is recorded where it would come to lie. -/
namespace ObjectLayout

open LayoutM (ends_bind layoutOf)
open EmptyMap

variable {s : Setting} {known : Known} {allowed : Fault → Prop}
variable {g : SubobjectGraph} {map map' : EmptyMap} {p q : Place} {x y : Nat}
variable {d r m c : RecordId} {own : Option RecordId} {type : Ty}

namespace EmptyMap

/-- None of the empty subobjects of a place is recorded where it would lie. -/
def Free (map : EmptyMap) (s : Setting) (known : Known) (g : SubobjectGraph) (p : Place)
    (x : Nat) : Prop :=
  ∀ o c, HasEmpty s known g p o c → (x + o, c) ∉ map.placed

def Bounded (map : EmptyMap) : Prop := ∀ e ∈ map.placed, e.1 ≤ map.highest

theorem Bounded.free (bounded : map.Bounded) (past : map.highest < x) :
    map.Free s known g p x := by
  intro o c _ member
  have := bounded _ member
  simp only [Bytes] at this past
  omega

theorem Bounded.free_of_clear (bounded : map.Bounded) (clear : map.isClearFrom x = true)
    (le : x ≤ y) : map.Free s known g p y := by
  simp only [isClearFrom, Bool.and_eq_true, decide_eq_true_eq] at clear
  exact bounded.free (lt_of_lt_of_le clear.2 le)

theorem admits_iff : map.admits s r x = true ↔
    (s.tree.isEmptyClass r = true → (x, r) ∉ map.placed) := by
  unfold admits
  cases s.tree.isEmptyClass r <;> simp

/-- A place is free if the class itself and all its parts are. -/
theorem free_iff : map.Free s known g p x ↔ map.admits s (p.record g) x = true ∧
    ∀ o q, HasPart s known g p o q → map.Free s known g q (x + o) := by
  rw [admits_iff]
  constructor
  · intro free
    refine ⟨fun empty => ?_, fun o q part o' c inside => ?_⟩
    · simpa using free 0 _ (hasEmpty_iff.mpr (.inl ⟨rfl, rfl, empty⟩))
    · rw [Nat.add_assoc]
      exact free _ c (hasEmpty_iff.mpr (.inr ⟨o, q, o', part, inside, rfl⟩))
  · rintro ⟨here, parts⟩ o c inside
    rcases hasEmpty_iff.mp inside with ⟨rfl, rfl, empty⟩ | ⟨first, q, second, part, below, rfl⟩
    · exact here empty
    · rw [← Nat.add_assoc]
      exact parts first q part second c below

end EmptyMap

section Arrays

/-- A product of lengths is right unless it overflows on the way. -/
theorem mul_lengths_ends {lengths : List Nat}
    (room : allowed .overflow ∨ ∀ n, (lengths.take n).prod < Quantity.limit) :
    Ends allowed (lengths.foldlM Quantity.mul 1) (· = lengths.prod) := by
  refine Ends.foldlM (K := fun done _ product => product = done.prod) rfl ?_
  rintro done length rest _ split rfl
  unfold Quantity.mul Quantity.fit
  split
  · simp [Ends]
  · rename_i large
    refine room.resolve_right fun small => large ?_
    have first : lengths.take (done.length + 1) = done ++ [length] := by
      rw [split]
      simp [List.take_append]
    simpa [first] using small (done.length + 1)

/-- To count the elements of arrays is safe: it may overflow, or there is no bound. -/
def EmptyMap.Counts (allowed : Fault → Prop) (map : EmptyMap) : Prop :=
  allowed .overflow ∨ map.tracking = .full

theorem EmptyMap.count_ends
    (room : allowed .overflow ∨ (map.tracking = .pruned → ¬ type.Overcounts)) :
    Ends allowed (map.count type.constantLengths) (· = type.constantLengths.prod) := by
  unfold EmptyMap.count
  split
  · rename_i pruned
    refine mul_lengths_ends (room.imp_right fun counted n => ?_)
    exact Nat.lt_of_not_le fun large => counted pruned ⟨n, large⟩
  · exact List.prod_eq_foldl.symm

/-- How many records an array holds, where it is no record itself. -/
theorem arrayOfRecords_ends (noRecord : type.asRecord? = none)
    (room : allowed .overflow ∨ (map.tracking = .pruned → ¬ type.Overcounts)) :
    Ends allowed (map.arrayOfRecords type) fun found =>
      found = type.constantArrayRecord?.map (·, type.constantLengths.prod) := by
  unfold arrayOfRecords
  split
  · rename_i empty
    have none : type.constantArrayRecord? = none := by
      by_contra some
      obtain ⟨m, names⟩ := Option.ne_none_iff_exists'.mp some
      rw [Ty.asRecord?_eq_some.mpr ⟨names, empty⟩] at noRecord
      cases noRecord
    rw [none]
    rfl
  · refine (EmptyMap.count_ends room).bind ?_
    rintro _ rfl
    rfl

/-- The offset of the next element of an array. -/
theorem nextElement_ends {k size : Nat}
    (room : allowed .overflow ∨ x + (k + 1) * size < Quantity.limit) :
    Ends allowed (Quantity.add (x + k * size) size) (· = x + (k + 1) * size) := by
  have same : x + k * size + size = x + (k + 1) * size := by
    rw [Nat.succ_mul, Nat.add_assoc]
  unfold Quantity.add Quantity.fit
  rw [same]
  split
  · rfl
  · exact room.resolve_right ‹_›

theorem elementsFit_ends (bounded : map.Bounded) {fits : Nat → LayoutM Bool} {size : Nat}
    (count start : Nat)
    (each : ∀ k, start ≤ k → k < start + count → Ends allowed ((fits (x + k * size)).eval known)
      fun b => b = true ↔ map.Free s known g p (x + k * size))
    (room : allowed .overflow ∨ ∀ k, start ≤ k → k < start + count →
      x + (k + 1) * size < Quantity.limit) :
    Ends allowed ((elementsFit map fits size count (x + start * size)).eval known) fun b =>
      b = true ↔ ∀ k, start ≤ k → k < start + count → map.Free s known g p (x + k * size) := by
  induction count generalizing start with
  | zero => exact iff_of_true rfl fun k low high => absurd high (by omega)
  | succ count ih =>
    unfold elementsFit
    split
    · rename_i clear
      refine iff_of_true rfl fun k low _ => bounded.free_of_clear clear ?_
      exact Nat.add_le_add_left (Nat.mul_le_mul_right size low) x
    have inRange : start < start + (count + 1) := by omega
    refine ends_bind (each start le_rfl inRange) fun fits here => ?_
    cases fits with
    | false =>
      refine iff_of_false Bool.false_ne_true fun all => ?_
      exact Bool.false_ne_true (here.mpr (all start le_rfl inRange))
    | true =>
      have room' := room.imp_right fun fits => fits start le_rfl inRange
      refine LayoutM.ends_lift_bind (nextElement_ends room') ?_
      · rintro _ rfl
        refine (ih (start + 1) (fun k low high => each k (by omega) (by omega))
          (room.imp_right fun fits k low high => fits k (by omega) (by omega))).imp fun b rest => ?_
        rw [rest]
        constructor
        · intro all k low high
          by_cases first : k = start
          · exact first ▸ here.mp rfl
          · exact all k (by omega) (by omega)
        · exact fun all k low high => all k (by omega) (by omega)

/-- A field is free to lie at an offset if all the records in it are. -/
theorem fieldTypeFits_ends (bounded : map.Bounded) {fits : RecordId → Bytes → LayoutM Bool}
    (each : ∀ k m, type.Contains k m → Ends allowed ((fits m (x + k * known.size m)).eval known)
      fun b => b = true ↔ map.Free s known g (.inner m true) (x + k * known.size m))
    (held : ∀ m, type.constantArrayRecord? = some m → ∃ layout, known.record m = .ok layout)
    (room : allowed .overflow ∨ type.Traversable known map.tracking x) :
    Ends allowed ((map.fieldTypeFits fits type x).eval known) fun b =>
      b = true ↔ ∀ k m, type.Contains k m →
        map.Free s known g (.inner m true) (x + k * known.size m) := by
  unfold fieldTypeFits
  split
  · rename_i clear
    exact iff_of_true rfl fun k m _ => bounded.free_of_clear clear (Nat.le_add_right _ _)
  cases names : type.asRecord? with
  | some m =>
    have only := Ty.contains_iff_of_asRecord? names
    have here := each 0 m ((only 0 m).mpr ⟨rfl, rfl⟩)
    rw [Nat.zero_mul, Nat.add_zero] at here
    refine here.imp fun b free => free.trans ⟨?_, fun all => ?_⟩
    · intro free k m' contains
      obtain ⟨rfl, rfl⟩ := (only k m').mp contains
      simpa using free
    · simpa using all 0 m ((only 0 m).mpr ⟨rfl, rfl⟩)
  | none =>
    refine LayoutM.ends_lift_bind (arrayOfRecords_ends names (room.imp_right (·.count))) ?_
    rintro _ rfl
    cases record : type.constantArrayRecord? with
    | none =>
      refine iff_of_true rfl fun k m contains => ?_
      rw [Ty.Contains, record] at contains
      cases contains.1
    | some m =>
      obtain ⟨layout, laid⟩ := held m record
      have contains : ∀ k, type.Contains k m ↔ k < type.constantLengths.prod := by
        simp [Ty.Contains, record]
      simp only [Option.map_some]
      rw [LayoutM.eval_layoutOf_bind laid, ← Known.size_eq laid]
      have elements := elementsFit_ends (s := s) (g := g) (p := .inner m true) bounded
        type.constantLengths.prod 0
        (fun k _ high => each k m ((contains k).mpr (by omega)))
        (room.imp_right fun fits k _ high => fits.element names k m ((contains k).mpr (by omega)))
      rw [Nat.zero_mul, Nat.add_zero] at elements
      refine elements.imp fun b free => free.trans ⟨fun all k m' inside => ?_, fun all k _ high => ?_⟩
      · have same : m = m' := Option.some.inj (record.symm.trans inside.1)
        subst same
        exact all k (Nat.zero_le k) (by have := (contains k).mp inside; omega)
      · exact all k m ((contains k).mpr (by omega))

end Arrays

theorem allM_ends {xs : List α} {test : α → Checked Bool} {good : α → Prop}
    (each : ∀ a ∈ xs, Ends allowed (test a) fun b => b = true ↔ good a) :
    Ends allowed (xs.allM test) fun b => b = true ↔ ∀ a ∈ xs, good a := by
  induction xs with
  | nil => exact iff_of_true rfl nofun
  | cons a rest ih =>
    rw [List.allM]
    refine (each a List.mem_cons_self).bind fun b here => ?_
    cases b with
    | false =>
      exact iff_of_false Bool.false_ne_true fun all =>
        Bool.false_ne_true (here.mpr (all a List.mem_cons_self))
    | true =>
      refine (ih fun a member => each a (.tail _ member)).imp fun b there => ?_
      rw [there, List.forall_mem_cons, and_iff_right (here.mp rfl)]

theorem mem_storedFields {layout : RecordLayout} {entry : Ty × Checked Bytes} :
    entry ∈ storedFields s r layout ↔ ∃ index field, (s.tree.record r).fields[index]? = some field ∧
      field.bitWidth = none ∧
      entry = (field.type, (layout.fieldOffset index).map Bits.toBytesFloor) := by
  simp only [storedFields, List.mem_filterMap, Prod.exists, List.mk_mem_zipIdx_iff_getElem?]
  constructor
  · rintro ⟨field, index, found, same⟩
    cases width : field.bitWidth with
    | none =>
      simp only [Field.isBitField, width, Option.isSome_none, Bool.false_eq_true, if_false,
        Option.some.injEq] at same
      exact ⟨index, field, found, width, same.symm⟩
    | some bits => simp [Field.isBitField, width] at same
  · rintro ⟨index, field, found, width, same⟩
    exact ⟨field, index, found, by simp [Field.isBitField, width, same]⟩

/-- The common part of the questions about base subobjects and about what lies inside fields: the
class itself, its non-virtual bases, then other bases, then the fields. -/
def lookInto (s : Setting) (map : EmptyMap) (r : RecordId) (x : Nat) (bases : List α)
    (testBase : RecordLayout → α → LayoutM Bool) (others : List β)
    (testOther : RecordLayout → β → LayoutM Bool)
    (testField : Ty × Checked Bytes → LayoutM Bool) : LayoutM Bool := do
  if map.isClearFrom x then return true
  if !map.admits s r x then return false
  let layout ← layoutOf r
  if !(← bases.allM (testBase layout)) then return false
  if !(← others.allM (testOther layout)) then return false
  (storedFields s r layout).allM testField

section LookInto

variable {α β : Type} {bases : List α} {others : List β}
variable {testBase testBase' : RecordLayout → α → LayoutM Bool}
variable {testOther testOther' : RecordLayout → β → LayoutM Bool}
variable {testField testField' : Ty × Checked Bytes → LayoutM Bool}

theorem lookInto_congr
    (sameBase : ∀ layout, ∀ a ∈ bases, testBase layout a = testBase' layout a)
    (sameOther : ∀ layout, ∀ a ∈ others, testOther layout a = testOther' layout a)
    (sameField : ∀ layout, ∀ a ∈ storedFields s r layout, testField a = testField' a) :
    lookInto s map r x bases testBase others testOther testField =
      lookInto s map r x bases testBase' others testOther' testField' := by
  unfold lookInto
  have first := fun layout => allM_congr (sameBase layout)
  have second := fun layout => allM_congr (sameOther layout)
  have third := fun layout => allM_congr (sameField layout)
  simp only [first, second, third]

theorem lookInto_ends (bounded : map.Bounded) {layout : RecordLayout}
    (laid : known.record (p.record g) = .ok layout)
    {goodBase : α → Prop} {goodOther : β → Prop} {goodField : Ty × Checked Bytes → Prop}
    (eachBase : ∀ a ∈ bases, Ends allowed ((testBase layout a).eval known)
      fun b => b = true ↔ goodBase a)
    (eachOther : ∀ a ∈ others, Ends allowed ((testOther layout a).eval known)
      fun b => b = true ↔ goodOther a)
    (eachField : ∀ a ∈ storedFields s (p.record g) layout,
      Ends allowed ((testField a).eval known) fun b => b = true ↔ goodField a)
    (parts : (∀ o q, HasPart s known g p o q → map.Free s known g q (x + o)) ↔
      (∀ a ∈ bases, goodBase a) ∧ (∀ a ∈ others, goodOther a) ∧
        ∀ a ∈ storedFields s (p.record g) layout, goodField a) :
    Ends allowed ((lookInto s map (p.record g) x bases testBase others testOther testField).eval known)
      fun b => b = true ↔ map.Free s known g p x := by
  unfold lookInto
  split
  · rename_i clear
    exact iff_of_true rfl (bounded.free_of_clear clear le_rfl)
  rw [free_iff, parts]
  cases admits : map.admits s (p.record g) x with
  | false => exact iff_of_false Bool.false_ne_true fun free => Bool.false_ne_true free.1
  | true =>
    simp only [Bool.not_true, Bool.false_eq_true, if_false, true_and]
    rw [LayoutM.eval_layoutOf_bind laid]
    refine ends_bind (by rw [LayoutM.eval_allM]; exact allM_ends eachBase) fun b basesFit => ?_
    cases b with
    | false =>
      exact iff_of_false Bool.false_ne_true fun free => Bool.false_ne_true (basesFit.mpr free.1)
    | true =>
    refine ends_bind (by rw [LayoutM.eval_allM]; exact allM_ends eachOther) fun b othersFit => ?_
    cases b with
    | false =>
      exact iff_of_false Bool.false_ne_true fun free => Bool.false_ne_true (othersFit.mpr free.2.1)
    | true =>
    simp only [Bool.not_true, Bool.false_eq_true, if_false]
    rw [LayoutM.eval_allM]
    refine (allM_ends eachField).imp fun b fieldsFit => ?_
    rw [fieldsFit, and_iff_right (basesFit.mp rfl), and_iff_right (othersFit.mp rfl)]

end LookInto

theorem within_ends {inner : Checked Bytes} {o : Nat} (same : inner = .ok o)
    (room : x + o < Quantity.limit ∨ allowed .overflow) :
    Ends allowed (within x inner) (· = x + o) := by
  subst same
  change Ends allowed (Quantity.add x o) _
  unfold Quantity.add Quantity.fit
  split
  · rfl
  · rename_i overflow
    exact room.resolve_left overflow

/-- What the fields of a place have to do with the place being free. -/
def FieldFree (map : EmptyMap) (s : Setting) (known : Known) (g : SubobjectGraph) (x : Nat)
    (entry : Ty × Checked Bytes) : Prop :=
  ∀ o : Nat, entry.2 = .ok o → ∀ k m, entry.1.Contains k m →
    map.Free s known g (.inner m true) (x + (o + k * known.size m))

theorem storedField_offset (located : Located s known r) {layout : RecordLayout}
    (laid : known.record r = .ok layout) {index : Nat} {field : Field}
    (found : (s.tree.record r).fields[index]? = some field) :
    ∃ offset : Nat, known.fieldOffset? r index = some offset ∧
      (layout.fieldOffset index).map Bits.toBytesFloor = .ok (offset / 8) := by
  obtain ⟨layout', laid', _, length⟩ := located.laid
  rw [laid] at laid'
  cases laid'
  obtain ⟨bound, _⟩ := List.getElem?_eq_some_iff.mp found
  have here : layout.fieldOffsets[index]? = some layout.fieldOffsets[index] :=
    List.getElem?_eq_getElem (length ▸ bound)
  refine ⟨layout.fieldOffsets[index], (Known.fieldOffset?_eq laid index).trans here, ?_⟩
  simp only [RecordLayout.fieldOffset, here]
  rfl

theorem storedField_ends (bounded : map.Bounded) (h : Legible s known (p.record g))
    {layout : RecordLayout} (laid : known.record (p.record g) = .ok layout)
    {fits : RecordId → Bytes → LayoutM Bool}
    (each : ∀ m, s.Holds (p.record g) m → ∀ y,
      allowed .overflow ∨ Addressable s known g map.tracking (.inner m true) y →
      Ends allowed ((fits m y).eval known) fun b => b = true ↔ map.Free s known g (.inner m true) y)
    (room : allowed .overflow ∨ Addressable s known g map.tracking p x) {entry : Ty × Checked Bytes}
    (member : entry ∈ storedFields s (p.record g) layout) :
    Ends allowed (((liftM (within x entry.2) : LayoutM Bytes) >>=
      map.fieldTypeFits fits entry.1).eval known) fun b =>
      b = true ↔ FieldFree map s known g x entry := by
  obtain ⟨index, field, found, stored, rfl⟩ := mem_storedFields.mp member
  obtain ⟨offset, at', same⟩ := storedField_offset h.here laid found
  have inFields : field ∈ (s.tree.record (p.record g)).fields := List.mem_of_getElem? found
  have fit := room.imp_right fun addressable => addressable.field found stored at'
  refine LayoutM.ends_lift_bind (within_ends same (fit.imp_right And.left).symm) ?_
  rintro _ rfl
  refine (fieldTypeFits_ends (s := s) (g := g) bounded (fun k m contains => ?_) (fun m names => ?_)
    (fit.imp_right And.right)).imp fun b free => free.trans ?_
  · rw [Nat.add_assoc]
    exact each m (contains.holds inFields) _
      (room.imp_right (·.part (.field found stored at' contains)))
  · have holds := Setting.Holds.of_field inFields (Ty.baseElement_of_constantArrayRecord? names)
    exact (h.lower (.single holds)).here.laid.imp fun _ => And.left
  · constructor
    · rintro all o at'' k m contains
      rw [same] at at''
      cases at''
      rw [← Nat.add_assoc]
      exact all k m contains
    · intro all k m contains
      rw [Nat.add_assoc]
      exact all _ same k m contains

theorem hasPart_fields {layout : RecordLayout} (located : Located s known (p.record g))
    (laid : known.record (p.record g) = .ok layout) {good : Nat → Place → Prop} :
    (∀ entry ∈ storedFields s (p.record g) layout, ∀ o : Nat, entry.2 = .ok o → ∀ k m,
      entry.1.Contains k m → good (o + k * known.size m) (.inner m true)) ↔
    ∀ index field offset k m, (s.tree.record (p.record g)).fields[index]? = some field →
      field.bitWidth = none → known.fieldOffset? (p.record g) index = some offset →
      field.type.Contains k m → good (offset / 8 + k * known.size m) (.inner m true) := by
  constructor
  · intro all index field offset k m found stored at' contains
    obtain ⟨offset', at'', same⟩ := storedField_offset located laid found
    rw [at'] at at''
    cases at''
    exact all _ (mem_storedFields.mpr ⟨index, field, found, stored, rfl⟩) _ same k m contains
  · intro all entry member o at' k m contains
    obtain ⟨index, field, found, stored, rfl⟩ := mem_storedFields.mp member
    obtain ⟨offset, at'', same⟩ := storedField_offset located laid found
    rw [same] at at'
    cases at'
    exact all index field offset k m found stored at'' contains

theorem hasPart_inner {layout : RecordLayout} (isComplete : Bool) (located : Located s known r)
    (laid : known.record r = .ok layout) (good : Nat → Place → Prop) :
    (∀ o q, HasPart s known g (.inner r isComplete) o q → good o q) ↔
      (∀ base ∈ (s.tree.record r).nonVirtualBases, ∀ o, known.baseOffset? r base.record = some o →
        good o (.inner base.record false)) ∧
      (∀ v ∈ (if isComplete then s.tree.virtualBases r else []), ∀ o,
        known.virtualBaseOffset? r v = some o → good o (.inner v false)) ∧
      ∀ entry ∈ storedFields s r layout, ∀ o : Nat, entry.2 = .ok o → ∀ k m,
        entry.1.Contains k m → good (o + k * known.size m) (.inner m true) := by
  refine Iff.trans ?_ (and_congr_right' (and_congr_right'
    (hasPart_fields (g := g) (p := .inner r isComplete) located laid).symm))
  constructor
  · intro all
    refine ⟨fun base member o at' => all o _ (.innerBase member at'), fun v member o at' => ?_,
      fun index field offset k m found stored at' contains =>
        all _ _ (.field found stored at' contains)⟩
    cases isComplete with
    | true => exact all o _ (.virtualBase member at')
    | false => cases member
  · rintro ⟨bases, virtualBases, fields⟩ o q part
    cases part with
    | innerBase member at' => exact bases _ member o at'
    | virtualBase member at' => exact virtualBases _ member o at'
    | field found stored at' contains => exact fields _ _ _ _ _ found stored at' contains

theorem hasPart_base {layout : RecordLayout} {i : SubobjectId}
    (located : Located s known (g.node i).record) (laid : known.record (g.node i).record = .ok layout)
    (good : Nat → Place → Prop) :
    (∀ o q, HasPart s known g (.base i) o q → good o q) ↔
      (∀ j ∈ g.nonVirtualBasesOf i, ∀ o,
        known.baseOffset? (g.node i).record (g.node j).record = some o → good o (.base j)) ∧
      (∀ p ∈ (g.claimedPrimary? i).toList, good 0 (.base p)) ∧
      ∀ entry ∈ storedFields s (g.node i).record layout, ∀ o : Nat, entry.2 = .ok o → ∀ k m,
        entry.1.Contains k m → good (o + k * known.size m) (.inner m true) := by
  refine Iff.trans ?_ (and_congr_right' (and_congr_right'
    (hasPart_fields (g := g) (p := .base i) located laid).symm))
  constructor
  · intro all
    exact ⟨fun j member o at' => all o _ (.base member at'),
      fun p member => all 0 _ (.claimed (Option.mem_toList.mp member)),
      fun index field offset k m found stored at' contains =>
        all _ _ (.field found stored at' contains)⟩
  · rintro ⟨bases, claimed, fields⟩ o q part
    cases part with
    | base member at' => exact bases _ member o at'
    | claimed here => exact claimed _ (Option.mem_toList.mpr here)
    | field found stored at' contains => exact fields _ _ _ _ _ found stored at' contains

section RecordFits

/-- What is done with the elements of an array has to be the same for the class of the elements only. -/
theorem arrayOfRecords_congr {next next' : Option (RecordId × Nat) → LayoutM α}
    (none : next none = next' none)
    (some : ∀ m count, type.constantArrayRecord? = some m →
      next (.some (m, count)) = next' (.some (m, count))) :
    (liftM (map.arrayOfRecords type) : LayoutM (Option (RecordId × Nat))) >>= next =
      (liftM (map.arrayOfRecords type) : LayoutM (Option (RecordId × Nat))) >>= next' := by
  unfold arrayOfRecords
  split
  · exact none
  · cases map.count type.constantLengths with
    | error fault => rfl
    | ok count =>
      cases record : type.constantArrayRecord? with
      | none => exact none
      | some m => exact some m count record

theorem fieldTypeFits_congr {fits fits' : RecordId → Bytes → LayoutM Bool}
    (same : ∀ m, type.constantArrayRecord? = some m → fits m = fits' m) :
    map.fieldTypeFits fits type = map.fieldTypeFits fits' type := by
  funext x
  unfold fieldTypeFits
  split
  · rfl
  cases names : type.asRecord? with
  | some m => simp only [same m (Ty.asRecord?_eq_some.mp names).1]
  | none =>
    refine arrayOfRecords_congr rfl fun m count record => ?_
    simp only [same m record]

/-- Looking into a record is looking into its parts. -/
theorem recordFits_eq (grounded : Grounded s.Holds r) (isComplete : Bool) (x : Nat) :
    recordFits s map r isComplete x = lookInto s map r x
      (s.tree.record r).nonVirtualBases
      (fun layout base => (liftM (within x (layout.baseOffset base.record)) : LayoutM Bytes) >>=
        recordFits s map base.record false)
      (if isComplete then s.tree.virtualBases r else [])
      (fun layout v => (liftM (within x (layout.virtualBaseOffset v)) : LayoutM Bytes) >>=
        recordFits s map v false)
      (fun entry => (liftM (within x entry.2) : LayoutM Bytes) >>=
        map.fieldTypeFits (recordFits s map · true) entry.1) := by
  unfold recordFits
  rw [s.tree.descend_eq (fun _ _ => Setting.Holds.declared_of_transGen) ?looks grounded.transGen]
  · rfl
  intro f h r same
  funext isComplete x
  refine lookInto_congr (fun layout base member => ?_) (fun layout v member => ?_)
    fun layout entry member => ?_
  · rw [same _ (.single (Tree.Inherits.holds ⟨base, (List.mem_filter.mp member).1, rfl⟩))]
  · cases isComplete with
    | true => rw [same v (SoundBelow.inherits (Tree.HasVirtualBase.of_mem member).below)]
    | false => cases member
  · obtain ⟨index, field, found, _, rfl⟩ := mem_storedFields.mp member
    refine congrArg _ (fieldTypeFits_congr fun m names => ?_)
    rw [same m (.single (.of_field (List.mem_of_getElem? found)
      (Ty.baseElement_of_constantArrayRecord? names)))]

/-- The offset of a part, then the question about the part. -/
theorem part_ends {o : Nat} (part : HasPart s known g p o q)
    (room : allowed .overflow ∨ Addressable s known g map.tracking p x) {inner : Checked Bytes}
    (at' : inner = .ok o) {test : Nat → LayoutM Bool}
    (each : allowed .overflow ∨ Addressable s known g map.tracking q (x + o) →
      Ends allowed ((test (x + o)).eval known)
        fun b => b = true ↔ map.Free s known g q (x + o)) :
    Ends allowed (((liftM (within x inner) : LayoutM Bytes) >>= test).eval known)
      fun b => b = true ↔ map.Free s known g q (x + o) := by
  refine LayoutM.ends_lift_bind (within_ends at' (room.imp_right (·.sum part)).symm) ?_
  rintro _ rfl
  exact each (room.imp_right (·.part part))

/-- The answer about a record says whether it is free to lie at the offset. -/
theorem recordFits_ends (bounded : map.Bounded) (h : Legible s known r) {isComplete : Bool}
    (room : allowed .overflow ∨ Addressable s known g map.tracking (.inner r isComplete) x) :
    Ends allowed ((recordFits s map r isComplete x).eval known) fun b =>
      b = true ↔ map.Free s known g (.inner r isComplete) x := by
  have grounded := h.grounded.transGen
  induction grounded generalizing isComplete x with
  | intro r _ ih =>
  have ih : ∀ m, Relation.TransGen s.Holds r m → ∀ isComplete x,
      allowed .overflow ∨ Addressable s known g map.tracking (.inner m isComplete) x →
      Ends allowed ((recordFits s map m isComplete x).eval known) fun b =>
        b = true ↔ map.Free s known g (.inner m isComplete) x :=
    fun m path isComplete x room => ih m path (h.lower path) room
  obtain ⟨layout, laid, _⟩ := h.here.laid
  rw [recordFits_eq h.grounded]
  refine lookInto_ends (p := .inner r isComplete) bounded laid (fun base member => ?_)
    (fun v member => ?_) (fun entry member => ?_) (hasPart_inner isComplete h.here laid _)
  · obtain ⟨o, at'⟩ := Option.isSome_iff_exists.mp
      (h.here.bases base.record ⟨base, member, rfl⟩)
    have path : Relation.TransGen s.Holds r base.record :=
      .single (Tree.Inherits.holds ⟨base, (List.mem_filter.mp member).1, rfl⟩)
    refine (part_ends (p := .inner r isComplete) (.innerBase member at') room
      (Known.baseOffset_eq laid at') (ih _ path _ _)).imp fun b free => free.trans ?_
    rw [at']
    exact ⟨fun free o' same => Option.some.inj same ▸ free, fun all => all o rfl⟩
  · cases isComplete with
    | false => cases member
    | true =>
      have has := Tree.HasVirtualBase.of_mem member
      obtain ⟨o, at'⟩ := Option.isSome_iff_exists.mp (h.here.virtualBases v has)
      refine (part_ends (p := .inner r true) (.virtualBase member at') room
        (Known.virtualBaseOffset_eq laid at') (ih _ (SoundBelow.inherits has.below) _ _)).imp
        fun b free => free.trans ?_
      rw [at']
      exact ⟨fun free o' same => Option.some.inj same ▸ free, fun all => all o rfl⟩
  · exact storedField_ends (p := .inner r isComplete) bounded h laid
      (fun m holds y room => ih m (.single holds) true y room) room member

end RecordFits

section BaseFits

variable {i : SubobjectId}

/-- Looking into a base subobject is looking into its parts. -/
theorem baseFits_eq (grounded : Grounded g.Child i) (x : Nat) :
    baseFits s g map i x = lookInto s map (g.node i).record x
      (g.nonVirtualBasesOf i)
      (fun layout j => (liftM (within x (layout.baseOffset (g.node j).record)) : LayoutM Bytes) >>=
        baseFits s g map j)
      (g.claimedPrimary? i).toList (fun _ p => baseFits s g map p x)
      (fun entry => (liftM (within x entry.2) : LayoutM Bytes) >>=
        map.fieldTypeFits (recordFits s map · true) entry.1) := by
  unfold baseFits
  rw [g.descend_eq (fun _ _ (child : g.Child _ _) => child.has_parent) ?looks grounded]
  · rfl
  intro f h i same
  funext x
  refine lookInto_congr (fun layout j member => ?_) (fun layout p member => ?_)
    fun layout entry member => rfl
  · rw [same j (.inl member)]
  · rw [same p (.inr (Option.mem_toList.mp member))]

/-- The answer about a base subobject says whether it is free to lie at the offset. -/
theorem baseFits_ends (bounded : map.Bounded) (grounded : Grounded g.Child i)
    (legible : ∀ j, Relation.ReflTransGen g.Child i j → Legible s known (g.node j).record)
    (edges : ∀ k j, Relation.ReflTransGen g.Child i k → j ∈ g.nonVirtualBasesOf k →
      s.tree.InheritsPlainly (g.node k).record (g.node j).record)
    (room : allowed .overflow ∨ Addressable s known g map.tracking (.base i) x) :
    Ends allowed ((baseFits s g map i x).eval known) fun b =>
      b = true ↔ map.Free s known g (.base i) x := by
  induction grounded generalizing x with
  | intro i lower ih =>
  have grounded : Grounded g.Child i := .intro lower
  have ih : ∀ j, g.Child i j → ∀ x,
      allowed .overflow ∨ Addressable s known g map.tracking (.base j) x →
      Ends allowed ((baseFits s g map j x).eval known) fun b =>
        b = true ↔ map.Free s known g (.base j) x :=
    fun j child x room => ih j child (fun k path => legible k (path.head child))
      (fun k l path => edges k l (path.head child)) room
  have h := legible i .refl
  obtain ⟨layout, laid, _⟩ := h.here.laid
  rw [baseFits_eq grounded]
  refine lookInto_ends (p := .base i) bounded laid (fun j member => ?_) (fun p member => ?_)
    (fun entry member => ?_) (hasPart_base h.here laid _)
  · obtain ⟨o, at'⟩ := Option.isSome_iff_exists.mp
      (h.here.bases (g.node j).record (edges i j .refl member))
    refine (part_ends (p := .base i) (.base member at') room
      (Known.baseOffset_eq laid at') (ih j (.inl member) _)).imp fun b free => free.trans ?_
    rw [at']
    exact ⟨fun free o' same => Option.some.inj same ▸ free, fun all => all o rfl⟩
  · have claimed := Option.mem_toList.mp member
    exact ih p (.inr claimed) x (room.imp_right fun addressable => by
      simpa using addressable.part (.claimed claimed))
  · exact storedField_ends (p := .base i) bounded h laid
      (fun m holds y room => recordFits_ends bounded (h.lower (.single holds)) room) room member

end BaseFits

end ObjectLayout
