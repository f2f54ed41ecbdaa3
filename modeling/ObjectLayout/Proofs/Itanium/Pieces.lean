import Mathlib.Data.List.Pairwise
import ObjectLayout.Proofs.Itanium.Claims

/-! A layout as the sequence of the pieces that were placed. Base subobjects that hang from nothing
and fields are placed one after the other, each past the data of all before it unless it has no data;
the tables of base offsets say no more and no less than what these pieces hold. -/
namespace ObjectLayout

/-- The bits that a field takes up. -/
def Setting.bits (s : Setting) (known : Known) (field : Field) : Nat :=
  match field.bitWidth with
  | some width => width
  | none => 8 * (s.width known field.type).toOption.getD 0

namespace Itanium

open LayoutM (ends_bind ends_lift_bind)

/-- A base subobject at a byte, or a field at a bit. -/
inductive Piece where
  | base (i : SubobjectId) (x : Nat)
  | field (index : Nat) (offset : Nat)
  deriving DecidableEq

variable {f : Frame} {known : Known} {allowed : Fault → Prop} {g : SubobjectGraph}
variable {st st' : State} {pieces : List Piece} {piece piece' : Piece} {front front' x y : Nat}
variable {i j p q : SubobjectId} {d r v : RecordId} {own : Option RecordId}

namespace Piece

def base? : Piece → Option SubobjectId
  | base i _ => some i
  | field .. => none

/-- The first bit, counted from the start of the record. -/
def start : Piece → Nat
  | base _ x => 8 * x
  | field _ offset => offset

/-- The end of the data. -/
def stop (f : Frame) (known : Known) (g : SubobjectGraph) : Piece → Nat
  | base i x => 8 * (x + known.nonVirtualSize (g.node i).record)
  | field index offset => offset + (f.declaration.fields[index]?).elim 0 (f.setting.bits known)

/-- The end of the room, which for an empty base is that of its whole size. -/
def reach (f : Frame) (known : Known) (g : SubobjectGraph) : Piece → Nat
  | base i x => 8 * (x + f.setting.span known (g.node i).record)
  | field index offset => (field index offset).stop f known g

/-- An empty base has no data and may lie wherever it is allowed to. -/
def isHollow (f : Frame) (g : SubobjectGraph) : Piece → Bool
  | base i _ => f.tree.isEmptyClass (g.node i).record
  | field .. => false

/-- The virtual bases in a piece, with where they lie. -/
def occurrences (known : Known) (g : SubobjectGraph) : Piece → List (SubobjectId × Nat)
  | base i x => (if (g.node i).isVirtual then [(i, x)] else []) ++ claimedFrom known g i x
  | field .. => []

def baseEntry (g : SubobjectGraph) : Piece → Option (RecordId × Bytes)
  | base i x => if (g.node i).isVirtual then none else some ((g.node i).record, x)
  | field .. => none

/-- The data of one piece ends before that of another begins. -/
def Before (f : Frame) (known : Known) (g : SubobjectGraph) (piece piece' : Piece) : Prop :=
  piece.isHollow f g = false → piece'.isHollow f g = false →
    piece.stop f known g ≤ piece'.start

end Piece

/-- No base is placed twice. -/
def Distinct (pieces : List Piece) : Prop :=
  pieces.Pairwise fun piece piece' => ∀ i, piece.base? = some i → piece'.base? ≠ some i

theorem Distinct.push (distinct : Distinct pieces)
    (new : ∀ i, piece.base? = some i → ∀ y, Piece.base i y ∉ pieces) :
    Distinct (pieces ++ [piece]) := by
  refine List.pairwise_append.mpr ⟨distinct, List.pairwise_singleton _ _, ?_⟩
  rintro piece' member piece'' last i same same'
  cases List.mem_singleton.mp last
  cases piece' with
  | base j y =>
    cases same
    exact new i same' y member
  | field => cases same

theorem Distinct.push_base (distinct : Distinct pieces) (new : ∀ y, Piece.base i y ∉ pieces) (x : Nat) :
    Distinct (pieces ++ [.base i x]) := by
  refine distinct.push fun _ same => ?_
  cases same
  exact new

theorem Distinct.unique (distinct : Distinct pieces) (first : Piece.base i x ∈ pieces)
    (second : Piece.base i y ∈ pieces) : x = y := by
  have symm : Std.Symm fun piece piece' : Piece =>
      ∀ i, piece.base? = some i → piece'.base? ≠ some i :=
    ⟨fun _ _ apart i first second => apart i second first⟩
  by_contra differs
  exact distinct.forall first second (fun same => differs (Piece.base.inj same).2) i rfl rfl

/-- All bases that are placed hang from nothing. -/
def Rooted (g : SubobjectGraph) (pieces : List Piece) : Prop :=
  ∀ i x, Piece.base i x ∈ pieces → g.IsRoot i

theorem Rooted.push (rooted : Rooted g pieces) (root : ∀ i, piece.base? = some i → g.IsRoot i) :
    Rooted g (pieces ++ [piece]) := by
  intro i x member
  rcases List.mem_append.mp member with member | last
  · exact rooted i x member
  · cases List.mem_singleton.mp last
    exact root i rfl

theorem Rooted.push_base (rooted : Rooted g pieces) (root : g.IsRoot i) (x : Nat) :
    Rooted g (pieces ++ [.base i x]) := by
  refine rooted.push fun _ same => ?_
  cases same
  exact root

section Tables

variable (h : Charted f.setting known d own g)
include h

/-- The virtual bases in a piece are itself, if it is one, and what it has claimed. -/
theorem mem_occurrences : (p, y) ∈ (Piece.base i x).occurrences known g ↔
    (g.node p).isVirtual = true ∧ ∃ o, PartAt f.setting known g (.base i) o (.base p) ∧ y = x + o := by
  constructor
  · intro member
    rcases List.mem_append.mp member with here | claimed
    · split at here
      · cases List.mem_singleton.mp here
        exact ⟨‹_›, 0, .here _, rfl⟩
      · cases here
    · obtain ⟨k, o, part, holds, rfl⟩ := (mem_claimedFrom h).mp claimed
      have deeper := part.trans (.deeper (.claimed holds) (.here _))
      exact ⟨(h.forest.claimed_record holds).2.1, o, deeper, rfl⟩
  · rintro ⟨virt, o, part, rfl⟩
    apply List.mem_append.mpr
    rcases h.claimed_or_self part virt with ⟨rfl, rfl⟩ | ⟨k, inside, claimed⟩
    · left
      rw [if_pos virt]
      exact List.mem_singleton.mpr rfl
    · right
      exact (mem_claimedFrom h).mpr ⟨k, o, inside, claimed, rfl⟩

theorem path_of_mem_occurrences (member : (p, y) ∈ (Piece.base i x).occurrences known g) :
    Relation.ReflTransGen g.Child i p := by
  obtain ⟨_, _, part, _⟩ := (mem_occurrences h).mp member
  exact part.path

theorem virtual_of_mem_occurrences (rooted : Rooted g pieces) (placed : piece ∈ pieces)
    (member : (p, y) ∈ piece.occurrences known g) : g.Has p ∧ (g.node p).isVirtual = true := by
  cases piece with
  | field => cases member
  | base i x =>
    refine ⟨h.forest.has_descendant (rooted _ _ placed).1 ?_, ((mem_occurrences h).mp member).1⟩
    exact path_of_mem_occurrences h member

theorem occurrences_nodup (distinct : Distinct pieces) (rooted : Rooted g pieces) :
    ((pieces.flatMap (·.occurrences known g)).map Prod.fst).Nodup := by
  rw [List.map_flatMap, List.nodup_flatMap]
  constructor
  · intro piece _
    cases piece with
    | field => exact .nil
    | base i x =>
      rw [Piece.occurrences, List.map_append]
      have inner := claimedFrom_nodup (i := i) (x := x) h
      split
      · refine List.nodup_cons.mpr ⟨fun member => ?_, inner⟩
        obtain ⟨⟨p, y⟩, there, rfl⟩ := List.mem_map.mp member
        exact (h.grounded p).irrefl (path_of_mem_claimedFrom h there)
      · exact inner
  · refine distinct.imp_of_mem fun {piece piece'} member member' apart q first second => ?_
    cases piece with
    | field => cases first
    | base i x =>
    cases piece' with
    | field => cases second
    | base j y =>
      have inside {i : SubobjectId} {x : Nat}
          (there : q ∈ ((Piece.base i x).occurrences known g).map Prod.fst) :
          Relation.ReflTransGen g.Child i q := by
        obtain ⟨⟨q, _⟩, listed, rfl⟩ := List.mem_map.mp there
        exact path_of_mem_occurrences h listed
      have same := h.forest.roots_apart (rooted i x member) (rooted j y member')
        (inside first) (inside second)
      exact apart i rfl (congrArg some same.symm)

/-- No virtual base has two entries. -/
theorem slots_nodup (distinct : Distinct pieces) (rooted : Rooted g pieces) :
    ((slotsOf g (pieces.flatMap (·.occurrences known g))).map Prod.fst).Nodup := by
  have nodes := occurrences_nodup h distinct rooted
  rw [slotsOf, List.map_map]
  change ((pieces.flatMap (·.occurrences known g)).map ((fun p => (g.node p).record) ∘ Prod.fst)).Nodup
  rw [← List.map_map]
  refine nodes.map_on fun p member q member' same => ?_
  obtain ⟨⟨p, _⟩, listed, rfl⟩ := List.mem_map.mp member
  obtain ⟨⟨q, _⟩, listed', rfl⟩ := List.mem_map.mp member'
  obtain ⟨piece, placed, inside⟩ := List.mem_flatMap.mp listed
  obtain ⟨piece', placed', inside'⟩ := List.mem_flatMap.mp listed'
  obtain ⟨has, virt⟩ := virtual_of_mem_occurrences h rooted placed inside
  obtain ⟨has', virt'⟩ := virtual_of_mem_occurrences h rooted placed' inside'
  have found := h.forest.listed p has virt
  rw [same, h.forest.listed q has' virt'] at found
  exact (Option.some.inj found).symm

/-- No direct base has two entries. -/
theorem baseEntries_nodup (distinct : Distinct pieces) (rooted : Rooted g pieces) :
    ((pieces.filterMap (·.baseEntry g)).map Prod.fst).Nodup := by
  rw [List.Nodup, List.pairwise_map, List.pairwise_filterMap]
  refine distinct.imp_of_mem fun {piece piece'} member member' apart e first e' second same => ?_
  cases piece with
  | field => cases first
  | base i x =>
  cases piece' with
  | field => cases second
  | base j y =>
    have plain {i : SubobjectId} {x : Nat} {e : RecordId × Bytes} (member : Piece.base i x ∈ pieces)
        (entry : (Piece.base i x).baseEntry g = some e) :
        g.nonVirtualBases.find? e.1 = some i := by
      rcases h.forest.root_cases (rooted i x member) with ⟨plain, found⟩ | ⟨virt, _⟩
      · rw [Piece.baseEntry, plain] at entry
        cases entry
        exact found
      · rw [Piece.baseEntry, virt] at entry
        cases entry
    have found := plain member first
    rw [same, plain member' second] at found
    exact apart i rfl found

end Tables

/-- Whatever is placed has its data past all data before it. The members of a union do not, and
under `ms_struct` a bit-field may reach past the unit that is reserved for it. -/
def Frame.IsSequential (f : Frame) : Prop := f.isUnion = false ∧ f.isMsStruct = false

/-- Every piece has its entry in the tables of a state, and nothing else has. -/
structure Tabled (f : Frame) (known : Known) (g : SubobjectGraph) (pieces : List Piece)
    (st : State) : Prop where
  graph : st.graph = g
  rooted : Rooted g pieces
  distinct : Distinct pieces
  isClass : ∀ i x, Piece.base i x ∈ pieces → (f.tree.record (g.node i).record).isClass = true
  bases : st.baseOffsets.entries = pieces.filterMap (·.baseEntry g)
  slots : st.virtualBaseSlots.entries = slotsOf g (pieces.flatMap (·.occurrences known g))
  fields : ∀ index offset, Piece.field index offset ∈ pieces ↔ st.fieldOffsets[index]? = some offset

/-- A field that is no bit-field takes whole bytes of the record. -/
def StoresField (f : Frame) (known : Known) (index offset : Nat) (st : State) : Prop :=
  ∀ field, f.declaration.fields[index]? = some field → field.bitWidth = none →
    ∃ width, f.setting.width known field.type = .ok width ∧ 8 ∣ offset ∧
      offset + 8 * width ≤ st.size

/-- The size of a state has room for the pieces. What follows has its data from `front` on. -/
structure Measured (f : Frame) (known : Known) (g : SubobjectGraph) (front : Nat)
    (pieces : List Piece) (st : State) : Prop where
  inside : ∀ i x, Piece.base i x ∈ pieces →
    8 * (x + f.setting.span known (g.node i).record) ≤ st.size
  stored : ∀ index offset, Piece.field index offset ∈ pieces → StoresField f known index offset st
  ordered : f.IsSequential → pieces.Pairwise (Piece.Before f known g)
  reached : f.IsSequential → ∀ piece ∈ pieces, piece.isHollow f g = false →
    piece.stop f known g ≤ front
  sized : st.dataSize ≤ st.size
  whole : f.IsSequential → 8 ∣ st.size
  /-- The record is no larger than whole bytes for the table pointer and the pieces ask for. -/
  tight : f.IsSequential → ∀ bound, 8 ∣ bound →
    (f.tree.isDynamic f.record = true → 8 * f.target.pointerWidth ≤ bound) →
    (∀ piece ∈ pieces, piece.reach f known g ≤ bound) → st.size ≤ bound

/-- A state after some pieces were placed. -/
structure Laid (f : Frame) (known : Known) (g : SubobjectGraph) (front : Nat) (pieces : List Piece)
    (st : State) : Prop extends Tabled f known g pieces st, Measured f known g front pieces st where
  power : Quantity.isPowerOfTwo st.alignment = true
  bounded : st.MapBounded
  mapped : f.declaration.isClass = true → st.emptyMap.isSome

/-- How far one more piece may take the size. -/
structure Widens (f : Frame) (known : Known) (g : SubobjectGraph) (piece : Piece) (st st' : State) :
    Prop where
  grows : st.size ≤ st'.size
  sized : st.dataSize ≤ st.size → st'.dataSize ≤ st'.size
  whole : f.IsSequential → 8 ∣ st.size → 8 ∣ st'.size
  tight : f.IsSequential → 8 ∣ st.size → ∀ bound, 8 ∣ bound → st.size ≤ bound →
    piece.reach f known g ≤ bound → st'.size ≤ bound

theorem Measured.push (h : Measured f known g front pieces st) (widens : Widens f known g piece st st')
    (inside : ∀ i x, piece = .base i x →
      8 * (x + f.setting.span known (g.node i).record) ≤ st'.size)
    (stored : ∀ index offset, piece = .field index offset → StoresField f known index offset st')
    (le : f.IsSequential → front ≤ front')
    (after : f.IsSequential → piece.isHollow f g = false →
      front ≤ piece.start ∧ piece.stop f known g ≤ front') :
    Measured f known g front' (pieces ++ [piece]) st' where
  inside i x member := by
    rcases List.mem_append.mp member with member | last
    · exact (h.inside i x member).trans widens.grows
    · exact inside i x (List.mem_singleton.mp last).symm
  stored index offset member field found isPlain := by
    rcases List.mem_append.mp member with member | last
    · obtain ⟨width, wide, whole, reaches⟩ := h.stored index offset member field found isPlain
      exact ⟨width, wide, whole, reaches.trans widens.grows⟩
    · exact stored index offset (List.mem_singleton.mp last).symm field found isPlain
  ordered sequential := by
    refine List.pairwise_append.mpr ⟨h.ordered sequential, List.pairwise_singleton _ _, ?_⟩
    intro piece' member last same full full'
    cases List.mem_singleton.mp same
    exact (h.reached sequential piece' member full).trans (after sequential full').1
  reached sequential piece' member full := by
    rcases List.mem_append.mp member with member | last
    · exact (h.reached sequential piece' member full).trans (le sequential)
    · cases List.mem_singleton.mp last
      exact (after sequential full).2
  sized := widens.sized h.sized
  whole sequential := widens.whole sequential (h.whole sequential)
  tight sequential bound whole pointer reaches := by
    have before := h.tight sequential bound whole pointer fun piece' member =>
      reaches piece' (List.mem_append_left _ member)
    exact widens.tight sequential (h.whole sequential) bound whole before (reaches piece (by simp))

namespace Laid

variable (h : Laid f known g front pieces st)
include h

theorem baseOffsets_keys (charted : Charted f.setting known d own g) : st.baseOffsets.keys.Nodup := by
  rw [OrderedMap.keys, h.bases]
  exact baseEntries_nodup charted h.distinct h.rooted

theorem slots_keys (charted : Charted f.setting known d own g) : st.virtualBaseSlots.keys.Nodup := by
  rw [OrderedMap.keys, h.slots]
  exact slots_nodup charted h.distinct h.rooted

/-- Every direct base that is placed has its offset in the table, and nothing else has. -/
theorem find?_base (charted : Charted f.setting known d own g) :
    st.baseOffsets.find? r = some x ↔
      ∃ i, Piece.base i x ∈ pieces ∧ (g.node i).isVirtual = false ∧ (g.node i).record = r := by
  rw [OrderedMap.find?_iff (h.baseOffsets_keys charted), h.bases, List.mem_filterMap]
  constructor
  · rintro ⟨piece, member, entry⟩
    cases piece with
    | field => cases entry
    | base i y =>
      rw [Piece.baseEntry] at entry
      split at entry
      · cases entry
      · rename_i plain
        cases entry
        exact ⟨i, member, by simpa using plain, rfl⟩
  · rintro ⟨i, member, plain, rfl⟩
    exact ⟨_, member, by simp [Piece.baseEntry, plain]⟩

/-- Every virtual base in a piece has its offset in the table, and nothing else has. -/
theorem find?_slot (charted : Charted f.setting known d own g) :
    (st.virtualBaseSlots.find? v).map (·.offset) = some y ↔
      ∃ piece ∈ pieces, ∃ p, (p, y) ∈ piece.occurrences known g ∧ (g.node p).record = v := by
  have listed (slot : VirtualBaseSlot) : st.virtualBaseSlots.find? v = some slot ↔
      ∃ piece ∈ pieces, ∃ e ∈ piece.occurrences known g,
        ((g.node e.1).record, { offset := e.2 }) = (v, slot) := by
    rw [OrderedMap.find?_iff (h.slots_keys charted), h.slots, slotsOf, List.mem_map]
    constructor
    · rintro ⟨e, member, same⟩
      obtain ⟨piece, placed, inside⟩ := List.mem_flatMap.mp member
      exact ⟨piece, placed, e, inside, same⟩
    · rintro ⟨piece, placed, e, inside, same⟩
      exact ⟨e, List.mem_flatMap.mpr ⟨piece, placed, inside⟩, same⟩
  constructor
  · intro found
    obtain ⟨slot, there, rfl⟩ := Option.map_eq_some_iff.mp found
    obtain ⟨piece, member, e, inside, same⟩ := (listed slot).mp there
    cases same
    exact ⟨piece, member, e.1, inside, rfl⟩
  · rintro ⟨piece, member, p, inside, rfl⟩
    have found := (listed { offset := y }).mpr ⟨piece, member, (p, y), inside, rfl⟩
    rw [found]
    rfl

end Laid

end Itanium

end ObjectLayout
