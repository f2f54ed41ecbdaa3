import ObjectLayout.Proofs.Itanium.Soundness

/-! The base subobjects of a complete object and the fields in them. A base subobject is named by the
virtual base that it hangs from, if any, and the path of non-virtual bases from there; it lies where
the layouts along the path put it. -/
namespace ObjectLayout

variable {s : Setting} {known : Known} {b c d e v : RecordId} {path : List RecordId} {x : Nat}

/-- A base subobject of a class that is reached along non-virtual bases alone. -/
inductive PlainBaseAt (s : Setting) (known : Known) :
    RecordId → List RecordId → RecordId → Nat → Prop
  | here (c : RecordId) : PlainBaseAt s known c [] c 0
  | under {c b e : RecordId} {path : List RecordId} {offset further : Nat}
      (edge : s.tree.InheritsPlainly c b) (at' : known.baseOffset? c b = some offset)
      (deeper : PlainBaseAt s known b path e further) :
      PlainBaseAt s known c (b :: path) e (offset + further)

/-- The name of a base subobject, empty for the complete object itself. -/
structure Occurrence where
  root : Option RecordId
  path : List RecordId
  deriving DecidableEq

/-- A base subobject of a complete object. There is one for each path of non-virtual bases from the
class itself, and one for each such path from each of its virtual bases. -/
inductive BaseAt (s : Setting) (known : Known) (d : RecordId) : Occurrence → RecordId → Nat → Prop
  | plain {path : List RecordId} {e : RecordId} {x : Nat} (h : PlainBaseAt s known d path e x) :
      BaseAt s known d ⟨none, path⟩ e x
  | virtual {v e : RecordId} {path : List RecordId} {x y : Nat} (member : v ∈ s.tree.virtualBases d)
      (at' : known.virtualBaseOffset? d v = some x) (h : PlainBaseAt s known v path e y) :
      BaseAt s known d ⟨some v, path⟩ e (x + y)

/-- How many bits a field has: its own width, or else that of its type. -/
def Setting.HasBits (s : Setting) (known : Known) (field : Field) (bits : Nat) : Prop :=
  match field.bitWidth with
  | some width => bits = width
  | none => ∃ width, s.width known field.type = .ok width ∧ bits = 8 * width

/-- The bits of a field, counted from the start of the record that declares it. -/
def HasField (s : Setting) (known : Known) (e : RecordId) (index start stop : Nat) : Prop :=
  ∃ field bits, (s.tree.record e).fields[index]? = some field ∧ s.HasBits known field bits ∧
    known.fieldOffset? e index = some start ∧ stop = start + bits

/-- The bits of a field, counted from the start of a base subobject that is or holds its record. -/
def PlainFieldAt (s : Setting) (known : Known) (c : RecordId) (path : List RecordId)
    (index start stop : Nat) : Prop :=
  ∃ e x first last, PlainBaseAt s known c path e x ∧ HasField s known e index first last ∧
    start = 8 * x + first ∧ stop = 8 * x + last

/-- The bits of a field in a complete object. -/
def FieldAt (s : Setting) (known : Known) (d : RecordId) (o : Occurrence)
    (index start stop : Nat) : Prop :=
  ∃ e x first last, BaseAt s known d o e x ∧ HasField s known e index first last ∧
    start = 8 * x + first ∧ stop = 8 * x + last

/-- Every base subobject of a complete object has a place, and so has every field in it. -/
structure AllPlaced (s : Setting) (known : Known) (d : RecordId) : Prop where
  virtual : ∀ v ∈ s.tree.virtualBases d, ∃ x, BaseAt s known d ⟨some v, []⟩ v x
  bases : ∀ o e x b, BaseAt s known d o e x → s.tree.InheritsPlainly e b →
    ∃ y, BaseAt s known d ⟨o.root, o.path ++ [b]⟩ b y
  fields : ∀ o e x index, BaseAt s known d o e x → index < (s.tree.record e).fields.length →
    ∃ start stop, FieldAt s known d o index start stop

/-- A field has a number of bits if its type has a width, where it does not have its own. -/
theorem Setting.exists_hasBits {field : Field}
    (stored : field.bitWidth = none → ∃ width, s.width known field.type = .ok width) :
    ∃ bits, s.HasBits known field bits := by
  unfold Setting.HasBits
  split
  · exact ⟨_, rfl⟩
  · rename_i none
    obtain ⟨width, wide⟩ := stored none
    exact ⟨_, width, wide, rfl⟩

theorem Setting.HasBits.eq {field : Field} {bits : Nat} (h : s.HasBits known field bits) :
    s.bits known field = bits := by
  unfold Setting.HasBits at h
  unfold Setting.bits
  cases declared : field.bitWidth with
  | some width =>
    rw [declared] at h
    exact h.symm
  | none =>
    rw [declared] at h
    obtain ⟨width, wide, rfl⟩ := h
    rw [wide]
    rfl

theorem PlainBaseAt.inherits (h : PlainBaseAt s known c path e x) :
    Relation.ReflTransGen s.tree.Inherits c e := by
  induction h with
  | here => exact .refl
  | under edge _ _ ih => exact .head edge.inherits ih

theorem BaseAt.inherits {o : Occurrence} (h : BaseAt s known d o e x) :
    Relation.ReflTransGen s.tree.Inherits d e := by
  cases h with
  | plain h => exact h.inherits
  | virtual member _ h =>
    exact (Tree.HasVirtualBase.of_mem member).below.to_reflTransGen.trans h.inherits

/-- A field of a class is its own or one of a direct non-virtual base. -/
theorem plainFieldAt_iff {index start stop : Nat} : PlainFieldAt s known c path index start stop ↔
    (path = [] ∧ HasField s known c index start stop) ∨
      ∃ b rest offset first last, path = b :: rest ∧ s.tree.InheritsPlainly c b ∧
        known.baseOffset? c b = some offset ∧ PlainFieldAt s known b rest index first last ∧
        start = 8 * offset + first ∧ stop = 8 * offset + last := by
  constructor
  · rintro ⟨e, x, first, last, at', field, rfl, rfl⟩
    cases at' with
    | here =>
      left
      simpa using field
    | @under _ b _ rest offset further edge at' deeper =>
      right
      refine ⟨b, rest, offset, 8 * further + first, 8 * further + last, rfl, edge, at', ?_, ?_, ?_⟩
      · exact ⟨e, further, first, last, deeper, field, rfl, rfl⟩
      · omega
      · omega
  · rintro (⟨rfl, field⟩ | ⟨b, rest, offset, first, last, rfl, edge, at', deeper, rfl, rfl⟩)
    · exact ⟨c, 0, start, stop, .here c, field, by omega, by omega⟩
    · obtain ⟨e, x, first, last, inside, field, rfl, rfl⟩ := deeper
      exact ⟨e, offset + x, first, last, .under edge at' inside, field, by omega, by omega⟩

/-- A field of a complete object is one of the class itself or of one of its virtual bases. -/
theorem fieldAt_iff {o : Occurrence} {index start stop : Nat} :
    FieldAt s known d o index start stop ↔
      (o.root = none ∧ PlainFieldAt s known d o.path index start stop) ∨
        ∃ v x first last, o.root = some v ∧ v ∈ s.tree.virtualBases d ∧
          known.virtualBaseOffset? d v = some x ∧ PlainFieldAt s known v o.path index first last ∧
          start = 8 * x + first ∧ stop = 8 * x + last := by
  obtain ⟨root, path⟩ := o
  constructor
  · rintro ⟨e, x, first, last, at', field, rfl, rfl⟩
    cases at' with
    | plain h => exact .inl ⟨rfl, e, x, first, last, h, field, rfl, rfl⟩
    | @virtual v _ _ x y member at' h =>
      right
      refine ⟨v, x, 8 * y + first, 8 * y + last, rfl, member, at', ?_, ?_, ?_⟩
      · exact ⟨e, y, first, last, h, field, rfl, rfl⟩
      · omega
      · omega
  · rintro (⟨rfl, e, x, first, last, h, field, rfl, rfl⟩ |
      ⟨v, x, _, _, rfl, member, at', ⟨e, y, first, last, h, field, rfl, rfl⟩, rfl, rfl⟩)
    · exact ⟨e, x, first, last, .plain h, field, rfl, rfl⟩
    · exact ⟨e, x + y, first, last, .virtual member at' h, field, by omega, by omega⟩

theorem PlainBaseAt.push {offset : Nat} (h : PlainBaseAt s known c path e x)
    (edge : s.tree.InheritsPlainly e b) (at' : known.baseOffset? e b = some offset) :
    PlainBaseAt s known c (path ++ [b]) b (x + offset) := by
  induction h with
  | here c =>
    rw [Nat.zero_add]
    exact .under edge at' (.here b)
  | under edge' at'' _ ih =>
    rw [Nat.add_assoc]
    exact .under edge' at'' (ih edge at')

theorem BaseAt.push {o : Occurrence} {offset : Nat} (h : BaseAt s known d o e x)
    (edge : s.tree.InheritsPlainly e b) (at' : known.baseOffset? e b = some offset) :
    BaseAt s known d ⟨o.root, o.path ++ [b]⟩ b (x + offset) := by
  cases h with
  | plain h => exact .plain (h.push edge at')
  | virtual member here h =>
    rw [Nat.add_assoc]
    exact .virtual member here (h.push edge at')

/-- What is laid out has a place for everything in it. -/
theorem Setting.Knows.allPlaced (knows : s.Knows known) (itanium : s.IsItanium)
    {layout : RecordLayout} (laid : known.record d = .ok layout) : AllPlaced s known d := by
  have sound {e : RecordId} {o : Occurrence} {x : Nat} (at' : BaseAt s known d o e x) :
      Sound s known e := by
    obtain ⟨_, laid'⟩ := knows.inherited laid at'.inherits
    exact knows.sound itanium laid'
  constructor
  case virtual =>
    intro v member
    have has := ((knows.sound itanium laid).virtualBases v).mpr (Tree.HasVirtualBase.of_mem member)
    obtain ⟨x, at'⟩ := Option.isSome_iff_exists.mp has
    exact ⟨x + 0, .virtual member at' (.here v)⟩
  case bases =>
    intro o e x b at' edge
    obtain ⟨offset, found⟩ := Option.isSome_iff_exists.mp (((sound at').bases b).mpr edge)
    exact ⟨x + offset, at'.push edge found⟩
  case fields =>
    intro o e x index at' bound
    obtain ⟨layout', laid', _, count⟩ := (sound at').laid
    obtain ⟨offset, found⟩ : ∃ offset, known.fieldOffset? e index = some offset := by
      rw [Known.fieldOffset?_eq laid']
      exact ⟨_, List.getElem?_eq_getElem (count ▸ bound)⟩
    have here := List.getElem?_eq_getElem bound
    obtain ⟨bits, has⟩ : ∃ bits, s.HasBits known (s.tree.record e).fields[index] bits := by
      refine Setting.exists_hasBits fun stored => ?_
      obtain ⟨width, wide, _⟩ := (sound at').fields index _ offset here stored found
      exact ⟨width, wide⟩
    exact ⟨_, _, e, x, _, _, at', ⟨_, bits, here, has, found, rfl⟩, rfl, rfl⟩

end ObjectLayout
