import ObjectLayout.Proofs.Session.Depth
import ObjectLayout.Proofs.Sugar.Itanium
import ObjectLayout.Proofs.Sugar.Microsoft

/-! Sugar is not seen. Two trees whose declarations are the same but for sugar have the same layouts for
all records, and for types that are the same but for sugar, or faults of the same kind. A type that is
realigned by none of its names has the outcome that the type behind them has. -/
namespace ObjectLayout

variable {s : Setting} {known known' : Known} {types : List Ty}

/-- The fault, but for the text that spells a type. -/
def Fault.kind : Fault → Fault
  | .breach (.dependentType _) => .breach (.dependentType "")
  | fault => fault

/-- The outcome, a fault as its kind. -/
def Checked.kind (outcome : Checked α) : Checked α := outcome.mapError Fault.kind

namespace Checked

theorem kind_bind (outcome : Checked α) (next : α → Checked β) :
    kind (outcome >>= next) = kind outcome >>= fun value => kind (next value) := by
  cases outcome <;> rfl

theorem kind_dependentType (spelling : String) :
    kind (.error (.breach (.dependentType spelling)) : Checked α) =
      .error (.breach (.dependentType "")) := rfl

end Checked

theorem Deepens.kind {outcome deeper : Checked α} (h : Deepens outcome deeper) :
    Deepens outcome.kind deeper.kind := by
  rcases h with rfl | rfl
  · exact .inl rfl
  · exact .inr rfl

/-- Of all records and of these types, everything known here is known there, and so is every fault that
is no lack of depth, as far as its kind goes. -/
structure Known.DeepensInKind (types : Ty → Prop) (known known' : Known) : Prop where
  record : ∀ r, ObjectLayout.Deepens (known.record r).kind (known'.record r).kind
  type : ∀ type, types type → ObjectLayout.Deepens (known.type type).kind (known'.type type).kind

theorem LayoutM.eval_deepensInKind {types : Ty → Prop} {notes : Note → Prop}
    (h : known.DeepensInKind types known') {x : LayoutM α} (asks : x.Confined types notes) :
    Deepens (x.eval known).kind (x.eval known').kind := by
  induction x with
  | done value => exact .inr rfl
  | stop fault => exact .inr rfl
  | askRecord r next ih =>
    change Deepens (known.record r >>= _).kind (known'.record r >>= _).kind
    rw [Checked.kind_bind, Checked.kind_bind]
    exact (h.record r).bind fun layout => ih layout (asks layout)
  | askType type next ih =>
    change Deepens (known.type type >>= _).kind (known'.type type >>= _).kind
    rw [Checked.kind_bind, Checked.kind_bind]
    exact (h.type type asks.1).bind fun layout => ih layout (asks.2 layout)
  | tell note rest ih => exact ih asks.2

section Rules

namespace RecordLayout

@[simp] theorem ensureComplete_unsugared (record : Record) :
    ensureComplete record.unsugared = ensureComplete record := by
  simp [ensureComplete]

@[simp] theorem unsugared_byRules (r : RecordId) :
    (byRules s r).unsugared = byRules s.unsugared r := by
  simp [byRules, Itanium.unsugared_layout, Microsoft.unsugared_layout]

/-- Working out the layout of a record without sugar asks for the same, but for the sugar. -/
theorem unsugared_ofRecord (r : RecordId) : (ofRecord s r).unsugared = ofRecord s.unsugared r := by
  simp [ofRecord]

theorem eval_ofRecord_unsugared (r : RecordId) :
    (ofRecord s.unsugared r).eval known = (ofRecord s r).eval known.unsugared := by
  rw [← unsugared_ofRecord, LayoutM.eval_unsugared]

end RecordLayout

namespace TypeLayout

@[simp] theorem memberPointer_unsugared (pointee owner : Ty) :
    memberPointer s.unsugared pointee.unsugared owner.unsugared = memberPointer s pointee owner := by
  simp only [memberPointer, Ty.canonical_unsugared, Ty.isFunction_unsugared_canonical,
    Setting.target_unsugared, Ty.asRecord?_unsugared, Setting.tree_unsugared]
  cases owner.asRecord? <;> simp

/-- The layout of a type without sugar comes from the same parts, but for the sugar. What depends on a
template parameter is spelled in another way. -/
theorem ofTy_unsugared {type : Ty} (own : type.behindSugar? = none) :
    ((ofTy s.unsugared type.unsugared).eval known).kind =
      ((ofTy s type).eval known.unsugared).kind := by
  rw [← LayoutM.eval_unsugared]
  cases type with
  | dependentArray | templateParam => simp [ofTy, Ty.unsugared, Checked.kind_dependentType]
  | elaborated => cases own
  | typedef id declaration name aliased alignment =>
    cases alignment with
    | none => cases own
    | some alignment => simp [ofTy, Ty.unsugared]
  | _ => simp [ofTy, Ty.unsugared]

theorem eval_ofTy_sugar {type inner : Ty} (behind : type.behindSugar? = some inner) :
    (ofTy s type).eval known = known.type inner := by
  unfold Ty.behindSugar? at behind
  split at behind <;> cases behind <;> simp [ofTy]

end TypeLayout

end Rules

namespace Setting

/-- What is known at some depth of declarations as they are written is known at the same depth without
their sugar. -/
theorem known_deepensInKind_unsugared (s : Setting) (depth : Nat) :
    (s.known depth).DeepensInKind (fun _ => True) (s.unsugared.known depth).unsugared := by
  induction depth with
  | zero => exact ⟨fun _ => .inl rfl, fun _ _ => .inl rfl⟩
  | succ depth ih =>
    constructor
    case record =>
      intro r
      change Deepens ((RecordLayout.ofRecord s r).eval (s.known depth)).kind
        ((RecordLayout.ofRecord s.unsugared r).eval (s.unsugared.known depth)).kind
      rw [RecordLayout.eval_ofRecord_unsugared]
      exact LayoutM.eval_deepensInKind ih (LayoutM.Confined.any _)
    case type =>
      intro type _
      change Deepens ((TypeLayout.ofTy s type).eval (s.known depth)).kind
        ((s.unsugared.known (depth + 1)).type type.unsugared).kind
      cases behind : type.behindSugar? with
      | none =>
        change Deepens _ ((TypeLayout.ofTy s.unsugared type.unsugared).eval _).kind
        rw [TypeLayout.ofTy_unsugared behind]
        exact LayoutM.eval_deepensInKind ih (LayoutM.Confined.any _)
      | some inner =>
        rw [TypeLayout.eval_ofTy_sugar behind, Ty.unsugared_behindSugar? behind]
        exact (ih.type inner trivial).trans ((s.unsugared.known_deepens depth).type _).kind

section Catalog

variable (catalog : s.tree.Catalog types)
include catalog

/-- What is known without sugar at any depth is known at the depth of a setting with a catalog. -/
theorem known_unsugared_deepensInKind (depth : Nat) :
    (s.unsugared.known depth).unsugared.DeepensInKind (· ∈ types) (s.known s.depth) := by
  have settled := known_agrees_depth catalog
  induction depth with
  | zero => exact ⟨fun _ => .inl rfl, fun _ _ => .inl rfl⟩
  | succ depth ih =>
    constructor
    case record =>
      intro r
      rw [settled.record r]
      change Deepens ((RecordLayout.ofRecord s.unsugared r).eval (s.unsugared.known depth)).kind
        ((RecordLayout.ofRecord s r).eval (s.known s.depth)).kind
      rw [RecordLayout.eval_ofRecord_unsugared]
      exact LayoutM.eval_deepensInKind ih (RecordLayout.ofRecord_asks catalog r)
    case type =>
      have own (type : Ty) (plain : type.behindSugar? = none) (listed : type ∈ types) :
          Deepens ((s.unsugared.known (depth + 1)).type type.unsugared).kind
            ((s.known s.depth).type type).kind := by
        rw [settled.type type listed]
        change Deepens ((TypeLayout.ofTy s.unsugared type.unsugared).eval _).kind
          ((TypeLayout.ofTy s type).eval (s.known s.depth)).kind
        rw [TypeLayout.ofTy_unsugared plain]
        exact LayoutM.eval_deepensInKind ih (TypeLayout.ofTy_asks catalog listed)
      intro type listed
      induction type using Ty.sugar_induction with
      | own type plain => exact own type plain listed
      | sugar type inner behind inside =>
        rw [settled.type type listed]
        change Deepens _ ((TypeLayout.ofTy s type).eval (s.known s.depth)).kind
        rw [TypeLayout.eval_ofTy_sugar behind]
        change Deepens ((s.unsugared.known (depth + 1)).type type.unsugared).kind _
        rw [Ty.unsugared_behindSugar? behind]
        exact inside (catalog.parts type listed inner (Ty.mem_parts_of_behindSugar? behind))

/-- Where no name realigns a type, its outcome is that of the type behind the names. -/
theorem known_canonical {type : Ty} (listed : type ∈ types) (plain : type.isRealigned = false) :
    (s.known s.depth).type type = (s.known s.depth).type type.canonical := by
  have known_sugar {type inner : Ty} (behind : type.behindSugar? = some inner) (listed : type ∈ types) :
      (s.known s.depth).type type = (s.known s.depth).type inner :=
    ((known_agrees_depth catalog).type type listed).trans (TypeLayout.eval_ofTy_sugar behind)
  fun_induction Ty.canonical type with
  | case1 id declaration name aliased alignment ih =>
    obtain ⟨rfl, plain⟩ : alignment = none ∧ aliased.isRealigned = false := by
      simpa [Ty.isRealigned] using plain
    have inner := catalog.parts _ listed aliased (List.mem_singleton_self _)
    exact (known_sugar rfl listed).trans (ih inner plain)
  | case2 id inner ih =>
    have inside := catalog.parts _ listed inner (List.mem_singleton_self _)
    exact (known_sugar rfl listed).trans (ih inside plain)
  | case3 type => rfl

end Catalog

end Setting

/-- Two outcomes that something else comes to from both sides are of one kind. -/
theorem Deepens.eq_of_common {outcome outcome' : Checked α} {common : Nat → Checked α}
    {depth depth' : Nat} (up : Deepens outcome (common depth))
    (down : ∀ depth, Deepens (common depth) outcome) (up' : Deepens outcome' (common depth'))
    (down' : ∀ depth, Deepens (common depth) outcome') :
    outcome = outcome' := by
  have of_endless (endless : outcome = .error .endless) : outcome = outcome' := by
    rcases up' with endless' | same'
    · exact endless.trans endless'.symm
    · rcases down depth' with endless' | same
      · exact endless.trans (same'.trans endless').symm
      · exact (same'.trans same).symm
  rcases up with endless | same
  · exact of_endless endless
  · rcases down' depth with endless | same'
    · exact of_endless (same.trans endless)
    · exact same.trans same'

/-- Declarations that are the same but for sugar have the same layouts, or faults of the same kind: for
every record, and for all types that are the same but for sugar. Where no name realigns a type, its
outcome is that of the type behind the names. -/
theorem sugar_unseen {s s' : Setting} {types types' : List Ty} (catalog : s.tree.Catalog types)
    (catalog' : s'.tree.Catalog types') (alike : s.unsugared = s'.unsugared) :
    (∀ r, ((s.known s.depth).record r).kind = ((s'.known s'.depth).record r).kind) ∧
      (∀ type ∈ types, ∀ type' ∈ types', type.unsugared = type'.unsugared →
        ((s.known s.depth).type type).kind = ((s'.known s'.depth).type type').kind) ∧
      ∀ type ∈ types, type.isRealigned = false →
        (s.known s.depth).type type = (s.known s.depth).type type.canonical := by
  have up := s.known_deepensInKind_unsugared s.depth
  have up' := s'.known_deepensInKind_unsugared s'.depth
  have down := Setting.known_unsugared_deepensInKind catalog
  have down' := Setting.known_unsugared_deepensInKind catalog'
  rw [← alike] at up' down'
  refine ⟨fun r => ?_, fun type listed type' listed' same => ?_, fun type => s.known_canonical catalog⟩
  · exact Deepens.eq_of_common (up.record r) (fun depth => (down depth).record r) (up'.record r)
      fun depth => (down' depth).record r
  · have unsugared (known : Known) : known.unsugared.type type' = known.unsugared.type type :=
      congrArg known.type same.symm
    have up' := up'.type type' trivial
    have down' (depth : Nat) := (down' depth).type type' listed'
    simp only [unsugared] at up' down'
    exact Deepens.eq_of_common (up.type type trivial) (fun depth => (down depth).type type listed) up'
      down'

/-- C++ declarations for a target with a class `C` that holds an integer, a class `D` and a class `T`
that depends on a template parameter. Their members have types at these positions. -/
def holders (os : Os) (types : List Ty) (inC : Nat) (inD : List Nat) (inT : Nat) : Setting :=
  let member (i : Nat) : Field := { name := some "m", type := types.getD i (.unresolved ⟨i⟩) }
  let records : List Record := [.ofClass "C" [member inC] [] [],
    .ofClass "D" (inD.map member) [] [], .ofClass "T" [member inT] [] []]
  { tree := { records := ⟨records.toArray⟩, typeCount := types.length }
    target := { arch := some .x86_64, os := some os }
    options := { cplusplus := true } }

theorem holders_catalog (os : Os) {types : List Ty} {inC inT : Nat} {inD : List Nat}
    (position : types.map Ty.id = (List.range types.length).map Idx.mk)
    (parts : ∀ type ∈ types, ∀ part ∈ type.parts, part ∈ types)
    (inside : ∀ i ∈ inC :: inT :: inD, i < types.length) :
    (holders os types inC inD inT).tree.Catalog types := by
  have listed : ∀ i ∈ inC :: inT :: inD, types.getD i (.unresolved ⟨i⟩) ∈ types := by
    intro i member
    simp [List.getD, inside i member]
  simp only [List.forall_mem_cons] at listed
  refine .of_lists rfl position parts ?_
  simpa [holders, Record.ofClass, Record.fields] using ⟨listed.1, listed.2.2, listed.2.1⟩

/-- Types spelled with a typedef of an integer type and of a function type, and with the tag of `C`. -/
def spelledTypes : List Ty :=
  let int := .scalar ⟨0⟩ (.integer .int .signed)
  let word := .typedef ⟨1⟩ ⟨0⟩ "word" int none
  let c := .record ⟨3⟩ ⟨0⟩
  let tagged := .elaborated ⟨4⟩ c
  let function := .function ⟨6⟩ word [] false
  let act := .typedef ⟨7⟩ ⟨1⟩ "act" function none
  [int, word, .enumeration ⟨2⟩ ⟨0⟩ "E" word, c, tagged, .array ⟨5⟩ tagged 2, function, act,
    .memberPointer ⟨8⟩ act tagged, .typedef ⟨9⟩ ⟨2⟩ "wide" word (some 16), .dependentArray ⟨10⟩ word]

/-- The same types with no sugar but the typedef that has an alignment. -/
def bareTypes : List Ty :=
  let int := .scalar ⟨0⟩ (.integer .int .signed)
  let c := .record ⟨2⟩ ⟨0⟩
  let function := .function ⟨4⟩ int [] false
  [int, .enumeration ⟨1⟩ ⟨0⟩ "E" int, c, .array ⟨3⟩ c 2, function, .memberPointer ⟨5⟩ function c,
    .typedef ⟨6⟩ ⟨0⟩ "wide" int (some 16), .dependentArray ⟨7⟩ int]

def spelledHolders (os : Os) : Setting := holders os spelledTypes 1 [2, 5, 8, 9] 10

def bareHolders (os : Os) : Setting := holders os bareTypes 0 [1, 3, 5, 6] 7

theorem spelledHolders_catalog (os : Os) : (spelledHolders os).tree.Catalog spelledTypes :=
  holders_catalog os rfl (by simp [spelledTypes, Ty.parts]) (by decide)

theorem bareHolders_catalog (os : Os) : (bareHolders os).tree.Catalog bareTypes :=
  holders_catalog os rfl (by simp [bareTypes, Ty.parts]) (by decide)

theorem spelledHolders_unsugared (os : Os) :
    (spelledHolders os).unsugared = (bareHolders os).unsugared := by
  simp [spelledHolders, bareHolders, holders, Setting.unsugared, Tree.unsugared, Record.unsugared,
    Definition.unsugared, Field.unsugared, Record.ofClass, spelledTypes, bareTypes, Ty.unsugared,
    Ty.unsugaredAll]

/-- For Windows, `D` has the same layout with sugar and without, and the fault of `T` is the same but
for the text that spells its type. -/
theorem sugar_unseen_spelledTwice :
    let s := spelledHolders .windows
    let s' := bareHolders .windows
    s.tree.Catalog spelledTypes ∧ s'.tree.Catalog bareTypes ∧ s.unsugared = s'.unsugared ∧
      ((s.known s.depth).record ⟨1⟩).toOption.map (·.fieldOffsets) = some [0, 32, 128, 256] ∧
      (s.known s.depth).record ⟨2⟩ = .error (.breach (.dependentType "word [N]")) ∧
      (s'.known s'.depth).record ⟨2⟩ = .error (.breach (.dependentType "int [N]")) ∧
      (∀ r, ((s.known s.depth).record r).kind = ((s'.known s'.depth).record r).kind) ∧
      (∀ type ∈ spelledTypes, ∀ type' ∈ bareTypes, type.unsugared = type'.unsugared →
        ((s.known s.depth).type type).kind = ((s'.known s'.depth).type type').kind) ∧
      ∀ type ∈ spelledTypes, type.isRealigned = false →
        (s.known s.depth).type type = (s.known s.depth).type type.canonical :=
  ⟨spelledHolders_catalog _, bareHolders_catalog _, spelledHolders_unsugared _, by decide +kernel,
    by decide +kernel, by decide +kernel,
    sugar_unseen (spelledHolders_catalog _) (bareHolders_catalog _) (spelledHolders_unsugared _)⟩

end ObjectLayout
