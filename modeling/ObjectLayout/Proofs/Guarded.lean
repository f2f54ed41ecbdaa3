import ObjectLayout.Proofs.Itanium.Arithmetic
import ObjectLayout.Proofs.Members.Offsets
import ObjectLayout.Proofs.Microsoft.Arithmetic
import ObjectLayout.Proofs.Obstacles
import ObjectLayout.Proofs.Session.Failure
import ObjectLayout.Proofs.Session.Requests
import ObjectLayout.Proofs.Subtraction

/-! Records that pass the check before an offset query. -/
namespace ObjectLayout

open Quantity (isPowerOfTwo)

variable {s : Setting} {types : List Ty} {r m : RecordId}

/-- Finished declarations without bases, whose records do not contain themselves; whatever asks for an
alignment asks for a power of two, and bit-fields have integer types. -/
structure Setting.IsCheckable (s : Setting) (types : List Ty) : Prop where
  catalog : s.tree.Catalog types
  acyclic : ∀ r, Grounded s.tree.Encloses r
  unsupplied : s.supplied = none
  bases : ∀ r, (s.tree.record r).bases = []
  powers : ∀ r, (s.tree.record r).HasPowerAttributes
  packStruct : ∀ n ∈ s.options.packStruct, isPowerOfTwo n = true
  integer : s.HasIntegerBitFields

namespace Setting.IsCheckable

variable (checkable : s.IsCheckable types)
include checkable

theorem itanium (rules : s.usesMicrosoftLayout = false) : s.IsItanium :=
  ⟨rules, fun r => by simp [suppliedLayout?, checkable.unsupplied]⟩

section Record

variable (accepts : s.Accepts r) (within : s.ShowsWithin r)
variable (enclosed : ∀ m, s.tree.Encloses r m → Arithmetic ((s.known s.depth).record m))
include accepts within enclosed

theorem field_arithmetic {field : Field} (member : field ∈ (s.tree.record r).fields) :
    Arithmetic ((s.known s.depth).type field.type) :=
  type_arithmetic checkable.catalog (checkable.catalog.fields r field member)
    (accepts.free (checkable.acyclic r) (within.obstacles r .refl) member)
    fun m encloses => enclosed m (.of_field member encloses)

theorem microsoft_suits (rules : s.usesMicrosoftLayout = true) :
    (Microsoft.Frame.ofRecord s r).Suits (s.known s.depth) where
  powers := Microsoft.hasPowers rules ⟨fun m _ => checkable.powers m, checkable.packStruct⟩
  bases := checkable.bases r
  type _ member := checkable.field_arithmetic accepts within enclosed member
  record _ member m encloses := enclosed m (.of_field member encloses)

theorem itanium_suits (rules : s.usesMicrosoftLayout = false) :
    (Itanium.Frame.ofRecord s r none).Suits (s.known s.depth) where
  unsupplied := rfl
  bases := checkable.bases r
  packed := Itanium.ofRecord_packsToPowers (checkable.powers r).pack checkable.packStruct
  declared := (checkable.powers r).alignment
  boundary := within.boundary rules
  field field member := by
    have own := checkable.powers r
    have none := (accepts.checked (checkable.acyclic r) member).1
    constructor
    case asked => exact own.field field member
    case type =>
      refine (checkable.field_arithmetic accepts within enclosed member).remember.imp ?_
      rintro layout ⟨laid, -⟩
      refine s.type_power (own.typedef field member) (fun m _ depth layout laid => ?_) laid
      exact ((known_knows rules depth).wellFormed (checkable.itanium rules) laid).power
    case complete => exact (Query.obstacle?_eq_none_iff.mp none).2.1
    case floor => exact within.scalars rules r .refl field member
    case unit =>
      intro isBitField layout laid
      exact type_width_power (checkable.integer r field member isBitField) laid

end Record

/-- By induction on what a record encloses: its layout fails in the arithmetic alone. -/
theorem record_arithmetic (accepts : s.Accepts r) (within : s.ShowsWithin r) :
    Arithmetic ((s.known s.depth).record r) := by
  refine (checkable.acyclic r).induct (motive := fun r => s.Accepts r → s.ShowsWithin r →
    Arithmetic ((s.known s.depth).record r)) ?_ accepts within
  intro r grounded ih accepts within
  have enclosed (m : RecordId) (edge : s.tree.Encloses r m) : Arithmetic ((s.known s.depth).record m) :=
    ih m edge (accepts.enclosed grounded (within.obstacles r .refl) (checkable.bases r) edge)
      (within.lower edge)
  rw [(known_agrees_depth checkable.catalog).record r]
  refine RecordLayout.ofRecord_arithmetic accepts.complete ?_
  cases rules : s.usesMicrosoftLayout with
  | true =>
    exact Microsoft.byRules_arithmetic rules (checkable.microsoft_suits accepts within enclosed rules)
  | false =>
    refine Itanium.byRules_arithmetic (known_knows rules s.depth) (checkable.itanium rules)
      (checkable.itanium_suits accepts within enclosed rules) fun m holds => enclosed m ?_
    rcases List.mem_append.mp holds with inherited | held
    · rw [checkable.bases r] at inherited
      cases inherited
    · obtain ⟨field, member, names⟩ := List.mem_filterMap.mp held
      exact .of_field member (Ty.enclosedRecord?_of_baseElement names)

/-- Nothing but an overflow keeps an accepted record from its layout. -/
theorem record_overflow (accepts : s.Accepts r) (within : s.ShowsWithin r) :
    OnlyOverflows ((s.known s.depth).record r) := by
  have asks : s.BitFieldsAskForPowers := fun r field member _ => (checkable.powers r).typedef field member
  refine (checkable.record_arithmetic accepts within).overflow ?_
  exact NoUnderflow.iff_ne.mp ((checkable.integer.spares asks s.depth).1.record r)

end Setting.IsCheckable

section Offsets

open Relation (ReflTransGen)

variable {name : String} {chain : List FieldRef} {field : FieldRef} {depth : Nat}

theorem Tree.Embeds.encloses {tree : Tree} (edge : tree.Embeds r m) : tree.Encloses r m := by
  obtain ⟨field, member, anonymous⟩ := edge
  exact .of_field member (Ty.enclosedRecord?_of_baseElement anonymous.names)

/-- A chain runs through records that the record encloses, and names fields that they have. -/
theorem Tree.IsChain.inside {tree : Tree} (h : tree.IsChain name r chain) : ∀ field ∈ chain,
    ReflTransGen tree.Encloses r field.record ∧
      field.index < (tree.record field.record).fields.length := by
  induction h with
  | here found _ =>
    rintro field member
    cases List.mem_singleton.mp member
    exact ⟨.refl, (List.getElem?_eq_some_iff.mp found).1⟩
  | through found anonymous _ ih =>
    rintro field member
    rcases List.mem_cons.mp member with rfl | member
    · exact ⟨.refl, (List.getElem?_eq_some_iff.mp found).1⟩
    · obtain ⟨path, inside⟩ := ih field member
      exact ⟨.head (Embeds.encloses ⟨_, List.mem_of_getElem? found, anonymous⟩) path, inside⟩

namespace Query

theorem fieldOffset_overflows
    (laid : OnlyOverflows ((s.known depth).record field.record))
    (inside : field.index < (s.tree.record field.record).fields.length) :
    OnlyOverflows ((fieldOffset field).eval (s.known depth)) := by
  unfold fieldOffset
  refine LayoutM.ends_bind (G := fun layout => (s.known depth).record field.record = .ok layout) ?_ ?_
  · rw [LayoutM.eval_layoutOf]
    exact laid.remember.imp fun _ => And.left
  · intro layout laid
    rw [← RecordLayout.ofRecord_counted (s.known_record laid)] at inside
    rw [LayoutM.eval_lift, RecordLayout.fieldOffset, List.getElem?_eq_getElem inside]
    exact trivial

theorem indirectFieldOffset_overflows (each : ∀ field ∈ chain,
      OnlyOverflows ((fieldOffset field).eval (s.known depth))) :
    OnlyOverflows ((indirectFieldOffset chain).eval (s.known depth)) := by
  unfold indirectFieldOffset
  rw [LayoutM.eval_foldlM]
  refine Ends.foldlM_keeps trivial fun field member total _ => ?_
  refine LayoutM.ends_bind (each field member) fun offset _ => ?_
  rw [LayoutM.eval_lift]
  exact OnlyOverflows.fit _

end Query

namespace Setting.IsCheckable

variable (checkable : s.IsCheckable types)
include checkable

theorem accepts_enclosed (accepts : s.Accepts r) (within : s.ShowsWithin r)
    (path : ReflTransGen s.tree.Encloses r m) : s.Accepts m ∧ s.ShowsWithin m := by
  induction path with
  | refl => exact ⟨accepts, within⟩
  | @tail c _ _ edge ih =>
    obtain ⟨accepts, within⟩ := ih
    exact ⟨accepts.enclosed (checkable.acyclic c) (within.obstacles c .refl) (checkable.bases c) edge,
      within.lower edge⟩

theorem chain_overflows (accepts : s.Accepts r) (within : s.ShowsWithin r)
    (isChain : s.tree.IsChain name r chain) : ∀ field ∈ chain,
      OnlyOverflows ((Query.fieldOffset field).eval (s.known s.depth)) := by
  intro field member
  obtain ⟨path, inside⟩ := isChain.inside field member
  obtain ⟨accepts, within⟩ := checkable.accepts_enclosed accepts within path
  exact Query.fieldOffset_overflows (checkable.record_overflow accepts within) inside

/-- Every offset is answered or refused, unless a number on the way is too large. -/
theorem offsetOf_overflows {type : Ty}
    (within : ∀ r, type.declaration? = some (.record r) → s.ShowsWithin r) (name : String) :
    OnlyOverflows ((Query.offsetOf s type name).eval (s.known s.depth)) := by
  unfold Query.offsetOf
  cases parent : Query.fieldParent s type with
  | error error => trivial
  | ok r =>
    obtain ⟨names, accepts⟩ := Query.fieldParent_accepts parent
    have acyclic : Grounded s.tree.Embeds r :=
      (checkable.acyclic r).mono fun _ _ => Tree.Embeds.encloses
    -- What is found, apart from methods, is a chain.
    have isChain {member : Member} (found : s.tree.lookup name r = [member])
        (hidden : ∀ m, member ≠ .method m) : ∃ chain, member = .ofChain chain ∧
          s.tree.IsChain name r chain := by
      have listed : member ∈ s.tree.lookup name r := found ▸ List.mem_singleton_self _
      rw [Tree.lookup_eq acyclic, List.mem_append] at listed
      rcases listed with chain | method
      · obtain ⟨chain, there, same⟩ := List.mem_map.mp chain
        exact ⟨chain, same.symm, (Tree.mem_chains_iff acyclic).mp there⟩
      · obtain ⟨m, _, same⟩ := List.mem_map.mp method
        exact absurd same.symm (hidden m)
    dsimp only
    split
    case h_1 field found =>
      obtain ⟨chain, same, isChain⟩ := isChain found nofun
      have member : field ∈ chain := by
        match chain, same with
        | [_], rfl => exact List.mem_singleton_self _
      exact LayoutM.ends_bind (checkable.chain_overflows accepts (within r names) isChain field member)
        fun _ _ => trivial
    case h_2 chain found =>
      obtain ⟨chain', same, isChain⟩ := isChain found nofun
      obtain rfl : chain = chain' := by
        match chain' with
        | [_] => cases same
        | [] | _ :: _ :: _ => exact Member.indirectField.inj same
      refine LayoutM.ends_bind (Query.indirectFieldOffset_overflows ?_) fun _ _ => trivial
      exact checkable.chain_overflows accepts (within r names) isChain
    case h_3 => trivial

theorem offsetOfField_overflows (within : s.ShowsWithin field.record)
    (inside : field.index < (s.tree.record field.record).fields.length) :
    OnlyOverflows ((Query.offsetOfField s (.field field)).eval (s.known s.depth)) := by
  unfold Query.offsetOfField
  dsimp only
  cases parent : Query.fieldParent s (s.tree.recordType field.record) with
  | error error => trivial
  | ok r =>
    obtain ⟨names, accepts⟩ := Query.fieldParent_accepts parent
    cases names
    exact LayoutM.ends_bind (Query.fieldOffset_overflows (checkable.record_overflow accepts within)
      inside) fun _ _ => trivial

end Setting.IsCheckable

end Offsets

open Relation (ReflTransGen)
open Session (outcome left run Reachable)

/-- Something in a record or in what it encloses has no layout. -/
def Setting.IsObstructed (s : Setting) (r : RecordId) : Prop :=
  ∃ m, ReflTransGen s.tree.Encloses r m ∧ ((s.tree.record m).isComplete = false ∨
    ∃ field ∈ (s.tree.record m).fields, field.type.isObstructed s.tree = true)

section Sessions

variable {reporting : Reporting} {memory : Memory} {type : Ty}

/-- How a session answers queries for the offsets of fields in a type. -/
structure Session.GuardsOffsets (s : Setting) (reporting : Reporting) (memory : Memory) (type : Ty) :
    Prop where
  /-- A record that passes the check is laid out. -/
  accepted : ∀ r, Query.fieldParent s type = .ok r →
    OnlyOverflows (outcome (run s reporting (LayoutM.layoutOf r) memory))
  /-- Whatever stops the layout of a record is reported. -/
  reported : ∀ r, type.declaration? = some (.record r) →
    s.IsObstructed r ∨ (∃ fault, fault ≠ .overflow ∧
      outcome (run s reporting (LayoutM.layoutOf r) memory) = .error fault) →
    ∃ error : QueryError, error.IsObstacle ∧ ∀ name,
      outcome (run s reporting (Query.offsetOf s type name) memory) = .ok (.error error)
  offsetOf : ∀ name, OnlyOverflows (outcome (run s reporting (Query.offsetOf s type name) memory))
  offsetOfField : ∀ field : FieldRef, type.declaration? = some (.record field.record) →
    field.index < (s.tree.record field.record).fields.length →
    OnlyOverflows (outcome (run s reporting (Query.offsetOfField s (.field field)) memory))

theorem Setting.IsCheckable.not_isObstructed (checkable : s.IsCheckable types) (accepts : s.Accepts r)
    (within : s.ShowsWithin r) : ¬ s.IsObstructed r := by
  rintro ⟨m, path, obstacle⟩
  obtain ⟨accepts, within⟩ := checkable.accepts_enclosed accepts within path
  rcases obstacle with incomplete | ⟨field, member, obstructed⟩
  · exact Bool.false_ne_true (incomplete.symm.trans accepts.complete)
  · have free := accepts.free (checkable.acyclic m) (within.obstacles m .refl) member
    exact Bool.false_ne_true (free.symm.trans obstructed)

section Reached

variable (checkable : s.IsCheckable types)
include checkable

theorem Session.sound_of_checkable (reachable : Reachable s types reporting memory) :
    memory.Sound s types := by
  induction reachable with
  | fresh => exact Memory.fresh_sound
  | step before asks sound =>
    exact (run_serves_shown checkable.catalog checkable.integer checkable.unsupplied reporting asks
      sound).1

/-- A session ends as the computation does, or else with an overflow in a dump. -/
theorem Session.run_overflows {x : LayoutM α} (reachable : Reachable s types reporting memory)
    (asks : x.AsksOnly (· ∈ types)) (ends : OnlyOverflows (x.eval (s.known s.depth))) :
    OnlyOverflows (outcome (run s reporting x memory)) := by
  obtain ⟨_, _, same | ⟨_, overflow⟩⟩ := run_serves_shown checkable.catalog checkable.integer
    checkable.unsupplied reporting asks (sound_of_checkable checkable reachable)
  · rwa [same]
  · rw [overflow]
    exact rfl

end Reached

/-- Where nothing hides from the check before an offset query, no such query ends in anything but an
answer, a failure of its own, or an overflow: the records that pass have layouts, and what keeps a
record from one is reported. -/
theorem offset_queries_guarded (checkable : s.IsCheckable types)
    (reachable : Reachable s types reporting memory) (type : Ty)
    (within : ∀ r, type.declaration? = some (.record r) → s.ShowsWithin r) :
    Session.GuardsOffsets s reporting memory type := by
  have accepted (r : RecordId) (parent : Query.fieldParent s type = .ok r) :
      OnlyOverflows (outcome (run s reporting (LayoutM.layoutOf r) memory)) := by
    obtain ⟨names, accepts⟩ := Query.fieldParent_accepts parent
    refine Session.run_overflows checkable reachable (.layoutOf r) ?_
    rw [LayoutM.eval_layoutOf]
    exact checkable.record_overflow accepts (within r names)
  constructor
  case accepted => exact accepted
  case reported =>
    intro r names obstacle
    cases parent : Query.fieldParent s type with
    | error error =>
      refine ⟨error, Query.fieldParent_isObstacle parent, fun name => ?_⟩
      have refused : Query.offsetOf s type name = pure (.error error) := by
        unfold Query.offsetOf
        rw [parent]
      rw [refused]
      rfl
    | ok r' =>
      obtain ⟨names', accepts⟩ := Query.fieldParent_accepts parent
      cases names.symm.trans names'
      rcases obstacle with obstructed | ⟨fault, other, failed⟩
      · exact absurd obstructed (checkable.not_isObstructed accepts (within r names))
      · exact absurd ((accepted r parent).fault failed) other
  case offsetOf =>
    intro name
    exact Session.run_overflows checkable reachable (Request.offsetOf_asks type name)
      (checkable.offsetOf_overflows within name)
  case offsetOfField =>
    intro field names inside
    exact Session.run_overflows checkable reachable (Request.offsetOfField_asks _)
      (checkable.offsetOfField_overflows (within field.record names) inside)

end Sessions

/-- `S` has an `int` and an array of two `P`; `T` has an `int` and a `P`. -/
def heldParts (isDefined isInvalid : Bool) : Setting :=
  let int : Ty := .scalar ⟨0⟩ (.integer .int .signed)
  let member (name : String) (type : Ty) : Field := { name, type }
  Setting.linux [
    { name := "P", kind := .struct, typeId := ⟨1⟩, isInvalid, definition :=
      if isDefined then some { fields := [{ member "b" int with bitWidth := some 3 }] } else none },
    .ofFields "S" [member "n" int, member "a" (.array ⟨2⟩ (.record ⟨1⟩ ⟨0⟩) 2)],
    .ofFields "T" [member "n" int, member "p" (.record ⟨1⟩ ⟨0⟩)]] []

theorem heldParts_checkable (isDefined isInvalid : Bool) : (heldParts isDefined isInvalid).IsCheckable
    [.scalar ⟨0⟩ (.integer .int .signed), .record ⟨1⟩ ⟨0⟩, .array ⟨2⟩ (.record ⟨1⟩ ⟨0⟩) 2] where
  catalog := by
    refine .of_lists rfl rfl (by simp [Ty.parts]) ?_
    cases isDefined <;> simp [heldParts, Setting.linux, Record.ofFields, Record.fields]
  acyclic := Tree.grounded_of_earlier (by cases isDefined <;> cases isInvalid <;> decide)
  unsupplied := rfl
  bases := by
    refine Tree.forall_record (P := fun record => record.bases = []) ?_ (by decide)
    cases isDefined <;> cases isInvalid <;> decide
  powers := by
    refine Tree.forall_record (P := Record.HasPowerAttributes) ?_ (by decide)
    cases isDefined <;> cases isInvalid <;> decide
  packStruct := nofun
  integer := by
    refine Tree.forall_record ?_ (by decide)
    cases isDefined <;> cases isInvalid <;> decide +kernel

theorem heldParts_showsWithin (isDefined : Bool) (r : RecordId) :
    (heldParts isDefined false).ShowsWithin r where
  obstacles m _ := by
    refine Tree.forall_record (P := (heldParts isDefined false).ShowsObstacles) ?_ ?_ m <;>
      cases isDefined <;> decide +kernel
  scalars _ m _ field _ := by
    have plain : ((heldParts isDefined false).tree.record m).attributes.isMsStruct = false := by
      refine Tree.forall_record (P := fun record => record.attributes.isMsStruct = false) ?_ (by decide) m
      cases isDefined <;> decide
    refine .inl (if_pos ?_)
    rw [Bool.not_eq_true', Itanium.Frame.ofRecord, plain]
    rfl
  boundary _ := by
    left
    cases isDefined <;> rfl

/-- The memory of a session that has been asked for the layout of `P`. -/
def afterPart (isDefined : Bool) : Memory :=
  left (run (heldParts isDefined false) {} (LayoutM.layoutOf ⟨0⟩) (.fresh {}))

/-- With a definition of `P` the check accepts `S`; without one it refuses it. -/
theorem offset_queries_guarded_heldParts :
    (∀ isDefined type,
      Session.GuardsOffsets (heldParts isDefined false) {} (afterPart isDefined) type) ∧
    Query.fieldParent (heldParts true false) (.record ⟨3⟩ ⟨1⟩) = .ok ⟨1⟩ ∧
    outcome (run (heldParts true false) {}
      (Query.offsetOf (heldParts true false) (.record ⟨3⟩ ⟨1⟩) "a") (afterPart true)) = .ok (.ok 32) ∧
    ∃ error : QueryError, error.IsObstacle ∧ ∀ name,
      outcome (run (heldParts false false) {}
        (Query.offsetOf (heldParts false false) (.record ⟨3⟩ ⟨1⟩) name) (afterPart false)) =
          .ok (.error error) := by
  have guarded (isDefined : Bool) (type : Ty) :
      Session.GuardsOffsets (heldParts isDefined false) {} (afterPart isDefined) type :=
    offset_queries_guarded (heldParts_checkable isDefined false)
      (.step .fresh (x := LayoutM.layoutOf ⟨0⟩) (.layoutOf _)) type fun r _ =>
        heldParts_showsWithin isDefined r
  refine ⟨guarded, by decide +kernel, by decide +kernel, ?_⟩
  refine (guarded false _).reported ⟨1⟩ rfl (.inl ⟨⟨0⟩, .single ?_, .inl rfl⟩)
  exact .of_field (.tail _ (.head _)) rfl

/-- Nothing in the check looks for an invalid record in an array: where `P` is one, `S` passes and its
layout ends in a fault, which `T` is refused to avoid. -/
theorem hidden_element_ends_offset_queries_heldParts :
    let s := heldParts true true
    Query.fieldParent s (.record ⟨3⟩ ⟨1⟩) = .ok ⟨1⟩ ∧
    outcome (run s {} (Query.offsetOf s (.record ⟨3⟩ ⟨1⟩) "n") (.fresh {})) =
      .error (.breach (.invalidRecord "struct P")) ∧
    outcome (run s {} (Query.offsetOfField s (.field ⟨⟨1⟩, 0⟩)) (.fresh {})) =
      .error (.breach (.invalidRecord "struct P")) ∧
    outcome (run s {} (Query.offsetOf s (.record ⟨4⟩ ⟨2⟩) "n") (.fresh {})) = .ok (.error .invalid) := by
  decide +kernel

/-- For 32-bit x86, with a boundary of three bytes for bit-fields: an `ms_struct` with a `long double`, and
a structure with a zero-width bit-field. -/
def oddAlignments : Setting :=
  let bits (name : Option String) (bitWidth : Bits) (type : Ty) : Field :=
    { name, type, bitWidth := some bitWidth }
  let int : Ty := .scalar ⟨2⟩ (.integer .int .signed)
  let records : List Record := [
    { name := "D", kind := .struct, typeId := ⟨1⟩, definition := some {
        fields := [{ name := "d", type := .scalar ⟨0⟩ (.float .longDouble) }]
        attributes := { isMsStruct := true } } },
    { name := "Z", kind := .struct, typeId := ⟨4⟩, definition := some {
        fields := [bits "a" 3 int, bits none 0 (.scalar ⟨3⟩ .plainChar), bits "b" 3 int] } }]
  let rules : BitFieldRules :=
    { typeAlignment := false, zeroLengthAlignment := true, zeroLengthBoundary := 24 }
  { tree := { records := ⟨records.toArray⟩, methods := ⟨#[]⟩, typeCount := 5 }
    target := { arch := some .x86, os := some .linux, forcedBitFieldRules := some rules } }

/-- Nor does the check look at what the rules align to without having been asked. -/
example :
    let s := oddAlignments
    Query.fieldParent s (.record ⟨1⟩ ⟨0⟩) = .ok ⟨0⟩ ∧
    Query.fieldParent s (.record ⟨4⟩ ⟨1⟩) = .ok ⟨1⟩ ∧
    outcome (run s {} (Query.offsetOf s (.record ⟨1⟩ ⟨0⟩) "d") (.fresh {})) =
      .error (.breach .alignmentNotPowerOfTwo) ∧
    outcome (run s {} (Query.offsetOf s (.record ⟨4⟩ ⟨1⟩) "a") (.fresh {})) =
      .error (.breach .alignmentNotPowerOfTwo) := by
  decide +kernel

end ObjectLayout
