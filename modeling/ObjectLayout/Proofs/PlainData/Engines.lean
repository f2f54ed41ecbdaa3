import ObjectLayout.Proofs.PlainData.Pile

/-! Both engines lay plain data out alike: from the same fields they make the same pile, since types
whose records are laid out alike are laid out alike. -/
namespace ObjectLayout

open Relation (ReflTransGen)

variable {s : Setting} {d r : RecordId}

/-- A type that has a width, whichever ABI it is laid out under. -/
def Setting.GivesWidth (s : Setting) (type : Ty) : Prop :=
  ∃ abi depth layout, ((s.under abi).known depth).type type = .ok layout ∧ layout.width ≠ 0

/-- A record and what it encloses are plain data, nothing but fields decides how they are laid out, and
none of them is empty. -/
structure Setting.PlainDataWithin (s : Setting) (d : RecordId) : Prop where
  packStruct : s.options.packStruct = none
  msBitFields : s.options.msBitFields = false
  unsupplied : s.supplied = none
  record : ∀ m, ReflTransGen s.tree.Encloses d m → (s.tree.record m).IsPlainData
  filled : ∀ m, ReflTransGen s.tree.Encloses d m →
    ∃ field ∈ (s.tree.record m).fields, s.GivesWidth field.type

/-- Both engines take the same extents from fields of plain data. -/
theorem extents_alike {f : Itanium.Frame} (setting : f.setting = s.under .itanium)
    (notMs : f.isMsStruct = false) {good : RecordId → Prop} {depth : Nat}
    (below : ((s.under .itanium).known depth).Alike good ((s.under .microsoft).known depth))
    {fields : List Field} (plain : ∀ field ∈ fields, field.type.IsPlainData good)
    {extents extents' : List (Bytes × Bytes)}
    (take : List.Forall₂ (fun field extent => (Itanium.fieldExtent f field.type).eval
      ((s.under .itanium).known depth) = .ok extent) fields extents)
    (take' : List.Forall₂ (fun field extent => ∃ layout,
      ((s.under .microsoft).known depth).type field.type = .ok layout ∧
        extent = (layout.width, layout.alignment)) fields extents') : extents = extents' := by
  induction take generalizing extents' with
  | nil =>
    cases take'
    rfl
  | cons asked _ ih =>
    obtain _ | ⟨⟨layout, typed, rfl⟩, take'⟩ := take'
    rw [Itanium.fieldExtent_alike setting notMs below (plain _ List.mem_cons_self)
      Setting.known_type typed asked, ih (fun field member => plain field (.tail _ member)) take']

namespace Setting.PlainDataWithin

variable (h : s.PlainDataWithin d) (path : ReflTransGen s.tree.Encloses d r)
include h path

theorem fieldType {field : Field} (member : field ∈ (s.tree.record r).fields) :
    field.type.IsPlainData (ReflTransGen s.tree.Encloses d) :=
  ⟨(h.record r path).keepsAlignment field member, (h.record r path).avoidsMemberPointers field member,
    fun _ encloses => path.tail (.of_field member encloses)⟩

theorem isNatural : (Itanium.Frame.ofRecord (s.under .itanium) r none).IsNatural := by
  have own := h.record r path
  refine ⟨?_, ?_, ?_, own.unpacked⟩ <;>
    simp [Itanium.Frame.ofRecord, Setting.under, own.attributes, h.packStruct]

theorem notMsStruct : (Itanium.Frame.ofRecord (s.under .itanium) r none).isMsStruct = false := by
  have attributes := (h.record r path).attributes
  simp [Itanium.Frame.ofRecord, Setting.under, attributes, h.msBitFields]

theorem isUnpacked : (Microsoft.Frame.ofRecord (s.under .microsoft) r).IsUnpacked := by
  have own := h.record r path
  refine ⟨?_, own.unpacked, own.keepsAlignment⟩
  simp [Microsoft.Frame.ofRecord, Setting.under, own.attributes, h.packStruct]

variable {known : Known} {layout : RecordLayout}

/-- Under the Itanium ABI the layout is the pile of what the Itanium rules take for the fields. -/
theorem itanium_piles (laid : (RecordLayout.ofRecord (s.under .itanium) r).eval known = .ok layout) :
    ∃ extents, List.Forall₂ (fun field extent =>
        (Itanium.fieldExtent (.ofRecord (s.under .itanium) r none) field.type).eval known = .ok extent)
        (s.tree.record r).fields extents ∧
      ((Pile.ofExtents (s.tree.record r).isUnion extents).size ≠ 0 →
        layout.Piles (Pile.ofExtents (s.tree.record r).isUnion extents)) := by
  have own := h.record r path
  have unsupplied : (s.under .itanium).suppliedLayout? r = none := by
    simp [Setting.suppliedLayout?, Setting.under, h.unsupplied]
  have rules := (RecordLayout.ofRecord_itanium rfl laid).2
  have notClass : ¬ ((s.under .itanium).tree.record r).isClass = true := by
    simp [Setting.under, own.isPlain]
  rw [unsupplied, Itanium.layout, Itanium.layoutTracking_eq, if_neg notClass] at rules
  have unasked : (s.tree.record r).attributes.alignment = none := by rw [own.attributes]
  exact (Itanium.layPlain_piles (h.isNatural path) rfl unasked fun field member =>
    ⟨own.stored field member, own.unasked field member⟩).value rules

/-- Under the Microsoft ABI the layout is the pile of what the types of the fields take. -/
theorem microsoft_piles (types : ∀ {type layout}, known.type type = .ok layout →
      (TypeLayout.ofTy (s.under .microsoft) type).eval known = .ok layout)
    (records : ∀ {r layout}, known.record r = .ok layout →
      (RecordLayout.ofRecord (s.under .microsoft) r).eval known = .ok layout)
    (laid : (RecordLayout.ofRecord (s.under .microsoft) r).eval known = .ok layout) :
    ∃ extents, List.Forall₂ (fun field extent => ∃ layout, known.type field.type = .ok layout ∧
        extent = (layout.width, layout.alignment)) (s.tree.record r).fields extents ∧
      ((Pile.ofExtents (s.tree.record r).isUnion extents).size ≠ 0 →
        layout.Piles (Pile.ofExtents (s.tree.record r).isUnion extents)) := by
  have own := h.record r path
  have microsoft : (s.under .microsoft).usesMicrosoftLayout = true := by
    simp [Setting.usesMicrosoftLayout, Setting.under, Target.abi, h.unsupplied]
  have notClass : ((s.under .microsoft).tree.record r).isClass = false := own.isPlain
  have rules := RecordLayout.ofRecord_microsoft microsoft laid
  rw [Microsoft.layout_plain notClass] at rules
  have unasked : (s.tree.record r).attributes.alignment = none := by rw [own.attributes]
  exact (Microsoft.layPlain_piles (h.isUnpacked path) unasked types
    (fun _ _ laid => Microsoft.requiredAlignment_le microsoft (records laid))
    fun field member => ⟨own.stored field member, own.unasked field member⟩).value rules

/-- If what is known under both ABIs is alike, the layout of one more record is the same pile. -/
theorem exists_pile {depth : Nat} {layout' : RecordLayout}
    (below : ((s.under .itanium).known depth).Alike (ReflTransGen s.tree.Encloses d)
      ((s.under .microsoft).known depth))
    (laid : (RecordLayout.ofRecord (s.under .itanium) r).eval ((s.under .itanium).known depth)
      = .ok layout)
    (laid' : (RecordLayout.ofRecord (s.under .microsoft) r).eval ((s.under .microsoft).known depth)
      = .ok layout') :
    ∃ pile, layout.Piles pile ∧ layout'.Piles pile := by
  obtain ⟨extents, take, piles⟩ := h.itanium_piles path laid
  obtain ⟨extents', take', piles'⟩ :=
    h.microsoft_piles path Setting.known_type Setting.known_record laid'
  cases extents_alike rfl (h.notMsStruct path) below (fun _ => h.fieldType path) take take'
  have some : (Pile.ofExtents (s.tree.record r).isUnion extents).size ≠ 0 := by
    obtain ⟨field, member, abi, depth', layout, typed, wide⟩ := h.filled r path
    obtain ⟨index, bound, rfl⟩ := List.getElem_of_mem member
    have bound' := take.length_eq ▸ bound
    have plain := h.fieldType path member
    suffices extents[index].1 ≠ 0 from fun none =>
      this (Nat.le_zero.mp (none ▸ Pile.le_size (List.getElem_mem bound')))
    cases abi with
    | itanium =>
      have asked := take.get bound bound'
      rw [List.get_eq_getElem, List.get_eq_getElem] at asked
      rwa [Itanium.fieldExtent_alike rfl (h.notMsStruct path) (Setting.known_alike _ _ depth depth') plain
        Setting.known_type typed asked]
    | microsoft =>
      obtain ⟨layout', typed', same⟩ := take'.get bound bound'
      rw [List.get_eq_getElem] at typed' same
      rwa [same, (Setting.known_alike _ _ depth depth').type _ _ _ plain typed' typed]
  exact ⟨_, piles some, piles' some⟩

end Setting.PlainDataWithin

/-- What is known of plain data under the one ABI is what is known under the other. -/
theorem Setting.PlainDataWithin.known_alike (h : s.PlainDataWithin d) (depth : Nat) :
    ((s.under .itanium).known depth).Alike (ReflTransGen s.tree.Encloses d)
      ((s.under .microsoft).known depth) := by
  induction depth with
  | zero => exact ⟨fun _ _ _ _ laid => (nomatch laid), fun _ _ _ _ laid => (nomatch laid)⟩
  | succ depth ih =>
    constructor
    case record =>
      intro r layout layout' path laid laid'
      obtain ⟨pile, left, right⟩ := h.exists_pile path ih laid laid'
      exact ⟨left.size.trans right.size.symm, left.alignment.trans right.alignment.symm,
        left.fieldOffsets.trans right.fieldOffsets.symm⟩
    case type => exact fun type layout layout' plain => TypeLayout.ofTy_alike ih plain

/-- Plain data without empty records have the same size, alignment and field offsets under both ABIs, on
any target. -/
theorem plain_data_laid_out_alike {depth depth' : Nat} {layout layout' : RecordLayout}
    (plain : s.PlainDataWithin r) (laid : ((s.under .itanium).known depth).record r = .ok layout)
    (laid' : ((s.under .microsoft).known depth').record r = .ok layout') :
    layout.size = layout'.size ∧ layout.alignment = layout'.alignment ∧
      layout.fieldOffsets = layout'.fieldOffsets :=
  (plain.known_alike (max depth depth')).record r layout layout' .refl
    ((Setting.known_le _ (Nat.le_max_left _ _)).record r layout laid)
    ((Setting.known_le _ (Nat.le_max_right _ _)).record r layout' laid')

/-- C declarations for 32-bit Windows: a structure, a union with an array of it, and a structure that holds
the union between a vector, a complex number, a pointer and an array of unknown length. -/
def nestedPlainData : Setting where
  tree := {
    records := ⟨#[
      .ofFields "Leaf" [
        { name := "c", type := .scalar ⟨0⟩ .plainChar },
        { name := "d", type := .scalar ⟨1⟩ (.float .double) },
        { name := "s", type := .scalar ⟨2⟩ (.integer .short .signed) }],
      .ofFields "Choice" [
        { name := "w", type := .scalar ⟨3⟩ .wideChar },
        { name := "l", type := .array ⟨4⟩ (.record ⟨5⟩ ⟨0⟩) 2 }] .union,
      .ofFields "Outer" [
        { name := "b", type := .scalar ⟨6⟩ .bool },
        { name := "z", type := .complex ⟨7⟩ (.scalar ⟨8⟩ (.float .single)) },
        { name := "u", type := .typedef ⟨9⟩ ⟨0⟩ "choice" (.record ⟨10⟩ ⟨1⟩) none },
        { name := "p", type := .pointer ⟨11⟩ (.record ⟨12⟩ ⟨2⟩) },
        { name := "v", type := .vector ⟨13⟩ (.scalar ⟨14⟩ (.integer .int .signed)) 3 },
        { name := "r", type := .incompleteArray ⟨15⟩ (.scalar ⟨14⟩ (.integer .int .signed)) }]]⟩
    methods := ⟨#[]⟩
    typeCount := 16 }
  target := { arch := some .x86, os := some .windows }

theorem nestedPlainData_plain : nestedPlainData.PlainDataWithin ⟨2⟩ := by
  have reached {m : RecordId} (path : ReflTransGen nestedPlainData.tree.Encloses ⟨2⟩ m) :
      m ∈ ([⟨0⟩, ⟨1⟩, ⟨2⟩] : List RecordId) := by
    apply Tree.mem_of_encloses _ (by decide) path
    decide
  have gives (type : Ty) (scalar : Scalar) (id : TypeId) (same : type = .scalar id scalar)
      (wide : ((nestedPlainData.under .itanium).target.scalarLayout scalar).width ≠ 0) :
      nestedPlainData.GivesWidth type := by
    subst same
    exact ⟨.itanium, 1, _, rfl, wide⟩
  constructor
  case packStruct | msBitFields | unsupplied => rfl
  case record => exact fun m _ => Tree.forall_record (by decide) (by decide) m
  case filled =>
    intro m path
    obtain rfl | rfl | rfl : m = ⟨0⟩ ∨ m = ⟨1⟩ ∨ m = ⟨2⟩ := by simpa using reached path
    all_goals exact ⟨_, List.mem_cons_self, gives _ _ _ rfl (by decide)⟩

theorem plain_data_laid_out_alike_nestedPlainData : ∃ layout layout',
    ((nestedPlainData.under .itanium).known 9).record ⟨2⟩ = .ok layout ∧
      ((nestedPlainData.under .microsoft).known 9).record ⟨2⟩ = .ok layout' ∧
      layout.fieldOffsets = [0, 32, 128, 512, 640, 768] ∧ layout.size = layout'.size ∧
      layout.alignment = layout'.alignment ∧ layout.fieldOffsets = layout'.fieldOffsets := by
  obtain ⟨layout, laid⟩ := exists_ok (by decide +kernel :
    (((nestedPlainData.under .itanium).known 9).record ⟨2⟩).isOk = true)
  obtain ⟨layout', laid'⟩ := exists_ok (by decide +kernel :
    (((nestedPlainData.under .microsoft).known 9).record ⟨2⟩).isOk = true)
  have places : (((nestedPlainData.under .itanium).known 9).record ⟨2⟩).map (·.fieldOffsets) =
      .ok [0, 32, 128, 512, 640, 768] := by
    decide +kernel
  rw [laid] at places
  exact ⟨layout, layout', laid, laid', Except.ok.inj places,
    plain_data_laid_out_alike nestedPlainData_plain laid laid'⟩

end ObjectLayout
