import ObjectLayout.Proofs.Itanium.Separation
import ObjectLayout.Proofs.Remembered

/-! The complete objects inside an object: the object itself, and the members of class type at any
depth. Empty subobjects of one class stay apart in the whole object exactly where they do among the
bases that are placed together, in every one of the complete objects. That is not always so: a claim
that is made in a derived class can put a virtual base where the layouts of the bases never had it. -/
namespace ObjectLayout

/-- An object of class `c` has a member of class `m`, of its own or in one of its bases. -/
def Setting.HasMember (s : Setting) (c m : RecordId) : Prop :=
  ∃ (e : RecordId) (index element : Nat) (field : Field),
    Relation.ReflTransGen s.tree.Inherits c e ∧ (s.tree.record e).fields[index]? = some field ∧
      field.bitWidth = none ∧ field.type.Contains element m ∧ (s.tree.record m).isClass = true

/-- Nothing meets what it is placed together with in a complete object of the class. -/
def PlacedApart (s : Setting) (known : Known) (m : RecordId) : Prop :=
  ∀ layout g, known.record m = .ok layout →
    Itanium.graphOf s known m layout.virtualPrimaryBase? = .ok g → ClaimsClear s known m g

variable {s : Setting} {known : Known} {d c m : RecordId} {layout : RecordLayout} {depth : Nat}

namespace Setting.HasMember

theorem isClass (h : s.HasMember c m) : (s.tree.record m).isClass = true :=
  let ⟨_, _, _, _, _, _, _, _, isClass⟩ := h
  isClass

theorem holds (h : s.HasMember c m) : Relation.TransGen s.Holds c m := by
  obtain ⟨e, index, element, field, inherits, found, stored, contains, isClass⟩ := h
  have above : Relation.ReflTransGen s.Holds c e :=
    Relation.ReflTransGen.mono (fun _ _ edge => Tree.Inherits.holds edge) _ _ inherits
  exact .tail' above (contains.holds (List.mem_of_getElem? found))

end Setting.HasMember

theorem membersSeparated_iff :
    MembersSeparated s known c ↔ ∀ m, s.HasMember c m → Separated s known m true := by
  constructor
  · rintro apart m ⟨e, index, element, field, inherits, found, stored, contains, isClass⟩
    exact apart e index element field m inherits found stored contains isClass
  · intro apart e index element field m inherits found stored contains isClass
    exact apart m ⟨e, index, element, field, inherits, found, stored, contains, isClass⟩

/-- A complete object that is inside another one is laid out, and holds no union either. -/
structure Setting.LaidOut (s : Setting) (known : Known) (m : RecordId) : Prop where
  isClass : (s.tree.record m).isClass = true
  laid : ∃ layout, known.record m = .ok layout
  notUnion : ∀ c, Relation.ReflTransGen s.Holds m c → (s.tree.record c).isUnion = false

namespace Setting.LaidOut

theorem member (h : s.LaidOut known c) (knows : s.Knows known) (has : s.HasMember c m) :
    s.LaidOut known m where
  isClass := has.isClass
  laid := knows.reached h.laid has.holds.to_reflTransGen
  notUnion e path := h.notUnion e (has.holds.to_reflTransGen.trans path)

theorem member_all (h : s.LaidOut known c) (knows : s.Knows known)
    (path : Relation.ReflTransGen s.HasMember c m) : s.LaidOut known m := by
  induction path with
  | refl => exact h
  | tail _ has ih => exact ih.member knows has

/-- For one complete object, with its members left to themselves. -/
theorem separated_iff (h : s.LaidOut (s.known depth) m) (itanium : s.IsItanium)
    (cplusplus : s.options.cplusplus = true) : Separated s (s.known depth) m true ↔
      MembersSeparated s (s.known depth) m ∧ PlacedApart s (s.known depth) m := by
  obtain ⟨layout, laid⟩ := h.laid
  have notUnion (c : RecordId) (path : Relation.ReflTransGen s.tree.Inherits m c) :=
    h.notUnion c (Relation.ReflTransGen.mono (fun _ _ edge => Tree.Inherits.holds edge) _ _ path)
  obtain ⟨g, computed, apart⟩ :=
    ObjectLayout.separated_iff itanium cplusplus h.isClass notUnion laid
  rw [apart]
  apply and_congr_right'
  constructor
  · intro clear layout' g' laid' computed'
    cases laid.symm.trans laid'
    cases computed.symm.trans computed'
    exact clear
  · exact fun placed => placed layout g laid computed

/-- From the innermost complete objects outwards. -/
theorem separated (h : s.LaidOut (s.known depth) d) (itanium : s.IsItanium)
    (cplusplus : s.options.cplusplus = true)
    (placed : ∀ m, Relation.ReflTransGen s.HasMember d m → PlacedApart s (s.known depth) m) :
    Separated s (s.known depth) d true := by
  have knows := Setting.known_knows itanium.rules depth
  obtain ⟨layout, laid⟩ := h.laid
  have grounded := (knows.grounded laid).transGen
  clear layout laid
  induction grounded with
  | intro d _ ih =>
    refine (h.separated_iff itanium cplusplus).mpr ⟨?_, placed d .refl⟩
    refine membersSeparated_iff.mpr fun m has => ?_
    exact ih m has.holds (h.member knows has) fun inner path => placed inner (.head has path)

/-- From the object itself inwards. -/
theorem placedApart (h : s.LaidOut (s.known depth) d) (itanium : s.IsItanium)
    (cplusplus : s.options.cplusplus = true) (apart : Separated s (s.known depth) d true)
    (path : Relation.ReflTransGen s.HasMember d m) : PlacedApart s (s.known depth) m := by
  have knows := Setting.known_knows itanium.rules depth
  suffices Separated s (s.known depth) m true from
    (((h.member_all knows path).separated_iff itanium cplusplus).mp this).2
  induction path with
  | refl => exact apart
  | @tail c m above has ih =>
    have outer := h.member_all knows above
    exact membersSeparated_iff.mp ((outer.separated_iff itanium cplusplus).mp ih).1 m has

end Setting.LaidOut

/-- No two subobjects of the same empty class share an address, if and only if in no complete object
inside the object something meets what it is placed together with. -/
theorem empty_subobjects_apart_iff (itanium : s.IsItanium) (cplusplus : s.options.cplusplus = true)
    (isClass : (s.tree.record d).isClass = true) (laid : (s.known depth).record d = .ok layout)
    (notUnion : ∀ c, Relation.ReflTransGen s.Holds d c → (s.tree.record c).isUnion = false) :
    Separated s (s.known depth) d true ↔
      ∀ m, Relation.ReflTransGen s.HasMember d m → PlacedApart s (s.known depth) m := by
  have start : s.LaidOut (s.known depth) d := ⟨isClass, ⟨layout, laid⟩, notUnion⟩
  exact ⟨fun apart m => start.placedApart itanium cplusplus apart, start.separated itanium cplusplus⟩

/-- `A0` claims `W` in `B`, where `F` has a free place for its `E` behind it. In `D`, where `V` is there
first, `V` keeps `W`, and `A1` brings both of them to that place. -/
def movedClaim : Setting :=
  .linux [
    .ofClass "E" [] [] [],
    .ofClass "Z" [] [] [],
    .ofClass "Q" [] [{ record := ⟨1⟩ }, { record := ⟨0⟩ }] [] { alignment := some 8 },
    .ofClass "F" [] [{ record := ⟨1⟩ }, { record := ⟨2⟩ }] [],
    .ofClass "W" [] [{ record := ⟨0⟩ }] [⟨0⟩],
    .ofClass "V" [] [{ record := ⟨4⟩, isVirtual := true }] [],
    .ofClass "A0" [] [{ record := ⟨4⟩, isVirtual := true }] [],
    .ofClass "A1" [] [{ record := ⟨5⟩, isVirtual := true }] [],
    .ofClass "B" [] [{ record := ⟨6⟩ }, { record := ⟨7⟩ }, { record := ⟨3⟩ }] [],
    .ofClass "D" [] [{ record := ⟨5⟩, isVirtual := true }, { record := ⟨8⟩ }] []]
    [{ name := "w", owner := ⟨4⟩, isVirtual := true }]

/-- The layouts of all these classes, which need each other in the order of declaration. -/
def movedClaim.found : Checked (List (RecordId × RecordLayout)) :=
  movedClaim.layInOrder ((List.range 10).map (⟨·⟩))

theorem movedClaim.within :
    (Known.remembering (found.toOption.getD [])).Within (movedClaim.known 10) := by
  obtain ⟨layouts, same⟩ := exists_ok (by decide +kernel : found.isOk = true)
  rw [same]
  exact (movedClaim.layInOrder_within _).value same

/-- Where a base lies in a class, looked up among the layouts that were found. -/
def movedClaim.baseOffset? (r b : Nat) : Option Nat :=
  (Known.remembering (found.toOption.getD [])).baseOffset? ⟨r⟩ ⟨b⟩

theorem empty_subobjects_apart_iff_movedClaim :
    Separated movedClaim (movedClaim.known 10) ⟨8⟩ true ↔
      ∀ m, Relation.ReflTransGen movedClaim.HasMember ⟨8⟩ m →
        PlacedApart movedClaim (movedClaim.known 10) m := by
  obtain ⟨layout, laid⟩ := exists_ok (by decide +kernel :
    ((Known.remembering (movedClaim.found.toOption.getD [])).record ⟨8⟩).isOk = true)
  refine empty_subobjects_apart_iff (Setting.linux_isItanium _ _) rfl rfl
    (movedClaim.within.record _ _ laid) fun c _ => ?_
  exact Setting.linux_record (P := fun record => record.isUnion = false) _ (by decide) (by decide) c

/-- The `E` of the virtual base `W` and that of `F` both lie 8 bytes into a `D`. -/
theorem empty_subobjects_meet_movedClaim :
    (∃ layout, (movedClaim.known 10).record ⟨9⟩ = .ok layout) ∧
      ¬ Separated movedClaim (movedClaim.known 10) ⟨9⟩ true := by
  obtain ⟨layout, laid⟩ := exists_ok (by decide +kernel :
    ((Known.remembering (movedClaim.found.toOption.getD [])).record ⟨9⟩).isOk = true)
  refine ⟨⟨layout, movedClaim.within.record _ _ laid⟩, fun separated => ?_⟩
  have base {r b : Nat} {path : List Step} {c : RecordId} {offset further : Nat} {isComplete : Bool}
      (member : { record := ⟨b⟩ } ∈ (movedClaim.tree.record ⟨r⟩).nonVirtualBases)
      (at' : movedClaim.baseOffset? r b = some offset)
      (deeper : SubobjectAt movedClaim (movedClaim.known 10) ⟨b⟩ false path c further) :
      SubobjectAt movedClaim (movedClaim.known 10) ⟨r⟩ isComplete (.base ⟨b⟩ :: path) c
        (offset + further) :=
    .base ⟨_, member, rfl⟩ (movedClaim.within.baseOffset? at') deeper
  have inVirtual : SubobjectAt movedClaim (movedClaim.known 10) ⟨9⟩ true
      [.virtualBase ⟨4⟩, .base ⟨0⟩] ⟨0⟩ (8 + (0 + 0)) := by
    refine .virtualBase (by decide +kernel) (movedClaim.within.virtualBaseOffset? ?_) ?_
    · decide +kernel
    · exact base (by decide) (by decide +kernel) (.here _ _)
  have inBase : SubobjectAt movedClaim (movedClaim.known 10) ⟨9⟩ true
      [.base ⟨8⟩, .base ⟨3⟩, .base ⟨2⟩, .base ⟨0⟩] ⟨0⟩ (0 + (0 + (8 + (0 + 0)))) := by
    refine base (by decide) (by decide +kernel) (base (by decide) (by decide +kernel) ?_)
    exact base (by decide) (by decide +kernel) (base (by decide) (by decide +kernel) (.here _ _))
  exact absurd (separated _ _ _ _ inVirtual inBase (by decide +kernel)) (by decide)

end ObjectLayout
