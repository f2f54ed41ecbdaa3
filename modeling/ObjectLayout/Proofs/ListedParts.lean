import ObjectLayout.Proofs.ShownParts

/-! Dumps show every part once. The lines of a level are those of its parts, one after the other; since
no two parts are reached by the same steps, nothing is shown twice. -/
namespace ObjectLayout.Dump

variable {s : Setting} {known : Known} {p q : Part} {step : Step} {path : List Step}
variable {lines lines' : List Line} {offset x : Nat}

def Line.subobject? : Line → Option (RecordId × Bytes)
  | .at offset _ (.subobject r _ _ _) => some (r, offset)
  | _ => none

/-- The classes that some lines show, and where. -/
def subobjects (lines : List Line) : List (RecordId × Bytes) := lines.filterMap Line.subobject?

@[simp] theorem subobjects_append :
    subobjects (lines ++ lines') = subobjects lines ++ subobjects lines' :=
  List.filterMap_append

/-- What has a name, a class and a place below some offset, and is shown. -/
abbrev Named := List Step → RecordId → Nat → Prop

/-- The lines show each of the named classes once, at its place. -/
def ShowsOnce (names : Named) (offset : Nat) (lines : List Line) : Prop :=
  ∃ shown : List (List Step × RecordId × Nat), (shown.map Prod.fst).Nodup ∧
    (∀ path r x, (path, r, x) ∈ shown ↔ names path r x) ∧
    subobjects lines = shown.map fun entry => (entry.2.1, offset + entry.2.2)

namespace ShowsOnce

variable {names names' : Named}

theorem congr (h : ShowsOnce names offset lines)
    (same : ∀ path r x, names path r x ↔ names' path r x) : ShowsOnce names' offset lines := by
  obtain ⟨shown, nodup, mem, listed⟩ := h
  exact ⟨shown, nodup, fun path r x => (mem path r x).trans (same path r x), listed⟩

theorem none (empty : subobjects lines = []) (nameless : ∀ path r x, ¬ names path r x) :
    ShowsOnce names offset lines :=
  ⟨[], List.nodup_nil, fun path r x => iff_of_false List.not_mem_nil (nameless path r x), empty⟩

theorem append (h : ShowsOnce names offset lines) (h' : ShowsOnce names' offset lines')
    (apart : ∀ path r x r' x', names path r x → ¬ names' path r' x') :
    ShowsOnce (fun path r x => names path r x ∨ names' path r x) offset (lines ++ lines') := by
  obtain ⟨shown, nodup, mem, listed⟩ := h
  obtain ⟨shown', nodup', mem', listed'⟩ := h'
  refine ⟨shown ++ shown', ?_, fun path r x => ?_, ?_⟩
  · rw [List.map_append, List.nodup_append]
    refine ⟨nodup, nodup', ?_⟩
    intro path listed path' listed' same
    obtain ⟨⟨_, r, x⟩, member, rfl⟩ := List.mem_map.mp listed
    obtain ⟨⟨_, r', x'⟩, member', rfl⟩ := List.mem_map.mp listed'
    cases same
    exact apart _ r x r' x' ((mem _ r x).mp member) ((mem' _ r' x').mp member')
  · rw [List.mem_append, mem, mem']
  · rw [subobjects_append, listed, listed', List.map_append]

theorem behind (h : ShowsOnce names offset lines') (silent : subobjects lines = []) :
    ShowsOnce names offset (lines ++ lines') := by
  unfold ShowsOnce
  rwa [subobjects_append, silent, List.nil_append]

theorem before (h : ShowsOnce names offset lines) (silent : subobjects lines' = []) :
    ShowsOnce names offset (lines ++ lines') := by
  unfold ShowsOnce
  rwa [subobjects_append, silent, List.append_nil]

/-- The same lines, seen from the other end of a step. -/
theorem under (h : ShowsOnce names (offset + x) lines) (step : Step) :
    ShowsOnce (fun path r y => ∃ rest z, path = step :: rest ∧ y = x + z ∧ names rest r z) offset
      lines := by
  obtain ⟨shown, nodup, mem, listed⟩ := h
  refine ⟨shown.map fun entry => (step :: entry.1, entry.2.1, x + entry.2.2), ?_,
    fun path r y => ?_, ?_⟩
  · rw [List.map_map]
    have inj : Function.Injective (List.cons step) := List.cons_injective
    have := nodup.map inj
    rwa [List.map_map] at this
  · rw [List.mem_map]
    constructor
    · rintro ⟨⟨rest, r', z⟩, member, same⟩
      cases same
      exact ⟨rest, z, rfl, rfl, (mem _ _ _).mp member⟩
    · rintro ⟨rest, z, rfl, rfl, named⟩
      exact ⟨(rest, r, z), (mem _ _ _).mpr named, rfl⟩
  · rw [listed, List.map_map]
    refine List.map_congr_left fun entry _ => ?_
    simp [Nat.add_assoc]

end ShowsOnce

/-- The parts that a dump of this one shows. -/
def Names (s : Setting) (known : Known) (p : Part) : Named :=
  fun path r x => ∃ q, q.record = r ∧ ShownAt s known p path q x

/-- Those of them that a first step leads to. -/
def Below (s : Setting) (known : Known) (p : Part) (step : Step) (q : Part) : Named :=
  fun path r x => ∃ y, step.offset? known p.record = some y ∧
    ∃ rest z, path = step :: rest ∧ x = y + z ∧ Names s known q rest r z

theorem names_iff {r : RecordId} : Names s known p path r x ↔
    (path = [] ∧ r = p.record ∧ x = 0) ∨
      ∃ step q, Step.Leads s p step q ∧ Below s known p step q path r x := by
  constructor
  · rintro ⟨t, rfl, shown⟩
    cases shown with
    | here => exact .inl ⟨rfl, rfl, rfl⟩
    | under leads at' deeper => exact .inr ⟨_, _, leads, _, at', _, _, rfl, rfl, t, rfl, deeper⟩
  · rintro (⟨rfl, rfl, rfl⟩ | ⟨step, q, leads, y, at', rest, z, rfl, rfl, t, rfl, deeper⟩)
    · exact ⟨p, rfl, .here p⟩
    · exact ⟨t, rfl, .under leads at' deeper⟩

/-- The parts that a dump shows, in the order of their kinds. -/
theorem names_iff_kinds {r : RecordId} : Names s known p path r x ↔
    (((path = [] ∧ r = p.record ∧ x = 0) ∨
      ∃ base ∈ (s.tree.record p.record).nonVirtualBases,
        Below s known p (.base base.record) ⟨base.record, false⟩ path r x) ∨
      ∃ entry ∈ (s.tree.record p.record).fields.zipIdx, ∃ held, heldClass? s entry.1 = some held ∧
        Below s known p (.member entry.2) ⟨held, true⟩ path r x) ∨
      (p.isComplete = true ∧ ∃ v ∈ s.tree.virtualBases p.record,
        Below s known p (.virtualBase v) ⟨v, false⟩ path r x) := by
  rw [names_iff]
  constructor
  · rintro (here | ⟨step, q, leads, named⟩)
    · exact .inl (.inl (.inl here))
    · cases leads with
      | base edge =>
        obtain ⟨base, member, rfl⟩ := edge
        exact .inl (.inl (.inr ⟨base, member, named⟩))
      | member found names isClass =>
        have entry := List.mk_mem_zipIdx_iff_getElem?.mpr found
        exact .inl (.inr ⟨_, entry, _, heldClass?_eq_some.mpr ⟨names, isClass⟩, named⟩)
      | virtualBase complete listed => exact .inr ⟨complete, _, listed, named⟩
  · rintro (((here | ⟨base, member, named⟩) | ⟨⟨field, index⟩, entry, held, held?, named⟩) |
      ⟨complete, v, listed, named⟩)
    · exact .inl here
    · exact .inr ⟨_, _, .base ⟨base, member, rfl⟩, named⟩
    · obtain ⟨names, isClass⟩ := heldClass?_eq_some.mp held?
      have found := List.mk_mem_zipIdx_iff_getElem?.mp entry
      exact .inr ⟨_, _, .member found names isClass, named⟩
    · exact .inr ⟨_, _, .virtualBase complete listed, named⟩

theorem ShowsOnce.below (h : ShowsOnce (Names s known q) (offset + x) lines)
    (placed : step.offset? known p.record = some x) :
    ShowsOnce (Below s known p step q) offset lines := by
  refine (h.under step).congr fun path r y => ?_
  constructor
  · exact fun deeper => ⟨x, placed, deeper⟩
  · rintro ⟨x', placed', deeper⟩
    cases placed.symm.trans placed'
    exact deeper

/-- A vtordisp is shown right before its virtual base, which lies four bytes further on. -/
def VtordispsLead (s : Setting) (lines : List Line) : Prop :=
  ∀ (k : Nat) offset indent name, lines[k]? = some (.at offset indent (.vtordisp name)) →
    ∃ v role, name = (s.tree.record v).shortName ∧
      (role = "(virtual base)" ∨ role = "(primary virtual base)") ∧
      lines[k + 1]? = some (headLine s v (offset + 4) indent (some role))

theorem VtordispsLead.append (h : VtordispsLead s lines) (h' : VtordispsLead s lines') :
    VtordispsLead s (lines ++ lines') := by
  intro k offset indent name here
  rcases Nat.lt_or_ge k lines.length with early | late
  · rw [List.getElem?_append_left early] at here
    obtain ⟨v, role, named, roles, next⟩ := h k offset indent name here
    have further := (List.getElem?_eq_some_iff.mp next).1
    exact ⟨v, role, named, roles, by rw [List.getElem?_append_left further, next]⟩
  · rw [List.getElem?_append_right late] at here
    obtain ⟨v, role, named, roles, next⟩ := h' _ offset indent name here
    have further : k + 1 - lines.length = k - lines.length + 1 := by omega
    exact ⟨v, role, named, roles, by rw [List.getElem?_append_right (by omega), further, next]⟩

/-- Lines without a vtordisp. -/
theorem VtordispsLead.of_none (none : ∀ line ∈ lines, ∀ offset indent name,
    line ≠ .at offset indent (.vtordisp name)) : VtordispsLead s lines :=
  fun _ offset indent name here =>
    absurd rfl (none _ (List.mem_of_getElem? here) offset indent name)

/-- Parts with different steps to them, each shown once, are shown once together. -/
theorem each_lists {α : Type} {parts : List α} {show? : α → LayoutM (List Line)}
    (key : α → Step) (names : α → Named)
    (distinct : parts.Pairwise fun part part' => key part ≠ key part')
    (headed : ∀ part path r x, names part path r x → ∃ rest, path = key part :: rest)
    (part : ∀ part ∈ parts, ∀ lines, (show? part).eval known = .ok lines →
      ShowsOnce (names part) offset lines ∧ VtordispsLead s lines)
    (shown : (each parts show?).eval known = .ok lines) :
    ShowsOnce (fun path r x => ∃ part ∈ parts, names part path r x) offset lines ∧
      VtordispsLead s lines := by
  induction parts generalizing lines with
  | nil =>
    cases shown
    exact ⟨.none rfl (by simp), .of_none nofun⟩
  | cons first rest ih =>
    obtain ⟨begin, here, others, more, rfl⟩ := each_cons.mp shown
    obtain ⟨differs, distinct⟩ := List.pairwise_cons.mp distinct
    obtain ⟨once, vtordisps⟩ := part first List.mem_cons_self begin here
    obtain ⟨once', vtordisps'⟩ := ih distinct (fun next member => part next (.tail _ member)) more
    refine ⟨(once.append once' ?_).congr fun path r x => by simp, vtordisps.append vtordisps'⟩
    rintro path r x r' x' named ⟨next, member, named'⟩
    obtain ⟨_, rfl⟩ := headed first path r x named
    obtain ⟨_, same⟩ := headed next _ r' x' named'
    exact differs next member (List.cons.inj same).1

theorem Below.headed {r : RecordId} (h : Below s known p step q path r x) :
    ∃ rest, path = step :: rest := by
  obtain ⟨_, _, rest, _, same, _⟩ := h
  exact ⟨rest, same⟩

/-- The lines that a dump shows a part with. -/
structure Lists (s : Setting) (known : Known) (p : Part) (offset indent : Nat) (role : Option String)
    (lines : List Line) : Prop where
  head : lines.head? = some (headLine s p.record offset indent role)
  once : ShowsOnce (Names s known p) offset lines
  vtordisps : VtordispsLead s lines

/-- Whatever lines come out for a part list all of it. -/
def ListsAll (s : Setting) (known : Known) (dump : Dumper) (held : RecordId) : Prop :=
  ∀ offset indent role isComplete lines,
    (dump held offset indent role isComplete).eval known = .ok lines →
    Lists s known ⟨held, isComplete⟩ offset indent role lines

section Levels

variable {dump : Dumper} {layout : RecordLayout} {indent : Nat}
variable (below : ∀ held, Relation.TransGen s.Holds p.record held → ListsAll s known dump held)
variable (laid : known.record p.record = .ok layout)
include below laid

theorem baseLines_lists {base : Base} (member : base ∈ (s.tree.record p.record).nonVirtualBases)
    (shown : (baseLines dump layout offset indent base).eval known = .ok lines) :
    ShowsOnce (Below s known p (.base base.record) ⟨base.record, false⟩) offset lines ∧
      VtordispsLead s lines := by
  obtain ⟨x, at', _, shown⟩ := baseLines_eq_ok.mp shown
  have edge : s.tree.InheritsPlainly p.record base.record := ⟨base, member, rfl⟩
  have lists := below _ (.single edge.inherits.holds) _ _ _ _ _ shown
  have placed := (Known.baseOffset_eq_iff laid).mp at'
  exact ⟨lists.once.below placed, lists.vtordisps⟩

theorem fieldLines_lists {field : Field} {index : Nat}
    (found : (s.tree.record p.record).fields[index]? = some field)
    (shown : (fieldLines s dump layout offset indent (field, index)).eval known = .ok lines) :
    ShowsOnce (fun path r x => ∃ held, heldClass? s field = some held ∧
      Below s known p (.member index) ⟨held, true⟩ path r x) offset lines ∧ VtordispsLead s lines := by
  obtain ⟨start, at', _, shown⟩ := fieldLines_eq_ok.mp shown
  cases held? : heldClass? s field with
  | none =>
    rw [held?] at shown
    cases shown
    refine ⟨.none rfl fun path r x => ?_, .of_none ?_⟩
    · simp
    · intro line member offset indent name
      rw [List.mem_singleton.mp member]
      simp
  | some held =>
    rw [held?] at shown
    obtain ⟨names, isClass⟩ := heldClass?_eq_some.mp held?
    have holds := Setting.Holds.of_field (List.mem_of_getElem? found) (Ty.baseElement_asRecord? names)
    have lists := below held (.single holds) _ _ _ _ _ shown
    have placed : (Step.member index).offset? known p.record = some (Bits.toBytesFloor start) := by
      rw [Step.offset?, (Known.fieldOffset_eq_iff laid).mp at', Option.map_some]
    refine ⟨(lists.once.below placed).congr fun path r y => ?_, lists.vtordisps⟩
    constructor
    · exact fun deeper => ⟨held, rfl, deeper⟩
    · rintro ⟨held', same, deeper⟩
      cases same
      exact deeper

theorem virtualBaseLines_lists {v : RecordId} (listed : v ∈ s.tree.virtualBases p.record)
    (shown : (virtualBaseLines s dump layout offset indent v).eval known = .ok lines) :
    ShowsOnce (Below s known p (.virtualBase v) ⟨v, false⟩) offset lines ∧ VtordispsLead s lines := by
  obtain ⟨slot, at', _, enough, rest, inner, rfl⟩ := virtualBaseLines_eq_ok.mp shown
  have path : Relation.TransGen s.Holds p.record v :=
    (Tree.HasVirtualBase.of_mem listed).below.lift id fun _ _ => Tree.Inherits.holds
  have lists := below v path _ _ _ _ _ inner
  have placed : (Step.virtualBase v).offset? known p.record = some slot.offset :=
    (Known.virtualBaseOffset?_eq_some laid).mpr ⟨slot, at', rfl⟩
  unfold vtordispLines at *
  cases vtordisp : slot.hasVtordisp with
  | false =>
    exact ⟨lists.once.below placed, lists.vtordisps⟩
  | true =>
    have enough := enough vtordisp
    rw [if_pos rfl]
    refine ⟨(lists.once.below placed).behind rfl, ?_⟩
    rintro (_ | k) offset' indent' name here
    · simp only [List.cons_append, List.getElem?_cons_zero, Option.some.injEq, Line.at.injEq,
        Content.vtordisp.injEq] at here
      obtain ⟨rfl, rfl, rfl⟩ := here
      refine ⟨v, if isPrimary layout v then "(primary virtual base)" else "(virtual base)", rfl, ?_, ?_⟩
      · cases isPrimary layout v
        · exact .inl rfl
        · exact .inr rfl
      · have head := lists.head
        rw [List.head?_eq_getElem?] at head
        rw [Nat.sub_add_cancel enough]
        exact head
    · exact lists.vtordisps k offset' indent' name here

theorem bases_list (distinct : ((s.tree.record p.record).nonVirtualBases.map (·.record)).Nodup)
    (shown : (each (s.tree.record p.record).nonVirtualBases
      (baseLines dump layout offset indent)).eval known = .ok lines) :
    ShowsOnce (fun path r x => ∃ base ∈ (s.tree.record p.record).nonVirtualBases,
      Below s known p (.base base.record) ⟨base.record, false⟩ path r x) offset lines ∧
        VtordispsLead s lines := by
  refine each_lists (fun base => .base base.record) _ ?_ (fun _ _ _ _ => Below.headed)
    (fun base member lines shown => baseLines_lists below laid member shown) shown
  have apart := List.pairwise_map.mp distinct
  exact apart.imp fun differs same => differs (Step.base.inj same)

theorem fields_list
    (shown : (each (s.tree.record p.record).fields.zipIdx
      (fieldLines s dump layout offset indent)).eval known = .ok lines) :
    ShowsOnce (fun path r x => ∃ entry ∈ (s.tree.record p.record).fields.zipIdx,
      ∃ held, heldClass? s entry.1 = some held ∧
        Below s known p (.member entry.2) ⟨held, true⟩ path r x) offset lines ∧
        VtordispsLead s lines := by
  refine each_lists (fun entry => .member entry.2) _ ?_ ?_ ?_ shown
  · have counted : ((s.tree.record p.record).fields.zipIdx.map Prod.snd).Nodup := by
      rw [List.zipIdx_map_snd]
      exact List.nodup_range'
    have apart := List.pairwise_map.mp counted
    exact apart.imp fun differs same => differs (Step.member.inj same)
  · rintro entry path r x ⟨held, _, named⟩
    exact named.headed
  · rintro ⟨field, index⟩ member lines shown
    exact fieldLines_lists below laid (List.mk_mem_zipIdx_iff_getElem?.mp member) shown

theorem virtualBases_list (acyclic : s.tree.Acyclic p.record)
    (shown : (each (s.tree.virtualBases p.record)
      (virtualBaseLines s dump layout offset indent)).eval known = .ok lines) :
    ShowsOnce (fun path r x => ∃ v ∈ s.tree.virtualBases p.record,
      Below s known p (.virtualBase v) ⟨v, false⟩ path r x) offset lines ∧
        VtordispsLead s lines := by
  refine each_lists .virtualBase _ ?_ (fun _ _ _ _ => Below.headed)
    (fun v listed lines shown => virtualBaseLines_lists below laid listed shown) shown
  exact (Tree.virtualBases_nodup acyclic).imp fun differs same => differs (Step.virtualBase.inj same)

omit below laid in
/-- The sizes at the end name no class, and neither do the pointers. -/
theorem sizesLine_silent {total : Line} (sized : sizesLine s layout indent = .ok total) :
    subobjects [total] = [] ∧ VtordispsLead s [total] := by
  obtain ⟨_, _, sized⟩ := except_bind_eq_ok.mp sized
  obtain ⟨_, _, sized⟩ := except_bind_eq_ok.mp sized
  cases sized
  exact ⟨rfl, .of_none (by simp)⟩

omit below laid in
theorem vbptrLines_silent {r : RecordId} (shown : vbptrLines s r layout offset indent = .ok lines) :
    subobjects lines = [] ∧ VtordispsLead s lines := by
  obtain ⟨_, rfl⟩ := vbptrLines_eq_ok.mp shown
  constructor
  · simp [subobjects, Line.subobject?]
  · refine .of_none fun line member => ?_
    obtain ⟨slot, _, rfl⟩ := List.mem_map.mp member
    simp

omit below laid in
theorem tablePointerLines_silent (s : Setting) (r : RecordId) (layout : RecordLayout)
    (offset indent : Nat) :
    subobjects (tablePointerLines s r layout offset indent) = [] ∧
      VtordispsLead s (tablePointerLines s r layout offset indent) := by
  unfold tablePointerLines
  dsimp only
  split
  · exact ⟨rfl, .of_none (by simp)⟩
  · split
    · exact ⟨rfl, .of_none (by simp)⟩
    · exact ⟨rfl, .of_none nofun⟩

omit below laid in
theorem headLine_showsOnce (s : Setting) (r : RecordId) (offset indent : Nat) (role : Option String) :
    ShowsOnce (fun path r' x => path = [] ∧ r' = r ∧ x = 0) offset [headLine s r offset indent role] ∧
      VtordispsLead s [headLine s r offset indent role] := by
  refine ⟨⟨[([], r, 0)], List.nodup_singleton _, ?_, rfl⟩, .of_none (by simp [headLine])⟩
  intro path r' x
  simp

theorem level_lists (acyclic : s.tree.Acyclic p.record)
    (distinct : ((s.tree.record p.record).nonVirtualBases.map (·.record)).Nodup) {role : Option String}
    (shown : (level s dump p.record offset indent role p.isComplete).eval known = .ok lines) :
    Lists s known p offset indent role lines := by
  obtain ⟨layout', bases, vbptr, fields, virtualBases, sizes, h⟩ := level_eq_ok.mp shown
  cases laid.symm.trans h.laid
  obtain ⟨head, leadInHead⟩ := headLine_showsOnce s p.record offset indent role
  obtain ⟨tables, leadInTables⟩ := tablePointerLines_silent s p.record layout offset (indent + 1)
  obtain ⟨ofBases, leadInBases⟩ := bases_list below laid distinct h.ofBases
  obtain ⟨ofVbptr, leadInVbptr⟩ := vbptrLines_silent h.ofVbptr
  obtain ⟨ofFields, leadInFields⟩ := fields_list below laid h.ofFields
  obtain ⟨ofVirtualBases, leadInVirtualBases⟩ : ShowsOnce (fun path r x => p.isComplete = true ∧
      ∃ v ∈ s.tree.virtualBases p.record, Below s known p (.virtualBase v) ⟨v, false⟩ path r x)
      offset (virtualBases ++ sizes) ∧ VtordispsLead s (virtualBases ++ sizes) := by
    cases complete : p.isComplete with
    | false =>
      obtain ⟨rfl, rfl⟩ := h.ofBase complete
      exact ⟨.none rfl (by simp), .of_none nofun⟩
    | true =>
      obtain ⟨once, lead⟩ := virtualBases_list below laid acyclic (h.ofVirtualBases complete)
      obtain ⟨total, sized, rfl⟩ := h.ofSizes complete
      obtain ⟨silent, lead'⟩ := sizesLine_silent sized
      exact ⟨(once.before silent).congr fun path r x => by simp, lead.append lead'⟩
  have lines_eq : lines = ([headLine s p.record offset indent role] ++
      tablePointerLines s p.record layout offset (indent + 1)) ++ bases ++ vbptr ++ fields ++
        (virtualBases ++ sizes) := h.lines
  subst lines_eq
  constructor
  case head => rfl
  case vtordisps =>
    exact ((((leadInHead.append leadInTables).append leadInBases).append leadInVbptr).append
      leadInFields).append leadInVirtualBases
  case once =>
    refine ((((((head.before tables).append ofBases ?_).before ofVbptr).append ofFields ?_).append
      ofVirtualBases ?_).congr fun path r x => ?_)
    · rintro path r x r' x' ⟨rfl, _⟩ ⟨base, _, named⟩
      obtain ⟨_, same⟩ := named.headed
      cases same
    · rintro path r x r' x' before ⟨entry, _, held, _, named⟩
      obtain ⟨_, rfl⟩ := named.headed
      rcases before with ⟨same, _⟩ | ⟨base, _, named'⟩
      · cases same
      · obtain ⟨_, same⟩ := named'.headed
        cases same
    · rintro path r x r' x' before ⟨_, v, _, named⟩
      obtain ⟨_, rfl⟩ := named.headed
      rcases before with (⟨same, _⟩ | ⟨base, _, named'⟩) | ⟨entry, _, held, _, named'⟩
      · cases same
      · obtain ⟨_, same⟩ := named'.headed
        cases same
      · obtain ⟨_, same⟩ := named'.headed
        cases same
    · exact names_iff_kinds.symm

end Levels

end ObjectLayout.Dump

namespace ObjectLayout.Setting.Displays

variable {s : Setting} {known : Known} {r : RecordId} {layout : RecordLayout}

/-- By induction along what a record holds. -/
theorem subobjectLines_lists (displays : s.Displays known)
    (distinct : ∀ c, Relation.ReflTransGen s.Holds r c →
      ((s.tree.record c).nonVirtualBases.map (·.record)).Nodup)
    (laid : known.record r = .ok layout) : Dump.ListsAll s known (Dump.subobjectLines s) r := by
  have grounded := (displays.grounded laid).transGen
  induction grounded generalizing layout with
  | intro r lower ih =>
    intro offset indent role isComplete lines shown
    rw [Dump.subobjectLines_eq (displays.grounded laid)] at shown
    have acyclic : s.tree.Acyclic r := (displays.grounded laid).mono fun _ _ => Tree.Inherits.holds
    refine Dump.level_lists (p := ⟨r, isComplete⟩) (fun held path => ?_) laid acyclic
      (distinct r .refl) shown
    obtain ⟨inner, found⟩ := displays.reached ⟨layout, laid⟩ path
    exact ih held path (fun c further => distinct c (path.to_reflTransGen.trans further)) found

end ObjectLayout.Setting.Displays
