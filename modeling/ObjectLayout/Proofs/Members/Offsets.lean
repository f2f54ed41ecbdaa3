import ObjectLayout.Proofs.Held
import ObjectLayout.Proofs.Members.Chains
import ObjectLayout.Proofs.Members.Counted
import ObjectLayout.Query

/-! Where the member that a name means lies. The records along a chain are laid out with the record that
the chain starts in, so each field of it has an offset in its own record, and the offset of the member is
the sum of them as long as that fits. -/
namespace ObjectLayout

variable {s : Setting} {known : Known} {depth : Nat} {r inner : RecordId} {name : String} {type : Ty}
  {layout : RecordLayout} {chain : List FieldRef} {field : FieldRef} {offset total start value : Nat}

/-- The offsets of the fields along a chain, each in its own record, add up to a total. -/
inductive Known.AddsUp (known : Known) : List FieldRef → Nat → Prop
  | nil : AddsUp known [] 0
  | cons {field : FieldRef} {chain : List FieldRef} {offset total : Nat}
      (own : known.fieldOffset? field.record field.index = some offset)
      (rest : AddsUp known chain total) : AddsUp known (field :: chain) (offset + total)

theorem Known.AddsUp.unique {total' : Nat} (h : known.AddsUp chain total)
    (h' : known.AddsUp chain total') : total = total' := by
  induction h generalizing total' with
  | nil => cases h'; rfl
  | cons own _ ih =>
    obtain _ | ⟨own', rest'⟩ := h'
    rw [ih rest', Option.some.inj (own.symm.trans own')]

theorem Tree.IsAnonymousMember.names {tree : Tree} {declared : Field}
    (h : tree.IsAnonymousMember declared inner) :
    declared.type.baseElement.asRecord? = some inner := by
  obtain ⟨id, same⟩ := h.type
  rw [← declared.type.baseElement_canonical, same]
  rfl

theorem Tree.Embeds.holds (edge : s.tree.Embeds r inner) : s.Holds r inner := by
  obtain ⟨_, member, anonymous⟩ := edge
  exact .of_field member anonymous.names

theorem known_of_embeds (laid : (s.known depth).record r = .ok layout)
    (edge : s.tree.Embeds r inner) : ∃ layout', (s.known depth).record inner = .ok layout' := by
  have rules := s.known_record laid
  obtain ⟨depth', le, layout', found⟩ : ∃ depth' ≤ depth, ∃ layout',
      (s.known depth').record inner = .ok layout' := by
    cases microsoft : s.usesMicrosoftLayout with
    | false =>
      exact Itanium.layout_restsOn (RecordLayout.ofRecord_itanium microsoft rules).2
        edge.holds
    | true =>
      obtain ⟨field, member, anonymous⟩ := edge
      have typed := Microsoft.exists_type microsoft rules member anonymous.stored
      obtain ⟨depth', less, found⟩ := TypeLayout.restsOn_record field.type anonymous.names typed
      exact ⟨depth', less.le, found⟩
  exact ⟨layout', (s.known_le le).record inner layout' found⟩

theorem exists_fieldOffset (laid : (s.known depth).record r = .ok layout) {index : Nat}
    {declared : Field} (found : (s.tree.record r).fields[index]? = some declared) :
    ∃ offset, (s.known depth).fieldOffset? r index = some offset := by
  obtain ⟨inside, _⟩ := List.getElem?_eq_some_iff.mp found
  rw [← RecordLayout.ofRecord_counted (s.known_record laid)] at inside
  exact ⟨_, (Known.fieldOffset?_eq laid index).trans (List.getElem?_eq_getElem inside)⟩

/-- By induction on the chain, from the outermost record to the one that declares the name. -/
theorem exists_addsUp (laid : (s.known depth).record r = .ok layout)
    (h : s.tree.IsChain name r chain) : ∃ total, (s.known depth).AddsUp chain total := by
  induction h generalizing layout with
  | here found named =>
    obtain ⟨offset, own⟩ := exists_fieldOffset laid found
    exact ⟨_, .cons own .nil⟩
  | through found anonymous rest ih =>
    obtain ⟨offset, own⟩ := exists_fieldOffset laid found
    obtain ⟨_, laid'⟩ := known_of_embeds laid ⟨_, List.mem_of_getElem? found, anonymous⟩
    obtain ⟨total, rest⟩ := ih laid'
    exact ⟨_, .cons own rest⟩

namespace Query

theorem eval_fieldOffset :
    (fieldOffset field).eval known = .ok offset ↔
      known.fieldOffset? field.record field.index = some offset := by
  unfold fieldOffset Known.fieldOffset? RecordLayout.fieldOffset
  rw [LayoutM.eval_bind, LayoutM.eval_layoutOf]
  cases known.record field.record with
  | error fault => exact ⟨nofun, nofun⟩
  | ok layout =>
    change (liftM _ : LayoutM Bits).eval known = _ ↔ layout.fieldOffsets[field.index]? = _
    rw [LayoutM.eval_lift]
    cases layout.fieldOffsets[field.index]? with
    | none => exact ⟨nofun, nofun⟩
    | some found => simp

/-- Adding up never leaves the range just when the whole sum is in it. -/
theorem eval_indirectFieldOffset (h : known.AddsUp chain total) (longer : chain ≠ []) :
    (indirectFieldOffset chain).eval known = .ok value ↔ value = total ∧ total < Quantity.limit := by
  have step : ∀ start, (chain.foldlM (fun sum field => do Quantity.add sum (← fieldOffset field))
      start).eval known = .ok value ↔
        value = start + total ∧ (chain ≠ [] → start + total < Quantity.limit) := by
    clear longer
    induction h with
    | nil => intro start; simp [eq_comm]
    | @cons field chain offset total own rest ih =>
      intro start
      have first (sum : Nat) : (do Quantity.add start (← fieldOffset field) : LayoutM Nat).eval known
          = .ok sum ↔ sum = start + offset ∧ start + offset < Quantity.limit := by
        rw [LayoutM.eval_bind, eval_fieldOffset.mpr own]
        exact (congrArg (· = _) (LayoutM.eval_lift _)).to_iff.trans Quantity.add_eq_ok_iff
      rw [List.foldlM_cons, LayoutM.eval_bind_eq_ok]
      constructor
      · rintro ⟨sum, added, further⟩
        obtain ⟨rfl, fits⟩ := (first sum).mp added
        obtain ⟨rfl, below⟩ := (ih _).mp further
        refine ⟨Nat.add_assoc .., fun _ => ?_⟩
        rw [← Nat.add_assoc]
        cases rest with
        | nil => exact fits
        | cons => exact below (List.cons_ne_nil _ _)
      · rintro ⟨rfl, below⟩
        have fits := below (List.cons_ne_nil _ _)
        rw [← Nat.add_assoc] at fits
        exact ⟨_, (first _).mpr ⟨rfl, by lia⟩,
          (ih _).mpr ⟨(Nat.add_assoc ..).symm, fun _ => fits⟩⟩
  refine (step 0).trans ?_
  rw [Nat.zero_add]
  exact and_congr_right fun _ => ⟨fun h => h longer, fun h _ => h⟩

/-- The offset of a name that means one field is that of its chain. -/
theorem eval_offsetOf_chain (accepted : fieldParent s type = .ok r)
    (one : s.tree.lookup name r = [.ofChain chain]) (h : known.AddsUp chain total)
    (longer : chain ≠ []) :
    (offsetOf s type name).eval known = .ok (.ok value) ↔
      value = total ∧ (1 < chain.length → total < Quantity.limit) := by
  match chain, h with
  | [field], .cons own .nil =>
    unfold offsetOf
    rw [accepted]
    dsimp only
    rw [one]
    change ((fieldOffset field) >>= fun offset => pure (Except.ok offset)).eval known = _ ↔ _
    rw [LayoutM.eval_bind, eval_fieldOffset.mpr own]
    simp [bind, Except.bind, eq_comm]
  | first :: second :: rest, h =>
    unfold offsetOf
    rw [accepted]
    dsimp only
    rw [one]
    change ((indirectFieldOffset (first :: second :: rest)) >>= fun offset =>
      pure (Except.ok offset)).eval known = _ ↔ _
    rw [LayoutM.eval_bind_eq_ok]
    simp only [eval_indirectFieldOffset h longer]
    simp [eq_comm, and_comm]

/-- A name that means no field, more than one, or a method too has no offset. -/
theorem eval_offsetOf_unclear {chains : List (List FieldRef)} {methods : List MethodId}
    (accepted : fieldParent s type = .ok r)
    (means : s.tree.lookup name r = chains.map Member.ofChain ++ methods.map .method)
    (unclear : methods ≠ [] ∨ ∀ chain, chains ≠ [chain]) :
    (offsetOf s type name).eval known = .ok (.error .invalidFieldName) := by
  -- One member that is no method can only be the one chain there is.
  have several {member : Member} (hidden : ∀ m, member ≠ .method m) :
      s.tree.lookup name r ≠ [member] := by
    intro one
    rw [means, List.append_eq_singleton_iff] at one
    obtain ⟨_, method⟩ | ⟨chain, none⟩ := one
    · obtain ⟨m, rfl, same⟩ := List.map_eq_singleton_iff.mp method
      exact hidden m same.symm
    · obtain ⟨chain, same, _⟩ := List.map_eq_singleton_iff.mp chain
      exact unclear.elim (fun some => some (List.map_eq_nil_iff.mp none)) fun other => other _ same
  unfold offsetOf
  rw [accepted]
  dsimp only
  split
  · rename_i one
    exact absurd one (several nofun)
  · rename_i one
    exact absurd one (several nofun)
  · rfl

end Query

/-- The members that a name means in a record are the chains of field positions that it stands for,
each once and in the order of their positions, and after them the methods of that name that the record
itself declares. Its offset in a record type is answered just where there is one chain and no such
method and the offsets along the chain add up to a number that fits, and is that number. -/
theorem lookup_exact (name : String) (acyclic : Grounded s.tree.Embeds r) :
    (∃ chains : List (List FieldRef),
      s.tree.lookup name r = chains.map Member.ofChain ++
        ((s.tree.record r).methods.filter fun m => (s.tree.method m).name == name).map .method ∧
      (∀ chain, chain ∈ chains ↔ s.tree.IsChain name r chain) ∧
      chains.Nodup ∧ chains.Pairwise Tree.Precedes) ∧
    ∀ type depth layout, Query.fieldParent s type = .ok r →
      (s.known depth).record r = .ok layout →
      (∀ chain, s.tree.IsChain name r chain → ∃ total, (s.known depth).AddsUp chain total) ∧
      ∀ value, (Query.offsetOf s type name).eval (s.known depth) = .ok (.ok value) ↔
        (∀ m ∈ (s.tree.record r).methods, (s.tree.method m).name ≠ name) ∧
        ∃ chain, (∀ other, s.tree.IsChain name r other ↔ other = chain) ∧
          (s.known depth).AddsUp chain value ∧ (1 < chain.length → value < Quantity.limit) := by
  have means : s.tree.lookup name r = _ := Tree.lookup_eq acyclic
  have listed (chain : List FieldRef) :
      chain ∈ s.tree.chains name r ↔ s.tree.IsChain name r chain := Tree.mem_chains_iff acyclic
  have nodup : (s.tree.chains name r).Nodup := Tree.chains_nodup acyclic
  refine ⟨⟨_, means, listed, nodup, Tree.chains_pairwise acyclic⟩, ?_⟩
  intro type depth layout accepted laid
  have laidOut (chain : List FieldRef) (h : s.tree.IsChain name r chain) := exists_addsUp laid h
  refine ⟨laidOut, fun value => ?_⟩
  have unnamed : s.tree.methodsNamed r name = [] ↔
      ∀ m ∈ (s.tree.record r).methods, (s.tree.method m).name ≠ name := by
    simp [Tree.methodsNamed, List.filter_eq_nil_iff]
  have single (chain : List FieldRef) : s.tree.chains name r = [chain] ↔
      ∀ other, s.tree.IsChain name r other ↔ other = chain := by
    rw [← List.perm_singleton, List.perm_ext_iff_of_nodup nodup (List.nodup_singleton _)]
    simp only [listed, List.mem_singleton]
  rw [← unnamed]
  by_cases one : s.tree.methodsNamed r name = [] ∧ ∃ chain, s.tree.chains name r = [chain]
  · obtain ⟨unhidden, chain, one⟩ := one
    have only := (single chain).mp one
    have isChain := (only chain).mpr rfl
    obtain ⟨total, sum⟩ := laidOut chain isChain
    rw [one, unhidden] at means
    rw [Query.eval_offsetOf_chain accepted means sum isChain.ne_nil]
    constructor
    · rintro ⟨rfl, fits⟩
      exact ⟨unhidden, chain, only, sum, fits⟩
    · rintro ⟨_, other, only', sum', fits⟩
      obtain rfl := (only' chain).mp isChain
      obtain rfl := sum'.unique sum
      exact ⟨rfl, fits⟩
  · rw [Query.eval_offsetOf_unclear accepted means
      (by rwa [← not_exists, ← not_and_or])]
    refine ⟨nofun, fun ⟨unhidden, chain, only, _⟩ => absurd ⟨unhidden, chain, (single chain).mpr only⟩ one⟩

/-- A union whose second alternative is a structure, both without names, in a class. -/
def innermost : Setting :=
  .linux [
    { Record.ofFields "" [{ name := "a", type := .scalar ⟨1⟩ .plainChar },
      { name := "x", type := .scalar ⟨0⟩ (.integer .int .signed) }] with name := none },
    { Record.ofFields "" [{ name := "u", type := .scalar ⟨0⟩ (.integer .int .signed) },
      { name := none, type := .elaborated ⟨3⟩ (.record ⟨2⟩ ⟨0⟩) }] .union with name := none },
    .ofClass "S" [{ name := "c", type := .scalar ⟨1⟩ .plainChar },
      { name := none, type := .typedef ⟨5⟩ ⟨0⟩ "U" (.record ⟨4⟩ ⟨1⟩) (some 8) }] [] []] []

theorem lookup_exact_innermost : Grounded innermost.tree.Embeds ⟨2⟩ ∧
    Query.fieldParent innermost (innermost.tree.recordType ⟨2⟩) = .ok ⟨2⟩ ∧
    (∃ layout, (innermost.known 8).record ⟨2⟩ = .ok layout) ∧
    ∃ chain, (∀ other, innermost.tree.IsChain "x" ⟨2⟩ other ↔ other = chain) ∧
      (innermost.known 8).AddsUp chain 96 := by
  obtain ⟨layout, laid⟩ :=
    exists_ok (by decide +kernel : ((innermost.known 8).record ⟨2⟩).isOk = true)
  have acyclic : Grounded innermost.tree.Embeds ⟨2⟩ :=
    (Setting.known_grounded rfl 8 laid).mono fun _ _ => Tree.Embeds.holds
  have accepted : Query.fieldParent innermost (innermost.tree.recordType ⟨2⟩) = .ok ⟨2⟩ := by
    decide +kernel
  obtain ⟨_, answers⟩ := lookup_exact "x" acyclic
  obtain ⟨_, chain, only, sum, _⟩ := ((answers _ 8 layout accepted laid).2 96).mp (by decide +kernel)
  exact ⟨acyclic, accepted, ⟨layout, laid⟩, chain, only, sum⟩

/-- A class that holds a structure without a name far from its start. -/
def outlying : Setting :=
  .windows .x86_64 [
    { Record.ofFields "" [{ name := "a", type := .array ⟨1⟩ (.scalar ⟨0⟩ .plainChar) (Nat.pow 2 60) },
      { name := "x", type := .scalar ⟨2⟩ (.integer .int .signed) }] with name := none },
    .ofClass "S" [{ name := "pad", type := .array ⟨4⟩ (.scalar ⟨0⟩ .plainChar) (Nat.pow 2 61 - 8) },
      { name := none, type := .record ⟨3⟩ ⟨0⟩ }] [] []] []

/-- One chain, no method and a finished layout do not make an offset: the sum is too large. -/
theorem offset_overflows_outlying :
    Query.fieldParent outlying (outlying.tree.recordType ⟨1⟩) = .ok ⟨1⟩ ∧
    (∃ layout, (outlying.known 8).record ⟨1⟩ = .ok layout) ∧
    (∀ chain, outlying.tree.IsChain "x" ⟨1⟩ chain ↔ chain = [⟨⟨1⟩, 1⟩, ⟨⟨0⟩, 1⟩]) ∧
    (outlying.tree.record ⟨1⟩).methods = [] ∧
    ∀ value, (Query.offsetOf outlying (outlying.tree.recordType ⟨1⟩) "x").eval (outlying.known 8) ≠
      .ok (.ok value) := by
  obtain ⟨layout, laid⟩ :=
    exists_ok (by decide +kernel : ((outlying.known 8).record ⟨1⟩).isOk = true)
  have integer : outlying.HasIntegerBitFields :=
    Tree.forall_record (by decide +kernel) (by decide)
  have acyclic : Grounded outlying.tree.Embeds ⟨1⟩ :=
    (integer.known_grounded 8 laid).mono fun _ _ => Tree.Embeds.holds
  have chains : outlying.tree.chains "x" ⟨1⟩ = [[⟨⟨1⟩, 1⟩, ⟨⟨0⟩, 1⟩]] := by decide +kernel
  have overflows : (Query.offsetOf outlying (outlying.tree.recordType ⟨1⟩) "x").eval
      (outlying.known 8) = .error .overflow := by decide +kernel
  refine ⟨by decide +kernel, ⟨layout, laid⟩, fun chain => ?_, rfl, fun value => ?_⟩
  · rw [← Tree.mem_chains_iff acyclic, chains, List.mem_singleton]
  · rw [overflows]
    exact nofun

end ObjectLayout
