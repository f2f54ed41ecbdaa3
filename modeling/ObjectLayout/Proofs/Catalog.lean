import ObjectLayout.Proofs.Inheritance

/-! The types of a declaration tree. Every type that the tree speaks of stands at the position that was
handed out for it, together with the types that its layout is made from, so a position names one type
and there are as many types as positions. -/
namespace ObjectLayout

/-- The types that the layout of a type is made from. -/
def Ty.parts : Ty → List Ty
  | .array _ element _ | .incompleteArray _ element | .variableArray _ element
  | .vector _ element _ | .complex _ element => [element]
  | .enumeration _ _ _ underlying => [underlying]
  | .typedef _ _ _ aliased _ => [aliased]
  | .elaborated _ inner => [inner]
  | _ => []

/-- What is closed under parts has the type behind the sugar as well. -/
theorem Ty.canonical_of_closed {types : Ty → Prop}
    (closed : ∀ type, types type → ∀ part ∈ type.parts, types part) (type : Ty) (h : types type) :
    types type.canonical := by
  fun_induction Ty.canonical type with
  | case1 id declaration name aliased alignment ih => exact ih (closed _ h _ (List.mem_singleton_self _))
  | case2 id inner ih => exact ih (closed _ h _ (List.mem_singleton_self _))
  | case3 type => exact h

/-- The types of a tree, by position. -/
structure Tree.Catalog (tree : Tree) (types : List Ty) : Prop where
  count : types.length = tree.typeCount
  position : ∀ (i : Nat) (type : Ty), types[i]? = some type → type.id = ⟨i⟩
  parts : ∀ type ∈ types, ∀ part ∈ type.parts, part ∈ types
  fields : ∀ r, ∀ field ∈ (tree.record r).fields, field.type ∈ types

/-- A catalog can be read off the lists of types and of declarations. -/
theorem Tree.Catalog.of_lists {tree : Tree} {types : List Ty} (count : types.length = tree.typeCount)
    (position : types.map Ty.id = (List.range types.length).map Idx.mk)
    (parts : ∀ type ∈ types, ∀ part ∈ type.parts, part ∈ types)
    (fields : ∀ record ∈ tree.records.items.toList, ∀ field ∈ record.fields, field.type ∈ types) :
    tree.Catalog types where
  count := count
  position i type at' := by
    obtain ⟨less, rfl⟩ := List.getElem?_eq_some_iff.mp at'
    simpa [less] using congrArg (·[i]?) position
  parts := parts
  fields := Tree.forall_record (P := fun record => ∀ field ∈ record.fields, field.type ∈ types) fields
    (by simp [Record.fields, Record.undeclared])

namespace Tree.Catalog

variable {tree tree' : Tree} {types : List Ty} (h : tree.Catalog types)
include h

/-- A position names one type. -/
theorem eq_of_id {type type' : Ty} (member : type ∈ types) (member' : type' ∈ types)
    (same : type.id = type'.id) : type = type' := by
  obtain ⟨i, at'⟩ := List.getElem?_of_mem member
  obtain ⟨j, at''⟩ := List.getElem?_of_mem member'
  have here := h.position i type at'
  rw [same, h.position j type' at''] at here
  cases here
  exact Option.some.inj (at'.symm.trans at'')

end Tree.Catalog

section Building

variable {tree tree' : Tree} {types : List Ty} {type : Ty}

/-- A catalog that also has the scalar types in use. -/
structure Tree.Built (tree : Tree) (types : List Ty) : Prop extends tree.Catalog types where
  scalars : ∀ entry ∈ tree.scalars, .scalar entry.2 entry.1 ∈ types

/-- A step of building a tree, with nothing but types that are there. -/
inductive BuildM.Lists (types : List Ty) : {α : Type} → BuildM α → Prop
  | newType {shape : TypeId → Ty} (id : ∀ i, (shape i).id = i)
      (parts : ∀ i, ∀ part ∈ (shape i).parts, part ∈ types) : Lists types (newType shape)
  | scalar (s : Scalar) : Lists types (scalar s)
  | declareRecord (kind : RecordKind) (name : Option String) : Lists types (declareRecord kind name)
  | defineRecord (r : RecordId) {definition : Definition}
      (fields : ∀ field ∈ definition.fields, field.type ∈ types) :
      Lists types (defineRecord r definition)
  | markRecord (r : RecordId) (isInvalid isDependent : Bool) :
      Lists types (markRecord r isInvalid isDependent)
  | addMethod (method : Method) : Lists types (addMethod method)
  | addEnumeration (name : Option String) {underlying : Option Ty}
      (listed : ∀ part ∈ underlying, part ∈ types) : Lists types (addEnumeration name underlying)
  | addTypedef (name : String) {aliased : Ty} (alignment : Option Bytes) (listed : aliased ∈ types) :
      Lists types (addTypedef name aliased alignment)
  | addVariable : Lists types addVariable

/-- The tree that a step leaves behind, however it ends. -/
def BuildM.left : EStateM.Result Fault Tree α → Tree
  | .ok _ tree => tree
  | .error _ tree => tree

namespace Tree.Built

theorem empty : ({} : Tree).Built [] where
  count := rfl
  position := nofun
  parts := nofun
  fields := nofun
  scalars := nofun

variable (h : tree.Built types)
include h

theorem same (tree' : Tree) (count : tree'.typeCount = tree.typeCount) (scalars : tree'.scalars = tree.scalars)
    (fields : ∀ r, ∀ field ∈ (tree'.record r).fields, field.type ∈ types) : tree'.Built types where
  count := h.count.trans count.symm
  position := h.position
  parts := h.parts
  fields := fields
  scalars := scalars ▸ h.scalars

theorem grow (id : type.id = ⟨tree.typeCount⟩) (parts : ∀ part ∈ type.parts, part ∈ types)
    (count : tree'.typeCount = tree.typeCount + 1) (scalars : tree'.scalars = tree.scalars)
    (fields : ∀ r, (tree'.record r).fields = (tree.record r).fields) :
    tree'.Built (types ++ [type]) where
  count := by rw [List.length_append, h.count, count]; rfl
  position i type' at' := by
    rcases Nat.lt_or_ge i types.length with before | after
    · rw [List.getElem?_append_left before] at at'
      exact h.position i type' at'
    · rw [List.getElem?_append_right after, List.getElem?_singleton] at at'
      split at at'
      · cases at'
        rw [id, ← h.count]
        congr 1
        omega
      · cases at'
  parts type' member part there := by
    rcases List.mem_append.mp member with before | last
    · exact List.mem_append_left _ (h.parts type' before part there)
    · cases List.mem_singleton.mp last
      exact List.mem_append_left _ (parts part there)
  fields r field member := List.mem_append_left _ (h.fields r field (fields r ▸ member))
  scalars entry member := List.mem_append_left _ (h.scalars entry (scalars ▸ member))

theorem newType (shape : TypeId → Ty) (id : ∀ i, (shape i).id = i)
    (parts : ∀ i, ∀ part ∈ (shape i).parts, part ∈ types) :
    (BuildM.left (BuildM.newType shape tree)).Built (types ++ [shape ⟨tree.typeCount⟩]) :=
  h.grow (id _) (parts _) rfl rfl fun _ => rfl

end Tree.Built

/-- Records that differ in one place, where the fields are listed, have listed fields. -/
theorem Tree.fields_modify {r : RecordId} {f : Record → Record}
    (here : ∀ record, ∀ field ∈ (f record).fields, field.type ∈ types ∨ field ∈ record.fields)
    (fields : ∀ r, ∀ field ∈ (tree.record r).fields, field.type ∈ types)
    (records : tree'.records = tree.records.modify r f) (r' : RecordId) :
    ∀ field ∈ (tree'.record r').fields, field.type ∈ types := by
  have before := fields r'
  unfold Tree.record Arena.getD Arena.get? at before ⊢
  rw [records]
  simp only [Arena.modify, Array.getElem?_modify]
  split
  · cases found : tree.records.items[r'.position]? with
    | none => exact nofun
    | some record =>
      rw [found] at before
      exact fun field member => (here record field member).elim id (before field)
  · exact before

/-- A record that was only declared has no fields. -/
theorem Tree.fields_push {record : Record} (declared : record.definition = none)
    (records : tree'.records = tree.records.push record) (r : RecordId) :
    (tree'.record r).fields = (tree.record r).fields := by
  unfold Tree.record Arena.getD Arena.get?
  rw [records]
  simp only [Arena.push, Array.getElem?_push]
  split
  · rename_i last
    rw [last, Array.getElem?_eq_none (Nat.le_refl _)]
    simp [Record.fields, declared, Record.undeclared]
  · rfl

namespace BuildM

/-- A step that looks at the tree goes on with the tree that there is. -/
theorem get_bind {α : Type} {next : Tree → BuildM α} : (get >>= next) tree = next tree tree := rfl

theorem left_scalar {s : Scalar} {id : TypeId} (found : tree.scalars.lookup s = some id) :
    left (scalar s tree) = tree := by
  unfold scalar
  rw [get_bind, found]
  rfl

theorem left_new_scalar {s : Scalar} (found : tree.scalars.lookup s = none) :
    left (scalar s tree) = { tree with
      typeCount := tree.typeCount + 1, scalars := tree.scalars ++ [(s, ⟨tree.typeCount⟩)] } := by
  unfold scalar
  rw [get_bind, found]
  rfl

theorem left_defineRecord (tree : Tree) (r : RecordId) (definition : Definition) :
    left (defineRecord r definition tree) = tree ∨ left (defineRecord r definition tree) =
      { tree with records := tree.records.modify r ({ · with definition := some definition }) } := by
  unfold defineRecord ensure
  rw [get_bind]
  cases (tree.record r).isDefined with
  | true => exact .inl rfl
  | false => exact .inr rfl

theorem left_addMethod (tree : Tree) (method : Method) : ∃ methods, left (addMethod method tree) =
      { tree with methods } ∨ left (addMethod method tree) = { tree with
        methods, records := tree.records.modify method.owner (addMethod.list tree.methods.next) } := by
  refine ⟨tree.methods.push method, ?_⟩
  unfold addMethod ensure
  rw [get_bind]
  cases (tree.record method.owner).isClass with
  | true => exact .inr rfl
  | false => exact .inl rfl

theorem fields_list (m : MethodId) (record : Record) :
    (addMethod.list m record).fields = record.fields := by
  unfold addMethod.list Record.fields
  cases record.definition <;> rfl

/-- A step adds types to those that are there. -/
theorem Lists.keeps {α : Type} {step : BuildM α} (lists : Lists types step)
    (h : tree.Built types) : ∃ more, (left (step tree)).Built (types ++ more) := by
  have same {tree' : Tree} (count : tree'.typeCount = tree.typeCount)
      (scalars : tree'.scalars = tree.scalars)
      (fields : ∀ r, ∀ field ∈ (tree'.record r).fields, field.type ∈ types) :
      ∃ more, tree'.Built (types ++ more) := ⟨[], by
    rw [List.append_nil]
    exact h.same _ count scalars fields⟩
  cases lists with
  | newType id parts => exact ⟨_, h.newType _ id parts⟩
  | scalar s =>
    cases found : tree.scalars.lookup s with
    | some id =>
      rw [left_scalar found]
      exact same rfl rfl h.fields
    | none =>
      rw [left_new_scalar found]
      have grown := h.newType (.scalar · s) (fun _ => rfl) (fun _ => nofun)
      refine ⟨_, ⟨grown.count, grown.position, grown.parts, grown.fields⟩, fun entry member => ?_⟩
      rcases List.mem_append.mp member with before | last
      · exact grown.scalars entry before
      · cases List.mem_singleton.mp last
        exact List.mem_append_right _ (List.mem_singleton_self _)
  | declareRecord kind name =>
    have id : (Ty.record ⟨tree.typeCount⟩ tree.records.next).id = ⟨tree.typeCount⟩ := rfl
    exact ⟨_, h.grow id nofun rfl rfl (Tree.fields_push rfl rfl)⟩
  | @defineRecord r definition fields =>
    rcases left_defineRecord tree r definition with stays | defined
    · rw [stays]
      exact same rfl rfl h.fields
    · rw [defined]
      exact same rfl rfl (Tree.fields_modify (f := ({ · with definition := some definition }))
        (fun _ field member => .inl (fields field member)) h.fields rfl)
  | markRecord r isInvalid isDependent =>
    exact same rfl rfl (Tree.fields_modify (f := ({ · with isInvalid, isDependent }))
      (fun _ _ => .inr) h.fields rfl)
  | addMethod method =>
    obtain ⟨methods, stays | listed⟩ := left_addMethod tree method
    · rw [stays]
      exact same rfl rfl h.fields
    · rw [listed]
      exact same rfl rfl (Tree.fields_modify
        (fun record _ member => .inr (fields_list _ record ▸ member)) h.fields rfl)
  | @addEnumeration name underlying listed =>
    have h := h.same { tree with enumCount := tree.enumCount + 1 } rfl rfl h.fields
    cases underlying with
    | none =>
      exact ⟨_, h.newType (.openEnumeration · ⟨tree.enumCount⟩ name) (fun _ => rfl)
        fun _ => nofun⟩
    | some underlying =>
      refine ⟨_, h.newType (.enumeration · ⟨tree.enumCount⟩ name underlying) (fun _ => rfl)
        fun _ part member => ?_⟩
      cases List.mem_singleton.mp member
      exact listed underlying rfl
  | @addTypedef name aliased alignment listed =>
    have h := h.same { tree with typedefCount := tree.typedefCount + 1 } rfl rfl h.fields
    refine ⟨_, h.newType (.typedef · ⟨tree.typedefCount⟩ name aliased alignment)
      (fun _ => rfl) fun _ part member => ?_⟩
    cases List.mem_singleton.mp member
    exact listed
  | addVariable => exact same rfl rfl h.fields

/-- The trees that such steps build from nothing, each with types that the tree before it has. -/
inductive Builds : Tree → Prop
  | nothing : Builds {}
  | step {α : Type} {tree : Tree} {step : BuildM α} (before : Builds tree)
      (lists : ∀ types, tree.Built types → Lists types step) : Builds (left (step tree))

/-- A tree that was built has a catalog. -/
theorem Builds.exists_built (h : Builds tree) : ∃ types, tree.Built types := by
  induction h with
  | nothing => exact ⟨[], .empty⟩
  | step before lists ih =>
    obtain ⟨types, built⟩ := ih
    obtain ⟨more, grown⟩ := (lists types built).keeps built
    exact ⟨types ++ more, grown⟩

end BuildM

end Building

end ObjectLayout
