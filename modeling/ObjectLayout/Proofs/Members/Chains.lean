import Mathlib.Data.List.Lex
import ObjectLayout.Decl.Member
import ObjectLayout.Proofs.Inheritance

/-! What a member name means, as chains of field positions. A chain goes down through anonymous members
and ends at a field of the name; looking a name up lists all chains, in the order of their positions,
and the methods of the record itself. -/
namespace ObjectLayout

theorem Ty.asRecord?_eq_some_iff {type : Ty} {r : RecordId} :
    type.asRecord? = some r ↔ ∃ id, type.canonical = .record id r := by
  fun_induction Ty.canonical type with
  | case1 id declaration name aliased alignment ih => exact ih
  | case2 id inner ih => exact ih
  | case3 type noTypedef noElaborated =>
    cases type with
    | typedef => exact absurd rfl (noTypedef _ _ _ _ _)
    | elaborated => exact absurd rfl (noElaborated _ _)
    | _ => simp [Ty.asRecord?]

/-- A chain of positions as the member that it stands for. -/
def Member.ofChain : List FieldRef → Member
  | [last] => .field last
  | chain => .indirectField chain

theorem Member.through?_ofChain (outer : FieldRef) {chain : List FieldRef} (longer : chain ≠ []) :
    (ofChain chain).through? outer = some (ofChain (outer :: chain)) := by
  match chain with
  | [_] => rfl
  | _ :: _ :: _ => rfl

namespace Tree

variable {tree : Tree} {name : String} {r inner : RecordId} {field : Field} {chain : List FieldRef}

/-- An unnamed member that is no bit-field and, under whatever names, an anonymous record. -/
structure IsAnonymousMember (tree : Tree) (field : Field) (inner : RecordId) : Prop where
  unnamed : field.name = none
  stored : field.bitWidth = none
  type : ∃ id, field.type.canonical = .record id inner
  anonymous : (tree.record inner).name = none

theorem anonymousRecordOf?_eq_some_iff :
    tree.anonymousRecordOf? field = some inner ↔ tree.IsAnonymousMember field inner := by
  unfold anonymousRecordOf? Field.isBitField Record.isAnonymous
  constructor
  · intro found
    split at found
    · cases found
    · rename_i plain
      simp only [Bool.or_eq_true, not_or, Bool.not_eq_true, Option.isSome_eq_false_iff,
        Option.isNone_iff_eq_none] at plain
      simp only [Option.filter_eq_some_iff, Option.isNone_iff_eq_none] at found
      exact ⟨plain.1, plain.2, Ty.asRecord?_eq_some_iff.mp found.1, found.2⟩
  · rintro ⟨unnamed, stored, type, anonymous⟩
    simp [unnamed, stored, Ty.asRecord?_eq_some_iff.mpr type, anonymous]

/-- A record has another one as an anonymous member. -/
def Embeds (tree : Tree) (r inner : RecordId) : Prop :=
  ∃ field ∈ (tree.record r).fields, tree.IsAnonymousMember field inner

theorem Embeds.declared (h : tree.Embeds r inner) : r.position < tree.records.size := by
  by_contra outside
  obtain ⟨field, member, _⟩ := h
  rw [record_undeclared outside] at member
  cases member

/-- A chain of field positions that a name stands for in a record. -/
inductive IsChain (tree : Tree) (name : String) : RecordId → List FieldRef → Prop
  | here {r : RecordId} {index : Nat} {field : Field}
      (found : (tree.record r).fields[index]? = some field) (named : field.name = some name) :
      IsChain tree name r [⟨r, index⟩]
  | through {r inner : RecordId} {index : Nat} {field : Field} {chain : List FieldRef}
      (found : (tree.record r).fields[index]? = some field)
      (member : tree.IsAnonymousMember field inner) (rest : IsChain tree name inner chain) :
      IsChain tree name r (⟨r, index⟩ :: chain)

theorem IsChain.ne_nil (h : tree.IsChain name r chain) : chain ≠ [] := by
  cases h <;> exact List.cons_ne_nil _ _

/-- The chains that start at one field. -/
def chainsAt (tree : Tree) (name : String) (chains : RecordId → List (List FieldRef)) (r : RecordId)
    (entry : Field × Nat) : List (List FieldRef) :=
  if entry.1.name == some name then [[⟨r, entry.2⟩]]
  else match tree.anonymousRecordOf? entry.1 with
    | some inner => (chains inner).map (⟨r, entry.2⟩ :: ·)
    | none => []

/-- All chains, field by field. -/
def chains (tree : Tree) (name : String) : RecordId → List (List FieldRef) :=
  tree.descend [] fun chains r => (tree.record r).fields.zipIdx.flatMap (chainsAt tree name chains r)

/-- The order of two chains is that of their first different positions. -/
def Precedes (chain chain' : List FieldRef) : Prop :=
  List.Lex (· < ·) (chain.map (·.index)) (chain'.map (·.index))

/-- Every chain that starts at a field has its position first. -/
theorem head_of_mem_chainsAt {chains : RecordId → List (List FieldRef)} {entry : Field × Nat}
    (member : chain ∈ chainsAt tree name chains r entry) :
    ∃ rest, chain = ⟨r, entry.2⟩ :: rest := by
  unfold chainsAt at member
  split at member
  · exact ⟨[], List.mem_singleton.mp member⟩
  · split at member
    · obtain ⟨rest, _, same⟩ := List.mem_map.mp member
      exact ⟨rest, same.symm⟩
    · cases member

section Acyclic

variable (acyclic : Grounded tree.Embeds r)
include acyclic

theorem chains_eq : tree.chains name r =
    (tree.record r).fields.zipIdx.flatMap (chainsAt tree name (tree.chains name) r) := by
  refine tree.descend_eq (fun _ _ => Embeds.declared) (fun f g r same => ?_) acyclic
  refine List.flatMap_congr fun entry member => ?_
  unfold chainsAt
  split
  · rfl
  · split
    · rename_i inner found
      rw [same inner ⟨entry.1, List.fst_mem_of_mem_zipIdx member,
        anonymousRecordOf?_eq_some_iff.mp found⟩]
    · rfl

/-- By induction on what the record embeds, and field by field. -/
theorem mem_chains_iff : chain ∈ tree.chains name r ↔ tree.IsChain name r chain := by
  revert chain
  refine acyclic.induct (motive := fun r => ∀ {chain},
    chain ∈ tree.chains name r ↔ tree.IsChain name r chain) fun r acyclic ih chain => ?_
  rw [chains_eq acyclic, List.mem_flatMap]
  constructor
  · rintro ⟨⟨field, index⟩, entry, member⟩
    have found := List.mk_mem_zipIdx_iff_getElem?.mp entry
    unfold chainsAt at member
    split at member
    · rename_i named
      rw [List.mem_singleton.mp member]
      exact .here found (beq_iff_eq.mp named)
    · split at member
      · rename_i inner anonymous
        have anonymous := anonymousRecordOf?_eq_some_iff.mp anonymous
        obtain ⟨rest, below, rfl⟩ := List.mem_map.mp member
        have edge : tree.Embeds r inner := ⟨field, List.mem_of_getElem? found, anonymous⟩
        exact .through found anonymous ((ih inner edge).mp below)
      · cases member
  · intro h
    cases h with
    | @here _ index field found named =>
      refine ⟨(field, index), List.mk_mem_zipIdx_iff_getElem?.mpr found, ?_⟩
      rw [chainsAt, if_pos (beq_iff_eq.mpr named)]
      exact List.mem_singleton_self _
    | @through _ inner index field rest found anonymous below =>
      refine ⟨(field, index), List.mk_mem_zipIdx_iff_getElem?.mpr found, ?_⟩
      have edge : tree.Embeds r inner := ⟨field, List.mem_of_getElem? found, anonymous⟩
      rw [chainsAt, if_neg (by simp [anonymous.unnamed]),
        anonymousRecordOf?_eq_some_iff.mpr anonymous]
      exact List.mem_map_of_mem ((ih inner edge).mpr below)

theorem chains_pairwise : (tree.chains name r).Pairwise Precedes := by
  refine acyclic.induct (motive := fun r => (tree.chains name r).Pairwise Precedes)
    fun r acyclic ih => ?_
  rw [chains_eq acyclic, List.pairwise_flatMap]
  constructor
  · rintro ⟨field, index⟩ entry
    unfold chainsAt
    split
    · exact List.pairwise_singleton _ _
    · split
      · rename_i inner anonymous
        have edge : tree.Embeds r inner :=
          ⟨field, List.fst_mem_of_mem_zipIdx entry, anonymousRecordOf?_eq_some_iff.mp anonymous⟩
        exact List.pairwise_map.mpr ((ih inner edge).imp fun before => .cons before)
      · exact List.Pairwise.nil
  · -- Chains from different fields already differ in the first position.
    have positions : (tree.record r).fields.zipIdx.Pairwise fun a b => a.2 < b.2 := by
      have sorted : (((tree.record r).fields.zipIdx).map (·.2)).Pairwise (· < ·) := by
        rw [List.zipIdx_map_snd]
        exact List.pairwise_lt_range'
      exact List.pairwise_map.mp sorted
    refine positions.imp fun less chain first chain' second => ?_
    obtain ⟨_, rfl⟩ := head_of_mem_chainsAt first
    obtain ⟨_, rfl⟩ := head_of_mem_chainsAt second
    exact .rel less

theorem chains_nodup : (tree.chains name r).Nodup :=
  (chains_pairwise acyclic).imp fun {chain chain'} before same => by
    subst same
    exact List.lex_irrefl Nat.lt_irrefl _ before

/-- Looking a name up lists its chains, and after them the methods of that name that the record itself
declares. -/
theorem lookup_eq : tree.lookup name r =
    (tree.chains name r).map Member.ofChain ++ (tree.methodsNamed r name).map .method := by
  refine acyclic.induct (motive := fun r => tree.lookup name r =
    (tree.chains name r).map Member.ofChain ++ (tree.methodsNamed r name).map .method)
    fun r acyclic ih => ?_
  have unfolded : tree.lookup name r = ((tree.record r).fields.zipIdx.flatMap fun entry =>
      if entry.1.name == some name then [.field ⟨r, entry.2⟩]
      else match tree.anonymousRecordOf? entry.1 with
        | some inner => (tree.lookup name inner).filterMap (Member.through? ⟨r, entry.2⟩)
        | none => []) ++ (tree.methodsNamed r name).map .method := by
    refine tree.descend_eq (fun _ _ => Embeds.declared) (fun f g r same => ?_) acyclic
    refine congrArg (· ++ _) (List.flatMap_congr fun entry member => ?_)
    obtain ⟨field, index⟩ := entry
    dsimp only
    cases anonymous : tree.anonymousRecordOf? field with
    | none => rfl
    | some inner =>
      dsimp only
      rw [same inner ⟨field, List.fst_mem_of_mem_zipIdx member,
        anonymousRecordOf?_eq_some_iff.mp anonymous⟩]
  rw [unfolded, chains_eq acyclic, List.map_flatMap]
  refine congrArg (· ++ _) (List.flatMap_congr fun entry member => ?_)
  unfold chainsAt
  split
  · rfl
  · cases anonymous : tree.anonymousRecordOf? entry.1 with
    | none => rfl
    | some inner =>
      have edge : tree.Embeds r inner :=
        ⟨entry.1, List.fst_mem_of_mem_zipIdx member, anonymousRecordOf?_eq_some_iff.mp anonymous⟩
      -- Methods are not seen from outside.
      have hidden (methods : List MethodId) :
          (methods.map Member.method).filterMap (Member.through? ⟨r, entry.2⟩) = [] := by
        simp [List.filterMap_map, Function.comp_def, Member.through?]
      dsimp only
      rw [ih inner edge, List.filterMap_append, hidden, List.append_nil, List.filterMap_map,
        List.map_map, ← List.filterMap_eq_map]
      refine List.filterMap_congr fun chain member => ?_
      exact Member.through?_ofChain _ ((mem_chains_iff (acyclic.lower edge)).mp member).ne_nil

end Acyclic

end Tree

end ObjectLayout
