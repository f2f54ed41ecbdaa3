import Mathlib.Algebra.BigOperators.Group.Finset.Basic
import ObjectLayout.Proofs.Microsoft.Tables

/-! Which virtual bases have a vtordisp. The search along overrides comes to every method that some chain
reaches, and ends whether or not chains return to where they began: a look at a method that was seen
before shortens the list of what is pending, and any other look is the only one that the method gets.
What a class adds to the vtordisps of its bases is therefore a matter of paths, along overrides and then
along non-virtual bases, and not of the order in which anything is listed. -/
namespace ObjectLayout

namespace Tree

variable (tree : Tree)

/-- The method `m` overrides `m'` directly. -/
def Overrides (m m' : MethodId) : Prop := m' ∈ (tree.method m).overridden

instance (m m' : MethodId) : Decidable (tree.Overrides m m') :=
  inferInstanceAs (Decidable (m' ∈ (tree.method m).overridden))

/-- The class `r` declares a virtual method, not a destructor, whose overrides go back to a method that
overrides nothing and belongs to `c`. -/
def OverridesFrom (r c : RecordId) : Prop :=
  ∃ m ∈ (tree.record r).methods, (tree.method m).isVirtual = true ∧
    (tree.method m).kind ≠ .destructor ∧ ∃ first, Relation.ReflTransGen tree.Overrides m first ∧
      (tree.method first).overridden = [] ∧ (tree.method first).owner = c

/-- The class `r` declares a constructor or a destructor that is not implicit. -/
def DeclaresLifetime (r : RecordId) : Prop :=
  ∃ m ∈ (tree.record r).methods, (tree.method m).isImplicit = false ∧
    ((tree.method m).kind = .constructor ∨ (tree.method m).kind = .destructor)

variable {tree} {r : RecordId} {m m' : MethodId}

theorem Overrides.declared (h : tree.Overrides m m') : m.position < tree.methods.size := by
  by_contra outside
  have none : tree.methods.items[m.position]? = none :=
    Array.getElem?_eq_none (Nat.le_of_not_lt outside)
  have undeclared : tree.method m = .undeclared := by
    simp only [method, Arena.getD, Arena.get?, none, Option.getD_none]
  unfold Overrides at h
  rw [undeclared] at h
  cases h

theorem declaresConstructorOrDestructor_iff :
    tree.declaresConstructorOrDestructor r = true ↔ tree.DeclaresLifetime r := by
  simp only [declaresConstructorOrDestructor, hasUserDeclared, methodsOf, Bool.or_eq_true,
    List.any_map, List.any_eq_true, Function.comp_apply, Method.isUserDeclared, Bool.and_eq_true,
    beq_iff_eq, Bool.not_eq_true']
  constructor
  · rintro (⟨m, member, kind, written⟩ | ⟨m, member, kind, written⟩)
    · exact ⟨m, member, written, .inl kind⟩
    · exact ⟨m, member, written, .inr kind⟩
  · rintro ⟨m, member, written, kind | kind⟩
    · exact .inl ⟨m, member, kind, written⟩
    · exact .inr ⟨m, member, kind, written⟩

end Tree

namespace Microsoft

section Search

variable {tree : Tree} {starts rest : List MethodId} {search : OverrideSearch} {m : MethodId}
variable {r c : RecordId}

/-- A chain of overrides leads from one of the starts to the method. -/
def IsOverridden (tree : Tree) (starts : List MethodId) (m : MethodId) : Prop :=
  ∃ start ∈ starts, Relation.ReflTransGen tree.Overrides start m

/-- The method introduces something of `c`: it overrides nothing itself. -/
def Introduces (tree : Tree) (c : RecordId) (m : MethodId) : Prop :=
  (tree.method m).overridden = [] ∧ (tree.method m).owner = c

/-- What a search has come to. -/
structure Searching (tree : Tree) (starts : List MethodId) (search : OverrideSearch) : Prop where
  reached : ∀ m, m ∈ search.seen ∨ m ∈ search.pending → IsOverridden tree starts m
  starts : ∀ m ∈ starts, m ∈ search.seen ∨ m ∈ search.pending
  onward : ∀ m ∈ search.seen, ∀ m', tree.Overrides m m' → m' ∈ search.seen ∨ m' ∈ search.pending
  classes : ∀ c, c ∈ search.classes ↔ ∃ m ∈ search.seen, Introduces tree c m

theorem searching_start : Searching tree starts { pending := starts.reverse } where
  reached := by simpa using fun m member => ⟨m, member, .refl⟩
  starts := by simp
  onward := nofun
  classes := by simp

/-- A second look at a method does nothing. -/
theorem OverrideSearch.look_of_seen (seen : m ∈ search.seen) : search.look tree m = search :=
  if_pos (by simpa using seen)

theorem OverrideSearch.look_of_fresh (fresh : m ∉ search.seen) : search.look tree m = { search with
    seen := m :: search.seen
    pending := (tree.method m).overridden.reverse ++ search.pending
    classes := if (tree.method m).overridden = [] then
      appendNew search.classes [(tree.method m).owner] else search.classes } := by
  unfold OverrideSearch.look
  rw [if_neg (by simpa using fresh)]
  cases none : (tree.method m).overridden <;> simp [none]

theorem Searching.skip (h : Searching tree starts search) (next : search.pending = m :: rest)
    (seen : m ∈ search.seen) : Searching tree starts { search with pending := rest } := by
  have still {m' : MethodId} (known : m' ∈ search.seen ∨ m' ∈ search.pending) :
      m' ∈ search.seen ∨ m' ∈ rest := by
    rw [next, List.mem_cons] at known
    rcases known with before | rfl | later
    · exact .inl before
    · exact .inl seen
    · exact .inr later
  constructor
  case reached =>
    exact fun m' known => h.reached m' (known.imp_right fun later => next ▸ .tail _ later)
  case starts => exact fun m' start => still (h.starts m' start)
  case onward => exact fun m' before m'' overrides => still (h.onward m' before m'' overrides)
  case classes => exact h.classes

theorem Searching.visit (h : Searching tree starts search) (next : search.pending = m :: rest)
    (fresh : m ∉ search.seen) :
    Searching tree starts ({ search with pending := rest }.look tree m) := by
  have here : IsOverridden tree starts m := h.reached m (.inr (next ▸ List.mem_cons_self))
  have still {m' : MethodId} (known : m' ∈ search.seen ∨ m' ∈ search.pending) :
      m' ∈ m :: search.seen ∨ m' ∈ (tree.method m).overridden.reverse ++ rest := by
    rw [next, List.mem_cons] at known
    rcases known with before | rfl | later
    · exact .inl (.tail _ before)
    · exact .inl List.mem_cons_self
    · exact .inr (List.mem_append_right _ later)
  rw [OverrideSearch.look_of_fresh (by exact fresh)]
  constructor
  case reached =>
    rintro m' (seen | pending)
    · rcases List.mem_cons.mp seen with rfl | before
      · exact here
      · exact h.reached m' (.inl before)
    · rcases List.mem_append.mp pending with overridden | later
      · obtain ⟨start, listed, chain⟩ := here
        exact ⟨start, listed, chain.tail (List.mem_reverse.mp overridden)⟩
      · exact h.reached m' (.inr (next ▸ .tail _ later))
  case starts => exact fun m' start => still (h.starts m' start)
  case onward =>
    intro m' seen m'' overrides
    rcases List.mem_cons.mp seen with rfl | before
    · exact .inr (List.mem_append_left _ (List.mem_reverse.mpr overrides))
    · exact still (h.onward m' before m'' overrides)
  case classes =>
    intro c
    simp only [List.mem_cons, exists_eq_or_imp, ← h.classes]
    by_cases none : (tree.method m).overridden = []
    · simp [none, mem_appendNew, Introduces, or_comm, eq_comm]
    · simp [none, Introduces]

theorem Searching.look (h : Searching tree starts search) (next : search.pending = m :: rest) :
    Searching tree starts ({ search with pending := rest }.look tree m) := by
  by_cases seen : m ∈ search.seen
  · rw [OverrideSearch.look_of_seen (by exact seen)]
    exact h.skip next seen
  · exact h.visit next seen

/-- The looks that are left at most: one for everything pending, and for what methods lead on to that
have not been seen. -/
def OverrideSearch.looksLeft (tree : Tree) (search : OverrideSearch) : Nat :=
  let unseen := (Finset.range tree.methods.size).filter fun position => ⟨position⟩ ∉ search.seen
  search.pending.length + unseen.sum fun position => (tree.method ⟨position⟩).overridden.length

/-- Each look leaves fewer: one method is looked at, and what it leads on to was counted before. -/
theorem OverrideSearch.looksLeft_look (next : search.pending = m :: rest) :
    ({ search with pending := rest }.look tree m).looksLeft tree < search.looksLeft tree := by
  by_cases seen : m ∈ search.seen
  · rw [look_of_seen (by exact seen), looksLeft, looksLeft, next, List.length_cons]
    exact Nat.add_lt_add_right (Nat.lt_succ_self _) _
  · rw [look_of_fresh (by exact seen), looksLeft, looksLeft, next]
    let onward (position : Nat) := (tree.method ⟨position⟩).overridden.length
    let unseen := (Finset.range tree.methods.size).filter
      fun position => (⟨position⟩ : MethodId) ∉ search.seen
    have fewer : ((Finset.range tree.methods.size).filter
        fun position => (⟨position⟩ : MethodId) ∉ m :: search.seen) = unseen.erase m.position := by
      ext position
      have same : (⟨position⟩ : MethodId) = m ↔ position = m.position := by
        cases m
        simp
      simp only [unseen, List.mem_cons, not_or, Finset.mem_filter, Finset.mem_range, Finset.mem_erase,
        same]
      tauto
    -- Only declared methods lead on to others.
    have spent : onward m.position + (unseen.erase m.position).sum onward ≤ unseen.sum onward := by
      by_cases declared : m.position ∈ unseen
      · exact (Finset.add_sum_erase unseen onward declared).le
      · have none : (tree.method m).overridden = [] := by
          by_contra some
          obtain ⟨m', overrides⟩ := List.exists_mem_of_ne_nil _ some
          have position := Tree.Overrides.declared overrides
          exact declared (by simp [unseen, position, seen])
        have zero : onward m.position = 0 := congrArg List.length none
        rw [Finset.erase_eq_of_notMem declared, zero, Nat.zero_add]
    dsimp only
    rw [fewer, List.length_append, List.length_reverse, List.length_cons]
    change onward m.position + rest.length + (unseen.erase m.position).sum onward <
      rest.length + 1 + unseen.sum onward
    omega

theorem looksLeft_start (tree : Tree) (starts : List MethodId) :
    ({ pending := starts.reverse } : OverrideSearch).looksLeft tree < looksFrom tree starts := by
  have listed : tree.methods.items.toList.map (·.overridden.length) =
      (List.range tree.methods.size).map fun position =>
        (tree.method ⟨position⟩).overridden.length := by
    apply List.ext_getElem (by simp [Arena.size])
    intro position inside inside'
    have declared : position < tree.methods.items.size := by simpa using inside
    simp [Tree.method, Arena.getD, Arena.get?, declared]
  have all (onward : Nat → Nat) : (Finset.range tree.methods.size).sum onward =
      ((List.range tree.methods.size).map onward).sum := by
    rw [Finset.sum_eq_multiset_sum]
    exact Multiset.sum_coe _
  simp [OverrideSearch.looksLeft, looksFrom, List.length_flatMap, listed, all]

/-- A search that has looks enough ends with the classes that some chain of overrides goes back to: when
nothing is pending, what has been seen is closed under overriding. -/
theorem searchOverrides_finds {looks : Nat} (h : Searching tree starts search)
    (enough : search.looksLeft tree < looks) : ∃ found, searchOverrides tree looks search = .ok found ∧
      ∀ c, c ∈ found ↔ ∃ m, IsOverridden tree starts m ∧ Introduces tree c m := by
  induction looks generalizing search with
  | zero => omega
  | succ looks ih =>
    unfold searchOverrides
    split
    case h_1 done =>
      refine ⟨search.classes, rfl, fun c => (h.classes c).trans ?_⟩
      have seen (m : MethodId) (known : m ∈ search.seen ∨ m ∈ search.pending) : m ∈ search.seen := by
        simpa [done] using known
      constructor
      · rintro ⟨m, member, introduces⟩
        exact ⟨m, h.reached m (.inl member), introduces⟩
      · rintro ⟨m, ⟨start, listed, chain⟩, introduces⟩
        refine ⟨m, ?_, introduces⟩
        clear introduces
        induction chain with
        | refl => exact seen start (h.starts start listed)
        | tail _ overrides ih => exact seen _ (h.onward _ ih _ overrides)
    case h_2 m rest next =>
      have left := (OverrideSearch.looksLeft_look next).trans_le (Nat.le_of_lt_succ enough)
      exact ih (h.look next) left

/-- Looks that a search does not need change nothing. -/
theorem searchOverrides_mono {looks more : Nat} {found : List RecordId}
    (done : searchOverrides tree looks search = .ok found) (le : looks ≤ more) :
    searchOverrides tree more search = .ok found := by
  induction looks generalizing search more with
  | zero => cases done
  | succ looks ih =>
    obtain _ | more := more
    · omega
    unfold searchOverrides at done ⊢
    split at done
    · exact done
    · exact ih done (Nat.le_of_succ_le_succ le)

end Search

section Classes

variable {tree : Tree} {r c v : RecordId} {classes : List RecordId}

/-- The classes that a record's methods go back to are found, whatever overrides what. -/
theorem exists_introducingClasses (tree : Tree) (r : RecordId) :
    ∃ found, introducingClasses tree r = .ok found ∧ ∀ c, c ∈ found ↔ tree.OverridesFrom r c := by
  obtain ⟨found, ends, listed⟩ := searchOverrides_finds searching_start (looksLeft_start tree
    ((tree.record r).methods.filter fun m => (tree.method m).isVirtual && (tree.method m).kind != .destructor))
  refine ⟨found, ends, fun c => (listed c).trans ?_⟩
  simp only [IsOverridden, Introduces, List.mem_filter, Bool.and_eq_true, bne_iff_ne]
  constructor
  · rintro ⟨first, ⟨m, ⟨member, virt, kind⟩, chain⟩, introduced, owner⟩
    exact ⟨m, member, virt, kind, first, chain, introduced, owner⟩
  · rintro ⟨m, member, virt, kind, first, chain, introduced, owner⟩
    exact ⟨first, ⟨m, ⟨member, virt, kind⟩, chain⟩, introduced, owner⟩

theorem holdsOneOf_eq (acyclic : tree.Acyclic r) : holdsOneOf tree classes r =
    (classes.contains r || (tree.record r).nonVirtualBases.any (holdsOneOf tree classes ·.record)) := by
  refine tree.descend_eq (fun _ _ (edge : tree.Inherits _ _) => edge.declared) ?_ acyclic
  intro f g r same
  congr 1
  rw [Bool.eq_iff_iff, List.any_eq_true, List.any_eq_true]
  apply exists_congr
  intro base
  apply and_congr_right
  intro member
  rw [same base.record ⟨base, (List.mem_filter.mp member).1, rfl⟩]

theorem holdsOneOf_iff (acyclic : tree.Acyclic v) : holdsOneOf tree classes v = true ↔
    ∃ c ∈ classes, Relation.ReflTransGen tree.InheritsPlainly v c := by
  induction acyclic with
  | intro v lower ih =>
  rw [holdsOneOf_eq (.intro lower), Bool.or_eq_true, List.any_eq_true, List.contains_iff_mem]
  constructor
  · rintro (here | ⟨base, member, there⟩)
    · exact ⟨v, here, .refl⟩
    · have edge : tree.InheritsPlainly v base.record := ⟨base, member, rfl⟩
      obtain ⟨c, listed, path⟩ := (ih base.record edge.inherits).mp there
      exact ⟨c, listed, .head edge path⟩
  · rintro ⟨c, listed, path⟩
    rcases Relation.ReflTransGen.cases_head path with rfl | ⟨_, ⟨base, member, rfl⟩, further⟩
    · exact .inl listed
    · have edge : tree.InheritsPlainly v base.record := ⟨base, member, rfl⟩
      exact .inr ⟨base, member, (ih base.record edge.inherits).mpr ⟨c, listed, further⟩⟩

end Classes

section Order

/-- The trees differ at most in the order and the repetition of the methods that records list and of
those that methods override. -/
structure ListsAlike (tree tree' : Tree) : Prop where
  count : tree'.records.size = tree.records.size
  bases : ∀ r, (tree'.record r).bases = (tree.record r).bases
  methods : ∀ r m, m ∈ (tree'.record r).methods ↔ m ∈ (tree.record r).methods
  method : ∀ m, tree'.method m = { tree.method m with overridden := (tree'.method m).overridden }
  overrides : ∀ m m', tree'.Overrides m m' ↔ tree.Overrides m m'

namespace ListsAlike

variable {tree tree' : Tree} (alike : ListsAlike tree tree')
include alike

theorem nonVirtualBases (r : RecordId) :
    (tree'.record r).nonVirtualBases = (tree.record r).nonVirtualBases := by
  rw [Record.nonVirtualBases, Record.nonVirtualBases, alike.bases]

theorem introduces (m : MethodId) : (tree'.method m).overridden = [] ↔ (tree.method m).overridden = [] := by
  rw [List.eq_nil_iff_forall_not_mem, List.eq_nil_iff_forall_not_mem]
  exact forall_congr' fun m' => not_congr (alike.overrides m m')

theorem isVirtual (m : MethodId) : (tree'.method m).isVirtual = (tree.method m).isVirtual := by
  rw [alike.method]

theorem kind (m : MethodId) : (tree'.method m).kind = (tree.method m).kind := by
  rw [alike.method]

theorem isImplicit (m : MethodId) : (tree'.method m).isImplicit = (tree.method m).isImplicit := by
  rw [alike.method]

theorem owner (m : MethodId) : (tree'.method m).owner = (tree.method m).owner := by
  rw [alike.method]

theorem overridesFrom (r c : RecordId) : tree'.OverridesFrom r c ↔ tree.OverridesFrom r c := by
  have same : tree'.Overrides = tree.Overrides := by
    funext m m'
    exact propext (alike.overrides m m')
  simp only [Tree.OverridesFrom, same, alike.methods, alike.introduces, alike.isVirtual, alike.kind,
    alike.owner]

theorem declaresConstructorOrDestructor (r : RecordId) :
    tree'.declaresConstructorOrDestructor r = tree.declaresConstructorOrDestructor r := by
  rw [Bool.eq_iff_iff, Tree.declaresConstructorOrDestructor_iff,
    Tree.declaresConstructorOrDestructor_iff]
  simp only [Tree.DeclaresLifetime, alike.methods, alike.kind, alike.isImplicit]

theorem virtualBases : tree'.virtualBases = tree.virtualBases := by
  simp only [Tree.virtualBases, Tree.descend, alike.count, alike.bases]

theorem holdsOneOf {classes classes' : List RecordId}
    (same : ∀ c, c ∈ classes' ↔ c ∈ classes) :
    Microsoft.holdsOneOf tree' classes' = Microsoft.holdsOneOf tree classes := by
  have contains (r : RecordId) : classes'.contains r = classes.contains r := by
    rw [Bool.eq_iff_iff, List.contains_iff_mem, List.contains_iff_mem]
    exact same r
  simp only [Microsoft.holdsOneOf, Tree.descend, alike.count, alike.nonVirtualBases, contains]

/-- Neither order nor repetition changes the computation. -/
theorem vtordisps (r : RecordId) : Microsoft.vtordisps tree' r = Microsoft.vtordisps tree r := by
  obtain ⟨found, ends, listed⟩ := exists_introducingClasses tree r
  obtain ⟨found', ends', listed'⟩ := exists_introducingClasses tree' r
  have classes (c : RecordId) : c ∈ found' ↔ c ∈ found := by
    rw [listed, listed']
    exact alike.overridesFrom r c
  have lifted (classes : List RecordId) :
      (liftM (Except.ok classes : Checked _) : LayoutM (List RecordId)) = pure classes := rfl
  simp only [Microsoft.vtordisps, inheritedVtordisps, alike.bases,
    alike.declaresConstructorOrDestructor, alike.virtualBases, ends, ends', lifted,
    LayoutM.pure_bind, alike.holdsOneOf classes]

end ListsAlike

end Order

section Slots

open LayoutM (ends_bind ends_lift_bind)

variable {s : Setting} {known : Known} {f : Frame} {st : State} {tree : Tree} {r v : RecordId}

/-- The layout has a vtordisp before the virtual base `v`. -/
def HasVtordisp (layout : RecordLayout) (v : RecordId) : Prop :=
  ∃ slot, layout.virtualBaseSlot v = .ok slot ∧ slot.hasVtordisp = true

/-- A direct base of `r` has a vtordisp before `v`. -/
def InheritsVtordisp (tree : Tree) (known : Known) (r v : RecordId) : Prop :=
  ∃ b, tree.Inherits r b ∧ ∃ layout, known.record b = .ok layout ∧ HasVtordisp layout v

/-- The class `r` needs a vtordisp before `v` for what it declares itself. -/
def DeclaresVtordisp (tree : Tree) (r v : RecordId) : Prop :=
  tree.DeclaresLifetime r ∧
    ∃ c, tree.OverridesFrom r c ∧ Relation.ReflTransGen tree.InheritsPlainly v c

theorem virtualBaseSlot_eq_ok {layout : RecordLayout} {slot : VirtualBaseSlot} :
    layout.virtualBaseSlot v = .ok slot ↔
      ∃ part, layout.asClass = some part ∧ part.virtualBaseSlots.find? v = some slot := by
  unfold RecordLayout.virtualBaseSlot RecordLayout.classLayout
  cases layout.asClass with
  | none => exact ⟨nofun, fun ⟨_, same, _⟩ => nomatch same⟩
  | some part =>
    cases found : part.virtualBaseSlots.find? v with
    | none => simp [bind, Except.bind, found, throw, throwThe, MonadExceptOf.throw]
    | some slot' => simp [bind, Except.bind, found, pure, Except.pure]

/-- The virtual bases of every laid out record are listed once. -/
theorem slots_nodup (microsoft : s.usesMicrosoftLayout = true) {depth : Nat} {layout : RecordLayout}
    (laid : (s.known depth).record r = .ok layout) {part : ClassLayout}
    (asClass : layout.asClass = some part) : part.virtualBaseSlots.keys.Nodup := by
  have acyclic := (hasVbptr_iff microsoft depth laid).1
  have rules := s.known_record laid
  cases isClass : (s.tree.record r).isClass with
  | false => simp [plain_asClass microsoft isClass rules] at asClass
  | true =>
    obtain ⟨run, rfl⟩ := classRun microsoft isClass rules
    cases asClass
    have distinct := Tree.virtualBases_nodup acyclic
    change run.last.virtualBaseSlots.keys.Nodup
    rw [run.virtualBaseSlots_keys distinct]
    split
    · exact distinct
    · exact .nil

theorem mem_vtordisps (microsoft : s.usesMicrosoftLayout = true) {depth : Nat}
    {layout : RecordLayout} (laid : (s.known depth).record r = .ok layout) :
    v ∈ layout.vtordisps ↔ HasVtordisp layout v := by
  simp only [HasVtordisp, virtualBaseSlot_eq_ok]
  unfold RecordLayout.vtordisps
  cases asClass : layout.asClass with
  | none => simp
  | some part =>
    have distinct := slots_nodup microsoft laid asClass
    rw [Option.elim_some, List.mem_filterMap]
    constructor
    · rintro ⟨⟨base, slot⟩, member, has⟩
      cases vtordisp : slot.hasVtordisp with
      | false => simp [vtordisp] at has
      | true =>
        obtain rfl : base = v := by simpa [vtordisp] using has
        exact ⟨slot, ⟨part, rfl, OrderedMap.find?_of_mem distinct member⟩, vtordisp⟩
    · rintro ⟨slot, ⟨_, ⟨⟩, found⟩, vtordisp⟩
      exact ⟨(v, slot), OrderedMap.mem_of_find? found, by simp [vtordisp]⟩

theorem inheritedVtordisps_ends {allowed : Fault → Prop}
    (laid : ∀ b, tree.Inherits r b → ∃ layout, known.record b = .ok layout) :
    Ends allowed ((inheritedVtordisps tree r).eval known) fun found => ∀ v, v ∈ found ↔
      ∃ b, tree.Inherits r b ∧ ∃ layout, known.record b = .ok layout ∧ v ∈ layout.vtordisps := by
  unfold inheritedVtordisps
  rw [LayoutM.eval_foldlM]
  refine Ends.imp (?_ : Ends allowed _ fun found : List RecordId => ∀ v, v ∈ found ↔
    ∃ base ∈ (tree.record r).bases, ∃ layout, known.record base.record = .ok layout ∧
      v ∈ layout.vtordisps) ?_
  · refine Ends.foldlM (K := fun (done : List Base) _ (found : List RecordId) => ∀ v, v ∈ found ↔
      ∃ base ∈ done, ∃ layout, known.record base.record = .ok layout ∧ v ∈ layout.vtordisps)
      (fun v => by simp) ?_
    intro done base rest found split sofar
    have member : base ∈ (tree.record r).bases := by simp [split]
    obtain ⟨layout, laid⟩ := laid base.record ⟨base, member, rfl⟩
    rw [LayoutM.eval_layoutOf_bind laid]
    intro v
    rw [mem_appendNew, sofar]
    simp only [List.mem_append, List.mem_singleton, or_and_right, exists_or, exists_eq_left, laid,
      Except.ok.injEq, exists_eq_left']
  · intro found listed v
    rw [listed]
    constructor
    · rintro ⟨base, member, there⟩
      exact ⟨base.record, ⟨base, member, rfl⟩, there⟩
    · rintro ⟨_, ⟨base, member, rfl⟩, there⟩
      exact ⟨base, member, there⟩

/-- The computation ends with the vtordisps of the bases and those that the class adds. -/
theorem vtordisps_ends {allowed : Fault → Prop} (acyclic : tree.Acyclic r)
    (laid : ∀ b, tree.Inherits r b → ∃ layout, known.record b = .ok layout) :
    Ends allowed ((vtordisps tree r).eval known) fun found => ∀ v, tree.HasVirtualBase r v →
      (v ∈ found ↔ (∃ b, tree.Inherits r b ∧ ∃ layout, known.record b = .ok layout ∧
        v ∈ layout.vtordisps) ∨ DeclaresVtordisp tree r v) := by
  unfold vtordisps
  refine ends_bind (inheritedVtordisps_ends laid) ?_
  intro inherited listed
  cases declares : tree.declaresConstructorOrDestructor r with
  | false =>
    intro v _
    have none : ¬ DeclaresVtordisp tree r v := by
      rintro ⟨lifetime, _⟩
      rw [← Tree.declaresConstructorOrDestructor_iff, declares] at lifetime
      cases lifetime
    rw [or_iff_left none]
    exact listed v
  | true =>
    obtain ⟨classes, ends, introduced⟩ := exists_introducingClasses tree r
    refine ends_lift_bind (G := (· = classes)) (by rw [ends]; rfl) fun found same => ?_
    subst same
    intro v has
    have below : tree.Acyclic v := acyclic.transGen.lower has.below |>.of_transGen
    have lifetime := Tree.declaresConstructorOrDestructor_iff.mp declares
    rw [mem_appendNew, listed v, List.mem_filter, Tree.mem_virtualBases acyclic,
      holdsOneOf_iff below]
    apply or_congr_right
    rw [and_iff_right has, DeclaresVtordisp, and_iff_right lifetime]
    simp only [introduced]

theorem layVirtualBases_vtordisps (has : st.hasVbptr = true) :
    Ends (fun _ => True) ((layVirtualBases f st).eval known) fun st' =>
      ∃ found, (vtordisps f.tree f.record).eval known = .ok found ∧
        ∀ v ∈ f.tree.virtualBases f.record, ∃ slot,
          st'.virtualBaseSlots.find? v = some slot ∧ slot.hasVtordisp = found.contains v := by
  unfold layVirtualBases
  rw [has]
  refine ends_bind Ends.any ?_
  intro found computed
  refine ends_bind (G := fun walk : BaseWalk => ∀ v ∈ f.tree.virtualBases f.record, ∃ slot,
    walk.state.virtualBaseSlots.find? v = some slot ∧ slot.hasVtordisp = found.contains v) ?_
    fun walk slots => ⟨found, computed, slots⟩
  rw [LayoutM.eval_foldlM]
  apply Ends.foldlM (K := fun done _ (walk : BaseWalk) => ∀ v ∈ done, ∃ slot,
    walk.state.virtualBaseSlots.find? v = some slot ∧ slot.hasVtordisp = found.contains v)
  case first => exact fun v member => nomatch member
  case next =>
    intro done r rest walk split sofar
    apply layVirtualBase_placed.imp
    rintro walk' ⟨layout, slot, _, vtordisp, placed⟩
    rw [placed.state]
    intro v member
    by_cases same : v = r
    · subst same
      exact ⟨slot, OrderedMap.find?_insert_self _ _ _, vtordisp⟩
    · have earlier : v ∈ done := by simpa [same] using member
      obtain ⟨slot', found', vtordisp'⟩ := sofar v earlier
      exact ⟨slot', (OrderedMap.find?_insert_of_ne _ _ same).trans found', vtordisp'⟩

end Slots

/-- What is to be said of the vtordisps of a class. -/
structure VtordispsExact (s : Setting) (known : Known) (d : RecordId) (layout : RecordLayout) :
    Prop where
  /-- The virtual bases with a vtordisp are those that need one, -/
  exact_iff : ∀ v, s.tree.HasVirtualBase d v →
    (HasVtordisp layout v ↔ InheritsVtordisp s.tree known d v ∨ DeclaresVtordisp s.tree d v)
  /-- and finding them always ends, whatever overrides what: it has a value where the bases have
  layouts, -/
  ends : ∀ known', (∀ b, s.tree.Inherits d b → ∃ layout, known'.record b = .ok layout) →
    ∃ found, (vtordisps s.tree d).eval known' = .ok found
  /-- the search along overrides never runs out of looks, -/
  settled : ∀ methods : List MethodId, ∃ classes, ∀ looks, looksFrom s.tree methods ≤ looks →
    searchOverrides s.tree looks { pending := methods.reverse } = .ok classes
  /-- and neither order nor repetition changes anything. -/
  unordered : ∀ tree', ListsAlike s.tree tree' → vtordisps tree' d = vtordisps s.tree d

/-- Virtual bases have a vtordisp exactly where they need one. -/
theorem vtordisps_exactly_required {s : Setting} {d : RecordId} {depth : Nat} {layout : RecordLayout}
    (microsoft : s.usesMicrosoftLayout = true) (isClass : (s.tree.record d).isClass = true)
    (laid : (s.known depth).record d = .ok layout) :
    VtordispsExact s (s.known depth) d layout := by
  obtain ⟨acyclic, hasVbptr⟩ := hasVbptr_iff microsoft depth laid
  have rules := s.known_record laid
  obtain ⟨run, rfl⟩ := classRun microsoft isClass rules
  have bases (b : RecordId) (edge : s.tree.Inherits d b) :
      ∃ layout, (s.known depth).record b = .ok layout := by
    obtain ⟨base, member, rfl⟩ := edge
    exact run.once.bases.asked base member
  constructor
  case exact_iff =>
    intro v has
    have closed : run.closed.hasVbptr = true := by
      rw [run.hasVbptr_closed, ← run.last.classLayout_hasVbptr]
      exact hasVbptr.mpr ⟨v, has⟩
    obtain ⟨found, computed, slots⟩ := (layVirtualBases_vtordisps closed).value run.virtualBases
    obtain ⟨slot, there, vtordisp⟩ := slots v ((Tree.mem_virtualBases acyclic).mpr has)
    have slot_eq : run.last.classLayout.virtualBaseSlot v = .ok slot := by
      rw [virtualBaseSlot_eq_ok]
      exact ⟨_, rfl, run.finished.virtualBaseSlots ▸ there⟩
    have listed : HasVtordisp run.last.classLayout v ↔ v ∈ found := by
      rw [← List.contains_iff_mem, ← vtordisp]
      constructor
      · rintro ⟨slot', found', has'⟩
        rw [slot_eq] at found'
        cases found'
        exact has'
      · exact fun has' => ⟨slot, slot_eq, has'⟩
    have required := Ends.holds (vtordisps_ends acyclic bases) computed v has
    rw [listed, required]
    apply or_congr_left
    apply exists_congr
    intro b
    apply and_congr_right
    intro edge
    apply exists_congr
    intro inner
    apply and_congr_right
    exact fun laid' => mem_vtordisps microsoft laid'
  case ends =>
    intro known' bases'
    obtain ⟨found, computed, _⟩ := (vtordisps_ends acyclic bases').exists_value
    exact ⟨found, computed⟩
  case settled =>
    intro methods
    obtain ⟨classes, found, _⟩ := searchOverrides_finds searching_start (looksLeft_start s.tree methods)
    exact ⟨classes, fun looks enough => searchOverrides_mono found enough⟩
  case unordered => exact fun tree' alike => alike.vtordisps d

/-- `D` has a constructor and overrides `B::f`, which overrides `V::f`, and `B::g`, which overrides it
in turn. -/
def cyclicOverrides : Setting :=
  .windows .x86_64 [
    .ofClass "V" [{ name := "v", type := .scalar ⟨0⟩ (.integer .int .signed) }] [] [⟨0⟩],
    .ofClass "B" [] [{ record := ⟨0⟩, isVirtual := true }] [⟨1⟩, ⟨2⟩],
    .ofClass "D" [] [{ record := ⟨1⟩ }] [⟨3⟩, ⟨4⟩]]
    [{ name := "f", owner := ⟨0⟩, isVirtual := true },
      { name := "f", owner := ⟨1⟩, isVirtual := true, overridden := [⟨2⟩, ⟨0⟩] },
      { name := "g", owner := ⟨1⟩, isVirtual := true, overridden := [⟨1⟩] },
      { name := "f", owner := ⟨2⟩, isVirtual := true, overridden := [⟨1⟩] },
      { name := "D", owner := ⟨2⟩, kind := .constructor }]

theorem vtordisps_exactly_required_cyclicOverrides : ∃ layout,
    (cyclicOverrides.known 4).record ⟨2⟩ = .ok layout ∧ HasVtordisp layout ⟨0⟩ ∧
      ¬ InheritsVtordisp cyclicOverrides.tree (cyclicOverrides.known 4) ⟨2⟩ ⟨0⟩ ∧
      VtordispsExact cyclicOverrides (cyclicOverrides.known 4) ⟨2⟩ layout := by
  obtain ⟨layout, laid⟩ := exists_ok (by decide +kernel :
    ((cyclicOverrides.known 4).record ⟨2⟩).isOk = true)
  have microsoft : cyclicOverrides.usesMicrosoftLayout = true := by decide
  have exact := vtordisps_exactly_required microsoft (by decide) laid
  have chain : Relation.ReflTransGen cyclicOverrides.tree.Overrides ⟨3⟩ ⟨0⟩ := by
    refine .head (b := ⟨1⟩) ?_ (.single ?_) <;> decide
  have virt : cyclicOverrides.tree.HasVirtualBase ⟨2⟩ ⟨0⟩ := by
    refine ⟨⟨1⟩, .single ⟨_, List.mem_of_getElem? (i := 0) rfl, rfl⟩, ?_⟩
    exact ⟨_, List.mem_of_getElem? (i := 0) rfl, rfl, rfl⟩
  have needs : DeclaresVtordisp cyclicOverrides.tree ⟨2⟩ ⟨0⟩ := by
    refine ⟨⟨⟨4⟩, by decide, by decide, by decide⟩, ⟨0⟩, ?_, .refl⟩
    exact ⟨⟨3⟩, by decide, by decide, by decide, ⟨0⟩, chain, by decide, by decide⟩
  refine ⟨layout, laid, (exact.exact_iff _ virt).mpr (.inr needs), ?_, exact⟩
  rintro ⟨b, ⟨base, member, rfl⟩, inner, laid', has⟩
  rw [← mem_vtordisps microsoft laid'] at has
  have none : ∀ base ∈ (cyclicOverrides.tree.record ⟨2⟩).bases,
      ((cyclicOverrides.known 4).record base.record).toOption.elim [] (·.vtordisps) = [] := by
    decide +kernel
  have empty := none base member
  rw [laid'] at empty
  change inner.vtordisps = [] at empty
  rw [empty] at has
  cases has

end Microsoft

end ObjectLayout
