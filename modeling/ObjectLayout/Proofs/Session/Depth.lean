import Mathlib.Data.Finset.Card
import Mathlib.Data.Fintype.Card
import Mathlib.Data.Fintype.Sum
import ObjectLayout.Proofs.Knowledge
import ObjectLayout.Proofs.Session.Asking

/-! The depth to which layouts are worked out is no limit for declarations with a catalog of types. Where
a layout needs others to some depth, every greater depth has the same outcome; with each further level
the layout of another record or type comes to its end, until nothing changes any more, and there are
no more levels than records and types. -/
namespace ObjectLayout

variable {s : Setting} {known known' : Known} {types : List Ty}

/-- Two outcomes of one computation, the second one with more depth to spare. -/
def Deepens (outcome deeper : Checked α) : Prop := outcome = .error .endless ∨ outcome = deeper

theorem Deepens.of_ok {outcome deeper : Checked α} {value : α} (h : Deepens outcome deeper)
    (ok : outcome = .ok value) : deeper = .ok value := by
  rcases h with endless | same
  · cases ok.symm.trans endless
  · exact same.symm.trans ok

theorem Deepens.ok_inj {outcome deeper : Checked α} {value value' : α} (h : Deepens outcome deeper)
    (ok : outcome = .ok value) (ok' : deeper = .ok value') : value = value' :=
  Except.ok.inj ((h.of_ok ok).symm.trans ok')

theorem Deepens.bind {outcome deeper : Checked α} {next next' : α → Checked β}
    (first : Deepens outcome deeper) (second : ∀ value, Deepens (next value) (next' value)) :
    Deepens (outcome >>= next) (deeper >>= next') := by
  rcases first with endless | rfl
  · rw [endless]
    exact .inl rfl
  · cases outcome with
    | ok value => exact second value
    | error fault => exact .inr rfl

/-- Every layout known here is the same there, and so is every fault that is no lack of depth. -/
structure Known.Deepens (known known' : Known) : Prop where
  record : ∀ r, ObjectLayout.Deepens (known.record r) (known'.record r)
  type : ∀ type, ObjectLayout.Deepens (known.type type) (known'.type type)

namespace LayoutM

theorem eval_deepens (deepens : known.Deepens known') (x : LayoutM α) :
    Deepens (x.eval known) (x.eval known') := by
  induction x with
  | done value => exact .inr rfl
  | stop fault => exact .inr rfl
  | askRecord record next ih => exact (deepens.record record).bind ih
  | askType type next ih => exact (deepens.type type).bind ih
  | tell note rest ih => exact ih

/-- The outcome depends on what is asked alone. -/
theorem eval_congr {allowed : Ty → Prop} {notes : Note → Prop}
    (records : ∀ r, known.record r = known'.record r)
    (types : ∀ type, allowed type → known.type type = known'.type type) {x : LayoutM α}
    (h : x.Confined allowed notes) : x.eval known = x.eval known' := by
  induction x with
  | done value => rfl
  | stop fault => rfl
  | askRecord record next ih =>
    change known.record record >>= _ = known'.record record >>= _
    rw [records record]
    exact congrArg _ (funext fun layout => ih layout (h layout))
  | askType type next ih =>
    change known.type type >>= _ = known'.type type >>= _
    rw [types type h.1]
    exact congrArg _ (funext fun layout => ih layout (h.2 layout))
  | tell note rest ih => exact ih h.2

end LayoutM

/-- Whatever greater depths add, they change no outcome that is there. -/
theorem Setting.known_deepens (s : Setting) (depth : Nat) :
    (s.known depth).Deepens (s.known (depth + 1)) := by
  induction depth with
  | zero => exact ⟨fun _ => .inl rfl, fun _ => .inl rfl⟩
  | succ depth ih =>
    exact ⟨fun r => LayoutM.eval_deepens ih (RecordLayout.ofRecord s r),
      fun type => LayoutM.eval_deepens ih (TypeLayout.ofTy s type)⟩

theorem Deepens.trans {outcome deeper deepest : Checked α} (h : Deepens outcome deeper)
    (h' : Deepens deeper deepest) : Deepens outcome deepest := by
  rcases h with endless | rfl
  · exact .inl endless
  · exact h'

theorem Setting.known_deepens_le (s : Setting) {depth deeper : Nat} (le : depth ≤ deeper) :
    (s.known depth).Deepens (s.known deeper) := by
  induction le with
  | refl => exact ⟨fun _ => .inr rfl, fun _ => .inr rfl⟩
  | step _ ih =>
    have next := s.known_deepens
    exact ⟨fun r => (ih.record r).trans ((next _).record r),
      fun type => (ih.type type).trans ((next _).type type)⟩

/-- A growing property of finitely many things that stands still once it has stood still grows no
further after as many steps as there are things. -/
theorem still_after_card {ι : Type} [Fintype ι] (settled : Nat → ι → Prop)
    (grows : ∀ n i, settled n i → settled (n + 1) i)
    (still : ∀ n, (∀ i, settled (n + 1) i → settled n i) →
      ∀ i, settled (n + 2) i → settled (n + 1) i) {i : ι}
    (h : settled (Fintype.card ι + 1) i) : settled (Fintype.card ι) i := by
  classical
  let stage (n : Nat) : Finset ι := Finset.univ.filter (settled n)
  have within (n : Nat) : stage n ⊆ stage (n + 1) := fun i member => by
    simpa [stage] using grows n i (by simpa [stage] using member)
  have count : Monotone fun n => (stage n).card :=
    monotone_nat_of_le_succ fun n => Finset.card_le_card (within n)
  have stands (n : Nat) (same : (stage n).card = (stage (n + 1)).card) (i : ι)
      (later : settled (n + 1) i) : settled n i := by
    have equal := Finset.eq_of_subset_of_card_le (within n) same.ge
    have member : i ∈ stage (n + 1) := by simpa [stage] using later
    rw [← equal] at member
    simpa [stage] using member
  refine stands _ (Nat.stabilises_of_monotone count (fun n => Finset.card_le_univ _) ?_
    (Nat.le_succ _)).symm i h
  intro n same
  refine congrArg _ (Finset.Subset.antisymm (within _) fun i member => ?_)
  have later : settled (n + 2) i := by simpa [stage] using member
  simpa [stage] using still n (stands n same) i later

namespace Known

/-- Two tables of known layouts that agree on all records and on the types of the catalog. -/
structure Agrees (types : List Ty) (known known' : Known) : Prop where
  record : ∀ r, known.record r = known'.record r
  type : ∀ type ∈ types, known.type type = known'.type type

/-- Whether the layout of a declared record, or of a type of the catalog, has come to its end. -/
def Settled (known : Known) (size : Nat) (types : List Ty) : Fin size ⊕ Fin types.length → Prop
  | .inl r => known.record ⟨r⟩ ≠ .error .endless
  | .inr i => known.type (types.get i) ≠ .error .endless

end Known

namespace Setting

theorem known_undeclared {r : RecordId} (outside : ¬ r.position < s.tree.records.size)
    (depth depth' : Nat) :
    (s.known (depth + 1)).record r = (s.known (depth' + 1)).record r := by
  have undeclared := Tree.record_undeclared outside
  change (RecordLayout.ofRecord s r).eval _ = (RecordLayout.ofRecord s r).eval _
  unfold RecordLayout.ofRecord RecordLayout.ensureComplete
  rw [undeclared]
  rfl

/-- Where no further layout has come to its end, no layout has changed. -/
theorem known_agrees_of_settled {depth : Nat}
    (still : ∀ i, (s.known (depth + 2)).Settled s.tree.records.size types i →
      (s.known (depth + 1)).Settled s.tree.records.size types i) :
    Known.Agrees types (s.known (depth + 1)) (s.known (depth + 2)) := by
  have deepens := s.known_deepens (depth + 1)
  constructor
  case record =>
    intro r
    by_cases declared : r.position < s.tree.records.size
    · rcases deepens.record r with endless | same
      · by_contra other
        refine still (.inl ⟨r.position, declared⟩) (fun endless' => other ?_) endless
        exact endless.trans endless'.symm
      · exact same
    · exact known_undeclared declared _ _
  case type =>
    intro type member
    obtain ⟨i, bound, rfl⟩ := List.getElem_of_mem member
    rcases deepens.type types[i] with endless | same
    · by_contra other
      refine still (.inr ⟨i, bound⟩) (fun endless' => other ?_) endless
      exact endless.trans endless'.symm
    · exact same

variable (catalog : s.tree.Catalog types)
include catalog

/-- What has not changed for one level never changes again. -/
theorem known_agrees_succ {depth : Nat} (h : Known.Agrees types (s.known depth) (s.known (depth + 1))) :
    Known.Agrees types (s.known (depth + 1)) (s.known (depth + 2)) where
  record r := LayoutM.eval_congr h.record h.type (RecordLayout.ofRecord_asks catalog r)
  type type member := LayoutM.eval_congr h.record (fun part there => h.type part
    (catalog.parts type member part there)) (TypeLayout.ofTy_confined type)

/-- Deeper than the depth of a setting no layout changes. -/
theorem known_agrees_depth : Known.Agrees types (s.known s.depth) (s.known (s.depth + 1)) := by
  have card : Fintype.card (Fin s.tree.records.size ⊕ Fin types.length) + 1 = s.depth := by
    rw [Fintype.card_sum, Fintype.card_fin, Fintype.card_fin, catalog.count]
    rfl
  have grows (depth : Nat) (i : Fin s.tree.records.size ⊕ Fin types.length)
      (h : (s.known (depth + 1)).Settled _ types i) : (s.known (depth + 2)).Settled _ types i := by
    have deepens := s.known_deepens (depth + 1)
    cases i with
    | inl r => exact fun endless => h ((deepens.record _).elim id (·.trans endless))
    | inr i => exact fun endless => h ((deepens.type _).elim id (·.trans endless))
  rw [← card]
  refine known_agrees_of_settled fun i => ?_
  refine still_after_card (fun n => (s.known (n + 1)).Settled _ types) grows ?_
  intro n still i later
  have next := known_agrees_succ catalog (known_agrees_of_settled still)
  cases i with
  | inl r => exact fun endless => later ((next.record _).symm.trans endless)
  | inr i => exact fun endless => later ((next.type _ (List.get_mem _ _)).symm.trans endless)

end Setting

end ObjectLayout
