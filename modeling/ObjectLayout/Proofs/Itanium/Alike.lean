import ObjectLayout.Proofs.Itanium.Tracking
import ObjectLayout.Proofs.Runs
import ObjectLayout.Proofs.Subobject.Silent

/-! Two maps of empty subobjects that answer alike. Both know of everything that was placed, whatever
each of them has forgotten of it, so they agree on an empty base at the start and on whatever lies
past the front. Where nothing has a size to record, neither ever stands in the way. -/
namespace ObjectLayout

open LayoutM (Mirrors)

variable {s : Setting} {known : Known} {lax : Prop} {g : SubobjectGraph}
variable {map map' after : EmptyMap} {i : SubobjectId} {d d' r : RecordId} {own : Option RecordId}
variable {front front' x width : Nat} {type : Ty}

/-- Nothing was recorded, and nothing will be. -/
structure EmptyMap.IsBare (map : EmptyMap) : Prop where
  idle : map.isIdle = true
  placed : map.placed = []

namespace EmptyMap.IsBare

variable (h : map.IsBare)
include h

theorem beyond (x : Nat) : map.isBeyond x = true := by
  have idle := h.idle
  simp only [isIdle, Bool.and_eq_true, beq_iff_eq] at idle
  simp [isBeyond, idle.1, idle.2]

theorem placeBase : map.placeBase? s g i x = pure (some map) := by
  unfold placeBase?
  rw [h.idle]
  rfl

theorem recordWhole (r : RecordId) (isComplete : Bool) (x : Nat) :
    recordWhole s r isComplete x map = pure map := by
  unfold EmptyMap.recordWhole Tree.descend descendWithin
  exact if_pos (h.beyond x)

theorem recordElements (size count x : Nat) :
    recordElements (EmptyMap.recordWhole s r true) size count x map = pure map := by
  cases count with
  | zero => rfl
  | succ count =>
    unfold EmptyMap.recordElements
    rw [h.beyond]
    rfl

/-- A field is placed unless the question itself ends with a fault. -/
theorem placeField (knows : s.Knows known)
    (explorable : ∀ m, type.constantArrayRecord? = some m → Explorable s known m) :
    Ends (fun _ => True) ((map.placeField? s type x).eval known) (· = some map) := by
  have bounded : map.Bounded := fun e member => by simp [h.placed] at member
  have recorded : Ends (fun _ => True) ((recordField s type x map).eval known) (· = map) := by
    unfold recordField recordFieldType
    split
    · rename_i r _
      change Ends _ ((EmptyMap.recordWhole s r true x map).eval known) _
      rw [h.recordWhole]
      rfl
    · refine LayoutM.ends_lift_bind Ends.any fun found _ => ?_
      rcases found with _ | ⟨r, count⟩
      · rfl
      · refine LayoutM.ends_bind Ends.any fun layout _ => ?_
        rw [h.recordElements]
        rfl
  have placed : Ends (fun _ => True) ((map.placeField? s type x).eval known) _ :=
    placeField?_ends knows bounded (.inl trivial) explorable fun _ _ _ => .inr trivial
  refine Ends.mono placed.remember (fun _ _ => trivial) ?_
  rintro (_ | after) _ ⟨done, answer⟩
  · exact absurd (fun _ _ _ o c _ => by simp [h.placed]) answer
  · unfold placeField? at done
    obtain ⟨fits, _, done⟩ := LayoutM.eval_bind_eq_ok.mp done
    cases fits with
    | false => cases done
    | true =>
      obtain ⟨after', done, same⟩ := LayoutM.eval_bind_eq_ok.mp done
      cases same
      rw [recorded.value done]

end EmptyMap.IsBare

/-- Two maps, of the classes `d` and `d'`, that answer alike if what follows has its data from `front`
on. The second one can be asked whatever the first can. -/
structure Alike (s : Setting) (known : Known) (lax : Prop) (d d' : RecordId)
    (front : Nat) (map map' : EmptyMap) : Prop where
  counts : map'.Counts fun _ => lax
  agree : (s.options.cplusplus = true ∧ ∃ all, Kept s known d all front map ∧
    Kept s known d' all front map') ∨ (map.IsBare ∧ map'.IsBare)

namespace Alike

theorem mono (h : Alike s known lax d d' front map map') (le : front ≤ front') :
    Alike s known lax d d' front' map map' where
  counts := h.counts
  agree := h.agree.imp_left fun ⟨cplusplus, all, kept, kept'⟩ =>
    ⟨cplusplus, all, kept.mono le, kept'.mono le⟩

theorem bounded (h : Alike s known lax d d' front map map') : map.Bounded ∧ map'.Bounded := by
  rcases h.agree with ⟨_, _, kept, kept'⟩ | ⟨bare, bare'⟩
  · exact ⟨kept.bounded, kept'.bounded⟩
  · exact ⟨fun e member => by simp [bare.placed] at member,
      fun e member => by simp [bare'.placed] at member⟩

section Place

variable (h : Alike s known lax d d' front map map')
variable (settled : Settled s known d) (settled' : Settled s known d')
include h settled settled'

/-- Both maps take a base or both refuse it. -/
theorem placeBase (charted : Charted s known d own g) (charted' : Charted s known d' own g)
    (root : g.IsRoot i) (isClass : (s.tree.record (g.node i).record).isClass = true)
    (explorable : BaseExplorable s known g i) (room : Room (fun _ => lax) s known g (.base i) x)
    (start : (s.tree.isEmptyClass (g.node i).record = true ∧ x = 0) ∨ front ≤ 8 * x)
    (le : front ≤ front') (after : s.tree.isEmptyClass (g.node i).record = false →
      8 * (x + known.nonVirtualSize (g.node i).record) ≤ front') :
    Mirrors known lax (Option.Rel (Alike s known lax d d' front')) (map.placeBase? s g i x)
      (map'.placeBase? s g i x) := by
  intro answer done
  unfold LayoutM.Follows
  rw [LayoutM.answers_eq_nil (EmptyMap.placeBase?_silent i x),
    LayoutM.answers_eq_nil (EmptyMap.placeBase?_silent i x)]
  rcases h.agree with ⟨cplusplus, all, kept, kept'⟩ | ⟨bare, bare'⟩
  · have first := Ends.holds (kept.placeBase settled cplusplus charted root isClass explorable
      (.inl trivial) (.inl trivial) start le after) done
    refine Ends.mono (kept'.placeBase settled' cplusplus charted' root isClass explorable h.counts
      room start le after) (fun _ => id) fun answer' done' second => ⟨?_, rfl⟩
    rcases answer with _ | after <;> rcases answer' with _ | after'
    · exact .none
    · exact absurd second.1 first
    · exact absurd first.1 second
    · refine .some ⟨?_, .inl ⟨cplusplus, _, first.2, second.2⟩⟩
      have answer := Ends.holds (placeBase?_ends settled.knows kept'.bounded (.inl trivial)
        explorable (.inl trivial)) done'
      rcases answer with ⟨_, rfl⟩ | ⟨_, recorded⟩
      · exact h.counts
      · exact recorded.counts h.counts
  · rw [bare.placeBase] at done
    cases done
    rw [bare'.placeBase]
    exact ⟨.some ⟨h.counts, .inr ⟨bare, bare'⟩⟩, rfl⟩

/-- Both maps take a field or both refuse it. -/
theorem placeField (held : ∀ m, type.constantArrayRecord? = some m → s.Holds d m)
    (held' : ∀ m, type.constantArrayRecord? = some m → s.Holds d' m)
    (explorable : ∀ m, type.constantArrayRecord? = some m → Explorable s known m)
    (room : ∀ k m, type.Contains k m →
      x + (k + 1) * known.size m < Quantity.limit ∨ lax)
    (wide : s.width known type = .ok width) (start : front ≤ 8 * x)
    (le : front ≤ front') (after : 8 * (x + width) ≤ front') :
    Mirrors known lax (Option.Rel (Alike s known lax d d' front')) (map.placeField? s type x)
      (map'.placeField? s type x) := by
  intro answer done
  unfold LayoutM.Follows
  rw [LayoutM.answers_eq_nil (EmptyMap.placeField?_silent type x),
    LayoutM.answers_eq_nil (EmptyMap.placeField?_silent type x)]
  rcases h.agree with ⟨cplusplus, all, kept, kept'⟩ | ⟨bare, bare'⟩
  · have first := Ends.holds (kept.placeField settled cplusplus held explorable (.inl trivial)
      (fun _ _ _ => .inr trivial) wide start le after) done
    refine Ends.mono (kept'.placeField settled' cplusplus held' explorable h.counts
      room wide start le after) (fun _ => id) fun answer' done' second => ⟨?_, rfl⟩
    rcases answer with _ | after <;> rcases answer' with _ | after'
    · exact .none
    · exact absurd second.1 first
    · exact absurd first.1 second
    · refine .some ⟨?_, .inl ⟨cplusplus, _, first.2, second.2⟩⟩
      have answer := Ends.holds (placeField?_ends settled.knows kept'.bounded (.inl trivial)
        explorable fun _ _ _ => .inr trivial) done'
      exact answer.2.counts h.counts
  · have same := (bare.placeField settled.knows explorable).value done
    subst same
    have lenient : lax := h.counts.resolve_right fun full => by
      have idle := bare'.idle
      simp [EmptyMap.isIdle, full] at idle
    refine Ends.mono (bare'.placeField settled.knows explorable) (fun _ _ => lenient) ?_
    rintro _ _ rfl
    exact ⟨.some ⟨h.counts, .inr ⟨bare, bare'⟩⟩, rfl⟩

end Place

end Alike

end ObjectLayout
