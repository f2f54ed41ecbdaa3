import ObjectLayout.Proofs.Itanium.Alike
import ObjectLayout.Proofs.Itanium.NonVirtual

/-! Two runs of the rules abreast, in states that differ in their maps only. As long as the maps answer
alike, a base finds the same place in both: where one search goes on so does the other, and it takes no
more attempts than it has. -/
namespace ObjectLayout.Itanium

open LayoutM (Mirrors Follows layoutOf eval_bind_eq_ok)

variable {f : Frame} {known : Known} {lax : Prop} {g : SubobjectGraph} {st st' : State}
variable {d' : RecordId} {own : Option RecordId} {i : SubobjectId} {front front' x : Nat}

/-- Two states that differ in their maps only, and the maps are related by `M`. -/
structure Beside (M : Option EmptyMap → Option EmptyMap → Prop) (st st' : State) : Prop where
  frame : st' = { st with emptyMap := st'.emptyMap }
  maps : M st.emptyMap st'.emptyMap

/-- Two states that differ in their maps only, and the maps answer alike. -/
abbrev Abreast (f : Frame) (known : Known) (lax : Prop) (d' : RecordId) (front : Nat) :
    State → State → Prop :=
  Beside (Option.Rel (Alike f.setting known lax f.record d' front))

theorem Abreast.mono (h : Abreast f known lax d' front st st') (le : front ≤ front') :
    Abreast f known lax d' front' st st' where
  frame := h.frame
  maps := by
    have maps := h.maps
    generalize st.emptyMap = map at maps
    generalize st'.emptyMap = map' at maps
    cases maps with
    | some alike => exact .some (alike.mono le)
    | none => exact .none

/-- What was placed in two states abreast leaves them abreast, or was refused in both. -/
theorem Abreast.placeIn (h : Abreast f known lax d' front st st')
    {place? place?' : EmptyMap → LayoutM (Option EmptyMap)} {question : Placement}
    (each : ∀ map map', st.emptyMap = some map → Alike f.setting known lax f.record d' front map map' →
      Mirrors known lax (Option.Rel (Alike f.setting known lax f.record d' front')) (place? map)
        (place?' map')) :
    Mirrors known lax (Option.Rel (Abreast f known lax d' front'))
      (match st.emptyMap with
        | none => return some st
        | some map => do
          let placed ← place? map
          LayoutM.answered question placed.isSome
          return placed.map fun map => { st with emptyMap := some map } : LayoutM (Option State))
      (match st'.emptyMap with
        | none => return some st'
        | some map => do
          let placed ← place?' map
          LayoutM.answered question placed.isSome
          return placed.map fun map => { st' with emptyMap := some map }) := by
  have frame := h.frame
  have maps := h.maps
  cases here : st.emptyMap with
  | none =>
    rw [here] at maps
    cases here' : st'.emptyMap with
    | some map' =>
      rw [here'] at maps
      cases maps
    | none =>
      refine .pure (.some ⟨frame, ?_⟩)
      rw [here, here']
      exact .none
  | some map =>
    rw [here] at maps
    cases here' : st'.emptyMap with
    | none =>
      rw [here'] at maps
      cases maps
    | some map' =>
      rw [here'] at maps
      obtain ⟨alike⟩ := maps
      refine (each map map' here alike).bind fun answer answer' _ _ related => ?_
      have same : answer'.isSome = answer.isSome := by cases related <;> rfl
      rw [same]
      refine .bind_same fun _ _ => .pure ?_
      cases related with
      | none => exact .none
      | some alike =>
        refine .some ⟨?_, .some alike⟩
        rw [frame]

section Probe

/-- The second search refuses what the first does, up to where the first one ends. -/
theorem probe_follows {place? place?' : Nat → LayoutM (Option State)} {R : State → State → Prop}
    {step bound : Nat} {found : State × Nat} (attempts : Nat) {start : Nat}
    (done : (probe place? step attempts start).eval known = .ok found)
    (each : ∀ y, start ≤ y → y ≤ found.2 →
      Mirrors known lax (Option.Rel R) (place? y) (place?' y))
    (refused : ∀ y, (place?' y).eval known = .ok none → y ≤ bound) (attempts' : Nat)
    (enough : bound < start + attempts' * step) :
    Follows known lax (fun a b => R a.1 b.1 ∧ b.2 = a.2) (probe place? step attempts start) found
      (probe place?' step (attempts' + 1) start) := by
  induction attempts generalizing start attempts' with
  | zero => cases done
  | succ attempts ih =>
    have later := (probe_ok _ done).2
    unfold probe at done ⊢
    obtain ⟨answer, asked, rest⟩ := eval_bind_eq_ok.mp done
    refine (each start le_rfl later answer asked).bind asked fun answer' asked' related => ?_
    cases related with
    | some placed =>
      cases rest
      exact ⟨⟨placed, rfl⟩, rfl⟩
    | none =>
      obtain ⟨next, sum, rest⟩ := eval_bind_eq_ok.mp rest
      refine (Mirrors.refl _ next sum).bind sum fun next' _ same => ?_
      subst same
      rw [LayoutM.eval_lift, Quantity.add_eq_ok_iff] at sum
      have low := refused start asked'
      obtain _ | attempts' := attempts'
      · omega
      rw [Nat.succ_mul] at enough
      exact ih rest (fun y from' => each y (by lia)) attempts' (by lia)

end Probe

/-- What two runs for the classes `f.record` and `d'`, which are after the same graph, rely on. -/
structure Shared (f : Frame) (known : Known) (d' : RecordId) (own : Option RecordId)
    (g : SubobjectGraph) : Prop where
  work : Workable f known fun _ => True
  work' : Workable { f with record := d' } known fun _ => True
  charted : Charted f.setting known f.record own g
  charted' : Charted f.setting known d' own g

section Base

variable (shared : Shared f known d' own g) (root : g.IsRoot i)
include shared root

theorem placeBase?_abreast (h : Abreast f known lax d' front st st') (graph : st.graph = g)
    (isClass : (f.tree.record (g.node i).record).isClass = true)
    (room : x + f.setting.span known (g.node i).record < Quantity.limit)
    (start : (f.tree.isEmptyClass (g.node i).record = true ∧ x = 0) ∨ front ≤ 8 * x)
    (le : front ≤ front') (after : f.tree.isEmptyClass (g.node i).record = false →
      8 * (x + known.nonVirtualSize (g.node i).record) ≤ front') :
    Mirrors known lax (Option.Rel (Abreast f known lax d' front')) (st.placeBase? f i x)
      (st'.placeBase? f i x) := by
  subst graph
  have graph' : st'.graph = st.graph := by rw [h.frame]
  refine h.placeIn fun map map' _ alike => ?_
  rw [graph']
  exact alike.placeBase shared.work.settled shared.work'.settled shared.charted shared.charted' root
    isClass (shared.work.placeable shared.charted root.1).inside (.inr ⟨isClass, room⟩) start le after

end Base

end ObjectLayout.Itanium
