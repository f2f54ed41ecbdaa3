import ObjectLayout.Proofs.Itanium.Reached

/-! The search for a free offset. It has no bound of its own: it comes to an end because past the
highest offset at which something is recorded nothing is refused, whatever is nested in the base or
field, and because an offset that is refused leaves the map as it was. -/
namespace ObjectLayout

/-- The highest offset at which something is recorded. -/
def EmptyMap.summit (map : EmptyMap) : Nat := (map.placed.map Prod.fst).max?.getD 0

theorem EmptyMap.Exact.highest_eq {map : EmptyMap} (h : map.Exact) : map.highest = map.summit := by
  unfold EmptyMap.summit
  cases most : (map.placed.map Prod.fst).max? with
  | none =>
    have none : map.placed = [] := List.map_eq_nil_iff.mp (List.max?_eq_none_iff.mp most)
    refine h.attained.resolve_right fun ⟨e, member, _⟩ => ?_
    rw [none] at member
    cases member
  | some x =>
    obtain ⟨attained, above⟩ := List.max?_eq_some_iff.mp most
    obtain ⟨e, member, rfl⟩ := List.mem_map.mp attained
    refine Nat.le_antisymm ?_ (h.bounded e member)
    rcases h.attained with zero | ⟨e', member', same⟩
    · exact zero.trans_le (Nat.zero_le _)
    · exact same.symm.trans_le (above _ (List.mem_map_of_mem member'))

namespace Itanium

open LayoutM (ends_bind ends_lift_bind)

variable {f : Frame} {known : Known} {st : State} {i : SubobjectId} {field : Field}
variable {place? : Nat → LayoutM (Option State)} {bad : Nat → Prop}
variable {start step bound : Nat} {found : State × Nat} {fault : Fault}

def State.summit (st : State) : Nat := st.emptyMap.elim 0 EmptyMap.summit

section Probe

/-- What is found lies at the first of `start`, `start + step` and so on that is not refused. -/
structure FirstFit (known : Known) (place? : Nat → LayoutM (Option State)) (start step : Nat)
    (found : State × Nat) : Prop where
  placed : (place? found.2).eval known = .ok (some found.1)
  first : ∃ tries, found.2 = start + tries * step ∧
    ∀ k < tries, (place? (start + k * step)).eval known = .ok none

/-- A search that was cut short: all offsets before were refused, and the next one is too large itself
or is one at which something else is. -/
structure CutShort (known : Known) (place? : Nat → LayoutM (Option State)) (bad : Nat → Prop)
    (start step : Nat) (fault : Fault) : Prop where
  overflow : fault = .overflow
  last : ∃ tries, (∀ k < tries, (place? (start + k * step)).eval known = .ok none) ∧
    (Quantity.limit ≤ start + tries * step ∨ bad (start + tries * step))

theorem later_offset (start step k : Nat) : start + step + k * step = start + (k + 1) * step := by
  rw [Nat.succ_mul]
  omega

theorem refused_later {tries : Nat} (first : (place? start).eval known = .ok none)
    (rest : ∀ k < tries, (place? (start + step + k * step)).eval known = .ok none) :
    ∀ k < tries + 1, (place? (start + k * step)).eval known = .ok none
  | 0, _ => by simpa using first
  | k + 1, less => later_offset start step k ▸ rest k (Nat.lt_of_succ_lt_succ less)

theorem FirstFit.here {st' : State} (placed : (place? start).eval known = .ok (some st')) :
    FirstFit known place? start step (st', start) :=
  ⟨placed, 0, by rw [Nat.zero_mul, Nat.add_zero], nofun⟩

theorem FirstFit.later (first : (place? start).eval known = .ok none)
    (h : FirstFit known place? (start + step) step found) : FirstFit known place? start step found := by
  obtain ⟨placed, tries, same, refused⟩ := h
  exact ⟨placed, tries + 1, same.trans (later_offset start step tries), refused_later first refused⟩

theorem CutShort.later (first : (place? start).eval known = .ok none)
    (h : CutShort known place? bad (start + step) step fault) :
    CutShort known place? bad start step fault := by
  obtain ⟨overflow, tries, refused, last⟩ := h
  rw [later_offset] at last
  exact ⟨overflow, tries + 1, refused_later first refused, last⟩

/-- The first offset may be too large before anything is tried. -/
theorem start_ends {a b : Nat} (positive : 0 < b) :
    Ends (CutShort known place? bad (Quantity.roundUp a b) step) (Quantity.alignTo a b)
      (· = Quantity.roundUp a b) := by
  unfold Quantity.alignTo Quantity.fit
  rw [if_neg (Nat.ne_of_gt positive)]
  split
  · rfl
  · rename_i large
    refine ⟨rfl, 0, nofun, .inl ?_⟩
    rw [Nat.zero_mul]
    exact Nat.le_of_not_lt large

/-- The second one may be, once the first is refused. -/
theorem next_ends (first : (place? start).eval known = .ok none) :
    Ends (CutShort known place? bad start step) (Quantity.add start step) (· = start + step) := by
  unfold Quantity.add Quantity.fit
  split
  · rfl
  · rename_i large
    refine ⟨rfl, 1, refused_later first nofun, .inl ?_⟩
    rw [Nat.one_mul]
    exact Nat.le_of_not_lt large

/-- Nothing is tried much further than the last offset that is refused. -/
theorem FirstFit.le (h : FirstFit known place? start step found)
    (refused : ∀ y, (place? y).eval known = .ok none → y ≤ bound) :
    found.2 ≤ max start (bound + step) := by
  obtain ⟨_, tries, same, before⟩ := h
  obtain _ | tries := tries
  · rw [same, Nat.zero_mul]
    exact Nat.le_max_left _ _
  · have last := refused _ (before tries (Nat.lt_succ_self tries))
    calc found.2 = start + tries * step + step := by rw [same, Nat.succ_mul, Nat.add_assoc]
      _ ≤ bound + step := Nat.add_le_add_right last step
      _ ≤ max start (bound + step) := Nat.le_max_right _ _

variable (each : ∀ y, Ends (fun fault => fault = .overflow ∧ bad y) ((place? y).eval known)
  fun _ => True)
include each

theorem attempt_ends (start step : Nat) : Ends (CutShort known place? bad start step)
    ((place? start).eval known) fun answer => (place? start).eval known = .ok answer := by
  refine (each start).mono (fun fault ⟨overflow, here⟩ => ⟨overflow, 0, nofun, .inr ?_⟩)
    fun answer done _ => done
  rwa [Nat.zero_mul, Nat.add_zero]

/-- The attempts are enough to get past everything that can be refused, so the search finds an offset
or is cut short. -/
theorem probe_firstFit (refused : ∀ y, (place? y).eval known = .ok none → y ≤ bound)
    (attempts start : Nat) (enough : bound < start + attempts * step) :
    Ends (CutShort known place? bad start step)
      ((probe place? step (attempts + 1) start).eval known) (FirstFit known place? start step) := by
  induction attempts generalizing start with
  | zero =>
    unfold probe
    refine ends_bind (attempt_ends each start step) ?_
    rintro (_ | st') answer
    · have := refused start answer
      omega
    · exact .here answer
  | succ attempts ih =>
    unfold probe
    refine ends_bind (attempt_ends each start step) ?_
    rintro (_ | st') answer
    · refine ends_lift_bind (next_ends answer) ?_
      rintro _ rfl
      rw [Nat.succ_mul] at enough
      exact (ih (start + step) (by omega)).mono (fun _ short => short.later answer)
        fun _ _ fits => fits.later answer
    · exact .here answer

end Probe

/-- A search from `start` on finds the first offset that is not refused, no further from the highest
recorded offset than a step, unless it is cut short. What is placed in the end is placed in the state
before, so that a refusal has changed nothing. -/
def Searches (known : Known) (place? : Nat → LayoutM (Option State)) (bad : Nat → Prop)
    (start step summit : Nat) (search : LayoutM (State × Nat)) : Prop :=
  Ends (CutShort known place? bad start step) (search.eval known) fun found =>
    FirstFit known place? start step found ∧ found.2 ≤ max start (summit + step)

section Attempts

/-- What can be gone through is placed or refused; everything is placed past what is recorded. -/
structure Answers (known : Known) (place? : Nat → LayoutM (Option State)) (bad : Nat → Prop)
    (summit : Nat) : Prop where
  each : ∀ y, Ends (fun fault => fault = .overflow ∧ bad y) ((place? y).eval known) fun _ => True
  refused : ∀ y, (place? y).eval known = .ok none → y ≤ summit

variable {summit : Nat}

theorem Answers.searches (h : Answers known place? bad summit) {map : EmptyMap}
    (highest : map.highest = summit) (positive : 0 < step) (start : Nat) :
    Searches known place? bad start step summit
      (probe place? step (attemptsFrom map start step) start) := by
  refine (probe_firstFit h.each h.refused _ start ?_).imp fun found fits =>
    ⟨fits, fits.le h.refused⟩
  exact highest ▸ attemptsFrom_enough map start positive

/-- Where there is no map, nothing stands in the way. -/
theorem answers_unmapped (place? : Nat → LayoutM (Option State)) (bad : Nat → Prop) (summit : Nat)
    (always : ∀ y, place? y = pure (some st)) : Answers known place? bad summit where
  each y := by
    rw [always]
    trivial
  refused y answer := by
    rw [always] at answer
    cases answer

namespace Sturdy

variable (h : Sturdy f known st)
include h

theorem highest_eq : (st.emptyMap.getD {}).highest = st.summit := by
  unfold State.summit
  cases here : st.emptyMap with
  | none => rfl
  | some map => exact (h.map map here).highest_eq

/-- The answers of a map are those of a state that has it. -/
theorem answers {place? : EmptyMap → Nat → LayoutM (Option EmptyMap)} {question : Nat → Placement}
    (each : ∀ map, st.emptyMap = some map → ∀ y,
      Ends (fun fault => fault = .overflow ∧ bad y) ((place? map y).eval known) fun
        | none => y ≤ map.highest
        | some _ => True) :
    Answers known (fun y => match st.emptyMap with
      | none => return some st
      | some map => do
        let placed ← place? map y
        LayoutM.answered (question y) placed.isSome
        return placed.map fun map => { st with emptyMap := some map }) bad st.summit where
  each y := (placeIn_ends fun map here => (each map here y).imp fun _ _ => trivial).imp
    fun _ _ => trivial
  refused y answer := by
    obtain ⟨map, here, refused⟩ :=
      (placeIn_ends fun _ _ => Ends.any.imp fun _ _ => trivial).value answer
    have le := (each map here y).value refused
    have same := h.highest_eq
    rw [here] at same
    exact same ▸ le

theorem base_answers (has : st.graph.Has i) : Answers known (st.placeBase? f i)
    (fun y => ¬ Addressable f.setting known st.graph .pruned (.base i) y) st.summit := by
  refine h.answers fun map here y => ?_
  have exact := h.map map here
  have room := (Classical.em (Addressable f.setting known st.graph .pruned (.base i) y)).symm
  refine (placeBase?_answers exact.bounded (h.graph.legible i has)
    (room.imp (⟨rfl, ·⟩) (exact.pruned ▸ ·))).imp ?_
  rintro (_ | _) answer
  · exact Nat.le_of_not_lt fun past => answer (exact.bounded.free past)
  · trivial

variable (knows : f.setting.Knows known) (itanium : f.setting.usesMicrosoftLayout = false)
include knows itanium

theorem field_answers (member : field ∈ f.declaration.fields) :
    Answers known (st.placeField? f field.type)
      (fun y => ¬ FieldTypeAddressable f.setting known .pruned field.type y) st.summit := by
  unfold State.placeField?
  cases union : f.isUnion with
  | true => exact answers_unmapped _ _ _ fun _ => rfl
  | false =>
    refine h.answers fun map here y => ?_
    have exact := h.map map here
    have room := (Classical.em (FieldTypeAddressable f.setting known .pruned field.type y)).symm
    have isSome : st.emptyMap.isSome := by rw [here]; rfl
    refine (placeField?_answers exact.bounded (fun m => h.legible knows itanium isSome member)
      (room.imp (⟨rfl, ·⟩) (exact.pruned ▸ ·))).imp ?_
    rintro (_ | _) answer
    · exact Nat.le_of_not_lt fun past => answer fun k m _ =>
        exact.bounded.free (past.trans_le (Nat.le_add_right y _))
    · trivial

end Sturdy

end Attempts

/-- In every state that a layout gets to, the search for each base and each field finds the first free
offset. It is cut short only if an offset is too large, one that is tried or one of a part that would
lie there, or if the nested arrays of a field have more elements than can be counted. -/
theorem offset_searches {s : Setting} (itanium : s.usesMicrosoftLayout = false) {depth : Nat}
    {r : RecordId} {supplied : Option SuppliedLayout}
    (reached : Reached (.ofRecord s r supplied) (s.known depth) st) :
    (∀ i alignment, st.graph.Has i → 0 < alignment →
      Searches (s.known depth) (st.placeBase? (.ofRecord s r supplied) i)
        (fun y => ¬ Addressable s (s.known depth) st.graph .pruned (.base i) y)
        (Quantity.roundUp st.dataSizeInBytes alignment) alignment st.summit
        (findBaseOffset (.ofRecord s r supplied) st i alignment)) ∧
    ∀ index field alignment start, field ∈ (s.tree.record r).fields → supplied = none →
      0 < alignment →
      Searches (s.known depth) (st.placeField? (.ofRecord s r supplied) field.type)
        (fun y => ¬ FieldTypeAddressable s (s.known depth) .pruned field.type y)
        start alignment st.summit
        (chooseFieldOffset (.ofRecord s r supplied) st index field.type alignment start) := by
  have knows := Setting.known_knows itanium depth
  have sturdy := reached.sturdy knows itanium
  constructor
  · intro i alignment has positive
    unfold findBaseOffset
    refine ends_lift_bind (start_ends positive) ?_
    rintro _ rfl
    exact (sturdy.base_answers has).searches sturdy.highest_eq positive _
  · rintro index field alignment start member rfl positive
    exact (sturdy.field_answers knows itanium member).searches sturdy.highest_eq positive start

section Planned

/-- A class before the first of its bases. -/
def planned (f : Frame) : LayoutM State := do
  let map ← EmptyMap.ofClass f.setting .pruned f.record
  let st ← State.initial f (some map)
  let (primaryBase, used) ← choosePrimaryBase f.setting f.record
  let graph ← SubobjectGraph.ofClass f.setting f.record
  return { st with primaryBase, indirectPrimaryBases := used, graph }

theorem planned_reached (isClass : f.declaration.isClass = true) :
    Ends (fun _ => True) ((planned f).eval known) (Reached f known) := by
  unfold planned
  refine ends_bind Ends.any fun map mapped => ends_lift_bind Ends.any fun st started => ?_
  refine ends_bind Ends.any fun choice chosen => ends_bind Ends.any fun graph built => ?_
  exact ⟨st, .ofClass isClass mapped started, .single (.plan isClass chosen built)⟩

end Planned

/-- `D` has an `E` in each of its bases, and its field is like the second of them. -/
def emptyThrice : Setting :=
  .linux [
    .ofClass "E" [] [] [],
    .ofClass "F" [] [{ record := ⟨0⟩ }] [],
    .ofClass "D" [{ name := "x", type := .record ⟨0⟩ ⟨1⟩ }] [{ record := ⟨0⟩ }, { record := ⟨1⟩ }] []] []

namespace emptyThrice

def frame : Frame := .ofRecord emptyThrice ⟨2⟩ none

/-- The states after the first base and after both, with the occurrence of the second one. -/
def states : LayoutM (State × SubobjectId × State) := do
  let st ← planned frame
  let st ← layNonVirtualBase frame (← st.graph.nonVirtualBase ⟨0⟩) st
  let second ← st.graph.nonVirtualBase ⟨1⟩
  return (st, second, ← layNonVirtualBase frame second st)

theorem states_reached {depth : Nat} : Ends (fun _ => True) (states.eval (emptyThrice.known depth))
    fun found => Reached frame (emptyThrice.known depth) found.1 ∧ found.1.graph.Has found.2.1 ∧
      Reached frame (emptyThrice.known depth) found.2.2 := by
  have knows := Setting.known_knows (s := emptyThrice) rfl depth
  unfold states
  refine ends_bind (planned_reached rfl) fun st₁ planned => ends_lift_bind Ends.any fun i first => ?_
  refine ends_bind Ends.any fun st laid => ends_lift_bind Ends.any fun j second => ?_
  refine ends_bind Ends.any fun st' laid' => ?_
  have reached := planned.step (.base first laid)
  refine ⟨reached, ?_, reached.step (.base second laid')⟩
  exact (reached.sturdy knows rfl).graph.has_nonVirtualBase second

end emptyThrice

theorem offset_searches_emptyThrice : ∃ (st : State) (i : SubobjectId) (st' : State),
    ((findBaseOffset emptyThrice.frame st i 1).eval (emptyThrice.known 4)).map Prod.snd = .ok 1 ∧
      Searches (emptyThrice.known 4) (st.placeBase? emptyThrice.frame i)
        (fun y => ¬ Addressable emptyThrice (emptyThrice.known 4) st.graph .pruned (.base i) y)
        (Quantity.roundUp st.dataSizeInBytes 1) 1 st.summit (findBaseOffset emptyThrice.frame st i 1) ∧
      ((chooseFieldOffset emptyThrice.frame st' 0 (.record ⟨0⟩ ⟨1⟩) 1 0).eval
        (emptyThrice.known 4)).map Prod.snd = .ok 2 ∧
      Searches (emptyThrice.known 4) (st'.placeField? emptyThrice.frame (.record ⟨0⟩ ⟨1⟩))
        (fun y => ¬ FieldTypeAddressable emptyThrice (emptyThrice.known 4) .pruned (.record ⟨0⟩ ⟨1⟩) y)
        0 1 st'.summit (chooseFieldOffset emptyThrice.frame st' 0 (.record ⟨0⟩ ⟨1⟩) 1 0) := by
  have measured : (do
      let (st, i, st') ← emptyThrice.states
      let base ← findBaseOffset emptyThrice.frame st i 1
      let field ← chooseFieldOffset emptyThrice.frame st' 0 (.record ⟨0⟩ ⟨1⟩) 1 0
      return (base.2, field.2) : LayoutM (Nat × Nat)).eval (emptyThrice.known 4) = .ok (1, 2) := by
    decide +kernel
  obtain ⟨⟨st, i, st'⟩, done, measured⟩ := LayoutM.eval_bind_eq_ok.mp measured
  obtain ⟨base, found, measured⟩ := LayoutM.eval_bind_eq_ok.mp measured
  obtain ⟨field, found', same⟩ := LayoutM.eval_bind_eq_ok.mp measured
  obtain ⟨first, second⟩ := Prod.mk.inj (Except.ok.inj same)
  obtain ⟨reached, has, reached'⟩ := emptyThrice.states_reached.value done
  refine ⟨st, i, st', ?_, (offset_searches rfl reached).1 i 1 has (by decide), ?_,
    (offset_searches rfl reached').2 0 _ 1 0 List.mem_cons_self rfl (by decide)⟩
  · rw [found, ← first]
    rfl
  · rw [found', ← second]
    rfl

/-- Arrays that hold nothing, because the innermost is of length zero. The other two alone would have
more elements than can be counted. -/
def emptyGrid.grid : Ty :=
  .array ⟨3⟩ (.array ⟨2⟩ (.array ⟨1⟩ (.scalar ⟨0⟩ (.integer .int .signed)) 0) (2 ^ 40)) (2 ^ 40)

def emptyGrid : Setting := .linux [.ofClass "D" [{ name := "x", type := emptyGrid.grid }] [] []] []

def emptyGrid.frame : Frame := .ofRecord emptyGrid ⟨0⟩ none

/-- The field is of size zero and nothing is recorded, but its first offset is not accepted, although
neither that offset nor the end of the field is too large. -/
theorem offset_search_fails_emptyGrid : ∃ st layout,
    Reached emptyGrid.frame (emptyGrid.known 5) st ∧
      { name := "x", type := emptyGrid.grid } ∈ emptyGrid.frame.declaration.fields ∧
      (emptyGrid.known 5).type emptyGrid.grid = .ok layout ∧ layout.width = 0 ∧
      ((chooseFieldOffset emptyGrid.frame st 0 emptyGrid.grid 4 0).eval
        (emptyGrid.known 5)).map Prod.snd = .error .overflow ∧
      ¬ Searches (emptyGrid.known 5) (st.placeField? emptyGrid.frame emptyGrid.grid)
        (fun y => Quantity.limit ≤ y + layout.width) 0 4 st.summit
        (chooseFieldOffset emptyGrid.frame st 0 emptyGrid.grid 4 0) := by
  obtain ⟨st, done⟩ := exists_ok (by decide +kernel :
    ((planned emptyGrid.frame).eval (emptyGrid.known 5)).isOk = true)
  obtain ⟨layout, typed⟩ := exists_ok (by decide +kernel :
    ((emptyGrid.known 5).type emptyGrid.grid).isOk = true)
  have measured : ((emptyGrid.known 5).type emptyGrid.grid).map (·.width) = .ok 0 := by
    decide +kernel
  have asked : ((planned emptyGrid.frame >>= (·.placeField? emptyGrid.frame emptyGrid.grid 0)).eval
      (emptyGrid.known 5)).map Option.isSome = .error .overflow := by
    decide +kernel
  have searched : ((planned emptyGrid.frame >>= fun st => chooseFieldOffset emptyGrid.frame st 0
      emptyGrid.grid 4 0).eval (emptyGrid.known 5)).map Prod.snd = .error .overflow := by
    decide +kernel
  rw [typed] at measured
  rw [LayoutM.eval_bind, done] at asked searched
  have width : layout.width = 0 := Except.ok.inj measured
  refine ⟨st, layout, (planned_reached rfl).value done, List.mem_cons_self, typed, width, searched, ?_⟩
  intro searches
  change (LayoutM.eval _ _).map _ = _ at asked searched
  cases ended : (chooseFieldOffset emptyGrid.frame st 0 emptyGrid.grid 4 0).eval
      (emptyGrid.known 5) with
  | ok found =>
    rw [ended] at searched
    cases searched
  | error fault =>
    obtain ⟨_, _ | tries, refused, large⟩ := Ends.fault searches ended
    · rw [width] at large
      exact absurd large (by decide)
    · have first := refused 0 (Nat.succ_pos tries)
      rw [Nat.zero_mul, Nat.add_zero] at first
      rw [first] at asked
      cases asked

end Itanium

end ObjectLayout
