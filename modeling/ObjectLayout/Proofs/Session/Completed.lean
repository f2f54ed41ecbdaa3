import ObjectLayout.Proofs.Session.Memory

/-! How a computation completes in a session, step by step: what it asks for is in memory, or is worked
out, completely, and then stored. A layout is stored after all that it is made from, so a record is
never stored while it is being worked out itself. -/
namespace ObjectLayout

variable {s : Setting} {types : List Ty} {reporting : Reporting} {memory memory' : Memory}
variable {depth : Nat}

/-- A step in two parts completes if each part does. -/
theorem SessionM.bind_eq_ok {x : SessionM α} {next : α → SessionM β} {result : β} :
    (x >>= next) memory = .ok result memory' ↔
      ∃ value between, x memory = .ok value between ∧ next value between = .ok result memory' := by
  change EStateM.bind x next memory = _ ↔ _
  unfold EStateM.bind
  cases x memory with
  | ok value between =>
    exact ⟨fun h => ⟨value, between, rfl, h⟩, fun ⟨_, _, same, h⟩ => by cases same; exact h⟩
  | error fault between => exact ⟨nofun, fun ⟨_, _, same, _⟩ => nomatch same⟩

namespace Subject

theorem isStored_rememberRecord (subject : Subject) {r : RecordId} {layout : RecordLayout} :
    subject.isStored (memory.rememberRecord r layout) = true ↔
      subject = .record r ∨ subject.isStored memory = true := by
  cases subject with
  | record r' =>
    rw [Subject.record.injEq]
    exact OrderedMap.contains_insert_iff layout
  | type asked => exact ⟨.inr, fun stored => stored.resolve_left nofun⟩

theorem isStored_rememberType (catalog : s.tree.Catalog types) {subject : Subject}
    (listed : subject.IsListed types) {type : Ty} (member : type ∈ types) {layout : TypeLayout} :
    subject.isStored (memory.rememberType type.id layout) = true ↔
      subject = .type type ∨ subject.isStored memory = true := by
  cases subject with
  | record r => exact ⟨.inr, fun stored => stored.resolve_left nofun⟩
  | type asked =>
    have same : asked.id = type.id ↔ Subject.type asked = .type type := by
      rw [Subject.type.injEq]
      exact ⟨catalog.eq_of_id listed member, congrArg Ty.id⟩
    rw [← same]
    exact OrderedMap.contains_insert_iff layout

theorem isStored_take (subject : Subject) (note : Note) :
    subject.isStored (memory.take reporting note) = subject.isStored memory := by
  obtain ⟨diagnostics, log, same⟩ := Session.take_tables reporting note memory
  rw [same]
  cases subject <;> rfl

end Subject

namespace Session

/-- The computation completes with a value and leads from one memory to another. -/
inductive Completes (s : Setting) (types : List Ty) (reporting : Reporting) :
    {α : Type} → LayoutM α → Memory → α → Memory → Prop
  | done {α : Type} (value : α) (memory : Memory) :
      Completes s types reporting (.done value) memory value memory
  | recallRecord {α : Type} {r : RecordId} {layout : RecordLayout} {next : RecordLayout → LayoutM α}
      {memory memory' : Memory} {value : α} (laid : (s.known s.depth).record r = .ok layout)
      (found : memory.records.find? r = some layout)
      (rest : Completes s types reporting (next layout) memory value memory') :
      Completes s types reporting (.askRecord r next) memory value memory'
  | workRecord {α : Type} {r : RecordId} {layout : RecordLayout} {next : RecordLayout → LayoutM α}
      {memory between memory' : Memory} {value : α} (laid : (s.known s.depth).record r = .ok layout)
      (missing : memory.records.find? r = none)
      (work : Completes s types reporting (RecordLayout.ofRecord s r) memory layout between)
      (rest : Completes s types reporting (next layout) (between.rememberRecord r layout) value
        memory') :
      Completes s types reporting (.askRecord r next) memory value memory'
  | recallType {α : Type} {type : Ty} {layout : TypeLayout} {next : TypeLayout → LayoutM α}
      {memory memory' : Memory} {value : α} (listed : type ∈ types)
      (laid : (s.known s.depth).type type = .ok layout)
      (found : memory.types.find? type.id = some layout)
      (rest : Completes s types reporting (next layout) memory value memory') :
      Completes s types reporting (.askType type next) memory value memory'
  | workType {α : Type} {type : Ty} {layout : TypeLayout} {next : TypeLayout → LayoutM α}
      {memory between memory' : Memory} {value : α} (listed : type ∈ types)
      (laid : (s.known s.depth).type type = .ok layout)
      (missing : memory.types.find? type.id = none)
      (work : Completes s types reporting (TypeLayout.ofTy s type) memory layout between)
      (rest : Completes s types reporting (next layout) (between.rememberType type.id layout) value
        memory') :
      Completes s types reporting (.askType type next) memory value memory'
  | tell {α : Type} {note : Note} {rest : LayoutM α} {memory memory' : Memory} {value : α}
      (more : Completes s types reporting rest (memory.take reporting note) value memory') :
      Completes s types reporting (.tell note rest) memory value memory'

/-- Whatever an oracle answers was in memory, or has been worked out completely and stored. -/
structure Answers (s : Setting) (types : List Ty) (reporting : Reporting) (oracle : Oracle SessionM) :
    Prop where
  record : ∀ r memory layout memory', memory.Sound s types →
    oracle.record r memory = .ok layout memory' →
      (memory.records.find? r = some layout ∧ memory' = memory) ∨
        ∃ between, memory.records.find? r = none ∧
          Completes s types reporting (RecordLayout.ofRecord s r) memory layout between ∧
          memory' = between.rememberRecord r layout
  type : ∀ type ∈ types, ∀ memory layout memory', memory.Sound s types →
    oracle.type type memory = .ok layout memory' →
      (memory.types.find? type.id = some layout ∧ memory' = memory) ∨
        ∃ between, memory.types.find? type.id = none ∧
          Completes s types reporting (TypeLayout.ofTy s type) memory layout between ∧
          memory' = between.rememberType type.id layout
  note : ∀ note memory, oracle.note note memory = .ok () (memory.take reporting note)

/-- A computation completes as the oracle answers. -/
theorem Answers.completes {oracle : Oracle SessionM} {shallow : Known}
    (answers : Answers s types reporting oracle) (serves : oracle.Serves s types False shallow)
    {x : LayoutM α} {notes : Note → Prop} (asks : x.Confined (· ∈ types) notes)
    (sound : memory.Sound s types) {value : α} (done : x.answer oracle memory = .ok value memory') :
    Completes s types reporting x memory value memory' := by
  induction x generalizing memory with
  | done value =>
    cases done
    exact .done _ _
  | stop fault => cases done
  | askRecord r next ih =>
    obtain ⟨layout, later, asked, done⟩ := SessionM.bind_eq_ok.mp done
    have served := serves.record r memory sound
    rw [asked] at served
    have rest := ih layout (asks layout) served.sound done
    obtain ⟨found, rfl⟩ | ⟨between, missing, work, rfl⟩ := answers.record r _ _ _ sound asked
    · exact .recallRecord served.value found rest
    · exact .workRecord served.value missing work rest
  | askType type next ih =>
    obtain ⟨layout, later, asked, done⟩ := SessionM.bind_eq_ok.mp done
    have served := serves.type type asks.1 memory sound
    rw [asked] at served
    have rest := ih layout (asks.2 layout) served.sound done
    obtain ⟨found, rfl⟩ | ⟨between, missing, work, rfl⟩ :=
      answers.type type asks.1 _ _ _ sound asked
    · exact .recallType asks.1 served.value found rest
    · exact .workType asks.1 served.value missing work rest
  | tell note rest ih =>
    obtain ⟨_, later, taken, done⟩ := SessionM.bind_eq_ok.mp done
    obtain ⟨diagnostics, log, kept⟩ := serves.note note memory
    have same := (answers.note note memory).symm.trans kept
    rw [answers.note note memory] at taken
    cases taken
    refine .tell (ih asks.2 ?_ done)
    rw [(EStateM.Result.ok.inj same).2]
    exact ⟨sound.record, sound.type⟩

/-- The layout of a record that was not in memory has been worked out. -/
theorem recallRecord_eq_ok (quiet : s.options.dumpLayouts = false) {below : Option (Oracle SessionM)}
    {r : RecordId} {layout : RecordLayout}
    (done : recallRecord s reporting below r memory = .ok layout memory') :
    (memory.records.find? r = some layout ∧ memory' = memory) ∨ ∃ oracle ∈ below, ∃ between,
      memory.records.find? r = none ∧
        (RecordLayout.ofRecord s r).answer oracle memory = .ok layout between ∧
        memory' = between.rememberRecord r layout := by
  cases found : memory.records.find? r with
  | some stored =>
    rw [recallRecord_found _ found] at done
    cases done
    exact .inl ⟨rfl, rfl⟩
  | none =>
    cases below with
    | none =>
      rw [recallRecord_endless found] at done
      cases done
    | some oracle =>
      rw [recallRecord_missing quiet _ found] at done
      obtain ⟨layout', between, worked, done⟩ := SessionM.bind_eq_ok.mp done
      cases done
      exact .inr ⟨oracle, rfl, between, rfl, worked, rfl⟩

theorem recallType_eq_ok {below : Option (Oracle SessionM)} {type : Ty} {layout : TypeLayout}
    (done : recallType s below type memory = .ok layout memory') :
    (memory.types.find? type.id = some layout ∧ memory' = memory) ∨ ∃ oracle ∈ below, ∃ between,
      memory.types.find? type.id = none ∧
        (TypeLayout.ofTy s type).answer oracle memory = .ok layout between ∧
        memory' = between.rememberType type.id layout := by
  cases found : memory.types.find? type.id with
  | some stored =>
    rw [recallType_found _ found] at done
    cases done
    exact .inl ⟨rfl, rfl⟩
  | none =>
    cases below with
    | none =>
      rw [recallType_endless found] at done
      cases done
    | some oracle =>
      rw [recallType_missing _ found] at done
      obtain ⟨layout', between, worked, done⟩ := SessionM.bind_eq_ok.mp done
      cases done
      exact .inr ⟨oracle, rfl, between, rfl, worked, rfl⟩

section Oracles

variable (catalog : s.tree.Catalog types) (quiet : s.options.dumpLayouts = false)
include catalog quiet

theorem oracleOver_answers {below : Option (Oracle SessionM)} (each : ∀ oracle ∈ below,
    Answers s types reporting oracle ∧ ∃ shallow, oracle.Serves s types False shallow) :
    Answers s types reporting (oracleOver s reporting below) where
  record r memory layout memory' sound done := by
    have done : recallRecord s reporting below r memory = _ := done
    refine (recallRecord_eq_ok quiet done).imp id fun ⟨oracle, there, between, missing, work, same⟩ => ?_
    obtain ⟨answers, _, serves⟩ := each oracle there
    exact ⟨between, missing,
      answers.completes serves (RecordLayout.ofRecord_asks catalog r) sound work, same⟩
  type type listed memory layout memory' sound done := by
    have done : recallType s below type memory = _ := done
    refine (recallType_eq_ok done).imp id fun ⟨oracle, there, between, missing, work, same⟩ => ?_
    obtain ⟨answers, _, serves⟩ := each oracle there
    exact ⟨between, missing,
      answers.completes serves (TypeLayout.ofTy_asks catalog listed) sound work, same⟩
  note _ _ := rfl

theorem oracle_answers (le : depth ≤ s.depth) :
    Answers s types reporting (oracle s reporting depth) := by
  induction depth with
  | zero => exact oracleOver_answers catalog quiet nofun
  | succ depth ih =>
    have le := Nat.le_of_succ_le le
    refine oracleOver_answers catalog quiet fun oracle there => ?_
    cases there
    exact ⟨ih le, _, oracle_serves catalog quiet reporting le⟩

/-- What is run in a session, and comes to a value, completes step by step. -/
theorem run_completes {x : LayoutM α} {notes : Note → Prop} (asks : x.Confined (· ∈ types) notes)
    (sound : memory.Sound s types) {value : α}
    (done : run s reporting x memory = .ok value memory') :
    Completes s types reporting x memory value memory' :=
  (oracle_answers catalog quiet le_rfl).completes (oracle_serves catalog quiet reporting le_rfl) asks sound done

end Oracles

namespace Completes

variable {α : Type} {x : LayoutM α} {value : α}

/-- Nothing that is stored is taken away. -/
theorem keeps (h : Completes s types reporting x memory value memory') (subject : Subject)
    (stored : subject.isStored memory = true) : subject.isStored memory' = true := by
  induction h with
  | done value memory => exact stored
  | recallRecord laid found rest ih => exact ih stored
  | workRecord laid missing work rest ih ih' =>
    exact ih' (subject.isStored_rememberRecord.mpr (.inr (ih stored)))
  | recallType listed laid found rest ih => exact ih stored
  | workType listed laid missing work rest ih ih' =>
    refine ih' ?_
    have stored := ih stored
    cases subject with
    | record r => exact stored
    | type asked => exact OrderedMap.contains_insert _ stored
  | tell more ih => exact ih ((subject.isStored_take _).trans stored)

/-- A computation for which layouts of some depth are enough has no deeper record stored. -/
theorem stores_shallow (h : Completes s types reporting x memory value memory')
    (le : depth ≤ s.depth) (enough : x.eval (s.known depth) = .ok value) (r : RecordId)
    (stored : (Subject.record r).isStored memory' = true) :
    (Subject.record r).isStored memory = true ∨ ∃ layout, (s.known depth).record r = .ok layout := by
  have deepens := s.known_deepens_le le
  induction h generalizing depth with
  | done value memory => exact .inl stored
  | recallRecord laid found rest ih =>
    obtain ⟨layout', shallow, enough⟩ := except_bind_eq_ok.mp enough
    cases (deepens.record _).ok_inj shallow laid
    exact ih le enough stored deepens
  | @workRecord α r' layout next memory between memory' value laid missing work rest ih ih' =>
    obtain ⟨layout', shallow, enough⟩ := except_bind_eq_ok.mp enough
    cases (deepens.record _).ok_inj shallow laid
    rcases ih' le enough stored deepens with before | known
    · rcases (Subject.isStored_rememberRecord _).mp before with same | before
      · cases same
        exact .inr ⟨layout, shallow⟩
      · cases depth with
        | zero => cases shallow
        | succ depth =>
          have le := Nat.le_of_succ_le le
          exact (ih le shallow before (s.known_deepens_le le)).imp_right fun ⟨layout', known⟩ =>
            ⟨layout', ((s.known_deepens depth).record r).of_ok known⟩
    · exact .inr known
  | recallType listed laid found rest ih =>
    obtain ⟨layout', shallow, enough⟩ := except_bind_eq_ok.mp enough
    cases (deepens.type _).ok_inj shallow laid
    exact ih le enough stored deepens
  | workType listed laid missing work rest ih ih' =>
    obtain ⟨layout', shallow, enough⟩ := except_bind_eq_ok.mp enough
    cases (deepens.type _).ok_inj shallow laid
    rcases ih' le enough stored deepens with before | known
    · cases depth with
      | zero => cases shallow
      | succ depth =>
        have le := Nat.le_of_succ_le le
        exact (ih le shallow before (s.known_deepens_le le)).imp_right fun ⟨layout', known⟩ =>
          ⟨layout', ((s.known_deepens depth).record r).of_ok known⟩
    · exact .inr known
  | tell more ih =>
    exact (ih le enough stored deepens).imp_left (Subject.isStored_take _ _).symm.trans

/-- A record is not stored while it is being worked out. -/
theorem leaves_out {r : RecordId} {layout : RecordLayout} (laid : (s.known s.depth).record r = .ok layout)
    (missing : memory.records.find? r = none)
    (work : Completes s types reporting (RecordLayout.ofRecord s r) memory layout memory') :
    (Subject.record r).isStored memory' = false := by
  by_contra stored
  rw [Bool.not_eq_false] at stored
  -- The least depth at which the layout is known is more than its own parts need.
  have unknown (depth : Nat) (le : depth ≤ s.depth) (layout' : RecordLayout) :
      (s.known depth).record r ≠ .ok layout' := by
    induction depth generalizing layout' with
    | zero => exact nofun
    | succ depth ih =>
      intro enough
      cases ((s.known_deepens_le le).record r).ok_inj enough laid
      have le := Nat.le_of_succ_le le
      rcases work.stores_shallow le enough r stored with before | ⟨layout', known⟩
      · rw [Subject.isStored, OrderedMap.contains, missing] at before
        cases before
      · exact ih le layout' known
  exact unknown s.depth le_rfl layout laid

end Completes

end Session

end ObjectLayout
