import ObjectLayout.Proofs.OrderedMap
import ObjectLayout.Proofs.Session.Depth
import ObjectLayout.Session

/-! A session works out what a session without any memory would. What it has stored are the layouts that
records and types have, so an answer from memory is the answer that working it out would give; a step
adds such layouts, takes none away, and ends as it would have ended from the start. -/
namespace ObjectLayout

variable {s : Setting} {types : List Ty} {reporting : Reporting} {memory memory' : Memory} {spoils : Prop}

/-- What a session can be at work on. -/
inductive Subject where
  | record (r : RecordId)
  | type (type : Ty)

def Subject.isStored (memory : Memory) : Subject → Bool
  | .record r => memory.records.contains r
  | .type asked => memory.types.contains asked.id

/-- A type is one of the catalog. -/
def Subject.IsListed (types : List Ty) : Subject → Prop
  | .record _ => True
  | .type asked => asked ∈ types

namespace Session

/-- The outcome of a step, whatever it leaves behind. -/
def outcome : EStateM.Result Fault Memory α → Checked α
  | .ok value _ => .ok value
  | .error fault _ => .error fault

/-- What a step leaves behind, however it ends. -/
def left : EStateM.Result Fault Memory α → Memory
  | .ok _ memory => memory
  | .error _ memory => memory

end Session

open Session (outcome left)

/-- What is stored are the layouts of records and of types of the catalog. -/
structure Memory.Sound (s : Setting) (types : List Ty) (memory : Memory) : Prop where
  record : ∀ {r layout}, memory.records.find? r = some layout → (s.known s.depth).record r = .ok layout
  type : ∀ {id layout}, memory.types.find? id = some layout →
    ∃ type ∈ types, type.id = id ∧ (s.known s.depth).type type = .ok layout

theorem Memory.fresh_sound : (Memory.fresh reporting).Sound s types := ⟨nofun, nofun⟩

/-- What was stored is stored, as it was. -/
structure Memory.Extends (memory memory' : Memory) : Prop where
  records : memory.records.Extends memory'.records
  types : memory.types.Extends memory'.types

namespace Memory.Extends

theorem refl (memory : Memory) : memory.Extends memory := ⟨.refl _, .refl _⟩

theorem trans {memory'' : Memory} (h : memory.Extends memory') (h' : memory'.Extends memory'') :
    memory.Extends memory'' := ⟨h.records.trans h'.records, h.types.trans h'.types⟩

end Memory.Extends

/-- How a step ends that comes to `limit` if nothing limits its depth, and to `shallow` with the depth
that there is and no memory. If something spoils it on the way, it may also end with an overflow. -/
structure Serves (s : Setting) (types : List Ty) (spoils : Prop) (memory : Memory)
    (limit shallow : Checked α) (result : EStateM.Result Fault Memory α) : Prop where
  sound : (left result).Sound s types
  grows : memory.Extends (left result)
  ends : outcome result = limit ∨ (outcome result = .error .endless ∧ shallow = .error .endless) ∨
    (spoils ∧ outcome result = .error .overflow)

theorem Serves.value {limit shallow : Checked α} {value : α}
    (h : Serves s types spoils memory limit shallow (.ok value memory')) : limit = .ok value := by
  rcases h.ends with same | ⟨other, _⟩ | ⟨_, other⟩
  · exact same.symm
  · cases other
  · cases other

/-- A fault that is no lack of depth is the fault without any limit, if nothing spoils the step. -/
theorem Serves.fault {limit shallow : Checked α} {fault : Fault}
    (h : Serves s types spoils memory limit shallow (.error fault memory')) (unspoilt : ¬ spoils)
    (panics : fault ≠ .endless) : limit = .error fault := by
  rcases h.ends with same | ⟨endless, _⟩ | ⟨spoilt, _⟩
  · exact same.symm
  · cases endless
    exact absurd rfl panics
  · exact absurd spoilt unspoilt

/-- An oracle that serves to some depth whatever is asked of it. -/
structure Oracle.Serves (s : Setting) (types : List Ty) (spoils : Prop) (shallow : Known)
    (oracle : Oracle SessionM) : Prop where
  record : ∀ r memory, memory.Sound s types → ObjectLayout.Serves s types spoils memory
    ((s.known s.depth).record r) (shallow.record r) (oracle.record r memory)
  type : ∀ type ∈ types, ∀ memory, memory.Sound s types → ObjectLayout.Serves s types spoils memory
    ((s.known s.depth).type type) (shallow.type type) (oracle.type type memory)
  note : ∀ note memory, ∃ diagnostics log, oracle.note note memory =
    .ok () { memory with diagnostics, log }

namespace Memory.Sound

variable (h : memory.Sound s types)
include h

/-- What is stored for a type of the catalog is its own layout. -/
theorem found_type (catalog : s.tree.Catalog types) {type : Ty} (member : type ∈ types)
    {layout : TypeLayout} (found : memory.types.find? type.id = some layout) :
    (s.known s.depth).type type = .ok layout := by
  obtain ⟨type', member', same, laid⟩ := h.type found
  cases catalog.eq_of_id member' member same
  exact laid

theorem rememberRecord {r : RecordId} {layout : RecordLayout}
    (laid : (s.known s.depth).record r = .ok layout) :
    (memory.rememberRecord r layout).Sound s types ∧ memory.Extends (memory.rememberRecord r layout) := by
  have stored (r' : RecordId) : (memory.rememberRecord r layout).records.find? r' =
      if r' = r then some layout else memory.records.find? r' := by
    split
    · subst r'
      exact OrderedMap.find?_insert_self _ _ _
    · exact OrderedMap.find?_insert_of_ne _ _ ‹_›
  refine ⟨⟨fun {r' layout'} found => ?_, h.type⟩, fun r' layout' found => ?_, .refl _⟩
  · rw [stored] at found
    split at found
    · subst r'
      cases found
      exact laid
    · exact h.record found
  · rw [stored]
    split
    · subst r'
      exact congrArg some (Except.ok.inj (laid.symm.trans (h.record found)))
    · exact found

theorem rememberType (catalog : s.tree.Catalog types) {type : Ty} (member : type ∈ types)
    {layout : TypeLayout} (laid : (s.known s.depth).type type = .ok layout) :
    (memory.rememberType type.id layout).Sound s types ∧
      memory.Extends (memory.rememberType type.id layout) := by
  have stored (id : TypeId) : (memory.rememberType type.id layout).types.find? id =
      if id = type.id then some layout else memory.types.find? id := by
    split
    · subst id
      exact OrderedMap.find?_insert_self _ _ _
    · exact OrderedMap.find?_insert_of_ne _ _ ‹_›
  refine ⟨⟨h.record, fun {id layout'} found => ?_⟩, .refl _, fun id layout' found => ?_⟩
  · rw [stored] at found
    split at found
    · subst id
      cases found
      exact ⟨type, member, rfl, laid⟩
    · exact h.type found
  · rw [stored]
    split
    · subst id
      exact congrArg some (Except.ok.inj (laid.symm.trans (h.found_type catalog member found)))
    · exact found

end Memory.Sound

section Steps

variable {below : Oracle SessionM} {shallow : Known}

/-- A step that comes after one that serves, and goes on from what it has found. -/
theorem Serves.bind {limit shallow : Checked α} {limits shallows : α → Checked β} {x : SessionM α}
    {next : α → SessionM β} (first : Serves s types spoils memory limit shallow (x memory))
    (settles : Deepens shallow limit)
    (second : ∀ value memory', memory.Extends memory' → memory'.Sound s types →
      Serves s types spoils memory' (limits value) (shallows value) (next value memory')) :
    Serves s types spoils memory (limit >>= limits) (shallow >>= shallows) ((x >>= next) memory) := by
  change Serves s types spoils memory _ _ (EStateM.bind x next memory)
  unfold EStateM.bind
  generalize x memory = result at first
  cases result with
  | ok value memory' =>
    obtain rfl := first.value
    have later := second value memory' first.grows first.sound
    refine ⟨later.sound, first.grows.trans later.grows, later.ends.imp id (.imp ?_ id)⟩
    rintro ⟨endless, cut⟩
    refine ⟨endless, ?_⟩
    rcases settles with cut' | rfl
    · rw [cut']
      rfl
    · exact cut
  | error fault memory' =>
    refine ⟨first.sound, first.grows, first.ends.imp (fun same => ?_) (.imp ?_ ?_)⟩
    · rw [← same]
      rfl
    · rintro ⟨endless, cut⟩
      cases endless
      rw [cut]
      exact ⟨rfl, rfl⟩
    · rintro ⟨spoilt, overflow⟩
      cases overflow
      exact ⟨spoilt, rfl⟩

/-- A computation is served as whatever it asks for is. -/
theorem LayoutM.serves (oracle : below.Serves s types spoils shallow)
    (settles : shallow.Deepens (s.known s.depth)) {x : LayoutM α} {notes : Note → Prop}
    (asks : x.Confined (· ∈ types) notes) (memory : Memory) (sound : memory.Sound s types) :
    Serves s types spoils memory (x.eval (s.known s.depth)) (x.eval shallow) (x.answer below memory) := by
  induction x generalizing memory with
  | done value => exact ⟨sound, .refl _, .inl rfl⟩
  | stop fault => exact ⟨sound, .refl _, .inl rfl⟩
  | askRecord r next ih =>
    exact (oracle.record r memory sound).bind (settles.record r)
      fun layout memory' _ => ih layout (asks layout) memory'
  | askType type next ih =>
    exact (oracle.type type asks.1 memory sound).bind (settles.type type)
      fun layout memory' _ => ih layout (asks.2 layout) memory'
  | tell note rest ih =>
    obtain ⟨diagnostics, log, told⟩ := oracle.note note memory
    have run : (LayoutM.tell note rest).answer below memory =
        rest.answer below { memory with diagnostics, log } := by
      change EStateM.bind _ _ _ = _
      rw [EStateM.bind, told]
    rw [run]
    have later := ih asks.2 { memory with diagnostics, log } ⟨sound.record, sound.type⟩
    exact ⟨later.sound, ⟨later.grows.records, later.grows.types⟩, later.ends⟩

/-- What a step has found may be stored before it ends. -/
theorem Serves.store {limit shallow : Checked α} {x : SessionM α}
    (first : Serves s types spoils memory limit shallow (x memory)) {store : α → Memory → Memory}
    (stores : ∀ value memory, limit = .ok value → memory.Sound s types →
      (store value memory).Sound s types ∧ memory.Extends (store value memory)) :
    Serves s types spoils memory limit shallow ((do
      let value ← x
      modify (store value)
      return value : SessionM α) memory) := by
  change Serves s types spoils memory _ _ (EStateM.bind x (fun value => EStateM.bind
    (modify (store value)) fun _ => pure value) memory)
  unfold EStateM.bind
  generalize x memory = result at first
  cases result with
  | ok value memory' =>
    obtain ⟨sound, grows⟩ := stores value memory' first.value first.sound
    exact ⟨sound, first.grows.trans grows, first.ends⟩
  | error fault memory' => exact first

end Steps

namespace Session

section Oracles

/-- A step that looks at the memory goes on with the memory that there is. -/
theorem get_bind {next : Memory → SessionM α} : (get >>= next) memory = next memory memory := rfl

theorem recallRecord_found (below : Option (Oracle SessionM)) {r : RecordId} {layout : RecordLayout}
    (found : memory.records.find? r = some layout) :
    recallRecord s reporting below r memory = .ok layout memory := by
  unfold recallRecord
  rw [get_bind, found]
  rfl

theorem recallRecord_endless {r : RecordId} (missing : memory.records.find? r = none) :
    recallRecord s reporting none r memory = .error .endless memory := by
  unfold recallRecord
  rw [get_bind, missing]
  rfl

theorem recallRecord_missing (quiet : s.options.dumpLayouts = false) (below : Oracle SessionM)
    {r : RecordId} (missing : memory.records.find? r = none) :
    recallRecord s reporting (some below) r memory = (do
      let layout ← (RecordLayout.ofRecord s r).answer below
      modify (·.rememberRecord r layout)
      return layout : SessionM RecordLayout) memory := by
  have hidden : showsDumps s reporting = false := by rw [showsDumps, quiet, Bool.false_and]
  unfold recallRecord
  rw [get_bind, missing]
  simp only [hidden, Bool.false_eq_true, if_false]

theorem recallType_found (below : Option (Oracle SessionM)) {type : Ty} {layout : TypeLayout}
    (found : memory.types.find? type.id = some layout) :
    recallType s below type memory = .ok layout memory := by
  unfold recallType
  rw [get_bind, found]
  rfl

theorem recallType_endless {type : Ty} (missing : memory.types.find? type.id = none) :
    recallType s none type memory = .error .endless memory := by
  unfold recallType
  rw [get_bind, missing]
  rfl

theorem recallType_missing (below : Oracle SessionM) {type : Ty}
    (missing : memory.types.find? type.id = none) :
    recallType s (some below) type memory = (do
      let layout ← (TypeLayout.ofTy s type).answer below
      modify (·.rememberType type.id layout)
      return layout : SessionM TypeLayout) memory := by
  unfold recallType
  rw [get_bind, missing]

/-- Taking a note leaves the tables alone. -/
theorem take_tables (reporting : Reporting) (note : Note) (memory : Memory) : ∃ diagnostics log,
    memory.take reporting note = { memory with diagnostics, log } := by
  cases note with
  | warning warning => exact ⟨_, _, rfl⟩
  | event event =>
    unfold Memory.take
    dsimp only
    split
    · exact ⟨_, _, rfl⟩
    · exact ⟨_, _, rfl⟩
  | answered question isFree => exact ⟨_, _, rfl⟩

theorem oracleOver_note (below : Option (Oracle SessionM)) (note : Note) (memory : Memory) :
    ∃ diagnostics log,
      (oracleOver s reporting below).note note memory = .ok () { memory with diagnostics, log } := by
  obtain ⟨diagnostics, log, same⟩ := take_tables reporting note memory
  refine ⟨diagnostics, log, ?_⟩
  rw [← same]
  rfl

theorem oracleOver_none_serves (catalog : s.tree.Catalog types) :
    (oracleOver s reporting none).Serves s types spoils (s.known 0) where
  record r memory sound := by
    change Serves s types spoils memory _ _ (recallRecord s reporting none r memory)
    cases found : memory.records.find? r with
    | some layout =>
      rw [recallRecord_found none found]
      exact ⟨sound, .refl _, .inl (sound.record found).symm⟩
    | none =>
      rw [recallRecord_endless found]
      exact ⟨sound, .refl _, .inr (.inl ⟨rfl, rfl⟩)⟩
  type type member memory sound := by
    change Serves s types spoils memory _ _ (recallType s none type memory)
    cases found : memory.types.find? type.id with
    | some layout =>
      rw [recallType_found none found]
      exact ⟨sound, .refl _, .inl (sound.found_type catalog member found).symm⟩
    | none =>
      rw [recallType_endless found]
      exact ⟨sound, .refl _, .inr (.inl ⟨rfl, rfl⟩)⟩
  note := oracleOver_note none

section Below

variable {below : Oracle SessionM} {depth : Nat} (catalog : s.tree.Catalog types) (lt : depth < s.depth)
  (h : below.Serves s types spoils (s.known depth))
include catalog lt h

theorem ofRecord_serves (r : RecordId) (sound : memory.Sound s types) :
    Serves s types spoils memory ((s.known s.depth).record r) ((s.known (depth + 1)).record r)
      ((RecordLayout.ofRecord s r).answer below memory) := by
  rw [(Setting.known_agrees_depth catalog).record r]
  exact LayoutM.serves h (s.known_deepens_le lt.le) (RecordLayout.ofRecord_asks catalog r) memory sound

/-- An oracle serves if it serves what it has to work out about records. -/
theorem oracleOver_serves (works : ∀ r memory, memory.Sound s types →
    memory.records.find? r = none → Serves s types spoils memory ((s.known s.depth).record r)
      ((s.known (depth + 1)).record r) (recallRecord s reporting (some below) r memory)) :
    (oracleOver s reporting (some below)).Serves s types spoils (s.known (depth + 1)) where
  record r memory sound := by
    change Serves s types spoils memory _ _ (recallRecord s reporting (some below) r memory)
    cases found : memory.records.find? r with
    | some layout =>
      rw [recallRecord_found _ found]
      exact ⟨sound, .refl _, .inl (sound.record found).symm⟩
    | none => exact works r memory sound found
  type type member memory sound := by
    change Serves s types spoils memory _ _ (recallType s (some below) type memory)
    cases found : memory.types.find? type.id with
    | some layout =>
      rw [recallType_found _ found]
      exact ⟨sound, .refl _, .inl (sound.found_type catalog member found).symm⟩
    | none =>
      rw [recallType_missing below found]
      have worked := LayoutM.serves h (s.known_deepens_le lt.le)
        (TypeLayout.ofTy_asks catalog member) memory sound
      have limit := (Setting.known_agrees_depth catalog).type type member
      refine Serves.store ?_ fun layout memory' laid sound' =>
        sound'.rememberType catalog member laid
      rw [limit]
      exact worked
  note := oracleOver_note (some below)

end Below

/-- What is run in a session comes to what it comes to with all layouts known, if its oracle serves, as
long as nothing spoils it. -/
theorem run_serves_of (serves : (oracle s reporting s.depth).Serves s types spoils (s.known s.depth))
    {x : LayoutM α} {notes : Note → Prop} (asks : x.Confined (· ∈ types) notes)
    (sound : memory.Sound s types) : (left (run s reporting x memory)).Sound s types ∧
      memory.Extends (left (run s reporting x memory)) ∧
      (outcome (run s reporting x memory) = x.eval (s.known s.depth) ∨
        (spoils ∧ outcome (run s reporting x memory) = .error .overflow)) := by
  have served := LayoutM.serves serves (s.known_deepens_le le_rfl) asks memory sound
  refine ⟨served.sound, served.grows, ?_⟩
  rcases served.ends with same | ⟨endless, cut⟩ | spoilt
  · exact .inl same
  · exact .inl (endless.trans cut.symm)
  · exact .inr spoilt

variable (catalog : s.tree.Catalog types) (quiet : s.options.dumpLayouts = false)
include catalog quiet

theorem oracleOver_some_serves {below : Oracle SessionM} {depth : Nat} (lt : depth < s.depth)
    (h : below.Serves s types spoils (s.known depth)) :
    (oracleOver s reporting (some below)).Serves s types spoils (s.known (depth + 1)) := by
  apply oracleOver_serves catalog lt h
  intro r memory sound missing
  rw [recallRecord_missing quiet below missing]
  exact (ofRecord_serves catalog lt h r sound).store
    fun layout memory' laid sound' => sound'.rememberRecord laid

/-- To every depth that the setting allows, asking a session comes to what asking again and again
comes to. -/
theorem oracle_serves (reporting : Reporting) {depth : Nat} (le : depth ≤ s.depth) :
    (oracle s reporting depth).Serves s types False (s.known depth) := by
  induction depth with
  | zero => exact oracleOver_none_serves catalog
  | succ depth ih => exact oracleOver_some_serves catalog quiet le (ih (Nat.le_of_succ_le le))

/-- What is run in a session comes to what it comes to with all layouts known. -/
theorem run_serves (reporting : Reporting) {x : LayoutM α} {notes : Note → Prop}
    (asks : x.Confined (· ∈ types) notes) (sound : memory.Sound s types) :
    (left (run s reporting x memory)).Sound s types ∧
      memory.Extends (left (run s reporting x memory)) ∧
      outcome (run s reporting x memory) = x.eval (s.known s.depth) := by
  obtain ⟨sound, grows, ends⟩ :=
    run_serves_of (oracle_serves catalog quiet reporting le_rfl) asks sound
  exact ⟨sound, grows, ends.resolve_right And.left⟩

end Oracles

end Session

end ObjectLayout
