import ObjectLayout.Proofs.Dumping
import ObjectLayout.Proofs.Session.Questions

/-! What a session shows makes no difference to what it answers. A session that logs a dump of each new
layout asks, on the way, for layouts that are stored already; the one thing that can go wrong is a
number in the dump that is too large. -/
namespace ObjectLayout

open Session (outcome left run oracle oracleOver recallRecord logDump showsDumps)

variable {s : Setting} {types : List Ty} {reporting : Reporting} {memory memory' : Memory}
variable {r : RecordId} {layout : RecordLayout} {depth : Nat} {spoils : Prop}

/-- The same declarations, with new layouts shown in the log or not. -/
def Setting.showing (s : Setting) (shown : Bool) : Setting :=
  { s with options := { s.options with dumpLayouts := shown } }

theorem Setting.known_showing (s : Setting) (shown : Bool) (depth : Nat) :
    (s.showing shown).known depth = s.known depth := by
  induction depth with
  | zero => rfl
  | succ depth ih =>
    unfold Setting.known
    rw [ih]
    rfl

/-- No layout that a record has is dumped with a number that is too large. -/
def Setting.DumpsFit (s : Setting) : Prop := ∀ r layout, (s.known s.depth).record r = .ok layout →
  (dump s r false).eval (s.known s.depth) ≠ .error .overflow

/-- The log entry is there once the dump is. -/
theorem Session.logDump_eval {known : Known} :
    (logDump s r).eval known = (dump s r false).eval known >>= fun _ => .ok () := by
  unfold logDump
  rw [LayoutM.eval_bind]
  rfl

theorem Session.logDump_asks : (logDump s r).AsksOnly (· ∈ types) :=
  (dump_silent r false).of_silent.bind fun _ => ⟨trivial, trivial⟩

namespace Setting.HasIntegerBitFields

variable (integer : s.HasIntegerBitFields) (unsupplied : s.supplied = none)
include integer unsupplied

theorem logDump_ends (laid : (s.known s.depth).record r = .ok layout) :
    (logDump s r).eval (s.known s.depth) = .ok () ∨
      (¬ s.DumpsFit ∧ (logDump s r).eval (s.known s.depth) = .error .overflow) := by
  have overflows := (integer.known_displays unsupplied s.depth).dump_overflows laid false
  rw [Session.logDump_eval]
  cases same : (dump s r false).eval (s.known s.depth) with
  | ok text => exact .inl rfl
  | error fault =>
    obtain rfl := overflows.fault same
    exact .inr ⟨fun fit => fit r layout laid same, rfl⟩

theorem logDump_storing_ne (laid : (s.known (depth + 1)).record r = .ok layout) :
    (logDump s r).eval ((s.known depth).storing r layout) ≠ .error .endless := by
  have overflows := (integer.displays_storing unsupplied laid).dump_overflows
    ((s.known depth).storing_self) false
  rw [Session.logDump_eval]
  cases same : (dump s r false).eval ((s.known depth).storing r layout) with
  | ok text => exact nofun
  | error fault =>
    obtain rfl := overflows.fault same
    exact nofun

end Setting.HasIntegerBitFields

/-- What is stored is answered from memory. -/
def Oracle.Recalls (oracle : Oracle SessionM) : Prop := ∀ {memory r layout},
  memory.records.find? r = some layout → oracle.record r memory = .ok layout memory

/-- A computation is served by what is stored as well, and not only by what the oracle can work out. -/
theorem LayoutM.serves_storing {below : Oracle SessionM} {shallow : Known}
    (oracle : below.Serves s types spoils shallow) (recalls : below.Recalls)
    (settles : shallow.Deepens (s.known s.depth)) {x : LayoutM α} {notes : Note → Prop}
    (asks : x.Confined (· ∈ types) notes) (sound : memory.Sound s types)
    (stored : memory.records.find? r = some layout) :
    Serves s types spoils memory (x.eval (s.known s.depth)) (x.eval (shallow.storing r layout))
      (x.answer below memory) := by
  induction x generalizing memory with
  | done value => exact ⟨sound, .refl _, .inl rfl⟩
  | stop fault => exact ⟨sound, .refl _, .inl rfl⟩
  | askRecord r' next ih =>
    by_cases same : r' = r
    · subst same
      have limit : (LayoutM.askRecord r' next).eval (s.known s.depth) =
          (next layout).eval (s.known s.depth) := by
        change (s.known s.depth).record r' >>= _ = _
        rw [sound.record stored]
        rfl
      have shallow : (LayoutM.askRecord r' next).eval (shallow.storing r' layout) =
          (next layout).eval (shallow.storing r' layout) := by
        change (shallow.storing r' layout).record r' >>= _ = _
        rw [Known.storing_self]
        rfl
      have answered : (LayoutM.askRecord r' next).answer below memory =
          (next layout).answer below memory := by
        change EStateM.bind _ _ memory = _
        rw [EStateM.bind, recalls stored]
      rw [limit, shallow, answered]
      exact ih layout (asks layout) sound stored
    · have other : (LayoutM.askRecord r' next).eval (shallow.storing r layout) =
          shallow.record r' >>= fun inner => (next inner).eval (shallow.storing r layout) := by
        change (shallow.storing r layout).record r' >>= _ = _
        rw [Known.storing_of_ne _ same]
        rfl
      rw [other]
      exact (oracle.record r' memory sound).bind (settles.record r')
        fun inner memory' grows sound' => ih inner (asks inner) sound' (grows.records r layout stored)
  | askType type next ih =>
    exact (oracle.type type asks.1 memory sound).bind (settles.type type)
      fun inner memory' grows sound' => ih inner (asks.2 inner) sound' (grows.records r layout stored)
  | tell note rest ih =>
    obtain ⟨diagnostics, log, told⟩ := oracle.note note memory
    have answered : (LayoutM.tell note rest).answer below memory =
        rest.answer below { memory with diagnostics, log } := by
      change EStateM.bind _ _ memory = _
      rw [EStateM.bind, told]
    rw [answered]
    have later := @ih { memory with diagnostics, log } asks.2 ⟨sound.record, sound.type⟩ stored
    exact ⟨later.sound, ⟨later.grows.records, later.grows.types⟩, later.ends⟩

namespace Session

theorem oracle_recalls (depth : Nat) : (oracle s reporting depth).Recalls := by
  intro memory r layout stored
  cases depth with
  | zero => exact recallRecord_found none stored
  | succ depth => exact recallRecord_found _ stored

theorem recallRecord_shown (shown : showsDumps s reporting = true) (below : Oracle SessionM)
    (missing : memory.records.find? r = none) :
    recallRecord s reporting (some below) r memory = (do
      let layout ← (RecordLayout.ofRecord s r).answer below
      modify (·.rememberRecord r layout)
      (logDump s r).answer below
      return layout : SessionM RecordLayout) memory := by
  unfold recallRecord
  rw [get_bind, missing]
  simp only [shown, if_true]

theorem recallRecord_hidden (hidden : showsDumps s reporting = false) (below : Oracle SessionM)
    (missing : memory.records.find? r = none) :
    recallRecord s reporting (some below) r memory = (do
      let layout ← (RecordLayout.ofRecord s r).answer below
      modify (·.rememberRecord r layout)
      return layout : SessionM RecordLayout) memory := by
  unfold recallRecord
  rw [get_bind, missing]
  simp only [hidden, Bool.false_eq_true, if_false]

section Serving

variable (catalog : s.tree.Catalog types) (integer : s.HasIntegerBitFields)
variable (unsupplied : s.supplied = none)
include catalog integer unsupplied

/-- A layout is stored before it is shown, so that the dump of it finds all it asks for. -/
theorem recallRecord_serves {below : Oracle SessionM} (lt : depth < s.depth)
    (h : below.Serves s types (¬ s.DumpsFit) (s.known depth)) (recalls : below.Recalls)
    (sound : memory.Sound s types) (missing : memory.records.find? r = none) :
    Serves s types (¬ s.DumpsFit) memory ((s.known s.depth).record r) ((s.known (depth + 1)).record r)
      (recallRecord s reporting (some below) r memory) := by
  have worked := ofRecord_serves catalog lt h r sound
  cases shown : showsDumps s reporting with
  | false =>
    rw [recallRecord_hidden shown below missing]
    exact worked.store fun layout memory' laid sound' => sound'.rememberRecord laid
  | true =>
    rw [recallRecord_shown shown below missing]
    change Serves s types _ memory _ _ (EStateM.bind ((RecordLayout.ofRecord s r).answer below)
      (fun layout => EStateM.bind (modify (·.rememberRecord r layout)) fun _ =>
        EStateM.bind ((logDump s r).answer below) fun _ => pure layout) memory)
    unfold EStateM.bind
    generalize (RecordLayout.ofRecord s r).answer below memory = result at worked
    cases result with
    | error fault memory' => exact worked
    | ok layout memory' =>
      have between : memory'.Sound s types := worked.sound
      obtain ⟨sound', grows⟩ := between.rememberRecord worked.value
      have dumped := LayoutM.serves_storing h recalls (s.known_deepens_le lt.le)
        (logDump_asks (s := s) (r := r)) sound' (OrderedMap.find?_insert_self _ _ _)
      have whole := worked.grows.trans (grows.trans dumped.grows)
      have ends := integer.logDump_ends unsupplied worked.value
      change Serves s types _ memory _ _ (EStateM.bind ((logDump s r).answer below)
        (fun _ => pure layout) (memory'.rememberRecord r layout))
      unfold EStateM.bind
      generalize (logDump s r).answer below (memory'.rememberRecord r layout) = shownResult at dumped whole
      cases shownResult with
      | ok _ later => exact ⟨dumped.sound, whole, .inl worked.value.symm⟩
      | error fault later =>
        refine ⟨dumped.sound, whole, .inr ?_⟩
        rcases dumped.ends with same | ⟨endless, cut⟩ | ⟨spoilt, overflow⟩
        · rcases ends with fits | ⟨spoilt, overflow⟩
          · cases same.trans fits
          · cases same.trans overflow
            exact .inr ⟨spoilt, rfl⟩
        · refine .inl ⟨by cases endless; rfl, ?_⟩
          rcases (s.known_deepens_le (Nat.succ_le_of_lt lt)).record r with shallow | same
          · exact shallow
          · exact absurd cut (integer.logDump_storing_ne unsupplied (same.trans worked.value))
        · cases overflow
          exact .inr ⟨spoilt, rfl⟩

theorem oracle_serves_shown (reporting : Reporting) (le : depth ≤ s.depth) :
    (oracle s reporting depth).Serves s types (¬ s.DumpsFit) (s.known depth) := by
  induction depth with
  | zero => exact oracleOver_none_serves catalog
  | succ depth ih =>
    have serves := ih (Nat.le_of_succ_le le)
    exact oracleOver_serves catalog le serves fun r memory sound missing =>
      recallRecord_serves catalog integer unsupplied le serves (oracle_recalls depth) sound missing

/-- Whatever it shows, what is run in a session comes to what it comes to with all layouts known, unless
a dump has a number that is too large. -/
theorem run_serves_shown (reporting : Reporting) {x : LayoutM α} {notes : Note → Prop}
    (asks : x.Confined (· ∈ types) notes) (sound : memory.Sound s types) :
    (left (run s reporting x memory)).Sound s types ∧
      memory.Extends (left (run s reporting x memory)) ∧
      (outcome (run s reporting x memory) = x.eval (s.known s.depth) ∨
        (¬ s.DumpsFit ∧ outcome (run s reporting x memory) = .error .overflow)) :=
  run_serves_of (oracle_serves_shown catalog integer unsupplied reporting le_rfl) asks sound

end Serving

end Session

/-- Every value that an oracle answers with is the one that there is without any limit, whether or not
dumps can fail in between. -/
structure Oracle.Truthful (s : Setting) (types : List Ty) (oracle : Oracle SessionM) : Prop where
  record : ∀ {r memory layout memory'}, memory.Sound s types →
    oracle.record r memory = .ok layout memory' →
      (s.known s.depth).record r = .ok layout ∧ memory'.Sound s types
  type : ∀ {type memory layout memory'}, type ∈ types → memory.Sound s types →
    oracle.type type memory = .ok layout memory' →
      (s.known s.depth).type type = .ok layout ∧ memory'.Sound s types
  note : ∀ note memory, ∃ diagnostics log, oracle.note note memory =
    .ok () { memory with diagnostics, log }

theorem LayoutM.truthful {oracle : Oracle SessionM} (truthful : oracle.Truthful s types)
    {x : LayoutM α} {notes : Note → Prop} (asks : x.Confined (· ∈ types) notes)
    (sound : memory.Sound s types) {value : α} (done : x.answer oracle memory = .ok value memory') :
    x.eval (s.known s.depth) = .ok value ∧ memory'.Sound s types := by
  induction x generalizing memory with
  | done value =>
    cases done
    exact ⟨rfl, sound⟩
  | stop fault => cases done
  | askRecord r next ih =>
    obtain ⟨layout, between, asked, done⟩ := SessionM.bind_eq_ok.mp done
    obtain ⟨laid, sound⟩ := truthful.record sound asked
    obtain ⟨rest, sound⟩ := ih layout (asks layout) sound done
    exact ⟨except_bind_eq_ok.mpr ⟨layout, laid, rest⟩, sound⟩
  | askType type next ih =>
    obtain ⟨layout, between, asked, done⟩ := SessionM.bind_eq_ok.mp done
    obtain ⟨laid, sound⟩ := truthful.type asks.1 sound asked
    obtain ⟨rest, sound⟩ := ih layout (asks.2 layout) sound done
    exact ⟨except_bind_eq_ok.mpr ⟨layout, laid, rest⟩, sound⟩
  | tell note rest ih =>
    obtain ⟨diagnostics, log, told⟩ := truthful.note note memory
    obtain ⟨_, between, taken, done⟩ := SessionM.bind_eq_ok.mp done
    cases told.symm.trans taken
    exact @ih { memory with diagnostics, log } asks.2 ⟨sound.record, sound.type⟩ done

namespace Session

section Truth

variable {below : Oracle SessionM} (catalog : s.tree.Catalog types)
variable (truthful : below.Truthful s types)
include catalog truthful

/-- A layout that has been worked out and stored has also been shown, if it was to be. -/
theorem recallRecord_truthful (sound : memory.Sound s types)
    (missing : memory.records.find? r = none)
    (done : recallRecord s reporting (some below) r memory = .ok layout memory') :
    (s.known s.depth).record r = .ok layout ∧ memory'.Sound s types ∧
      (showsDumps s reporting = true → (logDump s r).eval (s.known s.depth) = .ok ()) := by
  have limit {layout : RecordLayout}
      (found : (RecordLayout.ofRecord s r).eval (s.known s.depth) = .ok layout) :
      (s.known s.depth).record r = .ok layout := by
    rw [(Setting.known_agrees_depth catalog).record r]
    exact found
  cases shown : showsDumps s reporting with
  | false =>
    rw [recallRecord_hidden shown below missing] at done
    obtain ⟨layout', between, worked, done⟩ := SessionM.bind_eq_ok.mp done
    cases done
    obtain ⟨laid, sound⟩ := LayoutM.truthful truthful (RecordLayout.ofRecord_asks catalog r) sound worked
    exact ⟨limit laid, (sound.rememberRecord (limit laid)).1, nofun⟩
  | true =>
    rw [recallRecord_shown shown below missing] at done
    obtain ⟨layout', between, worked, storing⟩ := SessionM.bind_eq_ok.mp done
    obtain ⟨_, _, ⟨⟩, showing⟩ := SessionM.bind_eq_ok.mp storing
    obtain ⟨⟨⟩, after, dumped, ⟨⟩⟩ := SessionM.bind_eq_ok.mp showing
    obtain ⟨laid, sound⟩ := LayoutM.truthful truthful (RecordLayout.ofRecord_asks catalog r) sound worked
    have stored := (sound.rememberRecord (limit laid)).1
    obtain ⟨text, sound⟩ := LayoutM.truthful truthful (logDump_asks (r := r)) stored dumped
    exact ⟨limit laid, sound, fun _ => text⟩

theorem recallType_truthful {type : Ty} {layout : TypeLayout} (listed : type ∈ types)
    (sound : memory.Sound s types)
    (done : recallType s (some below) type memory = .ok layout memory') :
    (s.known s.depth).type type = .ok layout ∧ memory'.Sound s types := by
  obtain ⟨found, rfl⟩ | ⟨_, ⟨⟩, between, _, worked, rfl⟩ := recallType_eq_ok done
  · exact ⟨sound.found_type catalog listed found, sound⟩
  · obtain ⟨laid, sound⟩ := LayoutM.truthful truthful (TypeLayout.ofTy_asks catalog listed) sound worked
    have limit := ((Setting.known_agrees_depth catalog).type type listed).trans laid
    exact ⟨limit, (sound.rememberType catalog listed limit).1⟩

end Truth

theorem oracle_truthful (catalog : s.tree.Catalog types) (reporting : Reporting) (depth : Nat) :
    (oracle s reporting depth).Truthful s types := by
  induction depth with
  | zero =>
    constructor
    case record =>
      intro r memory layout memory' sound done
      have done : recallRecord s reporting none r memory = .ok layout memory' := done
      cases found : memory.records.find? r with
      | some stored =>
        rw [recallRecord_found none found] at done
        cases done
        exact ⟨sound.record found, sound⟩
      | none =>
        rw [recallRecord_endless found] at done
        cases done
    case type =>
      intro type memory layout memory' listed sound done
      obtain ⟨found, rfl⟩ | ⟨_, ⟨⟩, _⟩ := recallType_eq_ok done
      exact ⟨sound.found_type catalog listed found, sound⟩
    case note => exact oracleOver_note none
  | succ depth ih =>
    constructor
    case record =>
      intro r memory layout memory' sound done
      cases found : memory.records.find? r with
      | some stored =>
        cases (oracle_recalls (depth + 1) found).symm.trans done
        exact ⟨sound.record found, sound⟩
      | none =>
        obtain ⟨laid, sound, _⟩ := recallRecord_truthful catalog ih sound found done
        exact ⟨laid, sound⟩
    case type => exact fun listed sound done => recallType_truthful catalog ih listed sound done
    case note => exact oracleOver_note _

end Session

end ObjectLayout
