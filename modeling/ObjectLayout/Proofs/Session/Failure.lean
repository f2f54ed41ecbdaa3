import ObjectLayout.Proofs.Itanium.Soundness
import ObjectLayout.Proofs.Session.Memory

/-! What a failure leaves behind. The computations that were under way when a layout failed have stored
nothing of themselves; all that is stored has been completed, and would be found again without it. -/
namespace ObjectLayout

open Session (outcome left)

variable {s : Setting} {types : List Ty} {reporting : Reporting} {memory memory' : Memory}
variable {fault : Fault} {subject : Subject} {depth : Nat}

/-- What a computation had asked for when it stopped, and the memory at that moment, unless it has
stopped by itself or not at all. -/
def LayoutM.brokenOffAt (oracle : Oracle SessionM) : LayoutM α → Memory → Option (Subject × Memory)
  | .done _, _ | .stop _, _ => none
  | .askRecord r next, memory =>
    match oracle.record r memory with
    | .ok layout memory => (next layout).brokenOffAt oracle memory
    | .error _ _ => some (.record r, memory)
  | .askType type next, memory =>
    match oracle.type type memory with
    | .ok layout memory => (next layout).brokenOffAt oracle memory
    | .error _ _ => some (.type type, memory)
  | .tell note rest, memory =>
    match oracle.note note memory with
    | .ok _ memory => rest.brokenOffAt oracle memory
    | .error _ _ => none

namespace Session

/-- What the computation for a subject was waiting for when it stopped. -/
def waitsFor (s : Setting) (below : Oracle SessionM) (memory : Memory) :
    Subject → Option (Subject × Memory)
  | .record r => (RecordLayout.ofRecord s r).brokenOffAt below memory
  | .type type => (TypeLayout.ofTy s type).brokenOffAt below memory

/-- The computations that were under way when the one for a subject failed, each with the one that it
was waiting for behind it. -/
def underWay (s : Setting) (reporting : Reporting) : Nat → Subject → Memory → List Subject
  | 0, subject, _ => [subject]
  | depth + 1, subject, memory =>
    let waiting := waitsFor s (oracle s reporting depth) memory subject
    subject :: waiting.elim [] fun (inner, memory) => underWay s reporting depth inner memory

/-- A memory that some steps, completed or not, have led to. -/
inductive Reachable (s : Setting) (types : List Ty) (reporting : Reporting) : Memory → Prop
  | fresh : Reachable s types reporting (.fresh reporting)
  | step {memory : Memory} (before : Reachable s types reporting memory) {α : Type} {x : LayoutM α}
      (asks : x.AsksOnly (· ∈ types)) : Reachable s types reporting (left (run s reporting x memory))

/-- Asking for a subject ends with a fault. -/
def Fails (oracle : Oracle SessionM) (memory : Memory) (fault : Fault) (memory' : Memory) :
    Subject → Prop
  | .record r => oracle.record r memory = .error fault memory'
  | .type type => oracle.type type memory = .error fault memory'

section Steps

variable {below : Oracle SessionM} {shallow : Known}

/-- The computation that has stopped was waiting for what fails where it stopped. -/
theorem brokenOffAt_fails (serves : below.Serves s types False shallow) {x : LayoutM α}
    {notes : Note → Prop} (asks : x.Confined (· ∈ types) notes) (sound : memory.Sound s types)
    (failed : x.answer below memory = .error fault memory') {inner : Subject} {between : Memory}
    (waiting : x.brokenOffAt below memory = some (inner, between)) :
    Fails below between fault memory' inner ∧ between.Sound s types ∧ inner.IsListed types := by
  induction x generalizing memory with
  | done value => cases waiting
  | stop fault => cases waiting
  | askRecord r next ih =>
    have served := serves.record r memory sound
    change EStateM.bind _ _ _ = _ at failed
    unfold EStateM.bind at failed
    unfold LayoutM.brokenOffAt at waiting
    cases found : below.record r memory with
    | ok layout later =>
      rw [found] at failed waiting served
      exact ih layout (asks layout) served.sound failed waiting
    | error fault' later =>
      rw [found] at failed waiting
      cases failed
      cases waiting
      exact ⟨found, sound, trivial⟩
  | askType type next ih =>
    have served := serves.type type asks.1 memory sound
    change EStateM.bind _ _ _ = _ at failed
    unfold EStateM.bind at failed
    unfold LayoutM.brokenOffAt at waiting
    cases found : below.type type memory with
    | ok layout later =>
      rw [found] at failed waiting served
      exact ih layout (asks.2 layout) served.sound failed waiting
    | error fault' later =>
      rw [found] at failed waiting
      cases failed
      cases waiting
      exact ⟨found, sound, asks.1⟩
  | tell note rest ih =>
    obtain ⟨diagnostics, log, told⟩ := serves.note note memory
    change EStateM.bind _ _ _ = _ at failed
    unfold EStateM.bind at failed
    unfold LayoutM.brokenOffAt at waiting
    rw [told] at failed waiting
    exact @ih { memory with diagnostics, log } asks.2 ⟨sound.record, sound.type⟩ failed waiting

/-- What has failed for another reason than a lack of depth is not stored. -/
theorem Fails.not_stored (serves : below.Serves s types False shallow) (catalog : s.tree.Catalog types)
    (sound : memory.Sound s types) (listed : subject.IsListed types) (panics : fault ≠ .endless)
    (failed : Fails below memory fault memory' subject) : subject.isStored memory' = false := by
  by_contra stored
  rw [Bool.not_eq_false] at stored
  cases subject with
  | record r =>
    obtain ⟨layout, found⟩ := Option.isSome_iff_exists.mp stored
    have served := serves.record r memory sound
    rw [show below.record r memory = _ from failed] at served
    cases (served.sound.record found).symm.trans (served.fault id panics)
  | type asked =>
    obtain ⟨layout, found⟩ := Option.isSome_iff_exists.mp stored
    have served := serves.type asked listed memory sound
    rw [show below.type asked memory = _ from failed] at served
    cases (served.sound.found_type catalog listed found).symm.trans (served.fault id panics)

/-- What is stored after a step has completed does not fail by being stored. -/
theorem eq_error_of_store {x : SessionM α} {store : α → Memory → Memory}
    (failed : (do
      let value ← x
      modify (store value)
      return value : SessionM α) memory = .error fault memory') : x memory = .error fault memory' := by
  change EStateM.bind x (fun value => EStateM.bind (modify (store value)) fun _ => pure value) memory =
    _ at failed
  unfold EStateM.bind at failed
  cases found : x memory with
  | ok value later =>
    rw [found] at failed
    cases failed
  | error fault' later =>
    rw [found] at failed
    cases failed
    rfl

/-- What a session is at work on has failed in being worked out. -/
theorem Fails.broken_off (catalog : s.tree.Catalog types) (quiet : s.options.dumpLayouts = false)
    (lt : depth < s.depth) (sound : memory.Sound s types) (listed : subject.IsListed types)
    (failed : Fails (oracle s reporting (depth + 1)) memory fault memory' subject) :
    ∀ inner between, waitsFor s (oracle s reporting depth) memory subject = some (inner, between) →
      Fails (oracle s reporting depth) between fault memory' inner ∧ between.Sound s types ∧
        inner.IsListed types := by
  intro inner between waiting
  have serves := oracle_serves catalog quiet reporting lt.le
  cases subject with
  | record r =>
    have failed : recallRecord s reporting (some (oracle s reporting depth)) r memory =
        .error fault memory' := failed
    cases found : memory.records.find? r with
    | some layout =>
      rw [recallRecord_found _ found] at failed
      cases failed
    | none =>
      rw [recallRecord_missing quiet _ found] at failed
      exact brokenOffAt_fails serves (RecordLayout.ofRecord_asks catalog r) sound
        (eq_error_of_store failed) waiting
  | type asked =>
    have failed : recallType s (some (oracle s reporting depth)) asked memory =
        .error fault memory' := failed
    cases found : memory.types.find? asked.id with
    | some layout =>
      rw [recallType_found _ found] at failed
      cases failed
    | none =>
      rw [recallType_missing _ found] at failed
      exact brokenOffAt_fails serves (TypeLayout.ofTy_asks catalog listed) sound
        (eq_error_of_store failed) waiting

theorem underWay_not_stored (catalog : s.tree.Catalog types) (quiet : s.options.dumpLayouts = false)
    (le : depth ≤ s.depth) (sound : memory.Sound s types) (listed : subject.IsListed types)
    (panics : fault ≠ .endless)
    (failed : Fails (oracle s reporting depth) memory fault memory' subject) :
    ∀ inner ∈ underWay s reporting depth subject memory, inner.isStored memory' = false := by
  induction depth generalizing subject memory with
  | zero =>
    intro inner member
    cases List.mem_singleton.mp member
    exact failed.not_stored (oracle_serves catalog quiet reporting le) catalog sound listed panics
  | succ depth ih =>
    intro inner member
    unfold underWay at member
    rcases List.mem_cons.mp member with rfl | member
    · exact failed.not_stored (oracle_serves catalog quiet reporting le) catalog sound listed panics
    · have broken := failed.broken_off catalog quiet le sound listed
      generalize waitsFor s (oracle s reporting depth) memory subject = waiting at member broken
      cases waiting with
      | none => cases member
      | some waiting =>
        obtain ⟨next, between⟩ := waiting
        obtain ⟨failed', sound', listed'⟩ := broken next between rfl
        exact ih (Nat.le_of_succ_le le) sound' listed' failed' inner member

end Steps

section Reached

variable (catalog : s.tree.Catalog types) (quiet : s.options.dumpLayouts = false)
include catalog quiet

theorem Reachable.sound (h : Reachable s types reporting memory) : memory.Sound s types := by
  induction h with
  | fresh => exact Memory.fresh_sound
  | step before asks sound => exact (run_serves catalog quiet reporting asks sound).1

/-- Whatever is stored, a session without any memory finds as well. -/
theorem Reachable.found_fresh (h : Reachable s types reporting memory) :
    (∀ r layout, memory.records.find? r = some layout →
      outcome (run s reporting (LayoutM.layoutOf r) (.fresh reporting)) = .ok layout) ∧
    ∀ id layout, memory.types.find? id = some layout → ∃ type ∈ types, type.id = id ∧
      outcome (run s reporting (LayoutM.typeLayoutOf type) (.fresh reporting)) = .ok layout := by
  have sound := h.sound catalog quiet
  constructor
  · intro r layout found
    have asks : (LayoutM.layoutOf r).AsksOnly (· ∈ types) := .layoutOf r
    rw [(run_serves catalog quiet reporting asks Memory.fresh_sound).2.2, LayoutM.eval_layoutOf]
    exact sound.record found
  · intro id layout found
    obtain ⟨type, member, same, laid⟩ := sound.type found
    have asks : (LayoutM.typeLayoutOf type).AsksOnly (· ∈ types) := .typeLayoutOf member
    refine ⟨type, member, same, ?_⟩
    rw [(run_serves catalog quiet reporting asks Memory.fresh_sound).2.2, LayoutM.eval_typeLayoutOf]
    exact laid

end Reached

end Session

open Session

/-- After a layout has failed, what was stored before is still there. Nothing is stored of the record,
nor, if the failure is a panic and no lack of an end, of any record or type that was being worked out
for it. What is stored is what a session without any memory finds, and the record fails again as it
has failed. -/
theorem failed_layout_leaves_memory_sound (catalog : s.tree.Catalog types)
    (quiet : s.options.dumpLayouts = false) (reachable : Reachable s types reporting memory)
    {r : RecordId} (failed : run s reporting (LayoutM.layoutOf r) memory = .error fault memory') :
    (memory.records.Extends memory'.records ∧ memory.types.Extends memory'.types) ∧
      memory'.records.find? r = none ∧
      (fault ≠ .endless → ∀ subject ∈ underWay s reporting s.depth (.record r) memory,
        subject.isStored memory' = false) ∧
      (∀ r' layout, memory'.records.find? r' = some layout →
        outcome (run s reporting (LayoutM.layoutOf r') (.fresh reporting)) = .ok layout) ∧
      (∀ id layout, memory'.types.find? id = some layout → ∃ type ∈ types, type.id = id ∧
        outcome (run s reporting (LayoutM.typeLayoutOf type) (.fresh reporting)) = .ok layout) ∧
      outcome (run s reporting (LayoutM.layoutOf r) memory') = .error fault := by
  have asks : (LayoutM.layoutOf r).AsksOnly (· ∈ types) := .layoutOf r
  have after : Reachable s types reporting memory' := by
    have next := reachable.step asks
    rwa [failed] at next
  have sound := reachable.sound catalog quiet
  obtain ⟨sound', grows, ended⟩ := run_serves catalog quiet reporting asks sound
  rw [failed] at sound' grows ended
  have limit : (s.known s.depth).record r = .error fault := by
    rw [← LayoutM.eval_layoutOf]
    exact ended.symm
  have again := (run_serves catalog quiet reporting asks sound').2.2
  obtain ⟨records, types⟩ := after.found_fresh catalog quiet
  refine ⟨⟨grows.records, grows.types⟩, ?_, fun panics => ?_, records, types, ?_⟩
  · cases found : memory'.records.find? r with
    | none => rfl
    | some layout => cases (sound'.record found).symm.trans limit
  · have fails : Fails (oracle s reporting s.depth) memory fault memory' (.record r) := by
      change EStateM.bind _ _ memory = _ at failed
      unfold EStateM.bind at failed
      cases asked : (oracle s reporting s.depth).record r memory with
      | ok layout later =>
        rw [asked] at failed
        cases failed
      | error fault' later =>
        rw [asked] at failed
        cases failed
        exact asked
    exact underWay_not_stored catalog quiet le_rfl sound trivial panics fails
  · exact again.trans ended.symm

/-- `D` has a base `A` and a plain member `P`, which has a `B` and then four of `U`. Only `U` has no
definition. -/
def undefinedMember : Setting :=
  let letter (name : String) : Record :=
    .ofClass name [{ name := "c", type := .scalar ⟨0⟩ .plainChar }] [] []
  let member (name : String) (type : Ty) : Field := { name, type }
  Setting.linux [
    letter "A",
    letter "B",
    { name := "U", kind := .struct, typeId := ⟨2⟩ },
    { name := "P", kind := .struct, typeId := ⟨4⟩, definition := some {
        fields := [member "b" (.record ⟨1⟩ ⟨1⟩), member "u" (.array ⟨3⟩ (.record ⟨2⟩ ⟨2⟩) 4)] } },
    .ofClass "D" [member "p" (.record ⟨4⟩ ⟨3⟩)] [{ record := ⟨0⟩ }] []] []

theorem undefinedMember_catalog : undefinedMember.tree.Catalog [.scalar ⟨0⟩ .plainChar,
    .record ⟨1⟩ ⟨1⟩, .record ⟨2⟩ ⟨2⟩, .array ⟨3⟩ (.record ⟨2⟩ ⟨2⟩) 4, .record ⟨4⟩ ⟨3⟩] := by
  refine .of_lists rfl rfl (by simp [Ty.parts]) ?_
  simp [undefinedMember, Setting.linux, Record.ofClass, Record.fields]

/-- The memory of a session that has laid out `A` alone. -/
def onlyBase : Memory := left (run undefinedMember {} (LayoutM.layoutOf ⟨0⟩) (.fresh {}))

/-- On the way to `U` the layout of `D` stores that of `B`. Left unfinished are `D`, `P`, the array, the
type `U` and the record. -/
theorem failed_layout_leaves_memory_sound_nested : ∃ memory' layout,
    run undefinedMember {} (LayoutM.layoutOf ⟨4⟩) onlyBase =
        .error (.breach (.undefinedRecord "struct U")) memory' ∧
      onlyBase.records.contains ⟨0⟩ = true ∧ onlyBase.records.contains ⟨1⟩ = false ∧
      onlyBase.records.Extends memory'.records ∧
      memory'.records.find? ⟨1⟩ = some layout ∧
      outcome (run undefinedMember {} (LayoutM.layoutOf ⟨1⟩) (.fresh {})) = .ok layout ∧
      (underWay undefinedMember {} undefinedMember.depth (.record ⟨4⟩) onlyBase).length = 5 ∧
      (∀ subject ∈ underWay undefinedMember {} undefinedMember.depth (.record ⟨4⟩) onlyBase,
        subject.isStored memory' = false) ∧
      outcome (run undefinedMember {} (LayoutM.layoutOf ⟨4⟩) memory') =
        .error (.breach (.undefinedRecord "struct U")) := by
  have ends : (match run undefinedMember {} (LayoutM.layoutOf ⟨4⟩) onlyBase with
      | .ok .. => none
      | .error fault memory => some (fault, memory.records.contains ⟨1⟩)) =
        some (.breach (.undefinedRecord "struct U"), true) := by decide +kernel
  cases failed : run undefinedMember {} (LayoutM.layoutOf ⟨4⟩) onlyBase with
  | ok layout memory' =>
    rw [failed] at ends
    cases ends
  | error fault memory' =>
    rw [failed] at ends
    simp only [Option.some.injEq, Prod.mk.injEq] at ends
    obtain ⟨rfl, stored⟩ := ends
    obtain ⟨layout, found⟩ := Option.isSome_iff_exists.mp stored
    obtain ⟨⟨records, _⟩, _, unfinished, fresh, _, again⟩ :=
      failed_layout_leaves_memory_sound undefinedMember_catalog rfl
        (.step .fresh (x := LayoutM.layoutOf ⟨0⟩) (.layoutOf _)) failed
    exact ⟨memory', layout, rfl, by decide +kernel, by decide +kernel, records, found,
      fresh _ _ found, by decide +kernel, unfinished (by decide), again⟩

end ObjectLayout
