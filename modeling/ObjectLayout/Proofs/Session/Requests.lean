import ObjectLayout.Proofs.Session.ShownDumps

/-! Everything a session can be asked, in any order. Neither the flags for warnings nor the level of the
log has a say in what it replies. Whether layouts are shown has one exactly if some layout cannot be
dumped, because a number in its dump is too large. -/
namespace ObjectLayout

open LayoutM (AsksOnly)
open LayoutM.Confined (layoutOf typeLayoutOf lift)
open Session (outcome left run showsDumps)

variable {s : Setting} {types : List Ty} {reporting : Reporting} {memory : Memory}

inductive Request where
  | question (question : Question)
  | sizeOf (type : Ty)
  | alignOf (type : Ty)
  | offsetOf (type : Ty) (name : String)
  | offsetOfField (decl : Decl)

inductive Reply where
  | answer (answer : Answer)
  | number (outcome : Except QueryError Nat)
  deriving DecidableEq

namespace Request

def ask (s : Setting) : Request → LayoutM Reply
  | .question asked => do return .answer (← asked.ask s)
  | .sizeOf type => do return .number (← Query.sizeOf s type)
  | .alignOf type => do return .number (← Query.alignOf s type)
  | .offsetOf type name => do return .number (← Query.offsetOf s type name)
  | .offsetOfField decl => do return .number (← Query.offsetOfField s decl)

/-- A request about a type is about one of the catalog; the size of a reference is that of what it
refers to. -/
def IsListed (types : List Ty) : Request → Prop
  | .question asked => asked.IsListed types
  | .sizeOf type | .alignOf type => type.withoutReference ∈ types
  | .offsetOf .. | .offsetOfField .. => True

theorem sizeOf_asks {type : Ty} (listed : type.withoutReference ∈ types) :
    (Query.sizeOf s type).AsksOnly (· ∈ types) := by
  unfold Query.sizeOf
  dsimp only
  split
  · exact .pure _
  · refine .ite (.pure _) (.ite (.pure _) ?_)
    exact (typeLayoutOf listed).bind fun _ => .pure _

theorem alignOf_asks {type : Ty} (listed : type.withoutReference ∈ types) :
    (Query.alignOf s type).AsksOnly (· ∈ types) := by
  unfold Query.alignOf
  dsimp only
  split
  · exact .pure _
  · exact (typeLayoutOf listed).bind fun _ => .pure _

theorem offsetOf_asks (type : Ty) (name : String) :
    (Query.offsetOf s type name).AsksOnly (· ∈ types) := by
  unfold Query.offsetOf
  split
  · exact .pure _
  · split
    · exact (Query.fieldOffset_silent _).of_silent.bind fun _ => .pure _
    · exact (Query.indirectFieldOffset_silent _).of_silent.bind fun _ => .pure _
    · exact ⟨trivial, trivial⟩

theorem offsetOfField_asks (decl : Decl) : (Query.offsetOfField s decl).AsksOnly (· ∈ types) := by
  unfold Query.offsetOfField
  split
  · split
    · exact .pure _
    · exact (Query.fieldOffset_silent _).of_silent.bind fun _ => .pure _
  · exact .pure _

theorem IsListed.ask_asks {request : Request} (listed : request.IsListed types) :
    (request.ask s).AsksOnly (· ∈ types) := by
  cases request with
  | question asked =>
    have listed : asked.IsListed types := listed
    exact (listed.ask_confined.mono (fun _ => id) fun _ => nofun).bind fun _ => .pure _
  | sizeOf type => exact (sizeOf_asks listed).bind fun _ => .pure _
  | alignOf type => exact (alignOf_asks listed).bind fun _ => .pure _
  | offsetOf type name => exact (offsetOf_asks type name).bind fun _ => .pure _
  | offsetOfField decl => exact (offsetOfField_asks decl).bind fun _ => .pure _

end Request

namespace Session

/-- The replies to some requests in order, each of them a value or the fault that it ends with. -/
def replies (s : Setting) (reporting : Reporting) : List Request → Memory → List (Checked Reply)
  | [], _ => []
  | request :: rest, memory =>
    let result := run s reporting (request.ask s) memory
    outcome result :: replies s reporting rest (left result)

/-- The replies of a new session. -/
def repliesNew (s : Setting) (reporting : Reporting) (requests : List Request) : List (Checked Reply) :=
  replies s reporting requests (.fresh reporting)

section Replies

variable (catalog : s.tree.Catalog types) (integer : s.HasIntegerBitFields)
variable (unsupplied : s.supplied = none)
include catalog integer unsupplied

/-- Where every dump fits, the replies are those with all layouts known. -/
theorem replies_eq_eval (fit : s.DumpsFit) {requests : List Request}
    (listed : ∀ request ∈ requests, request.IsListed types) (sound : memory.Sound s types) :
    replies s reporting requests memory =
      requests.map fun request => (request.ask s).eval (s.known s.depth) := by
  induction requests generalizing memory with
  | nil => rfl
  | cons request rest ih =>
    obtain ⟨here, listed⟩ := List.forall_mem_cons.mp listed
    obtain ⟨sound, _, ends⟩ :=
      run_serves_shown catalog integer unsupplied reporting here.ask_asks sound
    have ended := ends.resolve_right fun spoilt => spoilt.1 fit
    exact List.cons_eq_cons.mpr ⟨ended, ih listed sound⟩

omit integer unsupplied in
/-- A session that shows layouts goes on from no layout that it cannot dump. -/
theorem dump_of_run (shown : showsDumps s reporting = true) {r : RecordId}
    {next : RecordLayout → LayoutM α} {value : α}
    (done : outcome (run s reporting (.askRecord r next) (.fresh reporting)) = .ok value) :
    (dump s r false).eval (s.known s.depth) ≠ .error .overflow := by
  have missing : (Memory.fresh reporting).records.find? r = none := rfl
  intro overflow
  cases ran : run s reporting (.askRecord r next) (.fresh reporting) with
  | error fault memory =>
    rw [ran] at done
    cases done
  | ok value memory =>
    obtain ⟨layout, between, asked, _⟩ := SessionM.bind_eq_ok.mp ran
    have truthful := oracle_truthful catalog reporting (s.tree.records.size + s.tree.typeCount)
    obtain ⟨_, _, text⟩ := recallRecord_truthful catalog truthful Memory.fresh_sound missing asked
    have text := text shown
    rw [logDump_eval, overflow] at text
    cases text

end Replies

end Session

open Session (repliesNew replies_eq_eval)

/-- Two sessions that differ in what they warn of, log and show alone reply alike to whatever they are
asked, with values and with faults, if and only if no record that has a layout has a dump with a number
that is too large. -/
theorem replies_alike_iff_dumpsFit (catalog : s.tree.Catalog types) (integer : s.HasIntegerBitFields)
    (unsupplied : s.supplied = none) :
    (∀ shown shown' reporting reporting' requests, (∀ request ∈ requests, request.IsListed types) →
      repliesNew (s.showing shown) reporting requests =
        repliesNew (s.showing shown') reporting' requests) ↔ s.DumpsFit := by
  constructor
  · intro alike r layout laid overflow
    let request : Request := .question (.recordLayout r)
    have listed : ∀ asked ∈ [request], asked.IsListed types := List.forall_mem_singleton.mpr trivial
    have same := alike false true {} { logLevel := some .info } [request] listed
    have hidden : outcome (run (s.showing false) {} (request.ask s) (.fresh {})) =
        .ok (.answer (.recordLayout layout)) := by
      rw [(Session.run_serves (s := s.showing false) catalog rfl {}
        (listed request (by simp)).ask_asks Memory.fresh_sound).2.2, Setting.known_showing]
      change (s.known s.depth).record r >>= _ = _
      rw [laid]
      rfl
    have shown : outcome (run (s.showing true) { logLevel := some .info } (request.ask s)
        (.fresh { logLevel := some .info })) = .ok (.answer (.recordLayout layout)) :=
      (List.cons_eq_cons.mp same).1.symm.trans hidden
    apply Session.dump_of_run (s := s.showing true) catalog rfl shown
    rw [Setting.known_showing]
    exact overflow
  · intro fit shown shown' reporting reporting' requests listed
    have evaluated (shown : Bool) (reporting : Reporting) :
        repliesNew (s.showing shown) reporting requests =
          requests.map fun request => (request.ask s).eval (s.known s.depth) := by
      have fit : (s.showing shown).DumpsFit := by
        intro r layout laid
        have known := s.known_showing shown s.depth
        rw [Setting.known_showing] at laid ⊢
        exact fit r layout laid
      have same : repliesNew (s.showing shown) reporting requests = _ :=
        replies_eq_eval (s := s.showing shown) catalog integer unsupplied fit listed
          Memory.fresh_sound
      rw [Setting.known_showing] at same
      exact same
    rw [evaluated, evaluated]

/-- For Windows: `S` has an array of characters, and `D` has an `S` and a virtual base `V`. -/
def heldChars (count : Nat) : Setting :=
  let member (name : String) (type : Ty) : Field := { name, type }
  Setting.windows .x86_64 [
    .ofFields "S" [member "text" (.array ⟨1⟩ (.scalar ⟨0⟩ .plainChar) count)],
    .ofClass "V" [member "c" (.scalar ⟨0⟩ .plainChar)] [] [],
    .ofClass "D" [member "s" (.record ⟨2⟩ ⟨0⟩)] [{ record := ⟨1⟩, isVirtual := true }] []] []

theorem heldChars_catalog (count : Nat) : (heldChars count).tree.Catalog
    [.scalar ⟨0⟩ .plainChar, .array ⟨1⟩ (.scalar ⟨0⟩ .plainChar) count, .record ⟨2⟩ ⟨0⟩] := by
  refine .of_lists rfl rfl (by simp [Ty.parts]) ?_
  simp [heldChars, Setting.windows, Record.ofClass, Record.ofFields, Record.fields]

theorem heldChars_integer (count : Nat) : (heldChars count).HasIntegerBitFields := by
  apply Tree.forall_record
  · simp [heldChars, Setting.windows, Record.ofClass, Record.ofFields, Record.HasIntegerBitFields,
      Record.fields]
  · simp [Record.HasIntegerBitFields, Record.fields, Record.undeclared]

theorem heldChars_fit : (heldChars 3).DumpsFit := by
  intro r layout laid
  have declared : r.position < 3 := Setting.declared_of_known laid
  have each : ∀ i < 3, (dump (heldChars 3) ⟨i⟩ false).eval ((heldChars 3).known (heldChars 3).depth) ≠
      .error .overflow := by decide +kernel
  exact each r.position declared

/-- With few characters every dump fits, so sessions with and without dumps reply alike. -/
theorem replies_alike_iff_dumpsFit_fewChars :
    (heldChars 3).HasIntegerBitFields ∧ (heldChars 3).supplied = none ∧ (heldChars 3).DumpsFit ∧
      ∀ shown shown' reporting reporting' requests,
        (∀ request ∈ requests, request.IsListed [.scalar ⟨0⟩ .plainChar,
          .array ⟨1⟩ (.scalar ⟨0⟩ .plainChar) 3, .record ⟨2⟩ ⟨0⟩]) →
        repliesNew ((heldChars 3).showing shown) reporting requests =
          repliesNew ((heldChars 3).showing shown') reporting' requests :=
  ⟨heldChars_integer 3, rfl, heldChars_fit,
    (replies_alike_iff_dumpsFit (heldChars_catalog 3) (heldChars_integer 3) rfl).mpr heldChars_fit⟩

/-- An array of as many characters as there are bytes that can be counted in bits leaves `S` with a
layout whose dump has too large a number; shown dumps turn its layout into a fault, once. -/
theorem shown_dump_ends_layout_manyChars :
    let s := heldChars (2 ^ 61)
    let reporting : Reporting := { logLevel := some .info }
    let asked : Request := .question (.recordLayout ⟨0⟩)
    let reply : Checked Reply := .ok (.answer (.recordLayout {
      size := 2 ^ 61, dataSize := 2 ^ 61, alignment := 1, requiredAlignment := 1, fieldOffsets := [0] }))
    s.HasIntegerBitFields ∧ s.supplied = none ∧
      repliesNew (s.showing false) reporting [asked, asked] = [reply, reply] ∧
      repliesNew (s.showing true) reporting [asked, asked] = [.error .overflow, reply] :=
  ⟨heldChars_integer _, rfl, by decide +kernel, by decide +kernel⟩

end ObjectLayout
