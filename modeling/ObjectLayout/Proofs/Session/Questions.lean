import ObjectLayout.Proofs.Itanium.Soundness
import ObjectLayout.Proofs.Session.Needs
import ObjectLayout.Proofs.Session.Warnings

/-! Questions to a session, one after the other. Each is answered as it would be by a session that has
been asked nothing else, whether that is with a value or with a fault. If none ends with a fault, the
warnings that the session has kept are those about the records that it has laid out, and they do not
depend on the order of the questions. -/
namespace ObjectLayout

open Session (outcome left run Warns Completes)

variable {s : Setting} {types : List Ty} {reporting : Reporting} {memory : Memory}

/-- What a session can be asked. -/
inductive Question where
  | recordLayout (r : RecordId)
  | typeLayout (type : Ty)
  | fieldOffset (field : FieldRef)
  | indirectFieldOffset (chain : List FieldRef)
  | isNearlyEmpty (r : RecordId)
  | dump (r : RecordId) (simple : Bool)

inductive Answer where
  | recordLayout (layout : RecordLayout)
  | typeLayout (layout : TypeLayout)
  | offset (offset : Bits)
  | flag (holds : Bool)
  | text (lines : String)
  deriving DecidableEq

namespace Question

def ask (s : Setting) : Question → LayoutM Answer
  | .recordLayout r => do return .recordLayout (← LayoutM.layoutOf r)
  | .typeLayout asked => do return .typeLayout (← LayoutM.typeLayoutOf asked)
  | .fieldOffset field => do return .offset (← Query.fieldOffset field)
  | .indirectFieldOffset chain => do return .offset (← Query.indirectFieldOffset chain)
  | .isNearlyEmpty r => do return .flag (← Itanium.isNearlyEmpty s r)
  | .dump r simple => do return .text (← ObjectLayout.dump s r simple)

/-- A question about a type is about one of the catalog. -/
def IsListed (types : List Ty) : Question → Prop
  | .typeLayout asked => asked ∈ types
  | _ => True

/-- A question asks for nothing outside the catalog, and tells nothing. -/
theorem IsListed.ask_confined {question : Question} (listed : question.IsListed types) :
    (question.ask s).Confined (· ∈ types) fun _ => False := by
  cases question with
  | recordLayout r => exact (LayoutM.Confined.layoutOf r).bind fun _ => .pure _
  | typeLayout asked => exact (LayoutM.Confined.typeLayoutOf listed).bind fun _ => .pure _
  | fieldOffset field => exact (Query.fieldOffset_silent field).of_silent.bind fun _ => .pure _
  | indirectFieldOffset chain =>
    exact (Query.indirectFieldOffset_silent chain).of_silent.bind fun _ => .pure _
  | isNearlyEmpty r => exact (Itanium.isNearlyEmpty_silent r).of_silent.bind fun _ => .pure _
  | dump r simple => exact (dump_silent r simple).of_silent.bind fun _ => .pure _

end Question

/-- Asks some questions in order and goes on after those that end with a fault. -/
def Session.askAll (s : Setting) (reporting : Reporting) :
    List Question → Memory → List (Checked Answer) × Memory
  | [], memory => ([], memory)
  | question :: rest, memory =>
    let result := run s reporting (question.ask s) memory
    let (answers, memory) := askAll s reporting rest (left result)
    (outcome result :: answers, memory)

/-- Asks a new session. -/
def Session.askNew (s : Setting) (reporting : Reporting) (questions : List Question) :
    List (Checked Answer) × Memory := askAll s reporting questions (.fresh reporting)

namespace Session

section Sequences

variable (catalog : s.tree.Catalog types) (quiet : s.options.dumpLayouts = false)
include catalog quiet

/-- Whatever sound memory there is, the answers are those with all layouts known. -/
theorem askAll_eq_eval {questions : List Question} (listed : ∀ question ∈ questions, question.IsListed types)
    (sound : memory.Sound s types) : (askAll s reporting questions memory).1 =
      questions.map fun question => (question.ask s).eval (s.known s.depth) := by
  induction questions generalizing memory with
  | nil => rfl
  | cons question rest ih =>
    obtain ⟨here, listed⟩ := List.forall_mem_cons.mp listed
    obtain ⟨sound, _, ended⟩ := run_serves catalog quiet reporting here.ask_confined sound
    exact List.cons_eq_cons.mpr ⟨ended, ih listed sound⟩

/-- What questions have in memory after all of them have been answered with values, and the warnings
that have been kept on the way. -/
theorem askAll_completes {flags : WarningFlags} {questions : List Question}
    (listed : ∀ question ∈ questions, question.IsListed types) (sound : memory.Sound s types)
    (closed : memory.Closed s types) (same : memory.diagnostics.flags = flags)
    (valued : ∀ answer ∈ (askAll s reporting questions memory).1, answer.isOk = true) :
    (∀ subject : Subject, subject.IsListed types →
      (subject.isStored (askAll s reporting questions memory).2 = true ↔
        subject.isStored memory = true ∨ ∃ question ∈ questions,
          Needed s ((question.ask s).asked (s.known s.depth)) subject)) ∧
      ∃ warnings, Warns s flags (fun _ => []) memory (askAll s reporting questions memory).2 warnings := by
  induction questions generalizing memory with
  | nil => exact ⟨fun _ _ => by simp [askAll], [], .refl memory⟩
  | cons question rest ih =>
    obtain ⟨here, listed⟩ := List.forall_mem_cons.mp listed
    obtain ⟨value, valued⟩ := List.forall_mem_cons.mp valued
    have asks := here.ask_confined (s := s)
    have sound' := (run_serves catalog quiet reporting asks sound).1
    cases ran : run s reporting (question.ask s) memory with
    | error fault later =>
      rw [ran] at value
      cases value
    | ok value later =>
      have completes := run_completes catalog quiet asks sound ran
      have silent : (question.ask s).warnings s flags = [] := by
        rw [LayoutM.warnings, LayoutM.told_eq_nil asks]
        rfl
      obtain ⟨first, before⟩ := completes.warns_silent same silent
      rw [ran] at sound' valued
      obtain ⟨stored, second, after⟩ := @ih later listed sound' (completes.closed catalog closed)
        (before.sameFlags.trans same) valued
      have rest : (askAll s reporting (question :: rest) memory).2 =
          (askAll s reporting rest later).2 := by
        rw [askAll, ran]
        rfl
      rw [rest]
      refine ⟨fun subject there => ?_, _, before.append after fun _ => .inl rfl⟩
      rw [stored subject there, completes.stored_iff catalog asks closed there, or_assoc]
      simp only [List.mem_cons, exists_eq_or_imp]

/-- What is stored, and the warnings that are kept, after a new session has answered some questions
with values. -/
theorem askNew_completes {questions : List Question}
    (listed : ∀ question ∈ questions, question.IsListed types)
    (valued : ∀ answer ∈ (askNew s reporting questions).1, answer.isOk = true) :
    (∀ r, (askNew s reporting questions).2.records.contains r = true ↔
      ∃ question ∈ questions, Needed s ((question.ask s).asked (s.known s.depth)) (.record r)) ∧
    ∃ warnings : List (RecordId × Warning),
      (askNew s reporting questions).2.warnings = warnings.map (·.2) ∧
      ∀ r, warningsAbout r warnings =
        if (askNew s reporting questions).2.records.contains r then
          RecordLayout.warnings s reporting.flags r
        else [] := by
  obtain ⟨stored, warnings, warned⟩ := askAll_completes catalog quiet listed
    Memory.fresh_sound Memory.fresh_closed (show _ = reporting.flags from rfl) valued
  refine ⟨fun r => ?_, warnings, warned.collected, fun r => ?_⟩
  · refine (stored (.record r) trivial).trans (or_iff_right ?_)
    exact nofun
  · rw [warned.about, List.nil_append, newWarnings]
    refine if_congr ?_ rfl rfl
    exact Bool.and_true _ ▸ Iff.rfl

end Sequences

end Session

open Session (askNew run_serves askAll_eq_eval askNew_completes)

/-- Asked some questions in order, a new session answers each as a session would that is asked nothing
else. If all answers are values, the warnings that it has kept are those about the records that it has
stored, all of them once and in the order of each record, and the order of the questions makes no
difference to which they are. -/
theorem answers_as_without_memory (catalog : s.tree.Catalog types)
    (quiet : s.options.dumpLayouts = false) {questions : List Question}
    (listed : ∀ question ∈ questions, question.IsListed types) :
    (askNew s reporting questions).1 = questions.map (fun question =>
        outcome (run s reporting (question.ask s) (.fresh reporting))) ∧
      ((∀ answer ∈ (askNew s reporting questions).1, answer.isOk = true) →
        (∃ warnings : List (RecordId × Warning),
          (askNew s reporting questions).2.warnings = warnings.map (·.2) ∧
          ∀ r, warningsAbout r warnings =
            if (askNew s reporting questions).2.records.contains r then
              RecordLayout.warnings s reporting.flags r
            else []) ∧
        ∀ questions', questions'.Perm questions →
          (askNew s reporting questions').2.warnings.Perm (askNew s reporting questions).2.warnings) := by
  have alone {question : Question} (there : question.IsListed types) :
      outcome (run s reporting (question.ask s) (.fresh reporting)) =
        (question.ask s).eval (s.known s.depth) :=
    (run_serves catalog quiet reporting there.ask_confined Memory.fresh_sound).2.2
  have answers {questions : List Question}
      (listed : ∀ question ∈ questions, question.IsListed types) :
      (askNew s reporting questions).1 =
        questions.map fun question => (question.ask s).eval (s.known s.depth) :=
    askAll_eq_eval catalog quiet listed Memory.fresh_sound
  refine ⟨?_, fun valued => ?_⟩
  · rw [answers listed]
    exact List.map_congr_left fun question member => (alone (listed question member)).symm
  · obtain ⟨stored, warnings, collected, about⟩ := askNew_completes catalog quiet listed valued
    refine ⟨⟨warnings, collected, about⟩, fun questions' perm => ?_⟩
    have listed' : ∀ question ∈ questions', question.IsListed types :=
      fun question member => listed question (perm.mem_iff.mp member)
    have valued' : ∀ answer ∈ (askNew s reporting questions').1, answer.isOk = true := by
      rw [answers listed']
      rw [answers listed] at valued
      exact fun answer member => valued answer ((perm.map _).mem_iff.mp member)
    obtain ⟨stored', warnings', collected', about'⟩ := askNew_completes catalog quiet listed' valued'
    rw [collected, collected']
    refine (perm_of_warningsAbout fun r => ?_).map _
    rw [about, about']
    refine if_congr ?_ rfl rfl
    rw [stored, stored']
    simp only [perm.mem_iff]

/-- `Q` is padded before and after it has the `P` in it laid out, and `R` has the base `P`. -/
def paddedRecords : Setting :=
  let char : Ty := .scalar ⟨0⟩ .plainChar
  let int : Ty := .scalar ⟨1⟩ (.integer .int .signed)
  let member (name : String) (type : Ty) : Field := { name, type }
  Setting.linux [
    .ofClass "P" [member "c" char, member "i" int] [] [],
    { name := "Q", kind := .struct, typeId := ⟨0⟩, definition := some {
        fields := [member "c" char, member "i" int, member "p" (.record ⟨2⟩ ⟨0⟩), member "d" char] } },
    .ofClass "R" [member "r" char] [{ record := ⟨0⟩ }] []] []

theorem paddedRecords_catalog : paddedRecords.tree.Catalog
    [.scalar ⟨0⟩ .plainChar, .scalar ⟨1⟩ (.integer .int .signed), .record ⟨2⟩ ⟨0⟩] := by
  refine .of_lists rfl rfl (by simp [Ty.parts]) ?_
  simp [paddedRecords, Setting.linux, Record.ofClass, Record.fields]

def paddedQuestions : List Question :=
  [.fieldOffset ⟨⟨1⟩, 2⟩, .typeLayout (.record ⟨2⟩ ⟨0⟩),
    .indirectFieldOffset [⟨⟨1⟩, 2⟩, ⟨⟨0⟩, 1⟩], .isNearlyEmpty ⟨2⟩, .recordLayout ⟨2⟩, .dump ⟨2⟩ false]

/-- Padding is reported. -/
def remarking : Reporting := { flags := { padded := true } }

/-- Asked for `Q` first, a session warns about `P` in between; asked for `R` first, it warns about `P`
before all else. -/
theorem answers_as_without_memory_padded :
    (askNew paddedRecords remarking paddedQuestions).1 =
        paddedQuestions.map (fun question =>
          outcome (run paddedRecords remarking (question.ask paddedRecords) (.fresh remarking))) ∧
      (∀ answer ∈ (askNew paddedRecords remarking paddedQuestions).1, answer.isOk = true) ∧
      (∃ warnings : List (RecordId × Warning),
        (askNew paddedRecords remarking paddedQuestions).2.warnings = warnings.map (·.2) ∧
        warningsAbout ⟨1⟩ warnings = RecordLayout.warnings paddedRecords remarking.flags ⟨1⟩) ∧
      (RecordLayout.warnings paddedRecords remarking.flags ⟨1⟩).length = 2 ∧
      (askNew paddedRecords remarking paddedQuestions).2.warnings.map (·.record) =
        ["struct Q", "struct P", "struct Q", "struct R"] ∧
      (askNew paddedRecords remarking paddedQuestions.reverse).2.warnings.map (·.record) =
        ["struct P", "struct R", "struct Q", "struct Q"] ∧
      (askNew paddedRecords remarking paddedQuestions.reverse).2.warnings.Perm
        (askNew paddedRecords remarking paddedQuestions).2.warnings := by
  have valued : ∀ answer ∈ (askNew paddedRecords remarking paddedQuestions).1, answer.isOk = true :=
    List.all_eq_true.mp (by decide +kernel)
  have listed : ∀ question ∈ paddedQuestions, question.IsListed
      [.scalar ⟨0⟩ .plainChar, .scalar ⟨1⟩ (.integer .int .signed), .record ⟨2⟩ ⟨0⟩] := by
    simp [paddedQuestions, Question.IsListed]
  have stored : (askNew paddedRecords remarking paddedQuestions).2.records.contains ⟨1⟩ = true := by
    decide +kernel
  obtain ⟨alone, kept⟩ := @answers_as_without_memory paddedRecords _ remarking paddedRecords_catalog rfl
    paddedQuestions listed
  obtain ⟨⟨warnings, collected, about⟩, perm⟩ := kept valued
  have second := about ⟨1⟩
  rw [if_pos stored] at second
  exact ⟨alone, valued, ⟨warnings, collected, second⟩, by decide +kernel, by decide +kernel,
    by decide +kernel, perm _ (List.reverse_perm _)⟩

end ObjectLayout
