import ObjectLayout.Note
import ObjectLayout.RecordLayout
import ObjectLayout.TypeLayout

/-! Layout computations. A computation asks for the layouts of other records and types instead of
calling for them, so one description serves every way of answering: from a memory that grows, or
from layouts that are simply known. -/
namespace ObjectLayout

inductive LayoutM (α : Type) where
  | done (value : α)
  | stop (fault : Fault)
  | askRecord (record : RecordId) (next : RecordLayout → LayoutM α)
  | askType (type : Ty) (next : TypeLayout → LayoutM α)
  | tell (note : Note) (rest : LayoutM α)

namespace LayoutM

def bind : LayoutM α → (α → LayoutM β) → LayoutM β
  | .done value, f => f value
  | .stop fault, _ => .stop fault
  | .askRecord record next, f => .askRecord record fun layout => (next layout).bind f
  | .askType type next, f => .askType type fun layout => (next layout).bind f
  | .tell note rest, f => .tell note (rest.bind f)

instance : Monad LayoutM where
  pure := .done
  bind := bind

instance : MonadExceptOf Fault LayoutM where
  throw := .stop
  tryCatch := attempt
where
  attempt {α : Type} : LayoutM α → (Fault → LayoutM α) → LayoutM α
    | .done value, _ => .done value
    | .stop fault, handle => handle fault
    | .askRecord record next, handle => .askRecord record fun layout => attempt (next layout) handle
    | .askType type next, handle => .askType type fun layout => attempt (next layout) handle
    | .tell note rest, handle => .tell note (attempt rest handle)

instance : MonadLift Checked LayoutM where
  monadLift
    | .ok value => .done value
    | .error fault => .stop fault

def layoutOf (r : RecordId) : LayoutM RecordLayout := .askRecord r .done

def typeLayoutOf (type : Ty) : LayoutM TypeLayout := .askType type .done

def warn (warning : Warning) : LayoutM Unit := .tell (.warning warning) (.done ())

def log (event : Event) : LayoutM Unit := .tell (.event event) (.done ())

def answered (question : Placement) (isFree : Bool) : LayoutM Unit :=
  .tell (.answered question isFree) (.done ())

/-- The computation went deeper than any tree without cycles allows. -/
def endless : LayoutM α := .stop .endless

@[simp] theorem pure_bind (value : α) (f : α → LayoutM β) : (pure value >>= f) = f value := rfl

theorem bind_done (x : LayoutM α) : x.bind .done = x := by
  induction x with
  | done value => rfl
  | stop fault => rfl
  | askRecord record next ih => simp only [bind, ih]
  | askType type next ih => simp only [bind, ih]
  | tell note rest ih => simp only [bind, ih]

theorem bind_assoc (x : LayoutM α) (f : α → LayoutM β) (g : β → LayoutM γ) :
    (x.bind f).bind g = x.bind fun value => (f value).bind g := by
  induction x with
  | done value => rfl
  | stop fault => rfl
  | askRecord record next ih => simp only [bind, ih]
  | askType type next ih => simp only [bind, ih]
  | tell note rest ih => simp only [bind, ih]

instance : LawfulMonad LayoutM :=
  LawfulMonad.mk' LayoutM bind_done (fun _ _ => rfl) bind_assoc

end LayoutM

/-- A way of answering what a layout computation asks, and of taking what it tells. -/
structure Oracle (m : Type → Type) where
  record : RecordId → m RecordLayout
  type : Ty → m TypeLayout
  note : Note → m Unit

namespace LayoutM

variable {m : Type → Type} [Monad m] [MonadExceptOf Fault m]

/-- Runs a computation with the answers of an oracle. -/
def answer (oracle : Oracle m) : LayoutM α → m α
  | .done value => pure value
  | .stop fault => throw fault
  | .askRecord record next => do answer oracle (next (← oracle.record record))
  | .askType type next => do answer oracle (next (← oracle.type type))
  | .tell note rest => do oracle.note note; answer oracle rest

end LayoutM

/-- Layouts that are known from the start, or known not to exist. -/
structure Known where
  record : RecordId → Checked RecordLayout
  type : Ty → Checked TypeLayout

namespace Known

/-- Answers from known layouts and lets notes pass unheard. -/
def oracle (known : Known) : Oracle Checked := ⟨known.record, known.type, fun _ => .ok ()⟩

end Known

namespace LayoutM

/-- The outcome of a computation where all layouts are known. -/
def eval (known : Known) (x : LayoutM α) : Checked α := x.answer known.oracle

/-- What a computation tells where all layouts are known, up to where it stops. -/
def told (known : Known) : LayoutM α → List Note
  | .done _ | .stop _ => []
  | .askRecord record next =>
    match known.record record with
    | .ok layout => (next layout).told known
    | .error _ => []
  | .askType type next =>
    match known.type type with
    | .ok layout => (next layout).told known
    | .error _ => []
  | .tell note rest => note :: rest.told known

variable {known : Known}

@[simp] theorem eval_pure (value : α) : (pure value : LayoutM α).eval known = .ok value := rfl

@[simp] theorem eval_throw (fault : Fault) :
    (throw fault : LayoutM α).eval known = .error fault := rfl

@[simp] theorem eval_layoutOf (r : RecordId) : (layoutOf r).eval known = known.record r := by
  change (known.record r >>= fun layout => .ok layout) = known.record r
  cases known.record r <;> rfl

@[simp] theorem eval_typeLayoutOf (type : Ty) :
    (typeLayoutOf type).eval known = known.type type := by
  change (known.type type >>= fun layout => .ok layout) = known.type type
  cases known.type type <;> rfl

@[simp] theorem eval_lift (x : Checked α) : (liftM x : LayoutM α).eval known = x := by
  cases x <;> rfl

theorem eval_bind (x : LayoutM α) (f : α → LayoutM β) :
    (x >>= f).eval known = x.eval known >>= fun value => (f value).eval known := by
  change (x.bind f).eval known = _
  induction x with
  | done value => rfl
  | stop fault => rfl
  | askRecord record next ih =>
    change (known.record record >>= fun layout => ((next layout).bind f).eval known)
      = (known.record record >>= fun layout => (next layout).eval known) >>= _
    cases known.record record with
    | ok layout => exact ih layout
    | error fault => rfl
  | askType type next ih =>
    change (known.type type >>= fun layout => ((next layout).bind f).eval known)
      = (known.type type >>= fun layout => (next layout).eval known) >>= _
    cases known.type type with
    | ok layout => exact ih layout
    | error fault => rfl
  | tell note rest ih => exact ih

/-- An outcome comes from an outcome of the first part and one of the second part with it. -/
theorem eval_bind_eq_ok {x : LayoutM α} {f : α → LayoutM β} {result : β} :
    (x >>= f).eval known = .ok result ↔
      ∃ value, x.eval known = .ok value ∧ (f value).eval known = .ok result := by
  rw [eval_bind]
  cases x.eval known with
  | ok value => exact ⟨fun h => ⟨value, rfl, h⟩, fun ⟨_, same, h⟩ => by cases same; exact h⟩
  | error fault => exact ⟨nofun, fun ⟨_, same, _⟩ => nomatch same⟩

end LayoutM

end ObjectLayout
