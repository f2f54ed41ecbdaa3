import ObjectLayout.LayoutM
import ObjectLayout.Proofs.Sugar.Types

/-! Computations without sugar: they ask for types without sugar where others ask for types as they are
written, and do the same otherwise. Where all layouts are known, taking the sugar off the questions or
off what is known about them comes to the same. -/
namespace ObjectLayout

def Placement.unsugared : Placement → Placement
  | .base occurrence offset => .base occurrence offset
  | .field type offset => .field type.unsugared offset

def Note.unsugared : Note → Note
  | .answered question isFree => .answered question.unsugared isFree
  | note => note

/-- Two descents that are related level by level are related at every depth. -/
theorem descendWithin_related {R : α → β → Prop} {cut : α} {cut' : β} {step : (κ → α) → κ → α}
    {step' : (κ → β) → κ → β} (bottom : R cut cut')
    (level : ∀ below below', (∀ k, R (below k) (below' k)) → ∀ k, R (step below k) (step' below' k))
    (depth : Nat) (k : κ) : R (descendWithin cut step depth k) (descendWithin cut' step' depth k) := by
  induction depth generalizing k with
  | zero => exact bottom
  | succ depth ih => exact level _ _ ih k

theorem Tree.descend_related {R : α → β → Prop} {cut : α} {cut' : β}
    {step : (RecordId → α) → RecordId → α} {step' : (RecordId → β) → RecordId → β} (tree : Tree)
    (bottom : R cut cut')
    (level : ∀ below below', (∀ r, R (below r) (below' r)) → ∀ r, R (step below r) (step' below' r))
    (r : RecordId) : R (tree.descend cut step r) (tree.unsugared.descend cut' step' r) := by
  rw [descend, descend, size_unsugared]
  exact descendWithin_related bottom level _ r

/-- What is known of types, asked for without their sugar. -/
def Known.unsugared (known : Known) : Known where
  record := known.record
  type type := known.type type.unsugared

namespace LayoutM

/-- The computation that asks for types without sugar. -/
def unsugared : LayoutM α → LayoutM α
  | .done value => .done value
  | .stop fault => .stop fault
  | .askRecord r next => .askRecord r fun layout => (next layout).unsugared
  | .askType type next => .askType type.unsugared fun layout => (next layout).unsugared
  | .tell note rest => .tell note.unsugared rest.unsugared

section Building

@[simp] theorem unsugared_pure (value : α) : (pure value : LayoutM α).unsugared = pure value := rfl

@[simp] theorem unsugared_throw (fault : Fault) :
    (throw fault : LayoutM α).unsugared = throw fault := rfl

@[simp] theorem unsugared_layoutOf (r : RecordId) : (layoutOf r).unsugared = layoutOf r := rfl

@[simp] theorem unsugared_typeLayoutOf (type : Ty) :
    (typeLayoutOf type).unsugared = typeLayoutOf type.unsugared := rfl

@[simp] theorem unsugared_warn (warning : Warning) : (warn warning).unsugared = warn warning := rfl

@[simp] theorem unsugared_log (event : Event) : (log event).unsugared = log event := rfl

@[simp] theorem unsugared_answered (question : Placement) (isFree : Bool) :
    (answered question isFree).unsugared = answered question.unsugared isFree := rfl

@[simp] theorem unsugared_lift (x : Checked α) : (liftM x : LayoutM α).unsugared = liftM x := by
  cases x <;> rfl

@[simp] theorem unsugared_ensure (condition : Bool) (cause : Breach) :
    (ensure condition cause : LayoutM Unit).unsugared = ensure condition cause := by
  cases condition <;> rfl

@[simp] theorem unsugared_bind (x : LayoutM α) (next : α → LayoutM β) :
    (x >>= next).unsugared = x.unsugared >>= fun value => (next value).unsugared := by
  change (x.bind next).unsugared = x.unsugared.bind _
  induction x with
  | done value => rfl
  | stop fault => rfl
  | askRecord r more ih => simp only [bind, unsugared, ih]
  | askType type more ih => simp only [bind, unsugared, ih]
  | tell note rest ih => simp only [bind, unsugared, ih]

@[simp] theorem unsugared_map (f : α → β) (x : LayoutM α) :
    (f <$> x).unsugared = f <$> x.unsugared := by
  rw [map_eq_pure_bind, map_eq_pure_bind, unsugared_bind]
  rfl

@[simp] theorem unsugared_ite {c : Prop} [Decidable c] (x y : LayoutM α) :
    (if c then x else y).unsugared = if c then x.unsugared else y.unsugared := by
  split <;> rfl

@[simp] theorem unsugared_elim (choice : Option α) (x : LayoutM β) (next : α → LayoutM β) :
    (choice.elim x next).unsugared = choice.elim x.unsugared fun value => (next value).unsugared := by
  cases choice <;> rfl

@[simp] theorem unsugared_foldlM (step : β → α → LayoutM β) (xs : List α) (start : β) :
    (xs.foldlM step start).unsugared = xs.foldlM (fun state x => (step state x).unsugared) start := by
  induction xs generalizing start with
  | nil => rfl
  | cons x rest ih => simp [ih]

@[simp] theorem unsugared_allM (test : α → LayoutM Bool) (xs : List α) :
    (xs.allM test).unsugared = xs.allM fun x => (test x).unsugared := by
  induction xs with
  | nil => rfl
  | cons x rest ih =>
    simp only [List.allM, unsugared_bind]
    congr 1
    funext fits
    cases fits <;> simp [ih]

theorem allM_map (f : α → β) (test : β → LayoutM Bool) (xs : List α) :
    (xs.map f).allM test = xs.allM fun x => test (f x) := by
  induction xs with
  | nil => rfl
  | cons x rest ih => simp only [List.map_cons, List.allM, ih]

end Building

theorem eval_unsugared (known : Known) (x : LayoutM α) :
    x.unsugared.eval known = x.eval known.unsugared := by
  induction x with
  | done value => rfl
  | stop fault => rfl
  | askRecord r next ih => exact congrArg (known.record r >>= ·) (funext ih)
  | askType type next ih => exact congrArg (known.type type.unsugared >>= ·) (funext ih)
  | tell note rest ih => exact ih

end LayoutM

end ObjectLayout
