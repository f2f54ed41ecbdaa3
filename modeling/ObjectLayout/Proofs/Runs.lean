import ObjectLayout.Proofs.Confined
import ObjectLayout.Proofs.Outcome

/-! Runs side by side. What a computation is answered about empty subobjects on its way can be compared
with what another is answered. One computation mirrors another if, wherever the other completes, it
gets the same answers in the same order and ends with a value that is related to the other's; if the
comparison is lax it may stop instead. -/
namespace ObjectLayout

/-- What was asked about empty subobjects, and whether nothing stood in the way. -/
def Note.answer? : Note → Option (Placement × Bool)
  | .answered question isFree => some (question, isFree)
  | .warning _ | .event _ => none

namespace LayoutM

variable {known : Known} {lax : Prop}

/-- The questions about empty subobjects that a computation asks, with their answers. -/
def answers (known : Known) (x : LayoutM α) : List (Placement × Bool) :=
  (x.told known).filterMap Note.answer?

/-- What is told after a completed first part comes after what the first part tells. -/
theorem told_bind {x : LayoutM α} {next : α → LayoutM β} {value : α}
    (done : x.eval known = .ok value) :
    (x >>= next).told known = x.told known ++ (next value).told known := by
  change (x.bind next).told known = _
  induction x with
  | done other =>
    cases done
    rfl
  | stop fault => cases done
  | askRecord record more ih =>
    change (known.record record >>= fun layout => (more layout).eval known) = _ at done
    obtain ⟨layout, found, done⟩ := except_bind_eq_ok.mp done
    simp only [bind, told, found]
    exact ih layout done
  | askType type more ih =>
    change (known.type type >>= fun layout => (more layout).eval known) = _ at done
    obtain ⟨layout, found, done⟩ := except_bind_eq_ok.mp done
    simp only [bind, told, found]
    exact ih layout done
  | tell note rest ih =>
    simp only [bind, told, List.cons_append]
    rw [ih done]

theorem told_lift_bind {x : Checked α} {next : α → LayoutM β} {value : α} (done : x = .ok value) :
    ((liftM x : LayoutM α) >>= next).told known = (next value).told known := by
  subst done
  rfl

theorem answers_bind {x : LayoutM α} {next : α → LayoutM β} {value : α}
    (done : x.eval known = .ok value) :
    (x >>= next).answers known = x.answers known ++ (next value).answers known := by
  rw [answers, told_bind done, List.filterMap_append]
  rfl

@[simp] theorem answers_pure (value : α) : (pure value : LayoutM α).answers known = [] := rfl

@[simp] theorem answers_lift (x : Checked α) : (liftM x : LayoutM α).answers known = [] := by
  cases x <;> rfl

/-- `y` follows a run of `x` that ends with `a`: it ends with a related value after the same answers,
or, if the comparison is lax, with a fault. -/
def Follows (known : Known) (lax : Prop) (R : α → β → Prop) (x : LayoutM α) (a : α)
    (y : LayoutM β) : Prop :=
  Ends (fun _ => lax) (y.eval known) fun b => R a b ∧ y.answers known = x.answers known

/-- `y` follows every completed run of `x`. -/
def Mirrors (known : Known) (lax : Prop) (R : α → β → Prop) (x : LayoutM α) (y : LayoutM β) :
    Prop := ∀ a, x.eval known = .ok a → Follows known lax R x a y

section Rules

variable {R : α → β → Prop} {S : γ → δ → Prop} {x : LayoutM α} {y : LayoutM β}
variable {next : α → LayoutM γ} {next' : β → LayoutM δ}

theorem Follows.imp {a : α} {R' : α → β → Prop} (h : Follows known lax R x a y)
    (values : ∀ b, y.eval known = .ok b → R a b → R' a b) : Follows known lax R' x a y :=
  Ends.mono h (fun _ => id) fun b done both => ⟨values b done both.1, both.2⟩

/-- What follows a run in two parts follows each of them. -/
theorem Follows.bind {a : α} {c : γ} (done : x.eval known = .ok a)
    (first : Follows known lax R x a y)
    (second : ∀ b, y.eval known = .ok b → R a b → Follows known lax S (next a) c (next' b)) :
    Follows known lax S (x >>= next) c (y >>= next') := by
  unfold Follows
  rw [eval_bind]
  refine Ends.bind (Ends.remember first) fun b ⟨done', related, same⟩ => ?_
  refine Ends.imp (second b done' related) fun d ⟨related', same'⟩ => ⟨related', ?_⟩
  rw [answers_bind done, answers_bind done', same, same']

namespace Mirrors

theorem pure {a : α} {b : β} (related : R a b) :
    Mirrors known lax R (Pure.pure a) (Pure.pure b) := by
  rintro _ ⟨⟩
  exact ⟨related, rfl⟩

theorem refl (x : LayoutM α) : Mirrors known lax Eq x x := fun a done => by
  rw [Follows, done]
  exact ⟨rfl, rfl⟩

theorem imp {R' : α → β → Prop} (h : Mirrors known lax R x y)
    (values : ∀ a b, x.eval known = .ok a → y.eval known = .ok b → R a b → R' a b) :
    Mirrors known lax R' x y :=
  fun a done => (h a done).imp fun b => values a b done

/-- The first part may be compared in the light of a run of the rest. -/
theorem bind_reaching
    (first : ∀ a c, x.eval known = .ok a → (next a).eval known = .ok c → Follows known lax R x a y)
    (second : ∀ a b, x.eval known = .ok a → y.eval known = .ok b → R a b →
      Mirrors known lax S (next a) (next' b)) :
    Mirrors known lax S (x >>= next) (y >>= next') := by
  intro c done
  obtain ⟨a, done, rest⟩ := eval_bind_eq_ok.mp done
  exact (first a c done rest).bind done fun b done' related => second a b done done' related c rest

theorem bind (first : Mirrors known lax R x y)
    (second : ∀ a b, x.eval known = .ok a → y.eval known = .ok b → R a b →
      Mirrors known lax S (next a) (next' b)) :
    Mirrors known lax S (x >>= next) (y >>= next') :=
  bind_reaching (fun a _ done _ => first a done) second

/-- Both computations begin with the same part. -/
theorem bind_same {next' : α → LayoutM δ}
    (second : ∀ a, x.eval known = .ok a → Mirrors known lax S (next a) (next' a)) :
    Mirrors known lax S (x >>= next) (x >>= next') :=
  (refl x).bind fun a _ done _ same => same ▸ second a done

theorem ite {c : Prop} [Decidable c] {x' : LayoutM α} {y' : LayoutM β}
    (yes : c → Mirrors known lax R x y) (no : ¬ c → Mirrors known lax R x' y') :
    Mirrors known lax R (if c then x else x') (if c then y else y') := by
  split
  · exact yes ‹c›
  · exact no ‹¬ c›

/-- Checked operations ask no questions. -/
theorem lift {x : Checked α} {y : Checked β} (h : ∀ a, x = .ok a → Ends (fun _ => lax) y (R a)) :
    Mirrors known lax R (liftM x) (liftM y) := by
  intro a done
  rw [eval_lift] at done
  rw [Follows, eval_lift, answers_lift, answers_lift]
  exact (h a done).imp fun b related => ⟨related, rfl⟩

/-- Two folds over the same list mirror one another if their steps do. -/
theorem foldlM {K : α → β → Prop} {xs : List ε} {step : α → ε → LayoutM α}
    {step' : β → ε → LayoutM β} {a : α} {b : β} (first : K a b)
    (each : ∀ e ∈ xs, ∀ a b, K a b → Mirrors known lax K (step a e) (step' b e)) :
    Mirrors known lax K (xs.foldlM step a) (xs.foldlM step' b) := by
  induction xs generalizing a b with
  | nil => exact pure first
  | cons e rest ih =>
    rw [List.foldlM_cons, List.foldlM_cons]
    refine (each e List.mem_cons_self a b first).bind fun a' b' _ _ related => ?_
    exact ih related fun e' member => each e' (List.mem_cons_of_mem e member)

end Mirrors

end Rules

/-- A computation that tells nothing is answered nothing about empty subobjects. -/
theorem answers_eq_nil {x : LayoutM α} (h : x.Silent) (known : Known) : x.answers known = [] := by
  rw [answers, told_eq_nil h, List.filterMap_nil]

end LayoutM

end ObjectLayout
