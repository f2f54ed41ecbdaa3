import ObjectLayout.LayoutM

/-! How computations end. A computation over known layouts has one outcome, a value or a fault; a
specification says what the value is and which faults are allowed. Where every fault is allowed it
speaks of completed computations only, where only some are it also excludes all the others. -/
namespace ObjectLayout

/-- The outcome is a `good` value or an `allowed` fault. -/
def Ends (allowed : Fault → Prop) (outcome : Checked α) (good : α → Prop) : Prop :=
  match outcome with
  | .ok value => good value
  | .error fault => allowed fault

theorem exists_ok {outcome : Checked α} (ok : outcome.isOk = true) : ∃ value, outcome = .ok value := by
  cases outcome with
  | ok value => exact ⟨value, rfl⟩
  | error fault => cases ok

namespace Ends

variable {allowed allowed' : Fault → Prop} {good good' : α → Prop} {after : β → Prop}

theorem ok {value : α} (h : good value) : Ends allowed (.ok value) good := h

theorem error {fault : Fault} (h : allowed fault) : Ends allowed (.error fault) good := h

theorem value {outcome : Checked α} {value : α} (h : Ends allowed outcome good)
    (same : outcome = .ok value) : good value := by
  subst same
  exact h

/-- Where nothing is said about faults, the value has what is said about values. -/
theorem holds {outcome : Checked α} {value : α} (h : Ends (fun _ => True) outcome good)
    (same : outcome = .ok value) : good value := h.value same

theorem fault {outcome : Checked α} {fault : Fault} (h : Ends allowed outcome good)
    (same : outcome = .error fault) : allowed fault := by
  subst same
  exact h

theorem mono {outcome : Checked α} (h : Ends allowed outcome good)
    (faults : ∀ fault, allowed fault → allowed' fault)
    (values : ∀ value, outcome = .ok value → good value → good' value) :
    Ends allowed' outcome good' := by
  cases outcome with
  | ok value => exact values value rfl h
  | error fault => exact faults fault h

theorem imp {outcome : Checked α} (h : Ends allowed outcome good)
    (values : ∀ value, good value → good' value) : Ends allowed outcome good' :=
  h.mono (fun _ => id) fun value _ => values value

/-- Where every fault is allowed, the value that there is can be assumed. -/
theorem of_all (all : ∀ fault, allowed fault) {outcome : Checked α}
    (values : ∀ value, outcome = .ok value → good value) : Ends allowed outcome good := by
  cases outcome with
  | ok value => exact values value rfl
  | error fault => exact all fault

/-- Nothing is said about faults, and of a value only that it is the value. -/
theorem any {outcome : Checked α} : Ends (fun _ => True) outcome fun value =>
    outcome = .ok value := of_all (fun _ => trivial) fun _ same => same

/-- The value is the one that the computation has. -/
theorem remember {outcome : Checked α} (h : Ends allowed outcome good) :
    Ends allowed outcome fun value => outcome = .ok value ∧ good value :=
  h.mono (fun _ => id) fun _ same holds => ⟨same, holds⟩

/-- What is known of every value adds to how the computation ends. -/
theorem and {outcome : Checked α} (h : Ends allowed outcome good)
    (values : Ends (fun _ => True) outcome good') :
    Ends allowed outcome fun value => good value ∧ good' value :=
  h.mono (fun _ => id) fun _ same holds => ⟨holds, values.holds same⟩

/-- A computation without allowed faults has a value. -/
theorem exists_value {outcome : Checked α} (h : Ends (fun _ => False) outcome good) :
    ∃ value, outcome = .ok value ∧ good value := by
  cases outcome with
  | ok value => exact ⟨value, rfl, h⟩
  | error fault => exact absurd h id

theorem bind {outcome : Checked α} {next : α → Checked β} (first : Ends allowed outcome good)
    (second : ∀ value, good value → Ends allowed (next value) after) :
    Ends allowed (outcome >>= next) after := by
  cases outcome with
  | ok value => exact second value first
  | error fault => exact first

/-- What holds of two steps holds of the second after the first. -/
theorem unbind {outcome : Checked α} {next : α → Checked β}
    (both : Ends allowed (outcome >>= next) after) :
    Ends allowed outcome fun value => Ends allowed (next value) after := by
  cases outcome with
  | ok value => exact both
  | error fault => exact both

/-- Both branches go on in the same way, the first of them perhaps after some more steps. -/
theorem ite_bind {c : Prop} [Decidable c] {x : Checked β} {y : Checked α} {next : α → Checked β}
    {G : α → Prop} (second : ∀ value, G value → Ends allowed (next value) after)
    (yes : c → (∀ value, G value → Ends allowed (next value) after) → Ends allowed x after)
    (no : ¬ c → Ends allowed y G) : Ends allowed (if c then x else y >>= next) after := by
  split
  · exact yes ‹c› second
  · exact bind (no ‹¬ c›) second

theorem foldlM {step : β → α → Checked β} {K : List α → List α → β → Prop} {xs : List α}
    {start : β} (first : K [] xs start)
    (next : ∀ done x rest state, xs = done ++ x :: rest → K done (x :: rest) state →
      Ends allowed (step state x) (K (done ++ [x]) rest)) :
    Ends allowed (xs.foldlM step start) (K xs []) := by
  suffices general : ∀ todo done state, xs = done ++ todo → K done todo state →
      Ends allowed (todo.foldlM step state) (K xs []) from general xs [] start rfl first
  intro todo
  induction todo with
  | nil =>
    intro done state split held
    rw [List.append_nil] at split
    subst split
    exact held
  | cons x rest ih =>
    intro done state split held
    rw [List.foldlM_cons]
    refine bind (next done x rest state split held) fun state' held' => ?_
    exact ih (done ++ [x]) state' (by rw [split, List.append_assoc]; rfl) held'

/-- A fold keeps what each of its steps keeps. -/
theorem foldlM_keeps {step : β → α → Checked β} {kept : β → Prop} {xs : List α} {start : β}
    (first : kept start)
    (next : ∀ x ∈ xs, ∀ state, kept state → Ends allowed (step state x) kept) :
    Ends allowed (xs.foldlM step start) kept :=
  foldlM (K := fun _ _ => kept) first fun done x rest state split held =>
    next x (by simp [split]) state held

/-- A list is gone through as its entries are. -/
theorem mapM {f : α → Checked β} (each : ∀ a, Ends allowed (f a) fun _ => True) (xs : List α) :
    Ends allowed (xs.mapM f) fun _ => True := by
  induction xs with
  | nil => trivial
  | cons a rest ih =>
    rw [List.mapM_cons]
    exact bind (each a) fun _ _ => bind ih fun _ _ => trivial

end Ends

/-- The outcome is a value, or a number that is too large. -/
abbrev OnlyOverflows (outcome : Checked α) : Prop := Ends (· = .overflow) outcome fun _ => True

namespace OnlyOverflows

theorem fit (n : Nat) : OnlyOverflows (Quantity.fit n) := by
  unfold Quantity.fit
  split <;> simp [OnlyOverflows, Ends]

theorem of_ok {x : Checked α} (valued : ∃ value, x = .ok value) : OnlyOverflows x := by
  obtain ⟨_, rfl⟩ := valued
  trivial

end OnlyOverflows

theorem except_bind_eq_ok {x : Checked α} {f : α → Checked β} {result : β} :
    x >>= f = .ok result ↔ ∃ value, x = .ok value ∧ f value = .ok result := by
  cases x with
  | ok value => exact ⟨fun h => ⟨value, rfl, h⟩, fun ⟨_, same, h⟩ => by cases same; exact h⟩
  | error fault => exact ⟨nofun, fun ⟨_, same, _⟩ => nomatch same⟩

/-- Every step of a completed fold was completed, at whatever state it started. -/
theorem foldlM_each {step : β → α → Checked β} {xs : List α} {start result : β}
    (h : xs.foldlM step start = .ok result) :
    ∀ x ∈ xs, ∃ before after, step before x = .ok after := by
  induction xs generalizing start with
  | nil => exact fun _ member => nomatch member
  | cons x rest ih =>
    rw [List.foldlM_cons] at h
    obtain ⟨middle, first, h⟩ := except_bind_eq_ok.mp h
    intro x' member
    rcases List.mem_cons.mp member with rfl | member
    · exact ⟨start, middle, first⟩
    · exact ih h x' member

namespace LayoutM

variable {known : Known} {allowed : Fault → Prop}

theorem ends_bind {x : LayoutM α} {next : α → LayoutM β} {G : α → Prop} {after : β → Prop}
    (first : Ends allowed (x.eval known) G)
    (second : ∀ value, G value → Ends allowed ((next value).eval known) after) :
    Ends allowed ((x >>= next).eval known) after := by
  rw [eval_bind]
  exact first.bind second

/-- A checked operation as a step of a computation. -/
theorem ends_lift_bind {x : Checked α} {next : α → LayoutM β} {G : α → Prop} {after : β → Prop}
    (first : Ends allowed x G)
    (second : ∀ value, G value → Ends allowed ((next value).eval known) after) :
    Ends allowed (((liftM x : LayoutM α) >>= next).eval known) after :=
  ends_bind (by rwa [eval_lift]) second

/-- Both branches go on in the same way, the first of them perhaps after some more steps. -/
theorem ends_ite_bind {c : Prop} [Decidable c] {x : LayoutM β} {y : LayoutM α}
    {next : α → LayoutM β} {G : α → Prop} {after : β → Prop}
    (second : ∀ value, G value → Ends allowed ((next value).eval known) after)
    (yes : c → (∀ value, G value → Ends allowed ((next value).eval known) after) →
      Ends allowed (x.eval known) after)
    (no : ¬ c → Ends allowed (y.eval known) G) :
    Ends allowed ((if c then x else y >>= next).eval known) after := by
  split
  · exact yes ‹c› second
  · exact ends_bind (no ‹¬ c›) second

theorem eval_lift_bind {x : Checked α} {next : α → LayoutM β} {value : α} (h : x = .ok value) :
    ((liftM x : LayoutM α) >>= next).eval known = (next value).eval known := by
  rw [eval_bind, eval_lift, h]
  rfl

theorem eval_layoutOf_bind {r : RecordId} {next : RecordLayout → LayoutM β}
    {layout : RecordLayout} (h : known.record r = .ok layout) :
    (layoutOf r >>= next).eval known = (next layout).eval known := by
  rw [eval_bind, eval_layoutOf, h]
  rfl

theorem eval_map (f : α → β) (x : LayoutM α) :
    (f <$> x).eval known = f <$> x.eval known := by
  rw [← bind_pure_comp, eval_bind]
  cases x.eval known <;> rfl

theorem eval_foldlM (step : β → α → LayoutM β) (xs : List α) (start : β) :
    (xs.foldlM step start).eval known = xs.foldlM (fun state x => (step state x).eval known) start := by
  induction xs generalizing start with
  | nil => rfl
  | cons x rest ih =>
    rw [List.foldlM_cons, List.foldlM_cons, eval_bind]
    exact congrArg _ (funext fun state => ih state)

theorem eval_allM (test : α → LayoutM Bool) (xs : List α) :
    (xs.allM test).eval known = xs.allM fun x => (test x).eval known := by
  induction xs with
  | nil => rfl
  | cons x rest ih =>
    rw [List.allM, List.allM, eval_bind]
    refine congrArg _ (funext fun fits => ?_)
    cases fits with
    | true => exact ih
    | false => rfl

@[simp] theorem eval_ensure (condition : Bool) (cause : Breach) :
    (ensure condition cause : LayoutM Unit).eval known = ensure condition cause := by
  cases condition <;> rfl

@[simp] theorem eval_tell (note : Note) (rest : LayoutM α) :
    (tell note rest).eval known = rest.eval known := rfl

@[simp] theorem eval_warn (warning : Warning) : (warn warning).eval known = .ok () := rfl

@[simp] theorem eval_log (event : Event) : (log event).eval known = .ok () := rfl

end LayoutM

theorem ensure_eq_ok {condition : Bool} {cause : Breach} {value : Unit} :
    (ensure condition cause : Checked Unit) = .ok value ↔ condition = true := by
  cases condition with
  | true => exact ⟨fun _ => rfl, fun _ => rfl⟩
  | false => exact ⟨nofun, nofun⟩

theorem ends_ensure {allowed : Fault → Prop} {condition : Bool} {cause : Breach} {G : Unit → Prop}
    (holds : condition = true → G ()) (fails : condition = false → allowed (.breach cause)) :
    Ends allowed (ensure condition cause : Checked Unit) G := by
  cases condition with
  | true => exact holds rfl
  | false => exact fails rfl

end ObjectLayout
