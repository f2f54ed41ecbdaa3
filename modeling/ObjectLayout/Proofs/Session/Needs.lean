import ObjectLayout.Proofs.Session.Completed

/-! What a computation needs: the records and types whose layouts it asks for, those that their layouts
are made from, and so on. A session that has completed some computations has stored what they need and
nothing else, in whatever order it has come to it. -/
namespace ObjectLayout

variable {s : Setting} {types : List Ty} {reporting : Reporting} {memory memory' : Memory}

/-- What a computation asks for where all layouts are known, up to where it stops. -/
def LayoutM.asked (known : Known) : LayoutM α → List Subject
  | .done _ | .stop _ => []
  | .askRecord r next => .record r ::
    match known.record r with
    | .ok layout => (next layout).asked known
    | .error _ => []
  | .askType type next => .type type ::
    match known.type type with
    | .ok layout => (next layout).asked known
    | .error _ => []
  | .tell _ rest => rest.asked known

/-- A computation asks for what its confines allow. -/
theorem LayoutM.Confined.asked_listed {x : LayoutM α} {notes : Note → Prop}
    (h : x.Confined (· ∈ types) notes) (known : Known) :
    ∀ subject ∈ x.asked known, subject.IsListed types := by
  induction x with
  | done value => exact nofun
  | stop fault => exact nofun
  | askRecord r next ih =>
    intro subject member
    rw [LayoutM.asked] at member
    rcases List.mem_cons.mp member with rfl | member
    · trivial
    · split at member
      · exact ih _ (h _) subject member
      · cases member
  | askType type next ih =>
    intro subject member
    rw [LayoutM.asked] at member
    rcases List.mem_cons.mp member with rfl | member
    · exact h.1
    · split at member
      · exact ih _ (h.2 _) subject member
      · cases member
  | tell note rest ih => exact ih h.2

namespace Subject

/-- What the layout of a record or type is made from. -/
def parts (s : Setting) : Subject → List Subject
  | .record r => (RecordLayout.ofRecord s r).asked (s.known s.depth)
  | .type asked => (TypeLayout.ofTy s asked).asked (s.known s.depth)

theorem parts_listed (catalog : s.tree.Catalog types) {subject : Subject}
    (listed : subject.IsListed types) : ∀ part ∈ subject.parts s, part.IsListed types := by
  cases subject with
  | record r => exact (RecordLayout.ofRecord_asks catalog r).asked_listed _
  | type asked => exact (TypeLayout.ofTy_asks catalog listed).asked_listed _

end Subject

/-- What is asked for is needed, and so are the parts of what is needed. -/
inductive Needed (s : Setting) (asked : List Subject) : Subject → Prop
  | asked {subject : Subject} (member : subject ∈ asked) : Needed s asked subject
  | part {subject part : Subject} (whole : Needed s asked subject) (member : part ∈ subject.parts s) :
      Needed s asked part

namespace Needed

variable {asked asked' : List Subject} {subject part : Subject}

theorem mono (h : Needed s asked subject) (more : asked ⊆ asked') : Needed s asked' subject := by
  induction h with
  | asked member => exact .asked (more member)
  | part whole member ih => exact .part ih member

/-- Whatever the parts of something need is needed where that thing is asked for. -/
theorem of_part (h : Needed s (subject.parts s) part) (member : subject ∈ asked) :
    Needed s asked part := by
  induction h with
  | asked there => exact .part (.asked member) there
  | part whole there ih => exact .part ih there

end Needed

/-- With everything that is stored its parts are stored. -/
def Memory.Closed (s : Setting) (types : List Ty) (memory : Memory) : Prop :=
  ∀ subject : Subject, subject.IsListed types → subject.isStored memory = true →
    ∀ part ∈ subject.parts s, part.isStored memory = true

theorem Memory.fresh_closed : (Memory.fresh reporting).Closed s types := by
  intro subject _ stored
  cases subject <;> cases stored

/-- Where everything that is asked for is stored with its parts, all that is needed is stored. -/
theorem Needed.stored (catalog : s.tree.Catalog types) (closed : memory.Closed s types)
    {asked : List Subject} (there : ∀ subject ∈ asked, subject.IsListed types ∧
      subject.isStored memory = true) {subject : Subject} (h : Needed s asked subject) :
    subject.IsListed types ∧ subject.isStored memory = true := by
  induction h with
  | asked member => exact there _ member
  | part whole member ih =>
    exact ⟨Subject.parts_listed catalog ih.1 _ member, closed _ ih.1 ih.2 _ member⟩

namespace Session.Completes

variable {α : Type} {x : LayoutM α} {value : α}

/-- Whatever is asked for ends up in memory. -/
theorem asked_stored (h : Completes s types reporting x memory value memory') :
    ∀ subject ∈ x.asked (s.known s.depth), subject.isStored memory' = true := by
  induction h with
  | done value memory => exact nofun
  | recallRecord laid found rest ih =>
    intro subject member
    rw [LayoutM.asked, laid] at member
    rcases List.mem_cons.mp member with rfl | member
    · exact rest.keeps _ (by rw [Subject.isStored, OrderedMap.contains, found]; rfl)
    · exact ih subject member
  | workRecord laid missing work rest ih ih' =>
    intro subject member
    rw [LayoutM.asked, laid] at member
    rcases List.mem_cons.mp member with rfl | member
    · exact rest.keeps _ (OrderedMap.contains_insert_self _ _ _)
    · exact ih' subject member
  | recallType listed laid found rest ih =>
    intro subject member
    rw [LayoutM.asked, laid] at member
    rcases List.mem_cons.mp member with rfl | member
    · exact rest.keeps _ (by rw [Subject.isStored, OrderedMap.contains, found]; rfl)
    · exact ih subject member
  | workType listed laid missing work rest ih ih' =>
    intro subject member
    rw [LayoutM.asked, laid] at member
    rcases List.mem_cons.mp member with rfl | member
    · exact rest.keeps _ (OrderedMap.contains_insert_self _ _ _)
    · exact ih' subject member
  | tell more ih => exact ih

section Cataloged

variable (catalog : s.tree.Catalog types)
include catalog

/-- A completed computation has stored the parts of all that it has stored. -/
theorem closed (h : Completes s types reporting x memory value memory')
    (before : memory.Closed s types) : memory'.Closed s types := by
  induction h with
  | done value memory => exact before
  | recallRecord laid found rest ih => exact ih before
  | workRecord laid missing work rest ih ih' =>
    refine ih' fun subject listed stored part member => ?_
    rw [Subject.isStored_rememberRecord] at stored ⊢
    rcases stored with rfl | stored
    · exact .inr (work.asked_stored part member)
    · exact .inr (ih before subject listed stored part member)
  | recallType listed laid found rest ih => exact ih before
  | workType member laid missing work rest ih ih' =>
    refine ih' fun subject listed stored part there => ?_
    rw [Subject.isStored_rememberType catalog listed member] at stored
    rw [Subject.isStored_rememberType catalog (Subject.parts_listed catalog listed part there) member]
    rcases stored with rfl | stored
    · exact .inr (work.asked_stored part there)
    · exact .inr (ih before subject listed stored part there)
  | tell more ih =>
    refine ih fun subject listed stored part member => ?_
    rw [Subject.isStored_take] at stored ⊢
    exact before subject listed stored part member

/-- Whatever a completed computation has stored it needed. -/
theorem stored_needed (h : Completes s types reporting x memory value memory') {subject : Subject}
    (listed : subject.IsListed types) (stored : subject.isStored memory' = true) :
    subject.isStored memory = true ∨ Needed s (x.asked (s.known s.depth)) subject := by
  induction h with
  | done value memory => exact .inl stored
  | recallRecord laid found rest ih =>
    rw [LayoutM.asked, laid]
    exact (ih stored).imp_right (·.mono (List.subset_cons_self _ _))
  | workRecord laid missing work rest ih ih' =>
    rw [LayoutM.asked, laid]
    rcases ih' stored with before | needed
    · rcases subject.isStored_rememberRecord.mp before with rfl | before
      · exact .inr (.asked List.mem_cons_self)
      · exact (ih before).imp_right (Needed.of_part · List.mem_cons_self)
    · exact .inr (needed.mono (List.subset_cons_self _ _))
  | recallType _ laid found rest ih =>
    rw [LayoutM.asked, laid]
    exact (ih stored).imp_right (·.mono (List.subset_cons_self _ _))
  | workType member laid missing work rest ih ih' =>
    rw [LayoutM.asked, laid]
    rcases ih' stored with before | needed
    · rcases (Subject.isStored_rememberType catalog listed member).mp before with rfl | before
      · exact .inr (.asked List.mem_cons_self)
      · exact (ih before).imp_right (Needed.of_part · List.mem_cons_self)
    · exact .inr (needed.mono (List.subset_cons_self _ _))
  | tell more ih => exact (ih stored).imp_left (Subject.isStored_take _ _).symm.trans

/-- After a completed computation what it needs is stored, and what was stored before. -/
theorem stored_iff (h : Completes s types reporting x memory value memory')
    {notes : Note → Prop} (asks : x.Confined (· ∈ types) notes) (before : memory.Closed s types)
    {subject : Subject} (listed : subject.IsListed types) : subject.isStored memory' = true ↔
      subject.isStored memory = true ∨ Needed s (x.asked (s.known s.depth)) subject := by
  refine ⟨h.stored_needed catalog listed, fun cause => cause.elim (h.keeps subject) fun needed => ?_⟩
  exact (needed.stored catalog (h.closed catalog before)
    fun subject member => ⟨asks.asked_listed _ subject member, h.asked_stored subject member⟩).2

end Cataloged

end Session.Completes

end ObjectLayout
