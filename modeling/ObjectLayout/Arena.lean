/-! Append-only stores addressed by typed positions. The entity in the type of a position keeps
positions of different stores apart. -/
namespace ObjectLayout

/-- What a position can be a position of. -/
inductive Entity where
  | type
  | record
  | method
  | enumeration
  | typedef
  | variable
  | subobject
  | text
  deriving DecidableEq, Repr

structure Idx (entity : Entity) where
  position : Nat
  deriving DecidableEq, Repr

namespace Idx

def compare (a b : Idx e) : Ordering := Ord.compare a.position b.position

/-- The form in which a position is shown to people. -/
def label (a : Idx e) : String := "Idx(" ++ toString a.position ++ ")"

end Idx

structure Arena (entity : Entity) (α : Type) where
  items : Array α := #[]

namespace Arena

def size (arena : Arena e α) : Nat := arena.items.size

/-- The position that the next item gets. -/
def next (arena : Arena e α) : Idx e := ⟨arena.size⟩

def push (arena : Arena e α) (item : α) : Arena e α := ⟨arena.items.push item⟩

def get? (arena : Arena e α) (i : Idx e) : Option α := arena.items[i.position]?

def getD (arena : Arena e α) (i : Idx e) (default : α) : α := (arena.get? i).getD default

def modify (arena : Arena e α) (i : Idx e) (f : α → α) : Arena e α :=
  ⟨arena.items.modify i.position f⟩

def toList (arena : Arena e α) : List (Idx e × α) :=
  arena.items.toList.zipIdx.map fun (item, position) => (⟨position⟩, item)

/-- The whole store on one line, texts quoted by `quote`. -/
def render (arena : Arena e α) (quote : α → String) : String :=
  let entries := arena.toList.map fun (i, item) => i.label ++ ": " ++ quote item
  "\x7b" ++ ", ".intercalate entries ++ "\x7d"

theorem get?_push_next (arena : Arena e α) (item : α) :
    (arena.push item).get? arena.next = some item := by
  simp [push, get?, next, size]

theorem get?_push_of_lt (arena : Arena e α) (item : α) (i : Idx e)
    (inside : i.position < arena.size) :
    (arena.push item).get? i = arena.get? i := by
  simp only [push, get?, size] at *
  rw [Array.getElem?_push]
  split
  · omega
  · rfl

end Arena

end ObjectLayout
