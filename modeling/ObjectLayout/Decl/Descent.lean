import ObjectLayout.Decl.Tree
import ObjectLayout.Descent

/-! Functions of a record that are defined through the records it inherits or contains. Such a
descent meets each record at most once on its way down unless a record contains itself, so one more
level than there are records is enough; where a record does contain itself the descent ends in the
value that the caller names for that case. -/
namespace ObjectLayout

def Tree.descend (tree : Tree) (cut : α) (step : (RecordId → α) → RecordId → α) : RecordId → α :=
  descendWithin cut step (tree.records.size + 1)

end ObjectLayout
