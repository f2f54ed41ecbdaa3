/-! Functions defined by descending from a place to the places below it, with a bound on the depth.
Where the bound is reached the function has the value named for that case; a bound that no descent
reaches can be left out of mind. -/
namespace ObjectLayout

def descendWithin (cut : α) (step : (κ → α) → κ → α) : Nat → κ → α
  | 0 => fun _ => cut
  | depth + 1 => step (descendWithin cut step depth)

end ObjectLayout
