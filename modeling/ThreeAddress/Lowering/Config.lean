/-!
# Settings of the lowering
-/
namespace ThreeAddress.Lowering

/-- The position that a subscript gives to the first element. -/
inductive IndexBase where
  | zero | one
deriving DecidableEq, Repr

structure Config where
  indexBase : IndexBase := .zero
deriving DecidableEq, Repr

def Config.withIndexBase (c : Config) (base : IndexBase) : Config := { c with indexBase := base }

end ThreeAddress.Lowering
