/-!
# Log records
-/
namespace ThreeAddress

inductive Level where
  | trace | debug | info | warn
deriving DecidableEq, Repr

structure Record where
  level : Level
  message : String
deriving DecidableEq, Repr

/-- Records in the order they were made. -/
abbrev Log := Array Record

/-- A value with the records made on the way to it. -/
structure Logged (α : Type) where
  value : α
  log : Log
deriving Repr

end ThreeAddress
