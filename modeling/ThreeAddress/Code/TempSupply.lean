import ThreeAddress.Code.Operand
/-!
# The supply of temporaries

Temporaries are numbered from 1 in the order they are taken.
-/
namespace ThreeAddress.Code

/-- Known by the number of the temporary it gives next. -/
structure TempSupply where
  next : Nat := 1
  pos : 0 < next := by decide
deriving DecidableEq, Repr

namespace TempSupply

/-- The next temporary, and the supply without it. -/
def fresh (s : TempSupply) : Temp × TempSupply := (⟨s.next⟩, ⟨s.next + 1, Nat.succ_pos _⟩)

/-- How many temporaries were taken. -/
def allocated (s : TempSupply) : Nat := s.next - 1

theorem id_fresh (s : TempSupply) : s.fresh.1.id = s.allocated + 1 := (Nat.sub_add_cancel s.pos).symm

theorem allocated_fresh (s : TempSupply) : s.fresh.2.allocated = s.allocated + 1 := s.id_fresh

theorem allocated_le_fresh (s : TempSupply) : s.allocated ≤ s.fresh.2.allocated :=
  s.allocated_fresh ▸ Nat.le_succ s.allocated

end TempSupply

end ThreeAddress.Code
