import ThreeAddress.Code.Operand
/-!
# The variable table

Variables in the order of their first use, each with the slot it was given then.
-/
namespace ThreeAddress.Code

structure VarTable where
  /-- The entries: a name and the slot stored for it. -/
  toList : List Variable := []
deriving DecidableEq, Repr

namespace VarTable

def names (t : VarTable) : List String := t.toList.map (·.name)

def lookup? (t : VarTable) (name : String) : Option Variable := t.toList.find? (·.name = name)

/-- The variable of that name. A new one is put at the end, and its slot is the number of entries before it. -/
def intern (t : VarTable) (name : String) : Variable × VarTable :=
  match t.lookup? name with
  | some v => (v, t)
  | none =>
    let v : Variable := ⟨name, t.toList.length⟩
    (v, ⟨t.toList ++ [v]⟩)

theorem lookup?_eq_none_iff {t : VarTable} {name : String} : t.lookup? name = none ↔ name ∉ t.names := by
  simp [lookup?, names]

/-- An entry that is found has the name it was asked by. -/
theorem mem_of_lookup? {t : VarTable} {name : String} {v : Variable} (h : t.lookup? name = some v) :
    v ∈ t.toList ∧ v.name = name :=
  ⟨List.mem_of_find?_eq_some h, by simpa using List.find?_some h⟩

theorem toList_intern (t : VarTable) (name : String) :
    (t.intern name).2.toList = t.toList ++ if name ∈ t.names then [] else [⟨name, t.toList.length⟩] := by
  unfold intern
  cases h : t.lookup? name with
  | none => simp [lookup?_eq_none_iff.1 h]
  | some v =>
    obtain ⟨hv, rfl⟩ := mem_of_lookup? h
    simp [names, List.mem_map_of_mem hv]

end VarTable

end ThreeAddress.Code
