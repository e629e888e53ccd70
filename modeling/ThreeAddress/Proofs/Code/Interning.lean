import ThreeAddress.Code.CodeUnit
import ThreeAddress.Proofs.Code.VarTable
/-!
# Variables through any use of a unit

A unit is used through `Use`s in any order. Only interning reaches the variable table, so what a history leaves there is
what interning its names one after another leaves (`vars_after`). A later use extends the table and never changes an
entry, which is why the variable that a name was first given is found by every look-up and given again from then on.
-/
namespace ThreeAddress.Code

/-- A request to a unit. -/
inductive Use where
  | push (i : Instr)
  | intern (name : String)
  | lookup (name : String)
  | rename (name : String)
deriving DecidableEq

namespace Use

def interned? : Use → Option String
  | .intern name => some name
  | _ => none

def pushed? : Use → Option Instr
  | .push i => some i
  | _ => none

end Use

/-- The names of a history that were interned, in turn and as often as they were. -/
def internedNames (uses : List Use) : List String := uses.filterMap Use.interned?

def pushedInstrs (uses : List Use) : List Instr := uses.filterMap Use.pushed?

theorem mem_internedNames_iff {uses : List Use} {name : String} : name ∈ internedNames uses ↔ .intern name ∈ uses := by
  rw [internedNames, List.mem_filterMap]
  constructor
  · rintro ⟨use, huse, hname⟩
    cases use with
    | intern other =>
      obtain rfl : other = name := Option.some.inj hname
      exact huse
    | push | lookup | rename => cases hname
  · intro h
    exact ⟨.intern name, h, rfl⟩

namespace CodeUnit

/-- The unit that a use leaves. A look-up leaves it as it is. -/
def use (u : CodeUnit) : Use → CodeUnit
  | .push i => u.push i
  | .intern name => (u.intern name).2
  | .lookup _ => u
  | .rename name => u.rename name

def after (u : CodeUnit) : List Use → CodeUnit
  | [] => u
  | use :: uses => (u.use use).after uses

theorem after_append (u : CodeUnit) (uses more : List Use) : u.after (uses ++ more) = (u.after uses).after more := by
  induction uses generalizing u with
  | nil => rfl
  | cons use uses ih => exact ih (u.use use)

theorem vars_use (u : CodeUnit) (use : Use) : (u.use use).vars = u.vars.internAll (internedNames [use]) := by
  cases use <;> rfl

theorem instrs_use (u : CodeUnit) (use : Use) :
    (u.use use).instrs.toList = u.instrs.toList ++ pushedInstrs [use] := by
  cases use with
  | push i => exact u.toList_instrs_push i
  | intern | lookup | rename => exact (List.append_nil _).symm

/-- Only the names that are interned count for the table. -/
theorem vars_after (u : CodeUnit) (uses : List Use) : (u.after uses).vars = u.vars.internAll (internedNames uses) := by
  induction uses generalizing u with
  | nil => rfl
  | cons use uses ih =>
    rw [after, ih, vars_use, ← VarTable.internAll_append, internedNames, internedNames, internedNames,
      ← List.filterMap_append, List.singleton_append]

theorem instrs_after (u : CodeUnit) (uses : List Use) :
    (u.after uses).instrs.toList = u.instrs.toList ++ pushedInstrs uses := by
  induction uses generalizing u with
  | nil => exact (List.append_nil _).symm
  | cons use uses ih =>
    rw [after, ih, instrs_use, List.append_assoc, pushedInstrs, pushedInstrs, pushedInstrs, ← List.filterMap_append,
      List.singleton_append]

/-- What a name was given is found from then on. -/
theorem lookup?_after_intern (u : CodeUnit) (name : String) (uses : List Use) :
    (u.after (.intern name :: uses)).lookup? name = some (u.intern name).1 := by
  have hprefix : (u.vars.intern name).2.toList <+: (u.after (.intern name :: uses)).vars.toList := by
    rw [after, vars_after]
    exact VarTable.isPrefix_internAll _ _
  exact VarTable.lookup?_of_isPrefix hprefix (VarTable.lookup?_intern u.vars name)

/-- Any use that interns a name has the answer that a lookup has at the end. -/
theorem lookup?_after_of_split {u : CodeUnit} {n : String} {uses before rest : List Use}
    (h : uses = before ++ .intern n :: rest) : (u.after uses).lookup? n = some ((u.after before).intern n).1 := by
  rw [h, after_append]
  exact lookup?_after_intern _ n rest

/-- A new unit has an empty table. -/
theorem valid_after_start (name : String) (uses : List Use) : (after { name } uses).vars.Valid := by
  rw [vars_after]
  exact VarTable.valid_empty.internAll _

theorem names_after_start (name : String) (uses : List Use) :
    (after { name } uses).vars.names = (internedNames uses).eraseDups := by
  rw [vars_after]
  exact VarTable.names_internAll [] _ rfl

theorem mem_names_after_start_iff {name n : String} {uses : List Use} :
    n ∈ (after { name } uses).vars.names ↔ .intern n ∈ uses := by
  rw [names_after_start, List.mem_eraseDups, mem_internedNames_iff]

end CodeUnit

open CodeUnit

/-- However a new unit is used, its variables have distinct names in the order in which these were first interned, and
their slots count up from 0. Looking a name up finds the variable that has it, and finds one exactly if the name was
interned: the one it was given the first time, which is the one it was given every other time, with the position of the
name in that order as its slot. A use extends the table only if it interns a new name, and then by one entry at the end.
The instructions are those that were pushed. -/
theorem slots_stable_and_dense (name : String) (uses : List Use) :
    let start : CodeUnit := { name }
    let u := start.after uses
    let order := (internedNames uses).eraseDups
    (u.vars.toList.map (·.name)).Nodup ∧
    u.vars.toList.map (·.name) = order ∧
    u.vars.toList.map (·.slot) = List.range u.vars.toList.length ∧
    (∀ n v, u.lookup? n = some v ↔ v ∈ u.vars.toList ∧ v.name = n) ∧
    (∀ n v, u.lookup? n = some v ↔
      ∃ before rest, uses = before ++ .intern n :: rest ∧ .intern n ∉ before ∧ ((start.after before).intern n).1 = v) ∧
    (∀ n before rest, uses = before ++ .intern n :: rest →
      u.lookup? n = some ((start.after before).intern n).1 ∧
      ((start.after before).intern n).1 ∈ u.vars.toList ∧
      ((start.after before).intern n).1 = ⟨n, order.idxOf n⟩) ∧
    (∀ next, (u.use next).vars.toList = u.vars.toList ++
      match next with
      | .intern n => if .intern n ∈ uses then [] else [⟨n, u.vars.toList.length⟩]
      | _ => []) ∧
    u.instrs.toList = pushedInstrs uses := by
  intro start u order
  have hvalid : u.vars.Valid := valid_after_start name uses
  have hnames : u.vars.names = order := names_after_start name uses
  refine ⟨hvalid.nodup, hnames, hvalid.slots, fun n v => hvalid.lookup?_eq_some_iff, fun n v => ⟨fun h => ?_, ?_⟩,
    fun n before rest hsplit => ?_, fun next => ?_, instrs_after start uses⟩
  · have hn : n ∈ u.vars.names := by
      refine Decidable.byContradiction fun hn => ?_
      rw [CodeUnit.lookup?, VarTable.lookup?_eq_none_iff.2 hn] at h
      cases h
    obtain ⟨before, rest, hsplit, hbefore⟩ := List.eq_append_cons_of_mem (mem_names_after_start_iff.1 hn)
    rw [lookup?_after_of_split hsplit] at h
    exact ⟨before, rest, hsplit, hbefore, Option.some.inj h⟩
  · rintro ⟨before, rest, hsplit, -, rfl⟩
    exact lookup?_after_of_split hsplit
  · have hgiven : u.lookup? n = some ((start.after before).intern n).1 := lookup?_after_of_split hsplit
    generalize ((start.after before).intern n).1 = v at hgiven ⊢
    obtain ⟨hmem, rfl⟩ := VarTable.mem_of_lookup? hgiven
    refine ⟨hgiven, hmem, ?_⟩
    rw [← hnames, ← hvalid.slot_eq_idxOf hmem]
  · cases next with
    | intern n =>
      have hmem : n ∈ u.vars.names ↔ .intern n ∈ uses := mem_names_after_start_iff
      refine (VarTable.toList_intern u.vars n).trans ?_
      simp only [hmem]
    | push | lookup | rename => exact (List.append_nil _).symm

/-- A name that is interned again behind other uses, one that is only looked up, and a table that goes on from there. -/
theorem slots_stable_and_dense_again :
    let uses : List Use :=
      [.intern "x", .push (.ret (.const .null)), .intern "y", .rename "other", .lookup "z", .intern "x"]
    let start : CodeUnit := { name := "main" }
    let u := start.after uses
    u.vars.toList.map (·.name) = ["x", "y"] ∧
    u.vars.toList.map (·.slot) = [0, 1] ∧
    (start.intern "x").1 = ⟨"x", 0⟩ ∧
    ((start.after (uses.take 2)).intern "y").1 = ⟨"y", 1⟩ ∧
    ((start.after (uses.take 5)).intern "x").1 = ⟨"x", 0⟩ ∧
    (∀ v, u.lookup? "y" = some v ↔ v ∈ u.vars.toList ∧ v.name = "y") ∧
    u.lookup? "y" = some ⟨"y", 1⟩ ∧
    (u.use (.intern "z")).vars.toList = u.vars.toList ++ [⟨"z", u.vars.toList.length⟩] ∧
    u.instrs.toList = [.ret (.const .null)] := by
  intro uses start u
  obtain ⟨-, hnames, hslots, hentry, -, hgiven, hnext, hinstrs⟩ := slots_stable_and_dense "main" uses
  obtain ⟨-, -, hx⟩ := hgiven "x" [] (uses.drop 1) rfl
  obtain ⟨hfound, -, hy⟩ := hgiven "y" (uses.take 2) (uses.drop 3) rfl
  obtain ⟨-, -, hagain⟩ := hgiven "x" (uses.take 5) [] rfl
  rw [hy] at hfound
  exact ⟨hnames, hslots, hx, hy, hagain, hentry "y", hfound, hnext (.intern "z"), hinstrs⟩

end ThreeAddress.Code
