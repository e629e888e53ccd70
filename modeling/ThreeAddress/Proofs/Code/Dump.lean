import ThreeAddress.Code.CodeUnit
import ThreeAddress.Proofs.Code.Grouping
import ThreeAddress.Proofs.Code.Lexer
import ThreeAddress.Proofs.Decimal.Characters
/-!
# A dump determines the code

Names are written as they are, so a dump can be read back only if they are names: `Operand.IsLegible`. A negative number
is not legible either, since it has the text of a negation. All else is. `lexes_render` gives the tokens of a written
operand, `readOperand_render` its tree and `readDump_dump` the instructions of a unit. Two legible units with one dump
can differ in nothing but the kind of a leaf, and in slots and names that a dump does not have.
-/
namespace ThreeAddress

def Constant.isNumber : Constant → Bool
  | .int _ | .double _ => true
  | .str _ | .logical _ | .null => false

namespace Code

open Lexer

/-! ## Legible code -/

def IsName (name : String) : Prop := name.toList ≠ [] ∧ name.toList.all isNameChar = true

instance : DecidablePred IsName := fun _ => inferInstanceAs (Decidable (_ ∧ _))

namespace Operand

/-- What a leaf has to be for its text to be read back. -/
def IsLegibleLeaf : Operand → Prop
  | .const value => value.isNumber = true → value.render.toList.head? ≠ some '-'
  | .var v => IsName v.name
  | .func name => IsName name
  | _ => True

instance : DecidablePred IsLegibleLeaf
  | .const _ => inferInstanceAs (Decidable (_ → _))
  | .var v => inferInstanceAs (Decidable (IsName v.name))
  | .func name => inferInstanceAs (Decidable (IsName name))
  | .temp _ | .element .. | .binary .. | .unary .. | .call .. => inferInstanceAs (Decidable True)

def IsLegible (o : Operand) : Prop := ∀ sub ∈ o.walk, sub.IsLegibleLeaf

instance : DecidablePred IsLegible := fun o => inferInstanceAs (Decidable (∀ sub ∈ o.walk, _))

theorem IsLegible.leaf {o : Operand} (h : o.IsLegible) : o.IsLegibleLeaf := h o (self_mem_walk o)

theorem IsLegible.sub {o sub : Operand} (h : o.IsLegible) (hsub : sub ∈ o.subOperands) : sub.IsLegible := by
  intro leaf hleaf
  exact h leaf (mem_walk_of_mem_subOperands hsub hleaf)

end Operand

/-- What is assigned is written as the operand that reads it. -/
def Instr.IsLegible (i : Instr) : Prop :=
  i.source.IsLegible ∧ ∀ target ∈ i.target?, target.toOperand.IsLegible

instance : DecidablePred Instr.IsLegible := fun i =>
  inferInstanceAs (Decidable (_ ∧ ∀ target ∈ i.target?, target.toOperand.IsLegible))

def CodeUnit.IsLegible (u : CodeUnit) : Prop := ∀ i ∈ u.instrs.toList, i.IsLegible

instance : DecidablePred CodeUnit.IsLegible := fun u => inferInstanceAs (Decidable (∀ i ∈ u.instrs.toList, i.IsLegible))

/-! ## The texts of leaves -/

theorem isNameChar_of_isDigit {c : Char} (h : c.isDigit = true) : isNameChar c = true := by
  simp [isNameChar, Char.isAlphanum, h]

theorem isWordChar_of_isNameChar {c : Char} (h : isNameChar c = true) : isWordChar c = true := by
  simp [isWordChar, h]

theorem isWordChar_of_isNumeralChar {c : Char} (h : isNumeralChar c = true) : isWordChar c = true := by
  simp only [isNumeralChar, Bool.or_eq_true, decide_eq_true_eq] at h
  rcases h with ((h | rfl) | rfl) | rfl
  · exact isWordChar_of_isNameChar (isNameChar_of_isDigit h)
  · decide
  · decide
  · decide

theorem IsName.isWord {name : String} (h : IsName name) : IsWord name := by
  have hchars := List.all_eq_true.1 h.2
  refine ⟨h.1, fun c hc => isWordChar_of_isNameChar (hchars c hc), ?_⟩
  intro hm
  exact absurd (hchars _ (List.mem_of_mem_head? hm)) (by decide)

theorem Temp.isWord_render (t : Temp) : IsWord t.render := by
  have htext : t.render.toList = 't' :: Nat.toDigits 10 t.id := by
    simp [Temp.render, Nat.repr_eq_ofList_toDigits]
  refine ⟨by simp [htext], ?_, by simp [htext]⟩
  intro c hc
  rw [htext, List.mem_cons] at hc
  rcases hc with rfl | hc
  · decide
  · exact isWordChar_of_isNameChar (isNameChar_of_isDigit (isDigit_of_mem_toDigits hc))

theorem isWordChar_of_isDoubleChar {c : Char} (h : Double.isDoubleChar c = true) : isWordChar c = true := by
  have hletters : ['N', 'a', 'I', 'n', 'f'].all isWordChar = true := by decide
  rcases (Bool.or_eq_true ..).mp h with h | h
  · exact isWordChar_of_isNumeralChar h
  · exact List.all_eq_true.1 hletters c (List.contains_iff_mem.1 h)

/-- A number that is not signed is a word, and so are the constants with a name. -/
theorem isWord_constant {value : Constant} (hs : ∀ text, value ≠ .str text)
    (hm : value.isNumber = true → value.render.toList.head? ≠ some '-') : IsWord value.render := by
  cases value with
  | int n => exact ⟨toList_int_ne_nil _, fun _ h => isWordChar_of_isNumeralChar (isNumeralChar_of_mem_int h), hm rfl⟩
  | double x =>
    exact ⟨x.toList_render_ne_nil, fun _ h => isWordChar_of_isDoubleChar (Double.isDoubleChar_of_mem_render h), hm rfl⟩
  | str text => exact absurd rfl (hs text)
  | logical b => cases b <;> exact ⟨by decide, List.all_eq_true.1 (by decide), by decide⟩
  | null => exact ⟨by decide, List.all_eq_true.1 (by decide), by decide⟩

theorem lexes_const {value : Constant} (h : (Operand.const value).IsLegible) :
    Lexes value.render.toList [.leaf value.render] := by
  by_cases hs : ∃ text, value = .str text
  · obtain ⟨text, rfl⟩ := hs
    exact lexes_quote text
  · exact lexes_word (isWord_constant (fun text e => hs ⟨text, e⟩) h.leaf)

/-! ## The tokens of an operand -/

theorem Lexes.groupIf {text : String} {ts : List Token} (h : Lexes text.toList ts) (wrap : Bool) :
    Lexes (Operand.parenthesizeIf wrap text).toList (groupIf wrap ts) := by
  cases wrap with
  | false => exact h
  | true =>
    have hgroup := lexes_nil.delim_append delimits_openGroup (h.delim delimits_closeGroup)
    simpa [Operand.parenthesizeIf, Code.groupIf] using hgroup

theorem lexes_args {args : List Operand} (h : ∀ arg ∈ args, Lexes arg.render.toList arg.tokens) :
    Lexes (", ".intercalate (Operand.renderAll args)).toList ([.comma].intercalate (Operand.tokensAll args)) := by
  induction args with
  | nil => exact lexes_nil
  | cons arg args ih =>
    have harg := h arg List.mem_cons_self
    have hargs := ih fun other hother => h other (List.mem_cons_of_mem _ hother)
    cases args with
    | nil => simpa [Operand.renderAll, Operand.tokensAll] using harg
    | cons next args =>
      have hboth := harg.delim_append delimits_comma hargs
      simpa [Operand.renderAll, Operand.tokensAll, List.intercalate_cons_cons] using hboth

theorem lexes_render {o : Operand} (h : o.IsLegible) : Lexes o.render.toList o.tokens := by
  induction o using Operand.inductionOn with
  | const value => exact lexes_const h
  | temp t => exact lexes_word t.isWord_render
  | var v => exact lexes_word (IsName.isWord h.leaf)
  | func name => exact lexes_word (IsName.isWord h.leaf)
  | element vector index hv hi =>
    have hvector := (hv (h.sub (by simp [Operand.subOperands]))).groupIf vector.isOperation
    have hindex := hi (h.sub (by simp [Operand.subOperands]))
    have hall := hvector.delim_append delimits_openIndex (hindex.delim delimits_closeIndex)
    simpa [Operand.render, Operand.tokens] using hall
  | binary op lhs rhs hl hr =>
    have hlhs := (hl (h.sub (by simp [Operand.subOperands]))).groupIf (lhs.loosensLeftOf op)
    have hrhs := (hr (h.sub (by simp [Operand.subOperands]))).groupIf (rhs.loosensRightOf op)
    have hall := hlhs.delim_append (delimits_binary op) hrhs
    simpa [Operand.render, Operand.tokens] using hall
  | unary op operand ho =>
    have hoperand := (ho (h.sub (by simp [Operand.subOperands]))).groupIf operand.isOperation
    simpa [Operand.render, Operand.tokens] using lexes_unary op hoperand
  | call callee args hf ha =>
    have hcallee := (hf (h.sub (by simp [Operand.subOperands]))).groupIf callee.isOperation
    have hargs := lexes_args fun arg harg => ha arg harg (h.sub (by simp [Operand.subOperands, harg]))
    have hall := hcallee.delim_append delimits_openGroup (hargs.delim delimits_closeGroup)
    simpa [Operand.render, Operand.tokens] using hall

/-- What is read from the text of an operand. -/
def readOperand (cs : List Char) : Option Shape := (lex cs).bind (Reader.read tight)

theorem readOperand_render {o : Operand} (h : o.IsLegible) : readOperand o.render.toList = some o.shape := by
  rw [readOperand, lex_of_lexes (lexes_render h), Option.bind_some, read_tokens (isClear_tight o)]

/-! ## Lines -/

/-- An instruction with its target known by its text only. -/
inductive InstrShape where
  | assign (target : String) (source : Shape)
  | ret (value : Shape)

def Instr.shape : Instr → InstrShape
  | .assign target source => .assign target.render source.shape
  | .ret value => .ret value.shape

/-- Behind the first word stands `:=` or the value that is returned. -/
def readLine (cs : List Char) : Option InstrShape :=
  match cs.dropWhile isWordChar with
  | ' ' :: ':' :: '=' :: ' ' :: source => (readOperand source).map (.assign (String.ofList (cs.takeWhile isWordChar)))
  | ' ' :: value => (readOperand value).map .ret
  | _ => none

theorem not_lexes_colon (cs : List Char) (ts : List Token) : ¬ Lexes (':' :: cs) ts := by
  intro h
  obtain ⟨s, hrun, -⟩ := h []
  have hstep : step ⟨[], .gap⟩ ':' = none := rfl
  rw [run_cons, hstep] at hrun
  cases hrun

theorem Target.isWord_render {target : Target} (h : target.toOperand.IsLegible) : IsWord target.render := by
  cases target with
  | temp t => exact t.isWord_render
  | var v => exact IsName.isWord h.leaf

theorem readLine_assign {target : Target} {source : Operand} (ht : target.toOperand.IsLegible) (hs : source.IsLegible) :
    readLine (Instr.assign target source).render.toList = some (.assign target.render source.shape) := by
  have htext : (Instr.assign target source).render.toList =
      target.render.toList ++ (' ' :: ':' :: '=' :: ' ' :: source.render.toList) := by
    simp [Instr.render]
  have hchars := (Target.isWord_render ht).chars
  have hrest : (Instr.assign target source).render.toList.dropWhile isWordChar =
      ' ' :: ':' :: '=' :: ' ' :: source.render.toList := by
    rw [htext, List.dropWhile_append_of_pos hchars]
    rfl
  have hword : (Instr.assign target source).render.toList.takeWhile isWordChar = target.render.toList := by
    rw [htext, List.takeWhile_append_of_pos hchars]
    exact List.append_nil _
  simp only [readLine, hrest, hword, readOperand_render hs, Option.map_some, String.ofList_toList]

theorem readLine_ret {value : Operand} (h : value.IsLegible) :
    readLine (Instr.ret value).render.toList = some (.ret value.shape) := by
  have htext : (Instr.ret value).render.toList = "return".toList ++ (' ' :: value.render.toList) := by
    simp [Instr.render]
  have hchars : ∀ c ∈ "return".toList, isWordChar c = true := List.all_eq_true.1 (by decide)
  have hrest : (Instr.ret value).render.toList.dropWhile isWordChar = ' ' :: value.render.toList := by
    rw [htext, List.dropWhile_append_of_pos hchars]
    rfl
  -- no operand begins with a colon, so the value is never taken for the rest of an assignment
  have hcolon : ∀ cs, value.render.toList ≠ ':' :: cs := by
    intro cs e
    exact not_lexes_colon cs _ (e ▸ lexes_render h)
  rw [readLine, hrest]
  split
  next source e => exact absurd (List.cons.inj e).2 (hcolon _)
  next other _ e =>
    rw [← (List.cons.inj e).2, readOperand_render h]
    rfl
  next hnone => exact absurd rfl (hnone _)

theorem readLine_render {i : Instr} (h : i.IsLegible) : readLine i.render.toList = some i.shape := by
  cases i with
  | assign target source => exact readLine_assign (h.2 target rfl) h.1
  | ret value => exact readLine_ret h.1

theorem Instr.newline_not_mem_render {i : Instr} (h : i.IsLegible) : '\n' ∉ i.render.toList := by
  have hsource := (lexes_render h.1).newline_not_mem
  cases i with
  | assign target source =>
    have htarget := (lexes_word (Target.isWord_render (h.2 target rfl))).newline_not_mem
    simp only [Instr.source] at hsource
    simp [Instr.render, htarget, hsource]
  | ret value =>
    simp only [Instr.source] at hsource
    simp [Instr.render, hsource]

theorem Instr.toList_render_ne_nil (i : Instr) : i.render.toList ≠ [] := by
  cases i <;> simp [Instr.render]

/-! ## Units -/

/-- A line without characters has no instruction. -/
def readDump (cs : List Char) : Option (List InstrShape) := ((cs.splitOn '\n').filter (· ≠ [])).mapM readLine

/-- The lines of a dump are those of its instructions. -/
theorem lines_dump {u : CodeUnit} (h : u.IsLegible) :
    (u.dump.toList.splitOn '\n').filter (· ≠ []) = u.instrs.toList.map (·.render.toList) := by
  have htext : u.dump.toList = ['\n'].intercalate (u.instrs.toList.map (·.render.toList)) := by
    simp [CodeUnit.dump, Function.comp_def]
  by_cases hnil : u.instrs.toList = []
  · -- splitting the empty text gives one empty line
    rw [htext, hnil]
    rfl
  · have hline : ∀ line ∈ u.instrs.toList.map (·.render.toList), '\n' ∉ line := by
      intro line hmem
      obtain ⟨i, hi, rfl⟩ := List.mem_map.1 hmem
      exact Instr.newline_not_mem_render (h i hi)
    rw [htext, List.splitOn_intercalate '\n' hline (by simpa using hnil), List.filter_eq_self]
    intro line hmem
    obtain ⟨i, hi, rfl⟩ := List.mem_map.1 hmem
    simpa using i.toList_render_ne_nil

theorem mapM_readLine {is : List Instr} (h : ∀ i ∈ is, i.IsLegible) :
    (is.map (·.render.toList)).mapM readLine = some (is.map Instr.shape) := by
  induction is with
  | nil => rfl
  | cons i is ih =>
    have hi := readLine_render (h i List.mem_cons_self)
    have his := ih fun j hj => h j (List.mem_cons_of_mem _ hj)
    simp [hi, his]

theorem readDump_dump {u : CodeUnit} (h : u.IsLegible) :
    readDump u.dump.toList = some (u.instrs.toList.map Instr.shape) := by
  rw [readDump, lines_dump h, mapM_readLine h]

/-- Two legible units with one dump have as many instructions, of the same kind at each position, with the same text for
what is assigned and the same tree of operators over the same texts. -/
theorem shape_eq_of_dump_eq {u v : CodeUnit} (hu : u.IsLegible) (hv : v.IsLegible) (h : u.dump = v.dump) :
    u.size = v.size ∧ ∀ n : Nat, u.instrs[n]?.map Instr.shape = v.instrs[n]?.map Instr.shape := by
  have hread : some (u.instrs.toList.map Instr.shape) = some (v.instrs.toList.map Instr.shape) := by
    rw [← readDump_dump hu, h, readDump_dump hv]
  have hshapes := Option.some.inj hread
  constructor
  · simpa [CodeUnit.size] using congrArg List.length hshapes
  · intro n
    simpa using congrArg (·[n]?) hshapes

/-- A target and a value with a text full of delimiters beside it. -/
def quoting (target : Target) (o : Operand) : CodeUnit where
  name := "quoting"
  instrs := #[
    .assign target (.binary .sub (.unary .neg (.element (.var ⟨"x", 0⟩) (.const (.int 3))))
      (.binary .sub o (.const (.double ⟨0x3EE4F8B588E368F1⟩)))),
    .ret (.call (.func "paste") [o, .const (.str "\"), t1 := (\n\\"), .call (.func "c") []])]

/-- A dump does not tell a temporary from a variable with its text. -/
theorem shape_eq_of_dump_eq_temp_var :
    let u := quoting (.temp ⟨1⟩) (.temp ⟨2⟩)
    let v := quoting (.var ⟨"t1", 0⟩) (.var ⟨"t2", 1⟩)
    u ≠ v ∧ u.IsLegible ∧ v.IsLegible ∧ u.dump = v.dump ∧
      u.size = v.size ∧ ∀ n : Nat, u.instrs[n]?.map Instr.shape = v.instrs[n]?.map Instr.shape := by
  have hu : (quoting (.temp ⟨1⟩) (.temp ⟨2⟩)).IsLegible := by decide +kernel
  have hv : (quoting (.var ⟨"t1", 0⟩) (.var ⟨"t2", 1⟩)).IsLegible := by decide +kernel
  have h : (quoting (.temp ⟨1⟩) (.temp ⟨2⟩)).dump = (quoting (.var ⟨"t1", 0⟩) (.var ⟨"t2", 1⟩)).dump := by decide +kernel
  exact ⟨by decide +kernel, hu, hv, h, shape_eq_of_dump_eq hu hv h⟩

end Code

end ThreeAddress
