import ThreeAddress.Proofs.Code.Reader
/-!
# Tokens of a written operand

The lexer goes through a line character by character. A word is a name or a number and goes on as long as its characters
do; a minus sign belongs to a word only inside it, as in `1e-5`. A quoted text ends at the first quote without a
backslash in front of it. A binary operator stands between two blanks, so it is told from a prefix operator. No token
goes over the end of a line.

`Lexes cs ts` says that the characters `cs` are the tokens `ts` wherever a token can begin. What follows may then be any
delimiter (`Lexes.delim`), which is how `lexes_render` puts the text of an operand together from its parts.
-/
namespace ThreeAddress.Code

/-- Letters and digits are those of ASCII. -/
def isNameChar (c : Char) : Bool := c.isAlphanum || c = '_' || c = '.'

/-- A character of a name or a number. -/
def isWordChar (c : Char) : Bool := isNameChar c || c = '-'

def BinaryOp.all : List BinaryOp := [.add, .sub, .mul, .div, .mod, .pow, .eq, .ne, .lt, .le, .gt, .ge, .and, .or]

def BinaryOp.ofSymbol? (symbol : List Char) : Option BinaryOp := BinaryOp.all.find? (·.symbol.toList = symbol)

/-- What was begun with the characters behind the last token. -/
inductive LexMode where
  | gap
  | word (chars : List Char)
  | quoted (chars : List Char)
  | escaped (chars : List Char)
  | symbol (chars : List Char)
  | comma

structure Lexer where
  tokens : List Token
  mode : LexMode

namespace Lexer

/-- The first character of a token. -/
def start (ts : List Token) (c : Char) : Option Lexer :=
  match c with
  | '(' => some ⟨ts ++ [.openGroup], .gap⟩
  | ')' => some ⟨ts ++ [.closeGroup], .gap⟩
  | '[' => some ⟨ts ++ [.openIndex], .gap⟩
  | ']' => some ⟨ts ++ [.closeIndex], .gap⟩
  | '-' => some ⟨ts ++ [.unary .neg], .gap⟩
  | '!' => some ⟨ts ++ [.unary .not], .gap⟩
  | ',' => some ⟨ts, .comma⟩
  | ' ' => some ⟨ts, .symbol []⟩
  | '"' => some ⟨ts, .quoted ['"']⟩
  | c => if isWordChar c then some ⟨ts, .word [c]⟩ else none

def step (s : Lexer) (c : Char) : Option Lexer :=
  if c = '\n' then none
  else
    match s.mode with
    | .gap => start s.tokens c
    | .word w =>
      if isWordChar c then some ⟨s.tokens, .word (w ++ [c])⟩ else start (s.tokens ++ [.leaf (String.ofList w)]) c
    | .quoted w =>
      if c = '"' then some ⟨s.tokens ++ [.leaf (String.ofList (w ++ [c]))], .gap⟩
      else if c = '\\' then some ⟨s.tokens, .escaped (w ++ [c])⟩
      else some ⟨s.tokens, .quoted (w ++ [c])⟩
    | .escaped w => some ⟨s.tokens, .quoted (w ++ [c])⟩
    | .symbol w =>
      if c = ' ' then (BinaryOp.ofSymbol? w).map fun op => ⟨s.tokens ++ [.binary op], .gap⟩
      else some ⟨s.tokens, .symbol (w ++ [c])⟩
    | .comma => if c = ' ' then some ⟨s.tokens ++ [.comma], .gap⟩ else none

def run (s : Lexer) (cs : List Char) : Option Lexer := cs.foldlM step s

/-- The tokens, if the last of them is complete. -/
def finish (s : Lexer) : Option (List Token) :=
  match s.mode with
  | .gap => some s.tokens
  | .word w => some (s.tokens ++ [.leaf (String.ofList w)])
  | _ => none

def lex (cs : List Char) : Option (List Token) := (run ⟨[], .gap⟩ cs).bind finish

@[simp] theorem run_nil (s : Lexer) : run s [] = some s := rfl

@[simp] theorem run_cons (s : Lexer) (c : Char) (cs : List Char) : run s (c :: cs) = (step s c).bind fun t => run t cs := by
  simp [run]

@[simp] theorem run_append (s : Lexer) (cs ds : List Char) : run s (cs ++ ds) = (run s cs).bind fun t => run t ds := by
  simp [run]

/-- Characters that are only added to what was begun. -/
theorem run_collect (mode : List Char → LexMode) {ts : List Token} {cs : List Char}
    (h : ∀ c ∈ cs, ∀ w, step ⟨ts, mode w⟩ c = some ⟨ts, mode (w ++ [c])⟩) (w : List Char) :
    run ⟨ts, mode w⟩ cs = some ⟨ts, mode (w ++ cs)⟩ := by
  induction cs generalizing w with
  | nil => simp
  | cons c cs ih =>
    rw [run_cons, h c List.mem_cons_self, Option.bind_some, ih fun d hd => h d (List.mem_cons_of_mem _ hd)]
    simp

/-- A character that is in no word ends one. -/
theorem step_of_finish {s : Lexer} {ts : List Token} (h : s.finish = some ts) {c : Char} (hc : isWordChar c = false)
    (hn : c ≠ '\n') : step s c = start ts c := by
  obtain ⟨tokens, mode⟩ := s
  cases mode with
  | gap =>
    obtain rfl : tokens = ts := by simpa [finish] using h
    simp [step, hn]
  | word w =>
    obtain rfl : tokens ++ [.leaf (String.ofList w)] = ts := by simpa [finish] using h
    simp [step, hn, hc]
  | quoted | escaped | symbol | comma => simp [finish] at h

/-- Characters that are read are in one line. -/
theorem newline_not_mem {s t : Lexer} {cs : List Char} (h : run s cs = some t) : '\n' ∉ cs := by
  induction cs generalizing s with
  | nil => simp
  | cons c cs ih =>
    rw [run_cons, Option.bind_eq_some_iff] at h
    obtain ⟨s', hstep, hrun⟩ := h
    have hc : '\n' ≠ c := by
      rintro rfl
      simp [step] at hstep
    simp [hc, ih hrun]

end Lexer

open Lexer

/-- The characters are those tokens wherever a token can begin. -/
def Lexes (cs : List Char) (us : List Token) : Prop :=
  ∀ ts, ∃ s, run ⟨ts, .gap⟩ cs = some s ∧ s.finish = some (ts ++ us)

/-- The characters end whatever is in front of them and are that token. -/
def Delimits (cs : List Char) (u : Token) : Prop :=
  ∀ s ts, s.finish = some ts → run s cs = some ⟨ts ++ [u], .gap⟩

section
variable {cs ds : List Char} {us vs : List Token} {u : Token}

theorem lex_of_lexes (h : Lexes cs us) : lex cs = some us := by
  obtain ⟨s, hrun, hfinish⟩ := h []
  simpa [lex, hrun] using hfinish

theorem Lexes.newline_not_mem (h : Lexes cs us) : '\n' ∉ cs := by
  obtain ⟨s, hrun, -⟩ := h []
  exact Lexer.newline_not_mem hrun

theorem lexes_nil : Lexes [] [] := by
  intro ts
  exact ⟨⟨ts, .gap⟩, rfl, by simp [finish]⟩

theorem Lexes.delim (h : Lexes cs us) (hd : Delimits ds u) : Lexes (cs ++ ds) (us ++ [u]) := by
  intro ts
  obtain ⟨s, hrun, hfinish⟩ := h ts
  refine ⟨⟨ts ++ us ++ [u], .gap⟩, ?_, by simp [finish]⟩
  rw [run_append, hrun, Option.bind_some, hd s _ hfinish]

/-- Behind a delimiter anything can follow. -/
theorem Lexes.delim_append (h : Lexes cs us) {es : List Char} (hd : Delimits ds u) (he : Lexes es vs) :
    Lexes (cs ++ (ds ++ es)) (us ++ u :: vs) := by
  intro ts
  obtain ⟨s, hrun, hfinish⟩ := h ts
  obtain ⟨s', hrun', hfinish'⟩ := he (ts ++ us ++ [u])
  refine ⟨s', ?_, by simpa using hfinish'⟩
  rw [run_append, hrun, Option.bind_some, run_append, hd s _ hfinish, Option.bind_some, hrun']

theorem delimits_of_start {c : Char} (hc : isWordChar c = false) (hn : c ≠ '\n')
    (h : ∀ ts, start ts c = some ⟨ts ++ [u], .gap⟩) : Delimits [c] u := by
  intro s ts hs
  rw [run_cons, step_of_finish hs hc hn, h]
  rfl

theorem delimits_openGroup : Delimits ['('] .openGroup := delimits_of_start (by decide) (by decide) fun _ => rfl

theorem delimits_closeGroup : Delimits [')'] .closeGroup := delimits_of_start (by decide) (by decide) fun _ => rfl

theorem delimits_openIndex : Delimits ['['] .openIndex := delimits_of_start (by decide) (by decide) fun _ => rfl

theorem delimits_closeIndex : Delimits [']'] .closeIndex := delimits_of_start (by decide) (by decide) fun _ => rfl

theorem delimits_comma : Delimits [',', ' '] .comma := by
  intro s ts hs
  rw [run_cons, step_of_finish hs (by decide) (by decide)]
  rfl

theorem delimits_binary (op : BinaryOp) : Delimits (' ' :: (op.symbol.toList ++ [' '])) (.binary op) := by
  intro s ts hs
  rw [run_cons, step_of_finish hs (by decide) (by decide)]
  cases op <;> rfl

theorem lexes_unary (op : UnaryOp) (h : Lexes cs us) : Lexes (op.symbol.toList ++ cs) (.unary op :: us) := by
  intro ts
  obtain ⟨s, hrun, hfinish⟩ := h (ts ++ [.unary op])
  refine ⟨s, ?_, by simpa using hfinish⟩
  cases op <;> exact hrun

end

/-! ## Words -/

/-- A text that is read as one word. -/
structure IsWord (text : String) : Prop where
  nonempty : text.toList ≠ []
  chars : ∀ c ∈ text.toList, isWordChar c = true
  unsigned : text.toList.head? ≠ some '-'

theorem isWordChar_ne_newline {c : Char} (h : isWordChar c = true) : c ≠ '\n' := by
  rintro rfl
  exact absurd h (by decide)

theorem start_word {c : Char} (h : isWordChar c = true) (hm : c ≠ '-') (ts : List Token) :
    start ts c = some ⟨ts, .word [c]⟩ := by
  unfold start
  split
  case h_5 => exact absurd rfl hm
  case h_10 => rw [if_pos h]
  all_goals exact absurd h (by decide)

theorem run_word {cs : List Char} (h : ∀ c ∈ cs, isWordChar c = true) (ts : List Token) (w : List Char) :
    run ⟨ts, .word w⟩ cs = some ⟨ts, .word (w ++ cs)⟩ := by
  refine run_collect .word ?_ w
  intro c hc w
  simp [step, h c hc, isWordChar_ne_newline (h c hc)]

theorem lexes_word {text : String} (h : IsWord text) : Lexes text.toList [.leaf text] := by
  intro ts
  obtain ⟨c, cs, htext⟩ := List.exists_cons_of_ne_nil h.nonempty
  have hchars := h.chars
  have hm := h.unsigned
  rw [htext] at hchars hm ⊢
  have hc := hchars c List.mem_cons_self
  have hstart : step ⟨ts, .gap⟩ c = some ⟨ts, .word [c]⟩ := by
    simp [step, isWordChar_ne_newline hc, start_word hc fun e => hm (congrArg some e)]
  refine ⟨⟨ts, .word ([c] ++ cs)⟩, ?_, ?_⟩
  · rw [run_cons, hstart, Option.bind_some, run_word fun d hd => hchars d (List.mem_cons_of_mem _ hd)]
  · rw [List.singleton_append, ← htext]
    simp [finish]

/-! ## Quoted texts -/

/-- Characters that neither end a quoted text nor begin an escape. -/
theorem run_quoted {cs : List Char} (h : ∀ c ∈ cs, c ≠ '"' ∧ c ≠ '\\' ∧ c ≠ '\n') (ts : List Token) (w : List Char) :
    run ⟨ts, .quoted w⟩ cs = some ⟨ts, .quoted (w ++ cs)⟩ := by
  refine run_collect .quoted ?_ w
  intro c hc w
  obtain ⟨hquote, hback, hline⟩ := h c hc
  simp [step, hquote, hback, hline]

/-- A backslash takes the next character with it. -/
theorem run_escaped {c : Char} (hc : c ≠ '\n') {cs : List Char} (h : ∀ c ∈ cs, c ≠ '"' ∧ c ≠ '\\' ∧ c ≠ '\n')
    (ts : List Token) (w : List Char) :
    run ⟨ts, .quoted w⟩ ('\\' :: c :: cs) = some ⟨ts, .quoted (w ++ '\\' :: c :: cs)⟩ := by
  have hback : step ⟨ts, .quoted w⟩ '\\' = some ⟨ts, .escaped (w ++ ['\\'])⟩ := rfl
  have hstep : step ⟨ts, .escaped (w ++ ['\\'])⟩ c = some ⟨ts, .quoted (w ++ ['\\'] ++ [c])⟩ := by
    simp [step, hc]
  rw [run_cons, hback, Option.bind_some, run_cons, hstep, Option.bind_some, run_quoted h]
  simp

theorem exists_digitChar_of_mem_toDigits {n : Nat} {c : Char} (h : c ∈ Nat.toDigits 16 n) :
    ∃ d : Nat, c = d.digitChar := by
  induction n using Nat.strongRecOn with
  | ind n ih =>
    rw [Nat.toDigits_eq_if (by decide)] at h
    split at h
    · exact ⟨n, List.mem_singleton.1 h⟩
    · rcases List.mem_append.1 h with h | h
      · exact ih (n / 16) (by omega) h
      · exact ⟨n % 16, List.mem_singleton.1 h⟩

theorem run_escape (c : Char) (ts : List Token) (w : List Char) :
    run ⟨ts, .quoted w⟩ (Text.escape c) = some ⟨ts, .quoted (w ++ Text.escape c)⟩ := by
  unfold Text.escape
  split
  case h_7 hnul htab hline hreturn hquote hback =>
    split
    · -- behind `\u` there are braces and hexadecimal digits only
      refine run_escaped (by decide) ?_ ts w
      intro d hd
      simp only [List.mem_cons, List.mem_append, List.not_mem_nil, or_false] at hd
      rcases hd with rfl | hd | rfl
      · decide
      · obtain ⟨n, rfl⟩ := exists_digitChar_of_mem_toDigits hd
        exact ⟨Nat.digitChar_ne _ (by decide), Nat.digitChar_ne _ (by decide), Nat.digitChar_ne _ (by decide)⟩
      · decide
    · refine run_quoted ?_ ts w
      intro d hd
      rw [List.mem_singleton.1 hd]
      exact ⟨hquote, hback, hline⟩
  all_goals exact run_escaped (by decide) (by simp) ts w

theorem run_flatMap_escape (cs : List Char) (ts : List Token) (w : List Char) :
    run ⟨ts, .quoted w⟩ (cs.flatMap Text.escape) = some ⟨ts, .quoted (w ++ cs.flatMap Text.escape)⟩ := by
  induction cs generalizing w with
  | nil => simp
  | cons c cs ih =>
    rw [List.flatMap_cons, run_append, run_escape, Option.bind_some, ih]
    simp

theorem lexes_quote (text : String) : Lexes (Text.quote text).toList [.leaf (Text.quote text)] := by
  intro ts
  refine ⟨⟨ts ++ [.leaf (Text.quote text)], .gap⟩, ?_, rfl⟩
  have hopen : step ⟨ts, .gap⟩ '"' = some ⟨ts, .quoted ['"']⟩ := rfl
  rw [Text.quote, String.toList_ofList, run_cons, hopen, Option.bind_some, run_append, run_flatMap_escape,
    Option.bind_some]
  simp [step]

end ThreeAddress.Code
