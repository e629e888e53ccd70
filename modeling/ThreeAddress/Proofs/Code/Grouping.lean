import ThreeAddress.Proofs.Code.Reader
/-!
# How tokens group

Reading the tokens of an operand may leave operators pending at its end, and an operator behind it settles those that
bind at least as tight. If all of them are settled, for every left operand without parentheses, the operand is clear
(`Operand.IsClear`). `read_tokens_iff` says that the tree comes back from the tokens if and only if the operand is clear.
That is always so if a prefix operator takes nothing but the next operand (`isClear_tight`).

The proof follows the reader through all operands, clear or not. `ReadAs` compares what was read with what was written:
the sizes agree, and the left operands weigh no more than they should. An operator that finds a part of its left operand
still pending makes them weigh less, and nothing that is read later makes up for it.
-/
namespace ThreeAddress.Code

/-! ## Sizes -/

namespace Shape

mutual

def size : Shape → Nat
  | .leaf _ => 1
  | .element vector index => size vector + size index + 1
  | .binary _ lhs rhs => size lhs + size rhs + 1
  | .unary _ operand => size operand + 1
  | .call callee args => size callee + sizeAll args + 1

def sizeAll : List Shape → Nat
  | [] => 0
  | s :: ss => size s + sizeAll ss

end

mutual

/-- The sizes of the left operands of all binary operators, added up. -/
def leftWeight : Shape → Nat
  | .leaf _ => 0
  | .element vector index => leftWeight vector + leftWeight index
  | .binary _ lhs rhs => size lhs + leftWeight lhs + leftWeight rhs
  | .unary _ operand => leftWeight operand
  | .call callee args => leftWeight callee + leftWeightAll args

def leftWeightAll : List Shape → Nat
  | [] => 0
  | s :: ss => leftWeight s + leftWeightAll ss

end

end Shape

/-! ## Pending operators -/

open Reader

namespace Frame

def isOperator : Frame → Bool
  | .binary .. | .unary _ => true
  | .group | .index _ | .call .. => false

/-- The precedence that a pending operator is settled at. -/
def level (reach : UnaryOp → Nat) : Frame → Nat
  | .binary op _ => op.precedence
  | .unary op => reach op
  | .group | .index _ | .call .. => 0

end Frame

/-- Gives their last operand to all pending operators. -/
def wrapUp : List Frame → Shape → Shape
  | .binary op lhs :: pending, x => wrapUp pending (.binary op lhs x)
  | .unary op :: pending, x => wrapUp pending (.unary op x)
  | _, x => x

section
variable {reach : UnaryOp → Nat} {pending more frames : List Frame}

@[simp] theorem wrapUp_nil (x : Shape) : wrapUp [] x = x := rfl

theorem wrapUp_append (h : ∀ f ∈ pending, f.isOperator = true) (x : Shape) :
    wrapUp (pending ++ more) x = wrapUp more (wrapUp pending x) := by
  induction pending generalizing x with
  | nil => rfl
  | cons f pending ih =>
    have hrest := ih fun g hg => h g (List.mem_cons_of_mem _ hg)
    cases f with
    | binary op lhs => exact hrest _
    | unary op => exact hrest _
    | group | index | call => exact absurd (h _ List.mem_cons_self) (by simp [Frame.isOperator])

/-- Pending operators add as much to any operand. -/
theorem size_wrapUp (pending : List Frame) (x y : Shape) :
    (wrapUp pending x).size + y.size = (wrapUp pending y).size + x.size := by
  induction pending generalizing x y with
  | nil => exact Nat.add_comm _ _
  | cons f pending ih =>
    cases f with
    | binary op lhs =>
      have h := ih (.binary op lhs x) (.binary op lhs y)
      simp only [Shape.size] at h
      simp only [wrapUp]
      omega
    | unary op =>
      have h := ih (.unary op x) (.unary op y)
      simp only [Shape.size] at h
      simp only [wrapUp]
      omega
    | group | index | call => exact Nat.add_comm _ _

theorem leftWeight_wrapUp (pending : List Frame) (x y : Shape) :
    (wrapUp pending x).leftWeight + y.leftWeight = (wrapUp pending y).leftWeight + x.leftWeight := by
  induction pending generalizing x y with
  | nil => exact Nat.add_comm _ _
  | cons f pending ih =>
    cases f with
    | binary op lhs =>
      have h := ih (.binary op lhs x) (.binary op lhs y)
      simp only [Shape.leftWeight] at h
      simp only [wrapUp]
      omega
    | unary op => exact ih (.unary op x) (.unary op y)
    | group | index | call => exact Nat.add_comm _ _

theorem size_le_wrapUp (pending : List Frame) (x : Shape) : x.size ≤ (wrapUp pending x).size := by
  induction pending generalizing x with
  | nil => exact Nat.le_refl _
  | cons f pending ih =>
    cases f with
    | binary op lhs =>
      have h := ih (.binary op lhs x)
      simp only [Shape.size] at h
      simp only [wrapUp]
      omega
    | unary op =>
      have h := ih (.unary op x)
      simp only [Shape.size] at h
      simp only [wrapUp]
      omega
    | group | index | call => exact Nat.le_refl _

theorem eq_nil_of_size_wrapUp (h : ∀ f ∈ pending, f.isOperator = true) {x : Shape}
    (hs : (wrapUp pending x).size = x.size) : pending = [] := by
  cases pending with
  | nil => rfl
  | cons f pending =>
    cases f with
    | binary op lhs =>
      have hle := size_le_wrapUp pending (.binary op lhs x)
      simp only [Shape.size] at hle
      simp only [wrapUp] at hs
      omega
    | unary op =>
      have hle := size_le_wrapUp pending (.unary op x)
      simp only [Shape.size] at hle
      simp only [wrapUp] at hs
      omega
    | group | index | call => exact absurd (h _ List.mem_cons_self) (by simp [Frame.isOperator])

/-- The innermost pending operator is looser than `level`. -/
def Pends (reach : UnaryOp → Nat) (level : Nat) : List Frame → Prop
  | .binary op _ :: _ => op.precedence < level
  | .unary op :: _ => reach op < level
  | _ => True

theorem Pends.mono {low high : Nat} (h : Pends reach low frames) (hle : low ≤ high) : Pends reach high frames := by
  match frames, h with
  | [], _ | .group :: _, _ | .index _ :: _, _ | .call _ _ :: _, _ => trivial
  | .binary op _ :: _, h => exact Nat.lt_of_lt_of_le h hle
  | .unary op :: _, h => exact Nat.lt_of_lt_of_le h hle

theorem Pends.settle_eq {level : Nat} (h : Pends reach level frames) (x : Shape) :
    settle reach level frames x = (frames, x) := by
  match frames, h with
  | [], _ | .group :: _, _ | .index _ :: _, _ | .call _ _ :: _, _ => rfl
  | .binary op _ :: _, h => simp [settle, Nat.not_le.2 h]
  | .unary op :: _, h => simp [settle, Nat.not_le.2 h]

/-- Settling takes pending operators from the inside, up to the first one that is too loose. -/
theorem settle_append {level : Nat} (h : ∀ f ∈ pending, f.isOperator = true) (hp : Pends reach level frames)
    (x : Shape) :
    ∃ left y, settle reach level (pending ++ frames) x = (left ++ frames, y) ∧ (∀ f ∈ left, f.isOperator = true) ∧
      wrapUp left y = wrapUp pending x ∧ (left = [] ↔ ∀ f ∈ pending, level ≤ f.level reach) := by
  induction pending generalizing x with
  | nil => exact ⟨[], x, hp.settle_eq x, by simp, rfl, by simp⟩
  | cons f pending ih =>
    have hrest := ih fun g hg => h g (List.mem_cons_of_mem _ hg)
    cases f with
    | binary op lhs =>
      by_cases hl : level ≤ op.precedence
      · obtain ⟨left, y, hs, ho, hw, hn⟩ := hrest (.binary op lhs x)
        exact ⟨left, y, by simpa [settle, hl] using hs, ho, hw, by simp [hn, Frame.level, hl]⟩
      · exact ⟨.binary op lhs :: pending, x, by simp [settle, hl], h, rfl, by simp [Frame.level, hl]⟩
    | unary op =>
      by_cases hl : level ≤ reach op
      · obtain ⟨left, y, hs, ho, hw, hn⟩ := hrest (.unary op x)
        exact ⟨left, y, by simpa [settle, hl] using hs, ho, hw, by simp [hn, Frame.level, hl]⟩
      · exact ⟨.unary op :: pending, x, by simp [settle, hl], h, rfl, by simp [Frame.level, hl]⟩
    | group | index | call => exact absurd (h _ List.mem_cons_self) (by simp [Frame.isOperator])

/-- At the end of an operand every operator is settled. -/
theorem settle_zero (h : ∀ f ∈ pending, f.isOperator = true) (hp : Pends reach 0 frames) (x : Shape) :
    settle reach 0 (pending ++ frames) x = (frames, wrapUp pending x) := by
  obtain ⟨left, y, hs, -, hw, hn⟩ := settle_append h hp x
  obtain rfl := hn.2 fun f _ => Nat.zero_le _
  rw [hs, ← hw]
  rfl

end

/-! ## What is settled when -/

namespace Operand

/-- Up to which precedence of the operator behind it an operand is settled as a whole. Only what it ends with can
stay open. -/
def edge (reach : UnaryOp → Nat) : Operand → Nat
  | .binary op _ rhs => if rhs.loosensRightOf op then op.precedence else min op.precedence (edge reach rhs)
  | .unary op _ => reach op
  | _ => BinaryOp.pow.precedence

/-- No operand without parentheses gives a part of itself to the operator on its right. -/
def IsClear (reach : UnaryOp → Nat) (o : Operand) : Prop :=
  ∀ op lhs rhs, .binary op lhs rhs ∈ o.walk → lhs.loosensLeftOf op = false → op.precedence ≤ lhs.edge reach

variable {reach : UnaryOp → Nat}

theorem IsClear.sub {o sub : Operand} (h : o.IsClear reach) (hsub : sub ∈ o.subOperands) : sub.IsClear reach := by
  intro op lhs rhs hm
  exact h op lhs rhs (mem_walk_of_mem_subOperands hsub hm)

/-- Whether an operand is clear is decided by its parts and, at a binary operator, by the left one of them. -/
theorem isClear_of_subs {o : Operand} (hsub : ∀ sub ∈ o.subOperands, sub.IsClear reach)
    (ho : ∀ op lhs rhs, o = .binary op lhs rhs → lhs.loosensLeftOf op = false → op.precedence ≤ lhs.edge reach) :
    o.IsClear reach := by
  intro op lhs rhs hm
  rw [walk_eq_cons, List.mem_cons, List.mem_flatMap] at hm
  rcases hm with rfl | ⟨sub, hmem, hm⟩
  · exact ho op lhs rhs rfl
  · exact hsub sub hmem op lhs rhs hm

/-- A binary operator can be read where no pending operator would take its left operand. -/
def Welcome (reach : UnaryOp → Nat) (frames : List Frame) : Operand → Prop
  | .binary op _ _ => Pends reach op.precedence frames
  | _ => True

theorem welcome_of_pends {frames : List Frame} (o : Operand) (h : ∀ level, Pends reach level frames) :
    o.Welcome reach frames := by
  cases o with
  | binary op lhs rhs => exact h op.precedence
  | _ => trivial

/-- The left operand is as welcome as the operator itself, unless it stands in parentheses. -/
theorem welcome_left {op : BinaryOp} {lhs : Operand} {frames : List Frame} (h : Pends reach op.precedence frames)
    (hl : lhs.loosensLeftOf op = false) : lhs.Welcome reach frames := by
  cases lhs with
  | binary inner _ _ =>
    simp only [loosensLeftOf, decide_eq_false_iff_not, Nat.not_lt] at hl
    exact h.mono hl
  | _ => trivial

theorem welcome_right {op : BinaryOp} {rhs : Operand} (lhs : Shape) (frames : List Frame)
    (hr : rhs.loosensRightOf op = false) : rhs.Welcome reach (.binary op lhs :: frames) := by
  cases rhs with
  | binary inner _ _ =>
    simp only [loosensRightOf, decide_eq_false_iff_not, Nat.not_le] at hr
    exact hr
  | _ => trivial

end Operand

theorem BinaryOp.precedence_le_pow (op : BinaryOp) : op.precedence ≤ BinaryOp.pow.precedence := by
  cases op <;> decide

/-! ## What becomes of the tokens of an operand -/

/-- What the tokens of `o` were read as: a tree of the right size, without heavier left operands, of which some
operators may be pending. The weight is the right one if and only if the operand is clear, and then the tree is right
and `bound` is what the pending operators are settled up to. -/
structure ReadAs (reach : UnaryOp → Nat) (o : Operand) (bound : Nat) (pending : List Frame) (x : Shape) : Prop where
  operators : ∀ f ∈ pending, f.isOperator = true
  size : (wrapUp pending x).size = o.shape.size
  weight : (wrapUp pending x).leftWeight ≤ o.shape.leftWeight
  clear : (wrapUp pending x).leftWeight = o.shape.leftWeight → o.IsClear reach ∧
    ∀ level ≤ BinaryOp.pow.precedence, (∀ f ∈ pending, level ≤ f.level reach) → level ≤ bound
  exact : o.IsClear reach → wrapUp pending x = o.shape ∧ ∀ f ∈ pending, bound ≤ f.level reach

/-- How an operand is read behind any frames. Only an operation leaves something pending. -/
structure IsRead (reach : UnaryOp → Nat) (o : Operand) : Prop where
  whole : o.isOperation = false → ∀ frames, ∃ x, run reach ⟨frames, none⟩ o.tokens = some ⟨frames, some x⟩ ∧
    ReadAs reach o BinaryOp.pow.precedence [] x
  opened : ∀ frames, o.Welcome reach frames → ∃ pending x,
    run reach ⟨frames, none⟩ o.tokens = some ⟨pending ++ frames, some x⟩ ∧ ReadAs reach o (o.edge reach) pending x

section
variable {reach : UnaryOp → Nat} {o : Operand}

/-- Once all is settled, it is enough to look at the tree. -/
theorem readAs_nil {x : Shape} (hsize : x.size = o.shape.size) (hweight : x.leftWeight ≤ o.shape.leftWeight)
    (hclear : x.leftWeight = o.shape.leftWeight → o.IsClear reach) (hexact : o.IsClear reach → x = o.shape) :
    ReadAs reach o BinaryOp.pow.precedence [] x where
  operators := by simp
  size := hsize
  weight := hweight
  clear h := ⟨hclear h, fun _ hl _ => hl⟩
  exact h := ⟨hexact h, by simp⟩

theorem ReadAs.settled {bound : Nat} {pending : List Frame} {x : Shape} (h : ReadAs reach o bound pending x) :
    ReadAs reach o BinaryOp.pow.precedence [] (wrapUp pending x) :=
  readAs_nil h.size h.weight (fun e => (h.clear e).1) fun hc => (h.exact hc).1

theorem isRead_of_whole (ho : o.edge reach = BinaryOp.pow.precedence)
    (h : ∀ frames, ∃ x, run reach ⟨frames, none⟩ o.tokens = some ⟨frames, some x⟩ ∧
      ReadAs reach o BinaryOp.pow.precedence [] x) : IsRead reach o where
  whole _ := h
  opened frames _ := by
    obtain ⟨x, hrun, hx⟩ := h frames
    exact ⟨[], x, hrun, ho ▸ hx⟩

/-- In parentheses everything is settled. -/
theorem IsRead.run_group (h : IsRead reach o) (frames : List Frame) :
    ∃ x, run reach ⟨frames, none⟩ (.openGroup :: (o.tokens ++ [.closeGroup])) = some ⟨frames, some x⟩ ∧
      ReadAs reach o BinaryOp.pow.precedence [] x := by
  obtain ⟨pending, x, hrun, hx⟩ := h.opened (.group :: frames) (o.welcome_of_pends fun _ => trivial)
  have hall : settle reach 0 (pending ++ .group :: frames) x = (.group :: frames, wrapUp pending x) :=
    settle_zero hx.operators (by trivial) x
  refine ⟨wrapUp pending x, ?_, hx.settled⟩
  rw [run_cons, step_openGroup, Option.bind_some, run_append, hrun, Option.bind_some, run_cons, step_closeGroup hall]
  rfl

/-- Below a subscript, a call or a prefix operator an operand is settled at once. -/
theorem IsRead.run_grouped (h : IsRead reach o) (frames : List Frame) :
    ∃ x, run reach ⟨frames, none⟩ (groupIf o.isOperation o.tokens) = some ⟨frames, some x⟩ ∧
      ReadAs reach o BinaryOp.pow.precedence [] x := by
  cases ho : o.isOperation with
  | true => exact h.run_group frames
  | false => exact h.whole ho frames

/-- Beside a binary operator an operand is settled up to its edge, and in parentheses as a whole. -/
theorem IsRead.run_side (h : IsRead reach o) (wrap : Bool) (frames : List Frame)
    (hw : wrap = false → o.Welcome reach frames) :
    ∃ pending x, run reach ⟨frames, none⟩ (groupIf wrap o.tokens) = some ⟨pending ++ frames, some x⟩ ∧
      ReadAs reach o (if wrap then BinaryOp.pow.precedence else o.edge reach) pending x := by
  cases wrap with
  | true =>
    obtain ⟨x, hrun, hx⟩ := h.run_group frames
    exact ⟨[], x, hrun, hx⟩
  | false => exact h.opened frames (hw rfl)

theorem isRead_leaf {text : String} (htokens : o.tokens = [.leaf text]) (hshape : o.shape = .leaf text)
    (hedge : o.edge reach = BinaryOp.pow.precedence) (hsubs : o.subOperands = []) : IsRead reach o := by
  refine isRead_of_whole hedge fun frames => ⟨o.shape, by rw [htokens, hshape]; rfl, ?_⟩
  refine readAs_nil rfl (Nat.le_refl _) (fun _ => ?_) fun _ => rfl
  refine Operand.isClear_of_subs (by simp [hsubs]) ?_
  rintro op lhs rhs rfl
  cases hsubs

theorem isRead_element {vector index : Operand} (hv : IsRead reach vector) (hi : IsRead reach index) :
    IsRead reach (.element vector index) := by
  refine isRead_of_whole rfl fun frames => ?_
  obtain ⟨v, hrunv, hv⟩ := hv.run_grouped frames
  obtain ⟨pending, x, hruni, hi⟩ := hi.opened (.index v :: frames) (index.welcome_of_pends fun _ => trivial)
  have hall : settle reach 0 (pending ++ .index v :: frames) x = (.index v :: frames, wrapUp pending x) :=
    settle_zero hi.operators (by trivial) x
  have hvs : v.size = vector.shape.size := hv.size
  have hvw : v.leftWeight ≤ vector.shape.leftWeight := hv.weight
  refine ⟨.element v (wrapUp pending x), ?_, readAs_nil ?_ ?_ (fun h => ?_) fun h => ?_⟩
  · rw [Operand.tokens, run_append, hrunv, Option.bind_some, run_cons, step_openIndex, Option.bind_some, run_append,
      hruni, Option.bind_some, run_cons, step_closeIndex hall]
    rfl
  · simp only [Operand.shape, Shape.size, hi.size, hvs]
  · simp only [Operand.shape, Shape.leftWeight]
    exact Nat.add_le_add hvw hi.weight
  · simp only [Operand.shape, Shape.leftWeight] at h
    have hiw := hi.weight
    refine Operand.isClear_of_subs ?_ (by simp)
    simp only [Operand.subOperands, List.mem_cons, List.not_mem_nil, or_false]
    rintro sub (rfl | rfl)
    · exact (hv.clear (show v.leftWeight = _ by omega)).1
    · exact (hi.clear (by omega)).1
  · have hvx : v = vector.shape := (hv.exact (h.sub (by simp [Operand.subOperands]))).1
    rw [Operand.shape, hvx, (hi.exact (h.sub (by simp [Operand.subOperands]))).1]

theorem isRead_unary (op : UnaryOp) {operand : Operand} (ho : IsRead reach operand) :
    IsRead reach (.unary op operand) where
  whole h := by simp [Operand.isOperation] at h
  opened frames _ := by
    obtain ⟨x, hrun, hx⟩ := ho.run_grouped (.unary op :: frames)
    have hs : x.size = operand.shape.size := hx.size
    refine ⟨[.unary op], x, ?_, ?_⟩
    · simp [Operand.tokens, step, hrun]
    · constructor
      · simp [Frame.isOperator]
      · simp [wrapUp, Operand.shape, Shape.size, hs]
      · exact hx.weight
      · intro h
        refine ⟨Operand.isClear_of_subs ?_ (by simp), fun level _ hl => hl (.unary op) List.mem_cons_self⟩
        intro sub hsub
        rw [List.mem_singleton.1 hsub]
        exact (hx.clear h).1
      · intro h
        have he : x = operand.shape := (hx.exact (h.sub List.mem_cons_self)).1
        exact ⟨by simp [wrapUp, Operand.shape, he], by simp [Frame.level, Operand.edge]⟩

theorem Operand.edge_binary (op : BinaryOp) (lhs rhs : Operand) :
    (Operand.binary op lhs rhs).edge reach =
      min op.precedence (if rhs.loosensRightOf op then BinaryOp.pow.precedence else rhs.edge reach) := by
  rw [edge]
  split
  · exact (Nat.min_eq_left op.precedence_le_pow).symm
  · rfl

/-- `left` is what the operator did not settle of the operators that were pending in its left operand. -/
theorem ReadAs.binary {op : BinaryOp} {lhs rhs : Operand} {pending pending' left : List Frame} {x y z : Shape}
    (hl : ReadAs reach lhs (if lhs.loosensLeftOf op then BinaryOp.pow.precedence else lhs.edge reach) pending x)
    (hr : ReadAs reach rhs (if rhs.loosensRightOf op then BinaryOp.pow.precedence else rhs.edge reach) pending' z)
    (hleft : ∀ f ∈ left, f.isOperator = true) (hwrap : wrapUp left y = wrapUp pending x)
    (hnil : left = [] ↔ ∀ f ∈ pending, op.precedence ≤ f.level reach) :
    ReadAs reach (.binary op lhs rhs) ((Operand.binary op lhs rhs).edge reach) (pending' ++ .binary op y :: left) z := by
  have hshape : (Operand.binary op lhs rhs).shape = .binary op lhs.shape rhs.shape := by rw [Operand.shape]
  have hwhole : wrapUp (pending' ++ .binary op y :: left) z = wrapUp left (.binary op y (wrapUp pending' z)) :=
    wrapUp_append hr.operators z
  have hsize := size_wrapUp left (.binary op y (wrapUp pending' z)) y
  have hweight := leftWeight_wrapUp left (.binary op y (wrapUp pending' z)) y
  rw [← hwhole, hwrap] at hsize hweight
  simp only [Shape.size, hr.size, hl.size] at hsize
  simp only [Shape.leftWeight] at hweight
  have hy : y.size ≤ lhs.shape.size := by
    rw [← hl.size, ← hwrap]
    exact size_le_wrapUp left y
  have hlw := hl.weight
  have hrw := hr.weight
  refine ⟨?_, ?_, ?_, fun h => ?_, fun h => ?_⟩
  · intro f hf
    rcases List.mem_append.1 hf with hf | hf
    · exact hr.operators f hf
    · rcases List.mem_cons.1 hf with rfl | hf
      · rfl
      · exact hleft f hf
  · rw [hshape, Shape.size]
    omega
  · rw [hshape, Shape.leftWeight]
    omega
  · -- nothing of the left operand was left behind, so the operator is no tighter than anything pending there
    rw [hshape, Shape.leftWeight] at h
    have hnone : left = [] := by
      apply eq_nil_of_size_wrapUp hleft (x := y)
      rw [hwrap, hl.size]
      omega
    obtain ⟨hlclear, hledge⟩ := hl.clear (by omega)
    obtain ⟨hrclear, hredge⟩ := hr.clear (by omega)
    constructor
    · refine Operand.isClear_of_subs ?_ ?_
      · simp only [Operand.subOperands, List.mem_cons, List.not_mem_nil, or_false]
        rintro sub (rfl | rfl)
        · exact hlclear
        · exact hrclear
      · rintro _ _ _ ⟨⟩ hloose
        simpa [hloose] using hledge op.precedence op.precedence_le_pow (hnil.1 hnone)
    · intro level hlevel hall
      rw [Operand.edge_binary]
      refine Nat.le_min.2 ⟨hall (.binary op y) (by simp), hredge level hlevel fun f hf => hall f ?_⟩
      exact List.mem_append_left _ hf
  · obtain ⟨hlexact, hledge⟩ := hl.exact (h.sub (by simp [Operand.subOperands]))
    obtain ⟨hrexact, hredge⟩ := hr.exact (h.sub (by simp [Operand.subOperands]))
    have hbound : op.precedence ≤ if lhs.loosensLeftOf op then BinaryOp.pow.precedence else lhs.edge reach := by
      cases hloose : lhs.loosensLeftOf op with
      | true => exact op.precedence_le_pow
      | false => exact h op lhs rhs (Operand.self_mem_walk _) hloose
    obtain rfl : left = [] := hnil.2 fun f hf => Nat.le_trans hbound (hledge f hf)
    constructor
    · rw [hwhole, hshape, ← hlexact, ← hrexact, ← hwrap]
      rfl
    · intro f hf
      rw [Operand.edge_binary]
      rcases List.mem_append.1 hf with hf | hf
      · exact Nat.le_trans (Nat.min_le_right _ _) (hredge f hf)
      · rw [List.mem_singleton.1 hf]
        exact Nat.min_le_left _ _

theorem isRead_binary {op : BinaryOp} {lhs rhs : Operand} (hl : IsRead reach lhs) (hr : IsRead reach rhs) :
    IsRead reach (.binary op lhs rhs) where
  whole h := by simp [Operand.isOperation] at h
  opened frames hw := by
    have hp : Pends reach op.precedence frames := hw
    obtain ⟨pending, x, hrun, hx⟩ := hl.run_side (lhs.loosensLeftOf op) frames (Operand.welcome_left hp)
    obtain ⟨left, y, hsettle, hleft, hwrap, hnil⟩ := settle_append hx.operators hp x
    obtain ⟨pending', z, hrun', hz⟩ :=
      hr.run_side (rhs.loosensRightOf op) (.binary op y :: (left ++ frames)) (Operand.welcome_right y _)
    refine ⟨pending' ++ .binary op y :: left, z, ?_, hx.binary hz hleft hwrap hnil⟩
    rw [Operand.tokens, run_append, hrun, Option.bind_some, run_cons, step_binary hsettle, Option.bind_some, hrun']
    simp

/-- The arguments of a call were read one by one. -/
inductive EachReadAs (reach : UnaryOp → Nat) : List Operand → List Shape → Prop
  | nil : EachReadAs reach [] []
  | cons {arg : Operand} {args : List Operand} {x : Shape} {xs : List Shape}
      (h : ReadAs reach arg BinaryOp.pow.precedence [] x) (hs : EachReadAs reach args xs) :
      EachReadAs reach (arg :: args) (x :: xs)

namespace EachReadAs

variable {args : List Operand} {xs : List Shape}

theorem size (h : EachReadAs reach args xs) : Shape.sizeAll xs = Shape.sizeAll (Operand.shapeAll args) := by
  induction h with
  | nil => rfl
  | cons h _ ih =>
    have hsize := h.size
    simp only [wrapUp_nil] at hsize
    simp only [Operand.shapeAll, Shape.sizeAll, hsize, ih]

theorem weight (h : EachReadAs reach args xs) :
    Shape.leftWeightAll xs ≤ Shape.leftWeightAll (Operand.shapeAll args) := by
  induction h with
  | nil => exact Nat.le_refl _
  | cons h _ ih =>
    simp only [Operand.shapeAll, Shape.leftWeightAll]
    exact Nat.add_le_add h.weight ih

theorem clear (h : EachReadAs reach args xs)
    (he : Shape.leftWeightAll xs = Shape.leftWeightAll (Operand.shapeAll args)) : ∀ arg ∈ args, arg.IsClear reach := by
  induction h with
  | nil => simp
  | cons h hs ih =>
    have hweight := h.weight
    have hrest := hs.weight
    simp only [wrapUp_nil] at hweight
    simp only [Operand.shapeAll, Shape.leftWeightAll] at he
    intro other hm
    rcases List.mem_cons.1 hm with rfl | hm
    · refine (h.clear ?_).1
      simp only [wrapUp_nil]
      omega
    · exact ih (by omega) other hm

theorem exact (h : EachReadAs reach args xs) (hc : ∀ arg ∈ args, arg.IsClear reach) : xs = Operand.shapeAll args := by
  induction h with
  | nil => rfl
  | cons h _ ih =>
    rw [Operand.shapeAll, ← (h.exact (hc _ List.mem_cons_self)).1, ih fun other hm => hc other (List.mem_cons_of_mem _ hm)]
    rfl

end EachReadAs

/-- The arguments of a call are collected with a comma behind each but the last. -/
theorem run_args (callee : Shape) {args : List Operand} (h : ∀ arg ∈ args, IsRead reach arg) (frames : List Frame)
    (done : List Shape) (hdone : args = [] → done = []) :
    ∃ xs, run reach ⟨.call callee done :: frames, none⟩
        ([.comma].intercalate (Operand.tokensAll args) ++ [.closeGroup]) =
          some ⟨frames, some (.call callee (done ++ xs))⟩ ∧
      EachReadAs reach args xs := by
  induction args generalizing done with
  | nil => exact ⟨[], by simp [Operand.tokensAll, hdone rfl, step], .nil⟩
  | cons arg args ih =>
    obtain ⟨pending, x, hrun, hx⟩ :=
      (h arg List.mem_cons_self).opened (.call callee done :: frames) (arg.welcome_of_pends fun _ => trivial)
    have hall : settle reach 0 (pending ++ .call callee done :: frames) x =
        (.call callee done :: frames, wrapUp pending x) := settle_zero hx.operators (by trivial) x
    cases args with
    | nil =>
      refine ⟨[wrapUp pending x], ?_, .cons hx.settled .nil⟩
      rw [Operand.tokensAll, Operand.tokensAll, List.intercalate_singleton, run_append, hrun, Option.bind_some, run_cons,
        step_closeGroup_call hall]
      rfl
    | cons next args =>
      obtain ⟨xs, hrest, hxs⟩ :=
        ih (fun other hm => h other (List.mem_cons_of_mem _ hm)) (done ++ [wrapUp pending x]) (by simp)
      refine ⟨wrapUp pending x :: xs, ?_, .cons hx.settled hxs⟩
      rw [Operand.tokensAll, Operand.tokensAll, List.intercalate_cons_cons, List.append_assoc, List.append_assoc,
        run_append, hrun, Option.bind_some, List.singleton_append, run_cons, step_comma hall, Option.bind_some]
      simpa [Operand.tokensAll] using hrest

theorem isRead_call {callee : Operand} {args : List Operand} (hf : IsRead reach callee)
    (ha : ∀ arg ∈ args, IsRead reach arg) : IsRead reach (.call callee args) := by
  refine isRead_of_whole rfl fun frames => ?_
  obtain ⟨f, hrunf, hf⟩ := hf.run_grouped frames
  obtain ⟨xs, hruna, hxs⟩ := run_args f ha frames [] fun _ => rfl
  have hfs : f.size = callee.shape.size := hf.size
  have hfw : f.leftWeight ≤ callee.shape.leftWeight := hf.weight
  have hxw := hxs.weight
  refine ⟨.call f xs, ?_, readAs_nil ?_ ?_ (fun h => ?_) fun h => ?_⟩
  · rw [Operand.tokens, run_append, hrunf, Option.bind_some, run_cons, step_openGroup_call, Option.bind_some, hruna]
    rfl
  · simp only [Operand.shape, Shape.size, hfs, hxs.size]
  · simp only [Operand.shape, Shape.leftWeight]
    omega
  · simp only [Operand.shape, Shape.leftWeight] at h
    refine Operand.isClear_of_subs ?_ (by simp)
    intro sub hsub
    rcases List.mem_cons.1 hsub with rfl | hsub
    · exact (hf.clear (show f.leftWeight = _ by omega)).1
    · exact hxs.clear (by omega) sub hsub
  · have hfx : f = callee.shape := (hf.exact (h.sub List.mem_cons_self)).1
    rw [Operand.shape, hfx, hxs.exact fun arg harg => h.sub (List.mem_cons_of_mem _ harg)]

theorem isRead (reach : UnaryOp → Nat) (o : Operand) : IsRead reach o := by
  induction o using Operand.inductionOn with
  | const value => exact isRead_leaf rfl rfl rfl rfl
  | temp t => exact isRead_leaf rfl rfl rfl rfl
  | var v => exact isRead_leaf rfl rfl rfl rfl
  | func name => exact isRead_leaf rfl rfl rfl rfl
  | element vector index hv hi => exact isRead_element hv hi
  | binary op lhs rhs hl hr => exact isRead_binary hl hr
  | unary op operand h => exact isRead_unary op h
  | call callee args hf ha => exact isRead_call hf ha

/-- The tree of an operand comes back from its tokens if and only if the operand is clear. -/
theorem read_tokens_iff : Reader.read reach o.tokens = some o.shape ↔ o.IsClear reach := by
  obtain ⟨pending, x, hrun, hx⟩ := (isRead reach o).opened [] (o.welcome_of_pends fun _ => trivial)
  have hall : settle reach 0 (pending ++ []) x = ([], wrapUp pending x) := settle_zero hx.operators (by trivial) x
  have hread : Reader.read reach o.tokens = some (wrapUp pending x) := by
    simp only [Reader.read, hrun, Option.bind_eq_bind, Option.bind_some, hall]
  rw [hread, Option.some.injEq]
  constructor
  · intro h
    exact (hx.clear (congrArg Shape.leftWeight h)).1
  · intro h
    exact (hx.exact h).1

theorem read_tokens (h : o.IsClear reach) : Reader.read reach o.tokens = some o.shape := read_tokens_iff.2 h

end

/-! ## Prefix operators that take the next operand only -/

/-- No binary operator binds tighter than a prefix operator. -/
def tight (_ : UnaryOp) : Nat := BinaryOp.pow.precedence

theorem Operand.edge_binary_tight (op : BinaryOp) (lhs rhs : Operand) :
    (Operand.binary op lhs rhs).edge tight = op.precedence := by
  induction rhs using Operand.inductionOn generalizing op lhs with
  | binary inner l r _ ihr =>
    rw [edge]
    split
    · rfl
    · rename_i hr
      simp only [loosensRightOf, decide_eq_true_eq, Nat.not_le] at hr
      rw [ihr inner l]
      exact Nat.min_eq_left (Nat.le_of_lt hr)
  | const | temp | var | func | element | unary | call => exact Nat.min_eq_left op.precedence_le_pow

theorem isClear_tight (o : Operand) : o.IsClear tight := by
  intro op lhs rhs _ hl
  cases lhs with
  | binary inner l r =>
    simp only [Operand.loosensLeftOf, decide_eq_false_iff_not, Nat.not_lt] at hl
    rw [Operand.edge_binary_tight]
    exact hl
  | const | temp | var | func | element | unary | call => exact op.precedence_le_pow

end ThreeAddress.Code
