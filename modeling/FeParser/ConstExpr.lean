import FeParser.Ast
import FeParser.Nom

/-!
# The constant-expression parsers

`parsers.rs` from `const_expr` down to `const_group`: five mutually recursive parsers, one
per precedence level, and the group that closes the cycle. Rust needs no bound on that
recursion; here every parser takes a `fuel` argument that each nested call lowers by one
and that stops the run with `Err.outOfFuel` when it is spent. No combinator catches that
stop, so a result that is not `outOfFuel` is the source's result, and on every rendering of
an expression enough fuel gives it (`FeParser.ConstCompleteness`).

`const_expr` and `const_term` have one shape: an operand, then `(op operand)*` collected by
`many0`, folded to the left with the operator read back from each operator token's text by
`Operator::try_from(op_tok.string).unwrap()`. That shape is `leftAssoc`; the two parsers are
it at their own operators and operand.

Both `unwrap`s of a `try_from` stop the run with `Err.panic` when the token's text names no
operator.
-/

namespace FeParser

variable {α : Type}

/-- `unwrap`: the value, or a panic. -/
def unwrap (msg : String) : Option α → Except Err α
  | some a => .ok a
  | none => .error (.panic msg)

/-- `unwrap` succeeds exactly on `Some`, with its value. -/
@[simp] theorem unwrap_eq_ok {msg : String} {o : Option α} {a : α} :
    unwrap msg o = .ok a ↔ o = some a := by
  cases o <;> simp [unwrap]

/-- One pass of the `for (op_tok, right_expr) in tail` loop: the node joining the
expression so far to the next operand. -/
def binOpStep (leftExpr : Spanned ConstExpr) (item : Token × Spanned ConstExpr) :
    Except Err (Spanned ConstExpr) := do
  let op ← unwrap "Operator::try_from" (Operator.tryFrom item.1.string)
  pure ⟨.binOp leftExpr op item.2, Span.fromPair leftExpr.span item.2.span⟩

/-- One step of the left fold succeeds exactly when `Operator::try_from` reads the operator token,
and builds the binary node spanning both operands. -/
theorem binOpStep_eq_ok {l e : Spanned ConstExpr} {t : Token} {r : Spanned ConstExpr} :
    binOpStep l (t, r) = .ok e ↔
      ∃ o, Operator.tryFrom t.string = some o ∧
        e = ⟨.binOp l o r, Span.fromPair l.span r.span⟩ := by
  simp only [binOpStep, bind_eq_ok, unwrap_eq_ok, pure, Except.pure, Except.ok.injEq]
  exact exists_congr fun _ => and_congr_right fun _ => eq_comm

/-- The `for` loop of `const_expr` and `const_term`: fold the tail to the left. -/
def foldBinOps (head : Spanned ConstExpr) (tail : List (Token × Spanned ConstExpr)) :
    Except Err (Spanned ConstExpr) :=
  tail.foldlM binOpStep head

/-- With no operator items left, the fold returns the head. -/
theorem foldBinOps_nil (head : Spanned ConstExpr) : foldBinOps head [] = .ok head := rfl

/-- Folding one more item is one more step from the fold so far. -/
theorem foldBinOps_append_single {head e : Spanned ConstExpr}
    {items : List (Token × Spanned ConstExpr)} (h : foldBinOps head items = .ok e)
    (x : Token × Spanned ConstExpr) : foldBinOps head (items ++ [x]) = binOpStep e x := by
  simp only [foldBinOps] at h ⊢
  rw [List.foldlM_append, h]
  simp [List.foldlM_cons, List.foldlM_nil, bind, Except.bind, pure, Except.pure]
  split <;> simp_all

/-- The body of `const_expr` and `const_term`: an operand, then `(op operand)*`, folded to
the left. -/
def leftAssoc (operand : Parser (Spanned ConstExpr)) (item : Parser (Token × Spanned ConstExpr)) :
    Parser (Spanned ConstExpr) := fun input => do
  let (input, head) ← operand input
  let (input, tail) ← many0 item input
  let leftExpr ← foldBinOps head tail
  pure (input, leftExpr)

mutual

/-- `const_expr := const_term (("+" | "-") const_term)*`. -/
def constExpr : Nat → Parser (Spanned ConstExpr)
  | 0 => fun _ => .error .outOfFuel
  | fuel + 1 => leftAssoc (constTerm fuel)
      (alt (pair (token (.punct .plus)) (constTerm fuel))
        (pair (token (.punct .minus)) (constTerm fuel)))

/-- `const_term := const_factor (("*" | "/" | "%") const_factor)*`. -/
def constTerm : Nat → Parser (Spanned ConstExpr)
  | 0 => fun _ => .error .outOfFuel
  | fuel + 1 => leftAssoc (constFactor fuel)
      (alt (pair (token (.punct .star)) (constFactor fuel))
        (alt (pair (token (.punct .slash)) (constFactor fuel))
          (pair (token (.punct .percent)) (constFactor fuel))))

/-- `const_factor := ("+" | "-" | "~") const_factor | const_power`. -/
def constFactor : Nat → Parser (Spanned ConstExpr)
  | 0 => fun _ => .error .outOfFuel
  | fuel + 1 =>
    let unaryOp : Parser (Spanned ConstExpr) := fun input => do
      let (input, (opTok, operand)) ← pair
        (alt (token (.punct .plus)) (alt (token (.punct .minus)) (token (.punct .tilde))))
        (constFactor fuel) input
      let op ← unwrap "UnaryOp::try_from" (UnaryOp.tryFrom opTok.string)
      pure (input, ⟨.unaryOp op operand, Span.fromPair opTok.span operand.span⟩)
    alt unaryOp (constPower fuel)

/-- `const_power := const_atom "**" const_factor | const_atom`. -/
def constPower : Nat → Parser (Spanned ConstExpr)
  | 0 => fun _ => .error .outOfFuel
  | fuel + 1 =>
    let binOp : Parser (Spanned ConstExpr) :=
      map (separatedPair (constAtom fuel) (token (.punct .starStar)) (constFactor fuel))
        fun (left, right) => ⟨.binOp left .pow right, Span.fromPair left.span right.span⟩
    alt binOp (constAtom fuel)

/-- `const_atom := const_group | NAME | NUM`. -/
def constAtom : Nat → Parser (Spanned ConstExpr)
  | 0 => fun _ => .error .outOfFuel
  | fuel + 1 => alt (constGroup fuel)
      (alt (map nameToken fun t => ⟨.name t.string, t.span⟩)
        (map numToken fun t => ⟨.num t.string, t.span⟩))

/-- `const_group := "(" const_expr ")"`: the inner node, spanning the parentheses. -/
def constGroup : Nat → Parser (Spanned ConstExpr)
  | 0 => fun _ => .error .outOfFuel
  | fuel + 1 => fun input => do
    let (input, oParen) ← token (.punct .openParen) input
    let (input, spannedExpr) ← constExpr fuel input
    let (input, cParen) ← token (.punct .closeParen) input
    pure (input, ⟨spannedExpr.node, Span.fromPair oParen.span cParen.span⟩)

end

end FeParser
