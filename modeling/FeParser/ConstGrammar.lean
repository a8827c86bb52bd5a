import FeParser.ConstExpr
import FeParser.Grammar

/-!
# The grammar of constant expressions

The productions of spec §4.3, one relation indexed by precedence level:

```
const_expr   := const_term   (("+"|"-") const_term)*
const_term   := const_factor (("*"|"/"|"%") const_factor)*
const_factor := ("+"|"-"|"~") const_factor | const_power
const_power  := const_atom "**" const_factor | const_atom
const_atom   := "(" const_expr ")" | NAME | NUM
```

The two repetitions are written left-recursively, which is the tree they denote: `a - b - c`
derives `(a - b) - c`. An operator is a token of the level's kinds whose text names the
operator (`Operator::try_from`); `**` is `Pow` by its kind alone, as in `const_power`. A
group derives the node of its inner expression. Spans follow a policy `p`, as in
`FeParser.Grammar`.

`Grammar.Follows lvl rest` says that the first token of `rest` cannot continue an
expression of level `lvl`; the parser of that level then stops in front of `rest`.
-/

namespace FeParser

namespace Grammar

/-- The precedence levels, loosest first. -/
inductive Level where
  | expr
  | term
  | factor
  | power
  | atom
deriving DecidableEq, Repr

/-- The kinds of `("+" | "-")`. -/
def IsSumOp (k : TokenKind) : Prop := k = .punct .plus ∨ k = .punct .minus

/-- The kinds of `("*" | "/" | "%")`. -/
def IsProductOp (k : TokenKind) : Prop :=
  k = .punct .star ∨ k = .punct .slash ∨ k = .punct .percent

/-- The kinds of the unary operators `("+" | "-" | "~")`. -/
def IsUnaryOp (k : TokenKind) : Prop :=
  k = .punct .plus ∨ k = .punct .minus ∨ k = .punct .tilde

variable (p : List Token → Span → Prop)

/-- `Const p lvl ts x`: the tokens `ts` derive the expression `x` at level `lvl`. -/
inductive Const : Level → List Token → Spanned ConstExpr → Prop
  | sum {ts us : List Token} {t : Token} {l r : Spanned ConstExpr} {o : Operator} {s : Span} :
      Const .expr ts l → IsSumOp t.kind → Operator.tryFrom t.string = some o →
      Const .term us r → p (ts ++ t :: us) s → Const .expr (ts ++ t :: us) ⟨.binOp l o r, s⟩
  | term {ts : List Token} {x : Spanned ConstExpr} : Const .term ts x → Const .expr ts x
  | product {ts us : List Token} {t : Token} {l r : Spanned ConstExpr} {o : Operator}
      {s : Span} : Const .term ts l → IsProductOp t.kind → Operator.tryFrom t.string = some o →
      Const .factor us r → p (ts ++ t :: us) s → Const .term (ts ++ t :: us) ⟨.binOp l o r, s⟩
  | factor {ts : List Token} {x : Spanned ConstExpr} : Const .factor ts x → Const .term ts x
  | unary {t : Token} {ts : List Token} {u : UnaryOp} {x : Spanned ConstExpr} {s : Span} :
      IsUnaryOp t.kind → UnaryOp.tryFrom t.string = some u → Const .factor ts x →
      p (t :: ts) s → Const .factor (t :: ts) ⟨.unaryOp u x, s⟩
  | power {ts : List Token} {x : Spanned ConstExpr} : Const .power ts x → Const .factor ts x
  | pow {ts us : List Token} {t : Token} {l r : Spanned ConstExpr} {s : Span} :
      Const .atom ts l → t.kind = .punct .starStar → Const .factor us r →
      p (ts ++ t :: us) s → Const .power (ts ++ t :: us) ⟨.binOp l .pow r, s⟩
  | atom {ts : List Token} {x : Spanned ConstExpr} : Const .atom ts x → Const .power ts x
  | group {o c : Token} {ts : List Token} {x : Spanned ConstExpr} {s : Span} :
      o.kind = .punct .openParen → Const .expr ts x → c.kind = .punct .closeParen →
      p (o :: (ts ++ [c])) s → Const .atom (o :: (ts ++ [c])) ⟨x.node, s⟩
  | name {t : Token} {s : Span} : t.kind.isName = true → p [t] s →
      Const .atom [t] ⟨.name t.string, s⟩
  | num {t : Token} {s : Span} : t.kind = .num → p [t] s → Const .atom [t] ⟨.num t.string, s⟩

/-- The token kinds that continue an expression of level `lvl` when they follow it. -/
def Continues : Level → TokenKind → Prop
  | .expr, k => IsSumOp k ∨ IsProductOp k ∨ k = .punct .starStar
  | .term, k => IsProductOp k ∨ k = .punct .starStar
  | .factor, k => k = .punct .starStar
  | .power, k => k = .punct .starStar
  | .atom, _ => False

/-- `rest` may follow an expression of level `lvl`: its first token does not continue it. -/
def Follows (lvl : Level) (rest : List Token) : Prop :=
  ∀ t ∈ rest.head?, ¬ Continues lvl t.kind

/-! ### Spans -/

section Spans

variable {p q : List Token → Span → Prop}

/-- A derivation of a constant expression at any level under `p` is one under `q`, where `q` is
weaker on its tokens. -/
theorem Const.mono {lvl : Level} {ts : List Token} {x : Spanned ConstExpr}
    (h : Const p lvl ts x) (hw : Weaker p q ts) : Const q lvl ts x := by
  induction h with
  | sum _ hk ho _ hs ihl ihr => exact .sum (ihl hw.left) hk ho (ihr hw.right.tail) (hw.apply hs)
  | term _ ih => exact .term (ih hw)
  | product _ hk ho _ hs ihl ihr =>
    exact .product (ihl hw.left) hk ho (ihr hw.right.tail) (hw.apply hs)
  | factor _ ih => exact .factor (ih hw)
  | unary hk hu _ hs ih => exact .unary hk hu (ih hw.tail) (hw.apply hs)
  | power _ ih => exact .power (ih hw)
  | pow _ hk _ hs ihl ihr => exact .pow (ihl hw.left) hk (ihr hw.right.tail) (hw.apply hs)
  | atom _ ih => exact .atom (ih hw)
  | group ho _ hc hs ih => exact .group ho (ih hw.tail.left) hc (hw.apply hs)
  | name hn hs => exact .name hn (hw.apply hs)
  | num hn hs => exact .num hn (hw.apply hs)

/-- Every derivation starts with a token that carries text. -/
theorem Const.nonLayout_ne_nil {lvl : Level} {ts : List Token} {x : Spanned ConstExpr}
    (h : Const p lvl ts x) : nonLayout ts ≠ [] := by
  induction h with
  | sum _ _ _ _ _ ih | product _ _ _ _ _ ih | pow _ _ _ _ ih _ => exact nonLayout_append_ne_nil ih
  | term _ ih | factor _ ih | power _ ih | atom _ ih => exact ih
  | @unary t _ _ _ _ hk => exact nonLayout_cons_ne_nil (by rcases hk with h | h | h <;> simp [h, TokenKind.isLayout]) _
  | @group o _ _ _ _ ho => exact nonLayout_cons_ne_nil (by simp [ho, TokenKind.isLayout]) _
  | @name t _ hn => exact nonLayout_cons_ne_nil (isLayout_of_isName hn) _
  | @num t _ hn => exact nonLayout_cons_ne_nil (by simp [hn, TokenKind.isLayout]) _

/-- The span of a derived expression obeys the policy. -/
theorem Const.span {lvl : Level} {ts : List Token} {x : Spanned ConstExpr}
    (h : Const p lvl ts x) : p ts x.span := by
  induction h with
  | sum _ _ _ _ hs | product _ _ _ _ hs | unary _ _ _ hs | pow _ _ _ hs | group _ _ _ hs
  | name _ hs | num _ hs => exact hs
  | term _ ih | factor _ ih | power _ ih | atom _ ih => exact ih

end Spans

end Grammar

end FeParser
