import FeParser.Span

/-!
# The syntax tree

The nodes the parsers build. `ast.rs` is not part of the sources at hand: the types are
modelled from the spec's data model and from how `parsers.rs` builds them. Every node that
the parsers wrap in `Spanned` is wrapped here too, so each has a span of its own.

`EventField.typ` is built as `typ.into()` from the type's name token; the spec shows it as
the type's name (`EventField{name:"x",typ:"u8"}`), which is what it is here.

Two trees are compared *up to spans* by `erase`, which resets every span to `Span.zero`.
-/

namespace FeParser

/-- One name of an `import` statement: `foo.bar as baz`. -/
structure SimpleImportName where
  path : List String
  «alias» : Option String
deriving DecidableEq, Repr

/-- The module part of a `from` import: absolute, or relative to `parentLevel` parents. -/
inductive FromImportPath where
  | absolute (path : List String)
  | relative (parentLevel : Nat) (path : List String)
deriving DecidableEq, Repr

/-- One imported name of a `from` import: `b as c`. -/
structure FromImportName where
  name : String
  «alias» : Option String
deriving DecidableEq, Repr

/-- The names of a `from` import: `*`, or a list. -/
inductive FromImportNames where
  | star
  | list (names : List (Spanned FromImportName))
deriving DecidableEq, Repr

/-- A field of an event: `x: u8`. -/
structure EventField where
  name : String
  typ : String
deriving DecidableEq, Repr

/-- A statement in a contract body. -/
inductive ContractStmt where
  | eventDef (name : String) (fields : List (Spanned EventField))
deriving DecidableEq, Repr

/-- A statement at module level. -/
inductive ModuleStmt where
  | simpleImport (names : List (Spanned SimpleImportName))
  | fromImport (path : Spanned FromImportPath) (names : Spanned FromImportNames)
  | contractDef (name : String) (body : List (Spanned ContractStmt))
deriving DecidableEq, Repr

/-- A module: its statements in order. -/
structure Module where
  body : List (Spanned ModuleStmt)
deriving DecidableEq, Repr

/-- The binary operators of constant expressions. -/
inductive Operator where
  | add | sub | mul | div | mod | pow
deriving DecidableEq, Repr

/-- The unary operators of constant expressions. -/
inductive UnaryOp where
  | uPlus | uMinus | invert
deriving DecidableEq, Repr

/-- Constant expressions, evaluable at compile time. -/
inductive ConstExpr where
  | name (name : String)
  | num (num : String)
  | binOp (left : Spanned ConstExpr) (op : Operator) (right : Spanned ConstExpr)
  | unaryOp (op : UnaryOp) (operand : Spanned ConstExpr)

namespace Operator

/-- Modelled from the spec: `Operator::try_from(&str)`. -/
def tryFrom : String → Option Operator
  | "+" => some add
  | "-" => some sub
  | "*" => some mul
  | "/" => some div
  | "%" => some mod
  | "**" => some pow
  | _ => none

end Operator

namespace UnaryOp

/-- Modelled from the spec: `UnaryOp::try_from(&str)`. -/
def tryFrom : String → Option UnaryOp
  | "+" => some uPlus
  | "-" => some uMinus
  | "~" => some invert
  | _ => none

end UnaryOp

/-! ### Trees up to spans -/

/-- Forget the span of a node whose contents carry none. -/
def Spanned.erase {α : Type} (x : Spanned α) : Spanned α := ⟨x.node, Span.zero⟩

/-- Forget every span of the names of a `from` import. -/
def FromImportNames.erase : FromImportNames → FromImportNames
  | star => star
  | list names => list (names.map Spanned.erase)

/-- Forget every span of a contract statement. -/
def ContractStmt.erase : ContractStmt → ContractStmt
  | eventDef name fields => eventDef name (fields.map Spanned.erase)

/-- Forget every span of a module statement. -/
def ModuleStmt.erase : ModuleStmt → ModuleStmt
  | simpleImport names => simpleImport (names.map Spanned.erase)
  | fromImport path names => fromImport path.erase ⟨names.node.erase, Span.zero⟩
  | contractDef name body => contractDef name (body.map fun s => ⟨s.node.erase, Span.zero⟩)

/-- Forget every span of a module. -/
def Module.erase (m : Spanned Module) : Spanned Module :=
  ⟨⟨m.node.body.map fun s => ⟨s.node.erase, Span.zero⟩⟩, Span.zero⟩

mutual

/-- Forget every span inside a constant expression. -/
def ConstExpr.erase : ConstExpr → ConstExpr
  | .name n => .name n
  | .num n => .num n
  | .binOp l op r => .binOp (ConstExpr.eraseSpanned l) op (ConstExpr.eraseSpanned r)
  | .unaryOp op e => .unaryOp op (ConstExpr.eraseSpanned e)

/-- Forget every span of a spanned constant expression. -/
def ConstExpr.eraseSpanned : Spanned ConstExpr → Spanned ConstExpr
  | ⟨e, _⟩ => ⟨e.erase, Span.zero⟩

end

/-- Erasing a spanned expression erases its node and puts the zero span in place of its own. -/
theorem ConstExpr.eraseSpanned_eq (x : Spanned ConstExpr) :
    ConstExpr.eraseSpanned x = ⟨x.node.erase, Span.zero⟩ := by
  cases x; rfl

/-- Two binary nodes agree up to spans when their operands do. -/
theorem ConstExpr.erase_binOp_congr {l l' r r' : Spanned ConstExpr} {o : Operator}
    (hl : l.node.erase = l'.node.erase) (hr : r.node.erase = r'.node.erase) :
    (ConstExpr.binOp l o r).erase = (ConstExpr.binOp l' o r').erase := by
  simp only [ConstExpr.erase, ConstExpr.eraseSpanned_eq, hl, hr]

/-- Two unary nodes with the same operator agree up to spans when their operands do. -/
theorem ConstExpr.erase_unaryOp_congr {x x' : Spanned ConstExpr} {u : UnaryOp}
    (hx : x.node.erase = x'.node.erase) :
    (ConstExpr.unaryOp u x).erase = (ConstExpr.unaryOp u x').erase := by
  simp only [ConstExpr.erase, ConstExpr.eraseSpanned_eq, hx]

end FeParser
