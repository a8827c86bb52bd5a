import FeParser.Span

/-!
# Tokens

The token kinds shared by the lexer (`tokenizer/tokenize.rs`) and the parser
(`parsers.rs`). `tokenizer/types.rs` is not part of the sources at hand; the kinds below are
the ones the two files use, together with the operator set that the lexer's pseudo-token
pattern can match (`FeParser.Lexer.Pattern`), so that `TokenKind::try_from` is modelled
from the spec as the table `TokenKind.tryFrom`.

The parser reads three fields of a token: its `kind`, its `string` (the text it was read
from) and its `span`. `Name` carries its interned symbol, which `name_string` compares
against contextual keywords; the parser never looks inside `Num`, `Str` or `Comment`
(`Num(_)`), so those carry nothing here.

## Main definitions

* `TokenKind`, `Token`, and `TokenKind.tryFrom`, the operator table.
* `TokenKind.isLayout`: the kinds that shape statements but carry no source text of their
  own (`Newline`, `Indent`, `Dedent`, `EndMarker`).
* `Token.Ordered`: a token sequence whose spans are well formed, in source order and
  pairwise disjoint.
-/

namespace FeParser

/-- Punctuation and operator tokens: everything `TokenKind::try_from` reads from the text of
an operator. -/
inductive Punct where
  | openParen
  | closeParen
  | openBracket
  | closeBracket
  | openBrace
  | closeBrace
  | dot
  | ellipsis
  | comma
  | colon
  | semi
  | plus
  | minus
  | star
  | slash
  | percent
  | starStar
  | slashSlash
  | tilde
  | amper
  | vbar
  | circumflex
  | atSign
  | leftShift
  | rightShift
  | rarrow
  | equal
  | eqEqual
  | notEqual
  | less
  | greater
  | lessEqual
  | greaterEqual
  | plusEqual
  | minusEqual
  | starEqual
  | slashEqual
  | percentEqual
  | amperEqual
  | vbarEqual
  | circumflexEqual
  | atEqual
  | starStarEqual
  | slashSlashEqual
  | leftShiftEqual
  | rightShiftEqual
deriving DecidableEq, Repr

/-- The kinds of token. -/
inductive TokenKind where
  | name (s : String)
  | num
  | str
  | indent
  | dedent
  | newline
  | whitespaceNewline
  | comment
  | endMarker
  | errorToken
  | punct (p : Punct)
deriving DecidableEq, Repr

namespace TokenKind

/-- Modelled from the spec: the operator table of `TokenKind::try_from(&str)`, the text of
each operator and punctuation token. It holds every text that the operator alternatives of
the pseudo-token pattern match. -/
def punctTable : List (String × Punct) :=
  [("(", .openParen), (")", .closeParen), ("[", .openBracket), ("]", .closeBracket),
   ("\x7b", .openBrace), ("\x7d", .closeBrace), (".", .dot), ("...", .ellipsis), (",", .comma),
   (":", .colon), (";", .semi), ("+", .plus), ("-", .minus), ("*", .star), ("/", .slash),
   ("%", .percent), ("**", .starStar), ("//", .slashSlash), ("~", .tilde), ("&", .amper),
   ("|", .vbar), ("^", .circumflex), ("@", .atSign), ("<<", .leftShift), (">>", .rightShift),
   ("->", .rarrow), ("=", .equal), ("==", .eqEqual), ("!=", .notEqual), ("<", .less),
   (">", .greater), ("<=", .lessEqual), (">=", .greaterEqual), ("+=", .plusEqual),
   ("-=", .minusEqual), ("*=", .starEqual), ("/=", .slashEqual), ("%=", .percentEqual),
   ("&=", .amperEqual), ("|=", .vbarEqual), ("^=", .circumflexEqual), ("@=", .atEqual),
   ("**=", .starStarEqual), ("//=", .slashSlashEqual), ("<<=", .leftShiftEqual),
   (">>=", .rightShiftEqual)]

/-- Modelled from the spec: `TokenKind::try_from(&str)`, the kind of an operator or
punctuation token read from its text. -/
def tryFrom (s : String) : Option TokenKind := (punctTable.lookup s).map punct

/-- `TokenKind::try_from` reads only operators and punctuation. -/
theorem tryFrom_eq_some {s : String} {k : TokenKind} (h : tryFrom s = some k) :
    ∃ p, k = punct p := by
  obtain ⟨p, -, rfl⟩ := Option.map_eq_some'.1 h
  exact ⟨p, rfl⟩

/-- `Name(_)`. -/
def isName : TokenKind → Bool
  | name _ => true
  | _ => false

/-- The kinds that carry no source text of their own and only shape statements. -/
def isLayout : TokenKind → Bool
  | newline | indent | dedent | endMarker => true
  | _ => false

/-- The opening brackets `(`, `[` and `{`. -/
def isOpening : TokenKind → Bool
  | punct .openParen | punct .openBracket | punct .openBrace => true
  | _ => false

/-- The closing brackets `)`, `]` and `}`. -/
def isClosing : TokenKind → Bool
  | punct .closeParen | punct .closeBracket | punct .closeBrace => true
  | _ => false

/-- A `Name` kind is a name, whatever its text. -/
@[simp] theorem isName_name (s : String) : (name s).isName = true := rfl

/-- The kinds that `isName` accepts are exactly the `Name` kinds. -/
theorem isName_iff {k : TokenKind} : k.isName = true ↔ ∃ s, k = name s := by
  cases k <;> simp [isName]

end TokenKind

/-- A token: its kind, the text it was read from, and its span. -/
structure Token where
  kind : TokenKind
  string : String
  span : Span
deriving DecidableEq, Repr

namespace Token

/-- The spans of `ts` are well formed and in source order, none overlapping the next. -/
def Ordered (ts : List Token) : Prop :=
  (∀ t ∈ ts, t.span.WellFormed) ∧ ts.Chain' (fun a b => a.span.Before b.span)

/-- A prefix of an ordered sequence is ordered. -/
theorem Ordered.of_append_left {ts us : List Token} (h : Ordered (ts ++ us)) : Ordered ts :=
  ⟨fun t ht => h.1 t (List.mem_append_left _ ht), h.2.left_of_append⟩

/-- A suffix of an ordered sequence is ordered. -/
theorem Ordered.of_append_right {ts us : List Token} (h : Ordered (ts ++ us)) :
    Ordered us :=
  ⟨fun t ht => h.1 t (List.mem_append_right _ ht), h.2.right_of_append⟩

/-- Every contiguous segment of an ordered sequence is ordered: the tokens a parser reads for one
node keep the order of the whole stream. -/
theorem Ordered.segment {ts us : List Token} (h : Ordered ts) (hs : us <:+: ts) : Ordered us := by
  obtain ⟨a, c, rfl⟩ := hs
  exact h.of_append_left.of_append_right

/-- An operator or punctuation token is spelled as its kind: `TokenKind::try_from` reads the
kind back from the token's text. -/
def Spelled (t : Token) : Prop := ∀ p, t.kind = .punct p → TokenKind.tryFrom t.string = some t.kind

end Token

/-! ### Fallible steps

The lexer and the parsers are both written in `Except`: a sequence of steps succeeds when
each of them does. -/

section Except

variable {ε α β : Type}

/-- A sequence of two fallible steps succeeds with `b` exactly when the first succeeds with some `a`
and the second, run on `a`, succeeds with `b`. -/
theorem bind_eq_ok {x : Except ε α} {f : α → Except ε β} {b : β} :
    x >>= f = .ok b ↔ ∃ a, x = .ok a ∧ f a = .ok b := by
  cases x <;> simp [bind, Except.bind]

/-- A step that has succeeded passes its value on to the next. -/
@[simp] theorem ok_bind (a : α) (f : α → Except ε β) :
    (Except.ok a : Except ε α) >>= f = f a := rfl

end Except

end FeParser
