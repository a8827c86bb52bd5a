import FeParser.Ast
import FeParser.Nom

/-!
# The module-level parsers

`parsers.rs` from `dots_to_int` up to `file_input`, one definition per parser, under the
source's names and in the order they depend on each other. Each sequence of
`let (input, x) = p(input)?;` is a `do` block in `Except`, and each span is built with
`Span.fromPair` of the same two parts as in the source.

`many1` returns a list that is never empty (`FeParser.many1`), which is why the source's
`body.first().unwrap()` and `body.last().unwrap()` are total here.
-/

namespace FeParser

/-- The width of a dot token of a relative import: `.` counts one parent level, `...`
three. -/
def dotWidth (t : Token) : Nat := if t.kind = .punct .dot then 1 else 3

/-- `dots_to_int`: a run of `.` and `...` tokens and the number of parent levels it
denotes. -/
def dotsToInt : Parser (Spanned Nat) := fun input => do
  let (input, toks) ← many1 (alt (token (.punct .dot)) (token (.punct .ellipsis))) input
  let value := (toks.val.map dotWidth).sum - 1
  let span := Span.fromPair (toks.val.head toks.property).span (toks.val.getLast toks.property).span
  pure (input, ⟨value, span⟩)

/-- `dotted_name`. -/
def dottedName : Parser (Spanned (List String)) := fun input => do
  let (input, firstPart) ← nameToken input
  let (input, otherParts) ← many0 (preceded (token (.punct .dot)) nameToken) input
  let path := firstPart.string :: otherParts.map (·.string)
  let span := match otherParts.getLast? with
    | none => firstPart.span
    | some lastPart => Span.fromPair firstPart.span lastPart.span
  pure (input, ⟨path, span⟩)

/-- `from_import_name`. -/
def fromImportName : Parser (Spanned FromImportName) := fun input => do
  let (input, name) ← nameToken input
  let (input, «alias») ← opt (preceded (nameString "as") nameToken) input
  let span := match «alias» with
    | some aliasTok => Span.fromPair name.span aliasTok.span
    | none => name.span
  pure (input, ⟨⟨name.string, «alias».map (·.string)⟩, span⟩)

/-- `from_import_names_list`. -/
def fromImportNamesList : Parser (Spanned FromImportNames) := fun input => do
  let (input, firstName) ← fromImportName input
  let (input, otherNames) ← many0 (preceded (token (.punct .comma)) fromImportName) input
  let (input, commaTok) ← opt (token (.punct .comma)) input
  let names := firstName :: otherNames
  let span := match commaTok with
    | some tok => Span.fromPair firstName.span tok.span
    | none => Span.fromPair firstName.span (names.getLast (List.cons_ne_nil _ _)).span
  pure (input, ⟨.list names, span⟩)

/-- `from_import_names_parens`. -/
def fromImportNamesParens : Parser (Spanned FromImportNames) := fun input => do
  let (input, oParen) ← token (.punct .openParen) input
  let (input, names) ← fromImportNamesList input
  let (input, cParen) ← token (.punct .closeParen) input
  pure (input, ⟨names.node, Span.fromPair oParen.span cParen.span⟩)

/-- `from_import_names_star`. -/
def fromImportNamesStar : Parser (Spanned FromImportNames) := fun input => do
  let (input, star) ← token (.punct .star) input
  pure (input, ⟨.star, star.span⟩)

/-- `from_import_names`. -/
def fromImportNames : Parser (Spanned FromImportNames) :=
  alt fromImportNamesStar (alt fromImportNamesParens fromImportNamesList)

/-- `from_import_sub_path`. -/
def fromImportSubPath : Parser (Spanned FromImportPath) := fun input => do
  let (input, optParentLevel) ← opt dotsToInt input
  let (input, dottedName) ← dottedName input
  let result : Spanned FromImportPath := match optParentLevel with
    | some parentLevel =>
      ⟨.relative parentLevel.node dottedName.node,
        Span.fromPair parentLevel.span dottedName.span⟩
    | none => ⟨.absolute dottedName.node, dottedName.span⟩
  pure (input, result)

/-- `from_import_sub_alt`: a `from` import naming a module below the parents. -/
def fromImportSubAlt : Parser (Spanned ModuleStmt) := fun input => do
  let (input, fromKw) ← nameString "from" input
  let (input, path) ← fromImportSubPath input
  let (input, _) ← nameString "import" input
  let (input, names) ← fromImportNames input
  pure (input, ⟨.fromImport path names, Span.fromPair fromKw.span names.span⟩)

/-- `from_import_parent_alt`: a `from` import whose path is only parent levels. -/
def fromImportParentAlt : Parser (Spanned ModuleStmt) := fun input => do
  let (input, fromKw) ← nameString "from" input
  let (input, parentLevel) ← dotsToInt input
  let (input, _) ← nameString "import" input
  let (input, names) ← fromImportNames input
  let path : Spanned FromImportPath := ⟨.relative parentLevel.node [], parentLevel.span⟩
  pure (input, ⟨.fromImport path names, Span.fromPair fromKw.span names.span⟩)

/-- `from_import`: the parent-only alternative first. -/
def fromImport : Parser (Spanned ModuleStmt) := alt fromImportParentAlt fromImportSubAlt

/-- `simple_import_name`. -/
def simpleImportName : Parser (Spanned SimpleImportName) := fun input => do
  let (input, path) ← dottedName input
  let (input, «alias») ← opt (preceded (nameString "as") nameToken) input
  let span := match «alias» with
    | some aliasTok => Span.fromPair path.span aliasTok.span
    | none => path.span
  pure (input, ⟨⟨path.node, «alias».map (·.string)⟩, span⟩)

/-- `simple_import`. -/
def simpleImport : Parser (Spanned ModuleStmt) := fun input => do
  let (input, importKw) ← nameString "import" input
  let (input, firstName) ← simpleImportName input
  let (input, otherNames) ← many0 (preceded (token (.punct .comma)) simpleImportName) input
  let result := firstName :: otherNames
  let span := Span.fromPair importKw.span (result.getLast (List.cons_ne_nil _ _)).span
  pure (input, ⟨.simpleImport result, span⟩)

/-- `import_stmt`: either import form, then a significant newline. -/
def importStmt : Parser (Spanned ModuleStmt) :=
  terminated (alt simpleImport fromImport) newlineToken

/-- `event_field`. -/
def eventField : Parser (Spanned EventField) := fun input => do
  let (input, name) ← nameToken input
  let (input, _) ← token (.punct .colon) input
  let (input, typ) ← nameToken input
  let (input, _) ← newlineToken input
  pure (input, ⟨⟨name.string, typ.string⟩, Span.fromPair name.span typ.span⟩)

/-- `event_def`. -/
def eventDef : Parser (Spanned ContractStmt) := fun input => do
  let (input, eventKw) ← nameString "event" input
  let (input, name) ← nameToken input
  let (input, _) ← token (.punct .colon) input
  let (input, _) ← newlineToken input
  let (input, _) ← indentToken input
  let (input, fields) ← many1 eventField input
  let (input, _) ← dedentToken input
  let lastField := fields.val.getLast fields.property
  pure (input, ⟨.eventDef name.string fields.val, Span.fromPair eventKw.span lastField.span⟩)

/-- `contract_stmt`. -/
def contractStmt : Parser (Spanned ContractStmt) := eventDef

/-- `contract_def`. -/
def contractDef : Parser (Spanned ModuleStmt) := fun input => do
  let (input, contractKw) ← nameString "contract" input
  let (input, name) ← nameToken input
  let (input, _) ← token (.punct .colon) input
  let (input, _) ← newlineToken input
  let (input, _) ← indentToken input
  let (input, body) ← many1 contractStmt input
  let (input, _) ← dedentToken input
  let lastStmt := body.val.getLast body.property
  pure (input, ⟨.contractDef name.string body.val, Span.fromPair contractKw.span lastStmt.span⟩)

/-- `module_stmt`. -/
def moduleStmt : Parser (Spanned ModuleStmt) := alt importStmt contractDef

/-- `non_empty_file_input`. -/
def nonEmptyFileInput : Parser (Spanned Module) := fun input => do
  let (input, body) ← many1 moduleStmt input
  let (input, _) ← endmarkerToken input
  let span := Span.fromPair (body.val.head body.property).span (body.val.getLast body.property).span
  pure (input, ⟨⟨body.val⟩, span⟩)

/-- `empty_file_input`. -/
def emptyFileInput : Parser (Spanned Module) := fun input => do
  let (input, endTok) ← endmarkerToken input
  pure (input, ⟨⟨[]⟩, endTok.span⟩)

/-- `file_input`. -/
def fileInput : Parser (Spanned Module) := alt emptyFileInput nonEmptyFileInput

end FeParser
