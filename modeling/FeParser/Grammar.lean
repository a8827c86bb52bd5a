import FeParser.Parsers

/-!
# The grammar of module statements

The productions of spec §4.2 from `dotted_name` up to `file_input`, as derivation
relations: `Grammar.X p ts v` says that the token sequence `ts` derives from the
nonterminal `X`, and that `v` is the syntax tree read off that derivation. `NAME` matches
every `Name` token, contextual keywords included; a keyword position matches only the name
token whose symbol is that keyword.

Each rule also constrains the span of the node it builds through the *span policy* `p`,
applied to the tokens the rule consumed:

* `Grammar.Unconstrained` puts no condition on spans: derivations then compare trees up
  to spans, as the spec's grammar does;
* `Grammar.IsHull` asks for the hull of the first and last non-layout tokens
  (`Span.hull`), the span the spec promises for every node.

The empty module is the one node whose span the grammar fixes outright: the `EndMarker`'s.
-/

namespace FeParser

/-! ### Hulls -/

/-- The tokens of `ts` that carry source text: all but `Newline`, `Indent`, `Dedent` and
`EndMarker`. -/
def nonLayout (ts : List Token) : List Token := ts.filter fun t => !t.kind.isLayout

/-- The hull of the first and the last non-layout token of `ts`, or `Span.zero` when there
is none. -/
def Span.hull (ts : List Token) : Span :=
  match nonLayout ts with
  | [] => Span.zero
  | t :: rest => Span.fromPair t.span ((t :: rest).getLast (List.cons_ne_nil _ _)).span

/-- The text tokens of a concatenation are those of its parts. -/
theorem nonLayout_append (a b : List Token) :
    nonLayout (a ++ b) = nonLayout a ++ nonLayout b :=
  List.filter_append _ _

/-- A first token with text is the first text token. -/
theorem nonLayout_cons_of_text {t : Token} (ht : t.kind.isLayout = false) (ts : List Token) :
    nonLayout (t :: ts) = t :: nonLayout ts := by
  simp [nonLayout, ht]

/-- Layout tokens alone have no text tokens. -/
theorem nonLayout_eq_nil {ts : List Token} (h : ∀ t ∈ ts, t.kind.isLayout = true) :
    nonLayout ts = [] := by
  simpa [nonLayout, List.filter_eq_nil_iff] using h

/-- A name is no layout token. -/
theorem isLayout_of_isName {k : TokenKind} (h : k.isName = true) : k.isLayout = false := by
  cases k <;> simp_all [TokenKind.isName, TokenKind.isLayout]

/-- Tokens that start with a token with text have a text token. -/
theorem nonLayout_cons_ne_nil {t : Token} (ht : t.kind.isLayout = false) (ts : List Token) :
    nonLayout (t :: ts) ≠ [] := by
  simp [nonLayout_cons_of_text ht]

/-- Appending tokens keeps a text token. -/
theorem nonLayout_append_ne_nil {ts us : List Token} (h : nonLayout ts ≠ []) :
    nonLayout (ts ++ us) ≠ [] := by
  simp [nonLayout_append, h]

/-- In an ordered sequence every token ends before each later one starts. -/
theorem Token.Ordered.pairwise {ts : List Token} (h : Token.Ordered ts) :
    ts.Pairwise fun a b => a.span.end ≤ b.span.start := by
  induction ts with
  | nil => exact .nil
  | cons t ts ih =>
    have hts : Token.Ordered ts := Token.Ordered.of_append_right (show Token.Ordered ([t] ++ ts) from h)
    refine List.pairwise_cons.2 ⟨fun b hb => ?_, ih hts⟩
    cases ts with
    | nil => cases hb
    | cons u us =>
      have htu : t.span.end ≤ u.span.start := (List.chain'_cons.1 h.2).1
      rcases List.mem_cons.1 hb with rfl | hb
      · exact htu
      · have hu : u.span.start ≤ u.span.end := h.1 u (by simp)
        have hub := List.rel_of_pairwise_cons (ih hts) hb
        omega

/-- In an ordered non-empty sequence the first token starts and ends no later than the
last. -/
theorem head_le_getLast {l : List Token} (h : l.Pairwise fun a b => a.span.end ≤ b.span.start)
    (hwf : ∀ t ∈ l, t.span.WellFormed) (hne : l ≠ []) :
    (l.head hne).span.start ≤ (l.getLast hne).span.start ∧
      (l.head hne).span.end ≤ (l.getLast hne).span.end := by
  match l, hne with
  | [t], _ => simp
  | t :: u :: us, _ =>
    have hlast : (t :: u :: us).getLast (List.cons_ne_nil _ _) ∈ u :: us := by
      rw [List.getLast_cons (List.cons_ne_nil _ _)]; exact List.getLast_mem _
    have hb := List.rel_of_pairwise_cons h hlast
    have ht := hwf t (by simp)
    have hl := hwf _ (List.getLast_mem (List.cons_ne_nil t (u :: us)))
    simp only [List.head_cons, Span.WellFormed] at *
    omega

/-- The hull of tokens with text is `from_pair` of the spans of the first and last text tokens. -/
theorem hull_eq_fromPair {ts : List Token} (hne : nonLayout ts ≠ []) :
    Span.hull ts =
      Span.fromPair ((nonLayout ts).head hne).span ((nonLayout ts).getLast hne).span := by
  unfold Span.hull
  split <;> simp_all

/-- The hull of `a ++ m ++ c` is that of the hulls of `a` and `c`, when the tokens are
ordered and both ends carry text. -/
theorem fromPair_hull {a m c : List Token} (h : Token.Ordered (a ++ m ++ c))
    (ha : nonLayout a ≠ []) (hc : nonLayout c ≠ []) :
    Span.fromPair (Span.hull a) (Span.hull c) = Span.hull (a ++ m ++ c) := by
  have hall : nonLayout (a ++ m ++ c) = nonLayout a ++ (nonLayout m ++ nonLayout c) := by
    simp [nonLayout_append]
  have hne : nonLayout (a ++ m ++ c) ≠ [] := by rw [hall]; simp [ha]
  have hpw : (nonLayout a ++ (nonLayout m ++ nonLayout c)).Pairwise
      fun x y => x.span.end ≤ y.span.start :=
    hall ▸ h.pairwise.sublist (List.filter_sublist _)
  have hwf : ∀ t ∈ nonLayout a ++ (nonLayout m ++ nonLayout c), t.span.WellFormed :=
    fun t ht => h.1 t (List.mem_of_mem_filter (hall ▸ ht))
  obtain ⟨hA, hMC, hAMC⟩ := List.pairwise_append.1 hpw
  obtain ⟨-, hC, -⟩ := List.pairwise_append.1 hMC
  have hA' := head_le_getLast hA (fun t ht => hwf t (by simp [ht])) ha
  have hC' := head_le_getLast hC (fun t ht => hwf t (by simp [ht])) hc
  have hac := hAMC _ (List.getLast_mem ha) _ (List.mem_append_right _ (List.head_mem hc))
  have h1 := hwf _ (List.mem_append_left _ (List.head_mem ha))
  have h2 := hwf _ (List.mem_append_right _ (List.mem_append_right _ (List.head_mem hc)))
  have hhead : (nonLayout (a ++ m ++ c)).head hne = (nonLayout a).head ha := by
    simp only [hall]; exact List.head_append_of_ne_nil ha
  have hlast : (nonLayout (a ++ m ++ c)).getLast hne = (nonLayout c).getLast hc := by
    simp only [hall]
    rw [List.getLast_append_of_ne_nil (List.append_ne_nil_of_right_ne_nil _ hc),
      List.getLast_append_of_ne_nil hc]
  rw [hull_eq_fromPair ha, hull_eq_fromPair hc, hull_eq_fromPair hne, hhead, hlast]
  simp only [Span.fromPair, Span.WellFormed, Span.mk.injEq] at *
  omega

/-- Trailing layout tokens do not move the hull. -/
theorem hull_append_layout {ts ls : List Token} (h : ∀ t ∈ ls, t.kind.isLayout = true) :
    Span.hull (ts ++ ls) = Span.hull ts := by
  simp [Span.hull, nonLayout_append, nonLayout_eq_nil h]

/-- The hull of one token with text is its span. -/
theorem hull_singleton {t : Token} (ht : t.kind.isLayout = false) : Span.hull [t] = t.span := by
  have h : nonLayout [t] = [t] := by simp [nonLayout, ht]
  simp [Span.hull, h]

namespace Grammar

/-- No condition on spans. -/
def Unconstrained (_ : List Token) (_ : Span) : Prop := True

/-- The span is the hull of the non-layout tokens consumed. -/
def IsHull (ts : List Token) (s : Span) : Prop := s = Span.hull ts

/-- What the parsers guarantee of every span they build: on ordered tokens, the hull. -/
def HullIfOrdered (ts : List Token) (s : Span) : Prop := Token.Ordered ts → s = Span.hull ts

/-- The tokens of an optional alias `("as" NAME)?`. -/
def aliasTokens : Option (Token × Token) → List Token
  | none => []
  | some (kw, n) => [kw, n]

/-- An optional alias is the keyword `as` followed by a name. -/
def IsAlias : Option (Token × Token) → Prop
  | none => True
  | some (kw, n) => kw.kind = .name "as" ∧ n.kind.isName = true

/-- The tokens of `("." NAME)*`, one pair per part. -/
def pairTokens (parts : List (Token × Token)) : List Token :=
  parts.flatMap fun q => [q.1, q.2]

variable (p : List Token → Span → Prop)

/-- `X*`: the tokens are a concatenation of derivations of `X`, one per value. -/
inductive Many {α : Type} (P : List Token → α → Prop) : List Token → List α → Prop
  | nil : Many P [] []
  | cons {ts us : List Token} {x : α} {xs : List α} :
      P ts x → Many P us xs → Many P (ts ++ us) (x :: xs)

/-- A separator token of kind `kind`, then a derivation of `X`. -/
inductive Preceded {α : Type} (kind : TokenKind) (P : List Token → α → Prop) :
    List Token → α → Prop
  | mk {t : Token} {ts : List Token} {x : α} : t.kind = kind → P ts x → Preceded kind P (t :: ts) x

/-- `dots_to_int := (DOT | ELLIPSIS)+`, whose value is the total width less one. -/
inductive DotsToInt : List Token → Spanned Nat → Prop
  | mk {ts : List Token} {s : Span} : ts ≠ [] →
      (∀ t ∈ ts, t.kind = .punct .dot ∨ t.kind = .punct .ellipsis) → p ts s →
      DotsToInt ts ⟨(ts.map dotWidth).sum - 1, s⟩

/-- `dotted_name := NAME ("." NAME)*`. -/
inductive DottedName : List Token → Spanned (List String) → Prop
  | mk {first : Token} {parts : List (Token × Token)} {s : Span} : first.kind.isName = true →
      (∀ q ∈ parts, q.1.kind = .punct .dot ∧ q.2.kind.isName = true) →
      p (first :: pairTokens parts) s →
      DottedName (first :: pairTokens parts) ⟨first.string :: parts.map (·.2.string), s⟩

/-- `simple_import_name := dotted_name ("as" NAME)?`. -/
inductive SimpleImportName : List Token → Spanned FeParser.SimpleImportName → Prop
  | mk {ts : List Token} {path : Spanned (List String)} {al : Option (Token × Token)}
      {s : Span} : DottedName p ts path → IsAlias al → p (ts ++ aliasTokens al) s →
      SimpleImportName (ts ++ aliasTokens al) ⟨⟨path.node, al.map (·.2.string)⟩, s⟩

/-- `simple_import := "import" simple_import_name ("," simple_import_name)*`. -/
inductive SimpleImport : List Token → Spanned ModuleStmt → Prop
  | mk {kw : Token} {ts us : List Token} {n : Spanned FeParser.SimpleImportName}
      {ns : List (Spanned FeParser.SimpleImportName)} {s : Span} : kw.kind = .name "import" →
      SimpleImportName p ts n → Many (Preceded (.punct .comma) (SimpleImportName p)) us ns →
      p (kw :: (ts ++ us)) s → SimpleImport (kw :: (ts ++ us)) ⟨.simpleImport (n :: ns), s⟩

/-- `from_import_name := NAME ("as" NAME)?`. -/
inductive FromImportName : List Token → Spanned FeParser.FromImportName → Prop
  | mk {n : Token} {al : Option (Token × Token)} {s : Span} : n.kind.isName = true →
      IsAlias al → p (n :: aliasTokens al) s →
      FromImportName (n :: aliasTokens al) ⟨⟨n.string, al.map (·.2.string)⟩, s⟩

/-- `from_import_names_list := from_import_name ("," from_import_name)* ","?`. -/
inductive FromImportNamesList : List Token → Spanned FeParser.FromImportNames → Prop
  | mk {ts us : List Token} {n : Spanned FeParser.FromImportName}
      {ns : List (Spanned FeParser.FromImportName)} {comma : Option Token} {s : Span} :
      FromImportName p ts n → Many (Preceded (.punct .comma) (FromImportName p)) us ns →
      (∀ c ∈ comma, c.kind = .punct .comma) → p (ts ++ us ++ comma.toList) s →
      FromImportNamesList (ts ++ us ++ comma.toList) ⟨.list (n :: ns), s⟩

/-- `from_import_names := "*" | "(" from_import_names_list ")" | from_import_names_list`. -/
inductive FromImportNames : List Token → Spanned FeParser.FromImportNames → Prop
  | star {t : Token} {s : Span} : t.kind = .punct .star → p [t] s → FromImportNames [t] ⟨.star, s⟩
  | parens {o c : Token} {ts : List Token} {names : Spanned FeParser.FromImportNames}
      {s : Span} : o.kind = .punct .openParen → FromImportNamesList p ts names →
      c.kind = .punct .closeParen → p (o :: (ts ++ [c])) s →
      FromImportNames (o :: (ts ++ [c])) ⟨names.node, s⟩
  | list {ts : List Token} {names : Spanned FeParser.FromImportNames} :
      FromImportNamesList p ts names → FromImportNames ts names

/-- The path of a `from` import: `dots_to_int | dots_to_int? dotted_name`. -/
inductive FromImportPath : List Token → Spanned FeParser.FromImportPath → Prop
  | parent {ts : List Token} {lvl : Spanned Nat} {s : Span} : DotsToInt p ts lvl → p ts s →
      FromImportPath ts ⟨.relative lvl.node [], s⟩
  | relative {ts us : List Token} {lvl : Spanned Nat} {path : Spanned (List String)}
      {s : Span} : DotsToInt p ts lvl → DottedName p us path → p (ts ++ us) s →
      FromImportPath (ts ++ us) ⟨.relative lvl.node path.node, s⟩
  | absolute {us : List Token} {path : Spanned (List String)} {s : Span} :
      DottedName p us path → p us s → FromImportPath us ⟨.absolute path.node, s⟩

/-- `from_import := "from" path "import" from_import_names`. -/
inductive FromImport : List Token → Spanned ModuleStmt → Prop
  | mk {f i : Token} {ts us : List Token} {path : Spanned FeParser.FromImportPath}
      {names : Spanned FeParser.FromImportNames} {s : Span} : f.kind = .name "from" →
      FromImportPath p ts path → i.kind = .name "import" → FromImportNames p us names →
      p (f :: (ts ++ i :: us)) s → FromImport (f :: (ts ++ i :: us)) ⟨.fromImport path names, s⟩

/-- `import_stmt := (simple_import | from_import) NEWLINE`. -/
inductive ImportStmt : List Token → Spanned ModuleStmt → Prop
  | simple {ts : List Token} {nl : Token} {x : Spanned ModuleStmt} : SimpleImport p ts x →
      nl.kind = .newline → ImportStmt (ts ++ [nl]) x
  | «from» {ts : List Token} {nl : Token} {x : Spanned ModuleStmt} : FromImport p ts x →
      nl.kind = .newline → ImportStmt (ts ++ [nl]) x

/-- `event_field := NAME ":" NAME NEWLINE`. -/
inductive EventField : List Token → Spanned FeParser.EventField → Prop
  | mk {n c t nl : Token} {s : Span} : n.kind.isName = true → c.kind = .punct .colon →
      t.kind.isName = true → nl.kind = .newline → p [n, c, t, nl] s →
      EventField [n, c, t, nl] ⟨⟨n.string, t.string⟩, s⟩

/-- `event_def := "event" NAME ":" NEWLINE INDENT event_field+ DEDENT`. -/
inductive EventDef : List Token → Spanned ContractStmt → Prop
  | mk {kw n c nl ind ded : Token} {ts : List Token} {fs : List (Spanned FeParser.EventField)}
      {s : Span} : kw.kind = .name "event" → n.kind.isName = true → c.kind = .punct .colon →
      nl.kind = .newline → ind.kind = .indent → Many (EventField p) ts fs → fs ≠ [] →
      ded.kind = .dedent → p (kw :: n :: c :: nl :: ind :: (ts ++ [ded])) s →
      EventDef (kw :: n :: c :: nl :: ind :: (ts ++ [ded])) ⟨.eventDef n.string fs, s⟩

/-- `contract_def := "contract" NAME ":" NEWLINE INDENT contract_stmt+ DEDENT`, where
`contract_stmt := event_def`. -/
inductive ContractDef : List Token → Spanned ModuleStmt → Prop
  | mk {kw n c nl ind ded : Token} {ts : List Token} {body : List (Spanned ContractStmt)}
      {s : Span} : kw.kind = .name "contract" → n.kind.isName = true → c.kind = .punct .colon →
      nl.kind = .newline → ind.kind = .indent → Many (EventDef p) ts body → body ≠ [] →
      ded.kind = .dedent → p (kw :: n :: c :: nl :: ind :: (ts ++ [ded])) s →
      ContractDef (kw :: n :: c :: nl :: ind :: (ts ++ [ded])) ⟨.contractDef n.string body, s⟩

/-- `module_stmt := import_stmt | contract_def`. -/
inductive ModuleStmt : List Token → Spanned FeParser.ModuleStmt → Prop
  | «import» {ts : List Token} {x : Spanned FeParser.ModuleStmt} : ImportStmt p ts x →
      ModuleStmt ts x
  | contract {ts : List Token} {x : Spanned FeParser.ModuleStmt} : ContractDef p ts x →
      ModuleStmt ts x

/-- `file_input := ENDMARKER | module_stmt+ ENDMARKER`. -/
inductive FileInput : List Token → Spanned Module → Prop
  | empty {e : Token} : e.kind = .endMarker → FileInput [e] ⟨⟨[]⟩, e.span⟩
  | nonEmpty {ts : List Token} {e : Token} {stmts : List (Spanned FeParser.ModuleStmt)}
      {s : Span} : Many (ModuleStmt p) ts stmts → stmts ≠ [] → e.kind = .endMarker →
      p (ts ++ [e]) s → FileInput (ts ++ [e]) ⟨⟨stmts⟩, s⟩

/-! ### Changing the span policy -/

section Policy

variable {p q : List Token → Span → Prop} {α : Type}

/-- `q` holds wherever `p` does on the infixes of `ts`: then every derivation of `ts` under
`p` is one under `q`. -/
def Weaker (p q : List Token → Span → Prop) (ts : List Token) : Prop :=
  ∀ ⦃seg : List Token⦄ ⦃s : Span⦄, seg <:+: ts → p seg s → q seg s

/-- Weaker on a sequence is weaker on each of its infixes. -/
theorem Weaker.segment {ts us : List Token} (h : Weaker p q ts) (hs : us <:+: ts) :
    Weaker p q us :=
  fun _ _ hseg => h (hseg.trans hs)

/-- Weaker on a sequence turns `p` of the whole sequence into `q`. -/
theorem Weaker.apply {ts : List Token} {s : Span} (h : Weaker p q ts) : p ts s → q ts s :=
  h (List.infix_refl ts)

/-- Weaker on a concatenation is weaker on its left part. -/
theorem Weaker.left {ts us : List Token} (h : Weaker p q (ts ++ us)) : Weaker p q ts :=
  h.segment (List.prefix_append ts us).isInfix

/-- Weaker on a concatenation is weaker on its right part. -/
theorem Weaker.right {ts us : List Token} (h : Weaker p q (ts ++ us)) : Weaker p q us :=
  h.segment (List.suffix_append ts us).isInfix

/-- Weaker on a sequence is weaker on its tail. -/
theorem Weaker.tail {t : Token} {ts : List Token} (h : Weaker p q (t :: ts)) : Weaker p q ts :=
  h.segment (List.suffix_cons t ts).isInfix

/-- A repetition of derivations under `p` is one under `q`, when each derivation is. -/
theorem Many.mono {P Q : List Token → α → Prop} {ts : List Token} {xs : List α}
    (h : Many P ts xs) (hw : Weaker p q ts)
    (hPQ : ∀ ⦃seg x⦄, P seg x → Weaker p q seg → Q seg x) : Many Q ts xs := by
  induction h with
  | nil => exact .nil
  | cons hx _ ih => exact .cons (hPQ hx hw.left) (ih hw.right)

/-- A separator then a derivation under `p` is one under `q`, when the derivation is. -/
theorem Preceded.mono {P Q : List Token → α → Prop} {kind : TokenKind} {ts : List Token} {x : α}
    (h : Preceded kind P ts x) (hw : Weaker p q ts)
    (hPQ : ∀ ⦃seg x⦄, P seg x → Weaker p q seg → Q seg x) : Preceded kind Q ts x := by
  cases h with
  | mk hk hP => exact .mk hk (hPQ hP hw.tail)

/-- A derivation of `dots_to_int` under `p` is one under `q`. -/
theorem DotsToInt.mono {ts : List Token} {v : Spanned Nat} (h : DotsToInt p ts v)
    (hw : Weaker p q ts) : DotsToInt q ts v := by
  cases h with
  | mk hne hk hs => exact .mk hne hk (hw.apply hs)

/-- A derivation of `dotted_name` under `p` is one under `q`. -/
theorem DottedName.mono {ts : List Token} {v : Spanned (List String)} (h : DottedName p ts v)
    (hw : Weaker p q ts) : DottedName q ts v := by
  cases h with
  | mk hf hparts hs => exact .mk hf hparts (hw.apply hs)

/-- A derivation of `simple_import_name` under `p` is one under `q`. -/
theorem SimpleImportName.mono {ts : List Token} {v : Spanned FeParser.SimpleImportName}
    (h : SimpleImportName p ts v) (hw : Weaker p q ts) : SimpleImportName q ts v := by
  cases h with
  | mk hp ha hs => exact .mk (hp.mono hw.left) ha (hw.apply hs)

/-- A derivation of `simple_import` under `p` is one under `q`. -/
theorem SimpleImport.mono {ts : List Token} {v : Spanned FeParser.ModuleStmt}
    (h : SimpleImport p ts v) (hw : Weaker p q ts) : SimpleImport q ts v := by
  cases h with
  | mk hkw hn hns hs =>
    exact .mk hkw (hn.mono hw.tail.left)
      (hns.mono hw.tail.right fun _ _ hx hw => hx.mono hw fun _ _ hy hw => hy.mono hw) (hw.apply hs)

/-- A derivation of `from_import_name` under `p` is one under `q`. -/
theorem FromImportName.mono {ts : List Token} {v : Spanned FeParser.FromImportName}
    (h : FromImportName p ts v) (hw : Weaker p q ts) : FromImportName q ts v := by
  cases h with
  | mk hn ha hs => exact .mk hn ha (hw.apply hs)

/-- A derivation of `from_import_names_list` under `p` is one under `q`. -/
theorem FromImportNamesList.mono {ts : List Token} {v : Spanned FeParser.FromImportNames}
    (h : FromImportNamesList p ts v) (hw : Weaker p q ts) : FromImportNamesList q ts v := by
  cases h with
  | mk hn hns hc hs =>
    exact .mk (hn.mono hw.left.left)
      (hns.mono hw.left.right fun _ _ hx hw => hx.mono hw fun _ _ hy hw => hy.mono hw) hc
      (hw.apply hs)

/-- A derivation of `from_import_names` under `p` is one under `q`. -/
theorem FromImportNames.mono {ts : List Token} {v : Spanned FeParser.FromImportNames}
    (h : FromImportNames p ts v) (hw : Weaker p q ts) : FromImportNames q ts v := by
  cases h with
  | star ht hs => exact .star ht (hw.apply hs)
  | parens ho hn hc hs => exact .parens ho (hn.mono hw.tail.left) hc (hw.apply hs)
  | list hn => exact .list (hn.mono hw)

/-- A derivation of a `from` import's path under `p` is one under `q`. -/
theorem FromImportPath.mono {ts : List Token} {v : Spanned FeParser.FromImportPath}
    (h : FromImportPath p ts v) (hw : Weaker p q ts) : FromImportPath q ts v := by
  cases h with
  | parent hl hs => exact .parent (hl.mono hw) (hw.apply hs)
  | relative hl hp hs => exact .relative (hl.mono hw.left) (hp.mono hw.right) (hw.apply hs)
  | absolute hp hs => exact .absolute (hp.mono hw) (hw.apply hs)

/-- A derivation of `from_import` under `p` is one under `q`. -/
theorem FromImport.mono {ts : List Token} {v : Spanned FeParser.ModuleStmt}
    (h : FromImport p ts v) (hw : Weaker p q ts) : FromImport q ts v := by
  cases h with
  | mk hf hp hi hn hs =>
    exact .mk hf (hp.mono hw.tail.left) hi (hn.mono hw.tail.right.tail) (hw.apply hs)

/-- A derivation of `import_stmt` under `p` is one under `q`. -/
theorem ImportStmt.mono {ts : List Token} {v : Spanned FeParser.ModuleStmt}
    (h : ImportStmt p ts v) (hw : Weaker p q ts) : ImportStmt q ts v := by
  cases h with
  | simple hi hnl => exact .simple (hi.mono hw.left) hnl
  | «from» hi hnl => exact .«from» (hi.mono hw.left) hnl

/-- A derivation of `event_field` under `p` is one under `q`. -/
theorem EventField.mono {ts : List Token} {v : Spanned FeParser.EventField}
    (h : EventField p ts v) (hw : Weaker p q ts) : EventField q ts v := by
  cases h with
  | mk hn hc ht hnl hs => exact .mk hn hc ht hnl (hw.apply hs)

/-- A derivation of `event_def` under `p` is one under `q`. -/
theorem EventDef.mono {ts : List Token} {v : Spanned ContractStmt}
    (h : EventDef p ts v) (hw : Weaker p q ts) : EventDef q ts v := by
  cases h with
  | mk hkw hn hc hnl hind hfs hne hded hs =>
    exact .mk hkw hn hc hnl hind (hfs.mono hw.tail.tail.tail.tail.tail.left
      fun _ _ hx hw => hx.mono hw) hne hded (hw.apply hs)

/-- A derivation of `contract_def` under `p` is one under `q`. -/
theorem ContractDef.mono {ts : List Token} {v : Spanned FeParser.ModuleStmt}
    (h : ContractDef p ts v) (hw : Weaker p q ts) : ContractDef q ts v := by
  cases h with
  | mk hkw hn hc hnl hind hb hne hded hs =>
    exact .mk hkw hn hc hnl hind (hb.mono hw.tail.tail.tail.tail.tail.left
      fun _ _ hx hw => hx.mono hw) hne hded (hw.apply hs)

/-- A derivation of `module_stmt` under `p` is one under `q`. -/
theorem ModuleStmt.mono {ts : List Token} {v : Spanned FeParser.ModuleStmt}
    (h : ModuleStmt p ts v) (hw : Weaker p q ts) : ModuleStmt q ts v := by
  cases h with
  | «import» hi => exact .«import» (hi.mono hw)
  | contract hc => exact .contract (hc.mono hw)

/-- A derivation of `file_input` under `p` is one under `q`: the span policy can be weakened along a
whole derivation. -/
theorem FileInput.mono {ts : List Token} {v : Spanned Module} (h : FileInput p ts v)
    (hw : Weaker p q ts) : FileInput q ts v := by
  cases h with
  | empty he => exact .empty he
  | nonEmpty hs hne he hsp =>
    exact .nonEmpty (hs.mono hw.left fun _ _ hx hw => hx.mono hw) hne he (hw.apply hsp)

/-- Spans play no part once the policy is `Unconstrained`. -/
theorem weaker_unconstrained (ts : List Token) : Weaker p Unconstrained ts :=
  fun _ _ _ _ => trivial

/-- On ordered tokens the parsers' policy is the hull. -/
theorem weaker_isHull {ts : List Token} (h : Token.Ordered ts) : Weaker HullIfOrdered IsHull ts :=
  fun _ _ hseg hs => hs (h.segment hseg)

end Policy

end Grammar

end FeParser
