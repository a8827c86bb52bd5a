import FeParser.Agreement
import FeParser.ConstPanics
import FeParser.Hulls
import FeParser.Lexer.BlankLine
import FeParser.Lexer.Spelling

/-!
# From source to module

The lexer and the parser composed: `get_parse_tokens` and then `file_input`. What the parser's
theorems assume of their tokens, the lexer guarantees of the stream it returns: the spans are
in order, the symbol of a name token is its text, and the stream ends with its only
`EndMarker`. So for every source that tokenizes, `file_input` either fails or reads the whole
stream; the module it returns derives from the grammar, with every node's span the hull of the
tokens it was read from and inside the span of its parent; and every derivation of the stream,
but one with a relative import of a module named `import`, is read back up to spans.

The lexer also spells every operator token as its kind, which is what the `unwrap`s of
`const_expr` need: on the parser's tokens `const_expr` never panics.

The module grammar reads names, punctuation and layout only, so a source that `file_input`
accepts has no literal and no token the lexer could not read.

## Main results

* `getParseTokens_inv`: what the lexer guarantees of the parser's tokens.
* `parse_source`: the end-to-end statement above.
* `constExpr_never_panics`: `const_expr` never panics on the parser's tokens.
* `parse_source_readsOnly`: an accepted source has only names, punctuation and layout tokens.
-/

namespace FeParser

open Grammar Lexer

/-- The tokens the parser reads are in order, their names carry their text, and they end with
their only `EndMarker`: `get_parse_tokens` drops comments and blank-line ends from a stream
that has all three properties. -/
theorem getParseTokens_inv {s : List Char} {ts : List Token} (h : getParseTokens s = .ok ts) :
    Token.Ordered ts ∧ (∀ t ∈ ts, t.NameCarriesText) ∧
      ∃ pre t, ts = pre ++ [t] ∧ t.kind = .endMarker ∧ ∀ u ∈ pre, u.kind ≠ .endMarker := by
  rw [getParseTokens_eq] at h
  cases hrun : tokenize s with
  | error e => rw [hrun] at h; cases h
  | ok all =>
    rw [hrun] at h
    cases h
    obtain ⟨hc, -, ⟨pre, t, rfl, ht, hpre⟩, hnames⟩ := tokenize_inv hrun
    refine ⟨⟨fun u hu => hc.ordered.1 u (List.mem_of_mem_filter hu),
      (hc.ordered.pairwise.sublist (List.filter_sublist _)).chain'⟩,
      fun u hu => hnames u (List.mem_of_mem_filter hu), pre.filter keptByParser, t,
      by simp [keptByParser, ht], ht,
      fun u hu => hpre u (List.mem_of_mem_filter hu)⟩

/-- A stream whose only `EndMarker` is its last token has no token after any `EndMarker`. -/
theorem eq_nil_of_endMarker {pre ts rest : List Token} {t e : Token}
    (hpre : ∀ u ∈ pre, u.kind ≠ .endMarker) (he : e.kind = .endMarker)
    (h : ts ++ [e] ++ rest = pre ++ [t]) : rest = [] := by
  rcases List.eq_nil_or_concat' rest with rfl | ⟨R, r, rfl⟩
  · rfl
  · rw [← List.append_assoc] at h
    have := (List.append_inj' h rfl).1
    exact absurd he (hpre e (by rw [← this]; simp))

/-- On the parser's tokens, a success of `file_input` reads them all, and they derive its
module: the module ends with the stream's only `EndMarker`. -/
theorem fileInput_reads_all {s : List Char} {ts rest : List Token} {m : Spanned Module}
    (h : getParseTokens s = .ok ts) (hm : fileInput ts = .ok (rest, m)) :
    rest = [] ∧ FileInput HullIfOrdered ts m := by
  obtain ⟨-, -, P, t, hts, -, hP⟩ := getParseTokens_inv h
  obtain ⟨pre, hpre, hder⟩ := fileInput_sound hm
  obtain rfl : rest = [] := by
    cases hder with
    | empty he =>
      exact @eq_nil_of_endMarker P [] rest t _ hP he (by rw [List.nil_append, ← hpre, hts])
    | nonEmpty _ _ he _ => exact eq_nil_of_endMarker hP he (hpre ▸ hts)
  rw [List.append_nil] at hpre
  exact ⟨rfl, hpre ▸ hder⟩

/-- From source to module. For every source the lexer reads, `file_input` on the parser's
tokens either fails or reads all of them, and then returns a module that derives from them by
the grammar, with each node's span the hull of its tokens and inside its parent's, and with no
relative import of a module named `import`; and every derivation of the tokens without such
an import is read back, up to spans. -/
theorem parse_source {s : List Char} {ts : List Token} (h : getParseTokens s = .ok ts) :
    (∀ rest m, fileInput ts = .ok (rest, m) →
      rest = [] ∧ FileInput IsHull ts m ∧ Module.Nested m ∧
        ∀ st ∈ m.node.body, ¬ st.node.RelativeImportOfImport) ∧
    (∀ m, FileInput Unconstrained ts m → (∀ st ∈ m.node.body, ¬ st.node.RelativeImportOfImport) →
      ∃ m', fileInput ts = .ok ([], m') ∧ Module.erase m' = Module.erase m) := by
  obtain ⟨hord, hnames, -⟩ := getParseTokens_inv h
  refine ⟨fun rest m hm => ?_, fun m hm hv => ?_⟩
  · obtain ⟨rfl, hder⟩ := fileInput_reads_all h hm
    obtain ⟨pre, hpre, hshape⟩ := fileInput_shape hm
    rw [List.append_nil] at hpre
    subst hpre
    exact ⟨rfl, hder.mono (weaker_isHull hord), hder.nested hord, hshape hnames⟩
  · simpa using fileInput_complete [] hm hv hnames

/-- A contract with one event: the module `file_input` returns reads the whole stream, derives under
the hull policy, nests, and every tree of the grammar is read back. -/
theorem parse_source_contract :
    ∃ ts, getParseTokens "contract C:\n  event E:\n    x: u256\n".toList = .ok ts ∧
      (∀ rest m, fileInput ts = .ok (rest, m) →
        rest = [] ∧ FileInput IsHull ts m ∧ Module.Nested m ∧
          ∀ st ∈ m.node.body, ¬ st.node.RelativeImportOfImport) ∧
      (∀ m, FileInput Unconstrained ts m →
        (∀ st ∈ m.node.body, ¬ st.node.RelativeImportOfImport) →
        ∃ m', fileInput ts = .ok ([], m') ∧ Module.erase m' = Module.erase m) :=
  ⟨_, rfl, @parse_source "contract C:\n  event E:\n    x: u256\n".toList _ rfl⟩

/-- The operator `unwrap`s of `const_expr` hold on every source. Every operator or punctuation
token the lexer makes is spelled as its kind, so `const_expr`, at any fuel and from any
position of the parser's tokens, returns, fails with an `Error` or runs out of fuel: it never
panics. -/
theorem constExpr_never_panics {s : List Char} {ts : List Token} (h : getParseTokens s = .ok ts) :
    (∀ t ∈ ts, t.Spelled) ∧ ∀ fuel n msg, constExpr fuel (ts.drop n) ≠ .error (.panic msg) := by
  rw [getParseTokens_eq] at h
  cases hrun : tokenize s with
  | error e => rw [hrun] at h; cases h
  | ok all =>
    rw [hrun] at h
    cases h
    have hs : ∀ t ∈ all.filter keptByParser, t.Spelled :=
      fun t ht => tokenize_spelled hrun t (List.mem_of_mem_filter ht)
    exact ⟨hs, fun fuel n => constExpr_panicFree fuel _ fun t ht => hs t (List.mem_of_mem_drop ht)⟩

/-- An assignment with a grouped sum times a negated number: `const_expr` never panics at any
position of its tokens. -/
theorem constExpr_never_panics_product :
    ∃ ts, getParseTokens "x = (1 + 2) * -3\n".toList = .ok ts ∧ (∀ t ∈ ts, t.Spelled) ∧
      ∀ fuel n msg, constExpr fuel (ts.drop n) ≠ .error (.panic msg) :=
  ⟨_, rfl, @constExpr_never_panics "x = (1 + 2) * -3\n".toList _ rfl⟩

/-! ### What the module grammar reads -/

/-- The kinds of token the module grammar reads: names, punctuation, line ends, indentation
and the end marker; no number, string, comment or error token. -/
def TokenKind.ReadByModule : TokenKind → Bool
  | .name _ | .punct _ | .newline | .indent | .dedent | .endMarker => true
  | .num | .str | .whitespaceNewline | .comment | .errorToken => false

namespace Grammar

variable {p : List Token → Span → Prop} {α : Type} {ts : List Token}

/-- Every token of `ts` is of a kind the module grammar reads. -/
def ReadsOnly (ts : List Token) : Prop := ∀ t ∈ ts, t.kind.ReadByModule

/-- No tokens are read only as the module grammar reads them. -/
theorem ReadsOnly.nil : ReadsOnly [] := fun _ => nofun

/-- Two sequences of tokens the grammar reads make one. -/
theorem ReadsOnly.append {us : List Token} (h₁ : ReadsOnly ts) (h₂ : ReadsOnly us) :
    ReadsOnly (ts ++ us) :=
  List.forall_mem_append.2 ⟨h₁, h₂⟩

/-- A token the grammar reads, before others it reads. -/
theorem ReadsOnly.cons {t : Token} (ht : t.kind.ReadByModule) (h : ReadsOnly ts) :
    ReadsOnly (t :: ts) :=
  List.forall_mem_cons.2 ⟨ht, h⟩

/-- The module grammar reads names. -/
theorem readByModule_of_isName {k : TokenKind} (h : k.isName = true) : k.ReadByModule := by
  cases k <;> first | rfl | cases h

/-- An alias is `as` and a name. -/
theorem readsOnly_aliasTokens {al : Option (Token × Token)} (h : IsAlias al) :
    ReadsOnly (aliasTokens al) := by
  rcases al with _ | ⟨kw, n⟩
  · exact .nil
  · exact .cons (h.1 ▸ rfl) (.cons (readByModule_of_isName h.2) .nil)

/-- The dotted parts of a name are dots and names. -/
theorem readsOnly_pairTokens {parts : List (Token × Token)}
    (h : ∀ q ∈ parts, q.1.kind = .punct .dot ∧ q.2.kind.isName = true) :
    ReadsOnly (pairTokens parts) := by
  intro t ht
  obtain ⟨q, hq, ht⟩ := List.mem_flatMap.1 ht
  rcases List.mem_pair.1 ht with rfl | rfl
  exacts [(h q hq).1 ▸ rfl, readByModule_of_isName (h q hq).2]

/-- A repetition of derivations whose tokens the grammar reads. -/
theorem Many.readsOnly {P : List Token → α → Prop} (hP : ∀ ts x, P ts x → ReadsOnly ts)
    {xs : List α} (h : Many P ts xs) : ReadsOnly ts := by
  induction h with
  | nil => exact .nil
  | cons hx _ ih => exact (hP _ _ hx).append ih

/-- A repetition of `X`, each after a comma. -/
theorem Many.readsOnly_commas {P : List Token → α → Prop} (hP : ∀ ts x, P ts x → ReadsOnly ts)
    {xs : List α} (h : Many (Preceded (.punct .comma) P) ts xs) : ReadsOnly ts :=
  h.readsOnly fun _ _ h => by cases h with | mk ht hx => exact .cons (ht ▸ rfl) (hP _ _ hx)

/-- A run of dots and ellipses is punctuation. -/
theorem DotsToInt.readsOnly {v : Spanned Nat} (h : DotsToInt p ts v) : ReadsOnly ts := by
  cases h with
  | mk _ hd _ => exact fun t ht => by rcases hd t ht with h | h <;> exact h ▸ rfl

/-- A dotted name is names and dots. -/
theorem DottedName.readsOnly {v : Spanned (List String)} (h : DottedName p ts v) :
    ReadsOnly ts := by
  cases h with
  | mk hf hparts _ => exact .cons (readByModule_of_isName hf) (readsOnly_pairTokens hparts)

/-- An imported dotted name with its alias is names and punctuation. -/
theorem SimpleImportName.readsOnly {v : Spanned FeParser.SimpleImportName}
    (h : SimpleImportName p ts v) : ReadsOnly ts := by
  cases h with
  | mk hd hal _ => exact hd.readsOnly.append (readsOnly_aliasTokens hal)

/-- A plain import is names and punctuation. -/
theorem SimpleImport.readsOnly {v : Spanned FeParser.ModuleStmt} (h : SimpleImport p ts v) :
    ReadsOnly ts := by
  cases h with
  | mk hkw hn hns _ =>
    exact .cons (hkw ▸ rfl) (hn.readsOnly.append (hns.readsOnly_commas fun _ _ h => h.readsOnly))

/-- An imported name with its alias is names. -/
theorem FromImportName.readsOnly {v : Spanned FeParser.FromImportName}
    (h : FromImportName p ts v) : ReadsOnly ts := by
  cases h with
  | mk hn hal _ => exact .cons (readByModule_of_isName hn) (readsOnly_aliasTokens hal)

/-- The names of a `from` import are names and punctuation. -/
theorem FromImportNames.readsOnly {v : Spanned FeParser.FromImportNames}
    (h : FromImportNames p ts v) : ReadsOnly ts := by
  have hlist : ∀ {us} {x : Spanned FeParser.FromImportNames}, FromImportNamesList p us x →
      ReadsOnly us := fun h => by
    cases h with
    | mk hn hns hc _ =>
      refine (hn.readsOnly.append (hns.readsOnly_commas fun _ _ h => h.readsOnly)).append
        fun t ht => ?_
      exact hc t (Option.mem_toList.1 ht) ▸ rfl
  cases h with
  | star ht _ => exact .cons (ht ▸ rfl) .nil
  | parens ho hl hc _ => exact .cons (ho ▸ rfl) ((hlist hl).append (.cons (hc ▸ rfl) .nil))
  | list hl => exact hlist hl

/-- A `from` import is names and punctuation. -/
theorem FromImport.readsOnly {v : Spanned FeParser.ModuleStmt} (h : FromImport p ts v) :
    ReadsOnly ts := by
  cases h with
  | mk hf hpath hi hn _ =>
    have hp : ∀ {us} {x : Spanned FeParser.FromImportPath}, FromImportPath p us x →
        ReadsOnly us := fun h => by
      cases h with
      | parent hd _ => exact hd.readsOnly
      | relative hd hn _ => exact hd.readsOnly.append hn.readsOnly
      | absolute hn _ => exact hn.readsOnly
    exact .cons (hf ▸ rfl) ((hp hpath).append (.cons (hi ▸ rfl) hn.readsOnly))

/-- A block: a keyword, a name, a colon, a line end, an indent, the body and a dedent. -/
theorem readsOnly_block {kw n c nl ind ded : Token} (hkw : kw.kind.isName = true)
    (hn : n.kind.isName = true) (hc : c.kind = .punct .colon) (hnl : nl.kind = .newline)
    (hi : ind.kind = .indent) (hd : ded.kind = .dedent) (hts : ReadsOnly ts) :
    ReadsOnly (kw :: n :: c :: nl :: ind :: (ts ++ [ded])) :=
  .cons (readByModule_of_isName hkw) (.cons (readByModule_of_isName hn) (.cons (hc ▸ rfl)
    (.cons (hnl ▸ rfl) (.cons (hi ▸ rfl) (hts.append (.cons (hd ▸ rfl) .nil))))))

/-- An event definition is names, punctuation, line ends and indentation. -/
theorem EventDef.readsOnly {v : Spanned ContractStmt} (h : EventDef p ts v) : ReadsOnly ts := by
  cases h with
  | mk hkw hn hc hnl hi hfs _ hd _ =>
    refine readsOnly_block (by rw [hkw]; rfl) hn hc hnl hi hd (hfs.readsOnly fun _ _ h => ?_)
    cases h with
    | mk hn hc ht hnl _ =>
      exact .cons (readByModule_of_isName hn) (.cons (hc ▸ rfl)
        (.cons (readByModule_of_isName ht) (.cons (hnl ▸ rfl) .nil)))

/-- A statement is names, punctuation, line ends and indentation. -/
theorem ModuleStmt.readsOnly {v : Spanned FeParser.ModuleStmt} (h : ModuleStmt p ts v) :
    ReadsOnly ts := by
  cases h with
  | «import» h =>
    cases h with
    | simple hs hnl => exact hs.readsOnly.append (.cons (hnl ▸ rfl) .nil)
    | «from» hf hnl => exact hf.readsOnly.append (.cons (hnl ▸ rfl) .nil)
  | contract h =>
    cases h with
    | mk hkw hn hc hnl hi hbody _ hd _ =>
      exact readsOnly_block (by rw [hkw]; rfl) hn hc hnl hi hd
        (hbody.readsOnly fun _ _ h => h.readsOnly)

/-- A derived module reads only names, punctuation, line ends, indentation and the end marker. -/
theorem FileInput.readsOnly {v : Spanned Module} (h : FileInput p ts v) : ReadsOnly ts := by
  cases h with
  | empty he => exact .cons (he ▸ rfl) .nil
  | nonEmpty hs _ he _ =>
    exact (hs.readsOnly fun _ _ h => h.readsOnly).append (.cons (he ▸ rfl) .nil)

end Grammar

/-- **The parser reads no literal and no error token.** For every source, if `file_input`
accepts the parser's tokens, each of them is a name, punctuation, a line end, indentation or
the end marker. So a source with a number or a string literal outside its comments, or with
a token the lexer could not read (a character outside its patterns, a single-quoted string
left open), is rejected. -/
theorem parse_source_readsOnly {s : List Char} {ts rest : List Token} {m : Spanned Module}
    (h : getParseTokens s = .ok ts) (hm : fileInput ts = .ok (rest, m)) : ReadsOnly ts :=
  (fileInput_reads_all h hm).2.readsOnly

/-- A contract with one event is accepted, and its tokens are all of kinds the grammar reads. -/
theorem parse_source_readsOnly_contract :
    ∃ ts rest m, getParseTokens "contract C:\n  event E:\n    x: u256\n".toList = .ok ts ∧
      fileInput ts = .ok (rest, m) ∧ ReadsOnly ts :=
  ⟨_, _, _, rfl, rfl,
    @parse_source_readsOnly "contract C:\n  event E:\n    x: u256\n".toList _ _ _ rfl rfl⟩

end FeParser
