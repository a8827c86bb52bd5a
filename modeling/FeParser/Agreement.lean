import FeParser.Completeness

/-!
# `file_input` against the grammar

On tokens whose names carry their text, `file_input` and the grammar of `FeParser.Grammar`
agree up to one shape of statement. A success consumed a prefix deriving the module it
returns, and that module never holds a relative `from` import of the module `import`;
every derivation without such an import is read back, up to spans, in front of anything.
The shape itself is derivable and rejected: on `from . import import x NEWLINE ENDMARKER`
the grammar derives a relative import through `from_import_sub_alt`, while `from_import`
commits to `from_import_parent_alt`, which reads `from . import import` and leaves `x` in
front of the `NEWLINE` that `import_stmt` checks outside the `alt`.

That the parser never returns the shape rests on `from_import_parent_alt` succeeding
wherever `from_import_sub_alt` would return it, which needs the import names after it to be
read whatever follows them. That is a totality fact: each parser involved succeeds or fails
recoverably, never stopping the run (`Recovers`), and the items of its `many` loop consume
on success (`Advances`).

## Main results

* `fileInput_agrees_with_grammar`: on tokens whose names carry their text, `file_input` is
  sound for the grammar without the excluded shape, and complete for it up to spans.
* `fileInput_rejects_relativeImportOfImport`: the tokens of `from . import import x` derive
  a module, and `file_input` fails on them.
-/

namespace FeParser

open Grammar

variable {α β : Type}

/-! ### Totality -/

/-- `f` never stops the run: it succeeds or fails with a recoverable `Error`. -/
def Recovers (f : Parser α) : Prop := ∀ input, (∃ r, f input = .ok r) ∨ Fails (f input)

/-- `f` never stops the run, and consumes a token whenever it succeeds. -/
def Advances (f : Parser α) : Prop :=
  ∀ input, (∃ rest x, f input = .ok (rest, x) ∧ rest.length < input.length) ∨ Fails (f input)

/-- A token parser reads a token or fails recoverably. -/
theorem tokenWith_recovers (cond : Token → Bool) : Recovers (tokenWith cond) := by
  intro input
  cases input with
  | nil => exact .inr (tokenWith_fails.2 (by simp))
  | cons t ts =>
    by_cases h : cond t
    · exact .inl ⟨_, tokenWith_cons h⟩
    · exact .inr (tokenWith_fails.2 (by simpa using h))

/-- `token(kind)` reads a token or fails recoverably. -/
theorem token_recovers (kind : TokenKind) : Recovers (token kind) := tokenWith_recovers _

/-- `pair` of two parsers that never stop the run never stops it. -/
theorem recovers_pair {p : Parser α} {q : Parser β} (hp : Recovers p) (hq : Recovers q) :
    Recovers (pair p q) := by
  intro input
  rcases hp input with ⟨⟨mid, a⟩, ha⟩ | hf
  · rcases hq mid with ⟨⟨rest, b⟩, hb⟩ | hf
    · exact .inl ⟨_, pair_eq_ok.2 ⟨mid, ha, hb⟩⟩
    · exact .inr (pair_fails.2 (.inr ⟨mid, a, ha, hf⟩))
  · exact .inr (pair_fails.2 (.inl hf))

/-- `preceded` of two parsers that never stop the run never stops it. -/
theorem recovers_preceded {p : Parser α} {q : Parser β} (hp : Recovers p) (hq : Recovers q) :
    Recovers (preceded p q) := by
  intro input
  rcases recovers_pair hp hq input with ⟨⟨rest, a⟩, ha⟩ | hf
  exacts [.inl ⟨_, map_of_ok ha⟩, .inr (map_fails.2 hf)]

/-- `opt` turns every recoverable failure into a success. -/
theorem opt_ok {p : Parser α} (hp : Recovers p) (input : List Token) :
    ∃ r, opt p input = .ok r := by
  rcases hp input with ⟨⟨rest, a⟩, ha⟩ | hf
  exacts [⟨_, opt_of_ok ha⟩, ⟨_, opt_of_fails hf⟩]

/-- An item after a separator token consumes at least that token. -/
theorem advances_preceded {kind : TokenKind} {q : Parser α}
    {P : List Token → α → Prop} (hq : Recovers q) (hs : SoundFor q P) :
    Advances (preceded (token kind) q) := by
  intro input
  rcases token_recovers kind input with ⟨⟨mid, t⟩, ht⟩ | hf
  · obtain ⟨rfl, -⟩ := tokenWith_eq_ok.1 ht
    rcases hq mid with ⟨⟨rest, x⟩, hx⟩ | hf
    · obtain ⟨pre, rfl, -⟩ := hs hx
      refine .inl ⟨rest, x, map_of_ok (pair_eq_ok.2 ⟨_, ht, hx⟩), ?_⟩
      simp only [List.length_cons, List.length_append]
      omega
    · exact .inr (map_fails.2 (pair_fails.2 (.inr ⟨_, _, ht, hf⟩)))
  · exact .inr (map_fails.2 (pair_fails.2 (.inl hf)))

/-- The `many` loop over an item that advances succeeds, under any bound. -/
theorem manyLoop_ok {f : Parser α} (hf : Advances f) (code : ErrorKind) :
    ∀ n input, ∃ r, manyLoop code f n input = .ok r
  | 0, _ => ⟨_, rfl⟩
  | n + 1, input => by
    rcases hf input with ⟨rest, x, hx, hlt⟩ | ⟨e, he⟩
    · obtain ⟨⟨r, xs⟩, hr⟩ := manyLoop_ok hf code n rest
      exact ⟨(r, x :: xs), by simp only [manyLoop, hx, if_pos hlt, map, hr]⟩
    · exact ⟨(input, []), by simp only [manyLoop, he]⟩

/-- `many0` over an item that advances always succeeds. -/
theorem many0_ok {f : Parser α} (hf : Advances f) (input : List Token) :
    ∃ r, many0 f input = .ok r :=
  manyLoop_ok hf .many0 _ input

/-! ### Reading the names of a `from` import -/

/-- `from_import_name` succeeds on a name, whatever follows it. -/
theorem fromImportName_ok {i : Token} (later : List Token) (hi : i.kind.isName = true) :
    ∃ r, fromImportName (i :: later) = .ok r := by
  obtain ⟨⟨r, a⟩, ha⟩ : ∃ r, opt (preceded (nameString "as") nameToken) later = .ok r :=
    opt_ok (recovers_preceded (tokenWith_recovers _) (tokenWith_recovers _)) later
  exact ⟨_, by simp only [fromImportName, nameToken_cons hi, ok_bind, ha]; rfl⟩

/-- `from_import_name` never stops the run. -/
theorem fromImportName_recovers : Recovers fromImportName := by
  intro input
  rcases tokenWith_recovers (·.kind.isName) input with ⟨⟨later, i⟩, hi⟩ | hf
  · obtain ⟨rfl, hk⟩ := tokenWith_eq_ok.1 hi
    exact .inl (fromImportName_ok later hk)
  · exact .inr (by unfold fromImportName; exact bind_fails.2 (.inl hf))

/-- `from_import_names_list` succeeds on a name, whatever follows it. -/
theorem fromImportNamesList_ok {i : Token} (later : List Token) (hi : i.kind.isName = true) :
    ∃ r, fromImportNamesList (i :: later) = .ok r := by
  obtain ⟨⟨r₁, n⟩, hn⟩ := fromImportName_ok later hi
  obtain ⟨⟨r₂, ns⟩, hns⟩ : ∃ r, many0 (preceded (token (.punct .comma)) fromImportName) r₁ = .ok r :=
    many0_ok (advances_preceded fromImportName_recovers fromImportName_sound) r₁
  obtain ⟨⟨r₃, c⟩, hc⟩ : ∃ r, opt (token (.punct .comma)) r₂ = .ok r :=
    opt_ok (token_recovers _) r₂
  exact ⟨_, by simp only [fromImportNamesList, hn, ok_bind, hns, hc]; rfl⟩

/-- Names after `import` are read whatever follows them. -/
theorem fromImportNames_ok {i : Token} (later : List Token) (hi : i.kind.isName = true) :
    ∃ r, fromImportNames (i :: later) = .ok r := by
  obtain ⟨r, hr⟩ := fromImportNamesList_ok later hi
  refine ⟨r, ?_⟩
  rw [fromImportNames, alt_of_fails (fromImportNamesStar_fails (ne_punct_of_isName hi _)),
    alt_of_fails (fromImportNamesParens_fails (ne_punct_of_isName hi _)), hr]

/-! ### The excluded shape is never returned -/

/-- `from_import_parent_alt` returns no dotted name in its path. -/
theorem fromImportParentAlt_not_relativeImportOfImport {input rest : List Token}
    {v : Spanned FeParser.ModuleStmt} (h : fromImportParentAlt input = .ok (rest, v)) :
    ¬ v.node.RelativeImportOfImport := by
  simp only [fromImportParentAlt, bind_eq_ok, Prod.exists, pure, Except.pure, Except.ok.injEq,
    Prod.mk.injEq] at h
  obtain ⟨_, _, -, _, _, -, _, _, -, _, _, -, -, rfl⟩ := h
  simp [ModuleStmt.RelativeImportOfImport]

/-- Where a `from` import derives a relative import of the module `import`,
`from_import_parent_alt` reads its tokens as `from . import (import)`. -/
theorem fromImportParentAlt_ok {p : List Token → Span → Prop} {pre : List Token}
    (rest : List Token) {v : Spanned FeParser.ModuleStmt} (h : FromImport p pre v)
    (hv : v.node.RelativeImportOfImport) (hnames : ∀ t ∈ pre, t.NameCarriesText) :
    ∃ r, fromImportParentAlt (pre ++ rest) = .ok r := by
  cases h with
  | @mk f i ts us path names s hf hp hi hn _ =>
    cases hp with
    | parent => simp [ModuleStmt.RelativeImportOfImport] at hv
    | absolute => simp [ModuleStmt.RelativeImportOfImport] at hv
    | @relative ds ps lvl path s' hl hpath _ =>
      cases hpath with
      | @mk first parts _ hfirst _ _ =>
        obtain ⟨hstr, rfl⟩ : first.string = "import" ∧ parts = [] := by
          simpa [ModuleStmt.RelativeImportOfImport] using hv
        have hkw : first.kind = .name "import" := by
          obtain ⟨s, hs⟩ := TokenKind.isName_iff.1 hfirst
          rw [hs, hnames first (by simp) s hs, hstr]
        obtain ⟨lvl', hl', -⟩ := dotsToInt_complete (first :: i :: (us ++ rest)) hl (by simp [hkw])
        obtain ⟨r, hr⟩ := fromImportNames_ok (i := i) (us ++ rest) (by simp [hi])
        exact ⟨_, by simp only [pairTokens, List.flatMap_nil, List.cons_append, List.append_assoc,
          List.nil_append, fromImportParentAlt, nameString_cons hf, ok_bind, hl',
          nameString_cons hkw, hr]; rfl⟩

/-- A success of `from_import` on tokens whose names carry their text is never a relative import of
the module `import`: where `from_import_sub_alt` would return one, `from_import_parent_alt` has
already succeeded. -/
theorem fromImport_shape : SoundFor fromImport fun pre v =>
    (∀ t ∈ pre, t.NameCarriesText) → ¬ v.node.RelativeImportOfImport := by
  intro input rest v h
  rcases alt_eq_ok.1 h with hp | ⟨⟨e, he⟩, hs⟩
  · obtain ⟨pre, rfl, -⟩ := fromImportParentAlt_sound hp
    exact ⟨pre, rfl, fun _ => fromImportParentAlt_not_relativeImportOfImport hp⟩
  · obtain ⟨pre, rfl, hpre⟩ := fromImportSubAlt_sound hs
    refine ⟨pre, rfl, fun hnames hv => ?_⟩
    obtain ⟨r, hr⟩ := fromImportParentAlt_ok rest hpre hv hnames
    rw [hr] at he
    cases he

/-- A success of `import_stmt` on tokens whose names carry their text is never a relative import of
the module `import`. -/
theorem importStmt_shape : SoundFor importStmt fun pre v =>
    (∀ t ∈ pre, t.NameCarriesText) → ¬ v.node.RelativeImportOfImport := by
  intro input rest x h
  obtain ⟨⟨x, nl⟩, hpq, rfl⟩ := map_eq_ok.1 h
  obtain ⟨mid, h₁, h₂⟩ := pair_eq_ok.1 hpq
  obtain ⟨rfl, -⟩ := tokenWith_eq_ok.1 h₂
  rcases alt_eq_ok.1 h₁ with h₁ | ⟨-, h₁⟩
  · obtain ⟨pre, rfl, hpre⟩ := simpleImport_sound h₁
    refine ⟨pre ++ [nl], by simp, fun _ => ?_⟩
    cases hpre
    simp [ModuleStmt.RelativeImportOfImport]
  · obtain ⟨pre, rfl, hpre⟩ := fromImport_shape h₁
    exact ⟨pre ++ [nl], by simp, fun hn => hpre fun t ht => hn t (List.mem_append_left _ ht)⟩

/-- A success of `module_stmt` on tokens whose names carry their text is never a relative import of
the module `import`. -/
theorem moduleStmt_shape : SoundFor moduleStmt fun pre v =>
    (∀ t ∈ pre, t.NameCarriesText) → ¬ v.node.RelativeImportOfImport :=
  alt_sound importStmt_shape (contractDef_sound.mono fun _ _ h _ => by
    cases h
    simp [ModuleStmt.RelativeImportOfImport])

/-- No statement of a module that `file_input` returns, on tokens whose names carry their text, is a
relative import of the module `import`. -/
theorem fileInput_shape : SoundFor fileInput fun pre m =>
    (∀ t ∈ pre, t.NameCarriesText) → ∀ s ∈ m.node.body, ¬ s.node.RelativeImportOfImport := by
  refine alt_sound ?_ ?_
  · intro input rest v h
    obtain ⟨pre, hpre, -⟩ := emptyFileInput_sound h
    refine ⟨pre, hpre, fun _ s hs => ?_⟩
    simp only [emptyFileInput, bind_eq_ok, Prod.exists, pure, Except.pure, Except.ok.injEq,
      Prod.mk.injEq] at h
    obtain ⟨_, _, -, -, rfl⟩ := h
    simp at hs
  · intro input rest v h
    simp only [nonEmptyFileInput, bind_eq_ok, Prod.exists, pure, Except.pure, Except.ok.injEq,
      Prod.mk.injEq] at h
    obtain ⟨r₁, ⟨body, hne⟩, hb, r₂, e, he, rfl, rfl⟩ := h
    obtain ⟨rfl, -⟩ := tokenWith_eq_ok.1 he
    obtain ⟨pre, rfl, hpre⟩ := many1_sound moduleStmt_shape hb
    refine ⟨pre ++ [e], by simp, fun hn s hs => ?_⟩
    obtain ⟨seg, hseg, hP⟩ := hpre.forall s hs
    exact hP fun t ht => hn t (List.mem_append_left _ (hseg.subset ht))

/-! ### Agreement -/

/-- On tokens whose names carry their text, a success of `file_input` consumed a prefix
deriving the module it returns, which holds no relative import of the module `import`; and
every derivation without one is read back, in front of anything, as the same module up to
spans. -/
theorem fileInput_agrees_with_grammar {ts : List Token} (hnames : ∀ t ∈ ts, t.NameCarriesText) :
    (∀ rest m, fileInput ts = .ok (rest, m) →
      ∃ pre, ts = pre ++ rest ∧ FileInput Unconstrained pre m ∧
        ∀ s ∈ m.node.body, ¬ s.node.RelativeImportOfImport) ∧
    (∀ pre rest m, ts = pre ++ rest → FileInput Unconstrained pre m →
      (∀ s ∈ m.node.body, ¬ s.node.RelativeImportOfImport) →
      ∃ m', fileInput ts = .ok (rest, m') ∧ Module.erase m' = Module.erase m) := by
  refine ⟨fun rest m h => ?_, fun pre rest m hts hm hv => ?_⟩
  · obtain ⟨pre, rfl, hpre⟩ := fileInput_sound h
    obtain ⟨pre', hpre', hshape⟩ := fileInput_shape h
    obtain rfl := List.append_cancel_right hpre'
    exact ⟨pre, rfl, hpre.mono (weaker_unconstrained _),
      hshape fun t ht => hnames t (List.mem_append_left _ ht)⟩
  · subst hts
    exact fileInput_complete rest hm hv fun t ht => hnames t (List.mem_append_left _ ht)

/-- The tokens of `from . import import x`, then `NEWLINE` and `ENDMARKER`. -/
def relativeImportOfImport : List Token :=
  [⟨.name "from", "from", ⟨0, 4⟩⟩, ⟨.punct .dot, ".", ⟨5, 6⟩⟩,
    ⟨.name "import", "import", ⟨7, 13⟩⟩, ⟨.name "import", "import", ⟨14, 20⟩⟩,
    ⟨.name "x", "x", ⟨21, 22⟩⟩, ⟨.newline, "\n", ⟨22, 23⟩⟩, ⟨.endMarker, "", ⟨23, 23⟩⟩]

/-- The tokens of `from . import x`, then `NEWLINE` and `ENDMARKER`. -/
def relativeImport : List Token :=
  [⟨.name "from", "from", ⟨0, 4⟩⟩, ⟨.punct .dot, ".", ⟨5, 6⟩⟩,
    ⟨.name "import", "import", ⟨7, 13⟩⟩, ⟨.name "x", "x", ⟨14, 15⟩⟩,
    ⟨.newline, "\n", ⟨15, 16⟩⟩, ⟨.endMarker, "", ⟨16, 16⟩⟩]

/-- `file_input` reads the whole of `from . import x`, where it agrees with the grammar. -/
theorem fileInput_agrees_with_grammar_relativeImport :
    (∃ m, fileInput relativeImport = .ok ([], m)) ∧
    (∀ t ∈ relativeImport, t.NameCarriesText) ∧
    (∀ rest m, fileInput relativeImport = .ok (rest, m) →
      ∃ pre, relativeImport = pre ++ rest ∧ FileInput Unconstrained pre m ∧
        ∀ s ∈ m.node.body, ¬ s.node.RelativeImportOfImport) ∧
    (∀ pre rest m, relativeImport = pre ++ rest → FileInput Unconstrained pre m →
      (∀ s ∈ m.node.body, ¬ s.node.RelativeImportOfImport) →
      ∃ m', fileInput relativeImport = .ok (rest, m') ∧ Module.erase m' = Module.erase m) :=
  have hnames : ∀ t ∈ relativeImport, t.NameCarriesText := by
    simp [relativeImport, Token.NameCarriesText]
  ⟨⟨_, rfl⟩, hnames, fileInput_agrees_with_grammar hnames⟩

/-- `from . import import x` derives a module through `from_import_sub_alt`, and
`file_input` fails on it. -/
theorem fileInput_rejects_relativeImportOfImport :
    (∃ m, FileInput Unconstrained relativeImportOfImport m ∧
      ∀ s ∈ m.node.body, s.node.RelativeImportOfImport) ∧
    Fails (fileInput relativeImportOfImport) := by
  refine ⟨?_, _, rfl⟩
  obtain ⟨tf, td, ti₁, ti₂, tx, tnl, te, hts, hf, hd, hi₁, hs₁, hi₂, hx, hnl, he⟩ :
      ∃ tf td ti₁ ti₂ tx tnl te : Token,
        relativeImportOfImport = [tf, td, ti₁, ti₂, tx, tnl, te] ∧ tf.kind = .name "from" ∧
        td.kind = .punct .dot ∧ ti₁.kind = .name "import" ∧ ti₁.string = "import" ∧
        ti₂.kind = .name "import" ∧ tx.kind = .name "x" ∧ tnl.kind = .newline ∧
        te.kind = .endMarker :=
    ⟨_, _, _, _, _, _, _, rfl, rfl, rfl, rfl, rfl, rfl, rfl, rfl, rfl⟩
  have hpath : Grammar.FromImportPath Unconstrained [td, ti₁] _ :=
    @Grammar.FromImportPath.relative Unconstrained [td] [ti₁] _ _ Span.zero
      (@DotsToInt.mk Unconstrained [td] Span.zero (by simp) (by simp [hd]) trivial)
      (@Grammar.DottedName.mk Unconstrained ti₁ [] Span.zero (by simp [hi₁]) (by simp) trivial)
      trivial
  have hnames : Grammar.FromImportNames Unconstrained [tx] _ :=
    .list (@Grammar.FromImportNamesList.mk Unconstrained [tx] [] _ _ none Span.zero
      (@Grammar.FromImportName.mk Unconstrained tx none Span.zero (by simp [hx]) trivial trivial)
      .nil (by simp) trivial)
  have hstmt : Grammar.ModuleStmt Unconstrained [tf, td, ti₁, ti₂, tx, tnl] _ :=
    .import (@Grammar.ImportStmt.from Unconstrained [tf, td, ti₁, ti₂, tx] tnl _
      (@Grammar.FromImport.mk Unconstrained tf ti₂ [td, ti₁] [tx] _ _ Span.zero hf hpath hi₂ hnames
        trivial) hnl)
  rw [hts]
  exact ⟨_, @Grammar.FileInput.nonEmpty Unconstrained [tf, td, ti₁, ti₂, tx, tnl] te _ Span.zero
    (.cons hstmt .nil) (by simp) he trivial, by simp [ModuleStmt.RelativeImportOfImport, hs₁]⟩

end FeParser
