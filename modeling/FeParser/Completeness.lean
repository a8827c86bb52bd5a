import FeParser.Soundness

/-!
# Completeness of the module-level parsers

Every derivation in the grammar of `FeParser.Grammar` is read back by its parser, as the
same tree up to spans, in front of what may follow it in the grammar. The one exception is
a relative `from` import of the module `import` (`from . import import x`): there
`from_import` commits to `from_import_parent_alt`, which reads `import import x` as
`from . import (import)` and leaves `x` where `import_stmt` wants its `NEWLINE`
(`fromImport_complete` excludes that shape). The exclusion is stated on trees, so it needs
name tokens whose symbol is their text, as the lexer makes them (`NameCarriesText`).

The repetitions are read by `manyLoop_of_many`: a `many` loop over segments that its item
parser reads one by one, up to a normal form `g`, stopping in front of what follows.

## Main results

* `fileInput_complete`: `file_input` reads every derivation from `file_input` without the
  excluded shape back as the same module up to spans.
-/

namespace FeParser

open Grammar

variable {α β γ : Type}

/-! ### Repetitions -/

namespace Grammar

/-- A list of tokens that each pass a check is a repetition of one-token derivations. -/
theorem Many.of_singles {c : Token → Prop} {ts : List Token} (h : ∀ t ∈ ts, c t) :
    Many (fun pre t => pre = [t] ∧ c t) ts ts := by
  induction ts with
  | nil => exact .nil
  | cons t ts ih =>
    exact show Many _ ([t] ++ ts) (t :: ts) from
      .cons ⟨rfl, h t (List.mem_cons_self _ _)⟩ (ih fun u hu => h u (List.mem_cons_of_mem _ hu))

/-- The tokens of `(kind NAME)*` pairs are a repetition of separated one-token derivations. -/
theorem Many.of_pairs {c : Token → Prop} {kind : TokenKind} {parts : List (Token × Token)}
    (h : ∀ q ∈ parts, q.1.kind = kind ∧ c q.2) :
    Many (Preceded kind fun pre t => pre = [t] ∧ c t) (pairTokens parts) (parts.map (·.2)) := by
  induction parts with
  | nil => exact .nil
  | cons q parts ih =>
    have hq := h q (List.mem_cons_self _ _)
    exact show Many _ ([q.1, q.2] ++ pairTokens parts) _ from
      .cons (.mk hq.1 ⟨rfl, hq.2⟩) (ih fun r hr => h r (List.mem_cons_of_mem _ hr))

/-- Facts about the elements and the tokens of a repetition, carried by each segment. -/
theorem Many.strengthen {P : List Token → α → Prop} {A : α → Prop} {B : Token → Prop}
    {us : List Token} {xs : List α} (h : Many P us xs) (hA : ∀ x ∈ xs, A x) (hB : ∀ t ∈ us, B t) :
    Many (fun seg x => P seg x ∧ A x ∧ ∀ t ∈ seg, B t) us xs := by
  induction h with
  | nil => exact .nil
  | cons hx _ ih =>
    exact .cons ⟨hx, hA _ (List.mem_cons_self _ _), fun t ht => hB t (List.mem_append_left _ ht)⟩
      (ih (fun x hx => hA x (List.mem_cons_of_mem _ hx)) fun t ht => hB t (List.mem_append_right _ ht))

end Grammar

section Loop

variable {f : Parser α} {P : List Token → β → Prop} {g : α → γ} {h : β → γ}
  {C : List Token → Prop}

/-- What follows each segment of a repetition satisfies `C`, when every segment starts in a
way that does and what follows the repetition does. -/
theorem Grammar.Many.follows (hstart : ∀ seg x later, P seg x → C (seg ++ later))
    {us rest : List Token} {xs : List β} (hm : Many P us xs) (hC : C rest) : C (us ++ rest) := by
  cases hm with
  | nil => exact hC
  | cons hx _ => rw [List.append_assoc]; exact hstart _ _ _ hx

variable (hread : ∀ seg x later, P seg x → C later →
      ∃ y, f (seg ++ later) = .ok (later, y) ∧ g y = h x)
    (hne : ∀ seg x, P seg x → seg ≠ [])
    (hstart : ∀ seg x later, P seg x → C (seg ++ later))
include hread hne hstart

/-- The `many` loop reads a repetition of segments that `f` reads one by one, and stops in
front of `rest`, where `f` fails. -/
theorem manyLoop_of_many (code : ErrorKind) {us rest : List Token} {xs : List β}
    (hm : Many P us xs) (hC : C rest) (hfail : Fails (f rest)) :
    ∃ ys, manyLoop code f ((us ++ rest).length + 1) (us ++ rest) = .ok (rest, ys) ∧
      ys.map g = xs.map h := by
  induction hm with
  | nil =>
    obtain ⟨e, he⟩ := hfail
    exact ⟨[], by rw [List.nil_append, manyLoop_eq, he], rfl⟩
  | @cons ts us x xs hx hxs ih =>
    obtain ⟨y, hy, hgy⟩ := hread _ _ _ hx (hxs.follows hstart hC)
    obtain ⟨ys, hys, hmap⟩ := ih
    have hlt : (us ++ rest).length < (ts ++ (us ++ rest)).length := by
      have := List.length_pos.2 (hne _ _ hx)
      simp only [List.length_append] at *
      omega
    refine ⟨y :: ys, ?_, by simp [hgy, hmap]⟩
    rw [List.append_assoc, manyLoop_eq, hy]
    dsimp only
    rw [if_pos hlt]
    simp only [map, hys]

/-- `many0` reads a repetition back, up to the normal form, and stops in front of what follows. -/
theorem many0_of_many {us rest : List Token} {xs : List β} (hm : Many P us xs) (hC : C rest)
    (hfail : Fails (f rest)) :
    ∃ ys, many0 f (us ++ rest) = .ok (rest, ys) ∧ ys.map g = xs.map h :=
  manyLoop_of_many hread hne hstart .many0 hm hC hfail

/-- `many1` reads a non-empty repetition back, up to the normal form, and stops in front of what
follows. -/
theorem many1_of_many {us rest : List Token} {xs : List β} (hm : Many P us xs) (hxs : xs ≠ [])
    (hC : C rest) (hfail : Fails (f rest)) :
    ∃ ys : {l : List α // l ≠ []}, many1 f (us ++ rest) = .ok (rest, ys) ∧
      ys.val.map g = xs.map h := by
  cases hm with
  | nil => contradiction
  | @cons ts us x xs hx hxs' =>
    obtain ⟨y, hy, hgy⟩ := hread _ _ _ hx (hxs'.follows hstart hC)
    obtain ⟨ys, hys, hmap⟩ := manyLoop_of_many hread hne hstart .many1 hxs' hC hfail
    refine ⟨⟨y :: ys, List.cons_ne_nil _ _⟩, ?_, by simp [hgy, hmap]⟩
    unfold many1
    rw [List.append_assoc, hy]
    simp only [map, hys]

end Loop

/-! ### What may follow a name -/

/-- `rest` cannot continue an imported name: it starts neither with `.` nor with `as`. -/
def StopsName (rest : List Token) : Prop :=
  ∀ t ∈ rest.head?, t.kind ≠ .punct .dot ∧ t.kind ≠ .name "as"

/-- Tokens whose first token is neither `.` nor `as` cannot continue a name. -/
theorem stopsName_cons {t : Token} (rest : List Token) (hd : t.kind ≠ .punct .dot)
    (ha : t.kind ≠ .name "as") : StopsName (t :: rest) := by
  intro u hu
  obtain rfl : t = u := by simpa using hu
  exact ⟨hd, ha⟩

/-- The loop item `("." NAME)` fails in front of anything but a dot. -/
theorem dotName_fails {rest : List Token} (h : ∀ t ∈ rest.head?, t.kind ≠ .punct .dot) :
    Fails (preceded (token (.punct .dot)) nameToken rest) :=
  map_fails.2 (pair_fails.2 (.inl (token_fails h)))

/-- The optional alias reads an alias back, or nothing in front of what cannot continue a name. -/
theorem alias_complete {a : Option (Token × Token)} {rest : List Token} (ha : IsAlias a)
    (h : StopsName rest) :
    opt (preceded (nameString "as") nameToken) (aliasTokens a ++ rest) =
      .ok (rest, a.map (·.2)) := by
  rcases a with _ | ⟨kw, n⟩
  · exact opt_of_fails (map_fails.2 (pair_fails.2 (.inl (tokenWith_fails.2 fun t ht => by
      simpa using (h t ht).2))))
  · exact opt_of_ok (map_of_ok (pair_eq_ok.2 ⟨_, nameString_cons ha.1, nameToken_cons ha.2⟩))

/-! ### Each parser -/

section Parsers

variable {p : List Token → Span → Prop}

/-- An alternative of two token parsers reads a token of either kind. -/
theorem alt_token_ok {k₁ k₂ : TokenKind} {t : Token} {later : List Token}
    (h : t.kind = k₁ ∨ t.kind = k₂) : alt (token k₁) (token k₂) (t :: later) = .ok (later, t) := by
  by_cases h₁ : t.kind = k₁
  · exact alt_of_ok (token_cons h₁)
  · rw [alt_of_fails (token_fails (by simpa using h₁))]
    exact token_cons (h.resolve_left h₁)

/-- `dots_to_int` reads a run of dots and ellipses back, in front of anything else. -/
theorem dotsToInt_complete {ts : List Token} (rest : List Token) {v : Spanned Nat}
    (h : DotsToInt p ts v)
    (hrest : ∀ t ∈ rest.head?, t.kind ≠ .punct .dot ∧ t.kind ≠ .punct .ellipsis) :
    ∃ v', dotsToInt (ts ++ rest) = .ok (rest, v') ∧ v'.node = v.node := by
  cases h with
  | mk hne hk _ =>
    obtain ⟨ys, hys, hmap⟩ := many1_of_many (C := fun _ => True) (g := id) (h := id)
      (fun _ t _ ⟨hseg, hkt⟩ _ => ⟨t, by subst hseg; exact alt_token_ok hkt, rfl⟩)
      (fun _ _ ⟨hseg, _⟩ => by simp [hseg]) (fun _ _ _ _ => trivial)
      (Many.of_singles hk) hne trivial
      (alt_fails.2 ⟨token_fails fun t ht => (hrest t ht).1, token_fails fun t ht => (hrest t ht).2⟩)
    simp only [List.map_id] at hmap
    refine ⟨_, by simp only [dotsToInt, hys, ok_bind]; rfl, ?_⟩
    simp [hmap]

/-- The loop item `("." NAME)` reads a dot and a name back. -/
theorem dotName_read {seg : List Token} {x : Token} (later : List Token)
    (h : Preceded (.punct .dot) (fun pre t => pre = [t] ∧ t.kind.isName = true) seg x) :
    preceded (token (.punct .dot)) nameToken (seg ++ later) = .ok (later, x) := by
  cases h with
  | mk hd hn =>
    obtain ⟨rfl, hn⟩ := hn
    exact map_of_ok (pair_eq_ok.2 ⟨_, token_cons hd, nameToken_cons hn⟩)

/-- `dotted_name` reads a derivation back, in front of anything but a dot. -/
theorem dottedName_complete {ts : List Token} (rest : List Token) {v : Spanned (List String)}
    (h : DottedName p ts v) (hrest : ∀ t ∈ rest.head?, t.kind ≠ .punct .dot) :
    ∃ v', dottedName (ts ++ rest) = .ok (rest, v') ∧ v'.node = v.node := by
  cases h with
  | mk hf hparts _ =>
    obtain ⟨ys, hys, hmap⟩ := many0_of_many (C := fun _ => True) (g := id) (h := id)
      (fun _ x later hx _ => ⟨x, dotName_read later hx, rfl⟩)
      (fun _ _ hx => by cases hx; simp) (fun _ _ _ _ => trivial)
      (Many.of_pairs hparts) trivial (dotName_fails hrest)
    simp only [List.map_id] at hmap
    refine ⟨_, by simp only [List.cons_append, dottedName, nameToken_cons hf, ok_bind, hys]; rfl, ?_⟩
    simp [hmap]

/-- `simple_import_name` reads a derivation back, in front of what cannot continue a name. -/
theorem simpleImportName_complete {ts : List Token} (rest : List Token)
    {v : Spanned FeParser.SimpleImportName} (h : Grammar.SimpleImportName p ts v)
    (hrest : StopsName rest) :
    ∃ v', simpleImportName (ts ++ rest) = .ok (rest, v') ∧ v'.node = v.node := by
  cases h with
  | @mk ts path a s hp ha _ =>
    have hd : ∀ t ∈ (aliasTokens a ++ rest).head?, t.kind ≠ .punct .dot := by
      rcases a with _ | ⟨kw, n⟩
      · exact fun t ht => (hrest t ht).1
      · intro t ht
        obtain rfl : kw = t := by simpa [aliasTokens] using ht
        simp [ha.1]
    obtain ⟨path', hp', hpn⟩ := dottedName_complete _ hp hd
    refine ⟨_, by simp only [List.append_assoc, simpleImportName, hp', ok_bind,
      alias_complete ha hrest]; rfl, ?_⟩
    simp [hpn, Option.map_map, Function.comp_def]

/-- `from_import_name` reads a derivation back, in front of what cannot continue a name. -/
theorem fromImportName_complete {ts : List Token} (rest : List Token)
    {v : Spanned FeParser.FromImportName} (h : Grammar.FromImportName p ts v)
    (hrest : StopsName rest) :
    ∃ v', fromImportName (ts ++ rest) = .ok (rest, v') ∧ v'.node = v.node := by
  cases h with
  | mk hn ha _ =>
    refine ⟨_, by simp only [List.cons_append, fromImportName, nameToken_cons hn, ok_bind,
      alias_complete ha hrest]; rfl, ?_⟩
    simp [Option.map_map, Function.comp_def]

/-- `rest` closes a list of imported names: it starts with `NEWLINE` or `)`. -/
def ClosesList (rest : List Token) : Prop :=
  ∀ t ∈ rest.head?, t.kind = .newline ∨ t.kind = .punct .closeParen

/-- What closes a list of names cannot continue a name. -/
theorem ClosesList.stopsName {rest : List Token} (h : ClosesList rest) : StopsName rest :=
  fun t ht => by rcases h t ht with h | h <;> simp [h]

/-- `from_import_name` fails in front of anything but a name. -/
theorem fromImportName_fails {rest : List Token} (h : ∀ t ∈ rest.head?, t.kind.isName = false) :
    Fails (fromImportName rest) := by
  unfold fromImportName
  exact bind_fails.2 (.inl (tokenWith_fails.2 h))

/-- A comma starts every later item of a separated list, so each item stops in front of it. -/
theorem stopsName_commaItem {P : List Token → α → Prop} {seg later : List Token} {x : α}
    (h : Preceded (.punct .comma) P seg x) : StopsName (seg ++ later) := by
  cases h with
  | mk hc _ => exact stopsName_cons _ (by simp [hc]) (by simp [hc])

/-- `simple_import` reads a derivation back, up to spans, in front of a `Newline`. -/
theorem simpleImport_complete {ts : List Token} (rest : List Token)
    {v : Spanned FeParser.ModuleStmt} (h : SimpleImport p ts v)
    (hrest : ∀ t ∈ rest.head?, t.kind = .newline) :
    ∃ v', simpleImport (ts ++ rest) = .ok (rest, v') ∧ v'.node.erase = v.node.erase := by
  have hstop : StopsName rest := fun t ht => by simp [hrest t ht]
  cases h with
  | mk hkw hn hns _ =>
    obtain ⟨ys, hys, hmap⟩ := many0_of_many
      (f := preceded (token (.punct .comma)) simpleImportName) (C := StopsName)
      (g := Spanned.erase) (h := Spanned.erase)
      (fun _ _ later hx hC => by
        cases hx with
        | mk hc hx =>
          obtain ⟨y, hy, hyn⟩ := simpleImportName_complete later hx hC
          exact ⟨y, map_of_ok (pair_eq_ok.2 ⟨_, token_cons hc, hy⟩), by simp [Spanned.erase, hyn]⟩)
      (fun _ _ hx => by cases hx; simp) (fun _ _ _ => stopsName_commaItem)
      hns hstop (map_fails.2 (pair_fails.2 (.inl (token_fails fun t ht => by simp [hrest t ht]))))
    obtain ⟨n', hn', hnn⟩ :=
      simpleImportName_complete _ hn (hns.follows (fun _ _ _ => stopsName_commaItem) hstop)
    refine ⟨_, by simp only [List.cons_append, List.append_assoc, simpleImport,
      nameString_cons hkw, ok_bind, hn', hys]; rfl, ?_⟩
    simp only [ModuleStmt.erase, List.map_cons, hmap]
    simp [Spanned.erase, hnn]

/-- `from_import_names_list` reads a derivation back, up to spans, in front of a `Newline` or `)`.
-/
theorem fromImportNamesList_complete {ts : List Token} (rest : List Token)
    {v : Spanned FeParser.FromImportNames} (h : FromImportNamesList p ts v)
    (hrest : ClosesList rest) :
    ∃ v', fromImportNamesList (ts ++ rest) = .ok (rest, v') ∧ v'.node.erase = v.node.erase := by
  have hnotName : ∀ t ∈ rest.head?, t.kind.isName = false := fun t ht => by
    rcases hrest t ht with h | h <;> simp [h, TokenKind.isName]
  have hnotComma : ∀ t ∈ rest.head?, t.kind ≠ .punct .comma := fun t ht => by
    rcases hrest t ht with h | h <;> simp [h]
  cases h with
  | @mk ts us n ns comma s hn hns hc _ =>
    obtain ⟨hopt, hstop, hfail⟩ : opt (token (.punct .comma)) (comma.toList ++ rest) = .ok (rest, comma) ∧
        StopsName (comma.toList ++ rest) ∧
        Fails (preceded (token (.punct .comma)) fromImportName (comma.toList ++ rest)) := by
      rcases comma with _ | c
      · exact ⟨opt_of_fails (token_fails hnotComma), hrest.stopsName,
          map_fails.2 (pair_fails.2 (.inl (token_fails hnotComma)))⟩
      · have hck : c.kind = .punct .comma := hc c rfl
        exact ⟨opt_of_ok (token_cons hck), stopsName_cons _ (by simp [hck]) (by simp [hck]),
          map_fails.2 (pair_fails.2 (.inr ⟨_, _, token_cons hck, fromImportName_fails hnotName⟩))⟩
    obtain ⟨ys, hys, hmap⟩ := many0_of_many
      (f := preceded (token (.punct .comma)) fromImportName) (C := StopsName)
      (g := Spanned.erase) (h := Spanned.erase)
      (fun _ _ later hx hC => by
        cases hx with
        | mk hc hx =>
          obtain ⟨y, hy, hyn⟩ := fromImportName_complete later hx hC
          exact ⟨y, map_of_ok (pair_eq_ok.2 ⟨_, token_cons hc, hy⟩), by simp [Spanned.erase, hyn]⟩)
      (fun _ _ hx => by cases hx; simp) (fun _ _ _ => stopsName_commaItem)
      hns hstop hfail
    obtain ⟨n', hn', hnn⟩ :=
      fromImportName_complete _ hn (hns.follows (fun _ _ _ => stopsName_commaItem) hstop)
    refine ⟨_, by simp only [List.append_assoc, fromImportNamesList, hn', ok_bind, hys, hopt]; rfl,
      ?_⟩
    simp only [FromImportNames.erase, List.map_cons, hmap]
    simp [Spanned.erase, hnn]

/-- A list of imported names starts with a name. -/
theorem Grammar.FromImportNamesList.head_name {ts : List Token} {v : Spanned FeParser.FromImportNames}
    (h : FromImportNamesList p ts v) : ∃ t us, ts = t :: us ∧ t.kind.isName = true := by
  cases h with
  | mk hn _ _ _ =>
    cases hn with
    | mk hn _ _ => exact ⟨_, _, rfl, hn⟩

/-- The `*` alternative fails on any other token. -/
theorem fromImportNamesStar_fails {t : Token} {rest : List Token} (ht : t.kind ≠ .punct .star) :
    Fails (fromImportNamesStar (t :: rest)) := by
  unfold fromImportNamesStar
  exact bind_fails.2 (.inl (token_fails (by simpa using ht)))

/-- The parenthesised alternative fails on any token but `(`. -/
theorem fromImportNamesParens_fails {t : Token} {rest : List Token}
    (ht : t.kind ≠ .punct .openParen) : Fails (fromImportNamesParens (t :: rest)) := by
  unfold fromImportNamesParens
  exact bind_fails.2 (.inl (token_fails (by simpa using ht)))

/-- `from_import_names` reads a derivation back, up to spans, in front of a `Newline`, through the
alternative the derivation took. -/
theorem fromImportNames_complete {ts : List Token} (rest : List Token)
    {v : Spanned FeParser.FromImportNames} (h : Grammar.FromImportNames p ts v)
    (hrest : ∀ t ∈ rest.head?, t.kind = .newline) :
    ∃ v', fromImportNames (ts ++ rest) = .ok (rest, v') ∧ v'.node.erase = v.node.erase := by
  cases h with
  | @star t s ht _ =>
    refine ⟨⟨.star, t.span⟩, alt_of_ok ?_, rfl⟩
    simp only [List.singleton_append, fromImportNamesStar, token_cons ht, ok_bind]
    rfl
  | @parens o c ts names s ho hn hc _ =>
    obtain ⟨n', hn', hnn⟩ := fromImportNamesList_complete (c :: rest) hn fun t ht => .inr (by
      obtain rfl : c = t := by simpa using ht
      exact hc)
    refine ⟨⟨n'.node, Span.fromPair o.span c.span⟩, ?_, hnn⟩
    rw [List.cons_append, fromImportNames, alt_of_fails (fromImportNamesStar_fails (by simp [ho])),
      alt_of_ok]
    simp only [List.cons_append, List.append_assoc, List.singleton_append, List.nil_append,
      fromImportNamesParens, token_cons ho, ok_bind, hn', token_cons hc]
    rfl
  | list hl =>
    obtain ⟨n', hn', hnn⟩ := fromImportNamesList_complete rest hl fun t ht => .inl (hrest t ht)
    obtain ⟨t, us, rfl, ht⟩ := hl.head_name
    obtain ⟨s, hs⟩ := TokenKind.isName_iff.1 ht
    refine ⟨n', ?_, hnn⟩
    rw [List.cons_append, fromImportNames, alt_of_fails (fromImportNamesStar_fails (by simp [hs])),
      alt_of_fails (fromImportNamesParens_fails (by simp [hs]))]
    exact hn'

/-! ### Statements -/

/-- A name token's symbol is its text, as the lexer makes every name token. -/
def Token.NameCarriesText (t : Token) : Prop := ∀ s, t.kind = .name s → s = t.string

/-- A relative `from` import of the module named `import`: `from . import import …`. -/
def ModuleStmt.RelativeImportOfImport : FeParser.ModuleStmt → Prop
  | .fromImport path _ => ∃ n, path.node = .relative n ["import"]
  | _ => False

/-- A name is no punctuation. -/
theorem ne_punct_of_isName {k : TokenKind} (h : k.isName = true) (q : Punct) : k ≠ .punct q := by
  rintro rfl
  simp [TokenKind.isName] at h

/-- `many1` fails where its first iteration does. -/
theorem many1_fails {f : Parser α} {input : List Token} (h : Fails (f input)) :
    Fails (many1 f input) := by
  obtain ⟨e, he⟩ := h
  exact ⟨e, by simp [many1, he]⟩

/-- `dots_to_int` fails in front of anything but a dot or an ellipsis. -/
theorem dotsToInt_fails {input : List Token}
    (h : ∀ t ∈ input.head?, t.kind ≠ .punct .dot ∧ t.kind ≠ .punct .ellipsis) :
    Fails (dotsToInt input) := by
  unfold dotsToInt
  exact bind_fails.2 (.inl (many1_fails (alt_fails.2
    ⟨token_fails fun t ht => (h t ht).1, token_fails fun t ht => (h t ht).2⟩)))

/-- Imported names never start with `.`. -/
theorem fromImportNames_fails_dot {d : Token} {later : List Token} (hd : d.kind = .punct .dot) :
    Fails (fromImportNames (d :: later)) := by
  have hl : Fails (fromImportNamesList (d :: later)) := by
    unfold fromImportNamesList
    exact bind_fails.2 (.inl (fromImportName_fails (by simp [hd, TokenKind.isName])))
  exact alt_fails.2 ⟨fromImportNamesStar_fails (by simp [hd]),
    alt_fails.2 ⟨fromImportNamesParens_fails (by simp [hd]), hl⟩⟩

/-- A dotted name starts with a name. -/
theorem Grammar.DottedName.head_name {ts : List Token} {v : Spanned (List String)}
    (h : DottedName p ts v) : ∃ t us, ts = t :: us ∧ t.kind.isName = true := by
  cases h with
  | mk hf _ _ => exact ⟨_, _, rfl, hf⟩

/-- `from_import` reads a derivation back, up to spans, in front of a `Newline`, unless it imports
from a relative module named `import`: the parent alternative then commits to the wrong reading. -/
theorem fromImport_complete {ts : List Token} (rest : List Token)
    {v : Spanned FeParser.ModuleStmt} (h : FromImport p ts v)
    (hv : ¬ v.node.RelativeImportOfImport) (hnames : ∀ t ∈ ts, t.NameCarriesText)
    (hrest : ∀ t ∈ rest.head?, t.kind = .newline) :
    ∃ v', fromImport (ts ++ rest) = .ok (rest, v') ∧ v'.node.erase = v.node.erase := by
  cases h with
  | @mk f i ts us path names s hf hp hi hn _ =>
    obtain ⟨names', hn', hnn⟩ := fromImportNames_complete rest hn hrest
    have hiname : ∀ t ∈ (i :: (us ++ rest)).head?, t.kind ≠ .punct .dot := by simp [hi]
    cases hp with
    | @parent ds lvl s' hl _ =>
      simp only [List.cons_append, List.append_assoc]
      obtain ⟨lvl', hl', hll⟩ := dotsToInt_complete (i :: (us ++ rest)) hl (by simp [hi])
      refine ⟨_, alt_of_ok (by simp only [fromImportParentAlt, nameString_cons hf, ok_bind, hl',
        nameString_cons hi, hn']; rfl), ?_⟩
      simp [ModuleStmt.erase, Spanned.erase, hll, hnn]
    | @relative ds ps lvl path s' hl hpath _ =>
      obtain ⟨first, qs, rfl, hfirst⟩ := hpath.head_name
      obtain ⟨path', hp', hpp⟩ := dottedName_complete (i :: (us ++ rest)) hpath hiname
      rw [List.cons_append] at hp'
      obtain ⟨lvl', hl', hll⟩ := dotsToInt_complete (first :: (qs ++ i :: (us ++ rest))) hl
        (by simp [ne_punct_of_isName hfirst])
      simp only [List.cons_append, List.append_assoc]
      have hparent : Fails (fromImportParentAlt (f :: (ds ++ first :: (qs ++ i :: (us ++ rest))))) := by
        simp only [fromImportParentAlt, nameString_cons hf, ok_bind, hl']
        by_cases hkw : first.kind = .name "import"
        · cases hpath with
          | @mk _ parts _ _ hparts _ =>
            rcases parts with _ | ⟨q, parts⟩
            · exact absurd ⟨lvl.node, by simp [hnames first (by simp) _ hkw]⟩ hv
            · simp only [List.cons_append, nameString_cons hkw, ok_bind]
              exact bind_fails.2 (.inl (fromImportNames_fails_dot (hparts q (by simp)).1))
        · exact bind_fails.2 (.inl (tokenWith_fails.2 (by simp [hkw])))
      refine ⟨_, by rw [fromImport, alt_of_fails hparent]; simp only [fromImportSubAlt,
        nameString_cons hf, ok_bind, fromImportSubPath, opt_of_ok hl', hp', pure_bind,
        nameString_cons hi, hn']; rfl, ?_⟩
      simp [ModuleStmt.erase, Spanned.erase, hll, hpp, hnn]
    | @absolute ps path s' hpath _ =>
      obtain ⟨first, qs, rfl, hfirst⟩ := hpath.head_name
      obtain ⟨path', hp', hpp⟩ := dottedName_complete (i :: (us ++ rest)) hpath hiname
      rw [List.cons_append] at hp'
      simp only [List.cons_append, List.append_assoc]
      have hdots : Fails (dotsToInt (first :: (qs ++ i :: (us ++ rest)))) :=
        dotsToInt_fails (by simp [ne_punct_of_isName hfirst])
      have hparent : Fails (fromImportParentAlt (f :: first :: (qs ++ i :: (us ++ rest)))) := by
        simp only [fromImportParentAlt, nameString_cons hf, ok_bind]
        exact bind_fails.2 (.inl hdots)
      refine ⟨_, by rw [fromImport, alt_of_fails hparent]; simp only [fromImportSubAlt,
        nameString_cons hf, ok_bind, fromImportSubPath, opt_of_fails hdots, pure_bind, hp',
        nameString_cons hi, hn']; rfl, ?_⟩
      simp [ModuleStmt.erase, Spanned.erase, hpp, hnn]

/-- `simple_import` fails on any token but `import`. -/
theorem simpleImport_fails {t : Token} {later : List Token} (ht : t.kind ≠ .name "import") :
    Fails (simpleImport (t :: later)) :=
  bind_fails.2 (.inl (tokenWith_fails.2 (by simpa using ht)))

/-- `from_import` fails on any token but `from`. -/
theorem fromImport_fails {t : Token} {later : List Token} (ht : t.kind ≠ .name "from") :
    Fails (fromImport (t :: later)) :=
  have hf : Fails (nameString "from" (t :: later)) := tokenWith_fails.2 (by simpa using ht)
  alt_fails.2 ⟨bind_fails.2 (.inl hf), bind_fails.2 (.inl hf)⟩

/-- `import_stmt` fails on any token but `import` or `from`. -/
theorem importStmt_fails {t : Token} {later : List Token} (hi : t.kind ≠ .name "import")
    (hf : t.kind ≠ .name "from") : Fails (importStmt (t :: later)) :=
  map_fails.2 (pair_fails.2 (.inl (alt_fails.2 ⟨simpleImport_fails hi, fromImport_fails hf⟩)))

/-- `event_field` fails on any token but a name. -/
theorem eventField_fails {t : Token} {later : List Token} (ht : t.kind.isName = false) :
    Fails (eventField (t :: later)) :=
  bind_fails.2 (.inl (tokenWith_fails.2 (by simpa using ht)))

/-- `event_def` fails on any token but `event`. -/
theorem eventDef_fails {t : Token} {later : List Token} (ht : t.kind ≠ .name "event") :
    Fails (eventDef (t :: later)) :=
  bind_fails.2 (.inl (tokenWith_fails.2 (by simpa using ht)))

/-- `contract_def` fails on any token but `contract`. -/
theorem contractDef_fails {t : Token} {later : List Token} (ht : t.kind ≠ .name "contract") :
    Fails (contractDef (t :: later)) :=
  bind_fails.2 (.inl (tokenWith_fails.2 (by simpa using ht)))

/-- No statement starts with a token that is not a name. -/
theorem moduleStmt_fails {t : Token} {later : List Token} (ht : t.kind.isName = false) :
    Fails (moduleStmt (t :: later)) := by
  have hne : ∀ s, t.kind ≠ .name s := fun s hs => by simp [hs] at ht
  exact alt_fails.2 ⟨importStmt_fails (hne _) (hne _), contractDef_fails (hne _)⟩

/-- `import_stmt` reads a derivation back, up to spans, but for the excluded relative import. -/
theorem importStmt_complete {ts : List Token} (rest : List Token)
    {v : Spanned FeParser.ModuleStmt} (h : ImportStmt p ts v)
    (hv : ¬ v.node.RelativeImportOfImport) (hnames : ∀ t ∈ ts, t.NameCarriesText) :
    ∃ v', importStmt (ts ++ rest) = .ok (rest, v') ∧ v'.node.erase = v.node.erase := by
  cases h with
  | @simple ts nl _ hs hnl =>
    obtain ⟨v', hv', he⟩ := simpleImport_complete (nl :: rest) hs (by simp [hnl])
    refine ⟨v', ?_, he⟩
    rw [List.append_assoc, List.singleton_append]
    exact map_of_ok (pair_eq_ok.2 ⟨_, alt_of_ok hv', token_cons hnl⟩)
  | @«from» ts nl _ hs hnl =>
    obtain ⟨v', hv', he⟩ := fromImport_complete (nl :: rest) hs hv
      (fun t ht => hnames t (List.mem_append_left _ ht)) (by simp [hnl])
    refine ⟨v', ?_, he⟩
    rw [List.append_assoc, List.singleton_append]
    refine map_of_ok (pair_eq_ok.2 ⟨_, ?_, token_cons hnl⟩)
    cases hs with
    | mk hf _ _ _ _ =>
      rw [List.cons_append, alt_of_fails (simpleImport_fails (by simp [hf]))]
      exact hv'

/-- `event_field` reads a derivation back. -/
theorem eventField_complete {ts : List Token} (rest : List Token)
    {v : Spanned FeParser.EventField} (h : Grammar.EventField p ts v) :
    ∃ v', eventField (ts ++ rest) = .ok (rest, v') ∧ v'.node = v.node := by
  cases h with
  | mk hn hc ht hnl _ =>
    refine ⟨_, by simp only [List.cons_append, List.nil_append, eventField, nameToken_cons hn,
      ok_bind, token_cons hc, nameToken_cons ht, newlineToken, token_cons hnl]; rfl, ?_⟩
    rfl

/-- `event_def` reads a derivation back, up to spans. -/
theorem eventDef_complete {ts : List Token} (rest : List Token) {v : Spanned ContractStmt}
    (h : EventDef p ts v) :
    ∃ v', eventDef (ts ++ rest) = .ok (rest, v') ∧ v'.node.erase = v.node.erase := by
  cases h with
  | @mk kw n c nl ind ded _ _ _ hkw hn hc hnl hind hfs hne hded _ =>
    have hfail : Fails (eventField (ded :: rest)) :=
      eventField_fails (by simp [hded, TokenKind.isName])
    obtain ⟨ys, hys, hmap⟩ := many1_of_many (f := eventField) (C := fun _ => True)
      (g := Spanned.erase) (h := Spanned.erase)
      (fun _ _ later hx _ => by
        obtain ⟨y, hy, hyn⟩ := eventField_complete later hx
        exact ⟨y, hy, by simp [Spanned.erase, hyn]⟩)
      (fun _ _ hx => by cases hx; simp) (fun _ _ _ _ => trivial) hfs hne trivial hfail
    refine ⟨_, by simp only [List.cons_append, List.append_assoc, List.nil_append, eventDef,
      nameString_cons hkw, ok_bind, nameToken_cons hn, token_cons hc, newlineToken, token_cons hnl,
      indentToken, token_cons hind, hys, dedentToken, token_cons hded]; rfl, ?_⟩
    simp only [ContractStmt.erase, hmap]

/-- `contract_def` reads a derivation back, up to spans. -/
theorem contractDef_complete {ts : List Token} (rest : List Token)
    {v : Spanned FeParser.ModuleStmt} (h : ContractDef p ts v) :
    ∃ v', contractDef (ts ++ rest) = .ok (rest, v') ∧ v'.node.erase = v.node.erase := by
  cases h with
  | @mk kw n c nl ind ded _ _ _ hkw hn hc hnl hind hb hne hded _ =>
    have hfail : Fails (eventDef (ded :: rest)) := eventDef_fails (by simp [hded])
    obtain ⟨ys, hys, hmap⟩ := many1_of_many (f := eventDef) (C := fun _ => True)
      (g := fun x => (⟨x.node.erase, Span.zero⟩ : Spanned ContractStmt))
      (h := fun x => (⟨x.node.erase, Span.zero⟩ : Spanned ContractStmt))
      (fun _ _ later hx _ => by
        obtain ⟨y, hy, hyn⟩ := eventDef_complete later hx
        exact ⟨y, hy, by simp only [hyn]⟩)
      (fun _ _ hx => by cases hx; simp) (fun _ _ _ _ => trivial) hb hne trivial hfail
    refine ⟨_, by simp only [List.cons_append, List.append_assoc, List.nil_append, contractDef, nameString_cons hkw, ok_bind, nameToken_cons hn, token_cons hc, newlineToken,
      token_cons hnl, indentToken, token_cons hind, contractStmt, hys, dedentToken,
      token_cons hded]; rfl, ?_⟩
    simp only [ModuleStmt.erase, hmap]

/-- A statement starts with a name: its keyword. -/
theorem Grammar.ModuleStmt.head_name {ts : List Token} {v : Spanned FeParser.ModuleStmt}
    (h : Grammar.ModuleStmt p ts v) : ∃ t later, ts = t :: later ∧ t.kind.isName = true := by
  cases h with
  | «import» hi =>
    cases hi with
    | simple hs _ => cases hs with | mk hkw _ _ _ => exact ⟨_, _, rfl, by simp [hkw]⟩
    | «from» hs _ => cases hs with | mk hf _ _ _ _ => exact ⟨_, _, rfl, by simp [hf]⟩
  | contract hc => cases hc with | mk hkw _ _ _ _ _ _ _ _ => exact ⟨_, _, rfl, by simp [hkw]⟩

/-- `module_stmt` reads a derivation back, up to spans, but for the excluded relative import. -/
theorem moduleStmt_complete {ts : List Token} (rest : List Token)
    {v : Spanned FeParser.ModuleStmt} (h : Grammar.ModuleStmt p ts v)
    (hv : ¬ v.node.RelativeImportOfImport) (hnames : ∀ t ∈ ts, t.NameCarriesText) :
    ∃ v', moduleStmt (ts ++ rest) = .ok (rest, v') ∧ v'.node.erase = v.node.erase := by
  cases h with
  | «import» hi =>
    obtain ⟨v', hv', he⟩ := importStmt_complete rest hi hv hnames
    exact ⟨v', alt_of_ok hv', he⟩
  | contract hc =>
    obtain ⟨v', hv', he⟩ := contractDef_complete rest hc
    cases hc with
    | mk hkw _ _ _ _ _ _ _ _ =>
      refine ⟨v', ?_, he⟩
      rw [moduleStmt, List.cons_append,
        alt_of_fails (importStmt_fails (by simp [hkw]) (by simp [hkw]))]
      exact hv'

/-- `file_input` reads every derivation back as the same module up to spans, unless one of
its statements is the excluded relative import. -/
theorem fileInput_complete {ts : List Token} (rest : List Token) {v : Spanned Module}
    (h : FileInput p ts v) (hv : ∀ s ∈ v.node.body, ¬ s.node.RelativeImportOfImport)
    (hnames : ∀ t ∈ ts, t.NameCarriesText) :
    ∃ v', fileInput (ts ++ rest) = .ok (rest, v') ∧ Module.erase v' = Module.erase v := by
  cases h with
  | empty he =>
    refine ⟨_, alt_of_ok (by simp only [List.singleton_append, emptyFileInput, endmarkerToken,
      token_cons he, ok_bind]; rfl), ?_⟩
    rfl
  | @nonEmpty us e _ _ hstmts hne he _ =>
    have hfail : Fails (moduleStmt (e :: rest)) := moduleStmt_fails (by simp [he, TokenKind.isName])
    obtain ⟨ys, hys, hmap⟩ := many1_of_many (f := moduleStmt) (C := fun _ => True)
      (g := fun x => (⟨x.node.erase, Span.zero⟩ : Spanned FeParser.ModuleStmt))
      (h := fun x => (⟨x.node.erase, Span.zero⟩ : Spanned FeParser.ModuleStmt))
      (fun _ _ later hx _ => by
        obtain ⟨y, hy, hyn⟩ := moduleStmt_complete later hx.1 hx.2.1 hx.2.2
        exact ⟨y, hy, by simp only [hyn]⟩)
      (fun _ _ hx => by
        obtain ⟨_, _, rfl, _⟩ := hx.1.head_name
        exact List.cons_ne_nil _ _)
      (fun _ _ _ _ => trivial)
      (hstmts.strengthen hv fun t ht => hnames t (List.mem_append_left _ ht)) hne trivial hfail
    have hempty : Fails (emptyFileInput (us ++ [e] ++ rest)) := by
      cases hstmts with
      | nil => contradiction
      | cons hx _ =>
        obtain ⟨t, _, rfl, ht⟩ := hx.head_name
        refine bind_fails.2 (.inl (token_fails fun u hu => ?_))
        obtain rfl : t = u := by simpa using hu
        rintro hk
        simp [hk, TokenKind.isName] at ht
    refine ⟨_, by rw [fileInput, alt_of_fails hempty]; simp only [List.append_assoc,
      List.singleton_append, nonEmptyFileInput, hys, ok_bind, endmarkerToken, token_cons he]; rfl, ?_⟩
    simp only [Module.erase, hmap]

end Parsers

/-! ### The parent level of a relative import -/

section ParentLevel

variable {run rest : List Token}

/-- A run of `.` and `...` tokens has one dot width per token: one for `.`, three for
`...`. -/
theorem sum_dotWidth (hrun : ∀ u ∈ run, u.kind = .punct .dot ∨ u.kind = .punct .ellipsis) :
    (run.map dotWidth).sum =
      (run.map Token.kind).count (.punct .dot) + 3 * (run.map Token.kind).count (.punct .ellipsis) ∧
    (run.map Token.kind).count (.punct .dot) + (run.map Token.kind).count (.punct .ellipsis) =
      run.length := by
  induction run with
  | nil => simp
  | cons u us ih =>
    obtain ⟨ih₁, ih₂⟩ := ih fun v hv => hrun v (List.mem_cons_of_mem _ hv)
    rcases hrun u (List.mem_cons_self _ _) with h | h <;>
      simp [List.count_cons, dotWidth, h, ih₁, ih₂] <;> omega

/-- `dots_to_int` on a maximal run of `k` dots and `m` ellipses, in any order: it reads the
run and returns `k + 3m - 1`, where `k + m ≥ 1`; on a slice that starts with neither it
fails. `from_import_parent_alt` and `from_import_sub_path` record that value as the parent
level. -/
theorem dotsToInt_parent_level {t : Token} (hne : run ≠ [])
    (hrun : ∀ u ∈ run, u.kind = .punct .dot ∨ u.kind = .punct .ellipsis)
    (ht : t.kind ≠ .punct .dot ∧ t.kind ≠ .punct .ellipsis) :
    1 ≤ (run.map Token.kind).count (.punct .dot) + (run.map Token.kind).count (.punct .ellipsis) ∧
    (∃ s, dotsToInt (run ++ t :: rest) = .ok (t :: rest,
      ⟨(run.map Token.kind).count (.punct .dot) +
        3 * (run.map Token.kind).count (.punct .ellipsis) - 1, s⟩)) ∧
    (∀ u us, u.kind ≠ .punct .dot ∧ u.kind ≠ .punct .ellipsis → Fails (dotsToInt (u :: us))) ∧
    (∀ f r x, fromImportParentAlt (f :: (run ++ t :: rest)) = .ok (r, x) →
      ∃ s names, x.node = .fromImport ⟨.relative ((run.map Token.kind).count (.punct .dot) +
        3 * (run.map Token.kind).count (.punct .ellipsis) - 1) [], s⟩ names) ∧
    (∀ r p, fromImportSubPath (run ++ t :: rest) = .ok (r, p) →
      ∃ path, p.node = .relative ((run.map Token.kind).count (.punct .dot) +
        3 * (run.map Token.kind).count (.punct .ellipsis) - 1) path) := by
  obtain ⟨hsum, hlen⟩ := sum_dotWidth hrun
  obtain ⟨⟨_, span⟩, hdots, hvn⟩ := dotsToInt_complete (t :: rest)
    (DotsToInt.mk (p := Unconstrained) (s := Span.zero) hne hrun trivial) (by simpa using ht)
  simp only [hsum] at hvn
  subst hvn
  refine ⟨hlen ▸ List.length_pos.2 hne, ⟨_, hdots⟩,
    fun u us hu => dotsToInt_fails (by simpa using hu), fun f r x h => ?_, fun r p h => ?_⟩
  · -- `from`, the run, `import`, the names
    simp only [fromImportParentAlt, bind_eq_ok, Prod.exists, pure, Except.pure, Except.ok.injEq,
      Prod.mk.injEq] at h
    obtain ⟨r₁, _, hf, r₂, lvl, hl, r₃, _, -, r₄, names, -, rfl, rfl⟩ := h
    obtain ⟨⟨-, rfl⟩, -⟩ := tokenWith_eq_ok.1 hf
    rw [hdots] at hl
    cases hl
    exact ⟨_, _, rfl⟩
  · -- the run, then a dotted name
    simp only [fromImportSubPath, bind_eq_ok, Prod.exists, pure, Except.pure, Except.ok.injEq,
      Prod.mk.injEq] at h
    obtain ⟨r₁, o, ho, r₂, dn, -, rfl, rfl⟩ := h
    rw [opt_of_ok hdots] at ho
    cases ho
    exact ⟨_, rfl⟩

/-- The tokens `. ...` of `from . ... import x`. -/
def dotEllipsisRun : List Token := [⟨.punct .dot, ".", ⟨5, 6⟩⟩, ⟨.punct .ellipsis, "...", ⟨7, 10⟩⟩]

/-- The keyword `import` after them. -/
def importKeyword : Token := ⟨.name "import", "import", ⟨11, 17⟩⟩

/-- The keyword `from` before them. -/
def fromKeyword : Token := ⟨.name "from", "from", ⟨0, 4⟩⟩

/-- The name `x` imported after the keyword `import`. -/
def importedName : Token := ⟨.name "x", "x", ⟨18, 19⟩⟩

/-- `from . ... import x`: the run is read as the parent level `1 + 3 - 1`, and
`from_import_parent_alt` reads the whole statement. -/
theorem dotsToInt_parent_level_dotEllipsis :
    (∃ r x, fromImportParentAlt (fromKeyword :: (dotEllipsisRun ++ importKeyword :: [importedName])) =
      .ok (r, x)) ∧
    dotEllipsisRun ≠ [] ∧
    (∀ u ∈ dotEllipsisRun, u.kind = .punct .dot ∨ u.kind = .punct .ellipsis) ∧
    (importKeyword.kind ≠ .punct .dot ∧ importKeyword.kind ≠ .punct .ellipsis) ∧
    1 ≤ (dotEllipsisRun.map Token.kind).count (.punct .dot) +
      (dotEllipsisRun.map Token.kind).count (.punct .ellipsis) ∧
    (∃ s, dotsToInt (dotEllipsisRun ++ importKeyword :: [importedName]) =
      .ok (importKeyword :: [importedName],
        ⟨(dotEllipsisRun.map Token.kind).count (.punct .dot) +
          3 * (dotEllipsisRun.map Token.kind).count (.punct .ellipsis) - 1, s⟩)) ∧
    (∀ u us, u.kind ≠ .punct .dot ∧ u.kind ≠ .punct .ellipsis → Fails (dotsToInt (u :: us))) ∧
    (∀ f r x, fromImportParentAlt (f :: (dotEllipsisRun ++ importKeyword :: [importedName])) =
        .ok (r, x) →
      ∃ s names, x.node = .fromImport ⟨.relative ((dotEllipsisRun.map Token.kind).count
        (.punct .dot) + 3 * (dotEllipsisRun.map Token.kind).count (.punct .ellipsis) - 1) [],
        s⟩ names) ∧
    (∀ r p, fromImportSubPath (dotEllipsisRun ++ importKeyword :: [importedName]) = .ok (r, p) →
      ∃ path, p.node = .relative ((dotEllipsisRun.map Token.kind).count (.punct .dot) +
        3 * (dotEllipsisRun.map Token.kind).count (.punct .ellipsis) - 1) path) :=
  have hne : dotEllipsisRun ≠ [] := by simp [dotEllipsisRun]
  have hrun : ∀ u ∈ dotEllipsisRun, u.kind = .punct .dot ∨ u.kind = .punct .ellipsis := by
    simp [dotEllipsisRun]
  have ht : importKeyword.kind ≠ .punct .dot ∧ importKeyword.kind ≠ .punct .ellipsis := by
    simp [importKeyword]
  ⟨⟨_, _, rfl⟩, hne, hrun, ht,
    @dotsToInt_parent_level dotEllipsisRun [importedName] importKeyword hne hrun ht⟩

end ParentLevel

end FeParser
