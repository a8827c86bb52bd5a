import FeParser.ConstSoundness
import FeParser.ConstCompleteness

/-!
# Node spans are hulls

On ordered tokens every node that `file_input` or `const_expr` builds spans exactly the hull
of the non-layout tokens consumed for it, parentheses included: the derivations of
`FeParser.Soundness` and `FeParser.ConstSoundness` hold under the `IsHull` policy. The empty
module is the one node without such tokens; `file_input` gives it the span of its
`ENDMARKER`, which the `empty` rule of the grammar records.

The tokens of a child node are an infix of its parent's, and on ordered tokens the hull of
an infix lies inside the hull of the whole (`hull_covers_hull`). Hence every node's span
contains the spans of its children (`Module.Nested`, `ConstExpr.Nested`).

## Main results

* `parsers_spans_are_hulls`: on ordered tokens, every success of `file_input` or
  `const_expr` derives its result under `IsHull`, and its spans nest.
-/

namespace FeParser

open Grammar

variable {α : Type}

/-! ### Hulls of infixes -/

/-- A span that contains two spans contains their `from_pair`. -/
theorem Span.Covers.fromPair {s a b : Span} (ha : s.Covers a) (hb : s.Covers b) :
    s.Covers (Span.fromPair a b) :=
  ⟨le_min ha.1 hb.1, max_le ha.2 hb.2⟩

section Ordered

variable {l : List Token} (hpw : l.Pairwise fun a b => a.span.end ≤ b.span.start)
  (hwf : ∀ u ∈ l, u.span.WellFormed)
include hpw hwf

/-- In ordered tokens the first starts no later than any other. -/
theorem head_start_le {t : Token} (ht : t ∈ l) (hne : l ≠ []) :
    (l.head hne).span.start ≤ t.span.start := by
  match l, hne with
  | a :: l', _ =>
    rcases List.mem_cons.1 ht with rfl | ht
    · exact le_rfl
    · have hat := List.rel_of_pairwise_cons hpw ht
      have ha : a.span.start ≤ a.span.end := hwf a (List.mem_cons_self _ _)
      simp only [List.head_cons]
      omega

/-- In ordered tokens the last ends no earlier than any other. -/
theorem end_le_getLast {t : Token} (ht : t ∈ l) (hne : l ≠ []) :
    t.span.end ≤ (l.getLast hne).span.end := by
  have hl := List.dropLast_append_getLast hne
  rw [← hl] at hpw ht
  rcases List.mem_append.1 ht with ht | ht
  · have htl := (List.pairwise_append.1 hpw).2.2 t ht _ (List.mem_singleton_self _)
    have hw : (l.getLast hne).span.start ≤ (l.getLast hne).span.end := hwf _ (List.getLast_mem hne)
    omega
  · rw [List.mem_singleton.1 ht]

end Ordered

/-- On ordered tokens the hull contains the span of every token that carries text. -/
theorem hull_covers_mem {ts : List Token} (h : Token.Ordered ts) {t : Token}
    (ht : t ∈ nonLayout ts) : (Span.hull ts).Covers t.span := by
  have hne : nonLayout ts ≠ [] := List.ne_nil_of_mem ht
  have hpw : (nonLayout ts).Pairwise fun a b => a.span.end ≤ b.span.start :=
    h.pairwise.sublist (List.filter_sublist _)
  have hwf : ∀ u ∈ nonLayout ts, u.span.WellFormed := fun u hu => h.1 u (List.mem_of_mem_filter hu)
  rw [hull_eq_fromPair hne]
  exact ⟨Nat.le_trans (Nat.min_le_left _ _) (head_start_le hpw hwf ht hne),
    Nat.le_trans (end_le_getLast hpw hwf ht hne) (Nat.le_max_right _ _)⟩

/-- On ordered tokens the hull of an infix lies inside the hull of the whole. -/
theorem hull_covers_hull {ts us : List Token} (h : Token.Ordered ts) (hs : us <:+: ts)
    (hne : nonLayout us ≠ []) : (Span.hull ts).Covers (Span.hull us) := by
  have hsub : ∀ t ∈ nonLayout us, t ∈ nonLayout ts := fun _ ht => (hs.filter _).subset ht
  rw [hull_eq_fromPair hne]
  exact (hull_covers_mem h (hsub _ (List.head_mem hne))).fromPair
    (hull_covers_mem h (hsub _ (List.getLast_mem hne)))

/-- A node's span contains the span of a child built from an infix of its tokens. -/
theorem Grammar.HullIfOrdered.covers {ts us : List Token} {s c : Span} (hp : HullIfOrdered ts s)
    (hc : HullIfOrdered us c) (hord : Token.Ordered ts) (hs : us <:+: ts)
    (hne : nonLayout us ≠ []) : s.Covers c := by
  rw [hp hord, hc (hord.segment hs)]
  exact hull_covers_hull hord hs hne

/-- The tail of a sequence is an infix of it. -/
theorem infix_cons_self {t : Token} {ts : List Token} : ts <:+: t :: ts :=
  (List.suffix_cons t ts).isInfix

/-- Every item of a repetition inside a node lies inside the node's span. -/
theorem Grammar.Many.covers {P : List Token → α → Prop} {sp : α → Span} {ts us : List Token}
    {xs : List α} {s : Span} (hm : Many P us xs)
    (hP : ∀ seg x, P seg x → ∃ seg', seg' <:+: seg ∧ HullIfOrdered seg' (sp x) ∧ nonLayout seg' ≠ [])
    (hs : HullIfOrdered ts s) (hord : Token.Ordered ts) (hus : us <:+: ts) :
    ∀ x ∈ xs, s.Covers (sp x) := by
  intro x hx
  obtain ⟨seg, hseg, hx⟩ := hm.forall x hx
  obtain ⟨seg', hseg', hh, hne⟩ := hP _ _ hx
  exact hs.covers hh hord (hseg'.trans (hseg.trans hus)) hne

/-- The item after a separator is built from the tokens after it. -/
theorem Grammar.Preceded.span {P : List Token → α → Prop} {sp : α → Span} {kind : TokenKind}
    (hP : ∀ seg x, P seg x → HullIfOrdered seg (sp x) ∧ nonLayout seg ≠ []) {seg : List Token}
    {x : α} (h : Preceded kind P seg x) :
    ∃ seg', seg' <:+: seg ∧ HullIfOrdered seg' (sp x) ∧ nonLayout seg' ≠ [] := by
  cases h with
  | mk _ hx => exact ⟨_, infix_cons_self, hP _ _ hx⟩

/-! ### Constant expressions -/

/-- Every node's span contains the spans of its children. -/
inductive ConstExpr.Nested : Spanned ConstExpr → Prop
  | name {n : String} {s : Span} : ConstExpr.Nested ⟨.name n, s⟩
  | num {n : String} {s : Span} : ConstExpr.Nested ⟨.num n, s⟩
  | binOp {l r : Spanned ConstExpr} {o : Operator} {s : Span} : s.Covers l.span →
      s.Covers r.span → ConstExpr.Nested l → ConstExpr.Nested r →
      ConstExpr.Nested ⟨.binOp l o r, s⟩
  | unaryOp {x : Spanned ConstExpr} {u : UnaryOp} {s : Span} : s.Covers x.span →
      ConstExpr.Nested x → ConstExpr.Nested ⟨.unaryOp u x, s⟩

/-- A constant expression whose spans nest still nests under a wider span for its root. -/
theorem ConstExpr.Nested.widen {n : ConstExpr} {s s' : Span} (h : ConstExpr.Nested ⟨n, s⟩)
    (hs : s'.Covers s) : ConstExpr.Nested ⟨n, s'⟩ := by
  cases h with
  | name => exact .name
  | num => exact .num
  | binOp hl hr hnl hnr => exact .binOp (hs.trans hl) (hs.trans hr) hnl hnr
  | unaryOp hx hn => exact .unaryOp (hs.trans hx) hn

/-- On ordered tokens the spans of every derived constant expression nest: each child's tokens are
an infix of its parent's. -/
theorem Grammar.Const.nested {lvl : Level} {ts : List Token} {x : Spanned ConstExpr}
    (h : Const HullIfOrdered lvl ts x) : Token.Ordered ts → ConstExpr.Nested x := by
  induction h with
  | @sum ts us t _ _ _ _ hl _ _ hr hs ihl ihr =>
    intro hord
    have hus : us <:+: ts ++ t :: us := ⟨ts ++ [t], [], by simp⟩
    exact .binOp (hs.covers hl.span hord (List.prefix_append _ _).isInfix hl.nonLayout_ne_nil)
      (hs.covers hr.span hord hus hr.nonLayout_ne_nil) (ihl hord.of_append_left)
      (ihr (hord.segment hus))
  | @product ts us t _ _ _ _ hl _ _ hr hs ihl ihr =>
    intro hord
    have hus : us <:+: ts ++ t :: us := ⟨ts ++ [t], [], by simp⟩
    exact .binOp (hs.covers hl.span hord (List.prefix_append _ _).isInfix hl.nonLayout_ne_nil)
      (hs.covers hr.span hord hus hr.nonLayout_ne_nil) (ihl hord.of_append_left)
      (ihr (hord.segment hus))
  | @pow ts us t _ _ _ hl _ hr hs ihl ihr =>
    intro hord
    have hus : us <:+: ts ++ t :: us := ⟨ts ++ [t], [], by simp⟩
    exact .binOp (hs.covers hl.span hord (List.prefix_append _ _).isInfix hl.nonLayout_ne_nil)
      (hs.covers hr.span hord hus hr.nonLayout_ne_nil) (ihl hord.of_append_left)
      (ihr (hord.segment hus))
  | term _ ih | factor _ ih | power _ ih | atom _ ih => exact ih
  | unary _ _ hx hs ih =>
    intro hord
    exact .unaryOp (hs.covers hx.span hord infix_cons_self hx.nonLayout_ne_nil)
      (ih (hord.segment infix_cons_self))
  | @group o c ts _ _ _ hx _ hs ih =>
    intro hord
    have hts : ts <:+: o :: (ts ++ [c]) := ⟨[o], [c], by simp⟩
    exact (ih (hord.segment hts)).widen (hs.covers hx.span hord hts hx.nonLayout_ne_nil)
  | name => intro; exact .name
  | num => intro; exact .num

/-! ### Modules -/

/-- The names of a `from` import lie inside the span of the list. -/
def FromImportNames.Nested (x : Spanned FromImportNames) : Prop :=
  match x.node with
  | .star => True
  | .list names => ∀ n ∈ names, x.span.Covers n.span

/-- The fields of an event lie inside its span. -/
def ContractStmt.Nested (x : Spanned ContractStmt) : Prop :=
  match x.node with
  | .eventDef _ fields => ∀ f ∈ fields, x.span.Covers f.span

/-- Every node of a statement lies inside the span of its parent. -/
def ModuleStmt.Nested (x : Spanned ModuleStmt) : Prop :=
  match x.node with
  | .simpleImport names => ∀ n ∈ names, x.span.Covers n.span
  | .fromImport path names =>
    x.span.Covers path.span ∧ x.span.Covers names.span ∧ FromImportNames.Nested names
  | .contractDef _ body => ∀ s ∈ body, x.span.Covers s.span ∧ ContractStmt.Nested s

/-- Every node of a module lies inside the span of its parent. -/
def Module.Nested (m : Spanned Module) : Prop :=
  ∀ s ∈ m.node.body, m.span.Covers s.span ∧ ModuleStmt.Nested s

/-- Imported names whose spans nest still nest under a wider span for the list. -/
theorem FromImportNames.Nested.widen {n : FromImportNames} {s s' : Span}
    (h : FromImportNames.Nested ⟨n, s⟩) (hs : s'.Covers s) : FromImportNames.Nested ⟨n, s'⟩ := by
  cases n with
  | star => trivial
  | list names => exact fun x hx => hs.trans (h x hx)

namespace Grammar

/-- The span of a `from` import's path is the hull of its tokens, and it has text. -/
theorem FromImportPath.span {ts : List Token} {v : Spanned FeParser.FromImportPath}
    (h : FromImportPath HullIfOrdered ts v) : HullIfOrdered ts v.span ∧ nonLayout ts ≠ [] := by
  cases h with
  | parent hl hs => exact ⟨hs, hl.span.2⟩
  | relative hl _ hs => exact ⟨hs, nonLayout_append_ne_nil hl.span.2⟩
  | absolute hp hs => exact ⟨hs, hp.span.2⟩

/-- On ordered tokens the spans of a derived list of imported names nest. -/
theorem FromImportNamesList.nested {ts : List Token} {v : Spanned FeParser.FromImportNames}
    (h : FromImportNamesList HullIfOrdered ts v) (hord : Token.Ordered ts) :
    FromImportNames.Nested v := by
  cases h with
  | @mk ts us _ _ _ _ hn hns _ hs =>
    have hcov := hns.covers (fun _ _ => Preceded.span fun _ _ hx => hx.span) hs hord
      ⟨ts, _, rfl⟩
    intro x hx
    rcases List.mem_cons.1 hx with rfl | hx
    · exact hs.covers hn.span.1 hord ⟨[], _, (List.append_assoc _ _ _).symm⟩ hn.span.2
    · exact hcov x hx

/-- On ordered tokens the spans of derived imported names nest, parentheses included. -/
theorem FromImportNames.nested {ts : List Token} {v : Spanned FeParser.FromImportNames}
    (h : FromImportNames HullIfOrdered ts v) (hord : Token.Ordered ts) :
    FromImportNames.Nested v := by
  cases h with
  | star => trivial
  | @parens o c ts _ _ _ hn _ hs =>
    have hts : ts <:+: o :: (ts ++ [c]) := ⟨[o], [c], by simp⟩
    exact (hn.nested (hord.segment hts)).widen (hs.covers hn.span.1 hord hts hn.span.2)
  | list hn => exact hn.nested hord

/-- On ordered tokens the spans of a derived event definition nest. -/
theorem EventDef.nested {ts : List Token} {v : Spanned ContractStmt}
    (h : EventDef HullIfOrdered ts v) (hord : Token.Ordered ts) : ContractStmt.Nested v := by
  cases h with
  | @mk kw n c nl ind ded ts _ _ _ _ _ _ _ hfs _ _ hs =>
    exact hfs.covers (fun _ _ hx => ⟨_, List.infix_refl _, hx.span⟩) hs hord
      ⟨[kw, n, c, nl, ind], [ded], by simp⟩

/-- On ordered tokens the spans of a derived statement nest. -/
theorem ModuleStmt.nested {ts : List Token} {v : Spanned FeParser.ModuleStmt}
    (h : ModuleStmt HullIfOrdered ts v) (hord : Token.Ordered ts) :
    FeParser.ModuleStmt.Nested v := by
  rcases h with (⟨hi, -⟩ | ⟨hi, -⟩) | hc
  · cases hi with
    | @mk kw ts us _ _ _ _ hn hns hs =>
      have hord := hord.of_append_left
      have hcov := hns.covers (fun _ _ => Preceded.span fun _ _ hx => hx.span) hs hord
        ⟨kw :: ts, [], by simp⟩
      intro x hx
      rcases List.mem_cons.1 hx with rfl | hx
      · exact hs.covers hn.span.1 hord ⟨[kw], us, by simp⟩ hn.span.2
      · exact hcov x hx
  · cases hi with
    | @mk f i ts us _ _ _ _ hp _ hn hs =>
      have hord := hord.of_append_left
      have hus : us <:+: f :: (ts ++ i :: us) := ⟨f :: ts ++ [i], [], by simp⟩
      exact ⟨hs.covers hp.span.1 hord ⟨[f], i :: us, by simp⟩ hp.span.2,
        hs.covers hn.span.1 hord hus hn.span.2, hn.nested (hord.segment hus)⟩
  · cases hc with
    | @mk kw n c nl ind ded ts _ _ _ _ _ _ _ hb _ _ hs =>
      have hts : ts <:+: kw :: n :: c :: nl :: ind :: (ts ++ [ded]) :=
        ⟨[kw, n, c, nl, ind], [ded], by simp⟩
      have hcov := hb.covers (fun _ _ hx => ⟨_, List.infix_refl _, hx.span⟩) hs hord hts
      intro x hx
      obtain ⟨seg, hseg, hxd⟩ := hb.forall x hx
      exact ⟨hcov x hx, hxd.nested (hord.segment (hseg.trans hts))⟩

/-- On ordered tokens the spans of a derived module nest: every statement within the module's span.
-/
theorem FileInput.nested {ts : List Token} {m : Spanned Module}
    (h : FileInput HullIfOrdered ts m) (hord : Token.Ordered ts) : Module.Nested m := by
  cases h with
  | empty => intro _ hs; cases hs
  | @nonEmpty ts e _ _ hstmts _ _ hs =>
    have hts : ts <:+: ts ++ [e] := (List.prefix_append _ _).isInfix
    have hcov := hstmts.covers (fun _ _ hx => ⟨_, List.infix_refl _, hx.span⟩) hs hord hts
    intro x hx
    obtain ⟨seg, hseg, hxd⟩ := hstmts.forall x hx
    exact ⟨hcov x hx, hxd.nested (hord.segment (hseg.trans hts))⟩

end Grammar

/-! ### The parsers -/

/-- On ordered tokens, every success of `file_input` or `const_expr` consumed a prefix that
derives its result with every node spanning the hull of its tokens, and every node's span
contains the spans of its children. -/
theorem parsers_spans_are_hulls {ts : List Token} (hord : Token.Ordered ts) :
    (∀ rest m, fileInput ts = .ok (rest, m) →
      ∃ pre, ts = pre ++ rest ∧ FileInput IsHull pre m ∧ Module.Nested m) ∧
    (∀ fuel rest e, constExpr fuel ts = .ok (rest, e) →
      ∃ pre, ts = pre ++ rest ∧ Const IsHull .expr pre e ∧ ConstExpr.Nested e) := by
  refine ⟨fun rest m h => ?_, fun fuel rest e h => ?_⟩
  · obtain ⟨pre, rfl, hpre⟩ := fileInput_sound h
    have ho := hord.of_append_left
    exact ⟨pre, rfl, hpre.mono (weaker_isHull ho), hpre.nested ho⟩
  · obtain ⟨pre, rfl, hpre⟩ := constExpr_sound fuel h
    have ho := hord.of_append_left
    exact ⟨pre, rfl, hpre.mono (weaker_isHull ho), hpre.nested ho⟩

/-- The tokens of `import x`, then `NEWLINE` and `ENDMARKER`. -/
def importTokens : List Token :=
  [⟨.name "import", "import", ⟨0, 6⟩⟩, ⟨.name "x", "x", ⟨7, 8⟩⟩, ⟨.newline, "\n", ⟨8, 9⟩⟩,
    ⟨.endMarker, "", ⟨9, 9⟩⟩]

/-- `const_expr` reads `a + b` and `file_input` reads the module `import x`, each to its end,
with spans that are hulls. -/
theorem parsers_spans_are_hulls_sum_import :
    ((∃ e, constExpr 10 sumTokens = .ok ([], e)) ∧ Token.Ordered sumTokens ∧
      (∀ rest m, fileInput sumTokens = .ok (rest, m) →
        ∃ pre, sumTokens = pre ++ rest ∧ FileInput IsHull pre m ∧ Module.Nested m) ∧
      (∀ fuel rest e, constExpr fuel sumTokens = .ok (rest, e) →
        ∃ pre, sumTokens = pre ++ rest ∧ Const IsHull .expr pre e ∧ ConstExpr.Nested e)) ∧
    ((∃ m, fileInput importTokens = .ok ([], m)) ∧ Token.Ordered importTokens ∧
      (∀ rest m, fileInput importTokens = .ok (rest, m) →
        ∃ pre, importTokens = pre ++ rest ∧ FileInput IsHull pre m ∧ Module.Nested m) ∧
      (∀ fuel rest e, constExpr fuel importTokens = .ok (rest, e) →
        ∃ pre, importTokens = pre ++ rest ∧ Const IsHull .expr pre e ∧ ConstExpr.Nested e)) :=
  have hsum : Token.Ordered sumTokens := by
    simp [Token.Ordered, sumTokens, Span.WellFormed, Span.Before]
  have himport : Token.Ordered importTokens := by
    simp [Token.Ordered, importTokens, Span.WellFormed, Span.Before]
  ⟨⟨⟨_, rfl⟩, hsum, parsers_spans_are_hulls hsum⟩,
    ⟨⟨_, rfl⟩, himport, parsers_spans_are_hulls himport⟩⟩

end FeParser
