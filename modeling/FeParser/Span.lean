import Mathlib.Algebra.Order.Ring.Nat
import Mathlib.Data.List.Chain
import Mathlib.Data.List.Infix
import Mathlib.Data.List.Sort
import Mathlib.Tactic.Set
import Mathlib.Tactic.SplitIfs
import Mathlib.Tactic.Use

/-!
# Spans

Every token and every node of the syntax tree carries a `Span`, a half-open byte range
`[start, end)` into the source. `span.rs` is not part of the sources at hand, so `Span` and
`Span.fromPair` are modelled from the spec: `Span::from_pair(a, b)` is the smallest span
covering both arguments.

The parsers build every node's span with `fromPair` of its leftmost and rightmost parts.
On tokens in source order, `fromPair` of the hulls of two parts is the hull of everything
from the first to the last (`fromPair_hull` in `FeParser.Grammar`); this is what turns the
parsers' span arithmetic into the statement "a node's span is the hull of the tokens it was
built from" (`FeParser.Soundness`).
-/

namespace FeParser

/-- A half-open byte range `[start, end)` into the source. -/
structure Span where
  start : Nat
  «end» : Nat
deriving DecidableEq, Repr

/-- A value together with the span of source it was read from (`Spanned<T>`). -/
structure Spanned (α : Type) where
  node : α
  span : Span
deriving DecidableEq, Repr

namespace Span

/-- Modelled from the spec: `Span::from_pair(a, b)` yields the smallest span covering both
`a` and `b`. -/
def fromPair (a b : Span) : Span :=
  ⟨min a.start b.start, max a.end b.end⟩

/-- The span that every parser gives to a node whose content it does not track: the
zero-width span at offset `0`. Used to compare trees up to spans. -/
def zero : Span := ⟨0, 0⟩

/-- A span is well formed when it does not end before it starts. -/
def WellFormed (s : Span) : Prop := s.start ≤ s.end

/-- `a` ends no later than `b` starts: `a` lies wholly before `b` in the source. -/
def Before (a b : Span) : Prop := a.end ≤ b.start

/-- `s` contains `t`. -/
def Covers (s t : Span) : Prop := s.start ≤ t.start ∧ t.end ≤ s.end

/-- Well-formedness of a concrete span is decided by comparing its ends. -/
instance (s : Span) : Decidable s.WellFormed := inferInstanceAs (Decidable (_ ≤ _))
/-- Source order of two concrete spans is decided by comparing the end of one with the start of the
other. -/
instance (a b : Span) : Decidable (a.Before b) := inferInstanceAs (Decidable (_ ≤ _))

/-- The hull of a span with itself is that span. -/
@[simp] theorem fromPair_self (a : Span) : fromPair a a = a := by
  simp [fromPair]

/-- Containment of spans is transitive: a node's span contains the spans of its children's
children. -/
theorem Covers.trans {s t u : Span} (h₁ : s.Covers t) (h₂ : t.Covers u) : s.Covers u :=
  ⟨h₁.1.trans h₂.1, h₂.2.trans h₁.2⟩

end Span

end FeParser
