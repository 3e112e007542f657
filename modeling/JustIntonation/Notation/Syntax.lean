/-
JustIntonation/Notation/Syntax.lean

Syntax trees of the notation.

Integers stay source text with the bytes they occupy, so that a number that
is too large, or a zero denominator, can be reported where it stands.
-/

namespace JustIntonation.Notation

/-- An unsigned integer as written, from byte `start` up to byte `stop`. -/
structure Literal where
  text : String
  start : Nat
  stop : Nat
deriving DecidableEq, Inhabited

/-- `n` or `n/d`. -/
structure RatioLiteral where
  numerator : Literal
  denominator : Option Literal
deriving DecidableEq, Inhabited

/-- Ratios joined by `*`. -/
structure ProductLiteral where
  ratios : List RatioLiteral
deriving DecidableEq, Inhabited

inductive Expr where
  /-- `frequency:duration` or `frequency:duration:volume` -/
  | note (frequency duration : ProductLiteral) (volume : Option ProductLiteral)
  /-- `<f1 f2 ...>:duration`, again with an optional volume -/
  | chord (frequencies : List ProductLiteral) (duration : ProductLiteral)
      (volume : Option ProductLiteral)
  /-- `( ... )`: items one after another -/
  | group (items : List Expr)
  /-- `factor*body`: every frequency in the body is scaled -/
  | multiply (factor : ProductLiteral) (body : Expr)
  /-- `body**factor`: every volume in the body is scaled -/
  | amplify (body : Expr) (factor : ProductLiteral)
deriving Inhabited

/-- A whole text: simultaneous parts, each a sequence of items. -/
structure Tree where
  parts : List (List Expr)
deriving Inhabited

end JustIntonation.Notation
