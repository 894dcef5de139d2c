import CodeClones.Order.Lexical

/-!
# Suffix/Order — what it means to sort the suffixes of a sequence

A suffix is named by the position at which it starts.  `before` compares two suffixes
lexicographically, so a suffix that is an initial part of another precedes it.  `Sorted` says that
an array lists all suffixes in this order; it determines the array.
-/

namespace CodeClones.Suffix

/-- Does the suffix at `i` strictly precede the suffix at `j`? -/
def before {α : Type} (less : α → α → Bool) (symbols : Array α) (i j : Nat) : Bool :=
  Order.lexLess less (symbols.toList.drop i) (symbols.toList.drop j)

/-- `before` for symbols that are natural numbers. -/
def natBefore (symbols : Array Nat) (i j : Nat) : Bool :=
  before (fun a b => decide (a < b)) symbols i j

/-- `before` for symbols that are integers. -/
def intBefore (symbols : Array Int) (i j : Nat) : Bool :=
  before (fun a b => decide (a < b)) symbols i j

/-- **A sorted suffix order** — every position once, each suffix before all later ones. -/
structure Sorted {α : Type} (less : α → α → Bool) (symbols : Array α) (order : Array Nat) :
    Prop where
  complete : order.toList.Perm (List.range symbols.size)
  ascending : order.toList.Pairwise fun i j => before less symbols i j = true

end CodeClones.Suffix
