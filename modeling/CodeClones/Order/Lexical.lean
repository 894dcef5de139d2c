/-!
# Order/Lexical — lists in lexicographic order

`lexLess` compares two lists entry by entry.  A list that runs out first is the smaller one, so a
proper initial part precedes every list that extends it.
-/

namespace CodeClones.Order

variable {α : Type}

/-- **Lexicographic comparison** — the first differing entry decides, and an exhausted list is the
smaller. -/
def lexLess (less : α → α → Bool) : List α → List α → Bool
  | [], [] => false
  | [], _ :: _ => true
  | _ :: _, [] => false
  | a :: as, b :: bs => less a b || (!less b a && lexLess less as bs)

/-- Weak lexicographic comparison: `b` does not precede `a`. -/
def lexLe (less : α → α → Bool) (a b : List α) : Bool :=
  !lexLess less b a

@[simp] theorem lexLess_nil_right (less : α → α → Bool) (as : List α) :
    lexLess less as [] = false := by
  cases as <;> rfl

end CodeClones.Order
