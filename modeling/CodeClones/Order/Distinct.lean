/-!
# Order/Distinct — sorted lists without repetition

`ascending` puts the distinct entries of a list into order.  Sets of hashes, candidate lists and
alphabets are all kept in this form.
-/

namespace CodeClones.Order

variable {α : Type}

/-- **The distinct entries in ascending order** — sort, then drop what equals its predecessor. -/
def ascending [BEq α] (le : α → α → Bool) (entries : List α) : List α :=
  (entries.mergeSort le).eraseReps

/-- Machine words in ascending order, each once. -/
def ascendingWords (words : List UInt64) : List UInt64 :=
  ascending (fun a b => decide (a ≤ b)) words

end CodeClones.Order
