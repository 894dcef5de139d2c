import CodeClones.Suffix.Array

/-!
# Repeat/CommonPrefix — how much neighbouring suffixes share

For each place of the sorted order, the length of the longest common initial part of the suffix
there and the one before it.  The lengths are found in the order of the text: dropping the first
symbol of a suffix shortens its match by at most one, so each search resumes where the last one
stopped.
-/

namespace CodeClones.Repeat

/-- **How far two suffixes agree**, given that they agree on their first `known` symbols. -/
def agreement (text : Array Int) (i j known : Nat) : Nat :=
  if h : i + known < text.size ∧ j + known < text.size then
    if text[i + known] = text[j + known] then agreement text i j (known + 1) else known
  else known
termination_by text.size - (i + known)

/-- The place of every position in the sorted order. -/
def ranks (size : Nat) (order : Array Nat) : Array Nat :=
  order.toList.zipIdx.foldl (fun ranks entry => ranks.setIfInBounds entry.1 entry.2)
    (Array.replicate size 0)

/-- The state of the scan: how much of the last match carries over, and the lengths found. -/
structure Scan where
  carried : Nat
  lengths : Array Nat

/-- One position of the text: match its suffix with the one before it in the sorted order. -/
def Scan.step (text : Array Int) (order ranks : Array Nat) (scan : Scan) (i : Nat) : Scan :=
  match ranks[i]?.getD 0 with
  | 0 => ⟨0, scan.lengths⟩
  | rank + 1 =>
    let shared := agreement text i (order[rank]?.getD 0) scan.carried
    ⟨shared - 1, scan.lengths.setIfInBounds (rank + 1) shared⟩

/-- **The common lengths** — the entry at place `k` belongs to the suffixes at places `k - 1` and
`k`; the first entry is zero.  An order of the wrong size gives zeros only. -/
def commonLengths (text : Array Int) (order : Array Nat) : Array Nat :=
  let blank := Array.replicate text.size 0
  if text.size < 2 || order.size != text.size then blank
  else
    ((List.range text.size).foldl (Scan.step text order (ranks text.size order)) ⟨0, blank⟩).lengths

end CodeClones.Repeat
