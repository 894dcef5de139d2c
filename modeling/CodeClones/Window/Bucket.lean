import CodeClones.Window.RollingHash
import Std.Data.HashMap

/-!
# Window/Bucket — windows with equal hashes, sorted into groups

All windows of some files are collected by hash.  Equal hashes do not yet mean equal texts: within a
bucket, `parted` puts together windows of the same text that do not overlap too much.
-/

namespace CodeClones

/-- A window: the index of its source and where it starts there. -/
structure Window where
  source : Nat
  start : Nat
deriving DecidableEq, Repr

namespace Window

/-- Add a window to the bucket of its hash. -/
def deposit (buckets : Std.HashMap UInt64 (Array Window)) (entry : UInt64 × Window) :
    Std.HashMap UInt64 (Array Window) :=
  buckets.alter entry.1 fun bucket => some ((bucket.getD #[]).push entry.2)

/-- **The buckets** in ascending order of hash, the windows of each in the order given. -/
def buckets (entries : List (UInt64 × Window)) : List (UInt64 × Array Window) :=
  (entries.foldl deposit ∅).toList.mergeSort fun a b => decide (a.1 ≤ b.1)

/-- Two windows of one source that share more than half of their width. -/
def clash (width : Nat) (a b : Window) : Bool :=
  a.source == b.source &&
    decide (width / 2 < Nat.min a.start b.start + width - Nat.max a.start b.start)

/-- Go through some entries and let those join that may; the members come first, then the others,
both in the order given. -/
def collect {α : Type} (joins : List α → α → Bool) (members : List α) :
    List α → List α × List α
  | [] => (members, [])
  | a :: rest =>
    if joins members a then collect joins (members ++ [a]) rest
    else
      let (all, others) := collect joins members rest
      (all, a :: others)

theorem length_collect_snd_le {α : Type} (joins : List α → α → Bool) (members entries : List α) :
    (collect joins members entries).2.length ≤ entries.length := by
  induction entries generalizing members with
  | nil => exact Nat.le_refl _
  | cons a rest ih =>
    unfold collect
    split
    · exact Nat.le_succ_of_le (ih _)
    · exact Nat.succ_le_succ (ih _)

/-- **Parts of a bucket** — the first window left opens a part and all that may join it do, until no
window is left. -/
def parted {α : Type} (joins : α → List α → α → Bool) : List α → List (List α)
  | [] => []
  | first :: rest =>
    let parts := collect (joins first) [first] rest
    parts.1 :: parted joins parts.2
termination_by entries => entries.length
decreasing_by
  exact Nat.lt_succ_of_le (length_collect_snd_le _ _ _)

/-- All pairs of members, the earlier one first. -/
def pairs {α : Type} : List α → List (α × α)
  | [] => []
  | a :: rest => rest.map (fun b => (a, b)) ++ pairs rest

end Window

end CodeClones
