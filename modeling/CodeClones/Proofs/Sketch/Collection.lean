import CodeClones.Proofs.Parallel.Workload
import CodeClones.Sketch.Collection

/-!
# Proofs/Sketch/Collection — one signature for each document

A signature has a slot for each hash function, and it depends on the hashes of its document alone.
However the documents are shared among workers, the signatures stand in their order.
-/

namespace CodeClones

open Log Parallel

theorem Coefficients.length_ofSeed (count : Nat) (seed : UInt64) :
    (ofSeed count seed).length = count := by
  rw [ofSeed]
  induction count generalizing seed with
  | zero => rfl
  | succ count ih =>
    rw [Nat.mul_succ, Hash.draws, Hash.draws, ofPairs, List.length_cons, ih]

/-- **Estimates do not depend on which signature comes first.** -/
theorem Signature.overlap_comm (a b : Signature) : a.overlap b = b.overlap a := by
  have hcount : ((a.slots.toList.zip b.slots.toList).countP fun entry => entry.1 == entry.2)
      = (b.slots.toList.zip a.slots.toList).countP fun entry => entry.1 == entry.2 := by
    rw [← List.zip_swap, List.countP_map]
    refine List.countP_congr fun entry _ => ?_
    rw [Function.comp_apply, Prod.fst_swap, Prod.snd_swap, beq_iff_eq, beq_iff_eq, eq_comm]
  rw [overlap, overlap]
  by_cases hsize : a.size = b.size
  · rw [if_pos hsize, if_pos hsize.symm, hcount, hsize]
  · rw [if_neg hsize, if_neg (Ne.symm hsize)]

namespace Sketcher

/-- **As many slots as were asked for.** -/
theorem size_sketchDocument_ofSeed (count : Nat) (seed : UInt64) (document : Document) :
    ((ofSeed count seed).sketchDocument document).size = count := by
  rw [sketchDocument, size_sketch]
  exact Coefficients.length_ofSeed count seed

/-- **Documents with the same hashes have the same slots.** -/
theorem slots_sketchDocument_congr (sketcher : Sketcher) {a b : Document}
    (h : a.hashes = b.hashes) :
    (sketcher.sketchDocument a).slots = (sketcher.sketchDocument b).slots := by
  rw [sketchDocument, sketchDocument, h]
  rfl

/-- **Sharing out the documents changes nothing.** -/
theorem value_sketchSpread (sketcher : Sketcher) (gate : Gate) (schedule : Schedule)
    (documents : List Document) :
    (sketcher.sketchSpread gate schedule documents).value = sketcher.sketchAll documents := by
  rw [sketchSpread]
  split
  · rw [Logged.value_bind, Logged.value_pure]
    refine (Workload.fill_eq _ _ _).trans (Workload.map_range_eq _ _ ?_)
    intro index document hdocument
    rw [List.getElem?_toArray, hdocument]
  · rfl

end Sketcher

end CodeClones
