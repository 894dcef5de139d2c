import CodeClones.Detect.Pairwise
import CodeClones.Detect.Similar
import CodeClones.Proofs.Index.Documents

/-!
# Proofs/Detect/Indexed — no document is too short for its index

An index skips a signature that is too short, and only the log tells (`entries_insertAll`).  The
split that is chosen for a number of slots asks for no more than these, whatever is measured while
it is chosen (`Split.Fits`); so nothing is skipped as long as the split and the signatures are made
for the same number of slots (`keeps_of_long`), which is how the searches make them.
-/

namespace CodeClones

open Detect Log Parallel

namespace Index

variable {index : Index} {split : Split} {sketcher : Sketcher} {documents : List Document}

/-- **An index keeps all documents** — to fill it with their signatures reports none that is
skipped, and then every number finds the signature of the last document that has it. -/
def Keeps (index : Index) (sketcher : Sketcher) (documents : List Document) : Prop :=
  (index.insertAll (sketcher.sketchAll documents)).entries = []
    ∧ ∀ id, (index.insertAll (sketcher.sketchAll documents)).value.signature? id
      = (DocumentTable.ofList documents)[id]?.map sketcher.sketchDocument

theorem entries_insertLogged (index : Index) (signature : Signature) :
    (index.insertLogged signature).entries
      = if index.accepts signature then [] else [index.shortReport signature] := by
  rw [insertLogged]
  split <;> rfl

/-- **What is skipped is reported** — one entry for every signature that is too short. -/
theorem entries_insertAll (index : Index) (signatures : List Signature) :
    (index.insertAll signatures).entries
      = (signatures.filter fun signature => !index.accepts signature).map index.shortReport := by
  induction signatures generalizing index with
  | nil => rfl
  | cons signature signatures ih =>
    -- what is accepted, and what is said otherwise, depends on the split alone
    have haccepts : (index.insert signature).accepts = index.accepts := by
      funext other
      rw [accepts, accepts, split_insert]
    have hreport : (index.insert signature).shortReport = index.shortReport := by
      funext other
      rw [shortReport, shortReport, split_insert]
    rw [insertAll, List.foldlM_cons, Logged.entries_bind, ← insertAll, ih, value_insertLogged,
      haccepts, hreport, entries_insertLogged, List.filter_cons]
    cases index.accepts signature <;> rfl

/-- **An index keeps all documents whose signatures are long enough.** -/
theorem keeps_of_long
    (hlong : ∀ x ∈ documents, split.required ≤ (sketcher.sketchDocument x).size) :
    (empty split).Keeps sketcher documents := by
  refine ⟨?_, signature?_ofDocuments hlong⟩
  rw [entries_insertAll, List.map_eq_nil_iff, List.filter_eq_nil_iff]
  intro signature hsignature
  obtain ⟨x, hx, rfl⟩ := List.mem_map.mp hsignature
  rw [accepts_iff.mpr (hlong x hx)]
  exact Bool.false_ne_true

/-- **A signature that is long enough is stored**, and nothing is said about it. -/
theorem insertLogged_of_long {signature : Signature}
    (hlong : index.split.required ≤ signature.size) :
    (index.insertLogged signature).entries = []
      ∧ (index.insertLogged signature).value.signature? signature.id = some signature := by
  rw [entries_insertLogged, if_pos (accepts_iff.mpr hlong), value_insertLogged, signature?_insert,
    if_pos ⟨hlong, rfl⟩]
  exact ⟨rfl, rfl⟩

/-- **The split always fits** — for any number of slots but zero and any threshold.  Whatever errors
are measured, and however they compare, the choice has between one band and as many as there are
slots, and as many rows as go into each, at least one.  So an index for the threshold stores every
signature of so many slots, at any time; and both searches, made for so many slots, keep all
documents they are given, and all blocks of any files, under every gate and schedule. -/
theorem split_fits_and_keeps_all {slots : Nat} (hslots : 0 < slots) (threshold : Float) :
    (∀ error : Nat → Nat → Float,
      let best := Split.bestBy error slots
      1 ≤ best.bands ∧ best.bands ≤ slots ∧ best.rows = slots / best.bands ∧ 1 ≤ best.rows
        ∧ best.bands * best.rows ≤ slots)
    ∧ (let best := Split.bestBy (Split.error threshold) slots
      Split.bestFor slots threshold = (best.bands, best.rows))
    ∧ (∀ (history : List Operation) (signature : Signature), signature.size = slots →
      let inserted :=
        (history.foldl Operation.apply (forThreshold slots threshold)).insertLogged signature
      inserted.entries = [] ∧ inserted.value.signature? signature.id = some signature)
    ∧ ∀ seed : UInt64,
      (∀ documents : List Document,
        let search := SimilarDocuments.of slots threshold seed
        (empty (Split.ofCounts search.split.1 search.split.2)).Keeps search.sketcher documents)
      ∧ ∀ (minimumTokens shingleSize : Nat) (gate : Gate) (schedule : Schedule)
        (files : List SourceFile),
        let search := SimilarSearch.of minimumTokens shingleSize slots threshold seed
        let blocks := (search.shingler.allBlocks gate schedule minimumTokens 0 files).value
        search.index.Keeps search.sketcher blocks
          ∧ (search.sketcher.sketchSpread gate schedule blocks).value
            = search.sketcher.sketchAll blocks := by
  have hkeeps : ∀ (seed : UInt64) (documents : List Document),
      (forThreshold slots threshold).Keeps (Sketcher.ofSeed slots seed) documents :=
    fun seed documents => keeps_of_long fun x _ =>
      Sketcher.required_le_size hslots threshold seed x
  refine ⟨fun error => ?_, Split.bestFor_of_pos hslots threshold,
    fun history signature hsize => ?_, fun seed => ⟨hkeeps seed,
      fun minimumTokens shingleSize gate schedule files => ⟨hkeeps seed _, ?_⟩⟩⟩
  · have hfits := Split.fits_bestBy error hslots
    exact ⟨hfits.bands_pos, hfits.bands_le, hfits.rows_eq, hfits.rows_pos, hfits.mul_le⟩
  · refine insertLogged_of_long ?_
    have hsplit := (follows_run (Split.forThreshold slots threshold) history).split_eq
    rw [run] at hsplit
    rw [forThreshold, hsplit, hsize]
    exact Split.required_bestFor_le hslots threshold
  · exact Sketcher.value_sketchSpread _ gate schedule _

/-- Four slots, and a threshold that no error compares with. -/
theorem split_fits_without_threshold :
    let best := Split.bestFor 4 (0.0 / 0.0)
    0 < 4 ∧ 1 ≤ best.1 ∧ best.1 * best.2 ≤ 4
      ∧ ((forThreshold 4 (0.0 / 0.0)).insert ⟨7, #[1, 2, 3, 4]⟩).signature? 7
        = some ⟨7, #[1, 2, 3, 4]⟩ := by
  intro best
  obtain ⟨hfits, hbest, hstored, -⟩ := split_fits_and_keeps_all (show 0 < 4 by decide) (0.0 / 0.0)
  obtain ⟨hbands, -, -, -, hmul⟩ := hfits (Split.error (0.0 / 0.0))
  obtain ⟨-, hseven⟩ := hstored [] ⟨7, #[1, 2, 3, 4]⟩ rfl
  rw [value_insertLogged] at hseven
  refine ⟨by decide, ?_, ?_, hseven⟩
  · dsimp only [best]
    rwa [hbest]
  · dsimp only [best]
    rwa [hbest]

end Index

end CodeClones
