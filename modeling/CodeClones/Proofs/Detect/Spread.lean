import CodeClones.Engine.Run
import CodeClones.Proofs.Graph.Forest
import CodeClones.Proofs.Shingle.Document
import CodeClones.Proofs.Sketch.Collection
import CodeClones.Proofs.Verify.Spread

/-!
# Proofs/Detect/Spread — several workers find what one worker finds

Each stage of a search decides for itself whether to share its work, and gives the same value on
every path: the blocks (`Shingler.value_allBlocks`), their signatures
(`Sketcher.value_sketchSpread`), the candidates (`candidates_eq`), the verified pairs
(`SpreadVerifier.run_of_silent`) and the components (`CloneGraph.value_componentsUnder`).  The
groups are made of these values alone, so the mean of a group adds the same numbers in the same
order.
-/

namespace CodeClones

open Log Parallel

namespace Detect.SimilarSearch

variable (search : SimilarSearch)

/-! ## The stages of a search -/

/-- **The blocks** of some files, numbered from zero. -/
def blocks (files : List SourceFile) : List Document :=
  search.shingler.numbered search.minimumTokens 0 (Block.places search.minimumTokens files)

/-- The index of the signatures of some blocks. -/
def indexOf (blocks : List Document) : Index :=
  (search.index.insertAll (search.sketcher.sketchAll blocks)).value

/-- The verified pairs among some blocks. -/
def verified (blocks : List Document) : List VerifiedPair :=
  (Verifier.ofMinimum search.minimum).verifyAll (DocumentTable.ofList blocks)
    (search.indexOf blocks).candidatePairs

/-- The classes of blocks that are connected by verified pairs. -/
def classes (blocks : List Document) : List (List Nat) :=
  (graphOf blocks.length (search.verified blocks)).components

/-- **The groups of similar blocks** among some blocks. -/
def found (blocks : List Document) : List (CloneGroup Float) :=
  search.groupsOf blocks (search.verified blocks) (search.classes blocks)

/-- **The block of a number** lies at the place of that number. -/
theorem getElem?_blocks (files : List SourceFile) (block : Nat) :
    (search.blocks files)[block]?
      = (Block.places search.minimumTokens files)[block]?.map fun place =>
          search.shingler.blockAt search.minimumTokens place (UInt32.ofNat block) := by
  rw [blocks, Shingler.getElem?_numbered]
  simp only [UInt32.zero_add]

variable {search} in
theorem hashes_of_place {files : List SourceFile} {block : Nat} {document : Document}
    {place : Block.Place} (hdocument : (search.blocks files)[block]? = some document)
    (hplace : (Block.places search.minimumTokens files)[block]? = some place) :
    document.hashes = search.shingler.hashesOf (place.tokens search.minimumTokens) := by
  rw [getElem?_blocks, hplace] at hdocument
  exact Option.some.inj hdocument ▸ rfl

/-- Without blocks there is nothing to visit, so there are no groups. -/
@[simp] theorem found_nil : search.found [] = [] := by
  have hcount : (graphOf 0 (search.verified [])).nodeCount = 0 :=
    (CloneGraph.represents_ofEdges 0 _).nodeCount_eq
  have hclasses : search.classes [] = [] := by
    rw [classes, List.length_nil, CloneGraph.components, hcount, List.range_zero, List.foldl_nil]
    simp [CloneGraph.arrange]
  rw [found, hclasses]
  rfl

/-- A search that stops at once has no blocks. -/
theorem blocks_of_stopped {files : List SourceFile}
    (h : (files.isEmpty || decide (search.minimumTokens = 0)) = true) :
    search.blocks files = [] := by
  have hplaces : Block.places search.minimumTokens files = [] := by
    rcases Bool.or_eq_true_iff.mp h with h | h
    · rw [List.isEmpty_iff.mp h, Block.places_nil]
    · rw [of_decide_eq_true h, Block.places_zero]
  rw [blocks, hplaces]
  rfl

/-! ## One worker and several -/

theorem value_run (files : List SourceFile) :
    (search.run files).value = search.found (search.blocks files) := by
  rw [run]
  split
  · next hstop => rw [search.blocks_of_stopped hstop, found_nil]; rfl
  · rw [Logged.value_bind, Shingler.value_allBlocks, ← blocks]
    split
    · next hnone => rw [List.isEmpty_iff.mp hnone, found_nil]; rfl
    · rfl

/-- The candidates are the same whether the bands are shared out or not. -/
theorem candidates_eq (gate : Gate) (schedule : Schedule) (index : Index) (bands blocks : Nat) :
    candidates gate schedule index bands blocks = index.candidatePairs := by
  rw [candidates]
  split
  · exact index.candidatePairsSpread_eq _
  · rfl

/-- **A search by several workers** that nobody cancels finds what a search by one worker does. -/
theorem value_runSpread (gate : Gate) (schedule : Schedule) {signal : Signal}
    (h : signal.Silent) (files : List SourceFile) :
    (search.runSpread gate schedule signal files).value
      = search.found (search.blocks files) := by
  rw [runSpread]
  split
  · next hstop => rw [search.blocks_of_stopped hstop, found_nil]; rfl
  · rw [Logged.value_bind, Shingler.value_allBlocks, ← blocks]
    split
    · next hnone => rw [List.isEmpty_iff.mp hnone, found_nil]; rfl
    · have hpairs := fun pairs => (SpreadVerifier.run_of_silent
        ⟨Verifier.ofMinimum search.minimum, gate⟩ schedule
        (DocumentTable.own_ofList (search.blocks files)) h pairs).1
      simp only [Logged.value_bind, Logged.value_pure, Sketcher.value_sketchSpread,
        candidates_eq, hpairs, graphOf, CloneGraph.value_componentsUnder]
      rfl

end Detect.SimilarSearch

/-! ## All detectors -/

namespace Engine

open Detect

/-- What the wanted detectors find, one after the other, each by one worker. -/
def groups (settings : Settings) (files : List SourceFile) : List (CloneGroup Float) :=
  (stage (settings.wants .exact) (exact settings files)).value
    ++ (stage (settings.wants .near) (near settings files)).value
    ++ (stage (settings.wants .semantic) ((similarSearch settings).run files)).value

/-- The answer of a run by one worker. -/
def answer (settings : Settings) (files : List SourceFile) : List (CloneGroup Float) :=
  if files.isEmpty || settings.minimumTokens = 0 then []
  else if settings.quotesSource then quoteSnippets files (groups settings files)
  else groups settings files

/-- No detector reads the mode. -/
theorem answer_congr_mode (settings : Settings) (mode mode' : Mode) (files : List SourceFile) :
    answer { settings with mode := mode } files = answer { settings with mode := mode' } files :=
  rfl

/-- **Neither gate nor schedule shows in the semantic clones.** -/
theorem value_semantic (settings : Settings) (gate : Gate) (schedule : Schedule)
    (files : List SourceFile) :
    (semantic settings gate schedule files).value = ((similarSearch settings).run files).value := by
  rw [semantic]
  split
  · rw [SimilarSearch.value_runSpread _ gate schedule Signal.Silent.quiet, SimilarSearch.value_run]
  · rfl

theorem value_stage_congr (wanted : Bool) {run run' : Logged (List (CloneGroup Float))}
    (h : run.value = run'.value) : (stage wanted run).value = (stage wanted run').value := by
  cases wanted with
  | false => rfl
  | true => exact h

theorem value_runClamped (threads : Nat) (schedule : Schedule) (settings : Settings)
    (files : List SourceFile) :
    (runClamped threads schedule settings files).value = answer settings files := by
  have hsemantic := value_stage_congr (settings.wants .semantic)
    (value_semantic settings (Gate.ofMode threads settings.mode) schedule files)
  rw [runClamped, answer]
  split
  · rfl
  · simp only [Logged.value_bind, Logged.value_pure, hsemantic]
    rfl

/-- **Accelerate, never alter** — all detectors together give the same groups in every mode, on
every number of threads and under every schedule; and a search for similar blocks by several workers
that nobody cancels gives the groups of the search by one worker, under every gate and schedule. -/
theorem run_any_mode :
    (∀ (settings : Settings) (files : List SourceFile) (threads threads' : Nat)
      (schedule schedule' : Schedule) (mode mode' : Mode),
      (run threads schedule { settings with mode := mode } files).value
        = (run threads' schedule' { settings with mode := mode' } files).value)
    ∧ ∀ (search : SimilarSearch) (files : List SourceFile) (gate : Gate) (schedule : Schedule)
      (signal : Signal), signal.Silent →
      (search.runSpread gate schedule signal files).value = (search.run files).value := by
  refine ⟨fun settings files threads threads' schedule schedule' mode mode' => ?_,
    fun search files gate schedule signal hsilent => ?_⟩
  · rw [run, run, value_runClamped, value_runClamped]
    exact answer_congr_mode settings.clamped mode mode' files
  · rw [search.value_runSpread gate schedule hsilent, search.value_run]

/-- Two files of the same two tokens; every stage that has a threshold is above it. -/
theorem run_any_mode_quiet :
    let search := SimilarSearch.of 2 1 4 1 7
    let files : List SourceFile :=
      [⟨"a", #[⟨.keyword, "if", 1, 1⟩, ⟨.identifier, "x", 1, 4⟩], #[]⟩,
        ⟨"b", #[⟨.keyword, "if", 3, 1⟩, ⟨.identifier, "y", 3, 4⟩], #[]⟩]
    Signal.quiet.Silent
      ∧ (search.runSpread ⟨true, 1, 1, 3⟩ (Schedule.dealt 3) Signal.quiet files).value
        = (search.run files).value := by
  intro search files
  exact ⟨Signal.Silent.quiet, run_any_mode.2 search files _ _ _ Signal.Silent.quiet⟩

end Engine

end CodeClones
