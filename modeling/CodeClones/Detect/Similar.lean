import CodeClones.Clone.Group
import CodeClones.Graph.Forest
import CodeClones.Verify.Spread

/-!
# Detect/Similar — clones as similar blocks

Blocks of all files are sketched and put into an index; candidate pairs are verified by their exact
similarity, and blocks that are connected by verified pairs form a group.  Block numbers count from
zero without gaps, so they also serve as positions in the list of blocks.
-/

namespace CodeClones.Detect

open Log Parallel

/-- What is compared, and how similar it must be. -/
structure SimilarSearch where
  minimumTokens : Nat
  shingler : Shingler
  sketcher : Sketcher
  split : Nat × Nat
  minimum : Float

namespace SimilarSearch

/-- **A search** — blocks of `minimumTokens` tokens, shingles of `shingleSize` tokens, signatures of
`slots` slots split for the minimum similarity. -/
def of (minimumTokens shingleSize slots : Nat) (minimum : Float) (seed : UInt64) :
    SimilarSearch where
  minimumTokens := minimumTokens
  shingler := Shingler.ofSize shingleSize true
  sketcher := Sketcher.ofSeed slots seed
  split := Split.bestFor slots minimum
  minimum := minimum

/-- The empty index of a search. -/
def index (search : SimilarSearch) : Index :=
  Index.empty (Split.ofCounts search.split.1 search.split.2)

/-- The graph of the verified pairs. -/
def graphOf (blocks : Nat) (pairs : List VerifiedPair) : CloneGraph :=
  CloneGraph.ofEdges blocks (pairs.map fun pair => (pair.first.id.toNat, pair.second.id.toNat))

/-- For every block the number of its component, if it has one. -/
def owners (blocks : Nat) (components : List (List Nat)) : Array (Option Nat) :=
  components.zipIdx.foldl (fun owners entry =>
    entry.1.foldl (fun owners block => owners.setIfInBounds block (some entry.2)) owners)
    (Array.replicate blocks none)

/-- The verified pairs whose first block belongs to the component of a number. -/
def pairsWithin (owners : Array (Option Nat)) (number : Nat) (pairs : List VerifiedPair) :
    List VerifiedPair :=
  pairs.filter fun pair => owners[pair.first.id.toNat]? == some (some number)

/-- The mean similarity of some pairs, summed from the left; `fallback` if there are none. -/
def meanSimilarity (fallback : Float) (pairs : List VerifiedPair) : Float :=
  if pairs.isEmpty then fallback
  else pairs.foldl (fun sum pair => sum + pair.similarity) 0 / Float.ofNat pairs.length

def cloneOf (document : Document) : Clone where
  file := document.file
  startLine := document.startLine
  endLine := document.endLine
  tokenCount := Int.ofNat document.tokenCount

/-- **The group of a component** — its blocks by number, with the mean similarity of its verified
pairs. -/
def groupOf (search : SimilarSearch) (blocks : Array Document) (owners : Array (Option Nat))
    (pairs : List VerifiedPair) (component : List Nat) (number : Nat) : CloneGroup Float where
  kind := .semantic
  clones := component.filterMap fun block => blocks[block]?.map cloneOf
  similarity := meanSimilarity search.minimum (pairsWithin owners number pairs)
  fingerprint := String.intercalate "-" (component.map toString)

/-- The groups of all components, in their order. -/
def groupsOf (search : SimilarSearch) (blocks : List Document) (pairs : List VerifiedPair)
    (components : List (List Nat)) : List (CloneGroup Float) :=
  let owners := owners blocks.length components
  components.zipIdx.map fun (component, number) =>
    search.groupOf blocks.toArray owners pairs component number

/-- What a search says about itself; `how` names the path it took. -/
def report (how : String) (blocks candidates verified groups : Nat) : Entry where
  level := .debug
  text := s!"{how}minhash detection: {blocks} blocks, {candidates} candidates, " ++
    s!"{verified} verified, {groups} groups"

/-- **The groups of similar blocks**, by one worker. -/
def run (search : SimilarSearch) (files : List SourceFile) :
    Logged (List (CloneGroup Float)) := do
  if files.isEmpty || search.minimumTokens = 0 then return []
  let blocks ← search.shingler.allBlocks Gate.closed (Schedule.dealt 1) search.minimumTokens 0
    files
  if blocks.isEmpty then return []
  let index ← search.index.insertAll (search.sketcher.sketchAll blocks)
  let candidates := index.candidatePairs
  let pairs := (Verifier.ofMinimum search.minimum).verifyAll (DocumentTable.ofList blocks)
    candidates
  let components := (graphOf blocks.length pairs).components
  Logged.report
    (report "" blocks.length candidates.length pairs.length components.length)
  return search.groupsOf blocks pairs components

/-- An index of fewer bands than this is searched by one worker. -/
def minSpreadBands : Nat := 4

/-- The candidates under a gate: the bands are shared out if there are enough of them. -/
def candidates (gate : Gate) (schedule : Schedule) (index : Index) (bands blocks : Nat) :
    List DocumentPair :=
  if minSpreadBands ≤ bands ∧ gate.spreadsDocuments blocks = true then
    index.candidatePairsSpread (schedule.bands index.split.bands)
  else index.candidatePairs

/-- **The same groups from several workers** — each stage above its own threshold; a cancelled run
groups what was verified by then. -/
def runSpread (search : SimilarSearch) (gate : Gate) (schedule : Schedule) (signal : Signal)
    (files : List SourceFile) : Logged (List (CloneGroup Float)) := do
  if files.isEmpty || search.minimumTokens = 0 then return []
  let blocks ← search.shingler.allBlocks gate schedule search.minimumTokens 0 files
  if blocks.isEmpty then return []
  let signatures ← search.sketcher.sketchSpread gate schedule blocks
  let index ← search.index.insertAll signatures
  let found := candidates gate schedule index search.split.1 blocks.length
  let verified ← SpreadVerifier.run ⟨Verifier.ofMinimum search.minimum, gate⟩ schedule
    (DocumentTable.ofList blocks) found signal
  let components ← (graphOf blocks.length verified.pairs).componentsUnder gate schedule
  Logged.report
    (report "parallel " blocks.length found.length verified.pairs.length components.length)
  return search.groupsOf blocks verified.pairs components

end SimilarSearch

end CodeClones.Detect
