import CodeClones.Detect.Repeated
import CodeClones.Detect.Similar
import CodeClones.Detect.Windowed
import CodeClones.Engine.Settings

/-!
# Engine/Run — all detectors over one set of files

The detectors that the settings ask for run one after the other: exact, near, semantic.  Their
groups are listed in this order and, if wanted, quoted from the source lines.
-/

namespace CodeClones.Engine

open Log Parallel Detect

/-- Run a stage only if it is wanted. -/
def stage (wanted : Bool) (run : Logged (List (CloneGroup Float))) :
    Logged (List (CloneGroup Float)) :=
  if wanted then run else return []

/-- Exact clones by the algorithm of the settings. -/
def exact (settings : Settings) (files : List SourceFile) : Logged (List (CloneGroup Float)) :=
  match settings.algorithm with
  | .suffixArray => repeatedExact settings.minimumTokens files
  | .rollingHash => windowedExact settings.minimumTokens settings.minimumSimilarity files

/-- Near clones by the algorithm of the settings, with the usual normalization. -/
def near (settings : Settings) (files : List SourceFile) : Logged (List (CloneGroup Float)) :=
  match settings.algorithm with
  | .suffixArray => repeatedNear settings.minimumTokens {} files
  | .rollingHash => windowedNear settings.minimumTokens settings.minimumSimilarity {} files

/-- The search for similar blocks that the settings describe. -/
def similarSearch (settings : Settings) : SimilarSearch :=
  SimilarSearch.of settings.minimumTokens settings.shingleSize settings.signatureSize
    settings.minimumSimilarity settings.seed

/-- Semantic clones, by several workers if the gate is open. -/
def semantic (settings : Settings) (gate : Gate) (schedule : Schedule) (files : List SourceFile) :
    Logged (List (CloneGroup Float)) :=
  if gate.enabled then (similarSearch settings).runSpread gate schedule Signal.quiet files
  else (similarSearch settings).run files

/-- What a run says about itself. -/
def report (settings : Settings) (groups files : Nat) : Entry where
  level := .info
  text := s!"detected {groups} clone groups in {files} files (" ++
    s!"{settings.algorithm.name}, mode {settings.mode.name})"

/-- Run with settings that are within bounds. -/
def runClamped (threads : Nat) (schedule : Schedule) (settings : Settings)
    (files : List SourceFile) : Logged (List (CloneGroup Float)) := do
  if files.isEmpty || settings.minimumTokens = 0 then return []
  let exactGroups ← stage (settings.wants .exact) (exact settings files)
  let nearGroups ← stage (settings.wants .near) (near settings files)
  let gate := Gate.ofMode threads settings.mode
  let semanticGroups ← stage (settings.wants .semantic) (semantic settings gate schedule files)
  let found := exactGroups ++ nearGroups ++ semanticGroups
  let groups := if settings.quotesSource then quoteSnippets files found else found
  Logged.report (report settings groups.length files.length)
  return groups

/-- **All clone groups of some files**, on a machine with `threads` threads. -/
def run (threads : Nat) (schedule : Schedule) (settings : Settings) (files : List SourceFile) :
    Logged (List (CloneGroup Float)) :=
  runClamped threads schedule settings.clamped files

end CodeClones.Engine
