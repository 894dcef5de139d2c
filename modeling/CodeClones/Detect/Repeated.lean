import CodeClones.Clone.Assembly
import CodeClones.Log.Logged

/-!
# Detect/Repeated — clones as repeats of the token stream

All files are laid end to end, the suffixes of the stream are sorted, and the selected repeats of
sufficient length become groups.
-/

namespace CodeClones.Detect

open Log

/-- What a detection over a stream says about itself. -/
def repeatedReport (kind : CloneKind) (stream : TokenStream) (repeats groups : Nat) : Entry where
  level := .debug
  text := s!"{kind.name} detection: {stream.files.size} files, {stream.size} tokens, " ++
    s!"vocabulary {stream.vocabularySize}, {repeats} repeat groups -> {groups} clone groups"

/-- **The repeated windows of a stream**, as clone groups; a stream shorter than a window has
none. -/
def repeatedInStream (minimumTokens : Nat) (kind : CloneKind) (stream : TokenStream) :
    Logged (List (CloneGroup Float)) := do
  if stream.size < minimumTokens then return []
  let table := RepeatTable.ofSuffixes (SuffixArray.ofText stream.codes)
  let repeats := table.selected (Int.ofNat minimumTokens)
  let groups := stream.assemble kind (repeats.map Repeat.occurrences)
  Logged.report (repeatedReport kind stream repeats.length groups.length)
  return groups

/-- Clones of at least `minimumTokens` tokens in some files; a minimum of zero turns detection
off. -/
def repeatedIn (minimumTokens : Nat) (kind : CloneKind) (files : List LexemeFile) :
    Logged (List (CloneGroup Float)) :=
  if files.isEmpty || minimumTokens = 0 then pure []
  else repeatedInStream minimumTokens kind (TokenStream.ofFiles files)

/-- **Exact clones** — windows with the same token texts. -/
def repeatedExact (minimumTokens : Nat) (files : List SourceFile) :
    Logged (List (CloneGroup Float)) :=
  repeatedIn minimumTokens .exact (files.map SourceFile.lexemes)

/-- Near clones of files that are normalized already. -/
def repeatedNormalized (minimumTokens : Nat) (files : List NormalizedFile) :
    Logged (List (CloneGroup Float)) :=
  repeatedIn minimumTokens .near (files.map NormalizedFile.lexemes)

/-- **Near clones** — windows with the same texts after normalization. -/
def repeatedNear (minimumTokens : Nat) (normalizer : Normalizer) (files : List SourceFile) :
    Logged (List (CloneGroup Float)) :=
  repeatedNormalized minimumTokens (files.map normalizer.normalize)

end CodeClones.Detect
