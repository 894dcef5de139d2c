import CodeClones.Clone.Group
import CodeClones.Log.Logged
import CodeClones.Similarity.Overlap
import CodeClones.Token.Placeholder
import CodeClones.Window.Bucket

/-!
# Detect/Windowed — clones as equal windows of fixed width

Every window of `width` tokens is hashed; windows of equal hash are compared token by token and
grouped.  A long copy yields a group for each stretch of lines that a window of it covers.  Near
groups are graded by how much they share of their texts as written, and must reach a minimum.
-/

namespace CodeClones.Detect

open Log

/-- A file as windows see it: the keys compared, the texts as written, and the lines. -/
structure WindowSource where
  name : String
  keys : Array String
  written : Array String
  lines : Array Int

def WindowSource.ofFile (file : SourceFile) : WindowSource where
  name := file.name
  keys := file.tokens.map Token.text
  written := #[]
  lines := file.tokens.map Token.line

def WindowSource.ofNormalized (file : NormalizedFile) : WindowSource where
  name := file.name
  keys := file.tokens.map NormalizedToken.normalized
  written := file.tokens.map NormalizedToken.written
  lines := file.tokens.map NormalizedToken.line

/-- What is to be found: the width of the windows, the kind of the groups, and the score that near
groups must reach. -/
structure WindowSearch (S : Type) where
  width : Nat
  kind : CloneKind
  minimum : S

namespace WindowSearch

variable {S : Type}

/-- The windows of the source number `index`, each with its hash. -/
def hashed (rolling : RollingHash) (source : WindowSource) (index : Nat) :
    List (UInt64 × Window) :=
  (rolling.windows (source.keys.toList.map RollingHash.ofText)).zipIdx.map fun (hash, start) =>
    (hash, Window.mk index start)

/-- The texts of a window under one of the text columns of its source. -/
def textsOf (column : WindowSource → Array String) (sources : Array WindowSource) (width : Nat)
    (window : Window) : List String :=
  match sources[window.source]? with
  | some source => ((column source).extract window.start (window.start + width)).toList
  | none => []

def keysOf (sources : Array WindowSource) (width : Nat) (window : Window) : List String :=
  textsOf WindowSource.keys sources width window

/-- **May a window join a part?** — if its keys are those of the first member and it clashes with
no member. -/
def joins (sources : Array WindowSource) (width : Nat) (first : Window) (members : List Window)
    (window : Window) : Bool :=
  keysOf sources width first == keysOf sources width window &&
    !members.any fun member => member.clash width window

/-- The shared part of the distinct texts, as written, of two windows. -/
def sharedTexts (sources : Array WindowSource) (width : Nat) (pair : Window × Window) : Overlap :=
  Overlap.ofSets
    (Std.HashSet.ofList (textsOf WindowSource.written sources width pair.1))
    (Std.HashSet.ofList (textsOf WindowSource.written sources width pair.2))

/-- **The grade of a part** — exact parts are alike; a near part has the mean over all its pairs,
and is turned away below the minimum. -/
def grade? [Scoring S] (search : WindowSearch S) (sources : Array WindowSource)
    (members : List Window) : Option S :=
  if search.kind = .near then
    let score : S := Overlap.mean ((Window.pairs members).map (sharedTexts sources search.width))
    if Scoring.less score search.minimum then none else some score
  else some Scoring.one

def cloneOf (sources : Array WindowSource) (width : Nat) (window : Window) : Option Clone := do
  let source ← sources[window.source]?
  let first ← source.lines[window.start]?
  let last ← source.lines[window.start + width - 1]?
  return { file := source.name, startLine := first, endLine := last, tokenCount := Int.ofNat width }

/-- The group of a part: at least two members, and a grade. -/
def group? [Scoring S] (search : WindowSearch S) (sources : Array WindowSource) (hash : UInt64)
    (members : List Window) : Option (CloneGroup S) :=
  if members.length < 2 then none
  else (search.grade? sources members).map fun score =>
    { kind := search.kind
      clones := members.filterMap (cloneOf sources search.width)
      similarity := score
      fingerprint := toString hash.toNat }

/-- The parts of all buckets, each with its hash. -/
def parts (sources : Array WindowSource) (width : Nat) (buckets : List (UInt64 × Array Window)) :
    List (UInt64 × List Window) :=
  buckets.flatMap fun (hash, windows) =>
    (Window.parted (joins sources width) windows.toList).map fun members => (hash, members)

/-- What a search says about itself. -/
def report (kind : CloneKind) (files windows hashes found kept : Nat) : Entry where
  level := .debug
  text := s!"{kind.name} rolling-hash detection: {files} files, {windows} windows, " ++
    s!"{hashes} hashes -> {found} groups, {kept} after dedup"

/-- **The groups of equal windows**, one for each key, in ascending order of hash. -/
def run [Scoring S] (search : WindowSearch S) (files : List WindowSource) :
    Logged (List (CloneGroup S)) := do
  let sources := files.toArray
  let rolling := RollingHash.ofWidth search.width
  let entries := files.zipIdx.flatMap fun (source, index) => hashed rolling source index
  let buckets := Window.buckets entries
  let found := (parts sources search.width buckets).filterMap fun (hash, members) =>
    search.group? sources hash members
  let kept := distinctGroups found
  Logged.report
    (report search.kind files.length entries.length buckets.length found.length kept.length)
  return kept

end WindowSearch

variable {S : Type} [Scoring S]

/-- Windows of zero tokens, and no files at all, mean that nothing is searched. -/
def windowedIn (search : WindowSearch S) (files : List WindowSource) :
    Logged (List (CloneGroup S)) :=
  if files.isEmpty || search.width = 0 then pure [] else search.run files

/-- **Exact clones** — windows with the same token texts. -/
def windowedExact (width : Nat) (minimum : S) (files : List SourceFile) :
    Logged (List (CloneGroup S)) :=
  windowedIn ⟨width, .exact, minimum⟩ (files.map WindowSource.ofFile)

/-- Near clones of files that are normalized already. -/
def windowedNormalized (width : Nat) (minimum : S) (files : List NormalizedFile) :
    Logged (List (CloneGroup S)) :=
  windowedIn ⟨width, .near, minimum⟩ (files.map WindowSource.ofNormalized)

/-- **Near clones** — windows with the same texts after normalization. -/
def windowedNear (width : Nat) (minimum : S) (normalizer : Normalizer) (files : List SourceFile) :
    Logged (List (CloneGroup S)) :=
  windowedNormalized width minimum (files.map normalizer.normalize)

end CodeClones.Detect
