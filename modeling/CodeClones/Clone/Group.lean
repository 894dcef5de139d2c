import CodeClones.Text.Bytes
import CodeClones.Token.Basic
import Std.Data.HashMap
import Std.Data.HashSet

/-!
# Clone/Group — what a detector reports

A clone is a stretch of lines in a file; a group is a set of clones of each other.  Two groups that
report the same stretches have the same `key`, and `distinctGroups` keeps the first of them.
-/

namespace CodeClones

/-- Identical tokens, tokens identical up to names and values, or merely similar token windows. -/
inductive CloneKind where
  | exact
  | near
  | semantic
deriving DecidableEq, Repr

namespace CloneKind

def name : CloneKind → String
  | exact => "exact"
  | near => "near"
  | semantic => "semantic"

/-- The kind of a name, if there is one. -/
def ofName? : String → Option CloneKind
  | "exact" => some exact
  | "near" => some near
  | "semantic" => some semantic
  | _ => none

theorem ofName?_name (kind : CloneKind) : ofName? kind.name = some kind := by
  cases kind <;> rfl

end CloneKind

/-- One occurrence of duplicated code; both lines are included. -/
structure Clone where
  file : String
  startLine : Int
  endLine : Int
  tokenCount : Int
  snippet : String := ""
deriving DecidableEq, Repr

/-- Clones of each other, with a similarity in a number type `S`. -/
structure CloneGroup (S : Type) where
  kind : CloneKind
  clones : List Clone
  similarity : S
  fingerprint : String
deriving DecidableEq, Repr

variable {S : Type}

/-- `file:first-last`. -/
def Clone.location (clone : Clone) : String :=
  clone.file ++ ":" ++ toString clone.startLine ++ "-" ++ toString clone.endLine

/-- **The key of a group** — its locations in byte order, joined by bars. -/
def CloneGroup.key (group : CloneGroup S) : String :=
  String.intercalate "|" ((group.clones.map Clone.location).mergeSort Text.le)

/-- Drop every group whose key is among `seen` or occurs earlier in the list. -/
def distinctGroupsFrom (seen : Std.HashSet String) :
    List (CloneGroup S) → List (CloneGroup S)
  | [] => []
  | group :: groups =>
    if seen.contains group.key then distinctGroupsFrom seen groups
    else group :: distinctGroupsFrom (seen.insert group.key) groups

/-- **One group for each key** — the first one, in the order of the list. -/
def distinctGroups (groups : List (CloneGroup S)) : List (CloneGroup S) :=
  distinctGroupsFrom ∅ groups

/-- The first file of each name. -/
def filesByName (files : List SourceFile) : Std.HashMap String SourceFile :=
  files.foldl (fun found file => found.insertIfNew file.name file) ∅

/-- **Quote the source** — every clone in a known file gets the text of its lines. -/
def quoteSnippets (files : List SourceFile) (groups : List (CloneGroup S)) :
    List (CloneGroup S) :=
  let found := filesByName files
  groups.map fun group =>
    { group with
      clones := group.clones.map fun clone =>
        match found[clone.file]? with
        | some file => { clone with snippet := snippet file.lines clone.startLine clone.endLine }
        | none => clone }

end CodeClones
