import CodeClones.Proofs.Shingle.Window
import CodeClones.Proofs.Token.Vocabulary
import CodeClones.Shingle.Document

/-!
# Proofs/Shingle/Renaming — renamed copies have the same shingles

Before shingles are taken, identifiers and literals are replaced by the numbers of their first
sight.  Renaming them injectively keeps these numbers (`Vocabulary.number_map`), so the prepared
texts are the same (`Shingle.rename_renamedText`), and so are the hashes.
-/

namespace CodeClones

/-! ## Renamed copies -/

namespace Token

/-- The text of a token after `names` is applied to identifiers and `values` to literals. -/
def renamedText (names values : String → String) (token : Token) : String :=
  match token.kind with
  | .identifier => names token.text
  | .literal => values token.text
  | _ => token.text

/-- The texts that occur at tokens of a kind. -/
def textsOf (kind : TokenKind) (tokens : List Token) : Set String :=
  {text | ∃ token ∈ tokens, token.kind = kind ∧ token.text = text}

/-- **A renamed copy** — token by token the same kind; the identifiers correspond under an injective
renaming, the literals under another one, and all other texts are equal. -/
def Renamed (tokens copies : List Token) : Prop :=
  ∃ names values : String → String,
    Set.InjOn names (textsOf .identifier tokens) ∧ Set.InjOn values (textsOf .literal tokens)
      ∧ List.Forall₂ (fun token copy => copy.kind = token.kind
        ∧ copy.text = token.renamedText names values) tokens copies

end Token

namespace Shingle

/-- The texts of the tokens of one kind, under any view `f` of the texts. -/
theorem textsOfKind_map (kind : TokenKind) (f : Token → String) (tokens : List Token) :
    textsOfKind kind (tokens.map f) (tokens.map Token.kind)
      = (tokens.filter fun token => decide (token.kind = kind)).map f := by
  rw [textsOfKind, List.zip_map', List.filter_map, List.map_map]
  rfl

theorem mem_textsOfKind_iff {kind : TokenKind} {tokens : List Token} {text : String} :
    text ∈ textsOfKind kind (tokens.map Token.text) (tokens.map Token.kind)
      ↔ text ∈ Token.textsOf kind tokens := by
  rw [textsOfKind_map, List.mem_map]
  simp [Token.textsOf, and_assoc]

/-- **Renamed texts of one kind keep their numbers.** -/
theorem number_textsOfKind {kind : TokenKind} {f : String → String} {g : Token → String}
    {tokens : List Token} (hf : Set.InjOn f (Token.textsOf kind tokens))
    (hg : ∀ token : Token, token.kind = kind → g token = f token.text) {token : Token}
    (htoken : token ∈ tokens) (hkind : token.kind = kind) :
    (Vocabulary.ofTexts (textsOfKind kind (tokens.map g) (tokens.map Token.kind))).number (g token)
      = (Vocabulary.ofTexts (textsOfKind kind (tokens.map Token.text)
          (tokens.map Token.kind))).number token.text := by
  have htexts : textsOfKind kind (tokens.map g) (tokens.map Token.kind)
      = (textsOfKind kind (tokens.map Token.text) (tokens.map Token.kind)).map f := by
    rw [textsOfKind_map, textsOfKind_map, List.map_map]
    refine List.map_congr_left fun token htoken => ?_
    exact hg token (of_decide_eq_true (List.mem_filter.mp htoken).2)
  rw [htexts, hg token hkind]
  exact Vocabulary.number_map hf (fun text htext => mem_textsOfKind_iff.mp htext)
    (mem_textsOfKind_iff.mpr ⟨token, htoken, hkind, rfl⟩)

/-- **Renaming is undone by numbering.** -/
theorem rename_renamedText {tokens : List Token} {names values : String → String}
    (hnames : Set.InjOn names (Token.textsOf .identifier tokens))
    (hvalues : Set.InjOn values (Token.textsOf .literal tokens)) :
    rename (tokens.map (Token.renamedText names values)) (tokens.map Token.kind)
      = rename (tokens.map Token.text) (tokens.map Token.kind) := by
  have hname : ∀ token : Token, token.kind = .identifier →
      token.renamedText names values = names token.text := by
    intro token hkind
    rw [Token.renamedText, hkind]
  have hvalue : ∀ token : Token, token.kind = .literal →
      token.renamedText names values = values token.text := by
    intro token hkind
    rw [Token.renamedText, hkind]
  rw [rename, rename, List.zip_map', List.zip_map', List.map_map, List.map_map]
  refine List.map_congr_left fun token htoken => ?_
  cases hkind : token.kind with
  | identifier =>
    simp only [Function.comp, hkind]
    rw [number_textsOfKind hnames hname htoken hkind]
  | literal =>
    simp only [Function.comp, hkind]
    rw [number_textsOfKind hvalues hvalue htoken hkind]
  | _ => simp only [Function.comp, Token.renamedText, hkind]

end Shingle

/-! ## Hashes -/

theorem Token.Renamed.map_eq {tokens copies : List Token} {names values : String → String}
    (h : List.Forall₂ (fun token copy => copy.kind = token.kind
      ∧ copy.text = token.renamedText names values) tokens copies) :
    copies.map kind = tokens.map kind
      ∧ copies.map text = tokens.map (renamedText names values) := by
  induction h with
  | nil => exact ⟨rfl, rfl⟩
  | cons hcopy _ ih =>
    rw [List.map_cons, List.map_cons, List.map_cons, List.map_cons, hcopy.1, hcopy.2, ih.1, ih.2]
    exact ⟨rfl, rfl⟩

namespace Shingler

variable {shingler : Shingler}

/-- Tokens with as many kinds as texts are renamed if that is asked for. -/
theorem prepare_map (h : shingler.renames = true) (tokens : List Token) (f : Token → String) :
    shingler.prepare (tokens.map f) (tokens.map Token.kind)
      = Shingle.rename (tokens.map f) (tokens.map Token.kind) := by
  rw [prepare, h, List.length_map, List.length_map, BEq.rfl]
  rfl

/-- **A renamed copy has the same hashes.** -/
theorem hashesOf_of_renamed (h : shingler.renames = true) {tokens copies : Array Token}
    (hrenamed : Token.Renamed tokens.toList copies.toList) :
    shingler.hashesOf copies = shingler.hashesOf tokens := by
  obtain ⟨names, values, hnames, hvalues, hcopies⟩ := hrenamed
  obtain ⟨hkinds, htexts⟩ := Token.Renamed.map_eq hcopies
  rw [hashesOf, hashesOf, hashes, hashes, hkinds, htexts, prepare_map h, prepare_map h,
    Shingle.rename_renamedText hnames hvalues]

/-- **A text that is long enough has a shingle.** -/
theorem hashesOf_ne_nil {tokens : Array Token} (h : shingler.size ≤ tokens.size) :
    shingler.hashesOf tokens ≠ [] := by
  rw [hashesOf, Ne, hashes_eq_nil_iff, List.length_map, Array.length_toList]
  exact Nat.not_lt.mpr h

end Shingler

end CodeClones
