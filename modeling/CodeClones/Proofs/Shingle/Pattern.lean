import CodeClones.Proofs.Shingle.Renaming

/-!
# Proofs/Shingle/Pattern — renaming keeps the pattern of the names and nothing else

Two texts of the same kinds are renamed to the same text exactly if their identifiers repeat at the
same places, their literals do, and everything else is equal (`rename_eq_iff_samePattern`).  One
direction reads the places off the numbers.  For the other, texts of one pattern are an injective
renaming of each other (`SamePlaces.exists_injOn`), which numbering undoes.  Renaming may be done in
one pass, numbering each text when it is met (`rename_eq_renameFrom`).
-/

namespace CodeClones

namespace Shingle

/-! ## Patterns -/

/-- **Two texts repeat the tokens of a kind at the same places.** -/
def SamePlaces (kind : TokenKind) (kinds : List TokenKind) (as bs : List String) : Prop :=
  ∀ i j : Nat, kinds[i]? = some kind → kinds[j]? = some kind →
    (as[i]? = as[j]? ↔ bs[i]? = bs[j]?)

/-- **Two texts of some kinds have one pattern** — identifiers are repeated at the same places, so
are literals, and all other tokens are equal. -/
structure SamePattern (kinds : List TokenKind) (as bs : List String) : Prop where
  identifiers : SamePlaces TokenKind.identifier kinds as bs
  literals : SamePlaces TokenKind.literal kinds as bs
  others : ∀ (i : Nat) (kind : TokenKind), kinds[i]? = some kind → kind ≠ .identifier →
    kind ≠ .literal → as[i]? = bs[i]?

variable {kind : TokenKind} {kinds : List TokenKind} {as bs : List String} {a b : String} {i : Nat}

/-- Only the places of the kinds matter. -/
instance : Decidable (SamePlaces kind kinds as bs) :=
  decidable_of_iff (∀ i < kinds.length, ∀ j < kinds.length,
      kinds[i]? = some kind ∧ kinds[j]? = some kind → (as[i]? = as[j]? ↔ bs[i]? = bs[j]?))
    ⟨fun h i j hi hj => h i (List.getElem?_eq_some_iff.mp hi).1 j
      (List.getElem?_eq_some_iff.mp hj).1 ⟨hi, hj⟩, fun h i _ j _ hij => h i j hij.1 hij.2⟩

instance : Decidable (SamePattern kinds as bs) :=
  decidable_of_iff (SamePlaces .identifier kinds as bs ∧ SamePlaces .literal kinds as bs
      ∧ ∀ i < kinds.length, ∀ kind ∈ kinds[i]?, kind ≠ .identifier → kind ≠ .literal →
        as[i]? = bs[i]?)
    ⟨fun h => ⟨h.1, h.2.1, fun i kind hkind => h.2.2 i (List.getElem?_eq_some_iff.mp hkind).1 kind
      hkind⟩, fun h => ⟨h.identifiers, h.literals, fun i _ kind => h.others i kind⟩⟩

/-- There is a text wherever there is a kind. -/
theorem exists_getElem?_eq (h : as.length = kinds.length) (hkind : kinds[i]? = some kind) :
    ∃ a, as[i]? = some a :=
  ⟨_, List.getElem?_eq_getElem (h ▸ (List.getElem?_eq_some_iff.mp hkind).1)⟩

/-- **Texts that repeat at the same places are renamed into each other.** -/
theorem SamePlaces.exists_injOn (h : SamePlaces kind kinds as bs) (hb : bs.length = kinds.length) :
    ∃ names : String → String,
      Set.InjOn names {a | ∃ i : Nat, kinds[i]? = some kind ∧ as[i]? = some a}
      ∧ ∀ (i : Nat) (a : String), kinds[i]? = some kind → as[i]? = some a →
        bs[i]? = some (names a) := by
  let place := {i : Nat // kinds[i]? = some kind}
  have hfactors : Function.FactorsThrough (fun i : place => bs[i.1]?) fun i : place => as[i.1]? :=
    fun i j => (h i j i.2 j.2).mp
  let image := Function.extend (fun i : place => as[i.1]?) (fun i : place => bs[i.1]?) id
  have himage : ∀ (i : Nat) (a : String), kinds[i]? = some kind → as[i]? = some a →
      bs[i]? = some ((image (some a)).getD a) := by
    intro i a hkind ha
    obtain ⟨b, hb⟩ := exists_getElem?_eq hb hkind
    have heq : image (some a) = bs[i]? := ha ▸ hfactors.extend_apply id ⟨i, hkind⟩
    rw [heq, hb, Option.getD_some]
  refine ⟨fun a => (image (some a)).getD a, ?_, himage⟩
  rintro a ⟨i, hi, ha⟩ b ⟨j, hj, hb⟩ heq
  have hbs : bs[i]? = bs[j]? :=
    (himage i a hi ha).trans ((congrArg some heq).trans (himage j b hj hb).symm)
  exact Option.some.inj (ha.symm.trans (((h i j hi hj).mpr hbs).trans hb))

/-- Texts are those of the tokens under a map if they are so place by place. -/
theorem eq_map_of_getElem? {tokens : List Token} {text : Token → String}
    (hlength : bs.length = tokens.length)
    (h : ∀ (i : Nat) (token : Token), tokens[i]? = some token → bs[i]? = some (text token)) :
    bs = tokens.map text := by
  refine List.ext_getElem? fun i => ?_
  cases htoken : tokens[i]? with
  | none =>
    rw [List.getElem?_map, htoken, Option.map_none]
    exact List.getElem?_eq_none (hlength ▸ List.getElem?_eq_none_iff.mp htoken)
  | some token => rw [List.getElem?_map, htoken, Option.map_some, h i token htoken]

/-- Texts and kinds of one number make tokens. -/
theorem exists_tokens (h : as.length = kinds.length) :
    ∃ tokens : List Token, tokens.map Token.text = as ∧ tokens.map Token.kind = kinds := by
  refine ⟨(as.zip kinds).map fun entry => ⟨entry.2, entry.1, 0, 0⟩, ?_, ?_⟩
  · rw [List.map_map]
    exact List.map_fst_zip h.le
  · rw [List.map_map]
    exact List.map_snd_zip h.ge

/-! ## Places in a renamed text -/

theorem mem_textsOfKind (hkind : kinds[i]? = some kind) (ha : as[i]? = some a) :
    a ∈ textsOfKind kind as kinds := by
  refine List.mem_map.mpr ⟨(a, kind), List.mem_filter.mpr ⟨?_, decide_eq_true rfl⟩, rfl⟩
  exact List.mem_of_getElem? (List.getElem?_zip_eq_some.mpr ⟨ha, hkind⟩)

/-- What a token is renamed to, by the numbers of identifiers and of literals. -/
def renamedBy (identifiers literals : Vocabulary) : String × TokenKind → String
  | (text, .identifier) => placeholder "$ID" (identifiers.number text)
  | (text, .literal) => placeholder "$LIT" (literals.number text)
  | (text, _) => text

theorem rename_eq_map (as : List String) (kinds : List TokenKind) :
    rename as kinds = (as.zip kinds).map
      (renamedBy (Vocabulary.ofTexts (textsOfKind .identifier as kinds))
        (Vocabulary.ofTexts (textsOfKind .literal as kinds))) :=
  List.map_congr_left fun (_, kind) _ => by cases kind <;> rfl

theorem getElem?_rename (hkind : kinds[i]? = some kind) (ha : as[i]? = some a) :
    (rename as kinds)[i]? = some (renamedBy
      (Vocabulary.ofTexts (textsOfKind .identifier as kinds))
      (Vocabulary.ofTexts (textsOfKind .literal as kinds)) (a, kind)) := by
  have hentry : (as.zip kinds)[i]? = some (a, kind) :=
    List.getElem?_zip_eq_some.mpr ⟨ha, hkind⟩
  rw [rename_eq_map, List.getElem?_map, hentry, Option.map_some]

theorem placeholder_inj {label : String} {m n : Nat} (hm : 0 < m) (hn : 0 < n)
    (h : placeholder label m = placeholder label n) : m = n := by
  rw [placeholder, placeholder, String.append_right_inj, Nat.toString_eq_repr,
    Nat.toString_eq_repr, Nat.repr_inj] at h
  omega

/-- **Equal numbers at all places of a kind** — then the texts repeat at the same places. -/
theorem SamePlaces.of_numbers (ha : as.length = kinds.length) (hb : bs.length = kinds.length)
    {label : String}
    (h : ∀ (i : Nat) (a b : String), kinds[i]? = some kind → as[i]? = some a → bs[i]? = some b →
      placeholder label ((Vocabulary.ofTexts (textsOfKind kind as kinds)).number a)
        = placeholder label ((Vocabulary.ofTexts (textsOfKind kind bs kinds)).number b)) :
    SamePlaces kind kinds as bs := by
  have hnumber : ∀ (i : Nat) (a b : String), kinds[i]? = some kind → as[i]? = some a →
      bs[i]? = some b → (Vocabulary.ofTexts (textsOfKind kind as kinds)).number a
        = (Vocabulary.ofTexts (textsOfKind kind bs kinds)).number b := fun i a b hkind ha hb =>
    placeholder_inj (Vocabulary.number_pos (mem_textsOfKind hkind ha))
      (Vocabulary.number_pos (mem_textsOfKind hkind hb)) (h i a b hkind ha hb)
  intro i j hi hj
  obtain ⟨a, hai⟩ := exists_getElem?_eq ha hi
  obtain ⟨a', haj⟩ := exists_getElem?_eq ha hj
  obtain ⟨b, hbi⟩ := exists_getElem?_eq hb hi
  obtain ⟨b', hbj⟩ := exists_getElem?_eq hb hj
  rw [hai, haj, hbi, hbj, Option.some_inj, Option.some_inj,
    ← Vocabulary.number_inj (mem_textsOfKind hi hai) (mem_textsOfKind hj haj),
    ← Vocabulary.number_inj (mem_textsOfKind hi hbi) (mem_textsOfKind hj hbj),
    hnumber i a b hi hai hbi, hnumber j a' b' hj haj hbj]

/-! ## The pattern decides -/

/-- **One pattern, one renamed text.** -/
theorem SamePattern.rename_eq (h : SamePattern kinds as bs) (ha : as.length = kinds.length)
    (hb : bs.length = kinds.length) : rename as kinds = rename bs kinds := by
  obtain ⟨names, hnames, hidentifiers⟩ := h.identifiers.exists_injOn hb
  obtain ⟨values, hvalues, hliterals⟩ := h.literals.exists_injOn hb
  have hothers := h.others
  clear h
  obtain ⟨tokens, rfl, rfl⟩ := exists_tokens ha
  have hplaces : ∀ kind, Token.textsOf kind tokens ⊆ {a | ∃ i : Nat,
      (tokens.map Token.kind)[i]? = some kind ∧ (tokens.map Token.text)[i]? = some a} := by
    rintro kind _ ⟨token, htoken, rfl, rfl⟩
    obtain ⟨i, hi⟩ := List.mem_iff_getElem?.mp htoken
    exact ⟨i, by rw [List.getElem?_map, hi, Option.map_some],
      by rw [List.getElem?_map, hi, Option.map_some]⟩
  have hbs : bs = tokens.map (Token.renamedText names values) := by
    refine eq_map_of_getElem? (hb.trans (List.length_map _)) fun i token htoken => ?_
    have hkind : (tokens.map Token.kind)[i]? = some token.kind := by
      rw [List.getElem?_map, htoken, Option.map_some]
    have htext : (tokens.map Token.text)[i]? = some token.text := by
      rw [List.getElem?_map, htoken, Option.map_some]
    rw [Token.renamedText]
    split
    · next heq => exact hidentifiers i _ (heq ▸ hkind) htext
    · next heq => exact hliterals i _ (heq ▸ hkind) htext
    · next hne hne' => rw [← htext, hothers i _ hkind hne hne']
  rw [hbs, rename_renamedText (hnames.mono (hplaces _)) (hvalues.mono (hplaces _))]

/-- **The renamed text shows the pattern.** -/
theorem SamePattern.of_rename_eq (ha : as.length = kinds.length) (hb : bs.length = kinds.length)
    (h : rename as kinds = rename bs kinds) : SamePattern kinds as bs := by
  have hplace : ∀ (i : Nat) (kind : TokenKind) (a b : String), kinds[i]? = some kind →
      as[i]? = some a → bs[i]? = some b →
      renamedBy (Vocabulary.ofTexts (textsOfKind .identifier as kinds))
          (Vocabulary.ofTexts (textsOfKind .literal as kinds)) (a, kind)
        = renamedBy (Vocabulary.ofTexts (textsOfKind .identifier bs kinds))
          (Vocabulary.ofTexts (textsOfKind .literal bs kinds)) (b, kind) := by
    intro i kind a b hkind hai hbi
    rw [← Option.some_inj, ← getElem?_rename hkind hai, ← getElem?_rename hkind hbi, h]
  refine ⟨.of_numbers ha hb fun i a b => hplace i _ a b,
    .of_numbers ha hb fun i a b => hplace i _ a b, fun i kind hkind hne hne' => ?_⟩
  obtain ⟨a, hai⟩ := exists_getElem?_eq ha hkind
  obtain ⟨b, hbi⟩ := exists_getElem?_eq hb hkind
  have heq := hplace i kind a b hkind hai hbi
  rw [hai, hbi, Option.some_inj]
  cases kind with
  | identifier => exact absurd rfl hne
  | literal => exact absurd rfl hne'
  | _ => exact heq

/-! ## One pass -/

/-- **Renaming in one pass** — each identifier and each literal is numbered when it is met, by the
vocabulary of what has been met so far. -/
def renameFrom (identifiers literals : Vocabulary) : List (String × TokenKind) → List String
  | [] => []
  | (text, .identifier) :: rest =>
    placeholder "$ID" ((identifiers.see text).number text)
      :: renameFrom (identifiers.see text) literals rest
  | (text, .literal) :: rest =>
    placeholder "$LIT" ((literals.see text).number text)
      :: renameFrom identifiers (literals.see text) rest
  | (text, _) :: rest => text :: renameFrom identifiers literals rest

/-- The texts of one kind, in entries of a text and a kind. -/
def textsIn (kind : TokenKind) (entries : List (String × TokenKind)) : List String :=
  (entries.filter fun entry => entry.2 = kind).map Prod.fst

theorem ofTexts_concat (texts : List String) (text : String) :
    Vocabulary.ofTexts (texts ++ [text]) = (Vocabulary.ofTexts texts).see text :=
  List.foldl_append

/-- **A number that is given when a text is met stays.** -/
theorem renameFrom_ofTexts (identifiers literals : List String)
    (entries : List (String × TokenKind)) :
    renameFrom (Vocabulary.ofTexts identifiers) (Vocabulary.ofTexts literals) entries
      = entries.map (renamedBy
          (Vocabulary.ofTexts (identifiers ++ textsIn .identifier entries))
          (Vocabulary.ofTexts (literals ++ textsIn .literal entries))) := by
  induction entries generalizing identifiers literals with
  | nil => rfl
  | cons entry entries ih =>
    obtain ⟨text, kind⟩ := entry
    have hnumber : ∀ texts later : List String,
        (Vocabulary.ofTexts (texts ++ text :: later)).number text
          = (Vocabulary.ofTexts (texts ++ [text])).number text := fun texts later => by
      have happend := Vocabulary.number_append
        (List.mem_append_right texts (List.mem_singleton_self text)) later
      rwa [List.append_assoc, List.singleton_append] at happend
    cases kind with
    | identifier =>
      rw [renameFrom, ← ofTexts_concat, ih, List.append_assoc, ← hnumber identifiers]
      rfl
    | literal =>
      rw [renameFrom, ← ofTexts_concat, ih, List.append_assoc, ← hnumber literals]
      rfl
    | _ => exact congrArg (text :: ·) (ih identifiers literals)

/-- **Renaming is one pass.** -/
theorem rename_eq_renameFrom (as : List String) (kinds : List TokenKind) :
    rename as kinds = renameFrom .empty .empty (as.zip kinds) := by
  rw [rename_eq_map]
  exact (renameFrom_ofTexts [] [] (as.zip kinds)).symm

end Shingle

/-- **Two texts are renamed alike exactly if they have one pattern** — identifiers repeated at the
same places, literals repeated at the same places, all else equal.  Renaming is one pass over the
tokens, with two growing vocabularies.  Texts of one pattern have the same shingle hashes of every
length. -/
theorem rename_eq_iff_samePattern {kinds : List TokenKind} {as bs : List String}
    (ha : as.length = kinds.length) (hb : bs.length = kinds.length) :
    (Shingle.rename as kinds = Shingle.rename bs kinds ↔ Shingle.SamePattern kinds as bs)
      ∧ Shingle.rename as kinds = Shingle.renameFrom .empty .empty (as.zip kinds)
      ∧ (Shingle.SamePattern kinds as bs → ∀ size : Nat,
        (Shingler.ofSize size true).hashes as kinds
          = (Shingler.ofSize size true).hashes bs kinds) := by
  refine ⟨⟨.of_rename_eq ha hb, fun h => h.rename_eq ha hb⟩, Shingle.rename_eq_renameFrom as kinds,
    fun h size => ?_⟩
  have hprepare : ∀ texts : List String, texts.length = kinds.length →
      (Shingler.ofSize size true).prepare texts kinds = Shingle.rename texts kinds :=
    fun texts hlength => if_pos (by rw [hlength, BEq.rfl]; rfl)
  rw [Shingler.hashes, Shingler.hashes, hprepare as ha, hprepare bs hb, h.rename_eq ha hb]

/-- A renamed copy, and a text whose names repeat elsewhere. -/
theorem rename_eq_iff_of_three_names :
    let kinds : List TokenKind :=
      [.keyword, .identifier, .operator, .literal, .identifier, .operator, .identifier]
    let as := ["let", "total", "=", "10", "total", "+", "step"]
    let bs := ["let", "sum", "=", "99", "sum", "+", "delta"]
    let cs := ["let", "sum", "=", "99", "other", "+", "delta"]
    as.length = kinds.length ∧ bs.length = kinds.length ∧ cs.length = kinds.length
      ∧ Shingle.SamePattern kinds as bs ∧ ¬ Shingle.SamePattern kinds as cs
      ∧ Shingle.rename as kinds = Shingle.rename bs kinds
      ∧ Shingle.rename as kinds ≠ Shingle.rename cs kinds
      ∧ (Shingler.ofSize 3 true).hashes as kinds = (Shingler.ofSize 3 true).hashes bs kinds := by
  intro kinds as bs cs
  have hsame : Shingle.SamePattern kinds as bs := by decide +kernel
  have hother : ¬ Shingle.SamePattern kinds as cs := by decide +kernel
  have has : as.length = kinds.length := rfl
  have hbs : bs.length = kinds.length := rfl
  have hcs : cs.length = kinds.length := rfl
  obtain ⟨hiff, -, hhashes⟩ := rename_eq_iff_samePattern has hbs
  obtain ⟨hiff', -, -⟩ := rename_eq_iff_samePattern has hcs
  exact ⟨has, hbs, hcs, hsame, hother, hiff.mpr hsame, fun h => hother (hiff'.mp h),
    hhashes hsame 3⟩

end CodeClones
