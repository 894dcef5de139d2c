import CodeClones.Proofs.Token.Stream

/-!
# Proofs/Token/Layout — the files as they stand in the stream

Whatever the tokens of the files are, the stream reads them as lexemes.  `Layout` says where each
token and each separator stands, how texts are numbered, and that two windows of the stream agree
only if both lie within files.  `layout_of_reads` proves it for every way of reading tokens; raw and
normalized tokens are two of them.
-/

namespace CodeClones

variable {τ : Type}

/-! ## Layouts -/

/-- The token at place `o` of file `f`. -/
def TokenAt (files : List (List τ)) (f o : Nat) (token : τ) : Prop :=
  ∃ file, files[f]? = some file ∧ file[o]? = some token

/-- Tokens are met file by file, and in each file in order. -/
def MetBefore (f' o' f o : Nat) : Prop :=
  f' < f ∨ f' = f ∧ o' < o

/-- Where file `f` starts: every file before it takes one position more than it has tokens. -/
def offsetOf (files : List (List τ)) (f : Nat) : Nat :=
  ((files.take f).map fun file => file.length + 1).sum

/-- **A window lies inside a file** — all its positions are tokens of one file, and no separator
stands in it. -/
structure Inside (files : List (List τ)) (position length : Nat) : Prop where
  within : ∃ f file o, files[f]? = some file ∧ o + length ≤ file.length
    ∧ position = offsetOf files f + o
  free : ∀ {f file}, files[f]? = some file →
    ¬(position ≤ offsetOf files f + file.length
      ∧ offsetOf files f + file.length < position + length)

/-- **Files laid out in a stream** — the tokens of each file in order, read as lexemes, and behind
each file its separator. -/
structure Layout (read : τ → Lexeme) (files : List (List τ)) (stream : TokenStream) : Prop where
  size_codes : stream.codes.size = offsetOf files files.length
  size_places : stream.places.size = stream.codes.size
  size_texts : stream.texts.size = stream.codes.size
  /-- A token keeps its place and the text it is shown by. -/
  token : ∀ {f o token}, TokenAt files f o token →
    stream.places[offsetOf files f + o]? = some ⟨f, (read token).line, (read token).column⟩
      ∧ stream.texts[offsetOf files f + o]? = some (read token).shown
  /-- Its code is a number of the vocabulary. -/
  code : ∀ {f o token}, TokenAt files f o token → ∃ code : Nat,
    stream.codes[offsetOf files f + o]? = some (code : Int)
      ∧ 0 < code ∧ code ≤ stream.vocabularySize
  /-- Equal codes stand for equal keys. -/
  code_eq_iff : ∀ {f o f' o' a b}, TokenAt files f o a → TokenAt files f' o' b →
    (stream.codes[offsetOf files f + o]? = stream.codes[offsetOf files f' + o']?
      ↔ (read a).key = (read b).key)
  /-- Every number of the vocabulary is the code of a token. -/
  exists_token : ∀ {code : Nat}, 0 < code → code ≤ stream.vocabularySize → ∃ f o token,
    TokenAt files f o token ∧ stream.codes[offsetOf files f + o]? = some (code : Int)
  /-- A key that is new has a larger code than all that were met before it. -/
  code_of_new : ∀ {f o new}, TokenAt files f o new →
    (∀ {f' o' old}, TokenAt files f' o' old → MetBefore f' o' f o →
      (read old).key ≠ (read new).key) →
    ∀ {f' o' old}, TokenAt files f' o' old → MetBefore f' o' f o → ∃ code code' : Nat,
      stream.codes[offsetOf files f' + o']? = some (code' : Int)
        ∧ stream.codes[offsetOf files f + o]? = some (code : Int) ∧ code' < code
  /-- Separators are numbered by their files, beyond the vocabulary. -/
  separator : ∀ {f file}, files[f]? = some file →
    stream.codes[offsetOf files f + file.length]? = some (stream.vocabularySize + 1 + f : Nat)
      ∧ stream.places[offsetOf files f + file.length]? = some ⟨f, -1, -1⟩
      ∧ stream.texts[offsetOf files f + file.length]? = some TokenStream.separatorText
  /-- Codes are positive, and none is larger than the number of positions. -/
  code_le : ∀ code ∈ stream.codes, 0 < code ∧ code ≤ stream.codes.size
  /-- Windows at two positions agree only inside files. -/
  inside : ∀ {p q length}, p ≠ q → p < stream.codes.size → q < stream.codes.size →
    stream.codes.extract p (p + length) = stream.codes.extract q (q + length) →
    Inside files p length ∧ Inside files q length

namespace TokenStream

open Repeat

/-! ## Keys in the order in which they are met -/

section Keys

variable {sources : List LexemeFile} {source : LexemeFile} {lexeme : Lexeme} {f o : Nat}

/-- The keys met before place `o` of file `f`. -/
def keysBefore (sources : List LexemeFile) (source : LexemeFile) (f o : Nat) : List String :=
  ((sources.take f).flatMap fun file => file.lexemes.map Lexeme.key)
    ++ (source.lexemes.take o).map Lexeme.key

theorem keys_eq_append (hf : sources[f]? = some source) (ho : source.lexemes[o]? = some lexeme) :
    ∃ after, (sources.flatMap fun file => file.lexemes.map Lexeme.key)
      = keysBefore sources source f o ++ lexeme.key :: after := by
  obtain ⟨hflt, hsource⟩ := List.getElem?_eq_some_iff.mp hf
  obtain ⟨holt, hlexeme⟩ := List.getElem?_eq_some_iff.mp ho
  have hkeys : source.lexemes.map Lexeme.key = (source.lexemes.take o).map Lexeme.key
      ++ lexeme.key :: (source.lexemes.drop (o + 1)).map Lexeme.key := by
    rw [← List.map_cons, ← List.map_append, ← hlexeme, List.cons_getElem_drop_succ,
      List.take_append_drop]
  refine ⟨(source.lexemes.drop (o + 1)).map Lexeme.key
    ++ (sources.drop (f + 1)).flatMap fun file => file.lexemes.map Lexeme.key, ?_⟩
  conv_lhs => rw [← List.take_append_drop f sources, ← List.cons_getElem_drop_succ (h := hflt),
    hsource, List.flatMap_append, List.flatMap_cons, hkeys]
  simp [keysBefore]

theorem mem_keysBefore_iff (hf : sources[f]? = some source) {key : String} :
    key ∈ keysBefore sources source f o ↔ ∃ f' o' source' lexeme', MetBefore f' o' f o
      ∧ sources[f']? = some source' ∧ source'.lexemes[o']? = some lexeme' ∧ lexeme'.key = key := by
  rw [keysBefore, List.mem_append, List.mem_flatMap]
  constructor
  · rintro (⟨source', hsource', hkey⟩ | hkey)
    · obtain ⟨f', hf'⟩ := List.mem_iff_getElem?.mp hsource'
      obtain ⟨lexeme', hlexeme', rfl⟩ := List.mem_map.mp hkey
      obtain ⟨o', ho'⟩ := List.mem_iff_getElem?.mp hlexeme'
      rw [List.getElem?_take, Option.ite_none_right_eq_some] at hf'
      exact ⟨f', o', source', lexeme', Or.inl hf'.1, hf'.2, ho', rfl⟩
    · obtain ⟨lexeme', hlexeme', rfl⟩ := List.mem_map.mp hkey
      obtain ⟨o', ho'⟩ := List.mem_iff_getElem?.mp hlexeme'
      rw [List.getElem?_take, Option.ite_none_right_eq_some] at ho'
      exact ⟨f, o', source, lexeme', Or.inr ⟨rfl, ho'.1⟩, hf, ho'.2, rfl⟩
  · rintro ⟨f', o', source', lexeme', hmet | ⟨rfl, hmet⟩, hf', ho', rfl⟩
    · refine Or.inl ⟨source', ?_, List.mem_map_of_mem (List.mem_of_getElem? ho')⟩
      exact List.mem_of_getElem? ((List.getElem?_take_of_lt hmet).trans hf')
    · rw [hf, Option.some.injEq] at hf'
      subst hf'
      refine Or.inr (List.mem_map_of_mem ?_)
      exact List.mem_of_getElem? ((List.getElem?_take_of_lt hmet).trans ho')

end Keys

/-! ## Files of tokens that are read as lexemes -/

section Sources

variable {read : τ → Lexeme} {files : List (List τ)} {sources : List LexemeFile} {f o : Nat}
  (hreads : sources.map LexemeFile.lexemes = files.map (List.map read))

include hreads

theorem lexemes_getElem? (f : Nat) :
    sources[f]?.map LexemeFile.lexemes = files[f]?.map (List.map read) := by
  rw [← List.getElem?_map, hreads, List.getElem?_map]

theorem exists_source {file : List τ} (hf : files[f]? = some file) :
    ∃ source, sources[f]? = some source ∧ source.lexemes = file.map read := by
  have hget := lexemes_getElem? hreads f
  rw [hf, Option.map_some] at hget
  exact Option.map_eq_some_iff.mp hget

theorem exists_tokens {source : LexemeFile} (hf : sources[f]? = some source) :
    ∃ file, files[f]? = some file ∧ file.map read = source.lexemes := by
  have hget := lexemes_getElem? hreads f
  rw [hf, Option.map_some] at hget
  exact Option.map_eq_some_iff.mp hget.symm

theorem startOf_eq (f : Nat) : startOf sources f = offsetOf files f := by
  have hlengths := congrArg (List.map fun lexemes => lexemes.length + 1) hreads
  simp only [List.map_map, Function.comp_def, List.length_map] at hlengths
  rw [startOf, offsetOf, List.map_take, List.map_take, hlengths]

theorem exists_lexeme {token : τ} (htoken : TokenAt files f o token) :
    ∃ source, sources[f]? = some source ∧ source.lexemes[o]? = some (read token) := by
  obtain ⟨file, hf, ho⟩ := htoken
  obtain ⟨source, hsource, heq⟩ := exists_source hreads hf
  exact ⟨source, hsource, by rw [heq, List.getElem?_map, ho, Option.map_some]⟩

theorem exists_tokenAt {source : LexemeFile} {lexeme : Lexeme} (hf : sources[f]? = some source)
    (ho : source.lexemes[o]? = some lexeme) :
    ∃ token, TokenAt files f o token ∧ read token = lexeme := by
  obtain ⟨file, hfile, heq⟩ := exists_tokens hreads hf
  rw [← heq, List.getElem?_map] at ho
  obtain ⟨token, htoken, hread⟩ := Option.map_eq_some_iff.mp ho
  exact ⟨token, ⟨file, hfile, htoken⟩, hread⟩

/-- The code of a token is the number of its key. -/
theorem code_of_tokenAt {token : τ} (htoken : TokenAt files f o token) :
    (ofFiles sources).codes[offsetOf files f + o]?
        = some (((vocabulary sources).number (read token).key : Nat) : Int)
      ∧ (read token).key ∈ sources.flatMap fun file => file.lexemes.map Lexeme.key := by
  obtain ⟨source, hf, ho⟩ := exists_lexeme hreads htoken
  rw [← startOf_eq hreads]
  exact ⟨code_of_token hf ho, mem_keys hf (List.mem_of_getElem? ho)⟩

theorem code_eq_iff_of_tokenAt {f' o' : Nat} {a b : τ} (ha : TokenAt files f o a)
    (hb : TokenAt files f' o' b) :
    (ofFiles sources).codes[offsetOf files f + o]?
        = (ofFiles sources).codes[offsetOf files f' + o']?
      ↔ (read a).key = (read b).key := by
  obtain ⟨hcode, hmem⟩ := code_of_tokenAt hreads ha
  obtain ⟨hcode', hmem'⟩ := code_of_tokenAt hreads hb
  rw [hcode, hcode', Option.some_inj, Int.natCast_inj]
  exact Vocabulary.number_inj hmem hmem'

/-- **The code of a new key** is larger than those of the tokens met before. -/
theorem code_lt_of_new {new old : τ} {f' o' : Nat} (hnew : TokenAt files f o new)
    (hfirst : ∀ {f' o' old}, TokenAt files f' o' old → MetBefore f' o' f o →
      (read old).key ≠ (read new).key)
    (hold : TokenAt files f' o' old) (hmet : MetBefore f' o' f o) :
    (vocabulary sources).number (read old).key < (vocabulary sources).number (read new).key := by
  obtain ⟨source, hf, ho⟩ := exists_lexeme hreads hnew
  obtain ⟨source', hf', ho'⟩ := exists_lexeme hreads hold
  obtain ⟨after, hkeys⟩ := keys_eq_append hf ho
  rw [vocabulary, hkeys]
  refine Vocabulary.number_lt_of_new (fun hmem => ?_)
    ((mem_keysBefore_iff hf).mpr ⟨f', o', source', _, hmet, hf', ho', rfl⟩)
  obtain ⟨f', o', source', lexeme', hmet, hf', ho', hkey⟩ := (mem_keysBefore_iff hf).mp hmem
  obtain ⟨token, htoken, rfl⟩ := exists_tokenAt hreads hf' ho'
  exact hfirst htoken hmet hkey

/-- Every number is the code of a token. -/
theorem exists_tokenAt_of_code {code : Nat} (hpos : 0 < code)
    (hle : code ≤ (vocabulary sources).size) : ∃ f o token, TokenAt files f o token
      ∧ (ofFiles sources).codes[offsetOf files f + o]? = some (code : Int) := by
  obtain ⟨key, hkey, hnumber⟩ := Vocabulary.exists_number_eq hpos hle
  obtain ⟨source, hsource, hmem⟩ := List.mem_flatMap.mp hkey
  obtain ⟨f, hf⟩ := List.mem_iff_getElem?.mp hsource
  obtain ⟨lexeme, hlexeme, rfl⟩ := List.mem_map.mp hmem
  obtain ⟨o, ho⟩ := List.mem_iff_getElem?.mp hlexeme
  obtain ⟨token, htoken, rfl⟩ := exists_tokenAt hreads hf ho
  refine ⟨f, o, token, htoken, ?_⟩
  rw [(code_of_tokenAt hreads htoken).1, vocabulary, hnumber]

/-- A window within a file holds no separator. -/
theorem inside_of_within {f o position length : Nat} {source : LexemeFile}
    (hf : sources[f]? = some source) (ho : o + length ≤ source.lexemes.length)
    (hposition : position = startOf sources f + o) : Inside files position length := by
  obtain ⟨file, hfile, hread⟩ := exists_tokens hreads hf
  rw [← hread, List.length_map] at ho
  refine ⟨⟨f, file, o, hfile, ho, hposition.trans (by rw [startOf_eq hreads])⟩, ?_⟩
  rintro f' file' hfile' ⟨hlow, hhigh⟩
  obtain ⟨source', hf', hread'⟩ := exists_source hreads hfile'
  rw [hposition, ← startOf_eq hreads] at hlow hhigh
  have hlength : source'.lexemes.length = file'.length := by rw [hread', List.length_map]
  have hlength' : source.lexemes.length = file.length := by rw [← hread, List.length_map]
  have hoffset : startOf sources f' + file'.length - startOf sources f
      ≤ source.lexemes.length := by omega
  obtain ⟨rfl, heq⟩ := position_inj hf' hlength.ge hf hoffset (by omega)
  rw [hfile, Option.some_inj] at hfile'
  subst hfile'
  omega

end Sources

/-- The positions are those of the tokens and the separators. -/
theorem startOf_length (sources : List LexemeFile) : startOf sources sources.length
    = (sources.flatMap fun file => file.lexemes.map Lexeme.key).length + sources.length := by
  rw [startOf, List.take_length, List.length_flatMap]
  induction sources with
  | nil => rfl
  | cons source sources ih =>
    simp only [List.map_cons, List.sum_cons, List.length_cons, List.length_map] at ih ⊢
    omega

theorem code_bounds {sources : List LexemeFile} {code : Int}
    (hcode : code ∈ (ofFiles sources).codes) :
    0 < code ∧ code ≤ (ofFiles sources).codes.size := by
  obtain ⟨p, hp⟩ := Array.mem_iff_getElem?.mp hcode
  have hsize := Vocabulary.size_le (sources.flatMap fun file => file.lexemes.map Lexeme.key)
  rw [← vocabulary] at hsize
  have hlt := (Array.getElem?_eq_some_iff.mp hp).1
  rw [size_codes] at hlt ⊢
  have htotal := startOf_length sources
  obtain ⟨f, source, o, hf, ho, rfl⟩ := exists_file_of_lt hlt
  have hflt := (List.getElem?_eq_some_iff.mp hf).1
  rcases Nat.eq_or_lt_of_le ho with rfl | ho
  · rw [code_of_separator hf, Option.some_inj, Int.ofNat_eq_natCast] at hp
    omega
  · have hlexeme := List.getElem?_eq_getElem ho
    have hkey := mem_keys hf (List.mem_of_getElem? hlexeme)
    have hpos := Vocabulary.number_pos hkey
    have hle := Vocabulary.number_le hkey
    rw [← vocabulary] at hpos hle
    rw [code_of_token hf hlexeme, Option.some_inj, Int.ofNat_eq_natCast] at hp
    omega

/-- **Equal windows lie within files**, even if they are empty. -/
theorem exists_file_of_extract_eq {sources : List LexemeFile} {p q length : Nat} (hne : p ≠ q)
    (hp : p < (ofFiles sources).codes.size) (hq : q < (ofFiles sources).codes.size)
    (heq : (ofFiles sources).codes.extract p (p + length)
      = (ofFiles sources).codes.extract q (q + length)) :
    ∃ f source o, sources[f]? = some source ∧ o + length ≤ source.lexemes.length
      ∧ p = startOf sources f + o := by
  have hsize := congrArg Array.size heq
  rw [Array.size_extract, Array.size_extract] at hsize
  rcases Nat.eq_zero_or_pos length with rfl | hlength
  · exact exists_file_of_lt (size_codes sources ▸ hp)
  · refine exists_window_of_shared hne hlength (le_common_iff.mpr ⟨?_, ?_, ?_⟩)
    · rw [List.length_drop, Array.length_toList]
      omega
    · rw [List.length_drop, Array.length_toList]
      omega
    · have hlist := congrArg Array.toList heq
      rwa [Array.toList_extract, Array.toList_extract, List.extract_eq_take_drop,
        List.extract_eq_take_drop, Nat.add_sub_cancel_left, Nat.add_sub_cancel_left] at hlist

end TokenStream

open TokenStream in
/-- **Files of tokens are laid out in the stream of their lexemes.** -/
theorem layout_of_reads {read : τ → Lexeme} {files : List (List τ)} {sources : List LexemeFile}
    (hreads : sources.map LexemeFile.lexemes = files.map (List.map read)) :
    Layout read files (ofFiles sources) where
  size_codes := by
    have hlength := congrArg List.length hreads
    rw [List.length_map, List.length_map] at hlength
    rw [size_codes, startOf_eq hreads, hlength]
  size_places := by rw [size_places, size_codes]
  size_texts := by rw [size_texts, size_codes]
  token htoken := by
    obtain ⟨source, hf, ho⟩ := exists_lexeme hreads htoken
    rw [← startOf_eq hreads]
    exact ⟨place_of_token hf ho, text_of_token hf ho⟩
  code htoken := by
    obtain ⟨hcode, hmem⟩ := code_of_tokenAt hreads htoken
    exact ⟨_, hcode, Vocabulary.number_pos hmem, Vocabulary.number_le hmem⟩
  code_eq_iff := code_eq_iff_of_tokenAt hreads
  exists_token := exists_tokenAt_of_code hreads
  code_of_new hnew hfirst _ _ _ hold hmet :=
    ⟨_, _, (code_of_tokenAt hreads hold).1, (code_of_tokenAt hreads hnew).1,
      code_lt_of_new hreads hnew hfirst hold hmet⟩
  separator hfile := by
    obtain ⟨source, hf, hread⟩ := exists_source hreads hfile
    have hlength := congrArg List.length hread
    rw [List.length_map] at hlength
    rw [← startOf_eq hreads, ← hlength]
    exact ⟨code_of_separator hf, place_of_separator hf, text_of_separator hf⟩
  code_le _ hcode := code_bounds hcode
  inside hne hp hq heq := by
    obtain ⟨f, source, o, hf, ho, hposition⟩ := exists_file_of_extract_eq hne hp hq heq
    obtain ⟨f', source', o', hf', ho', hposition'⟩ :=
      exists_file_of_extract_eq hne.symm hq hp heq.symm
    exact ⟨inside_of_within hreads hf ho hposition, inside_of_within hreads hf' ho' hposition'⟩

/-- **Raw and normalized files are laid out in their streams** — raw tokens are compared by and
shown as their texts; normalized ones are compared by what replaced them and shown as they were
written. -/
theorem files_laid_out :
    (∀ files : List SourceFile, Layout
        (fun token : Token => ⟨token.text, token.text, token.line, token.column⟩)
        (files.map fun file => file.tokens.toList)
        (TokenStream.ofFiles (files.map SourceFile.lexemes)))
      ∧ ∀ files : List NormalizedFile, Layout
        (fun token : NormalizedToken =>
          ⟨token.normalized, token.written, token.line, token.column⟩)
        (files.map fun file => file.tokens.toList)
        (TokenStream.ofFiles (files.map NormalizedFile.lexemes)) := by
  refine ⟨fun files => layout_of_reads ?_, fun files => layout_of_reads ?_⟩
  · rw [List.map_map, List.map_map]
    rfl
  · rw [List.map_map, List.map_map]
    rfl

end CodeClones
