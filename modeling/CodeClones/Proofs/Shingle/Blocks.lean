import CodeClones.Proofs.Index.Numbered
import CodeClones.Proofs.Order.Table
import CodeClones.Proofs.Shingle.Document

/-!
# Proofs/Shingle/Blocks — every token up to the last block lies in a block

The blocks of a file start at the multiples of the stride that leave room for a whole block
(`lt_count_iff`).  `Block.located` lists them with the numbers of their files: it has each of them
once and in order (`mem_located_iff`, `pairwise_located`), and the documents are the blocks at its
places.  A token before the tail lies in the block that starts at the last multiple of the stride up
to it, or in the last one (`exists_start`); and the blocks that hold it start fewer than `size`
tokens before it, so that not many of them are a stride apart (`countP_covers_le`).
-/

namespace CodeClones

open Parallel

namespace Block

variable {size tokens : Nat} {files : List SourceFile}

/-! ## Which blocks there are -/

/-- Blocks touch or overlap: a stride is no longer than a block. -/
theorem stride_le (hsize : 0 < size) : stride size ≤ size :=
  Nat.max_le.mpr ⟨hsize, Nat.div_le_self size 2⟩

/-- The places of all blocks with the numbers of their files, file after file. -/
def located (size : Nat) (files : List SourceFile) : List (Nat × Place) :=
  files.zipIdx.flatMap fun entry => (placesOf size entry.1).map fun place => (entry.2, place)

theorem map_snd_located (size : Nat) (files : List SourceFile) :
    (located size files).map Prod.snd = places size files := by
  rw [located, List.map_flatMap, places]
  conv_rhs => rw [← List.zipIdx_map_fst 0 files, List.flatMap_map]
  simp

theorem mem_placesOf_iff (hsize : 0 < size) {file : SourceFile} {place : Place} :
    place ∈ placesOf size file ↔ place.file = file ∧ stride size ∣ place.start
      ∧ place.start + size ≤ file.tokens.size := by
  obtain ⟨source, start⟩ := place
  simp only [placesOf, List.mem_map, List.mem_range, lt_count_iff hsize, Place.mk.injEq]
  constructor
  · rintro ⟨block, hfits, rfl, rfl⟩
    exact ⟨rfl, Nat.dvd_mul_left _ _, hfits⟩
  · rintro ⟨rfl, ⟨block, rfl⟩, hfits⟩
    exact ⟨block, by rwa [Nat.mul_comm], rfl, Nat.mul_comm _ _⟩

/-- **The blocks that are listed** start at the multiples of the stride that leave room for a
block. -/
theorem mem_located_iff (hsize : 0 < size) {f : Nat} {place : Place} :
    (f, place) ∈ located size files ↔ files[f]? = some place.file ∧ stride size ∣ place.start
      ∧ place.start + size ≤ place.file.tokens.size := by
  simp only [located, List.mem_flatMap, List.mem_map, Prod.exists, Prod.mk.injEq,
    List.mem_zipIdx_iff_getElem?, mem_placesOf_iff hsize]
  constructor
  · rintro ⟨file, f, hfile, place, ⟨rfl, hfits⟩, rfl, rfl⟩
    exact ⟨hfile, hfits⟩
  · rintro ⟨hfile, hfits⟩
    exact ⟨place.file, f, hfile, place, ⟨rfl, hfits⟩, rfl, rfl⟩

/-- **Blocks are listed in the order of the files, and in each by their starts.** -/
theorem pairwise_located (size : Nat) (files : List SourceFile) :
    (located size files).Pairwise fun a b => toLex (a.1, a.2.start) < toLex (b.1, b.2.start) := by
  simp only [Prod.Lex.toLex_lt_toLex]
  refine List.pairwise_flatMap.mpr ⟨fun entry _ => ?_, ?_⟩
  · rw [placesOf, List.map_map, List.pairwise_map]
    exact List.pairwise_lt_range.imp fun hlt =>
      .inr ⟨rfl, Nat.mul_lt_mul_of_pos_right hlt (stride_pos size)⟩
  · refine (Order.pairwise_snd_zipIdx files).imp fun hlt x hx y hy => .inl ?_
    obtain ⟨-, -, rfl⟩ := List.mem_map.mp hx
    obtain ⟨-, -, rfl⟩ := List.mem_map.mp hy
    exact hlt

/-! ## Which blocks hold a token -/

/-- Does a located block hold a token of a file? -/
def covers (size f token : Nat) (entry : Nat × Place) : Bool :=
  decide (entry.1 = f ∧ entry.2.start ≤ token ∧ token < entry.2.start + size)

/-- **A token before the tail has a start** of a whole block no more than a block before it. -/
theorem exists_start (hsize : 0 < size) {token : Nat} (hroom : size ≤ tokens)
    (htoken : token < tokens - (tokens - size) % stride size) :
    ∃ start, stride size ∣ start ∧ start + size ≤ tokens ∧ start ≤ token
      ∧ token < start + size := by
  have hdivision := Nat.div_add_mod (tokens - size) (stride size)
  have hstride := stride_le hsize
  have hrest := Nat.mod_lt token (stride_pos size)
  have htoken' := Nat.div_add_mod token (stride size)
  rcases Nat.lt_or_ge token (stride size * ((tokens - size) / stride size)) with hlt | hge
  · exact ⟨stride size * (token / stride size), Nat.dvd_mul_right _ _, by omega, by omega,
      by omega⟩
  · exact ⟨stride size * ((tokens - size) / stride size), Nat.dvd_mul_right _ _, by omega, hge,
      by omega⟩

/-- **A token before the tail lies in a block.** -/
theorem countP_covers_pos (hsize : 0 < size) {f token : Nat} {file : SourceFile}
    (hfile : files[f]? = some file) (hroom : size ≤ file.tokens.size)
    (htoken : token < file.tokens.size - (file.tokens.size - size) % stride size) :
    0 < (located size files).countP (covers size f token) := by
  obtain ⟨start, hdvd, hfits, hle, hlt⟩ := exists_start hsize hroom htoken
  exact List.countP_pos_iff.mpr ⟨(f, ⟨file, start⟩),
    (mem_located_iff hsize).mpr ⟨hfile, hdvd, hfits⟩, decide_eq_true ⟨rfl, hle, hlt⟩⟩

theorem nodup_located (size : Nat) (files : List SourceFile) : (located size files).Nodup :=
  (pairwise_located size files).imp fun hlt heq => by
    rw [heq] at hlt
    exact lt_irrefl _ hlt

/-- Multiples of the stride are told apart by how many strides they lie before a token. -/
theorem start_inj {start start' token : Nat} (hdvd : stride size ∣ start)
    (hdvd' : stride size ∣ start') (hle : start ≤ token) (hle' : start' ≤ token)
    (heq : (token - start) / stride size = (token - start') / stride size) : start = start' := by
  obtain ⟨k, rfl⟩ := hdvd
  obtain ⟨k', rfl⟩ := hdvd'
  rw [Nat.mul_comm, ← Nat.le_div_iff_mul_le (stride_pos size)] at hle hle'
  rw [Nat.sub_mul_div, Nat.sub_mul_div] at heq
  have hsame : k = k' := by omega
  rw [hsame]

theorem of_mem_filter_covers (hsize : 0 < size) {f g token : Nat} {place : Place}
    (h : (g, place) ∈ (located size files).filter (covers size f token)) :
    g = f ∧ files[f]? = some place.file ∧ stride size ∣ place.start ∧ place.start ≤ token
      ∧ token < place.start + size := by
  obtain ⟨hlocated, hcovers⟩ := List.mem_filter.mp h
  obtain ⟨rfl, hle, hlt⟩ := of_decide_eq_true hcovers
  obtain ⟨hfile, hdvd, -⟩ := (mem_located_iff hsize).mp hlocated
  exact ⟨rfl, hfile, hdvd, hle, hlt⟩

/-- **Not many blocks hold a token** — they start at different multiples of the stride, fewer than
`size` tokens before it. -/
theorem countP_covers_le (hsize : 0 < size) (f token : Nat) :
    (located size files).countP (covers size f token) ≤ size ⌈/⌉ stride size := by
  rw [List.countP_eq_length_filter,
    ← List.toFinset_card_of_nodup ((nodup_located size files).filter _),
    ← Finset.card_range (size ⌈/⌉ stride size)]
  refine Finset.card_le_card_of_injOn (fun entry => (token - entry.2.start) / stride size) ?_ ?_
  · rintro ⟨g, file, start⟩ hmem
    obtain ⟨-, -, -, hle, hlt⟩ := of_mem_filter_covers hsize (List.mem_toFinset.mp hmem)
    dsimp only at hle hlt
    have hbound : size ≤ stride size * (size ⌈/⌉ stride size) := le_smul_ceilDiv (stride_pos size)
    refine Finset.mem_coe.mpr (Finset.mem_range.mpr (Nat.div_lt_of_lt_mul ?_))
    dsimp only
    omega
  · rintro ⟨g, file, start⟩ hmem ⟨g', file', start'⟩ hmem' heq
    obtain ⟨rfl, hfile, hdvd, hle, -⟩ := of_mem_filter_covers hsize (List.mem_toFinset.mp hmem)
    obtain ⟨rfl, hfile', hdvd', hle', -⟩ := of_mem_filter_covers hsize (List.mem_toFinset.mp hmem')
    obtain rfl := Option.some.inj (hfile.symm.trans hfile')
    obtain rfl := start_inj hdvd hdvd' hle hle' heq
    rfl

end Block

namespace Shingler

open Block

variable {shingler : Shingler} {size : Nat}

/-! ## The documents of the blocks -/

/-- **A document is the block at a start of a file** — the block ends within the file, and the
document has its lines and the hashes of its tokens. -/
structure IsBlock (shingler : Shingler) (size : Nat) (source : SourceFile) (start : Nat)
    (document : Document) : Prop where
  within : start + size ≤ source.tokens.size
  file : document.file = source.name
  tokenCount : document.tokenCount = size
  startLine : (source.tokens[start]?).map Token.line = some document.startLine
  endLine : (source.tokens[start + size - 1]?).map Token.line = some document.endLine
  hashes : document.hashes = shingler.hashesOf (source.tokens.extract start (start + size))

theorem isBlock_blockAt (hsize : 0 < size) {place : Place}
    (hwithin : place.start + size ≤ place.file.tokens.size) (id : DocumentId) :
    shingler.IsBlock size place.file place.start (shingler.blockAt size place id) := by
  have hread : ∀ k < size, (place.tokens size)[k]? = place.file.tokens[place.start + k]? :=
    fun k hk => by
      rw [Place.tokens, SourceFile.window, Array.getElem?_extract, if_pos (by omega)]
  have hcount : (place.tokens size).size = size := by
    rw [Place.tokens, SourceFile.window, Array.size_extract]
    omega
  have hfirst : (place.tokens size)[0]? = some place.file.tokens[place.start] := by
    rw [hread 0 hsize]
    exact Array.getElem?_eq_getElem (by omega)
  have hlast : (place.tokens size).back? = some place.file.tokens[place.start + size - 1] := by
    rw [Array.back?_eq_getElem?, hcount, hread (size - 1) (by omega), ← Nat.add_sub_assoc hsize]
    exact Array.getElem?_eq_getElem (by omega)
  refine ⟨hwithin, rfl, hcount, ?_, ?_, rfl⟩
  · rw [blockAt, documentOf, hfirst, Array.getElem?_eq_getElem (by omega)]
    rfl
  · rw [blockAt, documentOf, hlast, Array.getElem?_eq_getElem (by omega)]
    rfl

theorem map_id_numbered (shingler : Shingler) (size : Nat) (first : DocumentId)
    (places : List Place) :
    (shingler.numbered size first places).map Document.id = wordsFrom first places.length := by
  refine List.ext_getElem? fun i => ?_
  rw [List.getElem?_map, getElem?_numbered, wordsFrom, List.getElem?_map, Option.map_map]
  rcases Nat.lt_or_ge i places.length with hlt | hge
  · rw [List.getElem?_range hlt, List.getElem?_eq_getElem hlt]
    rfl
  · rw [List.getElem?_eq_none hge, List.getElem?_eq_none (by rwa [List.length_range])]
    rfl

/-- **Blocks are dense, within bounds and covering** — for every gate and schedule, the blocks of
`size` tokens of some files have consecutive numbers, modulo `2 ^ 32`, which are distinct if there
are no more than `2 ^ 32` blocks.  They come in the order of the files, and in each by their starts,
which are the multiples of the stride that leave room for a whole block.  A file with room for a
block has a tail that is shorter than a stride, and each of its tokens before the tail lies in at
least one and at most `⌈size / stride⌉` blocks. -/
theorem blocks_dense_and_covering (shingler : Shingler) (gate : Gate) (schedule : Schedule)
    {size : Nat} (hsize : 0 < size) (first : DocumentId) (files : List SourceFile) :
    let documents := (shingler.allBlocks gate schedule size first files).value
    ∃ origins : List (Nat × Nat), origins.length = documents.length
      ∧ (∀ i document, documents[i]? = some document →
        document.id.toNat = (first.toNat + i) % 2 ^ 32
        ∧ ∃ f start file, origins[i]? = some (f, start) ∧ files[f]? = some file
          ∧ shingler.IsBlock size file start document)
      ∧ (documents.length ≤ 2 ^ 32 → (documents.map Document.id).Nodup)
      ∧ origins.Pairwise (fun a b => toLex a < toLex b)
      ∧ (∀ f start, (f, start) ∈ origins ↔ ∃ file, files[f]? = some file
        ∧ stride size ∣ start ∧ start + size ≤ file.tokens.size)
      ∧ ∀ f file, files[f]? = some file → size ≤ file.tokens.size →
        (file.tokens.size - size) % stride size < stride size
        ∧ ∀ token < file.tokens.size - (file.tokens.size - size) % stride size,
          let holding := origins.countP fun (g, start) =>
            decide (g = f ∧ start ≤ token ∧ token < start + size)
          1 ≤ holding ∧ holding ≤ size ⌈/⌉ stride size := by
  intro documents
  have hdocuments : documents
      = shingler.numbered size first ((located size files).map Prod.snd) := by
    rw [map_snd_located]
    exact value_allBlocks shingler size gate schedule first files
  have hlength : documents.length = (located size files).length := by
    rw [hdocuments, numbered, List.length_mapIdx, List.length_map]
  refine ⟨(located size files).map fun entry => (entry.1, entry.2.start), ?_, ?_, fun hfew => ?_,
    ?_, fun f start => ?_, fun f file hfile hroom => ⟨Nat.mod_lt _ (stride_pos size), ?_⟩⟩
  · rw [List.length_map, hlength]
  · intro i document hdocument
    rw [hdocuments, getElem?_numbered, List.getElem?_map, Option.map_map] at hdocument
    obtain ⟨⟨f, place⟩, hplace, rfl⟩ := Option.map_eq_some_iff.mp hdocument
    obtain ⟨hfile, -, hwithin⟩ := (mem_located_iff hsize).mp (List.mem_of_getElem? hplace)
    refine ⟨?_, f, place.start, place.file, ?_, hfile, isBlock_blockAt hsize hwithin _⟩
    · change (first + UInt32.ofNat i).toNat = _
      rw [UInt32.toNat_add, UInt32.toNat_ofNat', Nat.add_mod_mod]
    · rw [List.getElem?_map, hplace, Option.map_some]
  · rw [hdocuments, map_id_numbered, List.length_map, ← hlength]
    exact nodup_wordsFrom hfew
  · exact List.pairwise_map.mpr (pairwise_located size files)
  · rw [List.mem_map]
    constructor
    · rintro ⟨⟨g, place⟩, hentry, heq⟩
      obtain ⟨rfl, rfl⟩ := Prod.mk.inj heq
      exact ⟨place.file, (mem_located_iff hsize).mp hentry⟩
    · rintro ⟨file, hfits⟩
      exact ⟨(f, ⟨file, start⟩), (mem_located_iff hsize).mpr hfits, rfl⟩
  · intro token htoken
    rw [List.countP_map]
    exact ⟨countP_covers_pos hsize hfile hroom htoken, countP_covers_le hsize f token⟩

/-- Blocks of four tokens, two apart, in a file of seven: all tokens but the last are covered.  The
numbers pass the largest word. -/
theorem blocks_cover_six_of_seven :
    let file : SourceFile :=
      { name := "a", tokens := Array.replicate 7 ⟨.identifier, "x", 1, 0⟩ }
    let documents := ((ofSize 2 true).allBlocks Gate.closed (Schedule.dealt 1) 4 4294967295
      [file]).value
    0 < 4 ∧ (documents.map Document.id).Nodup ∧ ∃ origins : List (Nat × Nat),
      origins.length = documents.length ∧ ∀ token < 6,
        let holding := origins.countP fun (g, start) =>
          decide (g = 0 ∧ start ≤ token ∧ token < start + 4)
        1 ≤ holding ∧ holding ≤ 2 := by
  intro file documents
  have hlength : documents.length = 2 := by
    dsimp only [documents]
    rw [value_allBlocks, numbered, List.length_mapIdx]
    simp [Block.count, stride, Order.atLeastOne, file]
  obtain ⟨origins, horigins, -, hdistinct, -, -, hcovered⟩ := blocks_dense_and_covering
    (ofSize 2 true) Gate.closed (Schedule.dealt 1) (show 0 < 4 by decide) 4294967295 [file]
  have htail : file.tokens.size - (file.tokens.size - 4) % stride 4 = 6 := by decide
  obtain ⟨-, hheld⟩ := hcovered 0 file rfl (by decide)
  rw [htail] at hheld
  exact ⟨by decide, hdistinct (hlength.trans_le (by decide)), origins, horigins, hheld⟩

end Shingler

end CodeClones
