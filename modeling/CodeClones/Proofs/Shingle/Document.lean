import CodeClones.Proofs.Parallel.Workload
import CodeClones.Shingle.Document

/-!
# Proofs/Shingle/Document — the blocks of all files, one after the other

Blocks are numbered file by file from first numbers that are counted beforehand.  `Block.places`
lists where the blocks lie, and `value_allBlocks` says that the block at the i-th place has the i-th
number, whether the files are shared among workers or not.
-/

namespace CodeClones

open Log Parallel

namespace Block

/-! ## Where blocks lie -/

/-- Where a block lies: in which file, and at which token it starts. -/
structure Place where
  file : SourceFile
  start : Nat
deriving DecidableEq

/-- The tokens of a block of a size. -/
def Place.tokens (size : Nat) (place : Place) : Array Token :=
  place.file.window place.start (place.start + size)

/-- The places in a file, from left to right. -/
def placesOf (size : Nat) (file : SourceFile) : List Place :=
  (List.range (count file.tokens.size size)).map fun block => ⟨file, block * stride size⟩

/-- **The places of all blocks**, file after file. -/
def places (size : Nat) (files : List SourceFile) : List Place :=
  files.flatMap (placesOf size)

variable {size : Nat} {files : List SourceFile} {place : Place}

@[simp] theorem length_placesOf (size : Nat) (file : SourceFile) :
    (placesOf size file).length = count file.tokens.size size := by
  rw [placesOf, List.length_map, List.length_range]

@[simp] theorem places_nil (size : Nat) : places size [] = [] := rfl

@[simp] theorem places_cons (size : Nat) (file : SourceFile) (files : List SourceFile) :
    places size (file :: files) = placesOf size file ++ places size files :=
  List.flatMap_cons

theorem exists_of_mem_places (h : place ∈ places size files) :
    ∃ block < count place.file.tokens.size size, place.start = block * stride size := by
  obtain ⟨file, -, hplace⟩ := List.mem_flatMap.mp h
  obtain ⟨block, hblock, rfl⟩ := List.mem_map.mp hplace
  exact ⟨block, List.mem_range.mp hblock, rfl⟩

/-- Only files with room for a block have blocks. -/
theorem count_pos_iff {tokens : Nat} : 0 < count tokens size ↔ 0 < size ∧ size ≤ tokens := by
  rw [count]
  split
  · omega
  · next hroom => exact iff_of_true (Nat.succ_pos _) (by omega)

/-- **A block is there exactly if it fits.** -/
theorem lt_count_iff {tokens block : Nat} (hsize : 0 < size) :
    block < count tokens size ↔ block * stride size + size ≤ tokens := by
  rw [count]
  split
  · omega
  · rw [Nat.lt_succ_iff, Nat.le_div_iff_mul_le (stride_pos size)]
    omega

/-- **No block reads past the end of its file.** -/
theorem start_add_le (h : place ∈ places size files) :
    place.start + size ≤ place.file.tokens.size := by
  obtain ⟨block, hblock, hstart⟩ := exists_of_mem_places h
  obtain ⟨hsize, -⟩ := count_pos_iff.mp (Nat.zero_lt_of_lt hblock)
  rw [hstart]
  exact (lt_count_iff hsize).mp hblock

theorem size_pos_of_mem_places (h : place ∈ places size files) : 0 < size := by
  obtain ⟨block, hblock, -⟩ := exists_of_mem_places h
  exact (count_pos_iff.mp (Nat.zero_lt_of_lt hblock)).1

/-- There are no blocks of no tokens. -/
@[simp] theorem places_zero (files : List SourceFile) : places 0 files = [] :=
  List.eq_nil_iff_forall_not_mem.mpr fun _ h => Nat.lt_irrefl 0 (size_pos_of_mem_places h)

/-- **A block has as many tokens as were asked for.** -/
theorem size_tokens (h : place ∈ places size files) : (place.tokens size).size = size := by
  have hle := start_add_le h
  rw [Place.tokens, SourceFile.window, Array.size_extract]
  omega

end Block

namespace Shingler

open Block

variable (shingler : Shingler) (size : Nat)

/-! ## Blocks and their numbers -/

/-- The block at a place. -/
def blockAt (place : Place) (id : DocumentId) : Document :=
  shingler.documentOf place.file.name (place.tokens size) id

@[simp] theorem blockAt_id (place : Place) (id : DocumentId) :
    (shingler.blockAt size place id).id = id := rfl

/-- Places numbered from `first` on. -/
def numbered (first : DocumentId) (places : List Place) : List Document :=
  places.mapIdx fun index place => shingler.blockAt size place (first + UInt32.ofNat index)

theorem getElem?_numbered (first : DocumentId) (places : List Place) (index : Nat) :
    (shingler.numbered size first places)[index]?
      = places[index]?.map fun place =>
          shingler.blockAt size place (first + UInt32.ofNat index) :=
  List.getElem?_mapIdx

/-- **Numbers go on** where those of earlier places end. -/
theorem numbered_append (first : DocumentId) (before after : List Place) :
    shingler.numbered size first (before ++ after)
      = shingler.numbered size first before
        ++ shingler.numbered size (first + UInt32.ofNat before.length) after := by
  rw [numbered, List.mapIdx_append]
  refine congrArg (fun f => _ ++ after.mapIdx f) (funext₂ fun index place => ?_)
  rw [UInt32.ofNat_add, UInt32.add_comm (UInt32.ofNat index), ← UInt32.add_assoc]

theorem blocks_eq_numbered (file : SourceFile) (first : DocumentId) :
    shingler.blocks file size first = shingler.numbered size first (placesOf size file) := by
  refine List.ext_getElem? fun index => ?_
  rw [blocks, getElem?_numbered, placesOf, List.getElem?_map, List.getElem?_map, Option.map_map]
  rcases Nat.lt_or_ge index (count file.tokens.size size) with hlt | hge
  · rw [List.getElem?_range hlt]
    rfl
  · rw [List.getElem?_eq_none (by rwa [List.length_range])]
    rfl

/-- The blocks of the files, each numbered from the first number of its file. -/
theorem flatten_blocks (first : DocumentId) (files : List SourceFile) :
    ((files.zip (firstIds size first files)).map fun entry =>
        shingler.blocks entry.1 size entry.2).flatten
      = shingler.numbered size first (places size files) := by
  induction files generalizing first with
  | nil => rfl
  | cons file files ih =>
    rw [firstIds, List.zip_cons_cons, List.map_cons, List.flatten_cons, ih, places_cons,
      numbered_append, blocks_eq_numbered, length_placesOf]

theorem length_firstIds (first : DocumentId) (files : List SourceFile) :
    (firstIds size first files).length = files.length := by
  induction files generalizing first with
  | nil => rfl
  | cons file files ih => rw [firstIds, List.length_cons, ih, List.length_cons]

theorem length_zip_firstIds (first : DocumentId) (files : List SourceFile) :
    (files.zip (firstIds size first files)).length = files.length := by
  rw [List.length_zip, length_firstIds, Nat.min_self]

/-- **The block at the i-th place has the i-th number**, under every gate and schedule. -/
theorem value_allBlocks (gate : Gate) (schedule : Schedule) (first : DocumentId)
    (files : List SourceFile) :
    (shingler.allBlocks gate schedule size first files).value
      = shingler.numbered size first (places size files) := by
  unfold allBlocks
  extract_lets entries ofFile
  have hmap : (List.range files.length).map ofFile
      = (files.zip (firstIds size first files)).map fun entry =>
        shingler.blocks entry.1 size entry.2 := by
    rw [← length_zip_firstIds size first files]
    refine Workload.map_range_eq _ _ fun index entry hentry => ?_
    simp only [ofFile, entries, List.getElem?_toArray, hentry]
  rw [← flatten_blocks, ← hmap]
  split
  · rw [Logged.value_bind, Logged.value_pure, Workload.fill_eq]
  · rfl

end Shingler

end CodeClones
