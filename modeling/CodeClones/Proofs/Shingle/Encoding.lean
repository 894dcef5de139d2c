import CodeClones.Proofs.Shingle.Window
import CodeClones.Proofs.Text.Bytes
import CodeClones.Proofs.Text.Joined

/-!
# Proofs/Shingle/Encoding — a window is hashed by its closed tokens

The hash of a window is that of one byte string, in which every token is closed by a byte
(`hashOfBytes_eq`).  No UTF-8 text has this byte, so the byte string says which tokens there are and
how many (`encode_inj`): windows that differ can share a hash only if different byte strings do.
-/

namespace CodeClones.Shingle

open Hash

/-- **The bytes of a window** — those of its tokens, each closed. -/
def encode (tokens : List (List UInt8)) : List UInt8 :=
  tokens.flatMap (· ++ [closing])

/-- One token more: its bytes, then the closing byte as a word. -/
def absorbToken (hash : UInt64) (token : List UInt8) : UInt64 :=
  absorb (absorbBytes hash token) closing.toUInt64

/-- **The hash of `count` tokens from `start` on**, place by place. -/
def hashAt (tokens : List (List UInt8)) (start count : Nat) : UInt64 :=
  (List.range' start count).foldl (fun hash place => absorbToken hash (tokens.getD place [])) basis

/-- Absorbing the closing byte as a word is absorbing it as a byte. -/
theorem absorbToken_eq (hash : UInt64) (token : List UInt8) :
    absorbToken hash token = absorbBytes hash (token ++ [closing]) := by
  rw [absorbBytes_append]
  rfl

theorem foldl_absorbToken (tokens : List (List UInt8)) (hash : UInt64) :
    tokens.foldl absorbToken hash = absorbBytes hash (encode tokens) := by
  induction tokens generalizing hash with
  | nil => rfl
  | cons token tokens ih =>
    rw [List.foldl_cons, ih, absorbToken_eq, ← absorbBytes_append]
    rfl

/-- **Token by token is byte by byte.** -/
theorem hashOfBytes_eq (tokens : List (List UInt8)) :
    hashOfBytes tokens = absorbBytes basis (encode tokens) :=
  foldl_absorbToken tokens basis

/-- The tokens at consecutive places. -/
theorem map_getD_range' {tokens : List (List UInt8)} {start count : Nat}
    (h : start + count ≤ tokens.length) :
    (List.range' start count).map (tokens.getD · []) = (tokens.drop start).take count := by
  refine List.ext_getElem (by simp; omega) fun place hplace _ => ?_
  rw [List.length_map, List.length_range'] at hplace
  rw [List.getElem_map, List.getElem_range', Nat.one_mul, List.getElem_take, List.getElem_drop,
    List.getD_eq_getElem _ _ (by omega)]

/-- **Only the tokens of the window count.** -/
theorem hashAt_eq {tokens : List (List UInt8)} {start count : Nat}
    (h : start + count ≤ tokens.length) :
    hashAt tokens start count = hashOfBytes ((tokens.drop start).take count) := by
  rw [hashAt, ← List.foldl_map, map_getD_range' h]
  rfl

/-- **Closed tokens are told apart** if none has the closing byte. -/
theorem encode_inj {window other : List (List UInt8)} (hwindow : ∀ token ∈ window, closing ∉ token)
    (hother : ∀ token ∈ other, closing ∉ token) (h : encode window = encode other) :
    window = other :=
  flatMap_concat_inj hwindow hother h

/-- **No text has the closing byte.** -/
theorem closing_notMem_bytes (text : String) : closing ∉ Text.bytes text :=
  fun h => absurd (Text.toNat_lt_of_mem_bytes h) (by decide)

theorem encode_bytes_inj {texts others : List String}
    (h : encode (texts.map Text.bytes) = encode (others.map Text.bytes)) : texts = others :=
  Text.bytes_injective.list_map (encode_inj
    (List.forall_mem_map.mpr fun text _ => closing_notMem_bytes text)
    (List.forall_mem_map.mpr fun text _ => closing_notMem_bytes text) h)

/-- **A window is hashed as one byte string, which says what the window is.**  From any place where
the window fits, the hash of its tokens is that of their bytes, each token closed by `0xFF`, and no
other token enters; so equal windows have one hash, wherever they start.  Windows of any lengths
whose tokens lack the closing byte have the same bytes only if they are the same, so different
windows share a hash only where two different byte strings do.  All texts lack the closing byte, and
the hash of a shingle is that of the window at its position. -/
theorem hash_of_closed_tokens :
    (∀ (tokens : List (List UInt8)) (start count : Nat), start + count ≤ tokens.length →
      hashAt tokens start count = hashOfBytes ((tokens.drop start).take count)
        ∧ hashAt tokens start count
          = absorbBytes basis (((tokens.drop start).take count).flatMap (· ++ [0xFF]))
        ∧ ∀ (others : List (List UInt8)) (first : Nat), first + count ≤ others.length →
          (others.drop first).take count = (tokens.drop start).take count →
          hashAt others first count = hashAt tokens start count)
      ∧ (∀ window other : List (List UInt8), (∀ token ∈ window, 0xFF ∉ token) →
        (∀ token ∈ other, 0xFF ∉ token) →
        (encode window = encode other → window = other)
        ∧ (hashOfBytes window = hashOfBytes other → window ≠ other → encode window ≠ encode other
          ∧ absorbBytes basis (encode window) = absorbBytes basis (encode other)))
      ∧ (∀ texts others : List String, (∀ text ∈ texts, 0xFF ∉ Text.bytes text)
        ∧ hashOf texts = absorbBytes basis (encode (texts.map Text.bytes))
        ∧ (encode (texts.map Text.bytes) = encode (others.map Text.bytes) → texts = others))
      ∧ ∀ (shingler : Shingler) (tokens : List String) (kinds : List TokenKind),
        ∀ shingle ∈ shingler.shingles tokens kinds, shingle.hash
          = hashAt ((shingler.prepare tokens kinds).map Text.bytes) shingle.position
            shingler.size := by
  refine ⟨fun tokens start count hcount => ⟨hashAt_eq hcount, ?_,
      fun others first hfirst heq => ?_⟩,
    fun window other hwindow hother => ⟨encode_inj hwindow hother, fun hhash hne => ⟨?_, ?_⟩⟩,
    fun texts others => ⟨fun text _ => closing_notMem_bytes text, hashOfBytes_eq _,
      encode_bytes_inj⟩, fun shingler tokens kinds shingle hshingle => ?_⟩
  · rw [hashAt_eq hcount, hashOfBytes_eq]
    rfl
  · rw [hashAt_eq hcount, hashAt_eq hfirst, heq]
  · exact fun h => hne (encode_inj hwindow hother h)
  · rwa [← hashOfBytes_eq, ← hashOfBytes_eq]
  · rw [Shingler.shingles_eq] at hshingle
    obtain ⟨start, hstart, rfl⟩ := List.mem_map.mp hshingle
    have hroom := List.mem_range.mp hstart
    change hashOf _ = hashAt _ start shingler.size
    rw [hashAt_eq (by rw [List.length_map]; omega), ← List.map_drop, ← List.map_take]
    rfl

/-- Two windows whose tokens run together to the same text, one window at two places, and two tokens
of which each alone is a window with the same hash. -/
theorem hash_of_closed_tokens_ab_c :
    let ab : List UInt8 := [0x61, 0x62]
    let a : List UInt8 := [0x61]
    let bc : List UInt8 := [0x62, 0x63]
    let c : List UInt8 := [0x63]
    let x : List UInt8 := [0x78]
    let one : List UInt8 := [0x38, 0x79, 0x6E, 0x30, 0x69, 0x59, 0x43, 0x4B, 0x59, 0x48,
      0x6C, 0x49, 0x6A, 0x34, 0x2D, 0x42, 0x77, 0x50, 0x71, 0x6B]
    let two : List UInt8 := [0x47, 0x52, 0x65, 0x4C, 0x55, 0x72, 0x4D, 0x34, 0x77, 0x4D,
      0x71, 0x66, 0x67, 0x39, 0x79, 0x7A, 0x56, 0x33, 0x4B, 0x51]
    hashAt [x, ab, c] 1 2 = hashAt [ab, c] 0 2
      ∧ hashAt [ab, c] 0 2 = absorbBytes basis [0x61, 0x62, 0xFF, 0x63, 0xFF]
      ∧ encode [ab, c] ≠ encode [a, bc]
      ∧ hashOfBytes [one] = hashOfBytes [two] ∧ encode [one] ≠ encode [two]
      ∧ absorbBytes basis (encode [one]) = absorbBytes basis (encode [two]) := by
  intro ab a bc c x one two
  obtain ⟨hplaces, hwindows, -, -⟩ := hash_of_closed_tokens
  obtain ⟨-, hbytes, hsame⟩ := hplaces [ab, c] 0 2 (by decide)
  have hnone : ∀ window ∈ [[ab, c], [a, bc], [one], [two]], ∀ token ∈ window, 0xFF ∉ token := by
    decide
  have hapart := (hwindows [ab, c] [a, bc] (hnone _ (by decide)) (hnone _ (by decide))).1
  have hhash : hashOfBytes [one] = hashOfBytes [two] := by decide +kernel
  have hshared := (hwindows [one] [two] (hnone _ (by decide)) (hnone _ (by decide))).2 hhash
    (by decide)
  exact ⟨hsame [x, ab, c] 1 (by decide) (by decide), hbytes,
    fun h => absurd (hapart h) (by decide), hhash, hshared⟩

end CodeClones.Shingle
