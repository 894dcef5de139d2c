import CodeClones.Proofs.Repeat.Selection
import CodeClones.Proofs.Repeat.Word
import CodeClones.Script.Session

/-!
# Proofs/Script/Narrowed — token numbers are read modulo `2 ^ 32`

A list of numbers is taken for a token sequence as it comes, and each of its numbers is narrowed to
32 bits (`readCodes_numbers`).  What is found is right for the narrowed numbers: the windows of a
repeat carry numbers that differ by multiples of `2 ^ 32` (`agreeFor_narrowed_iff`).  They carry
equal numbers exactly as long as the list has no two numbers that are narrowed to the same one
(`forall_genuine_iff`), and the suffixes come in the order of the numbers if narrowing keeps it.
-/

namespace CodeClones.Script

open Repeat RepeatTable

/-! ## Narrowing -/

/-- **An integer in 32 bits with sign.** -/
def narrow (n : Int) : Int :=
  Int.bmod n Exact.wordCount

variable {a b : Int}

theorem narrow_eq_iff : narrow a = narrow b ↔ (2 ^ 32 : Int) ∣ a - b := by
  rw [narrow, narrow, Int.bmod_eq_bmod_iff_bmod_sub_eq_zero]
  exact Int.dvd_iff_bmod_eq_zero.symm

/-- An integer that fits is left as it is. -/
theorem narrow_of_fits (hlow : -2 ^ 31 ≤ a) (hhigh : a < 2 ^ 31) : narrow a = a :=
  Int.bmod_eq_of_le_mul_two (by rw [Exact.wordCount]; omega) (by rw [Exact.wordCount]; omega)

theorem strictMonoOn_narrow {ns : List Int} (hfits : ∀ n ∈ ns, -2 ^ 31 ≤ n ∧ n < 2 ^ 31) :
    StrictMonoOn narrow {n | n ∈ ns} := fun a ha b hb hlt => by
  rwa [narrow_of_fits (hfits a ha).1 (hfits a ha).2, narrow_of_fits (hfits b hb).1 (hfits b hb).2]

/-! ## Reading -/

theorem signed32_of_integer? {x : Float} (h : Exact.integer? x = some a) :
    Exact.signed32 x = narrow a := by
  obtain ⟨-, heq⟩ := Option.ite_none_right_eq_some.mp h
  rw [Exact.signed32, Option.some.inj heq, narrow]

theorem map_signed32 {xs : List Float} {ns : List Int}
    (hread : xs.map Exact.integer? = ns.map some) : xs.map Exact.signed32 = ns.map narrow := by
  induction xs generalizing ns with
  | nil => rw [List.map_eq_nil_iff.mp hread.symm]; rfl
  | cons x xs ih =>
    obtain ⟨n, ns, rfl, hx, hxs⟩ := List.map_eq_cons_iff.mp hread.symm
    rw [List.map_cons, List.map_cons, signed32_of_integer? hx.symm, ih hxs.symm]

/-- **Numbers are never refused**, and each is narrowed. -/
theorem readCodes_numbers {xs : List Float} {ns : List Int}
    (hread : xs.map Exact.integer? = ns.map some) :
    readCodes (.list (xs.map .number)) = .ok (ns.map narrow).toArray := by
  have hcodes : (xs.map Value.number).mapM readCode = .ok ((ns.map narrow).map Sum.inl) := by
    rw [← map_signed32 hread, List.mapM_map, List.map_map]
    exact List.mapM_pure
  have hnumbers : numbersOf ((ns.map narrow).map Sum.inl) = ns.map narrow := by
    rw [numbersOf, List.filterMap_map]
    exact List.filterMap_some
  have htexts : textsOf ((ns.map narrow).map Sum.inl) = [] := by
    rw [textsOf, List.filterMap_map]
    exact List.filterMap_none _
  rw [readCodes, hcodes]
  change (if (textsOf _).isEmpty then _ else _) = _
  rw [htexts, hnumbers]
  rfl

/-- The repeats that a call lists: all of them, or a selection. -/
def listed (codes : Array Int) (least : Int) (all : Bool) : List Repeat :=
  let table := ofSuffixes (SuffixArray.ofText codes)
  if all then table.maximal least else table.selected least

section Answers

variable {arguments : Arguments} {xs : List Float} {ns : List Int}
  (hnumbers : arguments.get 0 = .list (xs.map .number))
  (hread : xs.map Exact.integer? = ns.map some)

include hnumbers hread

theorem buildSuffixArray_of_numbers : buildSuffixArray arguments
    = .ok (naturals (Suffix.suffixArray (ns.map narrow).toArray)) := by
  -- an argument that is there is counted
  have hcount : ¬ arguments.count < 1 := fun hnone => by
    rw [Arguments.get, List.getElem?_eq_none (Nat.le_of_lt_succ hnone)] at hnumbers
    exact nomatch hnumbers
  rw [buildSuffixArray, codesArgument, if_neg hcount, hnumbers, readCodes_numbers hread]
  rfl

theorem findRepeats_of_numbers {least : Float} (hleast : arguments.get 1 = .number least) :
    findRepeats arguments = .ok (.list ((listed (ns.map narrow).toArray (Exact.signed32 least)
      (readFlag false (arguments.get 2))).map repeatValue)) := by
  rw [findRepeats, hleast, hnumbers]
  dsimp only
  rw [readCodes_numbers hread]
  rfl

end Answers

/-! ## What is found -/

variable {ns : List Int} {i j length : Nat}

/-- **A repeat is genuine** if its windows carry equal numbers. -/
def Genuine (ns : List Int) (found : Repeat) : Prop :=
  ∀ i ∈ found.positions, ∀ j ∈ found.positions, AgreeFor ns.toArray i j found.length

/-- **Windows that agree after narrowing** carry numbers that differ by multiples of `2 ^ 32`. -/
theorem agreeFor_narrowed_iff : AgreeFor (ns.map narrow).toArray i j length
    ↔ ∀ p < length, ∃ a b, ns[i + p]? = some a ∧ ns[j + p]? = some b ∧ (2 ^ 32 : Int) ∣ a - b := by
  refine forall₂_congr fun p _ => ?_
  simp only [List.getElem?_toArray, List.getElem?_map, Option.map_eq_some_iff, ← narrow_eq_iff]
  constructor
  · rintro ⟨_, ⟨a, ha, rfl⟩, b, hb, heq⟩
    exact ⟨a, b, ha, hb, heq.symm⟩
  · rintro ⟨a, b, ha, hb, heq⟩
    exact ⟨_, ⟨a, ha, rfl⟩, b, hb, heq.symm⟩

/-- Numbers that narrowing tells apart are equal if they agree after it. -/
theorem agreeFor_of_injOn (hinj : Set.InjOn narrow {n | n ∈ ns})
    (h : AgreeFor (ns.map narrow).toArray i j length) : AgreeFor ns.toArray i j length :=
  fun p hp => by
    obtain ⟨a, b, ha, hb, hdvd⟩ := agreeFor_narrowed_iff.mp h p hp
    obtain rfl := hinj (List.mem_of_getElem? ha) (List.mem_of_getElem? hb) (narrow_eq_iff.mpr hdvd)
    rw [List.getElem?_toArray, List.getElem?_toArray]
    exact ⟨a, ha, hb⟩

/-- **The windows of a listed repeat agree.** -/
theorem agreeFor_of_mem_listed {codes : Array Int} {least : Int} {all : Bool} {found : Repeat}
    (hfound : found ∈ listed codes least all) (hi : i ∈ found.positions)
    (hj : j ∈ found.positions) : AgreeFor codes i j found.length := by
  have hregion : found ∈ (ofSuffixes (SuffixArray.ofText codes)).regions least := by
    cases all with
    | false => exact mem_regions_of_mem_selected hfound
    | true => exact mem_maximal_iff.mp hfound
  rcases lt_or_ge 0 least with hpos | hnonpos
  · lift least to Nat using hpos.le
    exact agreeFor_iff.mpr ((isRegion_of_mem (Int.natCast_pos.mp hpos) hregion).shared i hi j hj)
  · rw [regions, if_pos hnonpos] at hregion
    exact absurd hregion List.not_mem_nil

/-- **All repeats are genuine** exactly if narrowing tells the numbers apart. -/
theorem forall_genuine_iff :
    (∀ least all, ∀ found ∈ listed (ns.map narrow).toArray least all, Genuine ns found)
      ↔ Set.InjOn narrow {n | n ∈ ns} := by
  constructor
  · intro hgenuine a ha b hb heq
    by_contra hne
    obtain ⟨i, hi⟩ := List.mem_iff_getElem?.mp ha
    obtain ⟨j, hj⟩ := List.mem_iff_getElem?.mp hb
    -- two numbers that are narrowed to the same one stand in a repeat of one symbol
    have hagree : AgreeFor (ns.map narrow).toArray i j 1 := agreeFor_narrowed_iff.mpr fun p hp => by
      obtain rfl := Nat.lt_one_iff.mp hp
      exact ⟨a, b, hi, hj, narrow_eq_iff.mp heq⟩
    have hplaces : i ≠ j := by
      rintro rfl
      exact hne (Option.some.inj (hi.symm.trans hj))
    obtain ⟨region, hregion, hmemi, hmemj⟩ :=
      exists_mem_regions Nat.one_pos hplaces (agreeFor_iff.mp hagree)
    have hlong := (isRegion_of_mem Nat.one_pos hregion).least_le
    obtain ⟨c, hc, hc'⟩ :=
      hgenuine 1 true region (mem_maximal_iff.mpr hregion) i hmemi j hmemj 0 hlong
    rw [List.getElem?_toArray] at hc hc'
    exact hne (Option.some.inj ((hi.symm.trans hc).trans (hc'.symm.trans hj)))
  · intro hinj least all found hfound i hi j hj
    exact agreeFor_of_injOn hinj (agreeFor_of_mem_listed hfound hi hj)

/-- **Token numbers are read modulo `2 ^ 32`** — a list of integral numbers is never refused.  Its
suffix array sorts the suffixes by the narrowed numbers; that is the order by the numbers themselves
if narrowing keeps their order.  The windows of every repeat, whatever the least length and whether
all repeats are asked for or a selection, carry numbers that differ by multiples of `2 ^ 32`; and
all repeats carry equal numbers exactly if narrowing tells the numbers of the list apart.  Narrowing
keeps numbers of 32 bits as they are. -/
theorem numbers_read_modulo_word {arguments : Arguments} {xs : List Float} {ns : List Int}
    (hnumbers : arguments.get 0 = .list (xs.map .number))
    (hread : xs.map Exact.integer? = ns.map some) {least : Float}
    (hleast : arguments.get 1 = .number least) :
    let codes := (ns.map narrow).toArray
    (∃ order, buildSuffixArray arguments = .ok (naturals order)
      ∧ Suffix.Sorted (fun a b => decide (a < b)) codes order
      ∧ (StrictMonoOn narrow {n | n ∈ ns} →
        Suffix.Sorted (fun a b => decide (a < b)) ns.toArray order))
    ∧ findRepeats arguments = .ok (.list ((listed codes (Exact.signed32 least)
        (readFlag false (arguments.get 2))).map repeatValue))
    ∧ (∀ m all, ∀ found ∈ listed codes m all, ∀ i ∈ found.positions, ∀ j ∈ found.positions,
        ∀ p < found.length, ∃ a b, ns[i + p]? = some a ∧ ns[j + p]? = some b
          ∧ (2 ^ 32 : Int) ∣ a - b)
    ∧ ((∀ m all, ∀ found ∈ listed codes m all, Genuine ns found)
        ↔ Set.InjOn narrow {n | n ∈ ns})
    ∧ ((∀ n ∈ ns, -2 ^ 31 ≤ n ∧ n < 2 ^ 31) → StrictMonoOn narrow {n | n ∈ ns}) := by
  intro codes
  refine ⟨⟨_, buildSuffixArray_of_numbers hnumbers hread, Suffix.sorted_suffixArray codes,
    fun hmono => ?_⟩, findRepeats_of_numbers hnumbers hread hleast,
    fun m all found hfound i hi j hj =>
      agreeFor_narrowed_iff.mp (agreeFor_of_mem_listed hfound hi hj),
    forall_genuine_iff, strictMonoOn_narrow⟩
  refine Suffix.Sorted.of_map (fun a ha b hb => hmono.lt_iff_lt ha hb) ?_
  rw [List.map_toArray]
  exact Suffix.sorted_suffixArray codes

/-- Two windows of the numbers seven and minus one, which fit into 32 bits. -/
theorem numbers_read_of_fitting :
    let ns : List Int := [7, -1, 7, -1]
    let arguments : Arguments := ⟨[.list ([7, -1, 7, -1].map .number), .number 2, .bool true]⟩
    arguments.get 0 = .list ([7, -1, 7, -1].map .number)
      ∧ [(7 : Float), -1, 7, -1].map Exact.integer? = ns.map some
      ∧ arguments.get 1 = .number 2
      ∧ ∃ found : Repeat, findRepeats arguments = .ok (.list [repeatValue found])
        ∧ found.positions = [0, 2] ∧ Genuine ns found := by
  intro ns arguments
  have hnumbers : arguments.get 0 = .list ([7, -1, 7, -1].map .number) := rfl
  have hread : [(7 : Float), -1, 7, -1].map Exact.integer? = ns.map some := by decide +kernel
  have hleast : arguments.get 1 = .number 2 := rfl
  obtain ⟨-, hanswer, -, hgenuine, hmono⟩ := numbers_read_modulo_word hnumbers hread hleast
  have hlisted : listed (ns.map narrow).toArray 2 true = [⟨[0, 2], 2, 2, 4⟩] := by
    rw [listed, ofSuffixes_eq #[3, 1, 2, 0] #[0, 1, 0, 2] ⟨by decide +kernel, by decide +kernel⟩
      (by decide +kernel)]
    cbv
  have hapart := (hmono (by decide)).injOn
  refine ⟨hnumbers, hread, hleast, ⟨[0, 2], 2, 2, 4⟩, ?_, rfl, ?_⟩
  · rw [hanswer, show Exact.signed32 2 = 2 by decide]
    exact congrArg (fun found => Except.ok (Value.list (found.map repeatValue))) hlisted
  · exact hgenuine.mpr hapart 2 true _ (hlisted ▸ List.mem_cons_self)

/-- **Different numbers in one repeat** — one and `2 ^ 32 + 1` are narrowed to the same number, so
they are reported as a repeat, and the suffix that starts with the larger one comes first. -/
theorem repeat_of_different_numbers :
    let ns : List Int := [1, 4294967297]
    let arguments : Arguments := ⟨[.list ([1, 4294967297].map .number), .number 1]⟩
    [(1 : Float), 4294967297].map Exact.integer? = ns.map some
      ∧ (∃ found : Repeat, findRepeats arguments = .ok (.list [repeatValue found])
        ∧ found.positions = [0, 1] ∧ found.length = 1 ∧ ¬ Genuine ns found)
      ∧ ∃ order, buildSuffixArray arguments = .ok (naturals order)
        ∧ ¬ Suffix.Sorted (fun a b => decide (a < b)) ns.toArray order := by
  intro ns arguments
  have hnumbers : arguments.get 0 = .list ([1, 4294967297].map .number) := rfl
  have hread : [(1 : Float), 4294967297].map Exact.integer? = ns.map some := by decide +kernel
  have hleast : arguments.get 1 = .number 1 := rfl
  have hlisted : listed (ns.map narrow).toArray 1 false = [⟨[0, 1], 1, 0, 2⟩] := by
    rw [listed, ofSuffixes_eq #[1, 0] #[0, 1] ⟨by decide +kernel, by decide +kernel⟩
      (by decide +kernel)]
    cbv
  have horder : Suffix.suffixArray (ns.map narrow).toArray = #[1, 0] := by decide +kernel
  refine ⟨hread, ⟨⟨[0, 1], 1, 0, 2⟩, ?_, rfl, rfl, fun hgenuine => ?_⟩, #[1, 0], ?_,
    fun hsorted => ?_⟩
  · rw [findRepeats_of_numbers hnumbers hread hleast, show Exact.signed32 1 = 1 by decide]
    exact congrArg (fun found => Except.ok (Value.list (found.map repeatValue))) hlisted
  · obtain ⟨a, ha, ha'⟩ := hgenuine 0 (by decide) 1 (by decide) 0 (by decide)
    obtain rfl : 1 = a := Option.some.inj ha
    exact absurd ha' (by decide)
  · rw [buildSuffixArray_of_numbers hnumbers hread, horder]
  · exact absurd hsorted.ascending (by decide)

end CodeClones.Script
