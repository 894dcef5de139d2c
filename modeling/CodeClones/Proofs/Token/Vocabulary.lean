import CodeClones.Token.Vocabulary
import Mathlib

/-!
# Proofs/Token/Vocabulary — numbers in the order of first sight

A vocabulary keeps a list of distinct texts and numbers each by its place there (`Lists`).  Seeing a
new text puts it at the end of the list, so the numbers of the others stay.  Numbers do not depend
on the texts themselves: renaming all of them injectively keeps every number (`number_map`).
-/

namespace CodeClones.Vocabulary

/-- **The texts of a vocabulary in the order of their numbers.** -/
structure Lists (vocabulary : Vocabulary) (distinct : List String) : Prop where
  nodup : distinct.Nodup
  size : vocabulary.size = distinct.length
  find : ∀ text, vocabulary.numbers[text]?
    = if text ∈ distinct then some (distinct.idxOf text + 1) else none

variable {vocabulary : Vocabulary} {distinct : List String} {a b : String}

theorem lists_empty : Lists empty [] where
  nodup := List.nodup_nil
  size := Std.HashMap.size_empty
  find text := by
    rw [if_neg List.not_mem_nil, empty]
    exact Std.HashMap.getElem?_empty

theorem Lists.contains (h : Lists vocabulary distinct) (text : String) :
    vocabulary.numbers.contains text = decide (text ∈ distinct) := by
  rw [Std.HashMap.contains_eq_isSome_getElem?, h.find]
  split
  · next hmem => rw [decide_eq_true hmem]; rfl
  · next hmem => rw [decide_eq_false hmem]; rfl

/-- **Seeing a text** — a new one comes last. -/
theorem Lists.see (h : Lists vocabulary distinct) (text : String) :
    Lists (vocabulary.see text) (if text ∈ distinct then distinct else distinct ++ [text]) := by
  rw [Vocabulary.see, h.contains]
  by_cases hmem : text ∈ distinct
  · rw [if_pos (decide_eq_true hmem), if_pos hmem]
    exact h
  · rw [if_neg (by rwa [decide_eq_true_eq]), if_neg hmem]
    refine ⟨List.nodup_append.mpr ⟨h.nodup, List.nodup_singleton text, ?_⟩, ?_, ?_⟩
    · rintro a ha b hb rfl
      exact hmem (List.mem_singleton.mp hb ▸ ha)
    · have hnew : text ∉ vocabulary.numbers := by
        rw [← Std.HashMap.contains_iff_mem, h.contains, decide_eq_true_eq]
        exact hmem
      have hsize := h.size
      rw [Vocabulary.size] at hsize ⊢
      rw [Std.HashMap.size_insert, if_neg hnew, hsize, List.length_append, List.length_singleton]
    · intro other
      rw [Std.HashMap.getElem?_insert, h.find, h.size]
      by_cases heq : text = other
      · subst heq
        rw [if_pos (beq_self_eq_true text), if_pos (by simp), List.idxOf_append,
          if_neg hmem, List.idxOf_cons_self, Nat.zero_add]
      · rw [if_neg (by simpa using heq)]
        by_cases hother : other ∈ distinct
        · rw [if_pos hother, if_pos (List.mem_append_left _ hother), List.idxOf_append,
            if_pos hother]
        · rw [if_neg hother, if_neg (by simp [hother, Ne.symm heq])]

theorem eraseDups_concat (texts : List String) (text : String) :
    (texts ++ [text]).eraseDups
      = if text ∈ texts then texts.eraseDups else texts.eraseDups ++ [text] := by
  rw [List.eraseDups_append]
  by_cases hmem : text ∈ texts
  · rw [if_pos hmem]
    simp [List.removeAll, hmem]
  · rw [if_neg hmem]
    simp [List.removeAll, hmem]
    rfl

/-- **The vocabulary of some texts lists them in the order of first sight.** -/
theorem lists_ofTexts (texts : List String) : Lists (ofTexts texts) texts.eraseDups := by
  induction texts using List.reverseRecOn with
  | nil => exact lists_empty
  | append_singleton texts text ih =>
    have hsee := ih.see text
    rw [ofTexts, List.foldl_append, eraseDups_concat]
    simp only [List.mem_eraseDups] at hsee
    exact hsee

theorem number_ofTexts {texts : List String} (ha : a ∈ texts) :
    (ofTexts texts).number a = texts.eraseDups.idxOf a + 1 := by
  rw [number, Std.HashMap.getD_eq_getD_getElem?, (lists_ofTexts texts).find,
    if_pos (List.mem_eraseDups.mpr ha), Option.getD_some]

/-- **Numbers depend on the order of first sight only.** -/
theorem number_congr {texts texts' : List String} (h : texts.eraseDups = texts'.eraseDups)
    (a : String) : (ofTexts texts).number a = (ofTexts texts').number a := by
  rw [number, number, Std.HashMap.getD_eq_getD_getElem?, Std.HashMap.getD_eq_getD_getElem?,
    (lists_ofTexts texts).find, (lists_ofTexts texts').find, h]

/-- **Equal numbers stand for equal texts.** -/
theorem number_inj {texts : List String} (ha : a ∈ texts) (hb : b ∈ texts) :
    (ofTexts texts).number a = (ofTexts texts).number b ↔ a = b := by
  rw [number_ofTexts ha, number_ofTexts hb, Nat.add_right_cancel_iff]
  exact List.idxOf_inj (List.mem_eraseDups.mpr ha)

theorem number_le {texts : List String} (ha : a ∈ texts) :
    (ofTexts texts).number a ≤ (ofTexts texts).size := by
  rw [number_ofTexts ha, (lists_ofTexts texts).size]
  exact List.idxOf_lt_length_of_mem (List.mem_eraseDups.mpr ha)

theorem number_pos {texts : List String} (ha : a ∈ texts) : 0 < (ofTexts texts).number a := by
  rw [number_ofTexts ha]
  exact Nat.succ_pos _

theorem size_le (texts : List String) : (ofTexts texts).size ≤ texts.length := by
  have hlists := lists_ofTexts texts
  rw [hlists.size]
  exact (hlists.nodup.subperm fun _ => List.mem_eraseDups.mp).length_le

/-- **Every number up to the size is given.** -/
theorem exists_number_eq {texts : List String} {number : Nat} (hpos : 0 < number)
    (hle : number ≤ (ofTexts texts).size) :
    ∃ text ∈ texts, (ofTexts texts).number text = number := by
  have hlt : number - 1 < texts.eraseDups.length := by
    rw [← (lists_ofTexts texts).size]
    omega
  have hmem := List.mem_eraseDups.mp (List.getElem_mem hlt)
  refine ⟨_, hmem, ?_⟩
  rw [number_ofTexts hmem, (lists_ofTexts texts).nodup.idxOf_getElem]
  omega

/-- **What is seen later changes no number.** -/
theorem number_append {texts : List String} (ha : a ∈ texts) (later : List String) :
    (ofTexts (texts ++ later)).number a = (ofTexts texts).number a := by
  rw [number_ofTexts (List.mem_append_left _ ha), number_ofTexts ha, List.eraseDups_append,
    List.idxOf_append_of_mem (List.mem_eraseDups.mpr ha)]

/-- **A new text has a larger number than every text before it.** -/
theorem number_lt_of_new {before after : List String} (hnew : b ∉ before) (ha : a ∈ before) :
    (ofTexts (before ++ b :: after)).number a < (ofTexts (before ++ b :: after)).number b := by
  have hrest : (b :: after).removeAll before = b :: after.removeAll before := by
    simp [List.removeAll, hnew]
  have hmem : a ∈ before.eraseDups := List.mem_eraseDups.mpr ha
  rw [number_ofTexts (List.mem_append_left _ ha),
    number_ofTexts (List.mem_append_right _ List.mem_cons_self), List.eraseDups_append, hrest,
    List.idxOf_append_of_mem hmem,
    List.idxOf_append_of_notMem (mt List.mem_eraseDups.mp hnew)]
  have hlt := List.idxOf_lt_length_of_mem hmem
  omega

/-! ## Renamed texts -/

section Map

variable {f : String → String} {names : Set String} (hf : Set.InjOn f names)

include hf

theorem mem_map_iff {texts : List String} (htexts : ∀ text ∈ texts, text ∈ names)
    (ha : a ∈ names) : f a ∈ texts.map f ↔ a ∈ texts := by
  refine ⟨fun hmem => ?_, List.mem_map_of_mem⟩
  obtain ⟨text, htext, heq⟩ := List.mem_map.mp hmem
  exact hf (htexts text htext) ha heq ▸ htext

theorem eraseDups_map {texts : List String} (htexts : ∀ text ∈ texts, text ∈ names) :
    (texts.map f).eraseDups = texts.eraseDups.map f := by
  induction texts using List.reverseRecOn with
  | nil => rfl
  | append_singleton texts text ih =>
    obtain ⟨hinit, hlast⟩ := List.forall_mem_append.mp htexts
    have hmem := mem_map_iff hf hinit (hlast text (List.mem_singleton_self text))
    rw [List.map_append, List.map_singleton, eraseDups_concat, eraseDups_concat, ih hinit]
    simp only [hmem]
    split
    · rfl
    · rw [List.map_append, List.map_singleton]

theorem idxOf_map {texts : List String} (htexts : ∀ text ∈ texts, text ∈ names)
    (ha : a ∈ names) : (texts.map f).idxOf (f a) = texts.idxOf a := by
  induction texts with
  | nil => rfl
  | cons text texts ih =>
    obtain ⟨htext, htexts⟩ := List.forall_mem_cons.mp htexts
    have heq : f text = f a ↔ text = a := hf.eq_iff htext ha
    rw [List.map_cons, List.idxOf_cons, List.idxOf_cons, ih htexts, beq_eq_beq.mpr heq]

/-- **Renamed texts keep their numbers.** -/
theorem number_map {texts : List String} (htexts : ∀ text ∈ texts, text ∈ names)
    (ha : a ∈ texts) : (ofTexts (texts.map f)).number (f a) = (ofTexts texts).number a := by
  have hdistinct : ∀ text ∈ texts.eraseDups, text ∈ names := fun text htext =>
    htexts text (List.mem_eraseDups.mp htext)
  rw [number_ofTexts ha, number_ofTexts (List.mem_map_of_mem ha), eraseDups_map hf htexts,
    idxOf_map hf hdistinct (htexts a ha)]

end Map

end CodeClones.Vocabulary
