import CodeClones.Proofs.Window.RollingHash

/-!
# Proofs/Window/Checked — rolling with every operation checked

Checked operations give nothing where the exact result is no word.  Hashing and rolling are written
with them once more; they give a result on all texts, the one of the unchecked words, so no product,
sum or difference wraps (`rolled_eq_windowAt`).
-/

namespace CodeClones

/-! ## Checked operations -/

namespace Checked

/-- The product of two words, if it is a word. -/
def mul? (a b : UInt64) : Option UInt64 :=
  if a.toNat * b.toNat < 2 ^ 64 then some (a * b) else none

/-- The sum of two words, if it is a word. -/
def add? (a b : UInt64) : Option UInt64 :=
  if a.toNat + b.toNat < 2 ^ 64 then some (a + b) else none

/-- The difference of two words, if there is one. -/
def sub? (a b : UInt64) : Option UInt64 :=
  if b ≤ a then some (a - b) else none

end Checked

namespace RollingHash

open Checked

variable {hash value outgoing incoming : UInt64} {values : List UInt64}

theorem mul?_eq {a b : UInt64} (ha : a < modulus) (hb : b < modulus) :
    mul? a b = some (a * b) :=
  if_pos (Nat.lt_trans (mul_toNat_lt ha hb) (by decide))

/-- **A checked run** — if each step from below the prime gives a result, and one below the prime,
so does the run. -/
theorem foldlM_eq_some {α : Type} {step? : UInt64 → α → Option UInt64} {step : UInt64 → α → UInt64}
    {entries : List α}
    (hstep : ∀ hash < modulus, ∀ a ∈ entries, step? hash a = some (step hash a))
    (hlt : ∀ hash a, step hash a < modulus) (hhash : hash < modulus) :
    entries.foldlM step? hash = some (entries.foldl step hash) := by
  induction entries generalizing hash with
  | nil => rfl
  | cons a entries ih =>
    rw [List.foldlM_cons, hstep hash hhash a List.mem_cons_self, Option.bind_eq_bind,
      Option.bind_some, List.foldl_cons]
    exact ih (fun hash hhash b hb => hstep hash hhash b (List.mem_cons_of_mem a hb)) (hlt hash a)

/-! ## Hashing -/

/-- `append`, with every operation checked. -/
def append? (hash value : UInt64) : Option UInt64 := do
  let product ← mul? hash base
  let sum ← add? product value
  return sum % modulus

theorem append?_eq (hhash : hash < modulus) (hvalue : value < modulus) :
    append? hash value = some (append hash value) := by
  have hsum : add? (hash * base) value = some (hash * base + value) := by
    refine if_pos ?_
    rw [toNat_mul hhash (by decide)]
    have hproduct := mul_toNat_lt hhash (show base < modulus by decide)
    have hvalue := lt_modulus_iff.mp hvalue
    omega
  rw [append?, mul?_eq hhash (by decide), Option.bind_eq_bind, Option.bind_some, hsum]
  rfl

/-- `ofBytes`, with every operation checked. -/
def ofBytes? (bytes : List UInt8) : Option UInt64 :=
  bytes.foldlM (fun hash byte => append? hash byte.toUInt64) 0

theorem ofBytes?_eq (bytes : List UInt8) : ofBytes? bytes = some (ofBytes bytes) := by
  have hbyte : ∀ byte : UInt8, byte.toUInt64 < modulus := fun byte => by
    rw [lt_modulus_iff, UInt8.toNat_toUInt64]
    exact Nat.lt_trans byte.toNat_lt (by decide)
  rw [ofBytes, ofValues, List.foldl_map]
  exact foldlM_eq_some (fun hash hhash byte _ => append?_eq hhash (hbyte byte))
    (fun hash byte => append_lt hash byte.toUInt64) (by decide)

theorem ofBytes_lt (bytes : List UInt8) : ofBytes bytes < modulus :=
  ofValues_lt _

/-- The hash of the window at a place, with every operation checked. -/
def windowAt? (width : Nat) (texts : List (List UInt8)) (start : Nat) : Option UInt64 :=
  ((texts.drop start).take width).foldlM (fun hash text => do
    let value ← ofBytes? text
    append? hash value) 0

theorem windowAt?_eq (width : Nat) (texts : List (List UInt8)) (start : Nat) :
    windowAt? width texts start = some ((ofWidth width).windowAt (texts.map ofBytes) start) := by
  change _ = some ((((texts.map ofBytes).drop start).take width).foldl append 0)
  rw [← List.map_drop, ← List.map_take, List.foldl_map]
  refine foldlM_eq_some (fun hash hhash text _ => ?_) (fun hash text => append_lt _ _) (by decide)
  rw [ofBytes?_eq, Option.bind_eq_bind, Option.bind_some, append?_eq hhash (ofBytes_lt text)]

/-! ## Rolling -/

/-- A power of the base modulo the prime, by repeated checked multiplication. -/
def power? : Nat → Option UInt64
  | 0 => some 1
  | exponent + 1 => do
    let power ← power? exponent
    let product ← mul? power base
    return product % modulus

theorem power?_eq (exponent : Nat) : power? exponent = some (ofWidth (exponent + 1)).topPower := by
  induction exponent with
  | zero => exact congrArg some (UInt64.toNat_inj.mp (toNat_topPower 1).symm)
  | succ exponent ih =>
    rw [power?, ih, Option.bind_eq_bind, Option.bind_some, mul?_eq (topPower_lt _) (by decide),
      Option.bind_some]
    refine congrArg some (UInt64.toNat_inj.mp ?_)
    rw [UInt64.toNat_mod, toNat_mul (topPower_lt _) (by decide), toNat_topPower, toNat_topPower]
    exact (Nat.mod_mul_mod _ _ _).trans (congrArg (· % 1000000007) (Nat.pow_succ ..).symm)

/-- `roll`, with every operation checked. -/
def roll? (topPower hash outgoing incoming : UInt64) : Option UInt64 := do
  let share ← mul? outgoing topPower
  let raised ← add? hash modulus
  let rest ← sub? raised (share % modulus)
  append? (rest % modulus) incoming

theorem roll?_eq (width : Nat) (hhash : hash < modulus) (houtgoing : outgoing < modulus)
    (hincoming : incoming < modulus) :
    roll? (ofWidth width).topPower hash outgoing incoming
      = some ((ofWidth width).roll hash outgoing incoming) := by
  have hraised : add? hash modulus = some (hash + modulus) := by
    refine if_pos ?_
    have hhash := lt_modulus_iff.mp hhash
    change hash.toNat + 1000000007 < 2 ^ 64
    omega
  have hrest : sub? (hash + modulus) (outgoing * (ofWidth width).topPower % modulus)
      = some (hash + modulus - (ofWidth width).share outgoing) :=
    if_pos (le_add_modulus hhash (share_lt _ _))
  rw [roll?, mul?_eq houtgoing (topPower_lt width), Option.bind_eq_bind, Option.bind_some, hraised,
    Option.bind_some, hrest, Option.bind_some, append?_eq (mod_modulus_lt _) hincoming]
  rfl

/-- The texts that go and come, roll by roll: the first text of each window with the one after
it. -/
def exchanges (width : Nat) (texts : List (List UInt8)) : List (List UInt8 × List UInt8) :=
  texts.zip (texts.drop width)

/-- **The first hash, rolled so many times.** -/
def rolled (rolling : RollingHash) (texts : List (List UInt8)) (steps : Nat) : UInt64 :=
  ((exchanges rolling.width texts).take steps).foldl
    (fun hash exchange => rolling.roll hash (ofBytes exchange.1) (ofBytes exchange.2))
    (rolling.windowAt (texts.map ofBytes) 0)

/-- The same with every operation checked, those on the power of the base and on the letters of the
texts included. -/
def rolled? (width : Nat) (texts : List (List UInt8)) (steps : Nat) : Option UInt64 := do
  let topPower ← power? (width - 1)
  let first ← windowAt? width texts 0
  ((exchanges width texts).take steps).foldlM (fun hash exchange => do
    let outgoing ← ofBytes? exchange.1
    let incoming ← ofBytes? exchange.2
    roll? topPower hash outgoing incoming) first

variable {texts : List (List UInt8)} {width start : Nat}

theorem rolled?_eq (hwidth : 0 < width) (texts : List (List UInt8)) (steps : Nat) :
    rolled? width texts steps = some ((ofWidth width).rolled texts steps) := by
  have hpower : power? (width - 1) = some (ofWidth width).topPower := by
    rw [power?_eq, Nat.sub_add_cancel hwidth]
  rw [rolled?, hpower, windowAt?_eq, Option.bind_eq_bind, Option.bind_some, Option.bind_some]
  refine foldlM_eq_some (fun hash hhash exchange _ => ?_) (fun hash exchange => append_lt _ _)
    (ofValues_lt _)
  rw [ofBytes?_eq, ofBytes?_eq, Option.bind_some, Option.bind_some,
    roll?_eq width hhash (ofBytes_lt _) (ofBytes_lt _)]

theorem rolled_succ {rolling : RollingHash} {steps : Nat} {exchange : List UInt8 × List UInt8}
    (h : (exchanges rolling.width texts)[steps]? = some exchange) :
    rolling.rolled texts (steps + 1)
      = rolling.roll (rolling.rolled texts steps) (ofBytes exchange.1) (ofBytes exchange.2) := by
  rw [rolled, List.take_add_one, h, Option.toList_some, List.foldl_append, List.foldl_cons,
    List.foldl_nil, ← rolled]

/-- **Rolled so many times**, the first hash is that of the window so many texts on. -/
theorem rolled_eq (hwidth : 0 < width) (hfits : start + width ≤ texts.length) :
    (ofWidth width).rolled texts start = (ofWidth width).windowAt (texts.map ofBytes) start := by
  induction start with
  | zero => rfl
  | succ start ih =>
    have houtgoing : texts[start]? = some texts[start] := List.getElem?_eq_getElem _
    have hincoming : texts[start + width]? = some texts[start + width] := List.getElem?_eq_getElem _
    have hexchange : (exchanges (ofWidth width).width texts)[start]?
        = some (texts[start], texts[start + width]) := by
      rw [exchanges, List.getElem?_zip_eq_some, List.getElem?_drop,
        Nat.add_comm (ofWidth width).width]
      exact ⟨houtgoing, hincoming⟩
    rw [rolled_succ hexchange, ih (by omega)]
    refine roll_windowAt hwidth (List.forall_mem_map.mpr fun text _ => ofBytes_lt text) ?_ ?_
    · rw [List.getElem?_map, houtgoing, Option.map_some]
    · rw [List.getElem?_map, hincoming, Option.map_some]

/-- **Rolling equals hashing anew, and nothing wraps** — for every width, all texts and each place
where a window fits.  Checked, the rolled hash and the one computed anew give a result, and it is
that of the unchecked words; all hashes are below the prime.  The hashes of all windows are the
first one, rolled zero times, once, and so on. -/
theorem rolled_eq_windowAt (hwidth : 0 < width) (hfits : start + width ≤ texts.length) :
    let rolling := ofWidth width
    let values := texts.map ofBytes
    rolling.rolled texts start = rolling.windowAt values start
      ∧ rolled? width texts start = some (rolling.windowAt values start)
      ∧ windowAt? width texts start = some (rolling.windowAt values start)
      ∧ rolling.windowAt values start < modulus
      ∧ (∀ text ∈ texts, ofBytes? text = some (ofBytes text) ∧ ofBytes text < modulus)
      ∧ rolling.windows values
        = (List.range (texts.length - width + 1)).map (rolling.rolled texts) := by
  intro rolling values
  have hrolled : rolling.rolled texts start = rolling.windowAt values start :=
    rolled_eq hwidth hfits
  refine ⟨hrolled, (rolled?_eq hwidth texts start).trans (congrArg some hrolled),
    windowAt?_eq width texts start, ofValues_lt _,
    fun text _ => ⟨ofBytes?_eq text, ofBytes_lt text⟩, ?_⟩
  have hvalues : ∀ value ∈ values, value < modulus :=
    List.forall_mem_map.mpr fun text _ => ofBytes_lt text
  rw [windows_eq hwidth hvalues, List.length_map,
    show texts.length + 1 - width = texts.length - width + 1 by omega]
  refine List.map_congr_left fun steps hsteps => (rolled_eq hwidth ?_).symm
  have hsteps := List.mem_range.mp hsteps
  omega

/-- Four texts of different lengths, in windows of two. -/
theorem rolled_eq_windowAt_of_four :
    let texts : List (List UInt8) := [[102, 111], [40], [120, 255, 0], [41]]
    0 < 2 ∧ 2 + 2 ≤ texts.length ∧ (ofWidth 2).rolled texts 2 = 3820016
      ∧ rolled? 2 texts 2 = some 3820016 := by
  intro texts
  have hfits : 2 + 2 ≤ texts.length := by decide
  have hanew : (ofWidth 2).windowAt (texts.map ofBytes) 2 = 3820016 := by decide
  obtain ⟨hrolled, hchecked, -⟩ := rolled_eq_windowAt (show 0 < 2 by decide) hfits
  exact ⟨by decide, hfits, hrolled.trans hanew, hchecked.trans (congrArg some hanew)⟩

end RollingHash

end CodeClones
