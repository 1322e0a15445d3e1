import Mathlib.Data.Nat.Notation
import Mathlib.Data.Option.Basic

/-!
# Base64

The standard alphabet with padding. Decoding is strict: the unused bits of a padded group
must be zero.
-/

namespace Lib.Base64

def alphabet : List Char :=
  "ABCDEFGHIJKLMNOPQRSTUVWXYZabcdefghijklmnopqrstuvwxyz0123456789+/".toList

/-- The character of a 6-bit digit. -/
def digit (n : ℕ) : Char := alphabet.getD n '='

/-- The digit of a character. -/
def undigit (c : Char) : Option ℕ := alphabet.idxOf? c

/-- One group of three bytes is four digits; the last group is padded. -/
def encode : List UInt8 → List Char
  | [] => []
  | [a] => [digit (a.toNat / 4), digit (a.toNat % 4 * 16), '=', '=']
  | [a, b] => [digit (a.toNat / 4), digit (a.toNat % 4 * 16 + b.toNat / 16),
      digit (b.toNat % 16 * 4), '=']
  | a :: b :: c :: rest => digit (a.toNat / 4) :: digit (a.toNat % 4 * 16 + b.toNat / 16) ::
      digit (b.toNat % 16 * 4 + c.toNat / 64) :: digit (c.toNat % 64) :: encode rest

/-- The bytes of the last group. -/
def decodeLast (w x y z : Char) : Option (List UInt8) := do
  let w ← undigit w
  let x ← undigit x
  if z = '=' then
    if y = '=' then
      if x % 16 = 0 then some [UInt8.ofNat (w * 4 + x / 16)] else none
    else
      let y ← undigit y
      if y % 4 = 0 then
        some [UInt8.ofNat (w * 4 + x / 16), UInt8.ofNat (x % 16 * 16 + y / 4)]
      else none
  else
    let y ← undigit y
    let z ← undigit z
    some [UInt8.ofNat (w * 4 + x / 16), UInt8.ofNat (x % 16 * 16 + y / 4),
      UInt8.ofNat (y % 4 * 64 + z)]

def decode : List Char → Option (List UInt8)
  | [] => some []
  | [w, x, y, z] => decodeLast w x y z
  | w :: x :: y :: z :: rest => do
    let w ← undigit w
    let x ← undigit x
    let y ← undigit y
    let z ← undigit z
    let bytes ← decode rest
    some (UInt8.ofNat (w * 4 + x / 16) :: UInt8.ofNat (x % 16 * 16 + y / 4) ::
      UInt8.ofNat (y % 4 * 64 + z) :: bytes)
  | _ => none

theorem undigit_digit {n : ℕ} (h : n < 64) : undigit (digit n) = some n := by
  have hall : ∀ i : Fin 64, undigit (digit i.val) = some i.val := by decide +kernel
  exact hall ⟨n, h⟩

theorem digit_ne_pad {n : ℕ} (h : n < 64) : digit n ≠ '=' := by
  have hall : ∀ i : Fin 64, digit i.val ≠ '=' := by decide +kernel
  exact hall ⟨n, h⟩

/-- A byte from its value. -/
theorem ofNat_eq {a : UInt8} {n : ℕ} (h : n = a.toNat) : UInt8.ofNat n = a := by
  rw [h]
  exact UInt8.ofNat_toNat

/-- The three bytes of a full group come back. -/
theorem group_eq (a b c : UInt8) :
    UInt8.ofNat (a.toNat / 4 * 4 + (a.toNat % 4 * 16 + b.toNat / 16) / 16) = a ∧
    UInt8.ofNat ((a.toNat % 4 * 16 + b.toNat / 16) % 16 * 16 +
      (b.toNat % 16 * 4 + c.toNat / 64) / 4) = b ∧
    UInt8.ofNat ((b.toNat % 16 * 4 + c.toNat / 64) % 4 * 64 + c.toNat % 64) = c := by
  have ha := a.toNat_lt
  have hb := b.toNat_lt
  have hc := c.toNat_lt
  exact ⟨ofNat_eq (by omega), ofNat_eq (by omega), ofNat_eq (by omega)⟩

theorem decodeLast_one (a : UInt8) :
    decodeLast (digit (a.toNat / 4)) (digit (a.toNat % 4 * 16)) '=' '=' = some [a] := by
  have ha := a.toNat_lt
  unfold decodeLast
  rw [undigit_digit (by omega), undigit_digit (by omega)]
  have hpad : a.toNat % 4 * 16 % 16 = 0 := by omega
  have hbyte : UInt8.ofNat (a.toNat / 4 * 4 + a.toNat % 4 * 16 / 16) = a :=
    ofNat_eq (by omega)
  simp only [Option.bind_eq_bind, Option.bind_some, if_true, hpad, hbyte]

theorem decodeLast_two (a b : UInt8) :
    decodeLast (digit (a.toNat / 4)) (digit (a.toNat % 4 * 16 + b.toNat / 16))
      (digit (b.toNat % 16 * 4)) '=' = some [a, b] := by
  have ha := a.toNat_lt
  have hb := b.toNat_lt
  have hne : digit (b.toNat % 16 * 4) ≠ '=' := digit_ne_pad (by omega)
  unfold decodeLast
  rw [undigit_digit (by omega), undigit_digit (by omega), undigit_digit (by omega)]
  have hpad : b.toNat % 16 * 4 % 4 = 0 := by omega
  have hfst : UInt8.ofNat (a.toNat / 4 * 4 + (a.toNat % 4 * 16 + b.toNat / 16) / 16) = a :=
    ofNat_eq (by omega)
  have hsnd : UInt8.ofNat ((a.toNat % 4 * 16 + b.toNat / 16) % 16 * 16 +
      b.toNat % 16 * 4 / 4) = b := ofNat_eq (by omega)
  simp only [Option.bind_eq_bind, Option.bind_some, if_true, if_neg hne, hpad, hfst, hsnd]

theorem decodeLast_three (a b c : UInt8) :
    decodeLast (digit (a.toNat / 4)) (digit (a.toNat % 4 * 16 + b.toNat / 16))
      (digit (b.toNat % 16 * 4 + c.toNat / 64)) (digit (c.toNat % 64)) = some [a, b, c] := by
  have ha := a.toNat_lt
  have hb := b.toNat_lt
  have hc := c.toNat_lt
  have hne : digit (c.toNat % 64) ≠ '=' := digit_ne_pad (by omega)
  obtain ⟨h1, h2, h3⟩ := group_eq a b c
  unfold decodeLast
  rw [undigit_digit (by omega), undigit_digit (by omega), undigit_digit (by omega),
    undigit_digit (by omega)]
  simp only [Option.bind_eq_bind, Option.bind_some, if_neg hne, h1, h2, h3]

/-- Decoding inverts encoding. -/
theorem decode_encode (bytes : List UInt8) : decode (encode bytes) = some bytes := by
  induction bytes using encode.induct with
  | case1 => rfl
  | case2 a => exact decodeLast_one a
  | case3 a b => exact decodeLast_two a b
  | case4 a b c rest ih =>
    have ha := a.toNat_lt
    have hb := b.toNat_lt
    have hc := c.toNat_lt
    obtain ⟨h1, h2, h3⟩ := group_eq a b c
    rw [encode]
    cases hrest : encode rest with
    | nil =>
      -- the group is the last one and is decoded as such
      rw [hrest] at ih
      have hnil : rest = [] := (Option.some.inj ih).symm
      rw [hnil]
      exact decodeLast_three a b c
    | cons d ds =>
      rw [decode, ← hrest, ih, undigit_digit (by omega), undigit_digit (by omega),
        undigit_digit (by omega), undigit_digit (by omega)]
      · simp only [Option.bind_eq_bind, Option.bind_some, h1, h2, h3]
      · intro h
        cases h

end Lib.Base64
