import NaustJmap.Library.Utf8

/-!
# Base64

The padded encoding of the standard alphabet: three octets make four symbols, and a last group
of one or two octets is filled up with `=`.
-/

namespace NaustJmap.Library.Base64

open Utf8 (ofNat_eq_of_toNat)

def symbol (v : ℕ) : UInt8 :=
  if v < 26 then UInt8.ofNat (65 + v)
  else if v < 52 then UInt8.ofNat (71 + v)
  else if v < 62 then UInt8.ofNat (v - 4)
  else if v = 62 then 43
  else 47

def value (c : UInt8) : Option ℕ :=
  if 65 ≤ c ∧ c ≤ 90 then some (c.toNat - 65)
  else if 97 ≤ c ∧ c ≤ 122 then some (c.toNat - 71)
  else if 48 ≤ c ∧ c ≤ 57 then some (c.toNat + 4)
  else if c = 43 then some 62
  else if c = 47 then some 63
  else none

def pad : UInt8 := 61

def encode : List UInt8 → List UInt8
  | [] => []
  | [a] => [symbol (a.toNat / 4), symbol (a.toNat % 4 * 16), pad, pad]
  | [a, b] =>
    [symbol (a.toNat / 4), symbol (a.toNat % 4 * 16 + b.toNat / 16), symbol (b.toNat % 16 * 4), pad]
  | a :: b :: c :: rest =>
    symbol (a.toNat / 4) :: symbol (a.toNat % 4 * 16 + b.toNat / 16) ::
      symbol (b.toNat % 16 * 4 + c.toNat / 64) :: symbol (c.toNat % 64) :: encode rest

def decode : List UInt8 → Option (List UInt8)
  | [] => some []
  | s1 :: s2 :: s3 :: s4 :: rest => do
    let v1 ← value s1
    let v2 ← value s2
    let a := UInt8.ofNat (v1 * 4 + v2 / 16)
    if s3 = pad ∧ s4 = pad ∧ rest = [] then return [a]
    let v3 ← value s3
    let b := UInt8.ofNat (v2 % 16 * 16 + v3 / 4)
    if s4 = pad ∧ rest = [] then return [a, b]
    let v4 ← value s4
    let c := UInt8.ofNat (v3 % 4 * 64 + v4)
    return a :: b :: c :: (← decode rest)
  | _ => none

theorem value_symbol : ∀ v < 64, value (symbol v) = some v := by decide

theorem symbol_ne_pad : ∀ v < 64, symbol v ≠ pad := by decide

theorem decode_encode (s : List UInt8) : decode (encode s) = some s := by
  fun_induction encode s with
  | case1 => rfl
  | case2 a =>
    have ha := a.toNat_lt
    simp only [decode, value_symbol _ (show a.toNat / 4 < 64 by omega),
      value_symbol _ (show a.toNat % 4 * 16 < 64 by omega), Option.bind_eq_bind, Option.bind_some,
      and_self, if_true]
    rw [ofNat_eq_of_toNat (b := a) (by omega)]
    rfl
  | case3 a b =>
    have ha := a.toNat_lt
    have hb := b.toNat_lt
    have hne := symbol_ne_pad _ (show b.toNat % 16 * 4 < 64 by omega)
    simp only [decode, value_symbol _ (show a.toNat / 4 < 64 by omega),
      value_symbol _ (show a.toNat % 4 * 16 + b.toNat / 16 < 64 by omega),
      value_symbol _ (show b.toNat % 16 * 4 < 64 by omega), Option.bind_eq_bind, Option.bind_some,
      and_self, if_true, hne, false_and, if_false]
    rw [ofNat_eq_of_toNat (b := a) (by omega), ofNat_eq_of_toNat (b := b) (by omega)]
    rfl
  | case4 a b c rest ih =>
    have ha := a.toNat_lt
    have hb := b.toNat_lt
    have hc := c.toNat_lt
    have hne3 := symbol_ne_pad _ (show b.toNat % 16 * 4 + c.toNat / 64 < 64 by omega)
    have hne4 := symbol_ne_pad _ (show c.toNat % 64 < 64 by omega)
    simp only [decode, value_symbol _ (show a.toNat / 4 < 64 by omega),
      value_symbol _ (show a.toNat % 4 * 16 + b.toNat / 16 < 64 by omega),
      value_symbol _ (show b.toNat % 16 * 4 + c.toNat / 64 < 64 by omega),
      value_symbol _ (show c.toNat % 64 < 64 by omega), Option.bind_eq_bind, Option.bind_some,
      hne3, hne4, false_and, if_false, ih]
    rw [ofNat_eq_of_toNat (b := a) (by omega), ofNat_eq_of_toNat (b := b) (by omega),
      ofNat_eq_of_toNat (b := c) (by omega)]
    rfl

theorem length_encode (s : List UInt8) : (encode s).length = (s.length + 2) / 3 * 4 := by
  fun_induction encode s with
  | case4 a b c rest ih =>
    simp only [List.length_cons, ih]
    omega
  | _ => simp

end NaustJmap.Library.Base64
