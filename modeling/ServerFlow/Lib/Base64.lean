import Mathlib

/-!
# Raw base64url

The unpadded base64url encoding and its strict decoder, on bytes. The decoder passes over carriage
returns and line feeds wherever they stand, and refuses a last group whose unused bits are not zero.
What it accepts is therefore, line breaks aside, the encoding of what it returns
(`encode_of_decode`): a text without line breaks is the only one of its bytes.
-/

namespace Base64

open List Option

abbrev Bytes := List UInt8

/-- The character of six bits: `A-Z`, `a-z`, `0-9`, `-`, `_`. -/
def digit (v : Nat) : UInt8 :=
  if v < 26 then UInt8.ofNat (v + 65)
  else if v < 52 then UInt8.ofNat (v + 71)
  else if v < 62 then UInt8.ofNat (v - 4)
  else if v = 62 then 0x2D
  else 0x5F

/-- The six bits of a character. -/
def value? (c : UInt8) : Option Nat :=
  let n := c.toNat
  if 65 ≤ n ∧ n ≤ 90 then some (n - 65)
  else if 97 ≤ n ∧ n ≤ 122 then some (n - 71)
  else if 48 ≤ n ∧ n ≤ 57 then some (n + 4)
  else if n = 45 then some 62
  else if n = 95 then some 63
  else none

theorem digit_of_value? (c : UInt8) {v : Nat} (h : value? c = some v) : v < 64 ∧ digit v = c := by
  have table : ∀ n < 256, ∀ v ∈ value? (UInt8.ofNat n), v < 64 ∧ digit v = UInt8.ofNat n := by
    decide +kernel
  have := table c.toNat c.toNat_lt v
  rw [UInt8.ofNat_toNat] at this
  exact this h

theorem value?_digit {v : Nat} (h : v < 64) : value? (digit v) = some v := by
  have table : ∀ v < 64, value? (digit v) = some v := by decide +kernel
  exact table v h

/-! ## Groups of four digits -/

/-- The digits of a byte string, three bytes at a time. -/
def split : Bytes → List Nat
  | [] => []
  | [a] => [a.toNat / 4, a.toNat % 4 * 16]
  | [a, b] => [a.toNat / 4, a.toNat % 4 * 16 + b.toNat / 16, b.toNat % 16 * 4]
  | a :: b :: c :: rest =>
    a.toNat / 4 :: (a.toNat % 4 * 16 + b.toNat / 16) :: (b.toNat % 16 * 4 + c.toNat / 64)
      :: c.toNat % 64 :: split rest

/-- The bytes of a list of digits: one digit is no byte, and what the last group does not use must
be zero. -/
def join : List Nat → Option Bytes
  | [] => some []
  | [_] => none
  | [a, b] => if b % 16 = 0 then some [UInt8.ofNat (a * 4 + b / 16)] else none
  | [a, b, c] =>
    if c % 4 = 0 then
      some [UInt8.ofNat (a * 4 + b / 16), UInt8.ofNat (b % 16 * 16 + c / 4)]
    else none
  | a :: b :: c :: d :: rest =>
    (join rest).map fun bs =>
      UInt8.ofNat (a * 4 + b / 16) :: UInt8.ofNat (b % 16 * 16 + c / 4)
        :: UInt8.ofNat (c % 4 * 64 + d) :: bs

theorem split_lt (bs : Bytes) : ∀ v ∈ split bs, v < 64 := by
  fun_induction split bs with
  | case1 => simp
  | case2 a => have := a.toNat_lt; simp; omega
  | case3 a b => have := a.toNat_lt; have := b.toNat_lt; simp; omega
  | case4 a b c rest ih =>
    have := a.toNat_lt; have := b.toNat_lt; have := c.toNat_lt
    simp only [mem_cons, forall_eq_or_imp]
    exact ⟨by omega, by omega, by omega, by omega, ih⟩

theorem length_split (bs : Bytes) : (split bs).length = (4 * bs.length + 2) / 3 := by
  fun_induction split bs with
  | case1 => rfl
  | case2 a => simp
  | case3 a b => simp
  | case4 a b c rest ih => simp only [length_cons, ih]; omega

theorem join_split (bs : Bytes) : join (split bs) = some bs := by
  fun_induction split bs with
  | case1 => rfl
  | case2 a =>
    have ha : a.toNat / 4 * 4 + a.toNat % 4 * 16 / 16 = a.toNat := by omega
    simp only [join, ha, UInt8.ofNat_toNat]
    simp
  | case3 a b =>
    have := b.toNat_lt
    have ha : a.toNat / 4 * 4 + (a.toNat % 4 * 16 + b.toNat / 16) / 16 = a.toNat := by omega
    have hb : (a.toNat % 4 * 16 + b.toNat / 16) % 16 * 16 + b.toNat % 16 * 4 / 4 = b.toNat := by
      omega
    simp only [join, ha, hb, UInt8.ofNat_toNat]
    simp
  | case4 a b c rest ih =>
    have := b.toNat_lt
    have := c.toNat_lt
    have ha : a.toNat / 4 * 4 + (a.toNat % 4 * 16 + b.toNat / 16) / 16 = a.toNat := by omega
    have hb : (a.toNat % 4 * 16 + b.toNat / 16) % 16 * 16
        + (b.toNat % 16 * 4 + c.toNat / 64) / 4 = b.toNat := by omega
    have hc : (b.toNat % 16 * 4 + c.toNat / 64) % 4 * 64 + c.toNat % 64 = c.toNat := by omega
    simp only [join, ih, ha, hb, hc, UInt8.ofNat_toNat, map_some]

private theorem toNat_ofNat_of_lt {n : Nat} (h : n < 256) : (UInt8.ofNat n).toNat = n := by
  simp [Nat.mod_eq_of_lt h]

/-- Every byte of a group is below `256`, so no digit of it is lost. -/
theorem split_of_join {vs : List Nat} {bs : Bytes} (hlt : ∀ v ∈ vs, v < 64)
    (h : join vs = some bs) : split bs = vs := by
  fun_induction join vs generalizing bs with
  | case1 => cases h; rfl
  | case2 v => cases h
  | case3 a b hb =>
    cases h
    simp only [mem_cons, not_mem_nil, or_false, forall_eq_or_imp, forall_eq] at hlt
    simp only [split, toNat_ofNat_of_lt (n := a * 4 + b / 16) (by omega), cons.injEq,
      and_true]
    omega
  | case4 => cases h
  | case5 a b c hc =>
    cases h
    simp only [mem_cons, not_mem_nil, or_false, forall_eq_or_imp, forall_eq] at hlt
    simp only [split, toNat_ofNat_of_lt (n := a * 4 + b / 16) (by omega),
      toNat_ofNat_of_lt (n := b % 16 * 16 + c / 4) (by omega), cons.injEq,
      and_true]
    omega
  | case6 => cases h
  | case7 a b c d rest ih =>
    obtain ⟨bs', hbs', rfl⟩ := map_eq_some_iff.mp h
    simp only [mem_cons, forall_eq_or_imp] at hlt
    obtain ⟨ha, hb, hc, hd, hrest⟩ := hlt
    simp only [split, ih hrest hbs', toNat_ofNat_of_lt (n := a * 4 + b / 16) (by omega),
      toNat_ofNat_of_lt (n := b % 16 * 16 + c / 4) (by omega),
      toNat_ofNat_of_lt (n := c % 4 * 64 + d) (by omega), cons.injEq, and_true]
    omega

/-! ## Texts -/

def encode (bs : Bytes) : Bytes := (split bs).map digit

/-- What the decoder passes over. -/
def lineBreak (c : UInt8) : Bool := c == 0x0A || c == 0x0D

def decode (text : Bytes) : Option Bytes :=
  ((text.filter (!lineBreak ·)).mapM value?).bind join

theorem length_encode (bs : Bytes) : (encode bs).length = (4 * bs.length + 2) / 3 := by
  simp [encode, length_split]

private theorem digits_of_mapM : ∀ {text : Bytes} {vs : List Nat}, text.mapM value? = some vs →
    (∀ v ∈ vs, v < 64) ∧ vs.map digit = text
  | [], vs, h => by
    cases h
    simp
  | c :: text, vs, h => by
    simp only [mapM_cons, bind_eq_bind, bind_eq_some_iff, Option.pure_def,
      some.injEq] at h
    obtain ⟨v, hv, us, hus, rfl⟩ := h
    obtain ⟨hlt, rfl⟩ := digit_of_value? c hv
    obtain ⟨hall, rfl⟩ := digits_of_mapM hus
    exact ⟨forall_mem_cons.mpr ⟨hlt, hall⟩, rfl⟩

private theorem mapM_digit : ∀ {vs : List Nat}, (∀ v ∈ vs, v < 64) →
    (vs.map digit).mapM value? = some vs
  | [], _ => rfl
  | v :: vs, h => by
    obtain ⟨hv, hvs⟩ := forall_mem_cons.mp h
    simp [value?_digit hv, mapM_digit hvs]

/-- An accepted text is, without its line breaks, the encoding of its bytes. -/
theorem encode_of_decode {text bs : Bytes} (h : decode text = some bs) :
    encode bs = text.filter (!lineBreak ·) := by
  obtain ⟨vs, hvs, hjoin⟩ := bind_eq_some_iff.mp h
  obtain ⟨hlt, htext⟩ := digits_of_mapM hvs
  rw [encode, split_of_join hlt hjoin, htext]

/-- A text as long as the encoding has no line breaks to lose. -/
theorem eq_encode_of_decode {text bs : Bytes} (h : decode text = some bs)
    (hlen : text.length = (4 * bs.length + 2) / 3) : text = encode bs := by
  have henc := encode_of_decode h
  have hfull : (text.filter (!lineBreak ·)).length = text.length := by
    rw [← henc, length_encode, hlen]
  rw [henc, filter_eq_self.mpr (length_filter_eq_length_iff.mp hfull)]

theorem lineBreak_digit {v : Nat} (h : v < 64) : lineBreak (digit v) = false := by
  have table : ∀ v < 64, lineBreak (digit v) = false := by decide +kernel
  exact table v h

theorem decode_encode (bs : Bytes) : decode (encode bs) = some bs := by
  have hkeep : (encode bs).filter (!lineBreak ·) = encode bs := by
    refine filter_eq_self.mpr fun c hc => ?_
    obtain ⟨v, hv, rfl⟩ := List.mem_map.mp hc
    simp [lineBreak_digit (split_lt bs v hv)]
  rw [decode, hkeep, encode, mapM_digit (split_lt bs), bind_some, join_split]

end Base64
