import ServerFlow.Lib.Base64
import ServerFlow.Auth.Authenticator

/-!
# Auth.Key

The spelling of API keys (`internal/auth/key.go`): `sf_`, eight lowercase hexadecimal digits, `_`
and 32 secret bytes in raw base64url. Texts are byte strings; SHA-256 and the random bytes are
parameters.

The decoder of the secret passes over line breaks, so that a secret has many texts that decode to
it. What makes a key's spelling unique is the fixed length of the key: an encoding of 32 bytes fills
the 43 places after the second separator, and leaves none for a line break.
-/

namespace ServerFlow.Auth

open Base64 (Bytes)

def keyScheme : Bytes := [0x73, 0x66, 0x5F]
def prefixHexLen : Nat := 8
def secretBytes : Nat := 32
def secretEncLen : Nat := 43
def keyLen : Nat := keyScheme.length + prefixHexLen + 1 + secretEncLen
def prefixSepByte : UInt8 := 0x5F

inductive KeyErr
  | malformedKey

def validPrefix (s : Bytes) : Bool :=
  s.length == prefixHexLen &&
    s.all fun c => !((c < 0x30 || c > 0x39) && (c < 0x61 || c > 0x66))

/-- The public part of a key. -/
def keyPrefix (key : Bytes) : Bytes := (key.drop keyScheme.length).take prefixHexLen

/-- What the rest of a key decodes to. -/
def keySecret (key : Bytes) : Option Bytes :=
  Base64.decode (key.drop (keyScheme.length + prefixHexLen + 1))

/-- `ParseKey`, where `sum256` is SHA-256. -/
def parseKey (sum256 : Bytes → Hash) (key : Bytes) : Except KeyErr (Bytes × Hash) :=
  if key.length ≠ keyLen ∨ key.take keyScheme.length ≠ keyScheme ∨
      key[keyScheme.length + prefixHexLen]? ≠ some prefixSepByte then
    .error .malformedKey
  else if !validPrefix (keyPrefix key) then .error .malformedKey
  else
    match keySecret key with
    | none => .error .malformedKey
    | some raw =>
      if raw.length ≠ secretBytes then .error .malformedKey
      else .ok (keyPrefix key, sum256 raw)

/-- A digit of `hex.EncodeToString`. -/
def hexDigit (v : Nat) : UInt8 := if v < 10 then UInt8.ofNat (v + 48) else UInt8.ofNat (v + 87)

def hexEncode (bs : Bytes) : Bytes :=
  bs.flatMap fun b => [hexDigit (b.toNat / 16), hexDigit (b.toNat % 16)]

/-- `GenerateKey` for the random bytes `p` and `s`: the key, its public part and the hash of its
secret. -/
def generateKey (sum256 : Bytes → Hash) (p : Vector UInt8 (prefixHexLen / 2))
    (s : Vector UInt8 secretBytes) : Bytes × Bytes × Hash :=
  let pfx := hexEncode p.toList
  let secret := Base64.encode s.toList
  (keyScheme ++ pfx ++ [prefixSepByte] ++ secret, pfx, sum256 s.toList)

variable {sum256 : Bytes → Hash} {key : Bytes}

/-- The parts of an accepted key, put together again. -/
theorem parseKey_spelling {pfx : Bytes} {h : Hash} (hok : parseKey sum256 key = .ok (pfx, h)) :
    ∃ raw, keySecret key = some raw ∧ raw.length = secretBytes ∧ h = sum256 raw ∧
      key = keyScheme ++ pfx ++ [prefixSepByte] ++ Base64.encode raw := by
  unfold parseKey at hok
  split at hok
  · cases hok
  · rename_i hform
    push Not at hform
    obtain ⟨hlen, hscheme, hsep⟩ := hform
    split at hok
    · cases hok
    · split at hok
      · cases hok
      · rename_i raw hraw
        split at hok
        · cases hok
        · rename_i hsize
          push Not at hsize
          cases hok
          refine ⟨raw, hraw, hsize, rfl, ?_⟩
          have hfull : (key.drop 12).length = (4 * raw.length + 2) / 3 := by
            rw [List.length_drop, hlen, hsize]
            rfl
          have hsecret : key.drop 12 = Base64.encode raw := Base64.eq_encode_of_decode hraw hfull
          have hcut : key.drop 11 = prefixSepByte :: key.drop 12 := by
            rw [List.drop_eq_getElem?_toList_append, show key[11]? = some prefixSepByte from hsep]
            rfl
          calc key = key.take 3 ++ ((key.drop 3).take 8 ++ (key.drop 3).drop 8) := by
                rw [List.take_append_drop, List.take_append_drop]
            _ = keyScheme ++ (keyPrefix key ++ key.drop 11) := by
                rw [List.drop_drop, show key.take 3 = keyScheme from hscheme]
                rfl
            _ = keyScheme ++ keyPrefix key ++ [prefixSepByte] ++ Base64.encode raw := by
                simp [hcut, hsecret]

theorem hexDigit_valid {v : Nat} (h : v < 16) :
    (!((hexDigit v < 0x30 || hexDigit v > 0x39) && (hexDigit v < 0x61 || hexDigit v > 0x66)))
      = true := by
  have table : ∀ v < 16, (!((hexDigit v < 0x30 || hexDigit v > 0x39) &&
      (hexDigit v < 0x61 || hexDigit v > 0x66))) = true := by decide +kernel
  exact table v h

theorem length_hexEncode (bs : Bytes) : (hexEncode bs).length = 2 * bs.length := by
  simp [hexEncode, List.length_flatMap, Nat.mul_comm]

theorem validPrefix_hexEncode {bs : Bytes} (h : bs.length = prefixHexLen / 2) :
    validPrefix (hexEncode bs) = true := by
  have hlen : (hexEncode bs).length = prefixHexLen := by rw [length_hexEncode, h]; rfl
  simp only [validPrefix, hlen, beq_self_eq_true, Bool.true_and, List.all_eq_true]
  intro c hc
  obtain ⟨b, -, hb⟩ := List.mem_flatMap.mp hc
  have hlt := b.toNat_lt
  rcases List.mem_pair.mp hb with rfl | rfl
  · exact hexDigit_valid (by omega)
  · exact hexDigit_valid (by omega)

/-- The parts of a key of the right lengths. -/
theorem parseKey_parts (sum256 : Bytes → Hash) {pfx raw : Bytes} (hpfx : validPrefix pfx = true)
    (hraw : raw.length = secretBytes) :
    let key := keyScheme ++ pfx ++ [prefixSepByte] ++ Base64.encode raw
    keySecret key = some raw ∧ parseKey sum256 key = .ok (pfx, sum256 raw) := by
  intro key
  have hlen : pfx.length = 8 := by
    have := hpfx
    simp only [validPrefix, Bool.and_eq_true, beq_iff_eq] at this
    exact this.1
  have hkey : key = keyScheme ++ (pfx ++ prefixSepByte :: Base64.encode raw) := by
    simp [key]
  have hsize : key.length = keyLen := by
    simp [hkey, hlen, Base64.length_encode, hraw, keyLen, secretEncLen, prefixHexLen, secretBytes]
  have hdrop : key.drop 3 = pfx ++ prefixSepByte :: Base64.encode raw := by
    rw [hkey]
    rfl
  have hp : keyPrefix key = pfx := by
    rw [keyPrefix, show keyScheme.length = 3 from rfl, hdrop]
    exact List.take_left' hlen
  have hsep : key[11]? = some prefixSepByte := by
    rw [show 11 = 3 + 8 from rfl, ← List.getElem?_drop, hdrop, ← hlen]
    simp
  have hsecret : keySecret key = some raw := by
    have h12 : key.drop 12 = Base64.encode raw := by
      rw [show 12 = 3 + 9 from rfl, ← List.drop_drop, hdrop,
        show 9 = pfx.length + 1 by rw [hlen]]
      simp
    rw [keySecret]
    exact (congrArg _ h12).trans (Base64.decode_encode raw)
  refine ⟨hsecret, ?_⟩
  have hform : ¬(key.length ≠ keyLen ∨ key.take keyScheme.length ≠ keyScheme ∨
      key[keyScheme.length + prefixHexLen]? ≠ some prefixSepByte) := by
    simp only [not_or, not_not]
    refine ⟨hsize, ?_, hsep⟩
    rw [hkey]
    rfl
  rw [parseKey, if_neg hform, hp, hpfx, hsecret]
  simp [hraw]

/-- Two accepted texts with the same public part and the same secret bytes are one text, and what
`GenerateKey` writes is accepted as itself, whatever the random bytes. -/
theorem parseKey_one_spelling (sum256 : Bytes → Hash) :
    (∀ key key' pfx h h', parseKey sum256 key = .ok (pfx, h) →
      parseKey sum256 key' = .ok (pfx, h') → keySecret key = keySecret key' → key = key') ∧
    ∀ p s, let (plaintext, pfx, hash) := generateKey sum256 p s
      parseKey sum256 plaintext = .ok (pfx, hash) ∧
        keySecret plaintext = some s.toList ∧ hash = sum256 s.toList := by
  constructor
  · intro key key' pfx h h' hk hk' hsame
    obtain ⟨raw, hraw, -, -, hspell⟩ := parseKey_spelling hk
    obtain ⟨raw', hraw', -, -, hspell'⟩ := parseKey_spelling hk'
    rw [hraw, hraw', Option.some.injEq] at hsame
    rw [hspell, hspell', hsame]
  · intro p s
    have hpfx : validPrefix (hexEncode p.toList) = true :=
      validPrefix_hexEncode (Vector.length_toList ..)
    have hsize : s.toList.length = secretBytes := Vector.length_toList ..
    obtain ⟨hsecret, hparse⟩ := parseKey_parts sum256 hpfx hsize
    exact ⟨hparse, hsecret, rfl⟩

theorem one_spelling_zeros :
    let sum256 : Bytes → Bytes := fun _ => List.replicate 32 0
    ∃ key pfx, parseKey sum256 key = .ok (pfx, List.replicate 32 0) ∧
      keySecret key = some (List.replicate 32 0) ∧
      ¬∃ key', key' ≠ key ∧ parseKey sum256 key' = .ok (pfx, List.replicate 32 0) ∧
        keySecret key' = keySecret key := by
  intro sum256
  obtain ⟨hone, hgen⟩ := parseKey_one_spelling sum256
  obtain ⟨hparse, hsecret, -⟩ := hgen (Vector.replicate _ 0) (Vector.replicate _ 0)
  refine ⟨_, _, hparse, hsecret, ?_⟩
  rintro ⟨key', hne, hparse', hsecret'⟩
  exact hne (hone _ _ _ _ _ hparse' hparse hsecret')

end ServerFlow.Auth
