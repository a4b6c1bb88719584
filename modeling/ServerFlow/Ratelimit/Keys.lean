import Mathlib

/-!
# Ratelimit.Keys

The Redis key layout of the rate limiter (`internal/ratelimit/keys.go`):

* `rl:{<tenant>}:req`, `rl:{<tenant>}:tok`, `rl:{<tenant>}:conc` for a tenant;
* `rl:model:{<model>}` for a capped model.

Names are arbitrary byte strings and are percent-escaped. The result of the module is
`key_injective`: a key determines both its kind and the name it was made from. The
argument is that an escaped name is a prefix code (`escapeKeyPart_injective`) that
never contains a closing brace (`brace_notMem_escapeKeyPart`), so the first closing
brace of a key ends the name.
-/

namespace ServerFlow.Ratelimit

open List

/-- A Go string: any sequence of bytes. -/
abbrev Bytes := List UInt8

/-- The upper-case hexadecimal digit of a nibble, as `%X` prints it. -/
def hexDigit (n : UInt8) : UInt8 := if n < 10 then 0x30 + n else 0x37 + n

/-- The bytes that may not appear literally in a key: control characters and space,
everything from `DEL` on, `{`, `}` and `%`. -/
def mustEscape (c : UInt8) : Bool :=
  c < 0x21 || c > 0x7e || c == 0x7b || c == 0x7d || c == 0x25

/-- One byte of a name: itself, or `%XX`. -/
def escapeByte (c : UInt8) : Bytes :=
  if mustEscape c then [0x25, hexDigit (c / 16), hexDigit (c % 16)] else [c]

/-- Percent-encode a tenant or model name. -/
def escapeKeyPart (s : Bytes) : Bytes := s.flatMap escapeByte

/-- `rl:{<tenant>}:req`. -/
def keyRequests (tenant : Bytes) : Bytes :=
  [0x72, 0x6c, 0x3a, 0x7b] ++ escapeKeyPart tenant ++ [0x7d, 0x3a, 0x72, 0x65, 0x71]

/-- `rl:{<tenant>}:tok`. -/
def keyTokens (tenant : Bytes) : Bytes :=
  [0x72, 0x6c, 0x3a, 0x7b] ++ escapeKeyPart tenant ++ [0x7d, 0x3a, 0x74, 0x6f, 0x6b]

/-- `rl:{<tenant>}:conc`. -/
def keyConcurrency (tenant : Bytes) : Bytes :=
  [0x72, 0x6c, 0x3a, 0x7b] ++ escapeKeyPart tenant ++ [0x7d, 0x3a, 0x63, 0x6f, 0x6e, 0x63]

/-- `rl:model:{<model>}`. -/
def keyModel (model : Bytes) : Bytes :=
  [0x72, 0x6c, 0x3a, 0x6d, 0x6f, 0x64, 0x65, 0x6c, 0x3a, 0x7b] ++ escapeKeyPart model ++ [0x7d]

/-- The placeholder `rl:model:{}` sent when the model has no cap. -/
def keyModelUnused : Bytes := [0x72, 0x6c, 0x3a, 0x6d, 0x6f, 0x64, 0x65, 0x6c, 0x3a, 0x7b, 0x7d]

/-- What a key stores. -/
inductive KeyKind
  | requests
  | tokens
  | concurrency
  | model
  deriving Repr, DecidableEq

/-- The key of a kind for a tenant or model name. -/
def KeyKind.key : KeyKind → Bytes → Bytes
  | requests => keyRequests
  | tokens => keyTokens
  | concurrency => keyConcurrency
  | model => keyModel

/-! ### Escaping is a prefix code without braces -/

/-- The byte two hexadecimal digits were printed from. -/
def unhex (hi lo : UInt8) : UInt8 :=
  (if hi < 0x3a then hi - 0x30 else hi - 0x37) * 16 + (if lo < 0x3a then lo - 0x30 else lo - 0x37)

theorem unhex_hexDigit : ∀ c : UInt8, unhex (hexDigit (c / 16)) (hexDigit (c % 16)) = c := by
  decide +kernel

theorem brace_notMem_escapeByte : ∀ c : UInt8, 0x7d ∉ escapeByte c := by
  decide +kernel

/-- An unescaped byte is never the percent sign that starts an escape. -/
theorem ne_percent_of_not_mustEscape {c : UInt8} (h : mustEscape c = false) : c ≠ 0x25 := by
  rintro rfl
  simp [mustEscape] at h

/-- Escaped bytes form a prefix code: the first byte of two equal encodings is the same,
and so is what follows. -/
theorem escapeByte_append_inj {c d : UInt8} {s t : Bytes}
    (h : escapeByte c ++ s = escapeByte d ++ t) : c = d ∧ s = t := by
  unfold escapeByte at h
  cases hc : mustEscape c <;> cases hd : mustEscape d <;>
    simp only [hc, hd, Bool.false_eq_true, if_true, if_false, cons_append, nil_append,
      List.cons.injEq] at h
  · exact h
  · exact absurd h.1 (ne_percent_of_not_mustEscape hc)
  · exact absurd h.1.symm (ne_percent_of_not_mustEscape hd)
  · obtain ⟨-, hhi, hlo, hst⟩ := h
    refine ⟨?_, hst⟩
    rw [← unhex_hexDigit c, ← unhex_hexDigit d, hhi, hlo]

theorem escapeByte_ne_nil (c : UInt8) : escapeByte c ≠ [] := by
  unfold escapeByte
  split <;> simp

/-- Distinct names have distinct encodings. -/
theorem escapeKeyPart_injective : Function.Injective escapeKeyPart := by
  intro s
  induction s with
  | nil =>
    intro t h
    cases t with
    | nil => rfl
    | cons d t =>
      simp only [escapeKeyPart, flatMap_nil, flatMap_cons] at h
      exact absurd (append_eq_nil_iff.mp h.symm).1 (escapeByte_ne_nil d)
  | cons c s ih =>
    intro t h
    cases t with
    | nil =>
      simp only [escapeKeyPart, flatMap_nil, flatMap_cons] at h
      exact absurd (append_eq_nil_iff.mp h).1 (escapeByte_ne_nil c)
    | cons d t =>
      obtain ⟨rfl, hst⟩ := escapeByte_append_inj h
      rw [ih hst]

theorem brace_notMem_escapeKeyPart (s : Bytes) : 0x7d ∉ escapeKeyPart s := by
  intro h
  obtain ⟨c, -, hc⟩ := mem_flatMap.mp h
  exact brace_notMem_escapeByte c hc

/-! ### Keys are disjoint -/

/-- In two equal strings `name } suffix`, the names and the suffixes are the same. -/
theorem escapeKeyPart_brace_inj {s t x y : Bytes} (hx : 0x7d ∉ x)
    (h : escapeKeyPart s ++ 0x7d :: x = escapeKeyPart t ++ 0x7d :: y) : s = t ∧ x = y := by
  obtain ⟨hst, -, hxy⟩ :=
    (append_cons_inj_of_notMem (brace_notMem_escapeKeyPart s) hx).mp h
  exact ⟨escapeKeyPart_injective hst, hxy⟩

/-- The part of a tenant key that follows the name. -/
def KeyKind.suffix : KeyKind → Bytes
  | requests => [0x3a, 0x72, 0x65, 0x71]
  | tokens => [0x3a, 0x74, 0x6f, 0x6b]
  | concurrency => [0x3a, 0x63, 0x6f, 0x6e, 0x63]
  | model => []

theorem KeyKind.key_tenant {k : KeyKind} (h : k ≠ .model) (s : Bytes) :
    k.key s = [0x72, 0x6c, 0x3a, 0x7b] ++ (escapeKeyPart s ++ 0x7d :: k.suffix) := by
  cases k <;>
    simp [key, suffix, keyRequests, keyTokens, keyConcurrency] at h ⊢

theorem KeyKind.key_model (s : Bytes) :
    KeyKind.model.key s = [0x72, 0x6c, 0x3a, 0x6d, 0x6f, 0x64, 0x65, 0x6c, 0x3a, 0x7b] ++
      (escapeKeyPart s ++ 0x7d :: KeyKind.model.suffix) := by
  simp [key, suffix, keyModel]

/-- A key of a tenant is never the key of a model: they differ in the fourth byte. -/
theorem KeyKind.key_tenant_ne_model {k : KeyKind} (h : k ≠ .model) (s t : Bytes) :
    k.key s ≠ KeyKind.model.key t := by
  rw [key_tenant h, key_model]
  simp

/-- **Keys do not collide**: a key determines its kind and the name in it. -/
theorem KeyKind.key_injective (k k' : KeyKind) {s t : Bytes} (h : k.key s = k'.key t) :
    k = k' ∧ s = t := by
  have hsuffix : ∀ k : KeyKind, 0x7d ∉ k.suffix := by
    intro k
    cases k <;> decide
  by_cases hk : k = .model <;> by_cases hk' : k' = .model
  · subst hk hk'
    rw [key_model, key_model] at h
    exact ⟨rfl, (escapeKeyPart_brace_inj (hsuffix _) (append_cancel_left h)).1⟩
  · subst hk
    exact absurd h.symm (key_tenant_ne_model hk' t s)
  · subst hk'
    exact absurd h (key_tenant_ne_model hk s t)
  · rw [key_tenant hk, key_tenant hk'] at h
    obtain ⟨hst, hsuf⟩ := escapeKeyPart_brace_inj (hsuffix _) (append_cancel_left h)
    refine ⟨?_, hst⟩
    revert hsuf
    cases k <;> cases k' <;> simp [suffix]

end ServerFlow.Ratelimit
