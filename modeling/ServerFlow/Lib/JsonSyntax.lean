import ServerFlow.Lib.JsonText

/-!
# The grammar of JSON

Every JSON text is the `text` of a tree of this module, with its white space, its escapes and its
numbers as they are written. Values, the items of an array and the members of an object are one
indexed family, so that a fact about texts is one induction. The items of an array and the members
of an object are never empty: a pair of brackets with nothing but white space in it has a
constructor of its own.
-/

namespace JsonSyntax

open JsonText List

/-! ### Strings and numbers -/

/-- A character of a string, as it is written. -/
inductive Piece
  | plain (b : UInt8)
  /-- A backslash and one character. -/
  | esc (c : UInt8)
  /-- Four hexadecimal digits. -/
  | uni (a b c d : UInt8)

def Piece.text : Piece → Bytes
  | .plain b => [b]
  | .esc c => [backslash, c]
  | .uni a b c d => [backslash, 0x75, a, b, c, d]

def Piece.ok : Piece → Bool
  | .plain b => decide (0x20 ≤ b.toNat ∧ b ≠ dquote ∧ b ≠ backslash)
  | .esc c => decide (c ∈ [dquote, backslash, 0x2F, 0x62, 0x66, 0x6E, 0x72, 0x74])
  | .uni a b c d => [a, b, c, d].all fun h => (hexVal h).isSome

def Piece.isPlain : Piece → Bool
  | .plain _ => true
  | _ => false

/-- What is between the quotes. -/
def body (ps : List Piece) : Bytes := ps.flatMap Piece.text

structure Numeral where
  neg : Bool
  int : Bytes
  frac : Bytes
  exp : Bytes

def Numeral.text (n : Numeral) : Bytes :=
  (if n.neg then [minus] else []) ++ (n.int ++ (n.frac ++ n.exp))

def digitsOk (ds : Bytes) : Bool := !ds.isEmpty && ds.all isDigit

def fracOk : Bytes → Bool
  | [] => true
  | b :: ds => decide (b = 0x2E) && digitsOk ds

def expOk : Bytes → Bool
  | [] => true
  | b :: s => decide (b = 0x65 ∨ b = 0x45) && digitsOk (expSign s).2

/-- No zero in front of other digits. -/
def Numeral.ok (n : Numeral) : Bool :=
  digitsOk n.int && (decide (n.int.head? ≠ some 48) || decide (n.int.length = 1)) && fracOk n.frac
    && expOk n.exp

/-- The number, if it is written without a sign, a fraction and an exponent. -/
def Numeral.plain (n : Numeral) : Option Nat :=
  if n.neg = false ∧ n.frac = [] ∧ n.exp = [] then some (readNat n.int) else none

/-! ### Trees -/

inductive Kind
  | value
  | items
  | fields

inductive Syn : Kind → Type
  /-- `true`, `false` or `null`. -/
  | word (t : Bytes) : Syn .value
  | num (n : Numeral) : Syn .value
  | str (ps : List Piece) : Syn .value
  | emptyArr (ws : Bytes) : Syn .value
  | arr (es : Syn .items) : Syn .value
  | emptyObj (ws : Bytes) : Syn .value
  | obj (ms : Syn .fields) : Syn .value
  | lastItem (pre : Bytes) (v : Syn .value) (post : Bytes) : Syn .items
  | item (pre : Bytes) (v : Syn .value) (post : Bytes) (rest : Syn .items) : Syn .items
  | lastField (pre : Bytes) (name : List Piece) (mid lead : Bytes) (v : Syn .value)
    (post : Bytes) : Syn .fields
  | field (pre : Bytes) (name : List Piece) (mid lead : Bytes) (v : Syn .value) (post : Bytes)
    (rest : Syn .fields) :
      Syn .fields

namespace Syn

def text : {k : Kind} → Syn k → Bytes
  | _, .word t => t
  | _, .num n => n.text
  | _, .str ps => dquote :: (body ps ++ [dquote])
  | _, .emptyArr ws => openBracket :: (ws ++ [closeBracket])
  | _, .arr es => openBracket :: (es.text ++ [closeBracket])
  | _, .emptyObj ws => openBrace :: (ws ++ [closeBrace])
  | _, .obj ms => openBrace :: (ms.text ++ [closeBrace])
  | _, .lastItem pre v post => pre ++ (v.text ++ post)
  | _, .item pre v post rest => pre ++ (v.text ++ (post ++ comma :: rest.text))
  | _, .lastField pre name mid lead v post =>
    pre ++ dquote :: (body name ++ dquote :: (mid ++ colon :: (lead ++ (v.text ++ post))))
  | _, .field pre name mid lead v post rest =>
    pre ++ dquote :: (body name ++ dquote ::
      (mid ++ colon :: (lead ++ (v.text ++ (post ++ comma :: rest.text)))))

def blank (ws : Bytes) : Bool := ws.all isSpace

/-- The tree is one of the grammar. -/
def wf : {k : Kind} → Syn k → Bool
  | _, .word t => decide (t ∈ [bytesOf "true", bytesOf "false", bytesOf "null"])
  | _, .num n => n.ok
  | _, .str ps => ps.all Piece.ok
  | _, .emptyArr ws => blank ws
  | _, .arr es => es.wf
  | _, .emptyObj ws => blank ws
  | _, .obj ms => ms.wf
  | _, .lastItem pre v post => blank pre && v.wf && blank post
  | _, .item pre v post rest => blank pre && v.wf && blank post && rest.wf
  | _, .lastField pre name mid lead v post =>
    blank pre && name.all Piece.ok && blank mid && blank lead && v.wf && blank post
  | _, .field pre name mid lead v post rest =>
    blank pre && name.all Piece.ok && blank mid && blank lead && v.wf && blank post && rest.wf

/-- No member name has an escape. -/
def plainNames : {k : Kind} → Syn k → Bool
  | _, .arr es => es.plainNames
  | _, .obj ms => ms.plainNames
  | _, .lastItem _ v _ => v.plainNames
  | _, .item _ v _ rest => v.plainNames && rest.plainNames
  | _, .lastField _ name _ _ v _ => name.all Piece.isPlain && v.plainNames
  | _, .field _ name _ _ v _ rest => name.all Piece.isPlain && v.plainNames && rest.plainNames
  | _, _ => true

def isObject : {k : Kind} → Syn k → Bool
  | _, .emptyObj _ => true
  | _, .obj _ => true
  | _, _ => false

/-- The values of the members with a name, at any depth, in the order of the text. -/
def membersNamed (name : Bytes) : {k : Kind} → Syn k → List (Syn .value)
  | _, .arr es => es.membersNamed name
  | _, .obj ms => ms.membersNamed name
  | _, .lastItem _ v _ => v.membersNamed name
  | _, .item _ v _ rest => v.membersNamed name ++ rest.membersNamed name
  | _, .lastField _ n _ _ v _ => (if body n = name then [v] else []) ++ v.membersNamed name
  | _, .field _ n _ _ v _ rest =>
    (if body n = name then [v] else []) ++ (v.membersNamed name ++ rest.membersNamed name)
  | _, _ => []

/-- The strings that are values, at any depth, in the order of the text. -/
def strings : {k : Kind} → Syn k → List (List Piece)
  | _, .str ps => [ps]
  | _, .arr es => es.strings
  | _, .obj ms => ms.strings
  | _, .lastItem _ v _ => v.strings
  | _, .item _ v _ rest => v.strings ++ rest.strings
  | _, .lastField _ _ _ _ v _ => v.strings
  | _, .field _ _ _ _ v _ rest => v.strings ++ rest.strings
  | _, _ => []

end Syn

/-! ### The bytes of a text -/

/-- Bytes that are neither a quote nor a brace. -/
def neutral (b : UInt8) : Bool := decide (b ≠ dquote ∧ b ≠ openBrace ∧ b ≠ closeBrace)

theorem isDigit_neutral {b : UInt8} (h : isDigit b = true) : neutral b = true := by
  have hrange := of_decide_eq_true h
  refine decide_eq_true ⟨?_, ?_, ?_⟩ <;> rintro rfl <;> revert hrange <;> decide

theorem isSpace_neutral {b : UInt8} (h : isSpace b = true) : neutral b = true := by
  rcases of_decide_eq_true h with rfl | rfl | rfl | rfl <;> decide

theorem digitsOk_neutral {ds : Bytes} (h : digitsOk ds = true) : ∀ b ∈ ds, neutral b = true := by
  unfold digitsOk at h
  rw [Bool.and_eq_true, all_eq_true] at h
  exact fun b hb => isDigit_neutral (h.2 b hb)

theorem fracOk_neutral {s : Bytes} (h : fracOk s = true) : ∀ b ∈ s, neutral b = true := by
  cases s with
  | nil => exact fun b hb => absurd hb not_mem_nil
  | cons c ds =>
    unfold fracOk at h
    rw [Bool.and_eq_true, decide_eq_true_eq] at h
    intro b hb
    rcases mem_cons.mp hb with rfl | hb
    · rw [h.1]
      decide
    · exact digitsOk_neutral h.2 b hb

theorem expSign_neutral {s : Bytes} (h : ∀ b ∈ (expSign s).2, neutral b = true) :
    ∀ b ∈ s, neutral b = true := by
  cases s with
  | nil => exact fun b hb => absurd hb not_mem_nil
  | cons c s =>
    simp only [expSign] at h
    split at h
    next hsign =>
      intro b hb
      rcases mem_cons.mp hb with rfl | hb
      · rcases hsign with rfl | rfl <;> decide
      · exact h b hb
    next => exact h

theorem expOk_neutral {s : Bytes} (h : expOk s = true) : ∀ b ∈ s, neutral b = true := by
  cases s with
  | nil => exact fun b hb => absurd hb not_mem_nil
  | cons c s =>
    unfold expOk at h
    rw [Bool.and_eq_true, decide_eq_true_eq] at h
    intro b hb
    rcases mem_cons.mp hb with rfl | hb
    · rcases h.1 with rfl | rfl <;> decide
    · exact expSign_neutral (digitsOk_neutral h.2) b hb

section Numerals

variable {n : Numeral}

theorem Numeral.ok_parts (h : n.ok = true) :
    digitsOk n.int = true ∧ (n.int.head? ≠ some 48 ∨ n.int.length = 1) ∧ fracOk n.frac = true ∧
      expOk n.exp = true := by
  unfold Numeral.ok at h
  rw [Bool.and_eq_true, Bool.and_eq_true, Bool.and_eq_true, Bool.or_eq_true, decide_eq_true_eq,
    decide_eq_true_eq] at h
  exact ⟨h.1.1.1, h.1.1.2, h.1.2, h.2⟩

theorem Numeral.text_neutral (h : n.ok = true) : ∀ b ∈ n.text, neutral b = true := by
  obtain ⟨hint, -, hfrac, hexp⟩ := Numeral.ok_parts h
  intro b hb
  unfold Numeral.text at hb
  rcases mem_append.mp hb with hb | hb
  · split at hb
    · rw [mem_singleton.mp hb]
      decide
    · exact absurd hb not_mem_nil
  · rcases mem_append.mp hb with hb | hb
    · exact digitsOk_neutral hint b hb
    · rcases mem_append.mp hb with hb | hb
      · exact fracOk_neutral hfrac b hb
      · exact expOk_neutral hexp b hb

/-- A number starts with a digit or a minus sign. -/
theorem Numeral.text_head (h : n.ok = true) :
    ∃ b s, n.text = b :: s ∧ (b = minus ∧ n.neg = true ∨ isDigit b = true ∧ n.neg = false) := by
  obtain ⟨hint, -⟩ := Numeral.ok_parts h
  unfold Numeral.text
  cases hneg : n.neg with
  | true => exact ⟨minus, n.int ++ (n.frac ++ n.exp), rfl, .inl ⟨rfl, rfl⟩⟩
  | false =>
    unfold digitsOk at hint
    rw [Bool.and_eq_true, all_eq_true] at hint
    cases hds : n.int with
    | nil =>
      rw [hds] at hint
      exact absurd hint.1 (by decide)
    | cons d ds =>
      refine ⟨d, ds ++ (n.frac ++ n.exp), rfl, .inr ⟨hint.2 d ?_, rfl⟩⟩
      rw [hds]
      exact mem_cons_self

end Numerals

/-- White space, a colon, or what ends a value: the bytes that can follow a string. -/
def punct (b : UInt8) : Bool :=
  isSpace b || decide (b = colon ∨ b = comma ∨ b = closeBracket ∨ b = closeBrace)

/-- A value starts with a byte that cannot follow a string, and only an object starts with a
brace. -/
theorem Syn.text_head {v : Syn .value} (h : v.wf = true) :
    ∃ b s, v.text = b :: s ∧ punct b = false ∧ (b = openBrace ↔ v.isObject = true) := by
  cases v with
  | word t =>
    simp only [Syn.wf, decide_eq_true_eq, mem_cons, not_mem_nil, or_false] at h
    rcases h with rfl | rfl | rfl
    · exact ⟨_, _, rfl, by decide, by decide⟩
    · exact ⟨_, _, rfl, by decide, by decide⟩
    · exact ⟨_, _, rfl, by decide, by decide⟩
  | num n =>
    obtain ⟨b, s, htext, hb⟩ := Numeral.text_head h
    refine ⟨b, s, htext, ?_⟩
    rcases hb with ⟨rfl, -⟩ | ⟨hdigit, -⟩
    · exact ⟨by decide, iff_of_false (by decide) Bool.false_ne_true⟩
    · have hrange := of_decide_eq_true hdigit
      have hne : ∀ c : UInt8, (c.toNat < 48 ∨ 57 < c.toNat) → b ≠ c := by
        rintro c hc rfl
        omega
      refine ⟨?_, iff_of_false (hne _ (by decide)) Bool.false_ne_true⟩
      unfold punct isSpace
      rw [Bool.or_eq_false_iff, decide_eq_false_iff_not, decide_eq_false_iff_not]
      refine ⟨?_, ?_⟩
      · rintro (hb | hb | hb | hb) <;> exact hne _ (by decide) hb
      · rintro (hb | hb | hb | hb) <;> exact hne _ (by decide) hb
  | str ps => exact ⟨dquote, _, rfl, by decide, iff_of_false (by decide) Bool.false_ne_true⟩
  | emptyArr ws =>
    exact ⟨openBracket, _, rfl, by decide, iff_of_false (by decide) Bool.false_ne_true⟩
  | arr es => exact ⟨openBracket, _, rfl, by decide, iff_of_false (by decide) Bool.false_ne_true⟩
  | emptyObj ws => exact ⟨openBrace, _, rfl, by decide, iff_of_true rfl rfl⟩
  | obj ms => exact ⟨openBrace, _, rfl, by decide, iff_of_true rfl rfl⟩

end JsonSyntax
