import ServerFlow.Lib.JsonText
import ServerFlow.Lib.Occurs

/-!
# Gateway.TokenScanner

The token scanner of the gateway (`internal/gateway/tokens.go`): it sees a response piece by piece
and keeps the last bytes and the number of chunks with content.

A key counts when the byte after it has arrived and is no quote (`live`). A piece brings the bytes
after some keys: those that began in the carry and those inside the piece, and a key is looked at
exactly once (`liveBelow_feed`). What can go wrong is the search, which goes on after a key that it
found: the key's last quote can be the first one of the next key, and that one is then missed, or
not, depending on where the search began. Both are live only if the doubled key is followed by a
byte that is no quote.

The carry is the bytes of it that are in use, and the counter has no upper bound.
-/

namespace ServerFlow.Gateway

open List
open JsonText (Bytes bytesOf dquote)

variable {b : Bytes} {p : Nat}

def tokenWindow : Nat := 2048

def contentKey : Bytes := bytesOf "\"content\":\""

def contentKeyLen : Nat := contentKey.length

/-- The loop of `countKeys`, from `pos` on. Every round moves past a key, so the length of the text
bounds them. -/
def countKeysFrom (b : Bytes) (limit : Nat) : Nat → Nat → Nat → Nat
  | 0, _, n => n
  | fuel + 1, pos, n =>
    match Occurs.index contentKey (b.drop pos) with
    | none => n
    | some i =>
      let start := pos + i
      if start ≥ limit then n
      else
        let after := start + contentKeyLen
        countKeysFrom b limit fuel after
          (if (b[after]?).any fun c => decide (c ≠ dquote) then n + 1 else n)

/-- `countKeys`. -/
def countKeys (b : Bytes) (limit : Nat) : Nat := countKeysFrom b limit (b.length + 1) 0 0

structure TokenScanner where
  /-- The last bytes seen, at most `tokenWindow`. -/
  tail : Bytes
  carry : Bytes
  chunks : Nat

def TokenScanner.zero : TokenScanner := ⟨[], [], 0⟩

/-- The window after a piece. -/
def slide (tail b : Bytes) : Bytes :=
  if b.length ≥ tokenWindow then b.drop (b.length - tokenWindow)
  else
    let surplus := tail.length + b.length - tokenWindow
    (if surplus > 0 then tail.drop surplus else tail) ++ b

/-- The carry and the start of the piece, in an array of twice the key's length. -/
def headOf (carry b : Bytes) : Bytes :=
  (carry ++ b.take (min b.length (contentKeyLen + 1))).take (2 * contentKeyLen)

/-- The carry after a piece. -/
def carryOver (carry b : Bytes) : Bytes :=
  if b.length ≥ contentKeyLen then b.drop (b.length - contentKeyLen)
  else
    let all := carry ++ b
    all.drop (all.length - contentKeyLen)

/-- `feed`. -/
def TokenScanner.feed (t : TokenScanner) (b : Bytes) : TokenScanner :=
  if b.length = 0 then t
  else
    let began := if t.carry.length > 0 then countKeys (headOf t.carry b) t.carry.length else 0
    { tail := slide t.tail b
      carry := carryOver t.carry b
      chunks := t.chunks + began + countKeys b b.length }

/-- The pieces of a response, in order. -/
def TokenScanner.feedAll (t : TokenScanner) (pieces : List Bytes) : TokenScanner :=
  pieces.foldl TokenScanner.feed t

theorem TokenScanner.feedAll_cons (t : TokenScanner) (b : Bytes) (pieces : List Bytes) :
    t.feedAll (b :: pieces) = (t.feed b).feedAll pieces := rfl

theorem TokenScanner.feed_of_ne {t : TokenScanner} (hb : b.length ≠ 0) :
    (t.feed b).chunks =
      t.chunks + (if t.carry.length > 0 then countKeys (headOf t.carry b) t.carry.length else 0) +
        countKeys b b.length := by
  unfold TokenScanner.feed
  rw [if_neg hb]

/-! ### Live keys -/

/-- A key at the start, followed by a byte that is no quote. -/
def liveHere (w : Bytes) : Bool :=
  decide (contentKey <+: w) && (w[contentKeyLen]?).any fun c => decide (c ≠ dquote)

def live (b : Bytes) (p : Nat) : Bool := liveHere (b.drop p)

/-- The live keys that start in `lo … hi`. -/
def liveIn (b : Bytes) (lo hi : Nat) : Nat := ∑ p ∈ Finset.Ico lo hi, (live b p).toNat

theorem liveHere_iff {w : Bytes} :
    liveHere w = true ↔ contentKey <+: w ∧ ∃ c, w[contentKeyLen]? = some c ∧ c ≠ dquote := by
  unfold liveHere
  rw [Bool.and_eq_true, decide_eq_true_eq, Option.any_eq_true]
  simp only [decide_eq_true_eq]

theorem live_iff :
    live b p = true ↔ contentKey <+: b.drop p ∧ ∃ c, b[p + contentKeyLen]? = some c ∧
      c ≠ dquote := by
  unfold live
  rw [liveHere_iff, List.getElem?_drop]

/-- Only the key and the byte after it matter. -/
theorem liveHere_take (w : Bytes) {n : Nat} (hn : contentKeyLen < n) :
    liveHere (w.take n) = liveHere w := by
  have hpre : contentKey <+: w.take n ↔ contentKey <+: w := by
    rw [prefix_take_iff]
    exact and_iff_left hn.le
  unfold liveHere
  rw [List.getElem?_take_of_lt hn, decide_eq_decide.mpr hpre]

/-- Two keys that overlap share one quote. -/
theorem overlap_eq {w : Bytes} {d : Nat} (h : contentKey <+: w) (h' : contentKey <+: w.drop d)
    (hpos : 0 < d) (hd : d < contentKeyLen) : d = 10 := by
  have heq := Occurs.drop_eq_take_of_overlap h h'
  have hall : ∀ d < contentKeyLen, 0 < d →
      contentKey.drop d = contentKey.take (contentKey.length - d) → d = 10 := by
    decide
  exact hall d hd hpos heq

/-- The first of two overlapping keys is live. -/
theorem live_of_overlap (h : contentKey <+: b.drop p) (h' : contentKey <+: b.drop (p + 10)) :
    live b p = true := by
  refine live_iff.mpr ⟨h, 0x63, ?_, by decide⟩
  obtain ⟨t, ht⟩ := h'
  have hget : (b.drop (p + 10))[1]? = some 0x63 := by
    rw [← ht]
    rfl
  rwa [List.getElem?_drop] at hget

/-! ### The search -/

/-- No key is missed by a search that goes on after the key before it. -/
def Clean (b : Bytes) : Prop := ∀ p, contentKey <+: b.drop p → live b (p + 10) = false

section Search

variable {b : Bytes} {limit : Nat}

theorem liveIn_eq_zero {lo hi : Nat} (h : ∀ p, lo ≤ p → p < hi → live b p = false) :
    liveIn b lo hi = 0 := by
  refine Finset.sum_eq_zero fun p hp => ?_
  rw [Finset.mem_Ico] at hp
  rw [h p hp.1 hp.2]
  rfl

theorem liveIn_split {lo m hi : Nat} (h : lo ≤ m) (h' : m ≤ hi) :
    liveIn b lo hi = liveIn b lo m + liveIn b m hi := (Finset.sum_Ico_consecutive _ h h').symm

/-- What is left to count after the key at `start`: only the next position that can overlap is in
between. -/
theorem liveIn_after_key {pos start : Nat} (hpos : pos ≤ start) (hlim : start < limit)
    (hkey : contentKey <+: b.drop start)
    (hnone : ∀ p, pos ≤ p → p < start → ¬ contentKey <+: b.drop p) :
    liveIn b pos limit = (live b start).toNat +
      (if start + 10 < limit then (live b (start + 10)).toNat else 0) + liveIn b
        (start + 11) limit := by
  have hdead : ∀ p, ¬ contentKey <+: b.drop p → live b p = false := by
    intro p hp
    rw [Bool.eq_false_iff]
    intro hlive
    exact hp (live_iff.mp hlive).1
  have hgap : ∀ p, start + 1 ≤ p → p < start + 10 → live b p = false := by
    intro p hlo hhi
    refine hdead p fun hp => ?_
    have hp' : contentKey <+: (b.drop start).drop (p - start) := by
      rw [drop_drop, Nat.add_sub_cancel' (by omega)]
      exact hp
    have := overlap_eq hkey hp' (by omega) (show p - start < 11 by omega)
    omega
  have hfirst : liveIn b pos limit = (live b start).toNat + liveIn b (start + 1) limit := by
    rw [liveIn_split hpos hlim.le, liveIn_eq_zero fun p hlo hhi => hdead p (hnone p hlo hhi),
      Nat.zero_add]
    exact Finset.sum_eq_sum_Ico_succ_bot hlim _
  rw [hfirst, Nat.add_assoc, Nat.add_left_cancel_iff]
  by_cases hten : start + 10 < limit
  · rw [if_pos hten, liveIn_split (m := start + 10) (by omega) hten.le, liveIn_eq_zero hgap,
      Nat.zero_add]
    exact Finset.sum_eq_sum_Ico_succ_bot hten _
  · rw [if_neg hten, Nat.zero_add, liveIn_eq_zero fun p hlo hhi => hgap p hlo (by omega)]
    rw [liveIn_eq_zero fun p hlo hhi => absurd hhi (by omega)]

/-- One round: no key is left, or the next one is counted if it is live. -/
theorem countKeysFrom_succ (limit fuel pos n : Nat) :
    (countKeysFrom b limit (fuel + 1) pos n = n ∧ ∀ p, pos ≤ p → p < limit →
      ¬ contentKey <+: b.drop p) ∨
      ∃ start, pos ≤ start ∧ start < limit ∧ contentKey <+: b.drop start ∧
        (∀ p, pos ≤ p → p < start → ¬ contentKey <+: b.drop p) ∧
        countKeysFrom b limit (fuel + 1) pos n =
          countKeysFrom b limit fuel (start + 11) (n + (live b start).toNat) := by
  rw [countKeysFrom]
  cases hindex : Occurs.index contentKey (b.drop pos) with
  | none =>
    refine .inl ⟨rfl, fun p hp _ => ?_⟩
    have := Occurs.index_none (by decide) hindex (p - pos)
    rwa [drop_drop, Nat.add_sub_cancel' hp] at this
  | some i =>
    obtain ⟨hkey, hbefore⟩ := Occurs.index_some hindex
    rw [drop_drop] at hkey
    have hnone : ∀ p, pos ≤ p → p < pos + i → ¬ contentKey <+: b.drop p := by
      intro p hlo hhi
      have := hbefore (p - pos) (by omega)
      rwa [drop_drop, Nat.add_sub_cancel' hlo] at this
    dsimp only
    by_cases hlim : pos + i ≥ limit
    · rw [if_pos hlim]
      exact .inl ⟨rfl, fun p hlo hhi => hnone p hlo (hhi.trans_le hlim)⟩
    · rw [if_neg hlim]
      refine .inr ⟨pos + i, Nat.le_add_right _ _, Nat.lt_of_not_le hlim, hkey, hnone, ?_⟩
      have hlive : live b (pos + i) = (b[pos + i + contentKeyLen]?).any fun c =>
          decide (c ≠ dquote) := by
        unfold live liveHere
        rw [decide_eq_true hkey, Bool.true_and, List.getElem?_drop]
      rw [← hlive]
      cases live b (pos + i) <;> rfl

/-- What a search from `pos` has counted, `r` starting from `n`. -/
structure Counted (b : Bytes) (limit pos n r : Nat) : Prop where
  le : r ≤ n + liveIn b pos limit
  clean : Clean b → r = n + liveIn b pos limit
  missed : ∀ p, pos ≤ p → p + 10 < limit → contentKey <+: b.drop p → live b (p + 10) = true →
    r < n + liveIn b pos limit

theorem Counted.none {pos n : Nat} (h : ∀ p, pos ≤ p → p < limit → ¬ contentKey <+: b.drop p) :
    Counted b limit pos n n := by
  have hzero : liveIn b pos limit = 0 := by
    refine liveIn_eq_zero fun p hlo hhi => ?_
    rw [Bool.eq_false_iff]
    intro hlive
    exact h p hlo hhi (live_iff.mp hlive).1
  refine ⟨Nat.le_add_right _ _, fun _ => by rw [hzero, Nat.add_zero], fun p hlo hhi hkey => ?_⟩
  exact absurd hkey (h p hlo (by omega))

theorem countKeysFrom_counted {fuel pos : Nat} (hfuel : b.length < pos + fuel) (n : Nat) :
    Counted b limit pos n (countKeysFrom b limit fuel pos n) := by
  induction fuel generalizing pos n with
  | zero =>
    refine Counted.none fun p hlo _ => ?_
    exact Occurs.not_prefix_of_length_le (by decide) (by omega)
  | succ fuel ih =>
    rcases countKeysFrom_succ (b := b) limit fuel pos n with ⟨heq, hnone⟩ |
      ⟨start, hpos, hlim, hkey, hnone, heq⟩
    · rw [heq]
      exact .none hnone
    · rw [heq]
      have hsum := liveIn_after_key hpos hlim hkey hnone
      have hrest : b.length < start + 11 + fuel := by omega
      obtain ⟨hle, hclean, hmissed⟩ := ih hrest (n + (live b start).toNat)
      refine ⟨by omega, fun hb => ?_, fun p hlo hhi hp hlive => ?_⟩
      · rw [hclean hb, hsum, hb start hkey]
        simp only [Bool.toNat_false, ite_self]
        omega
      · -- the pair is at `start`, overlaps the key there, or lies beyond it
        have hge : start ≤ p := by
          by_contra hlt
          exact hnone p hlo (Nat.lt_of_not_le hlt) hp
        by_cases hat : p = start
        · subst hat
          rw [if_pos hhi, hlive, Bool.toNat_true] at hsum
          omega
        · by_cases hover : p < start + 11
          · have hp' : contentKey <+: (b.drop start).drop (p - start) := by
              rw [drop_drop, Nat.add_sub_cancel' hge]
              exact hp
            have hten := overlap_eq hkey hp' (by omega) (show p - start < 11 by omega)
            obtain rfl : p = start + 10 := by omega
            rw [if_pos (by omega), live_of_overlap hp (live_iff.mp hlive).1, Bool.toNat_true] at hsum
            omega
          · have := hmissed p (by omega) hhi hp hlive
            omega

/-- `countKeys` counts the live keys, unless it misses one. -/
theorem countKeys_counted (b : Bytes) (limit : Nat) : Counted b limit 0 0 (countKeys b limit) :=
  countKeysFrom_counted (by omega) 0

theorem countKeys_clean (h : Clean b) (limit : Nat) : countKeys b limit = liveIn b 0 limit := by
  rw [(countKeys_counted b limit).clean h, Nat.zero_add]

end Search

/-! ### Clean texts -/

/-- Two keys that share a quote. -/
def doubledKey : Bytes := bytesOf "\"content\":\"content\":\""

/-- The text has the doubled key with a byte after it that is no quote. -/
def Doubled (s : Bytes) : Prop := ∃ c, c ≠ dquote ∧ doubledKey ++ [c] <:+: s

theorem live_part {q : Nat} (h : live b q = true) (x y : Bytes) :
    live (x ++ (b ++ y)) (x.length + q) = true := by
  obtain ⟨⟨t, ht⟩, c, hc, hne⟩ := live_iff.mp h
  have hlen : q + contentKeyLen < b.length := (List.getElem?_eq_some_iff.mp hc).1
  refine live_iff.mpr ⟨?_, c, ?_, hne⟩
  · rw [← drop_drop, drop_left, drop_append_of_le_length (by omega), ← ht, append_assoc]
    exact prefix_append _ _
  · rw [Nat.add_assoc, List.getElem?_append_right (Nat.le_add_right _ _), Nat.add_sub_cancel_left,
      List.getElem?_append_left hlen, hc]

theorem Clean.part {s : Bytes} (h : Clean s) (hb : b <:+: s) : Clean b := by
  obtain ⟨x, y, rfl⟩ := hb
  intro p hp
  rw [Bool.eq_false_iff]
  intro hlive
  have hlive' := live_part hlive x y
  have hkey : contentKey <+: (x ++ b ++ y).drop (x.length + p) := by
    obtain ⟨t, ht⟩ := hp
    have hlen : p ≤ b.length := by
      by_contra hlt
      rw [drop_eq_nil_of_le (by omega)] at ht
      cases ht
    rw [append_assoc, ← drop_drop, drop_left, drop_append_of_le_length hlen, ← ht,
      append_assoc]
    exact prefix_append _ _
  have := h _ hkey
  rw [append_assoc, Nat.add_assoc, hlive'] at this
  cases this

theorem clean_of_short (h : b.length < 22) : Clean b := by
  intro p _
  rw [Bool.eq_false_iff]
  intro hlive
  obtain ⟨-, c, hc, -⟩ := live_iff.mp hlive
  have : p + 10 + 11 < b.length := (List.getElem?_eq_some_iff.mp hc).1
  omega

theorem clean_iff {s : Bytes} : Clean s ↔ ¬ Doubled s := by
  constructor
  · rintro h ⟨c, hc, hinfix⟩
    have hclean : Clean (doubledKey ++ [c]) := h.part hinfix
    have hkey : contentKey <+: (doubledKey ++ [c]).drop 0 := ⟨contentKey.tail ++ [c], rfl⟩
    have hlive : live (doubledKey ++ [c]) (0 + 10) = true := live_iff.mpr ⟨⟨[c], rfl⟩, c, rfl, hc⟩
    rw [hclean 0 hkey] at hlive
    cases hlive
  · intro h p hp
    rw [Bool.eq_false_iff]
    intro hlive
    obtain ⟨⟨t, ht⟩, c, hc, hne⟩ := live_iff.mp hlive
    refine h ⟨c, hne, ?_⟩
    -- the first key up to the shared quote, then the second one and the byte after it
    have hfirst : (s.drop p).take 10 = contentKey.take 10 := by
      obtain ⟨u, hu⟩ := hp
      rw [← hu]
      rfl
    have hsplit : s.drop p = contentKey.take 10 ++ (contentKey ++ t) := by
      rw [ht, ← hfirst, ← drop_drop, take_append_drop]
    have hbyte : t.head? = some c := by
      have hget : (s.drop (p + 10))[contentKeyLen]? = some c := by
        rw [List.getElem?_drop]
        exact hc
      rw [← ht] at hget
      rw [← hget, List.getElem?_append_right (show contentKey.length ≤ contentKeyLen from le_rfl)]
      exact List.head?_eq_getElem?
    obtain ⟨rest, rfl⟩ := List.head?_eq_some_iff.mp hbyte
    refine ⟨s.take p, rest, ?_⟩
    have hdouble : contentKey.take 10 ++ (contentKey ++ c :: rest) = doubledKey ++ [c] ++ rest :=
      rfl
    rw [append_assoc, append_assoc, ← append_assoc doubledKey, ← hdouble, ← hsplit,
      take_append_drop]

/-! ### What the scanner keeps -/

/-- The last `n` bytes, all of them if there are fewer. -/
def lastBytes (n : Nat) (s : Bytes) : Bytes := s.drop (s.length - n)

section Last

variable {n : Nat} (s : Bytes) {b : Bytes}

theorem lastBytes_append_of_le (h : n ≤ b.length) : lastBytes n (s ++ b) = lastBytes n b := by
  unfold lastBytes
  rw [length_append, Nat.add_sub_assoc h, ← drop_drop, drop_left]

theorem lastBytes_append (h : b.length ≤ n) :
    lastBytes n (s ++ b) = s.drop (s.length - (n - b.length)) ++ b := by
  unfold lastBytes
  have hsub : (s ++ b).length - n = s.length - (n - b.length) := by
    rw [length_append]
    omega
  rw [hsub, drop_append_of_le_length (Nat.sub_le _ _)]

theorem length_lastBytes : (lastBytes n s).length = min s.length n := by
  unfold lastBytes
  rw [length_drop]
  omega

theorem lastBytes_min : lastBytes (min s.length n) s = lastBytes n s := by
  unfold lastBytes
  congr 1
  omega

/-- Only the last bytes decide about the last bytes of a longer text. -/
theorem lastBytes_lastBytes_append (h : b.length ≤ n) :
    (lastBytes n s).drop ((lastBytes n s).length + b.length - n) ++ b = lastBytes n (s ++ b) := by
  rw [lastBytes_append s h, length_lastBytes]
  unfold lastBytes
  rw [drop_drop]
  congr 2
  omega

theorem slide_lastBytes : slide (lastBytes tokenWindow s) b = lastBytes tokenWindow (s ++ b) := by
  unfold slide
  split
  next h =>
    rw [lastBytes_append_of_le s h]
    rfl
  next h =>
    rw [← lastBytes_lastBytes_append s (by omega)]
    dsimp only
    split
    next => rfl
    next hzero => rw [Nat.eq_zero_of_not_pos hzero, drop_zero]

theorem carryOver_lastBytes :
    carryOver (lastBytes contentKeyLen s) b = lastBytes contentKeyLen (s ++ b) := by
  unfold carryOver
  split
  next h =>
    rw [lastBytes_append_of_le s h]
    rfl
  next h =>
    rw [← lastBytes_lastBytes_append s (by omega)]
    dsimp only
    rw [length_append, drop_append_of_le_length (by omega)]

end Last

/-! ### Which keys a piece completes -/

section Piece

variable (s b : Bytes)

/-- The head has what the search for the keys of the carry looks at. -/
theorem headOf_eq (carry : Bytes) :
    headOf carry b = (carry ++ b).take
      (min (2 * contentKeyLen) (carry.length + (contentKeyLen + 1))) := by
  unfold headOf
  rw [min_comm b.length, ← take_take, take_length, ← take_length_add_append, take_take]

theorem live_headOf {carry : Bytes} (hcarry : carry.length ≤ contentKeyLen) {j : Nat}
    (hj : j < carry.length) : live (headOf carry b) j = live (carry ++ b) j := by
  unfold live
  rw [headOf_eq, drop_take, liveHere_take]
  have hlen : contentKeyLen = 11 := rfl
  omega

/-- Keys that the text before had already completed. -/
theorem live_append_left (hp : p + contentKeyLen < s.length) : live (s ++ b) p = live s p := by
  unfold live
  rw [drop_append_of_le_length (by omega), ← liveHere_take _ (Nat.lt_succ_self contentKeyLen),
    take_append_of_le_length (by rw [length_drop]; omega),
      liveHere_take _ (Nat.lt_succ_self contentKeyLen)]

theorem live_of_end (hp : s.length ≤ p + contentKeyLen) : live s p = false := by
  rw [Bool.eq_false_iff]
  intro hlive
  obtain ⟨-, c, hc, -⟩ := live_iff.mp hlive
  have := (List.getElem?_eq_some_iff.mp hc).1
  omega

theorem live_append_right (x : Bytes) (j : Nat) : live (x ++ b) (x.length + j) = live b j := by
  unfold live
  rw [← drop_drop, drop_left]

theorem liveIn_append_right (x : Bytes) (n : Nat) :
    liveIn (x ++ b) x.length (x.length + n) = liveIn b 0 n := by
  unfold liveIn
  rw [Finset.sum_Ico_eq_sum_range, Finset.sum_Ico_eq_sum_range, Nat.add_sub_cancel_left,
    Nat.sub_zero]
  refine Finset.sum_congr rfl fun j _ => ?_
  rw [live_append_right, Nat.zero_add]

/-- **A piece completes the keys that began in the carry and the ones inside it**, and every key is
completed once. -/
theorem liveBelow_feed :
    liveIn (s ++ b) 0 (s ++ b).length = liveIn s 0 s.length +
      liveIn (headOf (lastBytes contentKeyLen s) b) 0 (lastBytes contentKeyLen s).length + liveIn b
        0 b.length := by
  have hcarry := length_lastBytes (n := contentKeyLen) s
  set c := (lastBytes contentKeyLen s).length with hc
  have hlen : contentKeyLen = 11 := rfl
  have hold : liveIn (s ++ b) 0 (s.length - c) = liveIn s 0 s.length := by
    have hend : liveIn s (s.length - c) s.length = 0 :=
      liveIn_eq_zero fun p hlo _ => live_of_end s (by omega)
    rw [liveIn_split (b := s) (Nat.zero_le (s.length - c)) (Nat.sub_le _ _), hend, Nat.add_zero]
    refine Finset.sum_congr rfl fun p hp => ?_
    rw [Finset.mem_Ico] at hp
    rw [live_append_left s b (by omega)]
  have hnew : liveIn (s ++ b) (s.length - c) s.length =
      liveIn (headOf (lastBytes contentKeyLen s) b) 0 c := by
    have hsplit : s ++ b = s.take (s.length - c) ++ (lastBytes contentKeyLen s ++ b) := by
      rw [← append_assoc]
      congr 1
      have hfrom : s.length - c = s.length - contentKeyLen := by omega
      unfold lastBytes
      rw [hfrom, take_append_drop]
    have htake : (s.take (s.length - c)).length = s.length - c := by
      rw [length_take]
      omega
    have hshift := liveIn_append_right (lastBytes contentKeyLen s ++ b) (s.take (s.length - c)) c
    rw [← hsplit, htake, Nat.sub_add_cancel (by omega)] at hshift
    rw [hshift]
    refine Finset.sum_congr rfl fun p hp => ?_
    rw [Finset.mem_Ico] at hp
    rw [live_headOf b (by omega) hp.2]
  have hpiece : liveIn (s ++ b) s.length (s ++ b).length = liveIn b 0 b.length := by
    rw [length_append]
    exact liveIn_append_right b s b.length
  rw [liveIn_split (m := s.length) (Nat.zero_le _) (by rw [length_append]; omega),
    liveIn_split (Nat.zero_le (s.length - c)) (Nat.sub_le s.length c), hold, hnew, hpiece]

end Piece

/-! ### Runs -/

/-- What the scanner keeps of a text that it has seen. -/
structure TokenScanner.Saw (t : TokenScanner) (s : Bytes) : Prop where
  tail : t.tail = lastBytes tokenWindow s
  carry : t.carry = lastBytes contentKeyLen s

theorem TokenScanner.saw_zero : TokenScanner.zero.Saw [] := ⟨rfl, rfl⟩

section Feed

variable {t : TokenScanner} {s b : Bytes}

theorem TokenScanner.Saw.feed (h : t.Saw s) (b : Bytes) : (t.feed b).Saw (s ++ b) := by
  unfold TokenScanner.feed
  split
  next hb =>
    rw [length_eq_zero_iff.mp hb, append_nil]
    exact h
  next =>
    refine ⟨?_, ?_⟩
    · dsimp only
      rw [h.tail, slide_lastBytes]
    · dsimp only
      rw [h.carry, carryOver_lastBytes]

theorem TokenScanner.Saw.feedAll (h : t.Saw s) (pieces : List Bytes) :
    (t.feedAll pieces).Saw (s ++ pieces.flatten) := by
  induction pieces generalizing t s with
  | nil =>
    rw [flatten_nil, append_nil]
    exact h
  | cons b pieces ih =>
    rw [flatten_cons, ← append_assoc]
    exact ih (h.feed b)

theorem headOf_part (s b : Bytes) : headOf (lastBytes contentKeyLen s) b <:+: s ++ b := by
  rw [headOf_eq]
  refine ( take_prefix _ _).isInfix.trans ?_
  refine ⟨s.take (s.length - contentKeyLen), [], ?_⟩
  unfold lastBytes
  rw [append_nil, ← append_assoc, take_append_drop]

/-- A piece adds the keys that it completes, if the searches miss none. -/
theorem TokenScanner.feed_chunks (h : t.Saw s) (hcount : t.chunks = liveIn s 0 s.length)
    (hhead : Clean (headOf (lastBytes contentKeyLen s) b)) (hb : Clean b) :
    (t.feed b).chunks = liveIn (s ++ b) 0 (s ++ b).length := by
  by_cases hnil : b.length = 0
  · rw [length_eq_zero_iff.mp hnil, append_nil]
    exact hcount
  · rw [feed_of_ne hnil, liveBelow_feed, hcount, h.carry, countKeys_clean hb, countKeys_clean hhead]
    split
    next => rfl
    next hzero =>
      rw [Nat.eq_zero_of_not_pos hzero, liveIn_eq_zero fun p _ hp => absurd hp (Nat.not_lt_zero p)]

/-- If the text is clean, every way of cutting it counts its live keys. -/
theorem TokenScanner.feedAll_chunks {pieces : List Bytes} (h : t.Saw s)
    (hcount : t.chunks = liveIn s 0 s.length) (hclean : Clean (s ++ pieces.flatten)) :
    (t.feedAll pieces).chunks = liveIn (s ++ pieces.flatten) 0 (s ++ pieces.flatten).length := by
  induction pieces generalizing t s with
  | nil =>
    rw [flatten_nil, append_nil]
    exact hcount
  | cons b pieces ih =>
    rw [flatten_cons, ← append_assoc] at hclean ⊢
    have hpart : Clean (s ++ b) := hclean.part (prefix_append _ _).isInfix
    refine ih (h.feed b) ?_ hclean
    exact feed_chunks h hcount (hpart.part (headOf_part s b))
      (hpart.part (suffix_append _ _).isInfix)

/-- Byte by byte, the live keys are counted in every text: a search never sees two keys. -/
theorem TokenScanner.feedAll_bytes (h : t.Saw s) (hcount : t.chunks = liveIn s 0 s.length)
    (r : Bytes) : (t.feedAll (r.map fun c => [c])).chunks = liveIn (s ++ r) 0 (s ++ r).length := by
  induction r generalizing t s with
  | nil =>
    rw [append_nil]
    exact hcount
  | cons c r ih =>
    have hlen : contentKeyLen = 11 := rfl
    have hcarry := length_lastBytes (n := contentKeyLen) s
    have hhead : (headOf (lastBytes contentKeyLen s) [c]).length < 22 := by
      rw [headOf_eq, length_take, length_append, length_singleton]
      omega
    rw [append_cons s c r, map_cons, feedAll_cons]
    refine ih (h.feed [c]) ?_
    exact feed_chunks h hcount (clean_of_short hhead)
      (clean_of_short (by rw [length_singleton]; decide))

end Feed

/-- The text is cut into non-empty pieces. -/
def IsCut (s : Bytes) (pieces : List Bytes) : Prop := pieces.flatten = s ∧ ∀ b ∈ pieces, b ≠ []

theorem feed_whole_chunks (s : Bytes) :
    (TokenScanner.zero.feed s).chunks = countKeys s s.length := by
  by_cases hs : s.length = 0
  · rw [length_eq_zero_iff.mp hs]
    rfl
  · rw [TokenScanner.feed_of_ne hs]
    exact Nat.zero_add _

/-- **What a cut can change.** However a text is cut, the window holds its last bytes, all up to
2048. The number of chunks is the one of the whole text for every cut if and only if the text does
not have the doubled key followed by a byte that is no quote. -/
theorem scanner_independent_of_cuts_iff (s : Bytes) :
    (∀ pieces, IsCut s pieces →
      (TokenScanner.zero.feedAll pieces).tail = lastBytes (min s.length tokenWindow) s) ∧
    ((∀ pieces, IsCut s pieces →
      (TokenScanner.zero.feedAll pieces).chunks = (TokenScanner.zero.feed s).chunks ∧
        (TokenScanner.zero.feedAll pieces).tail = (TokenScanner.zero.feed s).tail) ↔
          ¬ Doubled s) := by
  have htail : ∀ pieces, IsCut s pieces →
      (TokenScanner.zero.feedAll pieces).tail = lastBytes tokenWindow s := by
    rintro pieces ⟨rfl, -⟩
    exact (TokenScanner.saw_zero.feedAll pieces).tail
  refine ⟨fun pieces hcut => (htail pieces hcut).trans (lastBytes_min s).symm, ?_⟩
  rw [← clean_iff]
  constructor
  · intro h p hp
    rw [Bool.eq_false_iff]
    intro hlive
    -- byte by byte nothing is missed, and the whole search misses the second key
    have hcut : IsCut s (s.map fun c => [c]) := by
      refine ⟨?_, ?_⟩
      · rw [← flatMap_def, flatMap_singleton']
      · intro b hb
        obtain ⟨c, -, rfl⟩ := mem_map.mp hb
        exact cons_ne_nil _ _
    have hbytes := TokenScanner.feedAll_bytes TokenScanner.saw_zero rfl s
    rw [(h _ hcut).1, feed_whole_chunks, nil_append] at hbytes
    have hend := (List.getElem?_eq_some_iff.mp (live_iff.mp hlive).2.choose_spec.1).1
    have hmiss := (countKeys_counted s s.length).missed p (Nat.zero_le p) (by omega) hp hlive
    omega
  · intro hclean pieces hcut
    refine ⟨?_, ?_⟩
    · obtain ⟨hflat, -⟩ := hcut
      have hwhole : Clean ([] ++ pieces.flatten) := by
        rw [nil_append, hflat]
        exact hclean
      have hcuts := TokenScanner.feedAll_chunks TokenScanner.saw_zero rfl hwhole
      rw [nil_append, hflat] at hcuts
      rw [hcuts, feed_whole_chunks, countKeys_clean hclean]
    · rw [htail pieces hcut]
      exact ((TokenScanner.saw_zero.feed s).tail).symm

/-- The doubled key, cut before the shared quote: the second key is counted too. -/
theorem cut_counts_doubled_key :
    let body := bytesOf "\"content\":\"content\":\"x"
    let pieces := [bytesOf "\"content\":", bytesOf "\"content\":\"x"]
    IsCut body pieces ∧ (TokenScanner.zero.feed body).chunks = 1 ∧
        (TokenScanner.zero.feedAll pieces).chunks = 2 := by
  refine ⟨⟨by decide, by decide⟩, by decide, by decide⟩

end ServerFlow.Gateway
