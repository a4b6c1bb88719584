import Mathlib.Data.List.Basic

/-!
# A ring buffer that keeps the last values pushed

`push` overwrites the oldest value once the buffer is full. `Holds r n xs` says that `r`
has room for `n` values and that `xs` is everything pushed since the last `clear`, newest
first; it is all a user needs to know of the positions. When the buffer is full, `oldest`
reads the `n`-th newest value.
-/

/-- The buffer, the position written next and how many values are held. -/
structure RingBuffer (α : Type) where
  buf : List α
  pos : Nat
  len : Nat
  deriving Repr, DecidableEq

namespace RingBuffer

variable {α : Type} {r : RingBuffer α} {n : Nat} {xs : List α}

/-- An empty buffer with room for `n` values. -/
def new (n : Nat) (a : α) : RingBuffer α := ⟨List.replicate n a, 0, 0⟩

/-- Write a value over the oldest one. -/
def push (r : RingBuffer α) (x : α) : RingBuffer α :=
  ⟨r.buf.set r.pos x, (r.pos + 1) % r.buf.length,
    if r.len < r.buf.length then r.len + 1 else r.len⟩

/-- Forget the values. -/
def clear (r : RingBuffer α) : RingBuffer α := { r with pos := 0, len := 0 }

/-- Every position holds a value. -/
def full (r : RingBuffer α) : Bool := r.len = r.buf.length

/-- The value at the position written next. -/
def oldest (r : RingBuffer α) : Option α := r.buf[r.pos]?

/-- The position of the `i`-th newest value. -/
def index (pos n i : Nat) : Nat := if i + 1 ≤ pos then pos - 1 - i else pos + n - 1 - i

/-- `r` has room for `n` values, and `xs` was pushed since it was cleared, newest first. -/
structure Holds (r : RingBuffer α) (n : Nat) (xs : List α) : Prop where
  size : r.buf.length = n
  pos_lt : r.pos < n
  len : r.len = min xs.length n
  get : ∀ i, i < r.len → r.buf[index r.pos n i]? = xs[i]?

theorem holds_new (hn : 0 < n) (a : α) : Holds (new n a) n [] :=
  ⟨by simp [new], hn, by simp [new], fun i hi => by simp [new] at hi⟩

theorem Holds.clear (h : Holds r n xs) : Holds r.clear n [] :=
  ⟨h.size, by have := h.pos_lt; simp only [RingBuffer.clear]; omega, by simp [RingBuffer.clear],
    fun i hi => by simp [RingBuffer.clear] at hi⟩

theorem Holds.push (h : Holds r n xs) (x : α) : Holds (r.push x) n (x :: xs) := by
  have hpos := h.pos_lt
  have hlen := h.len
  have hsize := h.size
  -- the next position, without the remainder
  have hnext : (r.pos + 1) % r.buf.length = if r.pos + 1 = n then 0 else r.pos + 1 := by
    rw [hsize]
    split
    next heq => rw [heq, Nat.mod_self]
    next hne => exact Nat.mod_eq_of_lt (by omega)
  have hlt : (r.push x).pos < n := by
    show (r.pos + 1) % r.buf.length < n
    rw [hnext]
    split <;> omega
  refine ⟨by simp [RingBuffer.push, hsize], hlt, ?_, fun i hi => ?_⟩
  · simp only [RingBuffer.push, hsize, hlen, List.length_cons]
    split <;> omega
  · have hi' : i < n := by
      simp only [RingBuffer.push, hsize, hlen] at hi
      split at hi <;> omega
    show (r.buf.set r.pos x)[index ((r.pos + 1) % r.buf.length) n i]? = (x :: xs)[i]?
    rw [hnext, List.getElem?_set]
    cases i with
    | zero =>
      have hidx : index (if r.pos + 1 = n then 0 else r.pos + 1) n 0 = r.pos := by
        unfold index
        split <;> split <;> omega
      rw [hidx, if_pos rfl, if_pos (by omega)]
      rfl
    | succ i =>
      have hidx : index (if r.pos + 1 = n then 0 else r.pos + 1) n (i + 1) =
          index r.pos n i := by
        unfold index
        split <;> split <;> split <;> omega
      have hne : r.pos ≠ index r.pos n i := by
        unfold index
        split <;> omega
      have hi'' : i < r.len := by
        simp only [RingBuffer.push, hsize, hlen] at hi
        rw [hlen]
        split at hi <;> omega
      rw [hidx, if_neg hne, h.get i hi'']
      rfl

/-- The buffer is full once `n` values were pushed. -/
theorem Holds.full_iff (h : Holds r n xs) : r.full = true ↔ n ≤ xs.length := by
  unfold full
  rw [decide_eq_true_eq, h.len, h.size]
  omega

/-- The oldest value of a full buffer is the `n`-th newest. -/
theorem Holds.oldest_eq (h : Holds r n xs) (hfull : n ≤ xs.length) : r.oldest = xs[n - 1]? := by
  have hpos := h.pos_lt
  have hidx : index r.pos n (n - 1) = r.pos := by
    unfold index
    split <;> omega
  have := h.get (n - 1) (by rw [h.len]; omega)
  rwa [hidx] at this

end RingBuffer
