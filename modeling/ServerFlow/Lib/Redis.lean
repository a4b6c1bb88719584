import ServerFlow.Lib.GoMap

/-!
# A store of hashes and sorted sets with expiring keys

The fragment of Redis that a Lua script over counters and leases needs. A `Store` maps a
key to a value and the millisecond it expires at. An expired key is gone for every command
(`find`), whether or not the server has deleted it yet. Commands take the server's time in
milliseconds; those that meet a value of the wrong type fail (`Error.wrongType`).

Numbers are integers: a hash field and a score are what `tonumber` reads back from the text
that was stored.
-/

namespace Redis

open Option AList

abbrev Key := List UInt8

/-- What a key holds. -/
inductive Value
  | hash (fields : GoMap String Int)
  | zset (members : GoMap (List UInt8) Int)

/-- A stored value with its expiry, `none` for a key that does not expire. -/
structure Entry where
  value : Value
  expireAt : Option Int

abbrev Store := GoMap Key Entry

/-- A command met a value of another type. -/
inductive Error
  | wrongType
  deriving Repr, DecidableEq

/-- A key is expired once the clock is past its expiry. -/
def Entry.live (now : Int) (e : Entry) : Bool :=
  match e.expireAt with
  | none => true
  | some t => decide (now ≤ t)

/-- What every command sees under a key at time `now`. -/
def find (db : Store) (now : Int) (k : Key) : Option Entry :=
  (db.lookup k).filter (Entry.live now)

/-- The hash under a key; a missing key reads as an empty one. -/
def hashAt (db : Store) (now : Int) (k : Key) : Except Error (GoMap String Int) :=
  match (find db now k).map Entry.value with
  | none => .ok ∅
  | some (.hash f) => .ok f
  | some (.zset _) => .error .wrongType

/-- The sorted set under a key; a missing key reads as an empty one. -/
def zsetAt (db : Store) (now : Int) (k : Key) : Except Error (GoMap (List UInt8) Int) :=
  match (find db now k).map Entry.value with
  | none => .ok ∅
  | some (.zset z) => .ok z
  | some (.hash _) => .error .wrongType

/-- Replace a key's value. A live key keeps its expiry, a new one has none. -/
def put (db : Store) (now : Int) (k : Key) (v : Value) : Store :=
  db.insert k ⟨v, (find db now k).bind Entry.expireAt⟩

/-- Replace a key's sorted set; a set that became empty is no key any more. -/
def putZset (db : Store) (now : Int) (k : Key) (z : GoMap (List UInt8) Int) : Store :=
  if z.len = 0 then db.erase k else put db now k (.zset z)

/-! ### Commands -/

/-- `HMGET`. -/
def hmget (db : Store) (now : Int) (k : Key) (fields : List String) :
    Except Error (List (Option Int)) := do
  let f ← hashAt db now k
  return fields.map f.lookup

/-- `HSET` of several fields. -/
def hset (db : Store) (now : Int) (k : Key) (fields : List (String × Int)) :
    Except Error Store := do
  let f ← hashAt db now k
  return put db now k (.hash (fields.foldl (fun f p => f.insert p.1 p.2) f))

/-- `PEXPIRE`; a time that is not in the future deletes the key. -/
def pexpire (db : Store) (now : Int) (k : Key) (ttl : Int) : Store :=
  match find db now k with
  | none => db
  | some e => if ttl ≤ 0 then db.erase k else db.insert k { e with expireAt := some (now + ttl) }

/-- `ZREMRANGEBYSCORE key -inf max`. -/
def zremrangebyscore (db : Store) (now : Int) (k : Key) (max : Int) : Except Error Store := do
  let z ← zsetAt db now k
  return putZset db now k (z.keep fun _ score => decide (max < score))

/-- `ZCARD`. -/
def zcard (db : Store) (now : Int) (k : Key) : Except Error Nat := do
  let z ← zsetAt db now k
  return z.len

/-- `ZSCORE`. -/
def zscore (db : Store) (now : Int) (k : Key) (member : List UInt8) :
    Except Error (Option Int) := do
  let z ← zsetAt db now k
  return z.lookup member

/-- `ZADD`. -/
def zadd (db : Store) (now : Int) (k : Key) (score : Int) (member : List UInt8) :
    Except Error Store := do
  let z ← zsetAt db now k
  return putZset db now k (z.insert member score)

/-- `ZADD XX`: only a member that is present gets the new score. -/
def zaddXX (db : Store) (now : Int) (k : Key) (score : Int) (member : List UInt8) :
    Except Error Store := do
  let z ← zsetAt db now k
  return if (z.lookup member).isSome then putZset db now k (z.insert member score) else db

/-- `ZREM` of one member, with the number of members removed. -/
def zrem (db : Store) (now : Int) (k : Key) (member : List UInt8) :
    Except Error (Store × Nat) := do
  let z ← zsetAt db now k
  return if (z.lookup member).isSome then (putZset db now k (z.erase member), 1) else (db, 0)

/-! ### What a command leaves in the store -/

variable {db : Store} {now : Int} {k k' : Key}

theorem lookup_put (v : Value) : (put db now k v).lookup k' =
    if k' = k then some ⟨v, (find db now k).bind Entry.expireAt⟩ else db.lookup k' :=
  lookup_insert_ite _ _ _ _

theorem lookup_putZset (z : GoMap (List UInt8) Int) : (putZset db now k z).lookup k' =
    if k' = k then
      if z.len = 0 then none else some ⟨.zset z, (find db now k).bind Entry.expireAt⟩
    else db.lookup k' := by
  unfold putZset
  split
  · rw [lookup_erase_ite]
  · exact lookup_put _

/-- `find` sees what was put: a kept expiry is one that has not passed. -/
theorem find_put (v : Value) : find (put db now k v) now k =
    some ⟨v, (find db now k).bind Entry.expireAt⟩ := by
  unfold find
  rw [lookup_put, if_pos rfl, filter_eq_some_iff]
  refine ⟨rfl, ?_⟩
  cases he : (db.lookup k).filter (Entry.live now) with
  | none => rfl
  | some e =>
    have hlive := (Option.filter_eq_some_iff.mp he).2
    unfold Entry.live at hlive ⊢
    exact hlive

theorem lookup_pexpire {e : Entry} (he : find db now k = some e) {ttl : Int} (h : 0 < ttl) :
    (pexpire db now k ttl).lookup k' =
      if k' = k then some { e with expireAt := some (now + ttl) } else db.lookup k' := by
  unfold pexpire
  rw [he]
  dsimp only
  rw [if_neg (by omega), lookup_insert_ite]

/-- Setting an expiry right after a value: the key holds the value until then. -/
theorem lookup_pexpire_put (v : Value) {ttl : Int} (h : 0 < ttl) :
    (pexpire (put db now k v) now k ttl).lookup k' =
      if k' = k then some ⟨v, some (now + ttl)⟩ else db.lookup k' := by
  rw [lookup_pexpire (find_put v) h, lookup_put]
  split
  · rfl
  · rfl

theorem find_of_lookup (now : Int) {e : Entry} (h : db.lookup k = some e) :
    find db now k = if e.live now then some e else none := by
  unfold find
  rw [h, filter_some]

theorem find_of_missing (now : Int) (h : db.lookup k = none) : find db now k = none := by
  unfold find
  rw [h, filter_none]

theorem hset_ok {f : GoMap String Int} (h : hashAt db now k = .ok f)
    (fields : List (String × Int)) : hset db now k fields =
      .ok (put db now k (.hash (fields.foldl (fun f p => f.insert p.1 p.2) f))) := by
  unfold hset
  rw [h]
  rfl

/-- After a sorted set is written, it is what is read. -/
theorem zsetAt_putZset (z : GoMap (List UInt8) Int) :
    zsetAt (putZset db now k z) now k = .ok z := by
  unfold putZset
  split
  next h =>
    have hz : z = ∅ := AList.ext (List.length_eq_zero_iff.mp h)
    unfold zsetAt
    rw [find_of_missing now (by rw [lookup_erase_ite, if_pos rfl]), hz]
    rfl
  next h =>
    unfold zsetAt
    rw [find_put]
    rfl

/-- Setting an expiry right after a set that is not empty. -/
theorem lookup_pexpire_putZset {z : GoMap (List UInt8) Int} (hz : z.len ≠ 0) {ttl : Int}
    (h : 0 < ttl) : (pexpire (putZset db now k z) now k ttl).lookup k' =
      if k' = k then some ⟨.zset z, some (now + ttl)⟩ else db.lookup k' := by
  unfold putZset
  rw [if_neg hz, lookup_pexpire_put _ h]

end Redis
