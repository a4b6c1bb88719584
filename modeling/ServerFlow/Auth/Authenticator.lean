import ServerFlow.Lib.GoMap
import ServerFlow.Lib.Lru
import ServerFlow.Resilience.Window

/-!
# Auth.Authenticator

The cache of API keys in front of the key store (`internal/auth`): the critical sections of
`Authenticator` as functions on its guarded fields. `ServerFlow.Auth.Calls` runs them from the
goroutines that use them.

An API key arrives as its public part and the hash of its secret (`ParseKey`). Left out are what is
only logged or exported (`outage`, `lastWarn`, the hit counters) and the channel of `last_used_at`
writes, which no other part of the package reads.
-/

namespace ServerFlow.Auth

open Resilience (Time Duration)

/-! ### Keys and tenants -/

/-- The public part of a key, which finds its row. -/
abbrev Pfx := String

/-- SHA-256 of a key's secret. -/
abbrev Hash := List UInt8

def hashLen : Nat := 32

def hashesEqual (a b : Hash) : Bool := a.length == hashLen && b.length == hashLen && a == b

inductive TenantStatus
  | active
  | suspended
  deriving Repr, DecidableEq

inductive KeyStatus
  | active
  | revoked
  deriving Repr, DecidableEq

structure TenantPolicy where
  status : TenantStatus
  /-- `none` allows every model. -/
  allowedModels : Option (List String)
  requestsPerMinute : Int
  tokensPerMinute : Int
  maxConcurrent : Int
  priority : Int
  deriving Repr, DecidableEq

structure KeyRecord where
  keyID : String
  tenantID : String
  pfx : Pfx
  secretHash : Hash
  keyStatus : KeyStatus
  expiresAt : Option Time
  policy : TenantPolicy
  deriving Repr, DecidableEq

/-- An authenticated caller. -/
structure Principal where
  tenantID : String
  keyID : String
  policy : TenantPolicy
  deriving Repr, DecidableEq

/-- What follows `ErrUnavailable` in an error's text. -/
inductive Unavailable
  /-- `the key store failed moments ago` -/
  | down
  /-- `lookup capacity exhausted` -/
  | shed
  /-- `the refresh is slow` -/
  | slowRefresh
  /-- `the key store is busy` -/
  | busy
  /-- The store's own error. -/
  | store
  /-- The caller's context ended. -/
  | ctx

/-- What `record` fails with. -/
inductive RecordErr
  | notFound
  | badRecord
  | unavailable (why : Unavailable)

/-- What `Authenticate` fails with. -/
inductive AuthErr
  | invalid
  | expired
  | revoked
  | suspended
  | badRecord
  | unavailable (why : Unavailable)

/-- An answer of `KeyStore.LookupKey`. -/
inductive Answer
  | record (k : KeyRecord)
  | notFound
  | badRecord
  | busy
  | failure
  deriving Repr, DecidableEq

/-- The store said what it has under the prefix. -/
def Answer.definite : Answer → Bool
  | .record _ => true
  | .notFound => true
  | _ => false

/-! ### Configuration -/

structure Config where
  cacheTTL : Duration
  negativeTTL : Duration
  cacheSize : Int
  staleGrace : Duration
  refreshWait : Duration
  maxLookups : Int

def defaultConfig : Config where
  cacheTTL := 30 * 1000000000
  negativeTTL := 5 * 1000000000
  cacheSize := 10000
  staleGrace := 5 * 60 * 1000000000
  refreshWait := 250 * 1000000
  maxLookups := 8

/-- The defaults `New` puts in. -/
def Config.normalize (cfg : Config) : Config where
  cacheTTL := if cfg.cacheTTL ≤ 0 then defaultConfig.cacheTTL else cfg.cacheTTL
  negativeTTL := if cfg.negativeTTL ≤ 0 then defaultConfig.negativeTTL else cfg.negativeTTL
  cacheSize := if cfg.cacheSize ≤ 0 then defaultConfig.cacheSize else cfg.cacheSize
  staleGrace := if cfg.staleGrace < 0 then 0 else cfg.staleGrace
  refreshWait := if cfg.refreshWait ≤ 0 then defaultConfig.refreshWait else cfg.refreshWait
  maxLookups := if cfg.maxLookups < 2 then defaultConfig.maxLookups else cfg.maxLookups

/-- What `New` establishes. -/
structure Config.Valid (cfg : Config) : Prop where
  cacheTTL_pos : 0 < cfg.cacheTTL
  negativeTTL_pos : 0 < cfg.negativeTTL
  cacheSize_pos : 0 < cfg.cacheSize
  staleGrace_nonneg : 0 ≤ cfg.staleGrace
  refreshWait_pos : 0 < cfg.refreshWait
  two_le_maxLookups : 2 ≤ cfg.maxLookups

theorem Config.valid_normalize (cfg : Config) : cfg.normalize.Valid := by
  constructor <;> simp only [Config.normalize, defaultConfig] <;> split <;> simp_all
  omega

/-- `touchEvery`: the least time between two `last_used_at` writes for one key. -/
def touchEvery : Duration := 60 * 1000000000

/-- How long after a failed lookup the store is left alone. -/
def outageBackoff : Duration := 1000000000

/-! ### The guarded state -/

structure PosEntry where
  record : KeyRecord
  fetched : Time
  /-- `none` is the zero time: never. -/
  lastTouch : Option Time
  deriving Repr, DecidableEq

structure Authenticator where
  cfg : Config
  /-- The store is a `KeyToucher`. -/
  toucher : Bool
  pos : Lru Pfx PosEntry
  neg : Lru Pfx Time
  /-- The lookup in flight for a prefix, by its number. -/
  flights : GoMap Pfx Nat
  /-- `none` is the zero time: the store may be asked. -/
  downUntil : Option Time
  inflightRefresh : Int
  inflightNew : Int

def Authenticator.reserve (a : Authenticator) : Int := max 1 (a.cfg.maxLookups.tdiv 4)

/-- `New`. -/
def Authenticator.new (cfg : Config) (toucher : Bool) : Authenticator where
  cfg := cfg.normalize
  toucher := toucher
  pos := .new _ _ cfg.normalize.cacheSize.toNat
  neg := .new _ _ cfg.normalize.cacheSize.toNat
  flights := ∅
  downUntil := none
  inflightRefresh := 0
  inflightNew := 0

/-- What `cachedLocked` answers. -/
inductive Cached
  | hit (res : Except RecordErr KeyRecord)
  | stale (e : PosEntry)
  | miss

/-- The second half of `cachedLocked`: the negative cache. -/
def Authenticator.cachedNeg (a : Authenticator) (pfx : Pfx) (now : Time) : Authenticator × Cached :=
  let (neg, found) := a.neg.get pfx
  match found with
  | none => ({ a with neg := neg }, .miss)
  | some t =>
    if now - t < a.cfg.negativeTTL ∧ 0 ≤ now - t then
      ({ a with neg := neg }, .hit (.error .notFound))
    else ({ a with neg := neg.remove pfx }, .miss)

/-- `cachedLocked`: answer from the caches, dropping what is too old (or from the future). -/
def Authenticator.cachedLocked (a : Authenticator) (pfx : Pfx) (now : Time) :
    Authenticator × Cached :=
  let (pos, found) := a.pos.get pfx
  match found with
  | none => { a with pos := pos }.cachedNeg pfx now
  | some e =>
    if now - e.fetched < a.cfg.cacheTTL ∧ 0 ≤ now - e.fetched then
      ({ a with pos := pos }, .hit (.ok e.record))
    else if now - e.fetched < a.cfg.cacheTTL + a.cfg.staleGrace ∧ 0 ≤ now - e.fetched then
      ({ a with pos := pos }, .stale e)
    else { a with pos := pos.remove pfx }.cachedNeg pfx now

/-- `now.Before(a.downUntil)`. -/
def Authenticator.down (a : Authenticator) (now : Time) : Bool :=
  a.downUntil.any fun u => decide (now < u)

/-- What a caller of `fetch` does once it has left the lock. -/
inductive Fetched
  /-- Another caller's lookup has filled the cache meanwhile. -/
  | hit (res : Except RecordErr KeyRecord)
  /-- Another caller is refreshing the key. -/
  | slow
  | join (f : Nat)
  | shed
  | start

/-- `fetch` once the caches have had no answer; a lookup it starts gets the number `f`. -/
def Authenticator.joinOrStart (a : Authenticator) (pfx : Pfx) (refresh : Bool) (f : Nat) :
    Authenticator × Fetched :=
  match a.flights.lookup pfx with
  | some f' => (a, if refresh then .slow else .join f')
  | none =>
    if a.inflightRefresh + a.inflightNew ≥ a.cfg.maxLookups ∨
        (refresh = false ∧ a.inflightNew ≥ a.cfg.maxLookups - a.reserve) then
      (a, .shed)
    else
      ({ a with
        inflightRefresh := if refresh then a.inflightRefresh + 1 else a.inflightRefresh
        inflightNew := if refresh then a.inflightNew else a.inflightNew + 1
        flights := a.flights.insert pfx f }, .start)

/-- The critical section of `fetch`. -/
def Authenticator.fetch (a : Authenticator) (pfx : Pfx) (refresh : Bool) (now : Time) (f : Nat) :
    Authenticator × Fetched :=
  match a.cachedLocked pfx now with
  | (a, .hit res) => (a, .hit res)
  | (a, _) => a.joinOrStart pfx refresh f

/-- What the callers of a lookup are told. -/
def Answer.result : Answer → Except RecordErr KeyRecord
  | .record k => .ok k
  | .notFound => .error .notFound
  | .badRecord => .error .badRecord
  | .busy => .error (.unavailable .busy)
  | .failure => .error (.unavailable .store)

/-- What the critical section of `lookup` does to the caches and the backoff. -/
def Authenticator.learn (a : Authenticator) (pfx : Pfx) (now : Time) : Answer → Authenticator
  | .record k =>
    let (pos, old) := a.pos.get pfx
    { a with
      pos := pos.put pfx ⟨k, now, old.bind PosEntry.lastTouch⟩
      neg := a.neg.remove pfx
      downUntil := none }
  | .notFound =>
    { a with pos := a.pos.remove pfx, neg := a.neg.put pfx now, downUntil := none }
  | .badRecord => { a with downUntil := none }
  | .busy => a
  | .failure => { a with downUntil := some (now + outageBackoff) }

/-- The critical section of `lookup`: the store has answered, `now` is when. -/
def Authenticator.finishLookup (a : Authenticator) (pfx : Pfx) (refresh : Bool) (ans : Answer)
    (now : Time) : Authenticator :=
  Authenticator.learn
    { a with
      flights := a.flights.erase pfx
      inflightRefresh := if refresh then a.inflightRefresh - 1 else a.inflightRefresh
      inflightNew := if refresh then a.inflightNew else a.inflightNew - 1 } pfx now ans

/-- `noteUse`, but for the write it may queue. -/
def Authenticator.noteUse (a : Authenticator) (pfx : Pfx) (now : Time) : Authenticator :=
  if a.toucher then
    let (pos, found) := a.pos.get pfx
    match found with
    | none => { a with pos := pos }
    | some e =>
      if e.lastTouch.any fun t => decide (now - t < touchEvery) then { a with pos := pos }
      else { a with pos := pos.put pfx { e with lastTouch := some now } }
  else a

/-- The end of `Authenticate`: the caller's secret first, then what is wrong with the key. -/
def KeyRecord.verify (k : KeyRecord) (hash : Hash) (now : Time) : Except AuthErr Unit :=
  if hashesEqual hash k.secretHash = false then .error .invalid
  else if k.keyStatus ≠ .active then .error .revoked
  else if k.expiresAt.any fun t => decide (t ≤ now) then .error .expired
  else if k.policy.status ≠ .active then .error .suspended
  else .ok ()

def KeyRecord.principal (k : KeyRecord) : Principal := ⟨k.tenantID, k.keyID, k.policy⟩

/-! ### What the sections may do to the caches -/

/-- `a'` has no entry that `a` does not have, except for when a key's use was last noted, and is
`a` in everything else. -/
structure Quiet (a a' : Authenticator) : Prop where
  cfg : a'.cfg = a.cfg
  flights : a'.flights = a.flights
  downUntil : a'.downUntil = a.downUntil
  inflightRefresh : a'.inflightRefresh = a.inflightRefresh
  inflightNew : a'.inflightNew = a.inflightNew
  pos : ∀ p e', a'.pos.lookup p = some e' →
    ∃ e, a.pos.lookup p = some e ∧ e'.record = e.record ∧ e'.fetched = e.fetched
  neg : ∀ p t, a'.neg.lookup p = some t → a.neg.lookup p = some t

theorem Quiet.refl (a : Authenticator) : Quiet a a :=
  ⟨rfl, rfl, rfl, rfl, rfl, fun _ e he => ⟨e, he, rfl, rfl⟩, fun _ _ h => h⟩

variable {a : Authenticator}

theorem Quiet.trans {b c : Authenticator} (h : Quiet a b) (h' : Quiet b c) : Quiet a c where
  cfg := h'.cfg.trans h.cfg
  flights := h'.flights.trans h.flights
  downUntil := h'.downUntil.trans h.downUntil
  inflightRefresh := h'.inflightRefresh.trans h.inflightRefresh
  inflightNew := h'.inflightNew.trans h.inflightNew
  pos p e'' he'' := by
    obtain ⟨e', he', hrec', hfetched'⟩ := h'.pos p e'' he''
    obtain ⟨e, he, hrec, hfetched⟩ := h.pos p e' he'
    exact ⟨e, he, hrec'.trans hrec, hfetched'.trans hfetched⟩
  neg p t ht := h.neg p t (h'.neg p t ht)

/-- Dropping entries is quiet. -/
theorem Quiet.of_caches {pos : Lru Pfx PosEntry} {neg : Lru Pfx Time}
    (hpos : ∀ p e, pos.lookup p = some e → a.pos.lookup p = some e)
    (hneg : ∀ p t, neg.lookup p = some t → a.neg.lookup p = some t) :
    Quiet a { a with pos := pos, neg := neg } :=
  ⟨rfl, rfl, rfl, rfl, rfl, fun p e he => ⟨e, hpos p e he, rfl, rfl⟩, hneg⟩

theorem lookup_remove_some {κ V : Type} [DecidableEq κ] {c : Lru κ V} {key k : κ} {v : V}
    (h : (c.remove key).lookup k = some v) : k ≠ key ∧ c.lookup k = some v := by
  rw [Lru.lookup_remove] at h
  split at h
  · cases h
  · next hk => exact ⟨hk, h⟩

section

variable (a : Authenticator)

theorem cachedNeg_quiet (pfx : Pfx) (now : Time) : Quiet a (a.cachedNeg pfx now).1 := by
  have hget : ∀ p t, (a.neg.get pfx).1.lookup p = some t → a.neg.lookup p = some t := by simp
  simp only [Authenticator.cachedNeg]
  split
  · exact .of_caches (fun _ _ h => h) hget
  · split
    · exact .of_caches (fun _ _ h => h) hget
    · exact .of_caches (fun _ _ h => h) fun p t h => hget p t (lookup_remove_some h).2

theorem cachedLocked_quiet (pfx : Pfx) (now : Time) : Quiet a (a.cachedLocked pfx now).1 := by
  have hget : ∀ p e, (a.pos.get pfx).1.lookup p = some e → a.pos.lookup p = some e := by simp
  have hmoved : Quiet a { a with pos := (a.pos.get pfx).1 } := .of_caches hget fun _ _ h => h
  simp only [Authenticator.cachedLocked]
  split
  · exact hmoved.trans (cachedNeg_quiet _ pfx now)
  · split
    · exact hmoved
    · split
      · exact hmoved
      · refine Quiet.trans ?_ (cachedNeg_quiet _ pfx now)
        exact .of_caches (fun p e h => hget p e (lookup_remove_some h).2) fun _ _ h => h

theorem noteUse_quiet (pfx : Pfx) (now : Time) : Quiet a (a.noteUse pfx now) := by
  simp only [Authenticator.noteUse]
  have hget : ∀ p e, (a.pos.get pfx).1.lookup p = some e → a.pos.lookup p = some e := by simp
  have hmoved : Quiet a { a with pos := (a.pos.get pfx).1 } := .of_caches hget fun _ _ h => h
  split
  · split
    · exact hmoved
    · next e he =>
      split
      · exact hmoved
      · -- Only `lastTouch` of the entry changes.
        refine ⟨rfl, rfl, rfl, rfl, rfl, fun p e' he' => ?_, fun _ _ h => h⟩
        rcases Lru.lookup_put_some he' with ⟨rfl, rfl⟩ | ⟨-, hold⟩
        · exact ⟨e, by rw [← Lru.get_snd]; exact he, rfl, rfl⟩
        · exact ⟨e', hget p e' hold, rfl, rfl⟩
  · exact .refl a

/-! ### What `cachedLocked` answers -/

/-- The negative cache has no record to offer. -/
theorem cachedNeg_answer (pfx : Pfx) (now : Time) :
    (a.cachedNeg pfx now).2 = .hit (.error .notFound) ∨ (a.cachedNeg pfx now).2 = .miss := by
  simp only [Authenticator.cachedNeg]
  split
  · exact .inr rfl
  · split
    · exact .inl rfl
    · exact .inr rfl

end

/-- What each answer of `cachedLocked` says about the entry that was cached. -/
def CachedOk (a : Authenticator) (pfx : Pfx) (now : Time) : Cached → Prop
  | .hit (.ok k) => ∃ e, a.pos.lookup pfx = some e ∧ e.record = k ∧
      0 ≤ now - e.fetched ∧ now - e.fetched < a.cfg.cacheTTL
  | .hit (.error err) => err = .notFound
  | .stale e => a.pos.lookup pfx = some e ∧
      0 ≤ now - e.fetched ∧ now - e.fetched < a.cfg.cacheTTL + a.cfg.staleGrace
  | .miss => True

theorem cachedLocked_ok (a : Authenticator) (pfx : Pfx) (now : Time) :
    CachedOk a pfx now (a.cachedLocked pfx now).2 := by
  have hneg : ∀ b : Authenticator, CachedOk a pfx now (b.cachedNeg pfx now).2 := by
    intro b
    rcases cachedNeg_answer b pfx now with h | h <;> rw [h]
    · rfl
    · trivial
  simp only [Authenticator.cachedLocked]
  split
  · exact hneg _
  · next e he =>
    have hfound : a.pos.lookup pfx = some e := by rw [← Lru.get_snd]; exact he
    split
    · next hage => exact ⟨e, hfound, rfl, hage.2, hage.1⟩
    · split
      · next hage => exact ⟨hfound, hage.2, hage.1⟩
      · exact hneg _

/-! ### What `fetch` decides -/

/-- What each decision of `fetch` says about the caches, the flights and the new state. -/
def FetchOk (a : Authenticator) (pfx : Pfx) (refresh : Bool) (now : Time) (f : Nat)
    (a' : Authenticator) : Fetched → Prop
  | .hit res => Quiet a a' ∧ CachedOk a pfx now (.hit res)
  | .slow => Quiet a a' ∧ refresh = true
  | .join f' => Quiet a a' ∧ refresh = false ∧ a.flights.lookup pfx = some f'
  | .shed => Quiet a a'
  | .start => a.flights.lookup pfx = none ∧ ∃ b, Quiet a b ∧ a' =
      { b with
        inflightRefresh := if refresh then b.inflightRefresh + 1 else b.inflightRefresh
        inflightNew := if refresh then b.inflightNew else b.inflightNew + 1
        flights := b.flights.insert pfx f }

theorem joinOrStart_ok {b : Authenticator} (hq : Quiet a b) (pfx : Pfx) (refresh : Bool)
    (now : Time) (f : Nat) :
    FetchOk a pfx refresh now f (b.joinOrStart pfx refresh f).1
      (b.joinOrStart pfx refresh f).2 := by
  simp only [Authenticator.joinOrStart]
  split
  · next f' hf =>
    rw [hq.flights] at hf
    cases refresh with
    | true => exact ⟨hq, rfl⟩
    | false => exact ⟨hq, rfl, hf⟩
  · next hf =>
    rw [hq.flights] at hf
    split
    · exact hq
    · exact ⟨hf, b, hq, rfl⟩

theorem fetch_ok (a : Authenticator) (pfx : Pfx) (refresh : Bool) (now : Time) (f : Nat) :
    FetchOk a pfx refresh now f (a.fetch pfx refresh now f).1 (a.fetch pfx refresh now f).2 := by
  have hq := cachedLocked_quiet a pfx now
  have hok := cachedLocked_ok a pfx now
  rcases hb : a.cachedLocked pfx now with ⟨b, out⟩
  rw [hb] at hq hok
  simp only [Authenticator.fetch, hb]
  cases out with
  | hit res => exact ⟨hq, hok⟩
  | stale e => exact joinOrStart_ok hq pfx refresh now f
  | miss => exact joinOrStart_ok hq pfx refresh now f

/-! ### What a lookup leaves behind -/

/-- Only a lookup that found a record, or none, changes the caches, and only under its prefix. -/
theorem finishLookup_pos {pfx p : Pfx} {refresh : Bool} {ans : Answer}
    {now : Time} {e : PosEntry} (h : (a.finishLookup pfx refresh ans now).pos.lookup p = some e) :
    (p = pfx ∧ ans = .record e.record ∧ e.fetched = now) ∨
      (a.pos.lookup p = some e ∧ (p = pfx → ans.definite = false)) := by
  cases ans with
  | record k =>
    rcases Lru.lookup_put_some h with ⟨rfl, rfl⟩ | ⟨hne, hold⟩
    · exact .inl ⟨rfl, rfl, rfl⟩
    · exact .inr ⟨(Lru.lookup_get a.pos pfx p).symm.trans hold, fun hp => absurd hp hne⟩
  | notFound =>
    obtain ⟨hne, hold⟩ := lookup_remove_some h
    exact .inr ⟨hold, fun hp => absurd hp hne⟩
  | badRecord => exact .inr ⟨h, fun _ => rfl⟩
  | busy => exact .inr ⟨h, fun _ => rfl⟩
  | failure => exact .inr ⟨h, fun _ => rfl⟩

theorem finishLookup_neg {pfx p : Pfx} {refresh : Bool} {ans : Answer}
    {now t : Time} (h : (a.finishLookup pfx refresh ans now).neg.lookup p = some t) :
    (p = pfx ∧ ans = .notFound) ∨ (a.neg.lookup p = some t ∧ (p = pfx → ans.definite = false)) := by
  cases ans with
  | record k =>
    obtain ⟨hne, hold⟩ := lookup_remove_some h
    exact .inr ⟨hold, fun hp => absurd hp hne⟩
  | notFound =>
    rcases Lru.lookup_put_some h with ⟨rfl, -⟩ | ⟨hne, hold⟩
    · exact .inl ⟨rfl, rfl⟩
    · exact .inr ⟨hold, fun hp => absurd hp hne⟩
  | badRecord => exact .inr ⟨h, fun _ => rfl⟩
  | busy => exact .inr ⟨h, fun _ => rfl⟩
  | failure => exact .inr ⟨h, fun _ => rfl⟩

@[simp] theorem finishLookup_flights (a : Authenticator) (pfx : Pfx) (refresh : Bool) (ans : Answer)
    (now : Time) : (a.finishLookup pfx refresh ans now).flights = a.flights.erase pfx := by
  cases ans <;> rfl

@[simp] theorem finishLookup_cfg (a : Authenticator) (pfx : Pfx) (refresh : Bool) (ans : Answer)
    (now : Time) : (a.finishLookup pfx refresh ans now).cfg = a.cfg := by
  cases ans <;> rfl

end ServerFlow.Auth
