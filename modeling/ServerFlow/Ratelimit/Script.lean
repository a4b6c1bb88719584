import ServerFlow.Lib.Redis
import ServerFlow.Ratelimit.Model

/-!
# Ratelimit.Script

The Lua scripts of the rate limiter (`internal/ratelimit/script.go`), and the arguments
`RedisLimiter` calls them with (`internal/ratelimit/redis.go`).

Lua numbers are doubles. Every arithmetic result of the scripts goes through a rounding
function `rnd`, about which nothing is assumed here; that the results stay where doubles are
exact is proved where it is used. `%` and the divisions of the scripts are those of integers.
-/

namespace ServerFlow.Ratelimit

open Redis (Store Error)

/-! ### Calls -/

/-- The reply of `TIME`: seconds and microseconds. -/
structure RedisTime where
  sec : Nat
  usec : Nat

/-- The millisecond that keys expire by. -/
def RedisTime.ms (t : RedisTime) : Int := t.sec * 1000 + (t.usec / 1000 : Nat)

/-- `KEYS` of the acquire script. -/
structure AcquireKeys where
  requests : Bytes
  tokens : Bytes
  concurrency : Bytes
  model : Bytes

/-- `ARGV` of the acquire script. -/
structure AcquireArgs where
  /-- A test clock, `0` for `TIME`. -/
  override : Int
  requests : Int
  tokens : Int
  maxConcurrent : Int
  modelRequests : Int
  cost : Int
  burstSeconds : Int
  leaseID : Bytes
  leaseTTLMs : Int

/-- The reply of the acquire script. -/
structure AcquireReply where
  allowed : Int
  limit : Int
  retryMs : Int

def clampQuota (n : Int) : Int := if n < 0 then 0 else if n > maxQuota then maxQuota else n

/-- The keys `RedisLimiter.Allow` names; without a cap the model's name does not go on the
wire. -/
def acquireKeys (r : ModelRequest) : AcquireKeys where
  requests := keyRequests r.tenantID
  tokens := keyTokens r.tenantID
  concurrency := keyConcurrency r.tenantID
  model := if r.modelRequestsPerMinute > 0 then keyModel r.model else keyModelUnused

/-- The arguments `RedisLimiter.Allow` passes. -/
def acquireArgs (p : Params) (r : ModelRequest) : AcquireArgs where
  override := 0
  requests := clampQuota r.limits.requestsPerMinute
  tokens := clampQuota r.limits.tokensPerMinute
  maxConcurrent := clampQuota r.limits.maxConcurrent
  modelRequests := r.modelRequestsPerMinute
  cost := max 0 (min r.cost maxCost)
  burstSeconds := p.burstSeconds
  leaseID := if clampQuota r.limits.maxConcurrent > 0 then r.leaseID else []
  leaseTTLMs := p.leaseTTLMs

def limitFromCode (code : Int) : Limit :=
  if code = 1 then .requests
  else if code = 2 then .tokens
  else if code = 3 then .concurrency
  else if code = 4 then .model
  else .unavailable

/-! ### The scripts -/

section Acquire

variable {ν : Type}

/-- The results of `check`, in numbers `ν`. -/
@[ext] structure Checked (ν : Type) where
  level : ν
  need : ν
  wait : ν
  stamp : ν
  deriving Repr, DecidableEq

/-- `best_code` and `best_wait`. -/
structure Best (ν : Type) where
  code : Int
  wait : ν

/-- The checks of `acquireScript` that were made, and the longest wait among them. -/
structure Checks (ν : Type) where
  req : Option (Checked ν)
  tok : Option (Checked ν)
  mod : Option (Checked ν)
  best : Best ν

/-- The arithmetic of one run of `acquireScript`, and the integers that it sends to Redis. The
rest of the script is the same in whatever numbers it computes. -/
structure Arith (ν : Type) where
  /-- What `check` computes from the quota, the tokens and the reply of `HMGET`. -/
  check : Int → Int → List (Option Int) → Checked ν
  now : Int
  /-- The level and the stamp that `store` writes. -/
  stored : Checked ν → Int × Int
  bucketTTL : Int
  leaseScore : Int
  leaseTTL : Int
  retryMs : ν → Int

variable (a : Arith ν)

/-- `check`, made only when the quota is set. -/
def Arith.checkIf (db : Store) (ms : Int) (key : Bytes) (quota tokens : Int) :
    Except Error (Option (Checked ν)) :=
  if quota > 0 then do
    let h ← Redis.hmget db ms key ["l", "t"]
    return some (a.check quota tokens h)
  else return none

/-- `store`, for a check that was made. -/
def Arith.storeIf (db : Store) (ms : Int) (key : Bytes) (c : Option (Checked ν)) :
    Except Error Store :=
  match c with
  | some c => do
      let db ← Redis.hset db ms key [("l", (a.stored c).1), ("t", (a.stored c).2)]
      return Redis.pexpire db ms key a.bucketTTL
  | none => return db

/-- Take the lease, when concurrency is limited. -/
def Arith.storeLease (db : Store) (ms : Int) (key : Bytes) (argv : AcquireArgs) :
    Except Error Store :=
  if argv.maxConcurrent > 0 then do
    let db ← Redis.zadd db ms key a.leaseScore argv.leaseID
    return Redis.pexpire db ms key a.leaseTTL
  else return db

/-- The second part of `acquireScript`: every quota is charged and the lease is taken. -/
def Arith.acquireStores (db : Store) (ms : Int) (keys : AcquireKeys) (argv : AcquireArgs)
    (c : Checks ν) : Except Error Store := do
  let db ← a.storeIf db ms keys.requests c.req
  let db ← a.storeIf db ms keys.tokens c.tok
  let db ← a.storeIf db ms keys.model c.mod
  a.storeLease db ms keys.concurrency argv

variable [LT ν] [DecidableLT ν] [OfNat ν 0]

def Best.consider (b : Best ν) (code : Int) (wait : ν) : Best ν :=
  if wait > b.wait then ⟨code, wait⟩ else b

/-- Consider a check that was made and has to wait. -/
def Best.considerChecked (b : Best ν) (code : Int) (c : Option (Checked ν)) : Best ν :=
  match c with
  | some c => if c.wait > 0 then b.consider code c.wait else b
  | none => b

variable [OfNat ν 1000]

/-- Drop the expired leases and consider the refusal, when concurrency is limited. -/
def Arith.checkLeases (db : Store) (ms : Int) (key : Bytes) (maxConcurrent : Int) (b : Best ν) :
    Except Error (Store × Best ν) :=
  if maxConcurrent > 0 then do
    let db ← Redis.zremrangebyscore db ms key a.now
    let n ← Redis.zcard db ms key
    return (db, if (n : Int) ≥ maxConcurrent then b.consider 3 1000 else b)
  else return (db, b)

/-- The first part of `acquireScript`: every active quota is checked. -/
def Arith.acquireChecks (db : Store) (ms : Int) (keys : AcquireKeys) (argv : AcquireArgs) :
    Except Error (Store × Checks ν) := do
  let req ← a.checkIf db ms keys.requests argv.requests 1
  let tok ← a.checkIf db ms keys.tokens argv.tokens argv.cost
  let best := (Best.considerChecked ⟨0, 0⟩ 1 req).considerChecked 2 tok
  let (db, best) ← a.checkLeases db ms keys.concurrency argv.maxConcurrent best
  let mod ← a.checkIf db ms keys.model argv.modelRequests 1
  return (db, ⟨req, tok, mod, best.considerChecked 4 mod⟩)

/-- `acquireScript`. -/
def Arith.acquireScript (db : Store) (ms : Int) (keys : AcquireKeys) (argv : AcquireArgs) :
    Except Error (Store × AcquireReply) := do
  let (db, c) ← a.acquireChecks db ms keys argv
  if c.best.code > 0 then
    return (db, ⟨0, c.best.code, a.retryMs c.best.wait⟩)
  let db ← a.acquireStores db ms keys argv c
  return (db, ⟨1, 0, 0⟩)

end Acquire

section Scripts

variable (rnd : Int → Int)

/-- The scripts' `now`: the test clock if there is one, else `TIME`. -/
def scriptNow (override : Int) (t : RedisTime) : Int :=
  if override > 0 then override else rnd (rnd (t.sec * 1000) + (t.usec / 1000 : Nat))

/-- `ceil_div`. -/
def scriptCeilDiv (a b : Int) : Int :=
  let x := rnd (rnd (a + b) - 1)
  rnd (rnd (x - rnd (x % b)) / b)

/-- The refill of `check`: the level and the stamp to store with it. -/
def scriptRefill (now window quota cap l ts : Int) : Int × Int :=
  let elapsed := rnd (now - ts)
  let elapsed := if elapsed < 0 then 0 else elapsed
  let elapsed := if elapsed > window then window else elapsed
  let level := rnd (l + rnd (elapsed * quota))
  (if level > cap then cap else level, if ts > now then ts else now)

/-- The level and the stamp `check` finds in the reply of `HMGET`: a bucket that is missing is
full. -/
def scriptPeek (now window quota cap : Int) (h : List (Option Int)) : Int × Int :=
  match h with
  | [some l, some ts] => scriptRefill rnd now window quota cap l ts
  | _ => (cap, now)

/-- What `check` computes from the reply of `HMGET`. -/
def scriptCheck (now window quota tokens : Int) (h : List (Option Int)) : Checked Int :=
  let cap := rnd (quota * window)
  let level := (scriptPeek rnd now window quota cap h).1
  let stamp := (scriptPeek rnd now window quota cap h).2
  let need := rnd (tokens * 60000)
  let need := if need > cap then cap else need
  let wait := if level < need then scriptCeilDiv rnd (rnd (need - level)) quota else 0
  ⟨level, need, wait, stamp⟩

/-- The arithmetic of `acquireScript` in integers. -/
def scriptArith (now window ttl : Int) : Arith Int where
  check := scriptCheck rnd now window
  now := now
  stored c := (rnd (c.level - c.need), c.stamp)
  bucketTTL := rnd (window * 2)
  leaseScore := rnd (now + ttl)
  leaseTTL := rnd (ttl * 2)
  retryMs wait := wait

/-- `acquireScript`. -/
def acquireScript (db : Store) (t : RedisTime) (keys : AcquireKeys) (argv : AcquireArgs) :
    Except Error (Store × AcquireReply) :=
  (scriptArith rnd (scriptNow rnd argv.override t) (rnd (argv.burstSeconds * 1000))
    argv.leaseTTLMs).acquireScript db t.ms keys argv

/-- One round of the loop of `renewScript`. -/
def renewOne (ms now ttl : Int) (key : Bytes) (s : Store × Nat) (id : Bytes) :
    Except Error (Store × Nat) := do
  let score ← Redis.zscore s.1 ms key id
  match score with
  | some score =>
    if score > now then
      let db ← Redis.zaddXX s.1 ms key (rnd (now + ttl)) id
      return (db, s.2 + 1)
    else return s
  | none => return s

/-- `renewScript`. -/
def renewScript (db : Store) (t : RedisTime) (key : Bytes) (override ttl : Int)
    (ids : List Bytes) : Except Error (Store × Nat) := do
  let now := scriptNow rnd override t
  let (db, renewed) ← ids.foldlM (renewOne rnd t.ms now ttl key) (db, 0)
  return (if renewed > 0 then Redis.pexpire db t.ms key (rnd (ttl * 2)) else db, renewed)

/-- `releaseScript`. -/
def releaseScript (db : Store) (t : RedisTime) (key id : Bytes) : Except Error (Store × Nat) :=
  Redis.zrem db t.ms key id

end Scripts

/-! ### The limiter on Redis, and the same calls on the model -/

/-- A call to the limiter, with the server's time it runs at. -/
inductive LimiterCall
  | acquire (t : RedisTime) (r : ModelRequest)
  | renew (t : RedisTime) (tenant : Bytes) (ids : List Bytes)
  | release (t : RedisTime) (tenant id : Bytes)

def LimiterCall.time : LimiterCall → RedisTime
  | acquire t _ => t
  | renew t _ _ => t
  | release t _ _ => t

/-- The answer to a call. -/
inductive LimiterReply
  | outcome (o : Outcome)
  | renewed (n : Nat)
  | released (n : Nat)
  /-- The script stopped with an error. -/
  | error (e : Error)
  deriving Repr, DecidableEq

/-- The reply of the acquire script as `RedisLimiter.Allow` reads it. -/
def AcquireReply.outcome (a : AcquireReply) : Outcome :=
  if a.allowed = 1 then ⟨true, none, 0⟩ else ⟨false, some (limitFromCode a.limit), a.retryMs⟩

/-- A script's result as a step. A script that stops with an error keeps what it wrote before; none
does (`ServerFlow.Ratelimit.Parity`), so the store is simply left alone here. -/
def reply {α : Type} (db : Store) (f : α → LimiterReply) :
    Except Error (Store × α) → Store × LimiterReply
  | .ok (db', a) => (db', f a)
  | .error e => (db, .error e)

/-- One call, answered by the scripts. -/
def scriptStep (rnd : Int → Int) (p : Params) (db : Store) : LimiterCall → Store × LimiterReply
  | .acquire t r =>
    reply db (fun a => .outcome a.outcome)
      (acquireScript rnd db t (acquireKeys r) (acquireArgs p r))
  | .renew t tenant ids =>
    reply db .renewed (renewScript rnd db t (keyConcurrency tenant) 0 p.leaseTTLMs ids)
  | .release t tenant id => reply db .released (releaseScript db t (keyConcurrency tenant) id)

/-- `Renew` for one more lease, counting those that were extended. -/
def renewNext (now : Int) (tenant : Bytes) (s : Model × Nat) (id : Bytes) : Model × Nat :=
  ((s.1.renew now tenant id).1, s.2 + if (s.1.renew now tenant id).2 then 1 else 0)

/-- `Renew` for several leases, with how many were extended. -/
def Model.renewAll (m : Model) (now : Int) (tenant : Bytes) (ids : List Bytes) : Model × Nat :=
  ids.foldl (renewNext now tenant) (m, 0)

/-- One call, answered by the model. -/
def modelStep (m : Model) : LimiterCall → Model × LimiterReply
  | .acquire t r => ((m.allow t.ms r).1, .outcome (m.allow t.ms r).2)
  | .renew t tenant ids => ((m.renewAll t.ms tenant ids).1, .renewed (m.renewAll t.ms tenant ids).2)
  | .release _ tenant id =>
    ((m.release tenant id).1, .released (if (m.release tenant id).2 then 1 else 0))

end ServerFlow.Ratelimit
