import ServerFlow.Ratelimit.ScriptArithmetic

/-!
# Ratelimit.ParityRelation

The simulation relation between the Go model and the keys the scripts store.

For every bucket key the stored hash is the model's bucket, expired or not, with an expiry of
two windows after its stamp. For a lease set the relation speaks only of leases that are still
held: those the set has lost, alone or with the whole key, have expired in the model too. Each
part of a script is shown to read what the model reads and to keep the relation.
-/

namespace ServerFlow.Ratelimit

open AList Option
open Redis (Store Error)

variable {e : Option Redis.Entry} {b : Option Bucket}

/-! ### The relation -/

/-- A bucket of the model and the hash stored for it. -/
inductive BucketRel (p : Params) (T : Int) : Option Bucket → Option Redis.Entry → Prop
  | missing : BucketRel p T none none
  | stored {f : GoMap String Int} {c : Bucket} (hl : f.lookup "l" = some c.level)
      (ht : f.lookup "t" = some c.stamp) (level : 0 ≤ c.level ∧ c.level ≤ maxLevel)
      (stamp : 0 ≤ c.stamp ∧ c.stamp ≤ T) :
      BucketRel p T (some c) (some ⟨.hash f, some (c.stamp + 2 * p.window)⟩)

/-- The expiry of a lease among those held. -/
def leaseIn (held : Option (GoMap Bytes Int)) (id : Bytes) : Option Int := held.bind (·.lookup id)

/-- The leases of the model and the members of a sorted set agree on those not expired at
`T`. -/
structure SameLeases (p : Params) (T : Int) (held : Option (GoMap Bytes Int))
    (z : GoMap Bytes Int) : Prop where
  le : ∀ id exp, z.lookup id = some exp → exp ≤ T + p.leaseTTLMs
  same : ∀ id exp, T < exp → (z.lookup id = some exp ↔ leaseIn held id = some exp)

/-- A tenant's leases in the model and the sorted set stored for them. -/
inductive LeaseRel (p : Params) (T : Int) :
    Option (GoMap Bytes Int) → Option Redis.Entry → Prop
  | missing {held : Option (GoMap Bytes Int)}
      (gone : ∀ id exp, leaseIn held id = some exp → exp ≤ T) : LeaseRel p T held none
  | stored {held : Option (GoMap Bytes Int)} {z : GoMap Bytes Int} {E : Int}
      (same : SameLeases p T held z) (le : ∀ id exp, z.lookup id = some exp → exp ≤ E) :
      LeaseRel p T held (some ⟨.zset z, some E⟩)

/-- The buckets of the model and the hashes of the store. -/
def BucketsRel (p : Params) (T : Int) (bs : GoMap Bytes Bucket) (db : Store) : Prop :=
  ∀ (k : KeyKind) (s : Bytes), k ≠ .concurrency →
    BucketRel p T (bs.lookup (k.key s)) (db.lookup (k.key s))

/-- The leases of the model and the sorted sets of the store. -/
def LeasesRel (p : Params) (T : Int) (ls : GoMap Bytes (GoMap Bytes Int)) (db : Store) : Prop :=
  ∀ t, LeaseRel p T (ls.lookup (keyConcurrency t)) (db.lookup (keyConcurrency t))

/-- The model and the store after a run that has reached time `T`. -/
structure Parity (p : Params) (T : Int) (m : Model) (db : Store) : Prop where
  params : m.p = p
  buckets : BucketsRel p T m.buckets db
  leases : LeasesRel p T m.leases db

/-! ### Buckets -/

section Buckets

variable {p : Params} {T now : Int} {db : Store}

theorem BucketRel.mono (h : BucketRel p T b e) (hT : T ≤ now) : BucketRel p now b e := by
  cases h with
  | missing => exact .missing
  | stored hl ht level stamp => exact .stored hl ht level ⟨stamp.1, stamp.2.trans hT⟩

/-- A bucket key always holds a hash or nothing, so its commands succeed. -/
theorem BucketRel.hashAt {k : Bytes} (h : BucketRel p now b (db.lookup k)) :
    ∃ f, Redis.hashAt db now k = .ok f := by
  generalize he : db.lookup k = e at h
  cases h with
  | missing => exact ⟨∅, by unfold Redis.hashAt; rw [Redis.find_of_missing now he]; rfl⟩
  | @stored f c hl ht level stamp =>
    have hfind := Redis.find_of_lookup now he
    cases hlive : Redis.Entry.live now ⟨.hash f, some (c.stamp + 2 * p.window)⟩ with
    | false => exact ⟨∅, by unfold Redis.hashAt; rw [hfind, hlive]; rfl⟩
    | true => exact ⟨f, by unfold Redis.hashAt; rw [hfind, hlive]; rfl⟩

/-- The stamp a check stores is the time it is made at: the stored one is not later. -/
theorem BucketRel.nextStamp_eq (h : BucketRel p now b e) : nextStamp b now = now := by
  cases h with
  | missing => rfl
  | stored hl ht level stamp => exact if_neg (by omega)

variable {rnd : Int → Int} (hrnd : ExactBelow rnd) (hp : p.InRange) (hnow : 0 ≤ now)
  (hnow' : now ≤ maxTime)

include hrnd hp hnow hnow'

/-- The script's check of a bucket key finds what the model's finds, also when Redis has
dropped the key. -/
theorem BucketRel.checkIf_eq {m : Model} (hm : m.p = p) {k : Bytes} {Q tokens ttl : Int}
    (h : BucketRel p now (m.buckets.lookup k) (db.lookup k)) (hQ' : Q ≤ maxQuota)
    (hc : 0 ≤ tokens) (hc' : tokens ≤ maxCost) :
    (scriptArith rnd now p.window ttl).checkIf db now k Q tokens =
      .ok (quotaChecked m now k Q tokens) := by
  unfold Arith.checkIf quotaChecked
  rw [hm]
  generalize m.buckets.lookup k = b at h
  by_cases hQ : Q > 0
  · rw [if_pos hQ, if_pos hQ]
    have hread : ∀ b' : Option Bucket, Redis.hmget db now k ["l", "t"] =
        .ok [b'.map Bucket.level, b'.map Bucket.stamp] →
        (∀ c, b' = some c → 0 ≤ c.level ∧ c.level ≤ maxLevel ∧ 0 ≤ c.stamp ∧ c.stamp ≤ maxTime) →
        (do
          let h ← Redis.hmget db now k ["l", "t"]
          return some (scriptCheck rnd now p.window Q tokens h)) =
          Except.ok (some (checkedOf p b' now Q tokens)) := by
      intro b' hb' hbounds
      rw [hb', ← scriptCheck_eq hrnd hp hnow hnow' hQ hQ' hc hc' hbounds]
      rfl
    generalize he : db.lookup k = e at h
    cases h with
    | missing =>
      refine hread none ?_ nofun
      unfold Redis.hmget Redis.hashAt
      rw [Redis.find_of_missing now he]
      rfl
    | @stored f c hl ht level stamp =>
      by_cases hlive : now ≤ c.stamp + 2 * p.window
      · refine hread (some c) ?_ (fun d hd => ?_)
        · unfold Redis.hmget Redis.hashAt
          rw [Redis.find_of_lookup now he, if_pos (by simpa [Redis.Entry.live] using hlive)]
          show Except.ok [f.lookup "l", f.lookup "t"] = _
          rw [hl, ht]
          rfl
        · obtain rfl := some.inj hd
          exact ⟨level.1, level.2, stamp.1, stamp.2.trans hnow'⟩
      · rw [checkedOf_expired hp level.1 (by omega)]
        refine hread none ?_ nofun
        unfold Redis.hmget Redis.hashAt
        rw [Redis.find_of_lookup now he, if_neg (by simpa [Redis.Entry.live] using hlive)]
        rfl
  · rw [if_neg hQ, if_neg hQ]
    rfl

omit hnow' in
/-- Charging a bucket of the model and storing the check's hash keep the relation, and touch
no other key. -/
theorem BucketsRel.store {bs : GoMap Bytes Bucket} (h : BucketsRel p now bs db) {k : KeyKind}
    (hk : k ≠ .concurrency) (s : Bytes) {d : Check} (hd : d.key = k.key s) {c : Checked Int}
    (hlevel : c.level = d.level) (hneed : c.need = d.need) (hstamp : c.stamp = now)
    (hlo : d.need ≤ d.level) (hhi : d.level - d.need ≤ maxLevel) {ttl : Int} :
    ∃ db', (scriptArith rnd now p.window ttl).storeIf db now (k.key s) (some c) = .ok db' ∧
      BucketsRel p now (charge now bs d) db' ∧
      ∀ k', k' ≠ k.key s → db'.lookup k' = db.lookup k' := by
  obtain ⟨hw, hw'⟩ := hp.window_bounds
  obtain ⟨f, hf⟩ := (h k s hk).hashAt
  have hmax : maxLevel = 3600000000000000 := by decide
  have hlookup : ∀ k', (Redis.pexpire (Redis.put db now (k.key s)
      (.hash ((f.insert "l" (d.level - d.need)).insert "t" now))) now (k.key s)
        (p.window * 2)).lookup k' = _ := fun k' => Redis.lookup_pexpire_put _ (by omega)
  refine ⟨_, ?_, fun k' s' hk' => ?_, fun k' hk' => (hlookup k').trans (if_neg hk')⟩
  · dsimp only [Arith.storeIf, scriptArith]
    rw [Redis.hset_ok hf, hlevel, hneed, hstamp, hrnd _ (by omega) (by omega),
      hrnd (p.window * 2) (by omega) (by omega)]
    rfl
  · rw [hlookup, charge, lookup_insert_ite, hd, (h k s hk).nextStamp_eq]
    split
    · rw [mul_comm p.window]
      exact .stored (by rw [lookup_insert_ne (by decide), lookup_insert])
        (lookup_insert _) ⟨by dsimp only; omega, by dsimp only; omega⟩ ⟨hnow, le_rfl⟩
    · exact h k' s' hk'

end Buckets

/-! ### The longest wait -/

/-- The script's `best_code` and `best_wait` as an outcome. -/
def Best.outcome (b : Best Int) : Outcome :=
  if b.code > 0 then ⟨false, some (limitFromCode b.code), b.wait⟩ else Outcome.none

theorem Best.Ok.retryMs_eq {b : Best Int} (h : b.Ok) : b.outcome.retryMs = b.wait := by
  unfold Best.outcome
  rcases h with ⟨hc, hw⟩ | ⟨hc, hw⟩
  · rw [if_neg (by omega), hw]
    rfl
  · rw [if_pos hc]

theorem Best.Ok.outcome_consider {b : Best Int} (h : b.Ok) {code wait : Int} (hcode : 0 < code)
    (hwait : 0 < wait) : (b.consider code wait).Ok ∧
      (b.consider code wait).outcome = Ratelimit.consider b.outcome (limitFromCode code) wait := by
  refine ⟨(h.consider hcode hwait).1, ?_⟩
  unfold Best.consider Ratelimit.consider
  rw [h.retryMs_eq]
  split
  · exact if_pos hcode
  · rfl

/-- Considering the check of one quota, in the script and in the model. -/
theorem Best.Ok.outcome_considerChecked {b : Best Int} (h : b.Ok) (m : Model) (now : Int)
    (key : Bytes) (Q cost : Int) {code : Int} (hcode : 0 < code) {l : Limit}
    (hl : limitFromCode code = l) {f : Check → Bool} (hf : f (m.checkOf now l key Q cost) = true) :
    (b.considerChecked code (quotaChecked m now key Q cost)).Ok ∧
      (b.considerChecked code (quotaChecked m now key Q cost)).outcome =
        considerChecks f (m.add now l key Q cost) b.outcome := by
  by_cases hQ : Q > 0
  · have hc : quotaChecked m now key Q cost =
      some (checkedOf m.p (m.buckets.lookup key) now Q cost) := if_pos hQ
    have hadd : m.add now l key Q cost = [m.checkOf now l key Q cost] := if_neg (by omega)
    rw [hc, hadd]
    show (if _ then _ else _ : Best Int).Ok ∧ (if _ then _ else _ : Best Int).outcome =
      if (f (m.checkOf now l key Q cost) && !(m.checkOf now l key Q cost).passes) = true
        then _ else _
    rw [hf, Bool.true_and]
    by_cases hlt : level m.p (m.buckets.lookup key) now Q < need cost (capacity m.p Q)
    · have hwait : (checkedOf m.p (m.buckets.lookup key) now Q cost).wait =
          (m.checkOf now l key Q cost).wait := if_pos hlt
      have hpass : (m.checkOf now l key Q cost).passes = false := decide_eq_false (by
        show ¬ need cost _ ≤ level _ _ _ _
        omega)
      have hpos : 0 < (m.checkOf now l key Q cost).wait := ceilDiv_pos (by
        show 0 < need cost _ - level _ _ _ _
        omega) hQ
      rw [hwait, if_pos hpos, hpass, ← hl]
      subst hl
      exact h.outcome_consider hcode hpos
    · have hwait : (checkedOf m.p (m.buckets.lookup key) now Q cost).wait = 0 := if_neg hlt
      have hpass : (m.checkOf now l key Q cost).passes = true := decide_eq_true (by
        show need cost _ ≤ level _ _ _ _
        omega)
      rw [hwait, hpass]
      exact ⟨h, rfl⟩
  · have hc : quotaChecked m now key Q cost = none := if_neg hQ
    have hadd : m.add now l key Q cost = [] := if_pos (by omega)
    rw [hc, hadd]
    exact ⟨h, rfl⟩

/-! ### Leases -/

section Leases

variable {p : Params} {T now : Int} {db : Store} {held : Option (GoMap Bytes Int)}
  {z : GoMap Bytes Int} {k : Bytes}

theorem SameLeases.mono (h : SameLeases p T held z) (hT : T ≤ now) : SameLeases p now held z :=
  ⟨fun id exp hid => (h.le id exp hid).trans (by omega),
    fun id exp hexp => h.same id exp (by omega)⟩

theorem LeaseRel.mono (h : LeaseRel p T held e) (hT : T ≤ now) : LeaseRel p now held e := by
  cases h with
  | missing gone => exact .missing fun id exp hid => (gone id exp hid).trans hT
  | stored same le => exact .stored (same.mono hT) le

/-- What the scripts read of a tenant's leases agrees with the model: a set that Redis has
dropped held only expired leases. If a member is read, the key has an expiry past it. -/
theorem LeaseRel.zsetAt (h : LeaseRel p now held (db.lookup k)) :
    ∃ z, Redis.zsetAt db now k = .ok z ∧ SameLeases p now held z ∧
      (z = ∅ ∨ ∃ E, (Redis.find db now k).bind Redis.Entry.expireAt = some E ∧
        ∀ id exp, z.lookup id = some exp → exp ≤ E) := by
  have hempty : (∀ id exp, leaseIn held id = some exp → exp ≤ now) →
      SameLeases p now held ∅ := fun hgone =>
    ⟨fun id exp hid => by simp at hid, fun id exp hexp =>
      ⟨fun hid => by simp at hid, fun hid => absurd (hgone id exp hid) (by omega)⟩⟩
  generalize he : db.lookup k = e at h
  cases h with
  | missing gone =>
    refine ⟨∅, ?_, hempty gone, .inl rfl⟩
    unfold Redis.zsetAt
    rw [Redis.find_of_missing now he]
    rfl
  | @stored z E same le =>
    have hfind := Redis.find_of_lookup now he
    by_cases hlive : now ≤ E
    · rw [if_pos (by simpa [Redis.Entry.live] using hlive)] at hfind
      refine ⟨z, ?_, same, .inr ⟨E, by rw [hfind]; rfl, le⟩⟩
      unfold Redis.zsetAt
      rw [hfind]
      rfl
    · rw [if_neg (by simpa [Redis.Entry.live] using hlive)] at hfind
      refine ⟨∅, ?_, hempty fun id exp hid => ?_, .inl rfl⟩
      · unfold Redis.zsetAt
        rw [hfind]
        rfl
      · by_contra hexp
        have := le id exp ((same.same id exp (by omega)).mpr hid)
        omega

/-- Dropping the expired members keeps the agreement. -/
theorem SameLeases.keep (h : SameLeases p now held z) :
    SameLeases p now held (z.keep fun _ exp => decide (now < exp)) := by
  refine ⟨fun id exp hid => h.le id exp (of_lookup_keep hid).1, fun id exp hexp => ?_⟩
  rw [lookup_keep, filter_eq_some_iff, h.same id exp hexp]
  simp [hexp]

theorem SameLeases.evict (h : SameLeases p now held z) :
    SameLeases p now (held.map (evict now)) z := by
  refine ⟨h.le, fun id exp hexp => (h.same id exp hexp).trans ?_⟩
  cases held with
  | none => rfl
  | some held =>
    show held.lookup id = some exp ↔ (Ratelimit.evict now held).lookup id = some exp
    rw [Ratelimit.evict, lookup_keep, filter_eq_some_iff]
    simp [hexp]

/-- How many of the leases held have not expired. -/
def heldLen (now : Int) (held : Option (GoMap Bytes Int)) : Nat :=
  match held with
  | some held => (Ratelimit.evict now held).len
  | none => 0

/-- Both sides count the same leases. -/
theorem SameLeases.len_keep (h : SameLeases p now held z) :
    (z.keep fun _ exp => decide (now < exp)).len = heldLen now held := by
  have hlookup : ∀ id, (z.keep fun _ exp => decide (now < exp)).lookup id =
      (leaseIn held id).filter fun exp => decide (now < exp) := by
    intro id
    rw [lookup_keep]
    ext exp
    rw [filter_eq_some_iff, filter_eq_some_iff, decide_eq_true_eq]
    exact and_congr_left fun hexp => h.same id exp hexp
  cases held with
  | none =>
    show _ = (∅ : GoMap Bytes Int).len
    exact len_eq_of_lookup_eq fun id => (hlookup id).trans rfl
  | some held =>
    refine len_eq_of_lookup_eq fun id => ?_
    rw [hlookup, Ratelimit.evict, lookup_keep]
    rfl

theorem SameLeases.getD (h : SameLeases p now held z) :
    SameLeases p now (some (held.getD ∅)) z := by
  cases held with
  | none => exact ⟨h.le, fun id exp hexp => (h.same id exp hexp).trans (by simp [leaseIn])⟩
  | some held => exact h

/-- A new lease, or a new expiry for one, on both sides. -/
theorem SameLeases.insert {held' : GoMap Bytes Int} (h : SameLeases p now (some held') z)
    (id : Bytes) : SameLeases p now (some (held'.insert id (now + p.leaseTTLMs)))
      (z.insert id (now + p.leaseTTLMs)) := by
  refine ⟨fun id' exp hid => ?_, fun id' exp hexp => ?_⟩
  · rcases of_lookup_insert hid with ⟨-, rfl⟩ | ⟨-, hid⟩
    · exact le_rfl
    · exact h.le id' exp hid
  · show _ ↔ (held'.insert id _).lookup id' = some exp
    rw [lookup_insert_ite, lookup_insert_ite]
    split
    · exact Iff.rfl
    · exact h.same id' exp hexp

theorem leaseIn_erase (held : Option (GoMap Bytes Int)) (id id' : Bytes) :
    leaseIn (held.map (·.erase id)) id' = if id' = id then none else leaseIn held id' := by
  cases held with
  | none => simp [leaseIn]
  | some held => exact lookup_erase_ite id id' held

theorem SameLeases.erase (h : SameLeases p now held z) (id : Bytes) :
    SameLeases p now (held.map (·.erase id)) (z.erase id) := by
  refine ⟨fun id' exp hid => h.le id' exp (of_lookup_erase hid).2, fun id' exp hexp => ?_⟩
  rw [lookup_erase_ite, leaseIn_erase]
  split
  · exact Iff.rfl
  · exact h.same id' exp hexp

/-- Writing back some of the members that were read, with the model's leases changed alike. -/
theorem LeaseRel.putZset {held' : Option (GoMap Bytes Int)} {z' : GoMap Bytes Int}
    (hsub : ∀ id exp, z'.lookup id = some exp → z.lookup id = some exp)
    (hz : z = ∅ ∨ ∃ E, (Redis.find db now k).bind Redis.Entry.expireAt = some E ∧
      ∀ id exp, z.lookup id = some exp → exp ≤ E) (h : SameLeases p now held' z') :
    LeaseRel p now held' ((Redis.putZset db now k z').lookup k) := by
  rw [Redis.lookup_putZset, if_pos rfl]
  by_cases hlen : z'.len = 0
  · have hempty : z' = ∅ := AList.ext (List.length_eq_zero_iff.mp hlen)
    rw [if_pos hlen]
    refine .missing fun id exp hid => ?_
    by_contra hexp
    have := (h.same id exp (by omega)).mpr hid
    simp [hempty] at this
  · rw [if_neg hlen]
    rcases hz with rfl | ⟨E, hE, hle⟩
    · refine absurd (show z'.len = (∅ : GoMap Bytes Int).len from ?_) hlen
      refine len_eq_of_lookup_eq fun id => ?_
      cases hid : z'.lookup id with
      | none => rfl
      | some exp => simpa using hsub id exp hid
    · rw [hE]
      exact .stored h fun id exp hid => hle id exp (hsub id exp hid)

/-- The script's look at the leases: it drops the expired ones, as the model does, and
considers a refusal for the same number of them. -/
theorem LeaseRel.checkLeases (h : LeaseRel p now held (db.lookup k)) (mc : Int) (b : Best Int)
    {a : Arith Int} (ha : a.now = now) :
    ∃ db', a.checkLeases db now k mc b = .ok (db', if mc > 0 ∧ mc ≤ (heldLen now held : Int)
        then b.consider 3 1000 else b) ∧
      LeaseRel p now (if mc > 0 then held.map (Ratelimit.evict now) else held) (db'.lookup k) ∧
      ∀ k', k' ≠ k → db'.lookup k' = db.lookup k' := by
  unfold Arith.checkLeases
  rw [ha]
  by_cases hmc : mc > 0
  · obtain ⟨z, hz, hsame, hE⟩ := h.zsetAt
    have hrem : Redis.zremrangebyscore db now k now =
        .ok (Redis.putZset db now k (z.keep fun _ exp => decide (now < exp))) := by
      unfold Redis.zremrangebyscore
      rw [hz]
      rfl
    have hcard : Redis.zcard (Redis.putZset db now k (z.keep fun _ exp => decide (now < exp)))
        now k = .ok (z.keep fun _ exp => decide (now < exp)).len := by
      unfold Redis.zcard
      rw [Redis.zsetAt_putZset]
      rfl
    refine ⟨Redis.putZset db now k (z.keep fun _ exp => decide (now < exp)), ?_, ?_,
      fun k' hk' => (Redis.lookup_putZset _).trans (if_neg hk')⟩
    · rw [if_pos hmc, hrem]
      show (do
        let n ← Redis.zcard _ now k
        return (_, if (n : Int) ≥ mc then b.consider 3 1000 else b)) = _
      rw [hcard, hsame.len_keep]
      simp only [hmc, true_and, ge_iff_le]
      rfl
    · rw [if_pos hmc]
      exact LeaseRel.putZset (fun id exp hid => (of_lookup_keep hid).1) hE hsame.evict.keep
  · refine ⟨db, ?_, by rwa [if_neg hmc], fun k' _ => rfl⟩
    rw [if_neg hmc, if_neg (fun hc => hmc hc.1)]
    rfl

/-- Taking the lease. -/
theorem LeaseRel.storeLease {rnd : Int → Int} (hrnd : ExactBelow rnd) (hp : p.InRange)
    (hnow : 0 ≤ now) (hnow' : now ≤ maxTime) (h : LeaseRel p now held (db.lookup k))
    (argv : AcquireArgs) (hmc : argv.maxConcurrent > 0) {window : Int} :
    ∃ db', (scriptArith rnd now window p.leaseTTLMs).storeLease db now k argv = .ok db' ∧
      LeaseRel p now (some ((held.getD ∅).insert argv.leaseID (now + p.leaseTTLMs)))
        (db'.lookup k) ∧
      ∀ k', k' ≠ k → db'.lookup k' = db.lookup k' := by
  obtain ⟨z, hz, hsame, -⟩ := h.zsetAt
  have hge := hp.ttl_ge
  have hle := hp.ttl_le
  have htime : maxTime = 2 ^ 52 := rfl
  have hadd : Redis.zadd db now k (now + p.leaseTTLMs) argv.leaseID =
      .ok (Redis.putZset db now k (z.insert argv.leaseID (now + p.leaseTTLMs))) := by
    unfold Redis.zadd
    rw [hz]
    rfl
  have hlen : (z.insert argv.leaseID (now + p.leaseTTLMs)).len ≠ 0 := by
    rw [AList.len, entries_insert]
    simp
  have hlookup : ∀ k', (Redis.pexpire (Redis.putZset db now k
      (z.insert argv.leaseID (now + p.leaseTTLMs))) now k (p.leaseTTLMs * 2)).lookup k' = _ :=
    fun k' => Redis.lookup_pexpire_putZset hlen (by omega)
  refine ⟨_, ?_, ?_, fun k' hk' => (hlookup k').trans (if_neg hk')⟩
  · dsimp only [Arith.storeLease, scriptArith]
    rw [if_pos hmc, hrnd (now + p.leaseTTLMs) (by omega) (by omega), hadd,
      hrnd (p.leaseTTLMs * 2) (by omega) (by omega)]
    rfl
  · rw [hlookup, if_pos rfl]
    have hnew := hsame.getD.insert argv.leaseID
    exact .stored hnew fun id exp hid => (hnew.le id exp hid).trans (by omega)

end Leases

end ServerFlow.Ratelimit
