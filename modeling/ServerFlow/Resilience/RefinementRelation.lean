import ServerFlow.Resilience.ReferenceRules

/-!
# Resilience.RefinementRelation

When a set of breakers can be compared with the reference, and what relates the two.

The callers keep to a protocol: the clock does not go back, tickets are taken for keys of the
last `Sync`, a key that `Sync` or `Prune` dropped does not come back, and an OK is turned into
a fault at most once, at the instant it was recorded. `Client` is what they have to remember
for that. Plain tickets of one breaker and epoch are the same value, so the protocol counts the OKs
recorded with a ticket instead of telling tickets apart.

`SimAt` relates one breaker to the list of its outcomes, and `Mirrors` the two sets.
-/

namespace ServerFlow.Resilience

open List

variable {t : Ticket} {v : Verdict} {okAt : Time}

/-! ### The callers -/

/-- What the callers of a set of breakers remember. -/
structure Client where
  /-- The last clock reading. -/
  now : Time
  /-- The registration that a worker ID has a breaker for. -/
  live : String → Option Key
  /-- Every key that was in a `Sync`. -/
  seen : List Key
  /-- The keys of the last `Sync`. -/
  synced : List Key
  issued : List Ticket
  /-- The OKs recorded and not aborted, with their instants. -/
  oks : List (Ticket × Time)

def Client.start (t : Time) : Client := ⟨t, fun _ => none, [], [], [], []⟩

def Client.at (g : Client) (now : Time) : Client := { g with now := now }

def Client.syncMember (g : Client) (m : Member) : Client :=
  { g with live := Function.update g.live m.key.id (some m.key), seen := m.key :: g.seen }

/-- No member has a key that was dropped before. -/
def Client.admitsMembers : Client → List Member → Prop
  | _, [] => True
  | g, m :: ms =>
    (g.live m.key.id = some m.key ∨ m.key ∉ g.seen) ∧ (g.syncMember m).admitsMembers ms

/-- The clock has no say in which members are admitted. -/
theorem Client.admitsMembers_at {g : Client} {members : List Member} (h : g.admitsMembers members)
    (now : Time) : (g.at now).admitsMembers members := by
  induction members generalizing g with
  | nil => trivial
  | cons m ms ih => exact ⟨h.1, ih h.2⟩

/-- The operations the callers may make next. -/
def Client.permits (g : Client) : BreakersOp → Prop
  | .sync members => g.admitsMembers members
  | .acquire k => k ∈ g.synced
  | .record t _ => t.valid = true → t ∈ g.issued
  | .recordLate t _ => t.valid = true → t ∈ g.issued
  | .recordAbort t okAt =>
    t.valid = true → t ∈ g.issued ∧ (t.probe = false → (t, okAt) ∈ g.oks)
  | .release t => t.valid = true → t ∈ g.issued
  | _ => True

def Client.admits (g : Client) (c : BreakersCall) : Prop := g.now ≤ c.now ∧ g.permits c.op

instance Client.decidableAdmitsMembers :
    (g : Client) → (members : List Member) → Decidable (g.admitsMembers members)
  | _, [] => isTrue trivial
  | g, m :: ms =>
    have := decidableAdmitsMembers (g.syncMember m) ms
    inferInstanceAs (Decidable (_ ∧ _))

instance Client.decidablePermits (g : Client) : (op : BreakersOp) → Decidable (g.permits op)
  | .sync members => inferInstanceAs (Decidable (g.admitsMembers members))
  | .acquire k => inferInstanceAs (Decidable (k ∈ g.synced))
  | .record t _ | .recordLate t _ | .release t =>
    inferInstanceAs (Decidable (t.valid = true → t ∈ g.issued))
  | .recordAbort t okAt => inferInstanceAs
      (Decidable (t.valid = true → t ∈ g.issued ∧ (t.probe = false → (t, okAt) ∈ g.oks)))
  | .prune _ | .admissible _ | .state _ | .snapshot | .counts | .retryAfter => isTrue trivial

instance (g : Client) (c : BreakersCall) : Decidable (g.admits c) :=
  inferInstanceAs (Decidable (_ ∧ _))

/-- The answer to `Acquire`. -/
def Client.acquired (g : Client) : BreakersReply → Client
  | .ticket t true => { g with issued := t :: g.issued }
  | _ => g

def Client.recorded (g : Client) (t : Ticket) (v : Verdict) : Client :=
  if v = .ok ∧ t.valid = true then { g with oks := (t, g.now) :: g.oks } else g

def Client.aborted (g : Client) (t : Ticket) (okAt : Time) : Client :=
  { g with oks := g.oks.erase (t, okAt) }

/-- What the callers remember of an operation and its answer. -/
def Client.observe (g : Client) (c : BreakersCall) (out : BreakersReply × List Change) : Client :=
  match c.op with
  | .sync members =>
    let g := members.foldl Client.syncMember (g.at c.now)
    { g with
      live := fun id => if id ∈ memberIDs members then g.live id else none
      synced := members.map (·.key) }
  | .prune keep =>
    { g.at c.now with live := fun id => (g.live id).filter fun k => decide (k ∈ keep) }
  | .acquire _ => (g.at c.now).acquired out.1
  | .record t v => (g.at c.now).recorded t v
  | .recordAbort t okAt => (g.at c.now).aborted t okAt
  | _ => g.at c.now

/-! ### One breaker -/

/-- A ticket of the breaker with key `k` that is not a probe. -/
def Ticket.plainFor (k : Key) (t : Ticket) : Bool := t.valid && !t.probe && decide (t.key = k)

/-- An OK recorded at `t` that counts for the breaker in its current epoch. -/
def Breaker.counted (b : Breaker) (t : Time) (x : Ticket × Time) : Bool :=
  x.1.plainFor b.key && decide (x.1.epoch = b.epoch ∧ x.2 = t)

/-- The breaker under a worker ID stands for the reference breaker with these outcomes. The
protocol adds two facts: a plain ticket of the current epoch is one of a closed breaker, and
every OK that can still be aborted is in the list. -/
structure SimAt (p : BreakerParams) (g : Client) (id : String) (b : Breaker)
    (events : List RefEvent) : Prop where
  home : b.key.id = id
  evidence : Evidence p g.now b events
  epochs : ∀ t ∈ g.issued, t.plainFor b.key = true →
    t.epoch ≤ b.epoch ∧ (b.state ≠ .closed → t.epoch < b.epoch)
  oks : b.state = .closed → ∀ t, g.oks.countP (b.counted t) ≤ events.countP (·.isOKAt t)

def Sim (p : BreakerParams) (g : Client) (id : String) (b : Breaker) (rb : RefBreaker) : Prop :=
  ∃ events, rb = b.toRef events ∧ SimAt p g id b events

/-- Only the clock, the tickets and the OKs of the callers matter to a breaker. -/
theorem Sim.of_view {p : BreakerParams} {g g' : Client} {id : String} {b : Breaker}
    {rb : RefBreaker} (h : Sim p g id b rb) (hnow : g'.now = g.now) (hissued : g'.issued = g.issued)
    (hoks : g'.oks = g.oks) : Sim p g' id b rb := by
  obtain ⟨events, heq, hsim⟩ := h
  refine ⟨events, heq, hsim.home, ?_, ?_, ?_⟩
  · rw [hnow]
    exact hsim.evidence
  · rw [hissued]
    exact hsim.epochs
  · rw [hoks]
    exact hsim.oks

/-- What the callers learn about one key leaves the other breakers alone. -/
structure Client.Touched (g : Client) (k : Key) (g' : Client) : Prop where
  now : g'.now = g.now
  live : g'.live = g.live
  seen : g'.seen = g.seen
  synced : g'.synced = g.synced
  issued : ∀ t ∈ g'.issued, t ∈ g.issued ∨ t.key = k
  recorded : ∀ x ∈ g'.oks, x ∈ g.oks ∨ x.1 ∈ g'.issued
  kept : ∀ t ∈ g.issued, t ∈ g'.issued
  other : ∀ q : Ticket × Time → Bool, (∀ x, q x = true → x.1.key ≠ k) →
    g'.oks.countP q ≤ g.oks.countP q

theorem Client.Touched.refl (g : Client) (k : Key) : g.Touched k g :=
  ⟨rfl, rfl, rfl, rfl, fun _ h => .inl h, fun _ h => .inl h, fun _ h => h, fun _ _ => le_rfl⟩

namespace SimAt

variable {p : BreakerParams} {g : Client} {id : String} {b : Breaker} {events : List RefEvent}

variable (h : SimAt p g id b events)
include h

/-- The clock advances. -/
theorem at_time {now : Time} (hle : g.now ≤ now) : SimAt p (g.at now) id b events :=
  ⟨h.home, h.evidence.mono hle, h.epochs, h.oks⟩

theorem touched {k : Key} {g' : Client} (ht : g.Touched k g')
    (hk : b.key ≠ k) : SimAt p g' id b events := by
  refine ⟨h.home, by rw [ht.now]; exact h.evidence, fun t hmem hplain => ?_, fun hst t => ?_⟩
  · have hkey : t.key = b.key := by
      simp only [Ticket.plainFor, Bool.and_eq_true, decide_eq_true_eq] at hplain
      exact hplain.2
    rcases ht.issued t hmem with hold | hnew
    · exact h.epochs t hold hplain
    · exact absurd (hkey.symm.trans hnew) hk
  · refine (ht.other _ fun x hx => ?_).trans (h.oks hst t)
    simp only [Breaker.counted, Ticket.plainFor, Bool.and_eq_true, decide_eq_true_eq] at hx
    rw [hx.1.2]
    exact hk

/-- Fields that no rule reads may change. -/
theorem congr {b' : Breaker} (hkey : b'.key = b.key)
    (hwin : b'.win = b.win) (hstreak : b'.streak = b.streak) (hepoch : b'.epoch = b.epoch)
    (hstate : b'.state = .closed ↔ b.state = .closed) : SimAt p g id b' events := by
  refine ⟨hkey ▸ h.home, h.evidence.congr hwin hstreak, fun t hmem hplain => ?_, fun hst t => ?_⟩
  · rw [hkey] at hplain
    rw [hepoch, Ne, hstate]
    exact h.epochs t hmem hplain
  · have hcounted : b'.counted t = b.counted t := by
      funext x
      unfold Breaker.counted
      rw [hkey, hepoch]
    rw [hcounted]
    exact h.oks (hstate.mp hst) t

theorem advance (now : Time) : SimAt p g id (b.advance now p).1 events := by
  unfold Breaker.advance
  split
  next hopen => exact h.congr rfl rfl rfl rfl (by simp [hopen.1])
  next =>
    split
    · exact h.congr rfl rfl rfl rfl Iff.rfl
    · exact h

/-- Opening starts an epoch, which no ticket has yet. -/
theorem openNow (now : Time) (fromProbe : Bool) (r : ℚ) :
    SimAt p g id (b.openNow now fromProbe p r) events := by
  refine ⟨h.home, h.evidence.congr rfl rfl, fun t hmem hplain => ?_, nofun⟩
  have hle := (h.epochs t hmem hplain).1
  show t.epoch ≤ b.epoch + 1 ∧ (_ → t.epoch < b.epoch + 1)
  omega

/-- Closing forgets the outcomes; no OK of the epoch can be aborted. -/
theorem close (hst : b.state ≠ .closed)
    (hrec : ∀ x ∈ g.oks, x.1 ∈ g.issued) (now : Time) : SimAt p g id (b.close now) [] := by
  refine ⟨h.home, h.evidence.close now, fun t hmem hplain => ?_, fun _ t => ?_⟩
  · exact ⟨(h.epochs t hmem hplain).1, fun hne => absurd rfl hne⟩
  · have hnone : g.oks.countP ((b.close now).counted t) = 0 := by
      rw [countP_eq_zero]
      intro x hx hcounted
      simp only [Breaker.counted, Bool.and_eq_true, decide_eq_true_eq] at hcounted
      have hlt := (h.epochs x.1 (hrec x hx) hcounted.1).2 hst
      have heq : x.1.epoch = b.epoch := hcounted.2.1
      omega
    rw [hnone]
    exact Nat.zero_le _

/-- Counting an outcome; an OK may be aborted later. -/
theorem count (t : Ticket) (hv : v ≠ .neutral) :
    SimAt p (g.recorded t v) id (b.count g.now v) (events ++ [⟨g.now, v, false⟩]) := by
  have hframe : (b.count g.now v).key = b.key ∧ (b.count g.now v).epoch = b.epoch ∧
      (b.count g.now v).state = b.state := by
    cases v <;> exact ⟨rfl, rfl, rfl⟩
  obtain ⟨hkey, hepoch, hstate⟩ := hframe
  have hnow : (g.recorded t v).now = g.now := by unfold Client.recorded; split <;> rfl
  have hissued : (g.recorded t v).issued = g.issued := by unfold Client.recorded; split <;> rfl
  refine ⟨hkey ▸ h.home, by rw [hnow]; exact h.evidence.count hv, fun s hmem hplain => ?_,
    fun hst s => ?_⟩
  · rw [hissued] at hmem
    rw [hkey] at hplain
    rw [hepoch, hstate]
    exact h.epochs s hmem hplain
  · have hcounted : (b.count g.now v).counted s = b.counted s := by
      funext x
      unfold Breaker.counted
      rw [hkey, hepoch]
    have hle := h.oks (hstate ▸ hst) s
    rw [hcounted, countP_append, countP_singleton]
    unfold Client.recorded
    split
    next hok =>
      -- the new OK is the only one added, on both sides
      rw [countP_cons]
      have himp : b.counted s (t, g.now) = true →
          RefEvent.isOKAt s ⟨g.now, v, false⟩ = true := by
        intro hc
        simp only [Breaker.counted, Bool.and_eq_true, decide_eq_true_eq] at hc
        simp [RefEvent.isOKAt, hok.1, hc.2.2]
      by_cases hc : b.counted s (t, g.now) = true
      · rw [if_pos hc, if_pos (himp hc)]
        omega
      · rw [if_neg hc]
        omega
    next => omega


/-- A new ticket: if it is a plain one of this breaker, it is of the current epoch of a closed
breaker. -/
theorem issue (t : Ticket)
    (ht : t.plainFor b.key = true → t.epoch = b.epoch ∧ b.state = .closed) :
    SimAt p { g with issued := t :: g.issued } id b events := by
  refine ⟨h.home, h.evidence, fun s hmem hplain => ?_, h.oks⟩
  rcases mem_cons.mp hmem with rfl | hold
  · exact ⟨(ht hplain).1.le, fun hne => absurd (ht hplain).2 hne⟩
  · exact h.epochs s hold hplain

/-- An OK that does not count for the breaker. -/
theorem recorded_of_uncounted (hun : ∀ s, b.state = .closed → b.counted s (t, g.now) = false) :
    SimAt p (g.recorded t v) id b events := by
  unfold Client.recorded
  split
  · refine ⟨h.home, h.evidence, h.epochs, fun hst s => ?_⟩
    rw [countP_cons, hun s hst]
    exact h.oks hst s
  · exact h

theorem recorded_of_probe (ht : t.probe = true)
    (v : Verdict) : SimAt p (g.recorded t v) id b events :=
  h.recorded_of_uncounted fun s _ => by simp [Breaker.counted, Ticket.plainFor, ht]

theorem recorded_of_epoch (ht : b.epoch ≠ t.epoch)
    (v : Verdict) : SimAt p (g.recorded t v) id b events :=
  h.recorded_of_uncounted fun s _ => by simp [Breaker.counted, Ne.symm ht]

end SimAt

/-- Converting an OK leaves one OK less at its instant. -/
theorem countP_isOKAt_convertOK {events : List RefEvent}
    (h : 0 < events.countP (·.isOKAt okAt)) (s : Time) :
    (convertOK okAt events).countP (·.isOKAt s) + (if s = okAt then 1 else 0) =
      events.countP (·.isOKAt s) := by
  induction events with
  | nil => simp at h
  | cons e es ih =>
    unfold convertOK
    split
    next hok =>
      have hnew : RefEvent.isOKAt s { e with converted := true } = false := by
        simp [RefEvent.isOKAt]
      have hold : e.isOKAt s = decide (s = okAt) := by
        unfold RefEvent.isOKAt
        exact decide_eq_decide.mpr ⟨fun he => he.2.2.symm.trans hok.2.2,
          fun he => ⟨hok.1, hok.2.1, hok.2.2.trans he.symm⟩⟩
      rw [countP_cons, countP_cons, hnew, hold]
      by_cases hs : s = okAt <;> simp [hs]
    next hok =>
      have hpos : 0 < es.countP (·.isOKAt okAt) := by
        rwa [countP_cons, RefEvent.isOKAt, decide_eq_false hok] at h
      rw [countP_cons, countP_cons, ← ih hpos]
      omega

/-- Aborting an OK that counts: it is in the list, and it can be aborted once less. -/
theorem SimAt.convert {p : BreakerParams} {g : Client} {id : String} {b : Breaker}
    {events : List RefEvent} (h : SimAt p g id b events) (hst : b.state = .closed)
    (hmem : (t, okAt) ∈ g.oks) (hplain : t.plainFor b.key = true) (hepoch : t.epoch = b.epoch) :
    SimAt p (g.aborted t okAt) id { b with win := b.win.add okAt g.now .all (-1) }
      (convertOK okAt events) := by
  have hcounted : b.counted okAt (t, okAt) = true := by simp [Breaker.counted, hplain, hepoch]
  have hpos : 0 < events.countP (·.isOKAt okAt) :=
    lt_of_lt_of_le (countP_pos_iff.mpr ⟨_, hmem, hcounted⟩) (h.oks hst okAt)
  refine ⟨h.home, h.evidence.convert hpos, h.epochs, fun _ s => ?_⟩
  have hle := h.oks hst s
  have hconv := countP_isOKAt_convertOK hpos s
  show (g.oks.erase (t, okAt)).countP (b.counted s) ≤ _
  rw [countP_erase]
  by_cases hs : s = okAt
  · subst hs
    rw [if_pos ⟨hmem, hcounted⟩]
    rw [if_pos rfl] at hconv
    omega
  · rw [if_neg hs] at hconv
    omega

/-! ### Operations on one breaker -/

def Acted.toRef (r : Acted) (events : List RefEvent) : RefActed :=
  ⟨r.b.toRef events, r.reply, r.changes, r.draws⟩

/-- An operation does to the breaker what the reference does. -/
def ActSim (p : BreakerParams) (g : Client) (id : String) (b : Breaker) (r : Acted)
    (rr : RefActed) : Prop :=
  ∃ events, rr = r.toRef events ∧ SimAt p g id r.b events ∧ r.b.key = b.key

/-- The parameters and the jitter of the two sets. -/
structure Agree (bs : Breakers) (m : RefModel) : Prop where
  normal : bs.p.Normal
  p : m.p = bs.p
  rnd : m.rnd = bs.rnd
  draws : m.draws = bs.draws

/-- The cap has room for the breaker in both sets, or in neither. -/
def SameRoom (bs : Breakers) (m : RefModel) (b : Breaker) : Prop :=
  bs.roomToOpen b = true ↔ ¬ (b.eligible = true ∧ m.openCount b.model ≥ m.limit b.model)

section Acts

variable {bs : Breakers} {m : RefModel} {g : Client} {id : String} {b : Breaker}
  {events : List RefEvent}

theorem actSim_quiet (h : SimAt bs.p g id b events) (reply : BreakersReply) :
    ActSim bs.p g id b (.quiet b reply) (.quiet (b.toRef events) reply) := ⟨events, rfl, h, rfl⟩

theorem admissible_sim (hm : Agree bs m) (h : SimAt bs.p g id b events) :
    ActSim bs.p g id b (admissibleAct bs b) (m.admissible (b.toRef events)) := by
  have hreply : m.admissible (b.toRef events) =
      .quiet (b.toRef events) (.admissible (decide (b.state = .closed) || b.probeFree bs.p)) := by
    unfold RefModel.admissible Breaker.probeFree
    rw [hm.p, Bool.decide_and]
    rfl
  rw [hreply]
  exact actSim_quiet h _

theorem state_sim (h : SimAt bs.p g id b events) :
    ActSim bs.p g id b (stateAct bs b) (m.state (b.toRef events)) := actSim_quiet h _

/-- A plain ticket is issued by a closed breaker, in its epoch. -/
theorem acquire_sim (hm : Agree bs m) (h : SimAt bs.p g id b events) (k : Key) (now : Time) :
    ActSim bs.p (g.acquired (acquireAct k now bs b).reply) id b (acquireAct k now bs b)
      (m.acquire k now (b.toRef events)) := by
  have href : ∀ {s : State}, b.state = s → (b.toRef events).state = s := fun h => h
  unfold acquireAct
  split
  next hst =>
    refine ⟨events, ?_, h.issue _ fun _ => ⟨rfl, hst⟩, rfl⟩
    unfold RefModel.acquire
    rw [href hst]
    rfl
  next hst =>
    have hhalf : m.acquire k now (b.toRef events) =
        if (b.tickets.len : Int) ≥ m.p.probeConcurrency then
          .quiet (b.toRef events) (.ticket Ticket.zero false)
        else
          .quiet (Breaker.toRef
            { b with nextID := b.nextID + 1, tickets := b.tickets.insert (b.nextID + 1) now }
              events)
            (.ticket ⟨k, b.nextID + 1, b.epoch, true, true⟩ true) := by
      unfold RefModel.acquire
      split
      next hst' => exact absurd (hst.symm.trans hst') (by decide)
      next => rfl
      next hst' => exact absurd (hst.symm.trans hst') (by decide)
    have hfree : b.probeFree bs.p = true ↔ ¬ (b.tickets.len : Int) ≥ m.p.probeConcurrency := by
      simp [Breaker.probeFree, hst, hm.p]
    rw [hhalf]
    split
    next hf =>
      rw [if_neg (hfree.mp hf)]
      have hissue : SimAt bs.p g id
          { b with nextID := b.nextID + 1, tickets := b.tickets.insert (b.nextID + 1) now }
            events :=
        h.congr rfl rfl rfl rfl Iff.rfl
      refine ⟨events, rfl, hissue.issue _ fun hplain => ?_, rfl⟩
      simp [Ticket.plainFor] at hplain
    next hf =>
      rw [if_pos (not_not.mp fun hn => hf (hfree.mpr hn))]
      exact actSim_quiet h _
  next hst =>
    refine ⟨events, ?_, h, rfl⟩
    unfold RefModel.acquire
    rw [href hst]
    rfl

theorem probeFailed_sim (hm : Agree bs m) (h : SimAt bs.p g id b events) (now : Time) :
    ActSim bs.p g id b (probeFailed now bs b) (m.reopen now (b.toRef events)) := by
  refine ⟨events, ?_, h.openNow now true _, rfl⟩
  unfold RefModel.reopen
  rw [hm.p, hm.rnd, hm.draws, toRef_openNow b events now hm.normal]
  rfl

theorem tripped_sim (hm : Agree bs m) (h : SimAt bs.p g id b events) (now : Time)
    (hroom : SameRoom bs m b) (why : Option (Reason × Int)) :
    ActSim bs.p g id b (tripped now bs b why) (m.tripped now (b.toRef events) why) := by
  cases why with
  | none => exact ⟨events, rfl, h.congr rfl rfl rfl rfl Iff.rfl, rfl⟩
  | some why =>
    obtain ⟨reason, failures⟩ := why
    unfold tripped
    dsimp only
    split
    next hr =>
      refine ⟨events, (if_neg (hroom.mp hr)).trans ?_, h.openNow now false _, rfl⟩
      rw [hm.p, hm.rnd, hm.draws, toRef_openNow b events now hm.normal]
      rfl
    next hr =>
      have hfull := not_not.mp fun hn => hr (hroom.mpr hn)
      split
      next hsup => exact ⟨events, (if_pos hfull).trans (if_pos hsup), h, rfl⟩
      next hsup =>
        exact ⟨events, (if_pos hfull).trans (if_neg hsup), h.congr rfl rfl rfl rfl Iff.rfl, rfl⟩

theorem countClosed_sim (hm : Agree bs m) (h : SimAt bs.p g id b events) (t : Ticket) (v : Verdict)
    (hroom : b.state = .closed → SameRoom bs m b) :
    ActSim bs.p (g.recorded t v) id b (countClosed g.now v bs b)
      (m.countClosed g.now v (b.toRef events)) := by
  unfold countClosed
  split
  next hskip =>
    refine ⟨events, if_pos hskip, ?_, rfl⟩
    rcases hskip with hst | hv
    · exact h.recorded_of_uncounted fun _ hst' => absurd hst' hst
    · subst hv
      exact h
  next hskip =>
    obtain ⟨hst, hv⟩ := not_or.mp hskip
    have hrec : b.recordClosed g.now v bs.p =
        (b.count g.now v, (b.count g.now v).tripReason g.now v bs.p) := if_neg hv
    have href : m.countClosed g.now v (b.toRef events) =
        m.tripped g.now ((b.count g.now v).toRef (events ++ [⟨g.now, v, false⟩]))
          (((b.count g.now v).toRef (events ++ [⟨g.now, v, false⟩])).tripReason g.now v bs.p) := by
      refine (if_neg hskip).trans ?_
      rw [hm.p]
      cases v <;> rfl
    have hroom' : SameRoom bs m (b.count g.now v) := by
      have := hroom (not_not.mp hst)
      cases v <;> exact this
    rw [href, ← (h.evidence.count hv).tripReason_eq hm.normal v]
    simp only [hrec]
    obtain ⟨events', hr, hsim, hkey⟩ := tripped_sim hm (h.count t hv) g.now hroom'
      ((b.count g.now v).tripReason g.now v bs.p)
    exact ⟨events', hr, hsim, hkey.trans (by cases v <;> rfl)⟩

/-- The callers learn nothing from an outcome that is not an OK. -/
theorem recorded_of_fault (g : Client) (t : Ticket) (hv : v ≠ .ok) :
    g.recorded t v = g := if_neg fun h => hv h.1

theorem probePassed_sim (hm : Agree bs m) (h : SimAt bs.p g id b events) (hst : b.state ≠ .closed)
    (hrec : ∀ x ∈ g.oks, x.1 ∈ g.issued) (now : Time) :
    ActSim bs.p g id b (probePassed now bs b)
      (let b := { b.toRef events with successes := (b.toRef events).successes + 1 }
      if b.successes ≥ m.p.probeSuccesses then
        ⟨b.close now, .done, [Change.plain b.key .halfOpen .closed .probesPassed 0], 0⟩
      else .quiet b .done) := by
  have hnext : SimAt bs.p g id { b with successes := b.successes + 1 } events :=
    h.congr rfl rfl rfl rfl Iff.rfl
  unfold probePassed
  dsimp only
  split
  next hpass =>
    refine ⟨[], (if_pos (by rw [hm.p]; exact hpass)).trans rfl, ?_, rfl⟩
    exact SimAt.close hnext hst hrec now
  next hpass => exact ⟨events, if_neg (by rw [hm.p]; exact hpass), hnext, rfl⟩

theorem record_sim (hm : Agree bs m) (h : SimAt bs.p g id b events) (t : Ticket) (v : Verdict)
    (hrec : ∀ x ∈ g.oks, x.1 ∈ g.issued) (hroom : b.state = .closed → SameRoom bs m b) :
    ActSim bs.p (g.recorded t v) id b (recordAct t v g.now bs b)
      (m.record t v g.now (b.toRef events)) := by
  unfold recordAct RefModel.record
  split
  next hprobe =>
    split
    next hstale =>
      refine ⟨events, ?_, h.recorded_of_probe hprobe v, rfl⟩
      by_cases hcur : b.state ≠ .halfOpen ∨ b.epoch ≠ t.epoch
      · exact if_pos hcur
      · exact (if_neg hcur).trans
          (if_pos (hstale.elim (fun h => absurd (.inl h) hcur)
            fun h => h.resolve_left fun h => hcur (.inr h)))
    next hcur =>
      rw [not_or, not_or, not_not, not_not] at hcur
      have hst : b.state ≠ .closed := by
        rw [hcur.1]
        decide
      rw [if_neg (show ¬ ((b.toRef events).state ≠ .halfOpen ∨ (b.toRef events).epoch ≠ t.epoch)
        from not_or.mpr ⟨not_not_intro hcur.1, not_not_intro hcur.2.1⟩),
        if_neg (show ¬ (b.toRef events).tickets.lookup t.id = none from hcur.2.2)]
      have hback : SimAt bs.p g id { b with tickets := b.tickets.erase t.id } events :=
        h.congr rfl rfl rfl rfl Iff.rfl
      -- the ticket is used up; then the verdict decides
      suffices hsim : ∃ events', _ = Acted.toRef _ events' ∧ SimAt bs.p g id _ events' ∧
          _ = b.key by
        obtain ⟨events', heq, hsim, hkey⟩ := hsim
        exact ⟨events', heq, hsim.recorded_of_probe hprobe v, hkey⟩
      cases v with
      | neutral => exact actSim_quiet hback _
      | ok => exact probePassed_sim hm hback hst hrec g.now
      | fault => exact probeFailed_sim hm hback g.now
      | ratioFault => exact probeFailed_sim hm hback g.now
  next =>
    split
    next hepoch => exact ⟨events, if_pos hepoch, h.recorded_of_epoch hepoch v, rfl⟩
    next hepoch =>
      rw [if_neg (show ¬ (b.toRef events).epoch ≠ t.epoch from hepoch)]
      exact countClosed_sim hm h t v hroom

theorem late_sim (hm : Agree bs m) (h : SimAt bs.p g id b events) (t : Ticket)
    (hv : v ≠ .ok) (hroom : b.state = .closed → SameRoom bs m b) :
    ActSim bs.p g id b (lateAct t v g.now bs b) (m.late t v g.now (b.toRef events)) := by
  unfold lateAct RefModel.late
  split
  next hepoch =>
    exact ⟨events, (if_neg fun h => hepoch h.2.1).trans (if_pos hepoch), h, rfl⟩
  next hepoch =>
    split
    next hprobe =>
      simp only [Bool.and_eq_true, decide_eq_true_eq] at hprobe
      rw [if_pos (show t.probe = true ∧ (b.toRef events).epoch = t.epoch ∧
        (b.toRef events).state = .halfOpen from ⟨hprobe.1, not_not.mp hepoch, hprobe.2⟩)]
      exact probeFailed_sim hm h g.now
    next hprobe =>
      simp only [Bool.and_eq_true, decide_eq_true_eq] at hprobe
      rw [if_neg (show ¬ (t.probe = true ∧ (b.toRef events).epoch = t.epoch ∧
        (b.toRef events).state = .halfOpen) from fun h => hprobe ⟨h.1, h.2.2⟩),
        if_neg (show ¬ (b.toRef events).epoch ≠ t.epoch from hepoch)]
      have := countClosed_sim hm h t v hroom
      rwa [recorded_of_fault g t hv] at this

theorem abort_sim (hm : Agree bs m) (h : SimAt bs.p g id b events) (hmem : (t, okAt) ∈ g.oks)
    (hplain : t.plainFor b.key = true) (hroom : b.state = .closed → SameRoom bs m b) :
    ActSim bs.p (g.aborted t okAt) id b (abortAct t okAt g.now bs b)
      (m.abort t okAt g.now (b.toRef events)) := by
  unfold abortAct RefModel.abort
  split
  next hskip =>
    refine ⟨events, if_pos hskip, ⟨h.home, h.evidence, h.epochs, fun hst s => ?_⟩, rfl⟩
    refine le_trans ?_ (h.oks hst s)
    exact List.Sublist.countP_le erase_sublist
  next hskip =>
    rw [if_neg (show ¬ ((b.toRef events).epoch ≠ t.epoch ∨ (b.toRef events).state ≠ .closed) from
      hskip)]
    obtain ⟨hepoch, hst⟩ := not_or.mp hskip
    have hconv := h.convert (not_not.mp hst) hmem hplain (not_not.mp hepoch).symm
    have := countClosed_sim hm hconv t .fault hroom
    rwa [recorded_of_fault _ t (by decide)] at this

end Acts

end ServerFlow.Resilience
