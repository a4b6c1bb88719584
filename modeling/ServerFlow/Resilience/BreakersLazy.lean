import ServerFlow.Resilience.BreakersCap

/-!
# Resilience.BreakersLazy

The transitions of a breaker that only the clock makes are applied by whichever call comes first.
Two breakers are the same at a time if they are equal once these transitions have been applied
(`SameAt`). A breaker is the same, now and later, as the one it becomes when they are applied, so it
does not matter when they are.

`SameBreakers` says so of two sets of breakers, whatever the order of the entries of their maps.
-/

namespace ServerFlow.Resilience

open Option AList

variable {act : Breakers → Breaker → Acted}

/-! ### One breaker -/

/-- Equal once the lazy transitions of the time have been applied. -/
def Breaker.SameAt (t : Time) (p : BreakerParams) (b b' : Breaker) : Prop :=
  (b.advance t p).1 = (b'.advance t p).1

/-- What no lazy transition changes. -/
def Breaker.core (b : Breaker) : Breaker :=
  { b with state := .closed, tickets := ∅, successes := 0 }

section One

variable {t u now : Time} {p : BreakerParams} {b b' b'' : Breaker}

/-- Tickets that are lost are lost later, too. -/
theorem lostReleased_lostReleased (h : t ≤ u) (tickets : GoMap Nat Time) :
    lostReleased u p (lostReleased t p tickets) = lostReleased u p tickets := by
  apply AList.ext
  simp only [lostReleased, AList.keep, List.filter_filter]
  refine List.filter_congr fun e _ => ?_
  by_cases hu : u - e.2 > p.ticketBackstop
  · simp [hu]
  · have ht : ¬ t - e.2 > p.ticketBackstop := by linarith
    simp [hu, ht]

/-- Transitions that were applied before make no difference. -/
theorem Breaker.advance_advance (h : t ≤ u) (b : Breaker) :
    ((b.advance t p).1.advance u p).1 = (b.advance u p).1 := by
  by_cases hopen : b.state = .open
  · by_cases ht : t < b.openUntil
    · have hsame : (b.advance t p).1 = b := by
        unfold Breaker.advance
        rw [if_neg (fun hc => hc.2 ht), if_neg (by rw [hopen]; decide)]
      rw [hsame]
    · have hu : ¬ u < b.openUntil := by linarith
      have hone : ∀ v, ¬ v < b.openUntil → (b.advance v p).1 =
          { b with state := .halfOpen, successes := 0, tickets := ∅ } := fun v hv => by
        unfold Breaker.advance
        rw [if_pos ⟨hopen, hv⟩]
      rw [hone t ht, hone u hu]
      rfl
  · by_cases hhalf : b.state = .halfOpen
    · have hone : ∀ {b : Breaker} (v : Time), b.state = .halfOpen →
          (b.advance v p).1 = { b with tickets := lostReleased v p b.tickets } := fun v hb => by
        unfold Breaker.advance
        rw [if_neg (fun hc => by rw [hb] at hc; cases hc.1), if_pos hb]
      rw [hone t hhalf, hone u hhalf, hone u (by exact hhalf)]
      simp only [lostReleased_lostReleased h]
    · have hsame : (b.advance t p).1 = b := by
        unfold Breaker.advance
        rw [if_neg (fun hc => hopen hc.1), if_neg hhalf]
      rw [hsame]

theorem Breaker.core_advance (b : Breaker) : (b.advance t p).1.core = b.core := by
  unfold Breaker.advance
  split
  · rfl
  · split <;> rfl

theorem Breaker.advance_closed_iff (b : Breaker) :
    (b.advance t p).1.state = .closed ↔ b.state = .closed := by
  unfold Breaker.advance
  split
  next h => simp [h.1]
  next =>
    split
    · exact Iff.rfl
    · exact Iff.rfl

/-- The only change that a lazy transition reports is the end of a cool-down. -/
theorem Breaker.advance_changes (b : Breaker) : ∀ c ∈ (b.advance t p).2, c.reason = .coolDown := by
  unfold Breaker.advance
  split
  · intro c hc
    rw [List.mem_singleton.mp hc]
    rfl
  · split <;> exact List.forall_mem_nil _

namespace Breaker.SameAt

theorem refl (b : Breaker) : b.SameAt t p b := rfl

theorem symm (h : b.SameAt t p b') : b'.SameAt t p b := Eq.symm h

theorem trans (h : b.SameAt t p b') (h' : b'.SameAt t p b'') : b.SameAt t p b'' := Eq.trans h h'

theorem later (h : b.SameAt t p b') (hle : t ≤ u) : b.SameAt u p b' := by
  unfold Breaker.SameAt at h ⊢
  rw [← Breaker.advance_advance hle b, h, Breaker.advance_advance hle]

theorem advance (b : Breaker) : (b.advance t p).1.SameAt t p b := Breaker.advance_advance le_rfl b

section

variable (h : b.SameAt t p b')
include h

theorem core_eq : b.core = b'.core := by
  rw [← b.core_advance (t := t) (p := p), ← b'.core_advance (t := t) (p := p), h]

theorem closed_iff : b.state = .closed ↔ b'.state = .closed := by
  rw [← b.advance_closed_iff (t := t) (p := p), h, b'.advance_closed_iff]

theorem key_eq : b.key = b'.key := (congrArg Breaker.key h.core_eq : b.core.key = b'.core.key)

theorem epoch_eq : b.epoch = b'.epoch :=
  (congrArg Breaker.epoch h.core_eq : b.core.epoch = b'.core.epoch)

theorem eligible_eq : b.eligible = b'.eligible :=
  (congrArg Breaker.eligible h.core_eq : b.core.eligible = b'.core.eligible)

theorem model_eq : b.model = b'.model :=
  (congrArg Breaker.model h.core_eq : b.core.model = b'.core.model)

theorem ejected_eq (model : String) : b.ejected model = b'.ejected model := by
  unfold Breaker.ejected Breaker.inGroup
  rw [h.eligible_eq, h.model_eq, decide_eq_decide.mpr (not_congr h.closed_iff)]

/-- Closing forgets what the lazy transitions have done. -/
theorem close_eq (now : Time) : b.close now = b'.close now := by
  rw [show b.close now = b.core.close now from rfl, h.core_eq]
  rfl

/-- A registry view changes neither the state nor the tickets. -/
theorem view (eligible : Bool) (model : String) :
    Breaker.SameAt t p { b with eligible := eligible, model := model }
      { b' with eligible := eligible, model := model } := by
  have hview : ∀ b : Breaker,
    (Breaker.advance { b with eligible := eligible, model := model } t p).1 =
      { (b.advance t p).1 with eligible := eligible, model := model } := by
    intro b
    unfold Breaker.advance
    dsimp only
    split
    · rfl
    · split <;> rfl
  unfold Breaker.SameAt at h ⊢
  rw [hview, hview, h]

end

end Breaker.SameAt

/-- `Release` of a probe ticket, as it acts on the breaker it finds. -/
def Breaker.released (b : Breaker) (t : Ticket) : Breaker :=
  if b.state = .halfOpen ∧ b.epoch = t.epoch then { b with tickets := b.tickets.erase t.id } else b

/-- Releasing a ticket and applying the lazy transitions commute. -/
theorem Breaker.advance_released (b : Breaker) (tk : Ticket) :
    ((b.released tk).advance t p).1 = (b.advance t p).1.released tk := by
  by_cases hhalf : b.state = .halfOpen
  · have hadv : ∀ {b : Breaker}, b.state = .halfOpen →
        (b.advance t p).1 = { b with tickets := lostReleased t p b.tickets } := fun hb => by
      unfold Breaker.advance
      rw [if_neg (fun hc => by rw [hb] at hc; cases hc.1), if_pos hb]
    by_cases hepoch : b.epoch = tk.epoch
    · have hrel : ∀ {b : Breaker}, b.state = .halfOpen → b.epoch = tk.epoch →
          b.released tk = { b with tickets := b.tickets.erase tk.id } :=
            fun hb he => if_pos ⟨hb, he⟩
      rw [hrel hhalf hepoch, hadv hhalf, hadv (by exact hhalf),
        hrel (by exact hhalf) (by exact hepoch)]
      simp only [lostReleased, keep_erase]
    · have hrel : ∀ {b : Breaker}, b.epoch ≠ tk.epoch → b.released tk = b := fun he =>
        if_neg fun hc => he hc.2
      rw [hrel hepoch, hadv hhalf, hrel (by exact hepoch)]
  · have hrel : b.released tk = b := if_neg fun hc => hhalf hc.1
    rw [hrel]
    unfold Breaker.advance
    split
    · -- a breaker that has just become half-open has no ticket to release
      unfold Breaker.released
      split <;> rfl
    · exact hrel.symm

theorem Breaker.SameAt.released (h : b.SameAt t p b') (tk : Ticket) :
    (b.released tk).SameAt t p (b'.released tk) := by
  unfold Breaker.SameAt at h ⊢
  rw [Breaker.advance_released, Breaker.advance_released, h]

end One

/-! ### Sets of breakers -/

/-- The breaker of a worker ID with the transitions of the time applied. -/
def Breakers.advanced (bs : Breakers) (now : Time) (id : String) : Option Breaker :=
  (bs.byID.lookup id).map fun b => (b.advance now bs.p).1

/-- Every breaker is stored under the ID of its worker. -/
def Breakers.Keyed (bs : Breakers) : Prop := ∀ id b, bs.byID.lookup id = some b → b.key.id = id

/-- Two sets of breakers that are the same at a time. -/
structure SameBreakers (t : Time) (bs bs' : Breakers) : Prop where
  p : bs'.p = bs.p
  rnd : bs'.rnd = bs.rnd
  draws : bs'.draws = bs.draws
  eligible : bs'.eligible = bs.eligible
  suppressed : bs'.suppressed = bs.suppressed
  eligibleOf : ∀ model, bs'.eligibleOf model = bs.eligibleOf model
  keyed : bs.Keyed
  byID : AList.Alike (Breaker.SameAt t bs.p) bs.byID bs'.byID

/-- What an operation on one breaker reads of the others. -/
structure SameSettings (bs bs' : Breakers) : Prop where
  p : bs'.p = bs.p
  rnd : bs'.rnd = bs.rnd
  draws : bs'.draws = bs.draws
  room : ∀ b, bs'.roomToOpen b = bs.roomToOpen b

namespace SameBreakers

variable {t u now : Time} {bs bs' : Breakers} {id : String} {b b' : Breaker}

theorem refl (t : Time) (h : bs.Keyed) : SameBreakers t bs bs := by
  refine ⟨rfl, rfl, rfl, rfl, rfl, fun _ => rfl, h, fun k => ?_⟩
  cases bs.byID.lookup k with
  | none => exact .none
  | some b => exact .some (.refl b)

section

variable (h : SameBreakers t bs bs')
include h

theorem later (hle : t ≤ u) : SameBreakers u bs bs' :=
  { h with byID := h.byID.imp fun _ _ hb => hb.later hle }

theorem symm : SameBreakers t bs' bs where
  p := h.p.symm
  rnd := h.rnd.symm
  draws := h.draws.symm
  eligible := h.eligible.symm
  suppressed := h.suppressed.symm
  eligibleOf := fun model => (h.eligibleOf model).symm
  keyed := by
    intro id b' hb'
    rcases h.byID.lookup id with ⟨-, hnone⟩ | ⟨b, b'', hb, hb'', hsame⟩
    · rw [hnone] at hb'
      cases hb'
    · obtain rfl := some.inj (hb''.symm.trans hb')
      rw [← hsame.key_eq]
      exact h.keyed id b hb
  byID := by
    rw [h.p]
    exact h.byID.symm.imp fun _ _ hb => hb.symm

/-- The breakers found for a registration. -/
theorem find (k : Key) : (bs.find k = none ∧ bs'.find k = none) ∨
    ∃ b b', bs.find k = some b ∧ bs'.find k = some b' ∧ b.SameAt t bs.p b' := by
  unfold Breakers.find
  rcases h.byID.lookup k.id with ⟨hb, hb'⟩ | ⟨b, b', hb, hb', hsame⟩
  · rw [hb, hb']
    exact .inl ⟨rfl, rfl⟩
  · rw [hb, hb', filter_some, filter_some, hsame.key_eq]
    split
    · exact .inr ⟨b, b', rfl, rfl, hsame⟩
    · exact .inl ⟨rfl, rfl⟩

theorem openCount_eq (model : String) : bs'.openCount model = bs.openCount model :=
  (h.byID.count_eq fun _ _ hb => hb.ejected_eq model).symm

theorem settings : SameSettings bs bs' :=
  ⟨h.p, h.rnd, h.draws, fun b => by
    unfold Breakers.roomToOpen
    rw [h.openCount_eq, h.eligibleOf, h.p]⟩

/-- The same breaker is stored in both. -/
theorem set {id : String} (hb : b.SameAt t bs.p b') (hkey : b.key.id = id) :
    SameBreakers t (bs.set id b) (bs'.set id b') where
  p := h.p
  rnd := h.rnd
  draws := h.draws
  eligible := h.eligible
  suppressed := h.suppressed
  eligibleOf := h.eligibleOf
  keyed := by
    intro id' c hc
    rcases of_lookup_insert hc with ⟨rfl, rfl⟩ | ⟨-, hc⟩
    · exact hkey
    · exact h.keyed id' c hc
  byID := h.byID.insert hb id

/-- A breaker is replaced, in one of them, by one that is the same. -/
theorem set_left (hb : bs.byID.lookup id = some b)
    (hsame : b'.SameAt t bs.p b) : SameBreakers t (bs.set id b') bs' where
  p := h.p
  rnd := h.rnd
  draws := h.draws
  eligible := h.eligible
  suppressed := h.suppressed
  eligibleOf := h.eligibleOf
  keyed := by
    intro id' c hc
    rcases of_lookup_insert hc with ⟨rfl, rfl⟩ | ⟨-, hc⟩
    · rw [hsame.key_eq]
      exact h.keyed id' b hb
    · exact h.keyed id' c hc
  byID := by
    rcases h.byID.lookup id with ⟨hnone, -⟩ | ⟨c, c', hc, hc', hR⟩
    · rw [hnone] at hb
      cases hb
    · obtain rfl := some.inj (hc.symm.trans hb)
      exact h.byID.insert_left (hsame.trans hR) hc'

end

end SameBreakers

/-! ### Operations on one breaker -/

namespace SameSettings

variable {bs bs' : Breakers} (h : SameSettings bs bs') (now : Time) (b : Breaker)

include h

theorem admissibleAct_eq : admissibleAct bs' b = admissibleAct bs b := by
  unfold admissibleAct
  rw [h.p]

theorem acquireAct_eq (k : Key) : acquireAct k now bs' b = acquireAct k now bs b := by
  unfold acquireAct
  rw [h.p]

theorem probeFailed_eq : probeFailed now bs' b = probeFailed now bs b := by
  unfold probeFailed
  rw [h.p, h.rnd, h.draws]

theorem tripped_eq (why : Option (Reason × Int)) :
    tripped now bs' b why = tripped now bs b why := by
  cases why with
  | none => rfl
  | some why =>
    unfold tripped
    rw [h.p, h.rnd, h.draws, h.room]

theorem countClosed_eq (v : Verdict) : countClosed now v bs' b = countClosed now v bs b := by
  unfold countClosed
  dsimp only
  rw [h.p, h.tripped_eq]

theorem probePassed_eq : probePassed now bs' b = probePassed now bs b := by
  unfold probePassed
  rw [h.p]

theorem recordAct_eq (t : Ticket) (v : Verdict) :
    recordAct t v now bs' b = recordAct t v now bs b := by
  unfold recordAct
  dsimp only
  rw [h.probePassed_eq, h.probeFailed_eq, h.countClosed_eq]

theorem lateAct_eq (t : Ticket) (v : Verdict) : lateAct t v now bs' b = lateAct t v now bs b := by
  unfold lateAct
  rw [h.probeFailed_eq, h.countClosed_eq]

theorem abortAct_eq (t : Ticket) (okAt : Time) :
    abortAct t okAt now bs' b = abortAct t okAt now bs b := by
  unfold abortAct
  rw [h.countClosed_eq]

end SameSettings

/-! ### What a caller sees -/

/-- A notification without the state that was left, if it was not closed. -/
def Change.blurred (c : Change) : Change :=
  { c with before := if c.before = .open then .halfOpen else c.before }

/-- The notifications of a call but the ends of cool-downs, in any order. -/
def notices (chs : List Change) : Multiset Change :=
  ((chs.filter fun c => decide (c.reason ≠ .coolDown)).map Change.blurred : List Change)

/-- What a call shows: its answer, with the breakers that it lists in any order, and its
notifications. -/
structure Observed where
  reply : BreakersReply
  infos : Multiset Info
  notices : Multiset Change

def observed (out : BreakersReply × List Change) : Observed :=
  match out.1 with
  | .infos is => ⟨.infos [], is, notices out.2⟩
  | r => ⟨r, 0, notices out.2⟩

theorem notices_append (chs chs' : List Change) :
    notices (chs ++ chs') = notices chs + notices chs' := by
  simp [notices]

theorem notices_of_coolDown {chs : List Change} (h : ∀ c ∈ chs, c.reason = .coolDown) :
    notices chs = 0 := by
  unfold notices
  rw [List.filter_eq_nil_iff.mpr fun c hc => by simp [h c hc]]
  rfl

theorem observed_congr {r r' : BreakersReply} {chs chs' : List Change} (hr : r' = r)
    (hchs : notices chs' = notices chs) : observed (r', chs') = observed (r, chs) := by
  subst hr
  unfold observed
  cases r' <;> simp only [hchs]

/-- An operation on one breaker reads only the settings, and leaves its key alone. -/
structure Local (act : Breakers → Breaker → Acted) : Prop where
  same : ∀ bs bs' b, SameSettings bs bs' → act bs' b = act bs b
  key : ∀ bs b, (act bs b).b.key = b.key

theorem local_admissible : Local admissibleAct :=
  ⟨fun _ _ b h => h.admissibleAct_eq b, fun _ _ => rfl⟩

theorem local_state : Local stateAct := ⟨fun _ _ _ _ => rfl, fun _ _ => rfl⟩

theorem local_acquire (k : Key) (now : Time) : Local (acquireAct k now) :=
  ⟨fun _ _ b h => h.acquireAct_eq now b k, fun _ b => (Breaker.Act.acquire b k).key⟩

theorem local_record (t : Ticket) (v : Verdict) (now : Time) : Local (recordAct t v now) :=
  ⟨fun _ _ b h => h.recordAct_eq now b t v, fun _ b => (Breaker.Act.record (e := .visit) b t v).key⟩

theorem local_late (t : Ticket) (v : Verdict) (now : Time) : Local (lateAct t v now) :=
  ⟨fun _ _ b h => h.lateAct_eq now b t v, fun _ b => (Breaker.Act.late (e := .visit) b t v).key⟩

theorem local_abort (t : Ticket) (okAt now : Time) : Local (abortAct t okAt now) :=
  ⟨fun _ _ b h => h.abortAct_eq now b t okAt,
    fun _ b => (Breaker.Act.abort (e := .visit) b t okAt).key⟩

namespace SameBreakers

variable {t : Time} {bs bs' : Breakers}

/-- A call that finds a breaker finds the same one in both, once its lazy transitions are
applied. -/
theorem onBreaker (h : SameBreakers t bs bs') (k : Key) (missing : BreakersReply)
    (hact : Local act) :
    SameBreakers t (bs.onBreaker k t missing act).1 (bs'.onBreaker k t missing act).1 ∧
      observed (bs'.onBreaker k t missing act).2 = observed (bs.onBreaker k t missing act).2 := by
  unfold Breakers.onBreaker
  rcases h.find k with ⟨hnone, hnone'⟩ | ⟨b, b', hb, hb', hsame⟩
  · rw [hnone, hnone']
    exact ⟨h, rfl⟩
  · rw [hb, hb', h.p]
    have hadv : (b'.advance t bs.p).1 = (b.advance t bs.p).1 := Eq.symm hsame
    have hkey : (b.advance t bs.p).1.key.id = k.id := by
      rw [(Breaker.SameAt.advance b).key_eq, (find_eq_some hb).2]
    dsimp only
    rw [hadv, h.draws, h.suppressed]
    have hset := h.set (Breaker.SameAt.refl (b.advance t bs.p).1) hkey
    rw [hact.same _ _ _ hset.settings]
    have hdone := h.set (b := (act (bs.set k.id (b.advance t bs.p).1) (b.advance t bs.p).1).b)
      (Breaker.SameAt.refl _) ((congrArg Key.id (hact.key _ _)).trans hkey)
    refine ⟨⟨hdone.p, hdone.rnd, rfl, hdone.eligible, rfl, hdone.eligibleOf, hdone.keyed,
      hdone.byID⟩, observed_congr rfl ?_⟩
    rw [notices_append, notices_append, notices_of_coolDown (Breaker.advance_changes b'),
      notices_of_coolDown (Breaker.advance_changes b)]

/-- A call that only looks at its breaker is not noticed. -/
theorem onBreaker_left (h : SameBreakers t bs bs') (k : Key) (missing : BreakersReply)
    (hquiet : ∀ bs b, ∃ reply, act bs b = .quiet b reply) :
    SameBreakers t (bs.onBreaker k t missing act).1 bs' := by
  unfold Breakers.onBreaker
  cases hb : bs.find k with
  | none => exact h
  | some b =>
    obtain ⟨reply, hq⟩ := hquiet (bs.set k.id (b.advance t bs.p).1) (b.advance t bs.p).1
    dsimp only
    rw [hq]
    have hset := h.set_left (find_eq_some hb).1 (Breaker.SameAt.advance b)
    exact ⟨hset.p, hset.rnd, hset.draws, hset.eligible, hset.suppressed, hset.eligibleOf,
      hset.keyed, hset.byID⟩

theorem release (h : SameBreakers t bs bs') (tk : Ticket) :
    SameBreakers t (bs.release tk) (bs'.release tk) := by
  unfold Breakers.release
  split
  · exact h
  · rcases h.find tk.key with ⟨hnone, hnone'⟩ | ⟨b, b', hb, hb', hsame⟩
    · rw [hnone, hnone']
      exact h
    · rw [hb, hb']
      have hrel := hsame.released tk
      have hkey : b.key.id = tk.key.id := congrArg Key.id (find_eq_some hb).2
      unfold Breaker.released at hrel
      dsimp only
      by_cases hc : b.state = .halfOpen ∧ b.epoch = tk.epoch
      · by_cases hc' : b'.state = .halfOpen ∧ b'.epoch = tk.epoch
        · rw [if_pos hc, if_pos hc'] at hrel ⊢
          exact h.set hrel hkey
        · rw [if_pos hc, if_neg hc'] at hrel ⊢
          exact h.set_left (find_eq_some hb).1 (hrel.trans hsame.symm)
      · by_cases hc' : b'.state = .halfOpen ∧ b'.epoch = tk.epoch
        · rw [if_neg hc, if_pos hc'] at hrel ⊢
          have hset := h.symm.set_left (b := b') (find_eq_some hb').1
            (by rw [h.p]; exact hrel.symm.trans hsame)
          exact hset.symm
        · rw [if_neg hc, if_neg hc']
          exact h

end SameBreakers

end ServerFlow.Resilience
