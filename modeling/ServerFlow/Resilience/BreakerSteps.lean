import ServerFlow.Resilience.Breakers

/-!
# Resilience.BreakerSteps

What the operations on a set of breakers can do, said once. An operation applies the lazy
transitions of some breakers and then acts on at most one of them (`Breaker.Act`): every call but
`Sync` and `Prune` is such a walk (`Breakers.step_walk`). These two end with a walk that closes
breakers for the cap (`Breakers.Walk.enforceCap`). What holds of every act then holds of every call,
without another look at the operations.
-/

namespace ServerFlow.Resilience

open List Option AList

theorem find_eq_some {bs : Breakers} {k : Key} {b : Breaker} (h : bs.find k = some b) :
    bs.byID.lookup k.id = some b ∧ b.key = k := by
  unfold Breakers.find at h
  rw [filter_eq_some_iff] at h
  exact ⟨h.1, of_decide_eq_true h.2⟩

theorem Breakers.lookup_set (bs : Breakers) (id id' : String) (b : Breaker) :
    (bs.set id b).byID.lookup id' = if id' = id then some b else bs.byID.lookup id' := by
  simp only [Breakers.set, lookup_insert_ite]

theorem Breakers.set_set (bs : Breakers) (id : String) (b b' : Breaker) :
    (bs.set id b).set id b' = bs.set id b' := by
  simp only [Breakers.set, insert_insert]

/-! ### One breaker -/

theorem Breaker.advance_key (b : Breaker) (now : Time) (p : BreakerParams) :
    (b.advance now p).1.key = b.key := by
  unfold Breaker.advance
  split
  · rfl
  · split <;> rfl

/-- A closed breaker with an outcome counted, after the OK of `okAt` was taken back, if any. -/
def Breaker.tallied (b : Breaker) (now : Time) (okAt : Option Time) (v : Verdict) : Breaker :=
  match okAt with
  | none => b.count now v
  | some t => Breaker.count { b with win := b.win.add t now .all (-1) } now v

/-- What a walk is for: probe tickets are issued and breakers are closed for the cap only where
this says so. -/
inductive Errand
  | visit
  | acquire
  | relax

/-- What an operation does to the breaker it has found, with the change it reports. `bs` is the set
that the operation found. -/
inductive Breaker.Act (e : Errand) (bs : Breakers) (now : Time) :
    Breaker → Breaker → List Change → Prop
  | idle (b) : Act e bs now b b []
  | erase {b} (hhalf : b.state = .halfOpen) (id : Nat) :
    Act e bs now b { b with tickets := b.tickets.erase id } []
  | pass {b} (hhalf : b.state = .halfOpen) (id : Nat) :
    Act e bs now b { b with tickets := b.tickets.erase id, successes := b.successes + 1 } []
  | recover {b} (hhalf : b.state = .halfOpen) :
    Act e bs now b (b.close now) [Change.plain b.key .halfOpen .closed .probesPassed 0]
  | reopen {b} (hhalf : b.state = .halfOpen) :
    Act e bs now b (b.openNow now true bs.p (bs.rnd bs.draws))
      [Change.plain b.key .halfOpen .open .probeFailed
        (b.openNow now true bs.p (bs.rnd bs.draws)).coolDown]
  | count {b} (hclosed : b.state = .closed) (okAt : Option Time) (v : Verdict) (suppressed : Bool) :
    Act e bs now b { b.tallied now okAt v with suppressed := suppressed } []
  | suppress {b} (hclosed : b.state = .closed) (okAt : Option Time) (v : Verdict) (failures : Int) :
    Act e bs now b { b.tallied now okAt v with suppressed := true }
      [⟨(b.tallied now okAt v).key, .closed, .closed, .suppressed, failures, 0, true⟩]
  | trip {b} (hclosed : b.state = .closed) (hroom : bs.roomToOpen b = true) (okAt : Option Time)
      (v : Verdict) (why : Reason) (failures : Int) :
    Act e bs now b ((b.tallied now okAt v).openNow now false bs.p (bs.rnd bs.draws))
      [⟨(b.tallied now okAt v).key, .closed, .open, why, failures,
        ((b.tallied now okAt v).openNow now false bs.p (bs.rnd bs.draws)).coolDown, false⟩]
  | grant {b} (he : e = .acquire) (hfree : b.probeFree bs.p = true) :
    Act e bs now b
      { b with nextID := b.nextID + 1, tickets := b.tickets.insert (b.nextID + 1) now } []

/-- Counting changes only the window and the streak. -/
theorem Breaker.tallied_eq (b : Breaker) (now : Time) (okAt : Option Time) (v : Verdict) :
    b.tallied now okAt v =
      { b with win := (b.tallied now okAt v).win, streak := (b.tallied now okAt v).streak } := by
  cases okAt <;> cases v <;> rfl

/-- The probe ticket that `Acquire` grants is new, and there is room for it. -/
theorem acquire_cases (k : Key) (now : Time) (bs : Breakers) (b : Breaker) :
    (b.state = .closed ∧
      acquireAct k now bs b = .quiet b (.ticket ⟨k, 0, b.epoch, false, true⟩ true)) ∨
    (b.probeFree bs.p = true ∧ acquireAct k now bs b =
      .quiet { b with nextID := b.nextID + 1, tickets := b.tickets.insert (b.nextID + 1) now }
        (.ticket ⟨k, b.nextID + 1, b.epoch, true, true⟩ true)) ∨
    acquireAct k now bs b = .quiet b (.ticket Ticket.zero false) := by
  unfold acquireAct
  cases hstate : b.state with
  | closed => exact .inl ⟨rfl, rfl⟩
  | halfOpen =>
    dsimp only
    cases hfree : b.probeFree bs.p with
    | true => exact .inr (.inl ⟨rfl, rfl⟩)
    | false => exact .inr (.inr rfl)
  | «open» => exact .inr (.inr rfl)

namespace Breaker.Act

variable {e : Errand} {bs : Breakers} {now : Time} {b b' : Breaker} {cs : List Change}

theorem key (h : b.Act e bs now b' cs) : b'.key = b.key := by
  cases h with
  | count hclosed okAt v => rw [b.tallied_eq]
  | suppress hclosed okAt v => rw [b.tallied_eq]
  | trip hclosed hroom okAt v => rw [b.tallied_eq]; rfl
  | _ => rfl

theorem tripped (hclosed : b.state = .closed) (okAt : Option Time) (v : Verdict)
    (why : Option (Reason × Int)) : b.Act e bs now (tripped now bs (b.tallied now okAt v) why).b
      (tripped now bs (b.tallied now okAt v) why).changes := by
  have hroom : bs.roomToOpen (b.tallied now okAt v) = bs.roomToOpen b := by rw [b.tallied_eq]; rfl
  cases why with
  | none => exact count hclosed okAt v false
  | some why =>
    unfold Resilience.tripped
    dsimp only
    rw [hroom]
    split
    next hroom => exact trip hclosed hroom okAt v why.1 why.2
    next =>
      split
      · exact count hclosed okAt v (b.tallied now okAt v).suppressed
      · exact suppress hclosed okAt v why.2

section

variable (b : Breaker)

theorem countClosed (v : Verdict) :
    b.Act e bs now (countClosed now v bs b).b (countClosed now v bs b).changes := by
  unfold Resilience.countClosed Breaker.recordClosed
  split
  · exact idle b
  next h =>
    obtain ⟨hclosed, hv⟩ := not_or.mp h
    dsimp only
    rw [if_neg hv]
    exact tripped (not_not.mp hclosed) none v _

theorem record (t : Ticket) (v : Verdict) :
    b.Act e bs now (recordAct t v now bs b).b (recordAct t v now bs b).changes := by
  unfold recordAct
  split
  · split
    · exact idle b
    next h =>
      have hhalf : b.state = .halfOpen := not_not.mp (not_or.mp h).1
      cases v with
      | neutral => exact erase hhalf t.id
      | fault => exact reopen hhalf
      | ratioFault => exact reopen hhalf
      | ok =>
        dsimp only [probePassed]
        split
        · exact recover hhalf
        · exact pass hhalf t.id
  · split
    · exact idle b
    · exact countClosed b v

theorem late (t : Ticket) (v : Verdict) :
    b.Act e bs now (lateAct t v now bs b).b (lateAct t v now bs b).changes := by
  unfold lateAct
  split
  · exact idle b
  · split
    next h =>
      rw [Bool.and_eq_true, decide_eq_true_eq] at h
      exact reopen h.2
    next => exact countClosed b v

theorem abort (t : Ticket) (okAt : Time) :
    b.Act e bs now (abortAct t okAt now bs b).b (abortAct t okAt now bs b).changes := by
  unfold abortAct Resilience.countClosed
  split
  · exact idle b
  next h =>
    have hclosed : b.state = .closed := not_not.mp (not_or.mp h).2
    rw [if_neg (by simp [hclosed])]
    exact tripped hclosed (some okAt) .fault _

theorem acquire (k : Key) :
    b.Act .acquire bs now (acquireAct k now bs b).b (acquireAct k now bs b).changes := by
  rcases acquire_cases k now bs b with ⟨-, hact⟩ | ⟨hfree, hact⟩ | hact
  · rw [hact]
    exact idle b
  · rw [hact]
    exact grant rfl hfree
  · rw [hact]
    exact idle b

end

end Breaker.Act

/-! ### Relaxation -/

/-- A round that visits an ejected breaker chooses it or keeps the choice made before. -/
theorem pickVictim_of_ejected {model : String} {e : Σ _ : String, Breaker}
    (h : e.2.ejected model = true) (v : Option (String × Breaker)) :
    pickVictim model v e = some (e.1, e.2) ∨ ∃ u, v = some u ∧ pickVictim model v e = some u := by
  unfold pickVictim
  rw [if_pos h]
  cases v with
  | none => exact .inl rfl
  | some u =>
    dsimp only
    split
    · exact .inl rfl
    · exact .inr ⟨u, rfl, rfl⟩

/-- The inner loop over some entries: it keeps or finds an ejected breaker, unless there is
none. -/
theorem foldl_pickVictim (bs : Breakers) (model : String) (es : List (Σ _ : String, Breaker))
    (hes : ∀ e ∈ es, bs.byID.lookup e.1 = some e.2) (v : Option (String × Breaker))
    (hv : ∀ u, v = some u → bs.byID.lookup u.1 = some u.2 ∧ u.2.ejected model = true) :
    (∀ u, es.foldl (pickVictim model) v = some u →
      bs.byID.lookup u.1 = some u.2 ∧ u.2.ejected model = true) ∧
    (es.foldl (pickVictim model) v = none →
      v = none ∧ es.countP (fun e => e.2.ejected model) = 0) := by
  induction es generalizing v with
  | nil => exact ⟨hv, fun h => ⟨h, rfl⟩⟩
  | cons e es ih =>
    have hes' : ∀ d ∈ es, bs.byID.lookup d.1 = some d.2 := fun d hd => hes d (by simp [hd])
    rw [foldl_cons]
    cases hej : e.2.ejected model with
    | false =>
      have hskip : pickVictim model v e = v := by
        unfold pickVictim
        rw [hej]
        rfl
      rw [hskip]
      obtain ⟨hsome, hnone⟩ := ih hes' v hv
      exact ⟨hsome, fun h => ⟨(hnone h).1, by rw [countP_cons, (hnone h).2, hej]; rfl⟩⟩
    | true =>
      have hnext : ∀ u, pickVictim model v e = some u →
          bs.byID.lookup u.1 = some u.2 ∧ u.2.ejected model = true := by
        intro u hu
        rcases pickVictim_of_ejected hej v with h | ⟨w, hw, h⟩
        · obtain rfl := some.inj (h.symm.trans hu)
          exact ⟨hes e (by simp), hej⟩
        · obtain rfl := some.inj (h.symm.trans hu)
          exact hv w hw
      obtain ⟨hsome, hnone⟩ := ih hes' _ hnext
      refine ⟨hsome, fun h => absurd (hnone h).1 ?_⟩
      rcases pickVictim_of_ejected hej v with h | ⟨w, -, h⟩ <;> rw [h] <;> simp

theorem victim_spec (bs : Breakers) (model : String) :
    (∀ v, bs.victim model = some v →
      bs.byID.lookup v.1 = some v.2 ∧ v.2.ejected model = true) ∧
    (bs.victim model = none → bs.openCount model = 0) := by
  obtain ⟨hsome, hnone⟩ := foldl_pickVictim bs model bs.byID.entries
    (fun e he => AList.lookup_eq_some_iff.mpr he) none fun _ h => by cases h
  exact ⟨hsome, fun h => (hnone h).2⟩

/-! ### Sets of breakers -/

/-- Lazy transitions, breakers closed for the cap, and at most one act, which ends the walk. -/
inductive Breakers.Walk (e : Errand) (now : Time) : Breakers → Breakers → List Change → Prop
  | refl (bs) : Walk e now bs bs []
  | advance {bs bs' : Breakers} {id b cs'} (he : e ≠ .relax) (hb : bs.byID.lookup id = some b)
      (h : Walk e now (bs.set id (b.advance now bs.p).1) bs' cs') :
    Walk e now bs bs' ((b.advance now bs.p).2 ++ cs')
  | act {bs : Breakers} {id b b' cs} (draws suppressed : Nat) (he : e ≠ .relax)
      (hb : bs.byID.lookup id = some b) (h : b.Act e bs now b' cs) :
    Walk e now bs { bs.set id b' with draws := draws, suppressed := suppressed } cs
  | relax {bs bs' : Breakers} {id b model cs'} (he : e = .relax) (hb : bs.byID.lookup id = some b)
      (hejected : b.ejected model = true) (h : Walk e now (bs.set id (b.close now)) bs' cs') :
    Walk e now bs bs' ([Change.plain b.key b.state .closed .capRelaxed 0] ++ cs')

namespace Breakers.Walk

variable {e : Errand} {now : Time} {bs bs' : Breakers} {id : String} {b b' : Breaker}
  {cs cs' : List Change}

theorem settings (h : Walk e now bs bs' cs) : bs'.p = bs.p ∧ bs'.rnd = bs.rnd := by
  induction h with
  | refl bs => exact ⟨rfl, rfl⟩
  | advance he hb h ih => exact ih
  | act d n he hb h => exact ⟨rfl, rfl⟩
  | relax he hb hej h ih => exact ih

/-- No breaker is new, and each one has moved as every step of the walk moves it. -/
theorem lift {R : Breaker → Breaker → Prop} (hrefl : ∀ b, R b b)
    (htrans : ∀ b b' b'', R b b' → R b' b'' → R b b'') (hadvance : ∀ b p, R b (b.advance now p).1)
    (hact : ∀ {bs : Breakers} {b b' cs}, e ≠ .relax → b.Act e bs now b' cs → R b b')
    (hrelax : e = .relax → ∀ b, R b (b.close now)) (h : Walk e now bs bs' cs) :
    ∀ id b', bs'.byID.lookup id = some b' → ∃ b, bs.byID.lookup id = some b ∧ R b b' := by
  have hset : ∀ {bs : Breakers} {id : String} {b b₁ : Breaker}, bs.byID.lookup id = some b →
    R b b₁ →
      ∀ id' c, (bs.set id b₁).byID.lookup id' = some c → ∃ b, bs.byID.lookup id' = some b ∧
          R b c := by
    intro bs id b b₁ hb hR id' c hc
    rcases of_lookup_insert hc with ⟨rfl, rfl⟩ | ⟨-, hc⟩
    · exact ⟨b, hb, hR⟩
    · exact ⟨c, hc, hrefl c⟩
  induction h with
  | refl bs => exact fun id b hb => ⟨b, hb, hrefl b⟩
  | advance he hb h ih =>
    intro id' b'' hb''
    obtain ⟨b', hb', hR'⟩ := ih id' b'' hb''
    obtain ⟨b, hb, hR⟩ := hset hb (hadvance _ _) id' b' hb'
    exact ⟨b, hb, htrans _ _ _ hR hR'⟩
  | act d n he hb h => exact hset hb (hact he h)
  | relax he hb hej h ih =>
    intro id' b'' hb''
    obtain ⟨b', hb', hR'⟩ := ih id' b'' hb''
    obtain ⟨b, hb, hR⟩ := hset hb (hrelax he _) id' b' hb'
    exact ⟨b, hb, htrans _ _ _ hR hR'⟩

/-- A walk removes no breaker, and leaves every one its key. -/
theorem find {k : Key} (h : Walk e now bs bs' cs) (hb : bs.find k = some b) :
    ∃ b', bs'.find k = some b' := by
  have hset : ∀ {bs : Breakers} {id : String} {b₀ b₁ b : Breaker}, bs.byID.lookup id = some b₀ →
      b₁.key = b₀.key → bs.find k = some b → ∃ b', (bs.set id b₁).find k = some b' := by
    intro bs id b₀ b₁ b hb₀ hkey hb
    obtain ⟨hlook, hk⟩ := find_eq_some hb
    by_cases hid : k.id = id
    · obtain rfl := some.inj (hlook.symm.trans (hid ▸ hb₀))
      exact ⟨b₁, by simp [Breakers.find, Breakers.lookup_set, hid, hkey, hk]⟩
    · exact ⟨b, by simp [Breakers.find, Breakers.lookup_set, hid, hlook, hk]⟩
  induction h generalizing b with
  | refl bs => exact ⟨b, hb⟩
  | advance he hb₀ h ih =>
    obtain ⟨b', hb'⟩ := hset hb₀ (Breaker.advance_key _ now _) hb
    exact ih hb'
  | act d n he hb₀ h => exact hset hb₀ h.key hb
  | @relax bs bs' id b₀ model cs' he hb₀ hej h ih =>
    have hkey : (b₀.close now).key = b₀.key := rfl
    obtain ⟨b', hb'⟩ := hset hb₀ hkey hb
    exact ih hb'

theorem onBreaker (he : e ≠ .relax) (bs : Breakers) (k : Key) (now : Time) (missing : BreakersReply)
    {act : Breakers → Breaker → Acted}
    (hact : ∀ bs b, Breaker.Act e bs now b (act bs b).b (act bs b).changes) :
    Walk e now bs (bs.onBreaker k now missing act).1 (bs.onBreaker k now missing act).2.2 := by
  unfold Breakers.onBreaker
  cases hb : bs.find k with
  | none => exact refl bs
  | some b =>
    have hlast := fun d n => Walk.act d n he (lookup_insert _)
      (hact (bs.set k.id (b.advance now bs.p).1) (b.advance now bs.p).1)
    simp only [Breakers.set_set] at hlast
    exact advance he (find_eq_some hb).1 (hlast _ _)

theorem recordLate (bs : Breakers) (now : Time) (t : Ticket) (v : Verdict) :
    Walk .visit now bs (bs.recordLate now t v).1 (bs.recordLate now t v).2.2 := by
  unfold Breakers.recordLate
  split
  · exact refl bs
  · exact onBreaker (by nofun) bs t.key now .done fun _ b => .late b t v

theorem release (bs : Breakers) (now : Time) (t : Ticket) :
    Walk .visit now bs (bs.release t) [] := by
  unfold Breakers.release
  split
  · exact refl bs
  · cases hb : bs.find t.key with
    | none => exact refl bs
    | some b =>
      dsimp only
      split
      next h => exact act bs.draws bs.suppressed (by nofun) (find_eq_some hb).1 (.erase h.1 t.id)
      next => exact refl bs

/-- The walk goes on after the lazy transitions of one breaker. -/
theorem advanceID (he : e ≠ .relax) (now : Time) (id : String)
    (h : Walk e now (bs.advanceID now id).1 bs' cs') :
    Walk e now bs bs' ((bs.advanceID now id).2 ++ cs') := by
  unfold Breakers.advanceID at h ⊢
  cases hb : bs.byID.lookup id with
  | none =>
    rw [hb] at h
    exact h
  | some b =>
    rw [hb] at h
    exact advance he hb h

theorem advanceAll (he : e ≠ .relax) (now : Time) (ids : List String) (bs : Breakers) :
    Walk e now bs (Breakers.advanceAll now ids bs).1 (Breakers.advanceAll now ids bs).2 := by
  induction ids generalizing bs with
  | nil => exact refl bs
  | cons id ids ih => exact advanceID he now id (ih _)

theorem retryLoop (he : e ≠ .relax) (now : Time) (ids : List String) (bs : Breakers)
    (earliest : Duration) :
    Walk e now bs (Breakers.retryLoop now ids bs earliest).1
      (Breakers.retryLoop now ids bs earliest).2.2 := by
  induction ids generalizing bs earliest with
  | nil => exact refl bs
  | cons id ids ih =>
    unfold Breakers.retryLoop
    dsimp only
    cases (bs.advanceID now id).1.byID.lookup id with
    | none => exact advanceID he now id (ih _ _)
    | some b =>
      dsimp only
      split
      · exact advanceID he now id (ih _ _)
      · split
        · simpa using advanceID he now id (refl (bs.advanceID now id).1)
        · exact advanceID he now id (ih _ _)

theorem trans_relax {bs'' : Breakers} (h : Walk .relax now bs bs' cs)
    (h' : Walk .relax now bs' bs'' cs') : Walk .relax now bs bs'' (cs ++ cs') := by
  induction h with
  | refl bs => exact h'
  | advance he => exact absurd rfl he
  | act d n he => exact absurd rfl he
  | relax he hb hej h ih =>
    rw [append_assoc]
    exact relax he hb hej (ih h')

theorem relaxLoop (now : Time) (model : String) (limit : Int) (fuel : Nat) (bs : Breakers)
    (cs : List Change) : ∃ more, (Breakers.relax now model limit fuel bs cs).2 = cs ++ more ∧
      Walk .relax now bs (Breakers.relax now model limit fuel bs cs).1 more := by
  induction fuel generalizing bs cs with
  | zero => exact ⟨[], (append_nil cs).symm, refl bs⟩
  | succ fuel ih =>
    unfold Breakers.relax
    cases hvic : bs.victim model with
    | none => exact ⟨[], (append_nil cs).symm, refl bs⟩
    | some v =>
      dsimp only
      split
      · exact ⟨[], (append_nil cs).symm, refl bs⟩
      · obtain ⟨hv, hej⟩ := (victim_spec bs model).1 v hvic
        obtain ⟨more, heq, hwalk⟩ := ih (bs.set v.1 (v.2.close now))
          (cs ++ [Change.plain v.2.key v.2.state .closed .capRelaxed 0])
        exact ⟨_, by rw [heq, append_assoc], relax rfl hv hej hwalk⟩

theorem enforceCap (bs : Breakers) (now : Time) (order : List String) :
    Walk .relax now bs (bs.enforceCap now order).1 (bs.enforceCap now order).2 := by
  have hloop : ∀ (models : List String) (s : Breakers × List Change),
      ∃ more, (models.foldl (Breakers.relaxModel now) s).2 = s.2 ++ more ∧
        Walk .relax now s.1 (models.foldl (Breakers.relaxModel now) s).1 more := by
    intro models
    induction models with
    | nil => exact fun s => ⟨[], (append_nil s.2).symm, refl s.1⟩
    | cons m models ih =>
      intro s
      obtain ⟨more, heq, hwalk⟩ := relaxLoop now m
        (maxOpen s.1.p.maxOpenFraction (s.1.eligibleOf m)) s.1.byID.len s.1 s.2
      obtain ⟨more', heq', hwalk'⟩ := ih (Breakers.relaxModel now s m)
      refine ⟨more ++ more', ?_, hwalk.trans_relax hwalk'⟩
      rw [foldl_cons, heq', ← append_assoc]
      exact congrArg (· ++ more') heq
  obtain ⟨more, heq, hwalk⟩ := hloop (bs.eligibleBy.rangeKeys order) (bs, [])
  unfold Breakers.enforceCap
  rw [heq]
  exact hwalk

end Breakers.Walk

/-- The calls that change which breakers there are. -/
def BreakersOp.registry : BreakersOp → Bool
  | .sync _ | .prune _ => true
  | _ => false

def BreakersOp.errand : BreakersOp → Errand
  | .acquire _ => .acquire
  | _ => .visit

/-- **Every other call is a walk over breakers that are there.** -/
theorem Breakers.step_walk (bs : Breakers) (c : BreakersCall) (h : c.op.registry = false) :
    Walk c.op.errand c.now bs (bs.step c).1 (bs.step c).2.2 := by
  obtain ⟨now, order, op⟩ := c
  cases op with
  | sync members => cases h
  | prune keep => cases h
  | admissible k => exact .onBreaker (by nofun) bs k now _ fun _ b => .idle b
  | state k => exact .onBreaker (by nofun) bs k now _ fun _ b => .idle b
  | acquire k => exact .onBreaker (by nofun) bs k now _ fun _ b => .acquire b k
  | record t v =>
    dsimp only [Breakers.step]
    split
    · exact .refl bs
    · exact .onBreaker (by nofun) bs t.key now _ fun _ b => .record b t v
  | recordLate t v => exact .recordLate bs now t v
  | recordAbort t okAt =>
    dsimp only [Breakers.step]
    split
    · exact .refl bs
    · split
      · exact .recordLate bs now t .fault
      · exact .onBreaker (by nofun) bs t.key now _ fun _ b => .abort b t okAt
  | release t => exact .release bs now t
  | snapshot => exact .advanceAll (by nofun) now _ bs
  | counts => exact .advanceAll (by nofun) now _ bs
  | retryAfter => exact .retryLoop (by nofun) now _ bs _

theorem foldl_syncMember_p (members : List Member) (bs : Breakers) :
    (members.foldl Breakers.syncMember bs).p = bs.p ∧
      (members.foldl Breakers.syncMember bs).rnd = bs.rnd := by
  induction members generalizing bs with
  | nil => exact ⟨rfl, rfl⟩
  | cons m ms ih => exact ih (bs.syncMember m)

/-- No operation changes the parameters. -/
theorem Breakers.step_p (bs : Breakers) (c : BreakersCall) :
    (bs.step c).1.p = bs.p ∧ (bs.step c).1.rnd = bs.rnd := by
  have hcap : ∀ bs : Breakers, (bs.recountEligible.enforceCap c.now c.order).1.p = bs.p ∧
      (bs.recountEligible.enforceCap c.now c.order).1.rnd = bs.rnd := fun bs =>
    (Walk.enforceCap bs.recountEligible c.now c.order).settings
  cases hop : c.op.registry with
  | false => exact (bs.step_walk c hop).settings
  | true =>
    obtain ⟨now, order, op⟩ := c
    cases op with
    | sync members =>
      obtain ⟨hp, hrnd⟩ := foldl_syncMember_p members bs
      exact ⟨(hcap _).1.trans hp, (hcap _).2.trans hrnd⟩
    | prune keep => exact hcap _
    | _ => cases hop

end ServerFlow.Resilience
