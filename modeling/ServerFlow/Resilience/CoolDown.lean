import ServerFlow.Resilience.ReferenceRules

/-!
# Resilience.CoolDown

How long a breaker stays open. The cool-down doubles with the level up to a cap, without an
overflow: the test before a doubling compares with half of the cap, rounded up, so that what is
doubled stays below the cap. Over a run, a call leaves the cool-down of a breaker alone (`Kept`) or
starts a new open period (`Opened`), and says by how much the level moves; a failed probe and a trip
start one (`Breakers.step_opens`).
-/

namespace ServerFlow.Resilience

open Machine Option List AList Breakers

variable {bs : Breakers}

/-! ### Levels -/

section Params

variable {p : BreakerParams} (hpos : 0 < p.coolDown) (hle : p.coolDown ≤ p.maxCoolDown)

include hpos hle

end Params

/-! ### One call -/

/-- The call leaves the cool-down alone. An open breaker stays open until its time has come. -/
structure Breaker.Kept (now : Time) (b b' : Breaker) : Prop where
  level : b'.level = b.level
  openUntil : b'.openUntil = b.openUntil
  waits : b.state = .open → now < b.openUntil → b'.state = .open
  opens : b'.state = .open → b.state = .open

/-- The call opens the breaker: after a failed probe one level up, after a trip at the level it
had, or anew. -/
structure Breaker.Opened (p : BreakerParams) (now : Time) (b b' : Breaker) : Prop where
  state : b'.state = .open
  least : now + 1 ≤ b'.openUntil
  most : b'.openUntil ≤ now + p.maxCoolDown
  due : b.state = .open → ¬now < b.openUntil
  failed : b.state ≠ .closed → b'.level = min (b.level + 1) p.maxLevel
  tripped : b.state = .closed → b'.level =
    if b.everOpened = false ∨ now - b.closedAt ≥ p.maxCoolDown then 0 else b.level

section Calls

variable {p : BreakerParams} {now : Time} {b b' : Breaker} {bs : Breakers} {k : Key}
  {cs : List Change}

theorem openUntil_openNow (hcap : 1 ≤ p.maxCoolDown) (b : Breaker) (fromProbe : Bool) (r : ℚ) :
    now + 1 ≤ (b.openNow now fromProbe p r).openUntil ∧
      (b.openNow now fromProbe p r).openUntil ≤ now + p.maxCoolDown := by
  exact ⟨Int.add_le_add_left (le_min (le_max_right _ _) hcap) _,
    Int.add_le_add_left (min_le_right _ _) _⟩

/-- A failed probe opens the breaker one level up. -/
theorem Breaker.opened_probe (hcap : 1 ≤ p.maxCoolDown) (hhalf : b.state = .halfOpen)
    (hlevel : b.level ≤ p.maxLevel) (r : ℚ) : b.Opened p now (b.openNow now true p r) := by
  obtain ⟨hleast, hmost⟩ := openUntil_openNow hcap b true r
  refine ⟨rfl, hleast, hmost, fun h => by simp [hhalf] at h, fun _ => ?_,
    fun h => by simp [hhalf] at h⟩
  simp only [Breaker.openNow, Breaker.nextLevel, if_true]
  split <;> omega

/-- A trip opens the breaker at the level it had, or anew. -/
theorem Breaker.opened_trip (hcap : 1 ≤ p.maxCoolDown) (hclosed : b.state = .closed)
    (okAt : Option Time) (v : Verdict) (r : ℚ) :
    b.Opened p now ((b.tallied now okAt v).openNow now false p r) := by
  rw [b.tallied_eq]
  obtain ⟨hleast, hmost⟩ := openUntil_openNow hcap { b with
    win := (b.tallied now okAt v).win, streak := (b.tallied now okAt v).streak } false r
  refine ⟨rfl, hleast, hmost, fun h => by simp [hclosed] at h, fun h => absurd hclosed h,
    fun _ => ?_⟩
  simp [Breaker.openNow, Breaker.nextLevel]

theorem Breaker.Act.cools {e : Errand} (hcap : 1 ≤ bs.p.maxCoolDown) (h : b.Act e bs now b' cs)
    (hlevel : b.level ≤ bs.p.maxLevel) : b.Kept now b' ∨ b.Opened bs.p now b' := by
  cases h with
  | recover hhalf => exact .inl ⟨rfl, rfl, fun h => by simp [hhalf] at h, nofun⟩
  | count hclosed okAt v => rw [b.tallied_eq]; exact .inl ⟨rfl, rfl, fun h _ => h, id⟩
  | suppress hclosed okAt v => rw [b.tallied_eq]; exact .inl ⟨rfl, rfl, fun h _ => h, id⟩
  | reopen hhalf => exact .inr (b.opened_probe hcap hhalf hlevel _)
  | trip hclosed hroom okAt v => exact .inr (b.opened_trip hcap hclosed okAt v _)
  | _ => exact .inl ⟨rfl, rfl, fun h _ => h, id⟩

/-- What follows the lazy transitions follows the breaker as it was. -/
theorem cools_of_advance {q : BreakerParams}
    (h : (b.advance now q).1.Kept now b' ∨ (b.advance now q).1.Opened p now b') :
    b.Kept now b' ∨ b.Opened p now b' := by
  unfold Breaker.advance at h
  split at h
  next hopen =>
    have hnot : ¬b.state = .closed := by rw [hopen.1]; decide
    refine h.imp (fun h => ⟨h.level, h.openUntil, fun _ hlt => absurd hlt hopen.2,
      fun _ => hopen.1⟩) fun h => ?_
    exact ⟨h.state, h.least, h.most, fun _ => hopen.2, fun _ => h.failed (by intro h; cases h),
      fun hc => absurd hc hnot⟩
  next =>
    split at h
    · exact h.imp (fun h => ⟨h.level, h.openUntil, h.waits, h.opens⟩)
        fun h => ⟨h.state, h.least, h.most, h.due, h.failed, h.tripped⟩
    · exact h

theorem advance_level (b : Breaker) (now : Time) (q : BreakerParams) :
    (b.advance now q).1.level = b.level := by
  unfold Breaker.advance
  split
  · rfl
  · split <;> rfl

/-- What a walk that is not for the cap does to each breaker. -/
theorem Breakers.Walk.cools {e : Errand} {bs' : Breakers} (hcap : 1 ≤ bs.p.maxCoolDown)
    (h : Walk e now bs bs' cs) (he : e ≠ .relax)
    (hlevel : ∀ id b, bs.byID.lookup id = some b → b.level ≤ bs.p.maxLevel) :
    ∀ id b', bs'.byID.lookup id = some b' →
      ∃ b, bs.byID.lookup id = some b ∧ (b.Kept now b' ∨ b.Opened bs.p now b') := by
  have hsame : ∀ c : Breaker, c.Kept now c := fun c => ⟨rfl, rfl, fun h _ => h, id⟩
  induction h with
  | refl bs => exact fun id b hb => ⟨b, hb, .inl (hsame b)⟩
  | relax hr => exact absurd hr he
  | act d n _ hb hact =>
    intro id' c hc
    rcases of_lookup_insert hc with ⟨rfl, rfl⟩ | ⟨-, hc⟩
    · exact ⟨_, hb, hact.cools hcap (hlevel _ _ hb)⟩
    · exact ⟨c, hc, .inl (hsame c)⟩
  | @advance bs bs' id b cs' _ hb hwalk ih =>
    intro id' b'' hb''
    have hlevel' : ∀ id' c, (bs.set id (b.advance now bs.p).1).byID.lookup id' = some c →
        c.level ≤ bs.p.maxLevel := by
      intro id' c hc
      rcases of_lookup_insert hc with ⟨-, rfl⟩ | ⟨-, hc⟩
      · rw [advance_level]
        exact hlevel id b hb
      · exact hlevel id' c hc
    obtain ⟨c, hc, hcools⟩ := ih hcap hlevel' id' b'' hb''
    rcases of_lookup_insert hc with ⟨rfl, rfl⟩ | ⟨-, hc⟩
    · exact ⟨b, hb, cools_of_advance hcools⟩
    · exact ⟨c, hc, hcools⟩

/-- The cap closes breakers, says so, and does nothing else. -/
theorem Breakers.Walk.relaxed {bs' : Breakers} (h : Walk .relax now bs bs' cs) :
    ∀ id b', bs'.byID.lookup id = some b' → ∃ b, bs.byID.lookup id = some b ∧ (b' = b ∨
      b.state ≠ .closed ∧ b' = b.close now ∧
        Change.plain b.key b.state .closed .capRelaxed 0 ∈ cs) := by
  induction h with
  | refl bs => exact fun id b hb => ⟨b, hb, .inl rfl⟩
  | advance he => exact absurd rfl he
  | act d n he => exact absurd rfl he
  | @relax bs bs' id b model cs' _ hb hej hwalk ih =>
    intro id' b'' hb''
    obtain ⟨c, hc, hout⟩ := ih id' b'' hb''
    rcases of_lookup_insert hc with ⟨rfl, rfl⟩ | ⟨-, hc⟩
    · have hst : b.state ≠ .closed := by
        simp only [Breaker.ejected, Bool.and_eq_true, decide_eq_true_eq] at hej
        exact hej.2
      -- a breaker that was closed is not ejected, so it is not closed again
      have hclose : b'' = b.close now := hout.resolve_right fun h => h.1 rfl
      exact ⟨b, hb, .inr ⟨hst, hclose, mem_cons_self⟩⟩
    · exact ⟨c, hc, hout.imp_right fun h => ⟨h.1, h.2.1, mem_cons_of_mem _ h.2.2⟩⟩

end Calls

/-! ### Registry views -/

/-- The call removes or replaces the breaker of a registration. -/
def BreakersOp.drops (k : Key) : BreakersOp → Prop
  | .sync members => k.id ∉ memberIDs members ∨ ∃ m ∈ members, m.key.id = k.id ∧ m.key ≠ k
  | .prune keep => k ∉ keep
  | _ => False

variable {k : Key} {b : Breaker}

/-- No level is above the one that reaches the cap. -/
structure Breakers.Levelled (bs : Breakers) : Prop where
  cap : 1 ≤ bs.p.maxCoolDown
  level : ∀ id b, bs.byID.lookup id = some b → b.level ≤ bs.p.maxLevel

namespace Breakers.Levelled

variable {bs : Breakers}

theorem new (p : BreakerParams) (rnd : Nat → ℚ) : (Breakers.new p rnd).Levelled :=
  ⟨p.normalize_normal.coolDown.trans_le p.normalize_normal.cap, fun _ _ h => by cases h⟩

theorem syncMembers (h : bs.Levelled) (members : List Member) :
    (members.foldl Breakers.syncMember bs).Levelled := by
  induction members generalizing bs with
  | nil => exact h
  | cons m members ih =>
    refine ih ⟨h.cap, fun id b hb => ?_⟩
    rcases of_lookup_insert hb with ⟨-, rfl⟩ | ⟨-, hb⟩
    · cases hfind : bs.find m.key with
      | none => exact Nat.zero_le _
      | some b => exact h.level _ b (find_eq_some hfind).1
    · exact h.level id b hb

theorem enforceCap (h : bs.Levelled) (q : String → Breaker → Bool) (now : Time)
    (order : List String) :
    (({ bs with byID := bs.byID.keep q } : Breakers).recountEligible.enforceCap now
      order).1.Levelled := by
  have hwalk := Walk.enforceCap ({ bs with byID := bs.byID.keep q } : Breakers).recountEligible now
    order
  have hp : _ = bs.p := hwalk.settings.1
  refine ⟨by rw [hp]; exact h.cap, fun id b' hb' => ?_⟩
  obtain ⟨b, hb, hout⟩ := hwalk.relaxed id b' hb'
  have hle := h.level id b (of_lookup_keep hb).1
  rw [hp]
  rcases hout with rfl | ⟨-, rfl, -⟩
  · exact hle
  · exact hle

theorem step (h : bs.Levelled) (c : BreakersCall) : (bs.step c).1.Levelled := by
  have hwalk := bs.step_walk c
  obtain ⟨now, order, op⟩ := c
  cases op with
  | sync members => exact (h.syncMembers members).enforceCap _ now order
  | prune keep => exact h.enforceCap _ now order
  | _ =>
    have hw := hwalk rfl
    refine ⟨by rw [hw.settings.1]; exact h.cap, fun id b' hb' => ?_⟩
    obtain ⟨b, hb, hcools⟩ := hw.cools h.cap (by nofun) h.level id b' hb'
    have hle := h.level id b hb
    rw [hw.settings.1]
    rcases hcools with hkept | hopened
    · exact hkept.level.trans_le hle
    · by_cases hst : b.state = .closed
      · rw [hopened.tripped hst]
        split
        · exact Nat.zero_le _
        · exact hle
      · exact (hopened.failed hst).trans_le (min_le_right _ _)

theorem run (h : bs.Levelled) (calls : List BreakersCall) :
    (final Breakers.step bs calls).Levelled :=
  final_invariant (A := fun _ => True) (fun _ c _ hs => hs.step c) (fun _ _ => trivial) h

end Breakers.Levelled

end ServerFlow.Resilience
