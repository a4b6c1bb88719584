import ServerFlow.Resilience.BreakersLazy

/-!
# Resilience.BreakerMoves

How a breaker can move in one operation, as far as the tickets that were taken of it are concerned.
Every operation but the grant of a probe moves it `Onward`: it never goes back to an earlier epoch,
it leaves the closed state only for a new one, and no probe ticket becomes outstanding again.

What a verdict, a late fault or a returned ticket can change at all is in the `_moved` lemmas: the
call finds the ticket's epoch, and a probe ticket that is settled is outstanding and the breaker
half-open.
-/

namespace ServerFlow.Resilience

open AList

/-- The ring has a slot for every bucket of the window. -/
structure SlidingWindow.Sized (w : SlidingWindow) : Prop where
  pos : 0 < w.n
  size : (w.slots.length : Int) = w.n

section Sized

variable {w : SlidingWindow}

theorem SlidingWindow.Sized.add (h : w.Sized) (t now : Time) (which : Counter) (delta : Int) :
    (w.add t now which delta).Sized := by
  unfold SlidingWindow.add
  dsimp only
  split
  · exact h
  · exact ⟨h.pos, by rw [List.length_set]; exact h.size⟩

theorem SlidingWindow.Sized.reset (h : w.Sized) : w.reset.Sized :=
  ⟨h.pos, (congrArg Nat.cast (List.length_map _)).trans h.size⟩

theorem sized_newSlidingWindow (window : Duration) : (newSlidingWindow window).Sized := by
  refine ⟨bucketsOf_pos window, ?_⟩
  have hpos := bucketsOf_pos window
  simp only [newSlidingWindow, List.length_replicate]
  exact Int.toNat_of_nonneg hpos.le

/-- An outcome that is counted changes the window. -/
theorem SlidingWindow.Sized.add_ne (h : w.Sized) (now : Time) : w.add now now .all 1 ≠ w := by
  have hpos := h.pos
  have hlen : w.slot (bucketOf now) < w.slots.length := by
    have := SlidingWindow.slot_lt h.pos (bucketOf now)
    have := h.size
    omega
  unfold SlidingWindow.add
  dsimp only
  rw [if_neg (by omega)]
  intro heq
  have hslots := congrArg SlidingWindow.slots heq
  have hsame : ((w.claim (bucketOf now)).bump .all 1) = w.slots[w.slot (bucketOf now)] := by
    have hget := congrArg (·[w.slot (bucketOf now)]?) hslots
    simp only [List.getElem?_set_self hlen, List.getElem?_eq_getElem hlen] at hget
    exact Option.some.inj hget
  unfold SlidingWindow.claim at hsame
  rw [List.getElem?_eq_getElem hlen] at hsame
  dsimp only at hsame
  split at hsame
  next hstamp => exact hstamp (congrArg Slot.stamp hsame).symm
  next =>
    have hall := congrArg Slot.all hsame
    simp only [Slot.bump] at hall
    split at hall <;> omega

end Sized

/-! ### One breaker -/

/-- The breaker has moved on, and no probe ticket was granted. -/
structure Breaker.Onward (b b' : Breaker) : Prop where
  key : b'.key = b.key
  nextID : b'.nextID = b.nextID
  epoch : b.epoch ≤ b'.epoch
  left : b.state = .closed → b'.state ≠ .closed → b.epoch < b'.epoch
  tickets : ∀ id, b.tickets.lookup id = none → b'.tickets.lookup id = none
  len : b'.tickets.len ≤ b.tickets.len
  sized : b.win.Sized → b'.win.Sized

namespace Breaker.Onward

variable {b b' b'' : Breaker}

theorem refl (b : Breaker) : b.Onward b :=
  ⟨rfl, rfl, le_rfl, fun h h' => absurd h h', fun _ h => h, le_rfl, id⟩

theorem trans (h : b.Onward b') (h' : b'.Onward b'') : b.Onward b'' where
  key := h'.key.trans h.key
  nextID := h'.nextID.trans h.nextID
  epoch := h.epoch.trans h'.epoch
  left := by
    intro hb hb''
    by_cases hb' : b'.state = .closed
    · exact h.epoch.trans_lt (h'.left hb' hb'')
    · exact (h.left hb hb').trans_le h'.epoch
  tickets := fun id hid => h'.tickets id (h.tickets id hid)
  len := h'.len.trans h.len
  sized := fun hb => h'.sized (h.sized hb)

theorem erase (b : Breaker) (id : Nat) : b.Onward { b with tickets := b.tickets.erase id } where
  key := rfl
  nextID := rfl
  epoch := le_rfl
  left := fun h h' => absurd h h'
  tickets := fun id' h => by
    rw [lookup_erase_ite, h]
    exact ite_self _
  len := len_erase_le id b.tickets
  sized := fun h => h

end Breaker.Onward

variable {now : Time}

theorem Breaker.Onward.advance {p : BreakerParams} (b : Breaker) :
    b.Onward (b.advance now p).1 := by
  unfold Breaker.advance
  split
  next h =>
    exact ⟨rfl, rfl, le_rfl, fun hc => absurd (h.1.symm.trans hc) (by decide), fun _ _ => rfl,
      Nat.zero_le _, id⟩
  next =>
    split
    · refine ⟨rfl, rfl, le_rfl, fun h h' => absurd h h', fun id hid => ?_, len_keep_le _ _, id⟩
      show (lostReleased now p b.tickets).lookup id = none
      unfold lostReleased
      rw [lookup_keep, hid]
      rfl
    · exact .refl b

theorem Breaker.Onward.close (b : Breaker) : b.Onward (b.close now) :=
  ⟨rfl, rfl, le_rfl, fun _ h => absurd rfl h, fun _ _ => rfl, Nat.zero_le _, fun h => h.reset⟩

theorem Breaker.Onward.openNow {p : BreakerParams} (b : Breaker) (fromProbe : Bool) (r : ℚ) :
    b.Onward (b.openNow now fromProbe p r) :=
  ⟨rfl, rfl, Nat.le_succ _, fun _ _ => Nat.lt_succ_self _, fun _ _ => rfl, Nat.zero_le _, id⟩

theorem Breaker.Onward.tallied (b : Breaker) (now : Time) (okAt : Option Time) (v : Verdict)
    (suppressed : Bool) : b.Onward { b.tallied now okAt v with suppressed := suppressed } := by
  have hsized : b.win.Sized → (b.tallied now okAt v).win.Sized := by
    have hcount : ∀ b : Breaker, b.win.Sized → (b.count now v).win.Sized := fun b h => by
      cases v with
      | neutral => exact h
      | ok => exact h.add now now .all 1
      | fault => exact (h.add now now .all 1).add now now .faults 1
      | ratioFault => exact (h.add now now .all 1).add now now .faults 1
    cases okAt with
    | none => exact hcount b
    | some t =>
      exact fun h => hcount { b with win := b.win.add t now .all (-1) } (h.add t now .all (-1))
  rw [b.tallied_eq]
  exact ⟨rfl, rfl, le_rfl, fun h h' => absurd h h', fun _ h => h, le_rfl, hsized⟩

/-- Only the grant of a probe ticket does not. -/
theorem Breaker.Act.onward {e : Errand} {bs : Breakers} {b b' : Breaker} {cs : List Change}
    (he : e ≠ .acquire) (h : b.Act e bs now b' cs) : b.Onward b' := by
  cases h with
  | idle => exact .refl b
  | erase hhalf id => exact .erase b id
  | pass hhalf id =>
    have herase := Breaker.Onward.erase b id
    exact ⟨rfl, rfl, le_rfl, fun h h' => absurd h h', herase.tickets, herase.len, fun h => h⟩
  | recover hhalf => exact .close b
  | reopen hhalf => exact .openNow b true _
  | count hclosed okAt v suppressed => exact .tallied b now okAt v suppressed
  | suppress hclosed okAt v => exact .tallied b now okAt v true
  | trip hclosed hroom okAt v =>
    exact (Breaker.Onward.tallied b now okAt v _).trans (.openNow _ false _)
  | grant hgrants => exact absurd hgrants he

/-! ### What an operation does to the breaker it found -/

section Acts

variable {now : Time} {bs : Breakers} {b : Breaker}

theorem onward_released (t : Ticket) : b.Onward (b.released t) := by
  unfold Breaker.released
  split
  · exact .erase b t.id
  · exact .refl b

variable {t : Ticket}

/-- A verdict that changes anything is one of the breaker's epoch. A probe's is taken of an
outstanding ticket, in the half-open state, and the ticket is outstanding no more. -/
theorem record_moved {v : Verdict} (h : (recordAct t v now bs b).b ≠ b) :
    b.epoch = t.epoch ∧ (t.probe = true → b.state = .halfOpen ∧ b.tickets.lookup t.id ≠ none ∧
      (recordAct t v now bs b).b.tickets.lookup t.id = none) := by
  unfold recordAct at h ⊢
  cases hprobe : t.probe with
  | true =>
    rw [hprobe, if_pos rfl] at h
    rw [if_pos rfl]
    split at h
    · exact absurd rfl h
    next hguard =>
      obtain ⟨hhalf, hrest⟩ := not_or.mp hguard
      have hhalf : b.state = .halfOpen := not_not.mp hhalf
      refine ⟨not_not.mp (not_or.mp hrest).1, fun _ => ⟨hhalf, (not_or.mp hrest).2, ?_⟩⟩
      rw [if_neg hguard]
      have hgone : (b.tickets.erase t.id).lookup t.id = none := by rw [lookup_erase_ite, if_pos rfl]
      dsimp only
      cases v with
      | neutral => exact hgone
      | fault => rfl
      | ratioFault => rfl
      | ok =>
        dsimp only [probePassed]
        split
        · rfl
        · exact hgone
  | false =>
    rw [hprobe] at h
    simp only [Bool.false_eq_true, if_false] at h
    split at h
    · exact absurd rfl h
    next hepoch => exact ⟨not_not.mp hepoch, fun h => by cases h⟩

theorem late_moved {v : Verdict} (h : (lateAct t v now bs b).b ≠ b) : b.epoch = t.epoch := by
  by_contra hne
  unfold lateAct at h
  rw [if_pos hne] at h
  exact h rfl

theorem abort_moved {okAt : Time} (h : (abortAct t okAt now bs b).b ≠ b) :
    b.epoch = t.epoch ∧ b.state = .closed := by
  unfold abortAct at h
  split at h
  · exact absurd rfl h
  next hguard => exact ⟨not_not.mp (not_or.mp hguard).1, not_not.mp (not_or.mp hguard).2⟩

theorem released_moved (h : b.released t ≠ b) :
    b.epoch = t.epoch ∧ b.state = .halfOpen ∧ b.tickets.lookup t.id ≠ none ∧
      (b.released t).tickets.lookup t.id = none := by
  unfold Breaker.released at h ⊢
  split at h
  next hguard =>
    rw [if_pos hguard]
    refine ⟨hguard.2, hguard.1, fun hnone => h ?_, by rw [lookup_erase_ite, if_pos rfl]⟩
    rw [erase_of_lookup_none hnone]
  · exact absurd rfl h

theorem tripped_win (why : Option (Reason × Int)) : (tripped now bs b why).b.win = b.win := by
  cases why with
  | none => rfl
  | some why =>
    unfold tripped
    dsimp only
    split
    · rfl
    · split <;> rfl

/-- The OK of a plain ticket of the closed breaker's epoch is counted. -/
theorem record_ok_counted (hplain : t.probe = false) (hepoch : b.epoch = t.epoch)
    (hclosed : b.state = .closed) (hsized : b.win.Sized) :
    (recordAct t .ok now bs b).b.win ≠ b.win := by
  have hact : recordAct t .ok now bs b =
      tripped now bs (b.count now .ok) ((b.count now .ok).tripReason now .ok bs.p) := by
    unfold recordAct countClosed Breaker.recordClosed
    rw [hplain]
    simp [hepoch, hclosed]
  rw [hact, tripped_win]
  exact hsized.add_ne now

end Acts

/-! ### Sets of breakers -/

/-- Every breaker is one that was there and has moved on. -/
def Breakers.Onward (bs bs' : Breakers) : Prop :=
  ∀ id b', bs'.byID.lookup id = some b' → ∃ b, bs.byID.lookup id = some b ∧ b.Onward b'

namespace Breakers.Onward

variable {bs bs' bs'' : Breakers} {now : Time} {id : String} {b b' : Breaker}

theorem refl (bs : Breakers) : bs.Onward bs := fun _ b hb => ⟨b, hb, .refl b⟩

theorem trans (h : bs.Onward bs') (h' : bs'.Onward bs'') : bs.Onward bs'' := by
  intro id b'' hb''
  obtain ⟨b', hb', hon'⟩ := h' id b'' hb''
  obtain ⟨b, hb, hon⟩ := h id b' hb'
  exact ⟨b, hb, hon.trans hon'⟩

/-- Only the breakers matter. -/
theorem of_byID (h : bs.Onward bs') (heq : bs''.byID = bs'.byID) : bs.Onward bs'' := by
  intro id b hb
  rw [heq] at hb
  exact h id b hb

theorem set (hb : bs.byID.lookup id = some b) (h : b.Onward b') : bs.Onward (bs.set id b') := by
  intro id' c hc
  rcases of_lookup_insert hc with ⟨rfl, rfl⟩ | ⟨-, hc⟩
  · exact ⟨b, hb, h⟩
  · exact ⟨c, hc, .refl c⟩

theorem keep (bs : Breakers) (q : String → Breaker → Bool) :
    bs.Onward { bs with byID := bs.byID.keep q } := by
  intro id b hb
  exact ⟨b, (of_lookup_keep hb).1, .refl b⟩

theorem walk {e : Errand} {cs : List Change} (he : e ≠ .acquire)
    (h : Breakers.Walk e now bs bs' cs) :
    bs.Onward bs' :=
  h.lift .refl (fun _ _ _ => .trans) (fun b _ => .advance b)
    (fun _ hact => hact.onward he) fun _ b => .close b

/-- What comes after the breakers are kept: they are counted, and the cap is enforced. -/
theorem keep_enforceCap (bs : Breakers) (q : String → Breaker → Bool) (now : Time)
    (order : List String) :
    bs.Onward (({ bs with byID := bs.byID.keep q } : Breakers).recountEligible.enforceCap now
      order).1 := by
  have hkeep : bs.Onward ({ bs with byID := bs.byID.keep q } : Breakers).recountEligible :=
    (keep bs q).of_byID rfl
  exact hkeep.trans (walk (by nofun) (.enforceCap _ now order))

/-- Every call but `Sync` and `Acquire`. -/
theorem step (bs : Breakers) (c : BreakersCall) (hsync : ∀ members, c.op ≠ .sync members)
    (hacquire : ∀ k, c.op ≠ .acquire k) : bs.Onward (bs.step c).1 := by
  have hwalk := bs.step_walk c
  obtain ⟨now, order, op⟩ := c
  cases op with
  | sync members => exact absurd rfl (hsync members)
  | acquire k => exact absurd rfl (hacquire k)
  | prune keys => exact keep_enforceCap bs _ now order
  | _ => exact walk (by nofun) (hwalk rfl)

end Breakers.Onward

/-! ### Outstanding probes -/

/-- No breaker has more probe tickets out than `ProbeConcurrency`. -/
structure Breakers.Roomy (bs : Breakers) : Prop where
  pos : 1 ≤ bs.p.probeConcurrency
  room : ∀ {id : String} {b : Breaker}, bs.byID.lookup id = some b →
    (b.tickets.len : Int) ≤ bs.p.probeConcurrency

namespace Breakers.Roomy

variable {bs bs' : Breakers}

theorem new (p : BreakerParams) (rnd : Nat → ℚ) : (Breakers.new p rnd).Roomy where
  pos := by
    show 1 ≤ if p.probeConcurrency < 1 then 1 else p.probeConcurrency
    split <;> omega
  room := nofun

section

variable (h : bs.Roomy)
include h

theorem onward (hon : bs.Onward bs') (hp : bs'.p = bs.p) : bs'.Roomy where
  pos := hp ▸ h.pos
  room := fun hb' => by
    obtain ⟨b, hb, hmove⟩ := hon _ _ hb'
    have := h.room hb
    have := hmove.len
    rw [hp]
    omega

theorem set {id : String} {b : Breaker} (hb : (b.tickets.len : Int) ≤ bs.p.probeConcurrency) :
    (bs.set id b).Roomy where
  pos := h.pos
  room := fun hc => by
    rcases of_lookup_insert hc with ⟨-, rfl⟩ | ⟨-, hc⟩
    · exact hb
    · exact h.room hc

theorem syncMembers (members : List Member) : (members.foldl Breakers.syncMember bs).Roomy := by
  induction members generalizing bs with
  | nil => exact h
  | cons m members ih =>
    refine ih (h.set ?_)
    cases hfind : bs.find m.key with
    | none => exact zero_le_one.trans h.pos
    | some b =>
      exact (h.room (find_eq_some hfind).1 : (b.tickets.len : Int) ≤ bs.p.probeConcurrency)

theorem acquire (now : Time) (k : Key) (missing : BreakersReply) :
    (bs.onBreaker k now missing (acquireAct k now)).1.Roomy := by
  unfold Breakers.onBreaker
  cases hfind : bs.find k with
  | none => exact h
  | some b =>
    have hadv : ((b.advance now bs.p).1.tickets.len : Int) ≤ bs.p.probeConcurrency := by
      have := h.room (find_eq_some hfind).1
      have hadv : b.Onward (b.advance now bs.p).1 := .advance b
      have := hadv.len
      omega
    have hset : ∀ {c : Breaker}, (c.tickets.len : Int) ≤ bs.p.probeConcurrency →
        Breakers.Roomy { bs.set k.id c with draws := bs.draws + 0, suppressed := bs.suppressed + 0 } :=
      fun hc => ⟨h.pos, (h.set hc).room⟩
    dsimp only
    rcases acquire_cases k now (bs.set k.id (b.advance now bs.p).1) (b.advance now bs.p).1 with
      ⟨-, hact⟩ | ⟨hfree, hact⟩ | hact
    · rw [hact]
      exact hset hadv
    · rw [hact]
      refine hset ?_
      unfold Breaker.probeFree at hfree
      rw [Bool.and_eq_true, decide_eq_true_eq, decide_eq_true_eq] at hfree
      have hlen := len_insert_le ((b.advance now bs.p).1.nextID + 1) now
        (b.advance now bs.p).1.tickets
      have hroom : ((b.advance now bs.p).1.tickets.len : Int) < bs.p.probeConcurrency := hfree.2
      dsimp only [Acted.quiet]
      omega
    · rw [hact]
      exact hset hadv

theorem step (c : BreakersCall) : (bs.step c).1.Roomy := by
  by_cases hsync : ∃ members, c.op = .sync members
  · obtain ⟨members, hop⟩ := hsync
    have hp := (bs.step_p c).1
    unfold Breakers.step at hp ⊢
    rw [hop] at hp ⊢
    have hmembers := h.syncMembers members
    exact hmembers.onward (.keep_enforceCap _ _ c.now c.order)
      (hp.trans (foldl_syncMember_p members bs).1.symm)
  · by_cases hacquire : ∃ k, c.op = .acquire k
    · obtain ⟨k, hop⟩ := hacquire
      unfold Breakers.step
      rw [hop]
      exact h.acquire c.now k _
    · exact h.onward (.step bs c (fun m hm => hsync ⟨m, hm⟩) fun k hk => hacquire ⟨k, hk⟩)
        (bs.step_p c).1

end

end Breakers.Roomy

end ServerFlow.Resilience
