import ServerFlow.Resilience.RefinementRelation

/-!
# Resilience.Refinement

Breakers refine the naive reference: with the same jitter, every run in which the callers keep
to their protocol gets the same answers and the same changes from both.
-/

namespace ServerFlow.Resilience

open List Option Machine AList

variable {ract : RefModel → RefBreaker → RefActed} {act : Breakers → Breaker → Acted}
  {missing : BreakersReply}

/-- A set of breakers, the reference, and what the callers remember. -/
structure Mirrors (g : Client) (bs : Breakers) (m : RefModel) : Prop where
  agree : Agree bs m
  sim : AList.Matches (Sim bs.p g) bs.byID m.br
  live : ∀ id, g.live id = (bs.byID.lookup id).map Breaker.key
  known : ∀ id k, g.live id = some k → k ∈ g.seen
  synced : ∀ k ∈ g.synced, k ∈ g.seen
  issued : ∀ t ∈ g.issued, t.key ∈ g.seen
  recorded : ∀ x ∈ g.oks, x.1 ∈ g.issued

theorem mirrors_new (p : BreakerParams) (rnd : Nat → ℚ) (t : Time) :
    Mirrors (Client.start t) (Breakers.new p rnd) (RefModel.new p rnd) :=
  ⟨⟨p.normalize_normal, rfl, rfl, rfl⟩, .empty, fun _ => rfl, nofun,
    nofun, nofun, nofun⟩

theorem Agree.advance_eq {bs : Breakers} {m : RefModel} (h : Agree bs m) (b : Breaker)
    (events : List RefEvent) (now : Time) : (b.toRef events).advance now m.p =
      ((b.advance now bs.p).1.toRef events, (b.advance now bs.p).2) := by
  rw [h.p, toRef_advance]

namespace Mirrors

variable {g : Client} {bs : Breakers} {m : RefModel}

variable {now : Time} {k : Key} {b : Breaker}

section

variable (h : Mirrors g bs m)
include h

theorem at_time (hle : g.now ≤ now) : Mirrors (g.at now) bs m := by
  refine ⟨h.agree, h.sim.imp fun id b rb _ hsim => ?_, h.live, h.known, h.synced, h.issued,
    h.recorded⟩
  obtain ⟨events, heq, hsim⟩ := hsim
  exact ⟨events, heq, hsim.at_time hle⟩

theorem find (k : Key) :
    (bs.find k = none ∧ m.find k = none) ∨ ∃ b events, bs.find k = some b ∧
      m.find k = some (b.toRef events) ∧ SimAt bs.p g k.id b events := by
  unfold Breakers.find RefModel.find
  rcases h.sim.lookup k.id with ⟨h₁, h₂⟩ | ⟨b, rb, h₁, h₂, events, rfl, hsim⟩
  · exact .inl ⟨by rw [h₁]; rfl, by rw [h₂]; rfl⟩
  · rw [h₁, h₂]
    by_cases hk : b.key = k
    · refine .inr ⟨b, events, ?_, ?_, hsim⟩
      · simp [hk]
      · simp [show (b.toRef events).key = k from hk]
    · refine .inl ⟨?_, ?_⟩
      · simp [hk]
      · simp [show ¬ (b.toRef events).key = k from hk]

/-- A breaker is replaced, and the callers learn something about its key. -/
theorem set_touched {rb' : RefBreaker} {g' : Client}
    (hb : bs.find k = some b) (b' : Breaker) (hkey : b'.key = b.key) (ht : g.Touched k g')
    (hseen : ∀ t ∈ g'.issued, t.key ∈ g.seen) (hsim : Sim bs.p g' k.id b' rb') :
    Mirrors g' (bs.set k.id b') { m with br := m.br.insert k.id rb' } := by
  obtain ⟨hlook, hbk⟩ := find_eq_some hb
  refine ⟨⟨h.agree.normal, h.agree.p, h.agree.rnd, h.agree.draws⟩,
    h.sim.insert (fun id c rc hne hc hsim' => ?_) hsim, fun id => ?_, ?_, ?_, ?_, ?_⟩
  · obtain ⟨events, rfl, hsim'⟩ := hsim'
    refine ⟨events, rfl, hsim'.touched ht fun hck => hne ?_⟩
    rw [← hsim'.home, hck]
  · rw [ht.live, h.live id]
    show _ = ((bs.byID.insert k.id b').lookup id).map Breaker.key
    rw [lookup_insert_ite]
    split
    next heq => rw [heq, hlook, map_some, map_some, hkey]
    next => rfl
  · rw [ht.live, ht.seen]
    exact h.known
  · rw [ht.synced, ht.seen]
    exact h.synced
  · rw [ht.seen]
    exact hseen
  · intro x hx
    exact (ht.recorded x hx).elim (fun hold => ht.kept _ (h.recorded x hold)) id

/-- A breaker is replaced, and the callers learn nothing. -/
theorem set {rb' : RefBreaker} (hb : bs.find k = some b) (b' : Breaker) (hkey : b'.key = b.key)
    (hsim : Sim bs.p g k.id b' rb') :
    Mirrors g (bs.set k.id b') { m with br := m.br.insert k.id rb' } :=
  h.set_touched hb b' hkey (.refl g k) h.issued hsim

/-! ### The ejection cap -/

theorem openCount_eq (model : String) : m.openCount model = bs.openCount model := by
  unfold RefModel.openCount Breakers.openCount
  rw [h.sim.count_eq _ (·.ejected model) fun id b rb hsim => ?_]
  obtain ⟨events, rfl, -⟩ := hsim
  rfl

theorem limit_eq (model : String) :
    m.limit model = ⌊bs.p.maxOpenFraction * (bs.eligibleCount model : Int) + 1 / 1000000000⌋ := by
  unfold RefModel.limit Breakers.eligibleCount
  rw [h.agree.p, h.sim.count_eq _ (·.inGroup model) fun id b rb hsim => ?_]
  · push_cast
    rfl
  · obtain ⟨events, rfl, -⟩ := hsim
    rfl

end

/-- A closed breaker of the group is not among the ejected ones. -/
theorem openCount_lt {id : String} (model : String)
    (hb : bs.byID.lookup id = some b) (hst : b.state = .closed) (hin : b.inGroup model = true) :
    bs.openCount model < bs.eligibleCount model := by
  have hout : b.ejected model = false := by simp [Breaker.ejected, hst]
  have hle : (bs.byID.erase id).count (·.ejected model) ≤
      (bs.byID.erase id).count (·.inGroup model) := by
    refine countP_mono_left fun e _ he => ?_
    simp only [Breaker.ejected, Bool.and_eq_true] at he
    exact he.1
  unfold Breakers.openCount Breakers.eligibleCount
  rw [count_of_lookup _ hb, count_of_lookup _ hb, hout, hin]
  simp only [Bool.false_eq_true, if_false, if_true]
  omega

section

variable (h : Mirrors g bs m)
include h

theorem sameRoom (hcap : CapOk bs) (id : String) (b : Breaker)
    (hb : bs.byID.lookup id = some b) (hst : b.state = .closed) : SameRoom bs m b := by
  unfold SameRoom Breakers.roomToOpen
  cases hel : b.eligible with
  | false => simp
  | true =>
    have hlt := openCount_lt b.model hb hst (by simp [Breaker.inGroup, hel])
    have hiff := le_maxOpen_iff bs.p.maxOpenFraction (k := bs.openCount b.model + 1)
      (n := bs.eligibleCount b.model) (by omega) (by omega)
    rw [h.openCount_eq, h.limit_eq, hcap.recount]
    simp only [Bool.not_true, Bool.false_or, decide_eq_true_eq, true_and, not_le, ge_iff_le]
    rw [← Int.add_one_le_iff, hiff, Int.add_one_le_iff]

/-! ### Operations on one breaker -/

/-- An operation that looks up one breaker. `P` is what is known of its answers, and `obs` what
the callers learn from an answer. -/
theorem onBreaker (hcap : CapOk bs) (hnow : g.now ≤ now) (k : Key) (P : BreakersReply → Prop)
    (obs : BreakersReply → Client) (hmissing : P missing) (hreply : ∀ bs b, P (act bs b).reply)
    (htouch : ∀ r, P r → (g.at now).Touched k (obs r))
    (hseen : ∀ r, P r → ∀ t ∈ (obs r).issued, t.key ∈ g.seen)
    (hact : ∀ bs m b events, Agree bs m → SimAt bs.p (g.at now) k.id b events → b.key = k →
      (b.state = .closed → SameRoom bs m b) →
      ActSim bs.p (obs (act bs b).reply) k.id b (act bs b) (ract m (b.toRef events))) :
    (bs.onBreaker k now missing act).2 = (m.onBreaker k now missing ract).2 ∧
      Mirrors (obs (bs.onBreaker k now missing act).2.1) (bs.onBreaker k now missing act).1
        (m.onBreaker k now missing ract).1 := by
  have h := h.at_time hnow
  have htmiss := htouch missing hmissing
  unfold Breakers.onBreaker RefModel.onBreaker
  rcases h.find k with ⟨h₁, h₂⟩ | ⟨b, events, h₁, h₂, hsim⟩
  · -- no breaker has the key, so what the callers learn concerns none
    rw [h₁, h₂]
    refine ⟨rfl, h.agree, h.sim.imp fun id b rb hb hsim => ?_, ?_, ?_, ?_, ?_, ?_⟩
    · obtain ⟨events, rfl, hsim⟩ := hsim
      refine ⟨events, rfl, hsim.touched htmiss fun hk => ?_⟩
      rw [Breakers.find, ← hk, hsim.home, hb] at h₁
      simp at h₁
    · rw [htmiss.live]
      exact h.live
    · rw [htmiss.live, htmiss.seen]
      exact h.known
    · rw [htmiss.synced, htmiss.seen]
      exact h.synced
    · rw [htmiss.seen]
      exact hseen missing hmissing
    · intro x hx
      exact (htmiss.recorded x hx).elim
        (fun hold => htmiss.kept _ (h.recorded x hold)) id
  · rw [h₁, h₂]
    obtain ⟨hlook, hk⟩ := find_eq_some h₁
    obtain ⟨hsame, hcalm⟩ := b.advance_calm now bs.p
    have hadvkey := b.advance_key now bs.p
    have hadv := hsim.advance now
    have hset := h.set h₁ _ hadvkey ⟨events, rfl, hadv⟩
    have hroom := hset.sameRoom (hcap.set_of_calm hlook hsame hcalm) k.id (b.advance now bs.p).1
      (lookup_insert _)
    obtain ⟨events', hr, hsim', hkey⟩ := hact _ _ _ events hset.agree hadv (hadvkey.trans hk) hroom
    simp only [h.agree.advance_eq b events now, hr]
    have hfinal := h.set_touched h₁ _ (hkey.trans hadvkey) (htouch _ (hreply _ _))
      (hseen _ (hreply _ _)) ⟨events', rfl, hsim'⟩
    refine ⟨rfl, ⟨h.agree.normal, h.agree.p, h.agree.rnd, ?_⟩, hfinal.sim, hfinal.live,
      hfinal.known, hfinal.synced, hfinal.issued, hfinal.recorded⟩
    show m.draws + _ = bs.draws + _
    rw [h.agree.draws]
    rfl

theorem release (t : Ticket) : Mirrors g (bs.release t) (m.release t) := by
  unfold Breakers.release RefModel.release
  rcases h.find t.key with ⟨h₁, h₂⟩ | ⟨b, events, h₁, h₂, hsim⟩
  · rw [h₁, h₂]
    split <;> exact h
  · rw [h₁, h₂]
    by_cases hcur : t.probe = true ∧ b.state = .halfOpen ∧ b.epoch = t.epoch
    · have hb := h.set h₁ { b with tickets := b.tickets.erase t.id } rfl
        ⟨events, rfl, hsim.congr rfl rfl rfl rfl Iff.rfl⟩
      simp only [hcur.1, Bool.not_true, Bool.false_eq_true, if_false, if_pos hcur.2,
        Bool.true_eq_false, false_or]
      rw [if_neg (show ¬ ((b.toRef events).state ≠ .halfOpen ∨ (b.toRef events).epoch ≠ t.epoch)
        from not_or.mpr ⟨not_not_intro hcur.2.1, not_not_intro hcur.2.2⟩)]
      exact hb
    · have hnot : t.probe = false ∨ (b.toRef events).state ≠ .halfOpen ∨
          (b.toRef events).epoch ≠ t.epoch := by
        rw [not_and_or, not_and_or, Bool.not_eq_true] at hcur
        exact hcur
      simp only [if_pos hnot]
      split
      · exact h
      next hprobe =>
        rw [if_neg fun hc => hcur ⟨by simpa using hprobe, hc⟩]
        exact h

/-! ### Operations on all breakers -/

theorem advanceID (now : Time) (id : String) :
    (bs.advanceID now id).2 = (m.advanceID now id).2 ∧
      Mirrors g (bs.advanceID now id).1 (m.advanceID now id).1 := by
  unfold Breakers.advanceID RefModel.advanceID
  rcases h.sim.lookup id with ⟨h₁, h₂⟩ | ⟨b, rb, h₁, h₂, events, rfl, hsim⟩
  · rw [h₁, h₂]
    exact ⟨rfl, h⟩
  · have hfind : bs.find b.key = some b := by
      rw [Breakers.find, hsim.home, h₁]
      simp
    have hadv : Sim bs.p g b.key.id (b.advance now bs.p).1
        ((b.advance now bs.p).1.toRef events) := by
      rw [hsim.home]
      exact ⟨events, rfl, hsim.advance now⟩
    have hset := h.set hfind _ (b.advance_key now bs.p) hadv
    rw [hsim.home] at hset
    simp only [h₁, h₂, h.agree.advance_eq b events now]
    exact ⟨trivial, hset⟩

theorem advanceAll (now : Time) (ids : List String) :
    (Breakers.advanceAll now ids bs).2 = (RefModel.advanceAll now ids m).2 ∧
      Mirrors g (Breakers.advanceAll now ids bs).1 (RefModel.advanceAll now ids m).1 := by
  induction ids generalizing bs m with
  | nil => exact ⟨rfl, h⟩
  | cons id ids ih =>
    obtain ⟨heq, hone⟩ := h.advanceID now id
    obtain ⟨heqs, hall⟩ := ih hone
    refine ⟨?_, hall⟩
    show _ ++ _ = _ ++ _
    rw [heq, heqs]

theorem retryLoop (now : Time) (ids : List String) (earliest : Duration) :
    (Breakers.retryLoop now ids bs earliest).2 = (RefModel.retryLoop now ids m earliest).2 ∧
      Mirrors g (Breakers.retryLoop now ids bs earliest).1
        (RefModel.retryLoop now ids m earliest).1 := by
  induction ids generalizing bs m earliest with
  | nil => exact ⟨rfl, h⟩
  | cons id ids ih =>
    obtain ⟨heq, hone⟩ := h.advanceID now id
    obtain ⟨heqs, hskip⟩ := ih hone earliest
    unfold Breakers.retryLoop RefModel.retryLoop
    dsimp only
    rcases hone.sim.lookup id with ⟨h₁, h₂⟩ | ⟨b, rb, h₁, h₂, events, rfl, -⟩
    · rw [h₁, h₂]
      dsimp only
      rw [heq, heqs]
      exact ⟨rfl, hskip⟩
    · have heligible : (b.toRef events).eligible = b.eligible := rfl
      have hearlier : (b.toRef events).earlier now earliest = b.earlier now earliest := rfl
      rw [h₁, h₂]
      simp only [heligible, hearlier]
      split
      · rw [heq, heqs]
        exact ⟨rfl, hskip⟩
      · split
        · rw [heq]
          exact ⟨rfl, hone⟩
        · obtain ⟨heqs, hrest⟩ := ih hone (b.earlier now earliest)
          dsimp only
          rw [heq, heqs]
          exact ⟨rfl, hrest⟩

theorem snapshot (now : Time) (order : List String) :
    (bs.snapshot now order).2 = (m.snapshot now order).2 ∧
      Mirrors g (bs.snapshot now order).1 (m.snapshot now order).1 := by
  obtain ⟨heq, hall⟩ := h.advanceAll now (bs.byID.rangeKeys order)
  unfold Breakers.snapshot RefModel.snapshot
  rw [← h.sim.rangeKeys_eq order]
  refine ⟨?_, hall⟩
  have hinfo : ∀ id, ((Breakers.advanceAll now (bs.byID.rangeKeys order) bs).1.byID.lookup id).bind
      Breaker.info = ((RefModel.advanceAll now (bs.byID.rangeKeys order) m).1.br.lookup id).bind
        RefBreaker.info := by
    intro id
    rcases hall.sim.lookup id with ⟨h₁, h₂⟩ | ⟨b, rb, h₁, h₂, events, rfl, -⟩ <;> rw [h₁, h₂] <;>
      rfl
  simp only [hinfo, heq]

theorem counts (hcap : CapOk bs) (now : Time) (order : List String) :
    (bs.counts now order).2 = (m.counts now order).2 ∧
      Mirrors g (bs.counts now order).1 (m.counts now order).1 := by
  obtain ⟨heq, hall⟩ := h.advanceAll now (bs.byID.rangeKeys order)
  have htotal := (hcap.walk
    (.advanceAll (e := .visit) (by nofun) now (bs.byID.rangeKeys order) bs)).total
  have hcount : ∀ (q : Breaker → Bool) (q' : RefBreaker → Bool),
      (∀ b events, q b = q' (Breaker.toRef b events)) →
      (Breakers.advanceAll now (bs.byID.rangeKeys order) bs).1.byID.count q =
        (RefModel.advanceAll now (bs.byID.rangeKeys order) m).1.br.count q' := by
    intro q q' hq
    refine hall.sim.count_eq q q' fun id b rb hsim => ?_
    obtain ⟨events, rfl, -⟩ := hsim
    exact hq b events
  unfold Breakers.counts RefModel.counts
  rw [← h.sim.rangeKeys_eq order]
  refine ⟨?_, hall⟩
  dsimp only
  rw [htotal, heq, hcount _ (·.eligible) fun _ _ => rfl,
    hcount _ (fun b => b.eligible && decide (b.state = .open)) fun _ _ => rfl,
    hcount _ (fun b => b.eligible && decide (b.state = .halfOpen)) fun _ _ => rfl]

theorem retryAfter (now : Time) (order : List String) :
    (bs.retryAfter now order).2 = (m.retryAfter now order).2 ∧
      Mirrors g (bs.retryAfter now order).1 (m.retryAfter now order).1 := by
  obtain ⟨heq, hall⟩ := h.retryLoop now (bs.byID.rangeKeys order) (-1)
  unfold Breakers.retryAfter RefModel.retryAfter
  rw [← h.sim.rangeKeys_eq order]
  refine ⟨?_, hall⟩
  dsimp only
  rw [heq]

/-! ### Relaxation -/

/-- The two scans for the most recently ejected breaker choose the same one. -/
theorem victim_worst (model : String) :
    (bs.victim model = none ∧ m.worst model = none) ∨ ∃ id b events,
      bs.victim model = some (id, b) ∧ m.worst model = some (id, b.toRef events) ∧
        SimAt bs.p g id b events := by
  let R : Option (String × Breaker) → Option (String × RefBreaker) → Prop := fun v w =>
    (v = none ∧ w = none) ∨ ∃ id b events, v = some (id, b) ∧ w = some (id, b.toRef events) ∧
      SimAt bs.p g id b events
  have hstep : ∀ v w (e : Σ _ : String, Breaker) (e' : Σ _ : String, RefBreaker), R v w →
      e.1 = e'.1 ∧ Sim bs.p g e.1 e.2 e'.2 → R (pickVictim model v e) (pickWorst model w e') := by
    intro v w e e' hvw he
    obtain ⟨id, b⟩ := e
    obtain ⟨id', rb⟩ := e'
    obtain ⟨rfl, events, heq, hsim⟩ := he
    dsimp only at heq hsim
    subst heq
    have hejected : (b.toRef events).ejected model = b.ejected model := rfl
    unfold pickVictim pickWorst
    simp only [hejected]
    split
    · rcases hvw with ⟨rfl, rfl⟩ | ⟨vid, vb, vevents, rfl, rfl, hvsim⟩
      · exact .inr ⟨id, b, events, rfl, rfl, hsim⟩
      · have hmore : b.moreRecent vb = true ↔
            ((b.toRef events).ejectedAt > (vb.toRef vevents).ejectedAt ∨
              (b.toRef events).ejectedAt = (vb.toRef vevents).ejectedAt ∧
                (vb.toRef vevents).key.id < (b.toRef events).key.id) := by
          simp only [Breaker.moreRecent, Bool.or_eq_true, decide_eq_true_eq]
          exact Iff.rfl
        by_cases hm : b.moreRecent vb = true
        · simp only [if_pos hm, if_pos (hmore.mp hm)]
          exact .inr ⟨id, b, events, rfl, rfl, hsim⟩
        · simp only [if_neg hm, if_neg (fun hc => hm (hmore.mpr hc))]
          exact .inr ⟨vid, vb, vevents, rfl, rfl, hvsim⟩
    · exact hvw
  have hfold : ∀ {l : List (Σ _ : String, Breaker)} {l' : List (Σ _ : String, RefBreaker)},
      List.Forall₂ (fun e e' => e.1 = e'.1 ∧ Sim bs.p g e.1 e.2 e'.2) l l' → ∀ v w, R v w →
        R (l.foldl (pickVictim model) v) (l'.foldl (pickWorst model) w) := by
    intro l l' hl
    induction hl with
    | nil => exact fun _ _ hvw => hvw
    | cons he _ ih => exact fun v w hvw => ih _ _ (hstep v w _ _ hvw he)
  exact hfold h.sim none none (.inl ⟨rfl, rfl⟩)

/-- The loop of one model. Its limit is fixed at the start; the reference counts again in every
round. -/
theorem relax {model : String} (limit : Int)
    (hlimit : limit = maxOpen bs.p.maxOpenFraction (bs.eligibleCount model)) (fuel : Nat)
    (chs : List Change) :
    (Breakers.relax g.now model limit fuel bs chs).2 = (RefModel.relax g.now model fuel m chs).2 ∧
      Mirrors g (Breakers.relax g.now model limit fuel bs chs).1
        (RefModel.relax g.now model fuel m chs).1 := by
  induction fuel generalizing bs m chs with
  | zero => exact ⟨rfl, h⟩
  | succ fuel ih =>
    unfold Breakers.relax RefModel.relax
    rcases h.victim_worst model with ⟨h₁, h₂⟩ | ⟨id, b, events, h₁, h₂, hsim⟩
    · rw [h₁, h₂]
      exact ⟨rfl, h⟩
    · obtain ⟨hlook, hej⟩ := (victim_spec bs model).1 _ h₁
      dsimp only at hlook hej
      have hpos : 1 ≤ (bs.openCount model : Int) := by
        exact_mod_cast count_pos_of_lookup hlook hej
      have hle : (bs.openCount model : Int) ≤ bs.eligibleCount model := by
        exact_mod_cast openCount_le_eligibleCount bs model
      have hiff : (bs.openCount model : Int) ≤ limit ↔ m.openCount model ≤ m.limit model := by
        rw [hlimit, h.openCount_eq, h.limit_eq]
        exact le_maxOpen_iff _ hpos hle
      rw [h₁, h₂]
      simp only [hiff]
      split
      · exact ⟨rfl, h⟩
      · have hst : b.state ≠ .closed := by
          simp only [Breaker.ejected, Bool.and_eq_true, decide_eq_true_eq] at hej
          exact hej.2
        have hfind : bs.find b.key = some b := by
          rw [Breakers.find, hsim.home, hlook]
          simp
        have hclose : Sim bs.p g b.key.id (b.close g.now) ((b.toRef events).close g.now) := by
          rw [hsim.home]
          exact ⟨[], toRef_close b events g.now, hsim.close hst h.recorded g.now⟩
        have hset := h.set hfind (b.close g.now) rfl hclose
        rw [hsim.home] at hset
        refine ih hset ?_ _
        rw [hlimit, (relaxed_close hlook g.now).1.eligibleCount]
        rfl

theorem relaxModels (hrecount : ∀ model, bs.eligibleOf model = bs.eligibleCount model)
    (models : List String) (chs : List Change) :
    (models.foldl (Breakers.relaxModel g.now) (bs, chs)).2 =
        (models.foldl (RefModel.relaxModel g.now) (m, chs)).2 ∧
      Mirrors g (models.foldl (Breakers.relaxModel g.now) (bs, chs)).1
        (models.foldl (RefModel.relaxModel g.now) (m, chs)).1 := by
  induction models generalizing bs m chs with
  | nil => exact ⟨rfl, h⟩
  | cons model models ih =>
    obtain ⟨heq, hone⟩ := h.relax (maxOpen bs.p.maxOpenFraction (bs.eligibleOf model))
      (by rw [hrecount]) bs.byID.len chs
    have hrel := (relax_spec g.now model (maxOpen_nonneg bs.p.maxOpenFraction (bs.eligibleOf model))
      bs.byID.len bs chs (openCount_le_len bs model)).1
    rw [foldl_cons, foldl_cons]
    have hmodel : RefModel.relaxModel g.now (m, chs) model =
        ((RefModel.relax g.now model bs.byID.len m chs).1,
          (Breakers.relaxModel g.now (bs, chs) model).2) := by
      show RefModel.relax g.now model m.br.len m chs = _
      rw [← h.sim.len_eq]
      exact Prod.ext rfl heq.symm
    rw [hmodel]
    refine ih hone (fun other => ?_) _
    rw [hrel.eligibleOf other, hrel.eligibleCount other]
    exact hrecount other

/-- The recount has an entry for the models that the reference visits. -/
theorem models_keys : bs.recountEligible.eligibleBy.keys = m.models.keys := by
  have hfold : ∀ {l : List (Σ _ : String, Breaker)} {l' : List (Σ _ : String, RefBreaker)},
      List.Forall₂ (fun e e' => e.1 = e'.1 ∧ Sim bs.p g e.1 e.2 e'.2) l l' →
        ∀ (a : GoMap String Int) (a' : GoMap String Unit), a.keys = a'.keys →
          ((l.map Sigma.snd).foldl countEligible a).keys =
            ((l'.map Sigma.snd).foldl
              (fun ms b => if b.eligible then ms.insert b.model () else ms) a').keys := by
    intro l l' hl
    induction hl with
    | nil => exact fun _ _ ha => ha
    | @cons e e' _ _ he _ ih =>
      intro a a' ha
      obtain ⟨-, events, heq, -⟩ := he
      rw [map_cons, map_cons, foldl_cons, foldl_cons]
      refine ih _ _ ?_
      rw [heq]
      unfold countEligible
      show (if e.2.eligible then _ else _ : GoMap String Int).keys =
        (if e.2.eligible then _ else _ : GoMap String Unit).keys
      split
      · rw [keys_insert, keys_insert, ha]
        rfl
      · exact ha
  exact hfold h.sim ∅ ∅ rfl

theorem recountEligible : Mirrors g bs.recountEligible m :=
  ⟨⟨h.agree.normal, h.agree.p, h.agree.rnd, h.agree.draws⟩, h.sim, h.live, h.known, h.synced,
    h.issued, h.recorded⟩

theorem enforceCap (order : List String) :
    (bs.recountEligible.enforceCap g.now order).2 = (m.enforceCap g.now order).2 ∧
      Mirrors g (bs.recountEligible.enforceCap g.now order).1 (m.enforceCap g.now order).1 := by
  unfold Breakers.enforceCap RefModel.enforceCap
  have hkeys : m.models.rangeKeys order = bs.recountEligible.eligibleBy.rangeKeys order := by
    unfold AList.rangeKeys
    rw [h.models_keys]
  rw [hkeys]
  exact h.recountEligible.relaxModels (eligibleOf_recountEligible bs) _ []

/-! ### The registry view -/

/-- A new key has no ticket and no OK yet. -/
theorem simAt_new (hk : k ∉ g.seen) : SimAt bs.p g k.id (newBreaker k bs.p) [] := by
  have hkey : ∀ t ∈ g.issued, ¬ t.plainFor k = true := by
    intro t ht hplain
    simp only [Ticket.plainFor, Bool.and_eq_true, decide_eq_true_eq] at hplain
    exact hk (hplain.2 ▸ h.issued t ht)
  refine ⟨rfl, .new h.agree.normal k g.now, fun t ht hplain => absurd hplain (hkey t ht),
    fun _ t => ?_⟩
  rw [countP_eq_zero.mpr]
  · exact Nat.zero_le _
  · intro x hx hcounted
    simp only [Breaker.counted, Bool.and_eq_true] at hcounted
    exact hkey x.1 (h.recorded x hx) hcounted.1

/-- A key is live exactly if it has a breaker. -/
theorem find_isSome_iff (k : Key) : (∃ b, bs.find k = some b) ↔ g.live k.id = some k := by
  rw [h.live]
  unfold Breakers.find
  constructor
  · rintro ⟨b, hb⟩
    obtain ⟨hlook, hk⟩ := filter_eq_some_iff.mp hb
    rw [hlook, map_some, of_decide_eq_true hk]
  · intro hlive
    obtain ⟨b, hlook, hk⟩ := map_eq_some_iff.mp hlive
    exact ⟨b, filter_eq_some_iff.mpr ⟨hlook, decide_eq_true hk⟩⟩

theorem syncMember {mem : Member} (hmem : g.live mem.key.id = some mem.key ∨ mem.key ∉ g.seen) :
    Mirrors (g.syncMember mem) (bs.syncMember mem) (m.syncMember mem) := by
  obtain ⟨b, events, hb, hrb, hsim⟩ : ∃ b events,
      (bs.find mem.key).getD (newBreaker mem.key bs.p) = b ∧
        (m.find mem.key).getD (newRefBreaker mem.key) = b.toRef events ∧
        SimAt bs.p g mem.key.id b events := by
    rcases h.find mem.key with ⟨h₁, h₂⟩ | ⟨b, events, h₁, h₂, hsim⟩
    · refine ⟨newBreaker mem.key bs.p, [], by rw [h₁]; rfl, by rw [h₂]; rfl, h.simAt_new ?_⟩
      refine hmem.resolve_left fun hlive => ?_
      obtain ⟨b, hb⟩ := (h.find_isSome_iff mem.key).mpr hlive
      rw [h₁] at hb
      cases hb
    · exact ⟨b, events, by rw [h₁]; rfl, by rw [h₂]; rfl, hsim⟩
  have hkey : b.key = mem.key := by
    rw [← hb]
    cases hf : bs.find mem.key with
    | none => rfl
    | some c => exact (find_eq_some hf).2
  unfold Breakers.syncMember RefModel.syncMember
  rw [hb, hrb]
  refine ⟨⟨h.agree.normal, h.agree.p, h.agree.rnd, h.agree.draws⟩,
    h.sim.insert (fun id c rc _ _ hc => hc.of_view rfl rfl rfl)
      (Sim.of_view (g := g) ⟨events, rfl, hsim.congr rfl rfl rfl rfl Iff.rfl⟩ rfl rfl rfl),
    fun id => ?_, fun id k hlive => ?_,
    fun k hk => mem_cons_of_mem _ (h.synced k hk),
    fun t ht => mem_cons_of_mem _ (h.issued t ht), h.recorded⟩
  · show Function.update g.live mem.key.id (some mem.key) id =
      ((bs.byID.insert mem.key.id _).lookup id).map Breaker.key
    rw [lookup_insert_ite, Function.update_apply]
    split
    · exact congrArg some hkey.symm
    · exact h.live id
  · change Function.update g.live mem.key.id (some mem.key) id = some k at hlive
    rw [Function.update_apply] at hlive
    split at hlive
    · exact (some.inj hlive) ▸ mem_cons_self
    · exact mem_cons_of_mem _ (h.known id k hlive)

theorem syncMembers (members : List Member) (hadm : g.admitsMembers members) :
    Mirrors (members.foldl Client.syncMember g) (members.foldl Breakers.syncMember bs)
      (members.foldl RefModel.syncMember m) := by
  induction members generalizing g bs m with
  | nil => exact h
  | cons mem members ih => exact ih (h.syncMember hadm.1) hadm.2

/-- Breakers are dropped. -/
theorem keep (q : String → Breaker → Bool) (q' : String → RefBreaker → Bool)
    (hq : ∀ id b events, q id b = q' id (Breaker.toRef b events)) (live : String → Option Key)
    (hlive : ∀ id, live id = ((bs.byID.lookup id).filter (q id)).map Breaker.key) :
    Mirrors { g with live := live } { bs with byID := bs.byID.keep q }
      { m with br := m.br.keep q' } := by
  have hsim : AList.Matches (Sim bs.p { g with live := live }) bs.byID m.br :=
    h.sim.imp fun id b rb _ hsim => hsim.of_view rfl rfl rfl
  refine ⟨⟨h.agree.normal, h.agree.p, h.agree.rnd, h.agree.draws⟩,
    hsim.keep fun id b rb hsim => ?_, fun id => ?_, fun id k hk => ?_, h.synced, h.issued,
    h.recorded⟩
  · obtain ⟨events, rfl, -⟩ := hsim
    exact hq id b events
  · show live id = ((bs.byID.keep q).lookup id).map Breaker.key
    rw [hlive, lookup_keep]
  · change live id = some k at hk
    rw [hlive] at hk
    obtain ⟨b, hb, hk⟩ := map_eq_some_iff.mp hk
    refine h.known id k ?_
    rw [h.live, (filter_eq_some_iff.mp hb).1, ← hk]
    rfl

theorem sync (order : List String) (members : List Member) (hadm : g.admitsMembers members) :
    (bs.sync g.now order members).2 = (m.sync g.now order members).2 ∧
      Mirrors
        { members.foldl Client.syncMember g with
          live := fun id =>
            if id ∈ memberIDs members then (members.foldl Client.syncMember g).live id else none
          synced := members.map (·.key) }
        (bs.sync g.now order members).1 (m.sync g.now order members).1 := by
  have hall := h.syncMembers members hadm
  have hnow : ∀ (ms : List Member) (g : Client), (ms.foldl Client.syncMember g).now = g.now := by
    intro ms
    induction ms with
    | nil => exact fun _ => rfl
    | cons mem ms ih => exact fun g => ih (g.syncMember mem)
  have hseen : ∀ (ms : List Member) (g : Client),
    (∀ k ∈ g.seen, k ∈ (ms.foldl Client.syncMember g).seen) ∧
      ∀ mem ∈ ms, mem.key ∈ (ms.foldl Client.syncMember g).seen := by
    intro ms
    induction ms with
    | nil => exact fun g => ⟨fun _ hk => hk, nofun⟩
    | cons mem ms ih =>
      intro g
      obtain ⟨hold, hnew⟩ := ih (g.syncMember mem)
      refine ⟨fun k hk => hold k (mem_cons_of_mem _ hk), fun x hx => ?_⟩
      rcases mem_cons.mp hx with rfl | hx
      · exact hold _ mem_cons_self
      · exact hnew x hx
  have hkeep := hall.keep (fun id _ => decide (id ∈ memberIDs members))
    (fun id _ => decide (id ∈ memberIDs members)) (fun _ _ _ => rfl)
    (fun id =>
      if id ∈ memberIDs members then (members.foldl Client.syncMember g).live id else none) (by
      intro id
      rw [hall.live]
      cases (members.foldl Breakers.syncMember bs).byID.lookup id <;>
        by_cases hid : id ∈ memberIDs members <;> simp [hid])
  have hsynced : Mirrors
      { members.foldl Client.syncMember g with
        live := fun id =>
          if id ∈ memberIDs members then (members.foldl Client.syncMember g).live id else none
        synced := members.map (·.key) } _ _ :=
    ⟨hkeep.agree, hkeep.sim.imp fun id b rb _ hsim => hsim.of_view rfl rfl rfl,
      hkeep.live, hkeep.known, fun k hk => by
        obtain ⟨mem, hmem, rfl⟩ := List.mem_map.mp hk
        exact (hseen members g).2 mem hmem,
      hkeep.issued, hkeep.recorded⟩
  have := hsynced.enforceCap order
  rwa [show Client.now _ = g.now from hnow members g] at this

theorem prune (order : List String) (keys : List Key) :
    (bs.prune g.now order keys).2 = (m.prune g.now order keys).2 ∧
      Mirrors { g with live := fun id => (g.live id).filter fun k => decide (k ∈ keys) }
        (bs.prune g.now order keys).1 (m.prune g.now order keys).1 := by
  have hkeep := h.keep (fun _ b => decide (b.key ∈ keys)) (fun _ b => decide (b.key ∈ keys))
    (fun _ _ _ => rfl) (fun id => (g.live id).filter fun k => decide (k ∈ keys)) (by
      intro id
      rw [h.live]
      cases bs.byID.lookup id with
      | none => rfl
      | some b => by_cases hb : b.key ∈ keys <;> simp [filter_some, hb])
  exact hkeep.enforceCap order

/-! ### Runs -/

/-- An operation from which the callers learn nothing. -/
theorem onBreaker_quiet (hcap : CapOk bs) (hnow : g.now ≤ now) (k : Key)
    (hact : ∀ bs m b events, Agree bs m → SimAt bs.p (g.at now) k.id b events →
      (b.state = .closed → SameRoom bs m b) →
      ActSim bs.p (g.at now) k.id b (act bs b) (ract m (b.toRef events))) :
    (bs.onBreaker k now missing act).2 = (m.onBreaker k now missing ract).2 ∧
      Mirrors (g.at now) (bs.onBreaker k now missing act).1 (m.onBreaker k now missing ract).1 :=
  h.onBreaker hcap hnow k (fun _ => True) (fun _ => g.at now) trivial (fun _ _ => trivial)
    (fun _ _ => .refl _ k) (fun _ _ => h.issued)
    fun bs m b events hm hsim _ hroom => hact bs m b events hm hsim hroom

theorem acquire (hcap : CapOk bs) (hnow : g.now ≤ now)
    (hk : k ∈ g.synced) :
    let missing : BreakersReply := .ticket ⟨k, 0, 0, false, true⟩ true
    let r := bs.onBreaker k now missing (acquireAct k now)
    r.2 = (m.onBreaker k now missing (RefModel.acquire k now)).2 ∧
      Mirrors ((g.at now).acquired r.2.1) r.1
          (m.onBreaker k now missing (RefModel.acquire k now)).1 := by
  have hticket : ∀ bs b t, (acquireAct k now bs b).reply = .ticket t true → t.key = k := by
    intro bs b t
    unfold acquireAct
    split
    · intro heq
      cases heq
      rfl
    · split
      · intro heq
        cases heq
        rfl
      · intro heq
        cases heq
    · intro heq
      cases heq
  have hissued : ∀ r, (∀ t, r = BreakersReply.ticket t true → t.key = k) →
      ∀ t ∈ ((g.at now).acquired r).issued, t ∈ g.issued ∨ t.key = k := by
    intro r hr t ht
    unfold Client.acquired at ht
    split at ht
    · rcases mem_cons.mp ht with rfl | hold
      · exact .inr (hr _ rfl)
      · exact .inl hold
    · exact .inl ht
  refine h.onBreaker hcap hnow k (fun r => ∀ t, r = .ticket t true → t.key = k)
    (g.at now).acquired (fun t ht => by cases ht; rfl) hticket (fun r hr => ?_)
      (fun r hr t ht => ?_)
    fun bs m b events hm hsim _ _ => acquire_sim hm hsim k now
  · have hsame : ((g.at now).acquired r).now = now ∧ ((g.at now).acquired r).live = g.live ∧
        ((g.at now).acquired r).seen = g.seen ∧ ((g.at now).acquired r).synced = g.synced ∧
        ((g.at now).acquired r).oks = g.oks := by
      unfold Client.acquired
      split <;> exact ⟨rfl, rfl, rfl, rfl, rfl⟩
    obtain ⟨h₁, h₂, h₃, h₄, h₅⟩ := hsame
    refine ⟨h₁, h₂, h₃, h₄, hissued r hr, fun x hx => .inl (h₅ ▸ hx), fun t ht => ?_, fun q _ => ?_⟩
    · unfold Client.acquired
      split
      · exact mem_cons_of_mem _ ht
      · exact ht
    · rw [h₅]
      exact le_rfl
  · rcases hissued r hr t ht with hold | hkey
    · exact h.issued t hold
    · exact hkey ▸ h.synced k hk

theorem record (hcap : CapOk bs) (hnow : g.now ≤ now) {t : Ticket}
    (ht : t ∈ g.issued) (v : Verdict) :
    let r := bs.onBreaker t.key now .done (recordAct t v now)
    let rr := m.onBreaker t.key now .done (RefModel.record t v now)
    r.2 = rr.2 ∧ Mirrors ((g.at now).recorded t v) r.1 rr.1 := by
  have hissued : ((g.at now).recorded t v).issued = g.issued := by
    unfold Client.recorded
    split <;> rfl
  refine h.onBreaker hcap hnow t.key (fun _ => True) (fun _ => (g.at now).recorded t v) trivial
    (fun _ _ => trivial) (fun _ _ => ?_) (fun _ _ s hs => h.issued s (hissued ▸ hs))
    fun bs m b events hm hsim _ hroom => record_sim hm hsim t v h.recorded hroom
  unfold Client.recorded
  split
  · refine ⟨rfl, rfl, rfl, rfl, fun s hs => .inl hs, fun x hx => ?_, fun s hs => hs, fun q hq => ?_⟩
    · rcases mem_cons.mp hx with rfl | hold
      · exact .inr ht
      · exact .inl hold
    · have hnot : q (t, (g.at now).now) = false := by
        by_contra hc
        exact hq _ (by simpa using hc) rfl
      rw [countP_cons, hnot]
      exact le_rfl
  · exact .refl _ _

theorem abort (hcap : CapOk bs) (hnow : g.now ≤ now) {t : Ticket}
    {okAt : Time} (hmem : (t, okAt) ∈ g.oks) (hvalid : t.valid = true) (hprobe : t.probe = false) :
    let r := bs.onBreaker t.key now .done (abortAct t okAt now)
    let rr := m.onBreaker t.key now .done (RefModel.abort t okAt now)
    r.2 = rr.2 ∧ Mirrors ((g.at now).aborted t okAt) r.1 rr.1 := by
  refine h.onBreaker hcap hnow t.key (fun _ => True) (fun _ => (g.at now).aborted t okAt) trivial
    (fun _ _ => trivial) (fun _ _ => ?_) (fun _ _ s hs => h.issued s hs)
    fun bs m b events hm hsim hkey hroom => ?_
  · exact ⟨rfl, rfl, rfl, rfl, fun s hs => .inl hs, fun x hx => .inl (mem_of_mem_erase hx),
      fun s hs => hs, fun q _ => List.Sublist.countP_le erase_sublist⟩
  · exact abort_sim hm hsim hmem (by simp [Ticket.plainFor, hvalid, hprobe, hkey]) hroom

/-- An OK that cannot be aborted is forgotten. -/
theorem aborted (t : Ticket) (okAt : Time) : Mirrors (g.aborted t okAt) bs m := by
  refine ⟨h.agree, h.sim.imp fun id b rb _ hsim => ?_, h.live, h.known, h.synced, h.issued,
    fun x hx => h.recorded x (mem_of_mem_erase hx)⟩
  obtain ⟨events, heq, hsim⟩ := hsim
  exact ⟨events, heq, hsim.home, hsim.evidence, hsim.epochs, fun hst s =>
    (List.Sublist.countP_le erase_sublist).trans (hsim.oks hst s)⟩

theorem recordLate (hcap : CapOk bs) (hnow : g.now ≤ now) (t : Ticket) (v : Verdict) :
    (bs.recordLate now t v).2 = (m.recordLate now t v).2 ∧
      Mirrors (g.at now) (bs.recordLate now t v).1 (m.recordLate now t v).1 := by
  have hiff : (!t.valid || (decide (v ≠ .fault) && decide (v ≠ .ratioFault))) = true ↔
      ¬ (t.valid = true ∧ (v = .fault ∨ v = .ratioFault)) := by
    simp only [Bool.or_eq_true, Bool.not_eq_true', Bool.and_eq_true, decide_eq_true_eq, not_and_or,
      not_or, Bool.not_eq_true]
  unfold Breakers.recordLate RefModel.recordLate
  by_cases hfault : t.valid = true ∧ (v = .fault ∨ v = .ratioFault)
  · rw [if_neg fun hc => hiff.mp hc hfault, if_pos hfault]
    have hv : v ≠ .ok := by
      rintro rfl
      simp at hfault
    exact h.onBreaker_quiet hcap hnow t.key fun bs m b events hm hsim hroom =>
      late_sim hm hsim t hv hroom
  · rw [if_pos (hiff.mpr hfault), if_neg hfault]
    exact ⟨rfl, h.at_time hnow⟩

/-- Every operation that the callers may make gets the same answer and the same changes. -/
theorem step (hcap : CapOk bs) {c : BreakersCall} (hadm : g.admits c) :
    (bs.step c).2 = (m.step c).2 ∧
      Mirrors (g.observe c (bs.step c).2) (bs.step c).1 (m.step c).1 := by
  obtain ⟨now, order, op⟩ := c
  obtain ⟨hnow, hop⟩ := hadm
  have hat := h.at_time hnow
  cases op with
  | sync members =>
    obtain ⟨heq, hm⟩ := hat.sync order members (Client.admitsMembers_at hop now)
    exact ⟨congrArg (BreakersReply.done, ·) heq, hm⟩
  | prune keys =>
    obtain ⟨heq, hm⟩ := hat.prune order keys
    exact ⟨congrArg (BreakersReply.done, ·) heq, hm⟩
  | admissible k =>
    exact h.onBreaker_quiet hcap hnow k fun _ _ _ _ hm hsim _ => admissible_sim hm hsim
  | acquire k => exact h.acquire hcap hnow hop
  | record t v =>
    unfold Breakers.step RefModel.step
    cases hvalid : t.valid with
    | false =>
      refine ⟨by simp [hvalid], ?_⟩
      have hrec : (g.at now).recorded t v = g.at now := if_neg (by simp [hvalid])
      simp only [Client.observe, hrec, hvalid]
      exact hat
    | true =>
      simp only [hvalid, Bool.not_true, Bool.false_eq_true, if_false, if_true]
      exact h.record hcap hnow (hop hvalid) v
  | recordLate t v => exact h.recordLate hcap hnow t v
  | recordAbort t okAt =>
    unfold Breakers.step RefModel.step
    cases hvalid : t.valid with
    | false =>
      simp only [hvalid, Bool.not_false, if_true]
      exact ⟨trivial, hat.aborted t okAt⟩
    | true =>
      simp only [hvalid, Bool.not_true, Bool.false_eq_true, if_false]
      cases hprobe : t.probe with
      | true =>
        obtain ⟨heq, hm⟩ := h.recordLate hcap hnow t .fault
        exact ⟨heq, hm.aborted t okAt⟩
      | false => exact h.abort hcap hnow ((hop hvalid).2 hprobe) hvalid hprobe
  | release t => exact ⟨rfl, hat.release t⟩
  | state k => exact h.onBreaker_quiet hcap hnow k fun _ _ _ _ _ hsim _ => state_sim hsim
  | snapshot => exact hat.snapshot now order
  | counts => exact hat.counts hcap now order
  | retryAfter => exact hat.retryAfter now order

end

end Mirrors

/-- **Breakers refine the naive reference.** For all parameters and all jitter, in every run in
which the callers keep to their protocol, every operation gets the same answer and delivers the same
changes as in the reference. -/
theorem breakers_refine_reference (p : BreakerParams) (rnd : Nat → ℚ) (start : Time)
    (calls : List BreakersCall)
    (hadm : Machine.Admitted Breakers.step Client.admits Client.observe (Client.start start)
      (Breakers.new p rnd) calls) :
    outputs Breakers.step (Breakers.new p rnd) calls =
      outputs RefModel.step (RefModel.new p rnd) calls := by
  rw [outputs_eq_outputsOf, outputs_eq_outputsOf]
  refine outputsOf_eq_of_sim (R := fun g bs m => CapOk bs ∧ Mirrors g bs m)
    (fun g bs m c hR hc => ?_) ⟨capOk_new p rnd, mirrors_new p rnd start⟩ hadm
  obtain ⟨heq, hm⟩ := hR.2.step hR.1 hc
  exact ⟨fun _ => heq, hR.1.step c, hm⟩

/-- A breaker that trips when half of at least three outcomes are faults. Of two OKs one is
aborted, and a fault follows: two faults in three outcomes. -/
theorem breakers_refine_reference_aborted_ok :
    let p : BreakerParams := ⟨5, 1 / 2, 3, 10 * second, second, 2 * second, 1, 1, 1, 0⟩
    let k : Key := ⟨"w", 1⟩
    let t : Ticket := ⟨k, 0, 0, false, true⟩
    let calls : List BreakersCall :=
      [⟨1 * second, [], .sync [⟨k, "m", true⟩]⟩, ⟨1 * second, [], .acquire k⟩,
        ⟨2 * second, [], .record t .ok⟩, ⟨2 * second, [], .record t .ok⟩,
        ⟨3 * second, [], .recordAbort t (2 * second)⟩, ⟨3 * second, [], .record t .fault⟩,
        ⟨3 * second, [], .state k⟩]
    (outputs Breakers.step (Breakers.new p fun _ => 1 / 2) calls).getLast? =
        some (.state .open, []) ∧
      outputs Breakers.step (Breakers.new p fun _ => 1 / 2) calls =
        outputs RefModel.step (RefModel.new p fun _ => 1 / 2) calls :=
  ⟨by decide +kernel, breakers_refine_reference _ _ 0 _ (by decide +kernel)⟩

end ServerFlow.Resilience
