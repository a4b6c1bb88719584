import ServerFlow.Resilience.BreakersCapOrder

/-!
# Resilience.BreakersReads

Reading a set of breakers does not change what it does. A read (`Admissible`, `State`, `Snapshot`,
`Counts`, `RetryAfter`) applies lazy transitions that the next call would have applied as well, and
some of the other calls, `Sync`, `Prune` and `Release`, apply none. So a run with reads put in is
compared with the run without them: between calls the two sets of breakers are the same
(`SameBreakers`), a read changes one of them to a set that still is, and every other call answers
the same in both.

A notification of a cool-down that has ended comes with whichever call notices it. All others come
with the same call in both runs; only the state they leave may have been noticed to be half-open, or
not yet.
-/

namespace ServerFlow.Resilience

open List Machine

variable {now t u : Time} {bs bs' : Breakers} {id : String}

/-! ### Applying the lazy transitions of all breakers -/

theorem advanceID_p (bs : Breakers) (now : Time) (id : String) :
    (bs.advanceID now id).1.p = bs.p := by
  unfold Breakers.advanceID
  cases bs.byID.lookup id <;> rfl

theorem advanceID_lookup (bs : Breakers) (now : Time) (id id' : String) :
    (bs.advanceID now id).1.byID.lookup id' =
      if id' = id then bs.advanced now id' else bs.byID.lookup id' := by
  unfold Breakers.advanceID Breakers.advanced
  cases hb : bs.byID.lookup id with
  | none =>
    by_cases heq : id' = id
    · rw [if_pos heq, heq, hb]
      rfl
    · rw [if_neg heq]
  | some b =>
    dsimp only [Breakers.set]
    rw [AList.lookup_insert_ite]
    by_cases heq : id' = id
    · rw [if_pos heq, if_pos heq, heq, hb]
      rfl
    · rw [if_neg heq, if_neg heq]

/-- Applying the transitions of one breaker changes none of the breakers as they will be found. -/
theorem advanced_advanceID (bs : Breakers) (now : Time) (id id' : String) :
    (bs.advanceID now id).1.advanced now id' = bs.advanced now id' := by
  unfold Breakers.advanced
  rw [advanceID_lookup, advanceID_p]
  split
  · unfold Breakers.advanced
    rw [Option.map_map]
    refine congrArg (Option.map · _) (funext fun b => ?_)
    exact Breaker.advance_advance le_rfl b
  · rfl

theorem advanceAll_lookup (now : Time) (ids : List String) (bs : Breakers) (id : String) :
    (Breakers.advanceAll now ids bs).1.byID.lookup id =
      if id ∈ ids then bs.advanced now id else bs.byID.lookup id := by
  induction ids generalizing bs with
  | nil => rfl
  | cons i ids ih =>
    have hnext := ih (bs.advanceID now i).1
    rw [advanced_advanceID, advanceID_lookup] at hnext
    refine hnext.trans ?_
    by_cases hi : id = i
    · simp [hi]
    · simp [hi]

/-- After a loop over all workers every breaker has its transitions applied. -/
theorem advanceAll_rangeKeys (now : Time) (order : List String) (bs : Breakers) (id : String) :
    (Breakers.advanceAll now (bs.byID.rangeKeys order) bs).1.byID.lookup id =
      bs.advanced now id := by
  rw [advanceAll_lookup]
  split
  · rfl
  next hmem =>
    have hnone : bs.byID.lookup id = none :=
      AList.lookup_eq_none.mpr fun h => hmem (AList.mem_rangeKeys.mpr h)
    unfold Breakers.advanced
    rw [hnone]
    rfl

theorem advanceID_changes (bs : Breakers) (now : Time) (id : String) :
    notices (bs.advanceID now id).2 = 0 := by
  unfold Breakers.advanceID
  cases bs.byID.lookup id with
  | none => rfl
  | some b => exact notices_of_coolDown (Breaker.advance_changes b)

theorem advanceAll_changes (now : Time) (ids : List String) (bs : Breakers) :
    notices (Breakers.advanceAll now ids bs).2 = 0 := by
  induction ids generalizing bs with
  | nil => rfl
  | cons id ids ih =>
    show notices ((bs.advanceID now id).2 ++
      (Breakers.advanceAll now ids (bs.advanceID now id).1).2) = 0
    rw [notices_append, advanceID_changes, ih]
    rfl

namespace SameBreakers

section

variable (h : SameBreakers t bs bs')
include h

theorem advanceID_left (id : String) : SameBreakers t (bs.advanceID t id).1 bs' := by
  unfold Breakers.advanceID
  cases hb : bs.byID.lookup id with
  | none => exact h
  | some b => exact h.set_left hb (Breaker.SameAt.advance b)

theorem advanceAll_left (ids : List String) :
    SameBreakers t (Breakers.advanceAll t ids bs).1 bs' := by
  induction ids generalizing bs with
  | nil => exact h
  | cons id ids ih => exact ih (h.advanceID_left id)

theorem retryLoop_left (ids : List String) (earliest : Duration) :
    SameBreakers t (Breakers.retryLoop t ids bs earliest).1 bs' := by
  induction ids generalizing bs earliest with
  | nil => exact h
  | cons id ids ih =>
    have hnext := h.advanceID_left id
    unfold Breakers.retryLoop
    dsimp only
    cases (bs.advanceID t id).1.byID.lookup id with
    | none => exact ih hnext earliest
    | some b =>
      dsimp only
      split
      · exact ih hnext earliest
      · split
        · exact hnext
        · exact ih hnext _

theorem advanced_eq (id : String) : bs'.advanced t id = bs.advanced t id := by
  unfold Breakers.advanced
  rcases h.byID.lookup id with ⟨hb, hb'⟩ | ⟨b, b', hb, hb', hsame⟩
  · rw [hb, hb']
    rfl
  · rw [hb, hb', h.p]
    exact congrArg some (Eq.symm hsame)

theorem rangeKeys_perm (order order' : List String) :
    (bs'.byID.rangeKeys order').Perm (bs.byID.rangeKeys order) :=
  (AList.rangeKeys_perm order' bs'.byID).trans
    (h.byID.keys_perm.symm.trans (AList.rangeKeys_perm order bs.byID).symm)

end

end SameBreakers

/-! ### Reads of all breakers -/

/-- One round of `RetryAfter`, if it did not stop early. -/
def Breakers.waitAfter (bs : Breakers) (now : Time) (earliest : Duration) (id : String) :
    Duration :=
  match bs.advanced now id with
  | none => earliest
  | some b => if b.eligible then b.earlier now earliest else earliest

/-- A breaker that is open once its transitions are applied has time left. -/
theorem Breaker.advance_open_wait {p : BreakerParams} {b : Breaker}
    (h : (b.advance now p).1.state = .open) : 0 < (b.advance now p).1.openUntil - now := by
  unfold Breaker.advance at h ⊢
  split at h
  · cases h
  next hc =>
    rw [if_neg hc]
    split at h
    next hhalf => exact absurd (hhalf.symm.trans h) (by decide)
    next hhalf =>
      rw [if_neg hhalf]
      have hlt : now < b.openUntil := by
        by_contra hlt
        exact hc ⟨h, hlt⟩
      exact sub_pos.mpr hlt

/-- How a breaker changes the earliest wait: not at all, to `0`, or to its own wait if that is
earlier. -/
theorem waitAfter_cases (bs : Breakers) (now : Time) (id : String) :
    (∀ e, bs.waitAfter now e id = e) ∨ (∀ e, bs.waitAfter now e id = 0) ∨
      ∃ d, 0 < d ∧ ∀ e, bs.waitAfter now e id = if e < 0 ∨ d < e then d else e := by
  unfold Breakers.waitAfter Breakers.advanced
  cases bs.byID.lookup id with
  | none => exact .inl fun _ => rfl
  | some b =>
    dsimp only [Option.map_some]
    cases (b.advance now bs.p).1.eligible with
    | false => exact .inl fun _ => rfl
    | true =>
      unfold Breaker.earlier
      cases hstate : (b.advance now bs.p).1.state with
      | closed => exact .inl fun _ => rfl
      | halfOpen => exact .inr (.inl fun _ => rfl)
      | «open» => exact .inr (.inr ⟨_, Breaker.advance_open_wait hstate, fun _ => rfl⟩)

theorem waitAfter_zero (bs : Breakers) (now : Time) (id : String) : bs.waitAfter now 0 id = 0 := by
  rcases waitAfter_cases bs now id with h | h | ⟨d, hd, h⟩
  · exact h 0
  · exact h 0
  · rw [h, if_neg]
    rintro (hneg | hlt)
    · exact absurd hneg (lt_irrefl 0)
    · exact absurd hlt hd.le.not_gt

theorem earliest_comm {d d' : Int} (hd : 0 < d) (hd' : 0 < d') (e : Int) :
    (if (if e < 0 ∨ d < e then d else e) < 0 ∨ d' < (if e < 0 ∨ d < e then d else e) then d'
        else if e < 0 ∨ d < e then d else e) =
      if (if e < 0 ∨ d' < e then d' else e) < 0 ∨ d < (if e < 0 ∨ d' < e then d' else e) then d
        else if e < 0 ∨ d' < e then d' else e := by
  split_ifs <;> omega

theorem waitAfter_comm (bs : Breakers) (now : Time) (e : Duration) (id id' : String) :
    bs.waitAfter now (bs.waitAfter now e id) id' =
      bs.waitAfter now (bs.waitAfter now e id') id := by
  rcases waitAfter_cases bs now id with h | h | ⟨d, hd, h⟩
  · rw [h, h]
  · rw [h, h, waitAfter_zero]
  · rcases waitAfter_cases bs now id' with h' | h' | ⟨d', hd', h'⟩
    · rw [h', h']
    · rw [h', h', waitAfter_zero]
    · rw [h, h', h', h]
      exact earliest_comm hd hd' e

theorem foldl_waitAfter_zero (bs : Breakers) (now : Time) (ids : List String) :
    ids.foldl (bs.waitAfter now) 0 = 0 := by
  induction ids with
  | nil => rfl
  | cons id ids ih => rw [foldl_cons, waitAfter_zero, ih]

theorem waitAfter_advanceID (bs : Breakers) (now : Time) (id : String) :
    (bs.advanceID now id).1.waitAfter now = bs.waitAfter now := by
  funext e id'
  unfold Breakers.waitAfter
  rw [advanced_advanceID]

/-- The early stop does not change the wait: no breaker after it could. -/
theorem retryLoop_wait (now : Time) (ids : List String) (bs : Breakers) (earliest : Duration) :
    (Breakers.retryLoop now ids bs earliest).2.1 = ids.foldl (bs.waitAfter now) earliest := by
  induction ids generalizing bs earliest with
  | nil => rfl
  | cons id ids ih =>
    have hlook : (bs.advanceID now id).1.byID.lookup id = bs.advanced now id := by
      rw [advanceID_lookup, if_pos rfl]
    have hrest := fun e => ih (bs.advanceID now id).1 e
    rw [waitAfter_advanceID] at hrest
    rw [foldl_cons]
    unfold Breakers.retryLoop
    dsimp only
    rw [hlook]
    have hround : bs.waitAfter now earliest id = match bs.advanced now id with
      | none => earliest
      | some b => if b.eligible then b.earlier now earliest else earliest := rfl
    cases hadv : bs.advanced now id with
    | none =>
      rw [hadv] at hround
      rw [hround]
      exact hrest earliest
    | some b =>
      rw [hadv] at hround
      dsimp only at hround ⊢
      cases helig : b.eligible with
      | false =>
        rw [helig] at hround
        rw [hround]
        exact hrest earliest
      | true =>
        rw [helig, if_pos rfl] at hround
        rw [hround]
        simp only [Bool.not_true, Bool.false_eq_true, if_false]
        split
        next hzero => rw [hzero, foldl_waitAfter_zero]
        next => exact hrest _

theorem retryLoop_changes (now : Time) (ids : List String) (bs : Breakers) (earliest : Duration) :
    notices (Breakers.retryLoop now ids bs earliest).2.2 = 0 := by
  induction ids generalizing bs earliest with
  | nil => rfl
  | cons id ids ih =>
    have hboth : ∀ e, notices ((bs.advanceID now id).2 ++
        (Breakers.retryLoop now ids (bs.advanceID now id).1 e).2.2) = 0 := fun e => by
      rw [notices_append, advanceID_changes, ih]
      rfl
    unfold Breakers.retryLoop
    dsimp only
    cases (bs.advanceID now id).1.byID.lookup id with
    | none => exact hboth earliest
    | some b =>
      dsimp only
      split
      · exact hboth earliest
      · split
        · exact advanceID_changes bs now id
        · exact hboth _

namespace SameBreakers

theorem snapshot (h : SameBreakers t bs bs') (order order' : List String) :
    SameBreakers t (bs.snapshot t order).1 (bs'.snapshot t order').1 ∧
      observed (bs'.snapshot t order').2 = observed (bs.snapshot t order).2 := by
  refine ⟨((h.advanceAll_left _).symm.advanceAll_left _).symm, ?_⟩
  have hinfos : (bs'.byID.rangeKeys order').filterMap (fun id =>
        ((Breakers.advanceAll t (bs'.byID.rangeKeys order') bs').1.byID.lookup id).bind
          Breaker.info) =
      (bs'.byID.rangeKeys order').filterMap fun id =>
        ((Breakers.advanceAll t (bs.byID.rangeKeys order) bs).1.byID.lookup id).bind
            Breaker.info := by
    refine filterMap_congr fun id _ => ?_
    rw [advanceAll_rangeKeys, advanceAll_rangeKeys, h.advanced_eq]
  unfold Breakers.snapshot observed
  dsimp only
  rw [advanceAll_changes, advanceAll_changes, hinfos]
  refine congrArg (fun is => Observed.mk (.infos []) is 0) (Multiset.coe_eq_coe.mpr ?_)
  exact (h.rangeKeys_perm order order').filterMap _

theorem counts (h : SameBreakers t bs bs') (order order' : List String) :
    SameBreakers t (bs.counts t order).1 (bs'.counts t order').1 ∧
      observed (bs'.counts t order').2 = observed (bs.counts t order).2 := by
  have hsame := ((h.advanceAll_left (bs.byID.rangeKeys order)).symm.advanceAll_left
    (bs'.byID.rangeKeys order')).symm
  refine ⟨hsame, ?_⟩
  have halike : AList.Alike Eq (Breakers.advanceAll t (bs.byID.rangeKeys order) bs).1.byID
      (Breakers.advanceAll t (bs'.byID.rangeKeys order') bs').1.byID := fun id => by
    rw [advanceAll_rangeKeys, advanceAll_rangeKeys, h.advanced_eq]
    cases bs.advanced t id with
    | none => exact .none
    | some b => exact .some rfl
  have hcount : ∀ q : Breaker → Bool,
      (Breakers.advanceAll t (bs'.byID.rangeKeys order') bs').1.byID.count q =
        (Breakers.advanceAll t (bs.byID.rangeKeys order) bs).1.byID.count q := fun q =>
    (halike.count_eq fun _ _ heq => congrArg q heq).symm
  unfold Breakers.counts
  dsimp only
  refine observed_congr ?_ ((advanceAll_changes _ _ _).trans (advanceAll_changes _ _ _).symm)
  rw [hsame.eligible, hcount, hcount]

theorem retryAfter (h : SameBreakers t bs bs') (order order' : List String) :
    SameBreakers t (bs.retryAfter t order).1 (bs'.retryAfter t order').1 ∧
      observed (bs'.retryAfter t order').2 = observed (bs.retryAfter t order).2 := by
  refine ⟨((h.retryLoop_left _ _).symm.retryLoop_left _ _).symm, ?_⟩
  have hround : bs'.waitAfter t = bs.waitAfter t := by
    funext e id
    unfold Breakers.waitAfter
    rw [h.advanced_eq]
  have hwait : (Breakers.retryLoop t (bs'.byID.rangeKeys order') bs' (-1)).2.1 =
      (Breakers.retryLoop t (bs.byID.rangeKeys order) bs (-1)).2.1 := by
    rw [retryLoop_wait, retryLoop_wait, hround]
    exact (h.rangeKeys_perm order order').foldl_eq' (fun x _ y _ e => waitAfter_comm bs t e x y)
      (-1)
  unfold Breakers.retryAfter
  dsimp only
  refine observed_congr ?_ ((retryLoop_changes _ _ _ _).trans (retryLoop_changes _ _ _ _).symm)
  rw [hwait]

end SameBreakers

/-! ### Runs -/

/-- The calls that only read. -/
def BreakersOp.reads : BreakersOp → Bool
  | .admissible _ | .state _ | .snapshot | .counts | .retryAfter => true
  | .sync _ | .prune _ | .acquire _ | .record _ _ | .recordLate _ _ | .recordAbort _ _ | .release
    _ => false

/-- The same call at the same time, whatever the order in which its loops visit the maps. -/
def BreakersCall.Same (c c' : BreakersCall) : Prop := c'.now = c.now ∧ c'.op = c.op

namespace SameBreakers

variable {c c' : BreakersCall}

theorem recordLate {t : Time} (h : SameBreakers t bs bs') (tk : Ticket) (v : Verdict) :
    SameBreakers t (bs.recordLate t tk v).1 (bs'.recordLate t tk v).1 ∧
      observed (bs'.recordLate t tk v).2 = observed (bs.recordLate t tk v).2 := by
  unfold Breakers.recordLate
  split
  · exact ⟨h, rfl⟩
  · exact h.onBreaker tk.key .done (local_late tk v t)

/-- A read is not noticed. -/
theorem step_left (h : SameBreakers c.now bs bs') (hread : c.op.reads = true) :
    SameBreakers c.now (bs.step c).1 bs' := by
  obtain ⟨now, order, op⟩ := c
  cases op with
  | admissible k => exact h.onBreaker_left k _ fun _ _ => ⟨_, rfl⟩
  | state k => exact h.onBreaker_left k _ fun _ _ => ⟨_, rfl⟩
  | snapshot => exact h.advanceAll_left _
  | counts => exact h.advanceAll_left _
  | retryAfter => exact h.retryLoop_left _ _
  | sync => cases hread
  | prune => cases hread
  | acquire => cases hread
  | record => cases hread
  | recordLate => cases hread
  | recordAbort => cases hread
  | release => cases hread

/-- Every call shows the same in both. -/
theorem step (h : SameBreakers c.now bs bs') (hc : c.Same c') :
    SameBreakers c.now (bs.step c).1 (bs'.step c').1 ∧
      observed (bs'.step c').2 = observed (bs.step c).2 := by
  obtain ⟨now, order, op⟩ := c
  obtain ⟨now', order', op'⟩ := c'
  obtain ⟨rfl, rfl⟩ : now' = now ∧ op' = op := hc
  cases op' with
  | sync members => exact (h.sync _ order order' members).imp_right (observed_congr rfl)
  | prune keys => exact (h.prune _ order order' keys).imp_right (observed_congr rfl)
  | admissible k => exact h.onBreaker k _ local_admissible
  | acquire k => exact h.onBreaker k _ (local_acquire k _)
  | record tk v =>
    dsimp only [Breakers.step]
    split
    · exact ⟨h, rfl⟩
    · exact h.onBreaker tk.key _ (local_record tk v _)
  | recordLate tk v => exact h.recordLate tk v
  | recordAbort tk okAt =>
    dsimp only [Breakers.step]
    split
    · exact ⟨h, rfl⟩
    · split
      · exact h.recordLate tk .fault
      · exact h.onBreaker tk.key _ (local_abort tk okAt _)
  | release tk => exact ⟨h.release tk, rfl⟩
  | state k => exact h.onBreaker k _ local_state
  | snapshot => exact h.snapshot order order'
  | counts => exact h.counts order order'
  | retryAfter => exact h.retryAfter order order'

end SameBreakers

/-- A call of a run into which reads were put. -/
structure Woven where
  call : BreakersCall
  inserted : Bool

def Breakers.stepWoven (bs : Breakers) (c : Woven) : Breakers × BreakersReply × List Change :=
  bs.step c.call

/-- The run without the calls that were put in. -/
def unwoven (run : List Woven) : List BreakersCall :=
  (run.filter fun c => !c.inserted).map Woven.call

theorem sameBreakers_run {run : List Woven} {base : List BreakersCall} {t : Time}
    {bs bs' : Breakers} (h : SameBreakers t bs bs') (hstart : ∀ c ∈ run, t ≤ c.call.now)
    (hclock : run.Pairwise fun c c' => c.call.now ≤ c'.call.now)
    (hreads : ∀ c ∈ run, c.inserted = true → c.call.op.reads = true)
    (hbase : List.Forall₂ BreakersCall.Same (unwoven run) base) :
    (outputsOf Breakers.stepWoven (fun c => !c.inserted) bs run).map observed =
        (outputs Breakers.step bs' base).map observed ∧
      ∀ u, t ≤ u → (∀ c ∈ run, c.call.now ≤ u) →
        SameBreakers u (final Breakers.stepWoven bs run) (final Breakers.step bs' base) := by
  induction run generalizing base t bs bs' with
  | nil =>
    obtain rfl := forall₂_nil_left_iff.mp hbase
    exact ⟨rfl, fun u hu _ => h.later hu⟩
  | cons c run ih =>
    obtain ⟨hfirst, hrest⟩ := pairwise_cons.mp hclock
    have hnow := h.later (hstart c (by simp))
    have hreads' : ∀ c' ∈ run, c'.inserted = true → c'.call.op.reads = true := fun c' hc' =>
      hreads c' (by simp [hc'])
    cases hins : c.inserted with
    | true =>
      have hkeep : unwoven (c :: run) = unwoven run := by simp [unwoven, hins]
      rw [hkeep] at hbase
      obtain ⟨hout, hfinal⟩ :=
        ih (hnow.step_left (hreads c (by simp) hins)) hfirst hrest hreads' hbase
      simp only [outputsOf, hins, Bool.not_true, Bool.false_eq_true, if_false]
      exact ⟨hout, fun u _ hu => hfinal u (hu c (by simp)) fun c' hc' => hu c' (by simp [hc'])⟩
    | false =>
      have hkeep : unwoven (c :: run) = c.call :: unwoven run := by simp [unwoven, hins]
      rw [hkeep] at hbase
      obtain ⟨c', base, hc', hbase', rfl⟩ := forall₂_cons_left_iff.mp hbase
      obtain ⟨hsame, hobs⟩ := hnow.step hc'
      obtain ⟨hout, hfinal⟩ := ih hsame hfirst hrest hreads' hbase'
      simp only [outputsOf, hins, Bool.not_false, if_true, outputs_cons, map_cons]
      refine ⟨?_, fun u _ hu => hfinal u (hu c (by simp)) fun c' hc' => hu c' (by simp [hc'])⟩
      exact congrArg₂ List.cons hobs.symm hout

theorem keyed_new (p : BreakerParams) (rnd : Nat → ℚ) : (Breakers.new p rnd).Keyed := by
  intro id b hb
  cases hb

/-- **Reads change nothing.** Put any number of reads into a run with a clock that does not go back,
with the same jitter draws: the other calls are answered as before (tickets, admissibility, states,
and the breakers opened, reopened and closed, with their reasons and cool-downs), and from then on
the two sets of breakers are the same, with the same open periods and levels. -/
theorem reads_change_nothing (p : BreakerParams) (rnd : Nat → ℚ) (run : List Woven)
    (base : List BreakersCall) (hclock : run.Pairwise fun c c' => c.call.now ≤ c'.call.now)
    (hreads : ∀ c ∈ run, c.inserted = true → c.call.op.reads = true)
    (hbase : List.Forall₂ BreakersCall.Same (unwoven run) base) :
    (outputsOf Breakers.stepWoven (fun c => !c.inserted) (Breakers.new p rnd) run).map observed =
        (outputs Breakers.step (Breakers.new p rnd) base).map observed ∧
      ∀ t, (∀ c ∈ run, c.call.now ≤ t) →
        SameBreakers t (final Breakers.stepWoven (Breakers.new p rnd) run)
          (final Breakers.step (Breakers.new p rnd) base) := by
  -- the first call's time bounds all others from below
  cases run with
  | nil =>
    obtain rfl := forall₂_nil_left_iff.mp hbase
    exact ⟨rfl, fun t _ => .refl t (keyed_new p rnd)⟩
  | cons c run =>
    have hstart : ∀ c' ∈ c :: run, c.call.now ≤ c'.call.now := by
      intro c' hc'
      rcases mem_cons.mp hc' with rfl | hc'
      · exact le_rfl
      · exact (pairwise_cons.mp hclock).1 c' hc'
    obtain ⟨hout, hfinal⟩ :=
      sameBreakers_run (.refl c.call.now (keyed_new p rnd)) hstart hclock hreads hbase
    exact ⟨hout, fun t ht => hfinal t (ht c (by simp)) ht⟩

/-- A worker trips, a read notices that its cool-down has ended, and the probe is granted all the
same. -/
theorem reads_change_nothing_tripped :
    let p : BreakerParams := ⟨1, 0, 1, 10 * second, second, 2 * second, 1, 1, 1, 0⟩
    let k : Key := ⟨"w", 1⟩
    let start : List BreakersCall := [⟨0, [], .sync [⟨k, "m", true⟩]⟩, ⟨1, [], .acquire k⟩,
      ⟨2, [], .record ⟨k, 0, 0, false, true⟩ .fault⟩]
    let probe : BreakersCall := ⟨5 * second, [], .acquire k⟩
    let run : List Woven :=
      start.map (⟨·, false⟩) ++ [⟨⟨4 * second, [], .snapshot⟩, true⟩, ⟨probe, false⟩]
    (outputs Breakers.step (Breakers.new p fun _ => 0) (start ++ [probe])).map Prod.fst =
        [.done, .ticket ⟨k, 0, 0, false, true⟩ true, .done, .ticket ⟨k, 1, 1, true, true⟩ true] ∧
      (outputsOf Breakers.stepWoven (fun c => !c.inserted) (Breakers.new p fun _ => 0) run).map
        observed =
        (outputs Breakers.step (Breakers.new p fun _ => 0) (start ++ [probe])).map observed := by
  intro p k start probe run
  refine ⟨by decide +kernel,
    (reads_change_nothing p (fun _ => 0) run (start ++ [probe]) ?_ ?_ ?_).1⟩
  · decide +kernel
  · decide +kernel
  · exact forall₂_same.mpr fun _ _ => ⟨rfl, rfl⟩

end ServerFlow.Resilience
