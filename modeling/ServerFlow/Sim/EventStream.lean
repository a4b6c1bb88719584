import ServerFlow.Sim.Engine

/-!
# Sim.EventStream

What the events of an engine are for, without the engine: the life of each request as its client
sees it. A request is queued, served and closed; it is served one token after the other, and closed
when it has the output it was promised, when the KV cache cannot hold it, or when it is cancelled.
Requests start in the order they were accepted.

How many slots there are, what is prefilled and what is preempted when is the engine's business.
-/

namespace ServerFlow.Sim

open List Function
open Resilience (Duration)

variable {ph : Phase}

/-! ### Traces -/

/-- The events of one request. -/
def eventsOf (log : List Event) (i : Nat) : List Event := log.filter fun ev => ev.id = i

/-- How many events of a kind there are. -/
def countOf (k : EventKind) (log : List Event) : Nat := log.countP fun ev => ev.kind = k

/-- The indices of the tokens, in order. -/
def tokenIndices (log : List Event) : List Nat :=
  (log.filter fun ev => ev.kind = .token).map Event.index

/-- The requests that started, in order. -/
def startIds (log : List Event) : List Nat := (log.filter fun ev => ev.kind = .start).map Event.id

section Traces

variable {log new : List Event} {i : Nat}

theorem eventsOf_append : eventsOf (log ++ new) i = eventsOf log i ++ eventsOf new i :=
  filter_append ..

theorem eventsOf_eq_self (h : ∀ ev ∈ log, ev.id = i) : eventsOf log i = log :=
  filter_eq_self.mpr fun ev hev => decide_eq_true (h ev hev)

theorem eventsOf_eq_nil (h : ∀ ev ∈ log, ev.id ≠ i) : eventsOf log i = [] :=
  filter_eq_nil_iff.mpr fun ev hev => by simpa using h ev hev

theorem mem_eventsOf {ev : Event} (h : ev ∈ log) : ev ∈ eventsOf log ev.id :=
  mem_filter.mpr ⟨h, decide_eq_true rfl⟩

theorem startIds_append : startIds (log ++ new) = startIds log ++ startIds new := by
  simp only [startIds, filter_append, map_append]

theorem mem_startIds : i ∈ startIds log ↔ ∃ ev ∈ log, ev.kind = .start ∧ ev.id = i := by
  simp only [startIds, mem_map, mem_filter, decide_eq_true_eq, and_assoc]

end Traces

/-- What a client was promised: how many tokens, and why the output ends there. -/
abbrev Promise := Int × Finish

/-- An end of a request: the promise was kept, or the KV cache ran out before. -/
def Kept (p : Promise) (ev : Event) : Prop :=
  ((ev.index : Int) = p.1 ∧ ev.finish = some p.2) ∨
    ((ev.index : Int) < p.1 ∧ ev.finish = some .length)

/-- The end of a request that did not get all of its output. -/
def isShort (promise : Nat → Promise) (ev : Event) : Bool :=
  ev.kind = .done ∧ (ev.index : Int) < (promise ev.id).1

/-- What the events of one request look like, when it was promised `p`. -/
structure Orderly (p : Promise) (trace : List Event) : Prop where
  /-- At most one start, and one if there is anything. -/
  starts : trace = [] ∨ countOf .start trace = 1
  /-- The tokens are numbered from zero, each once. -/
  tokens : tokenIndices trace = List.range (countOf .token trace)
  /-- At most one end. -/
  dones : countOf .done trace ≤ 1
  done : ∀ ev ∈ trace, ev.kind = .done → ev.index = countOf .token trace ∧ Kept p ev
  /-- Nothing follows the end. -/
  last : ∀ before ev after, trace = before ++ ev :: after → ev.kind = .done → after = []

/-! ### The life of a request -/

inductive Phase
  | absent
  | queued
  /-- It got so many tokens. -/
  | serving (n : Nat)
  | closed

/-- The traces with which a request comes to a phase. -/
inductive Story (i : Nat) : List Event → Phase → Prop
  | absent : Story i [] .absent
  | queued : Story i [] .queued
  | start (t : Duration) : Story i [⟨t, i, .start, 0, none⟩] (.serving 0)
  | token {trace : List Event} {n : Nat} (t : Duration) (h : Story i trace (.serving n)) :
      Story i (trace ++ [⟨t, i, .token, n, none⟩]) (.serving (n + 1))
  | preempt {trace : List Event} {n : Nat} (t : Duration) (h : Story i trace (.serving n)) :
      Story i (trace ++ [⟨t, i, .preempt, n, none⟩]) (.serving n)
  | done {trace : List Event} {n : Nat} (t : Duration) (f : Finish)
      (h : Story i trace (.serving n)) : Story i (trace ++ [⟨t, i, .done, n, some f⟩]) .closed
  | cancelQueued : Story i [] .closed
  | cancelServing {trace : List Event} {n : Nat} (h : Story i trace (.serving n)) :
      Story i trace .closed

namespace Story

variable {i n : Nat} {trace : List Event}

theorem eq_nil_of_absent (h : Story i trace .absent) : trace = [] := by cases h; rfl

theorem eq_nil_of_queued (h : Story i trace .queued) : trace = [] := by cases h; rfl

/-- While a request is served. -/
theorem serving (h : Story i trace ph) (hph : ph = .serving n) :
    countOf .start trace = 1 ∧ tokenIndices trace = List.range n ∧ countOf .token trace = n ∧
    ∀ ev ∈ trace, ev.kind ≠ .done := by
  induction h generalizing n with
  | absent | queued | done | cancelQueued | cancelServing => cases hph
  | start t =>
    obtain rfl := Phase.serving.inj hph
    exact ⟨rfl, rfl, rfl, fun ev hev => by rw [mem_singleton.mp hev]; simp⟩
  | @token trace m t h ih =>
    obtain rfl := Phase.serving.inj hph
    obtain ⟨hstart, htok, hcount, hdone⟩ := ih rfl
    refine ⟨?_, ?_, ?_, fun ev hev => ?_⟩
    · simpa [countOf] using hstart
    · simp only [tokenIndices] at htok
      simp only [tokenIndices, filter_append, map_append, htok, range_succ]
      rfl
    · simpa [countOf] using hcount
    · rcases mem_append.mp hev with hev | hev
      · exact hdone ev hev
      · rw [mem_singleton.mp hev]
        simp
  | @preempt trace m t h ih =>
    obtain rfl := Phase.serving.inj hph
    obtain ⟨hstart, htok, hcount, hdone⟩ := ih rfl
    refine ⟨?_, ?_, ?_, fun ev hev => ?_⟩
    · simpa [countOf] using hstart
    · simpa [tokenIndices] using htok
    · simpa [countOf] using hcount
    · rcases mem_append.mp hev with hev | hev
      · exact hdone ev hev
      · rw [mem_singleton.mp hev]
        simp

/-- A trace without an end. -/
theorem orderly_of_serving (h : Story i trace (.serving n)) (p : Promise) : Orderly p trace := by
  obtain ⟨hstart, htok, hcount, hdone⟩ := h.serving rfl
  refine ⟨.inr hstart, by rw [htok, hcount], ?_, fun ev hev hk => absurd hk (hdone ev hev), ?_⟩
  · have : countOf .done trace = 0 := countP_eq_zero.mpr fun ev hev => by
      simpa using hdone ev hev
    omega
  · rintro before ev after rfl hk
    exact absurd hk (hdone ev (by simp))

theorem orderly_nil (p : Promise) : Orderly p [] :=
  ⟨.inl rfl, rfl, Nat.zero_le _, nofun,
    fun before ev after heq => absurd heq (by simp)⟩

/-- **Every trace of a request is orderly**, if its end keeps the promise. -/
theorem orderly {p : Promise} (h : Story i trace ph)
    (hkept : ∀ ev ∈ trace, ev.kind = .done → Kept p ev) : Orderly p trace := by
  cases h with
  | absent | queued | cancelQueued => exact orderly_nil p
  | start t => exact (Story.start t).orderly_of_serving p
  | token t h => exact (h.token t).orderly_of_serving p
  | preempt t h => exact (h.preempt t).orderly_of_serving p
  | cancelServing h => exact h.orderly_of_serving p
  | @done trace n t f h =>
    obtain ⟨hstart, htok, hcount, hdone⟩ := h.serving rfl
    have hzero : countOf .done trace = 0 := countP_eq_zero.mpr fun ev hev => by
      simpa using hdone ev hev
    refine ⟨.inr ?_, ?_, ?_, fun ev hev hk => ⟨?_, hkept ev hev hk⟩, ?_⟩
    · simpa [countOf] using hstart
    · have : countOf .token (trace ++ [⟨t, i, .done, n, some f⟩]) = countOf .token trace := by
        simp [countOf]
      rw [this, hcount, ← htok]
      simp [tokenIndices]
    · simp only [countOf] at hzero
      simp [countOf, countP_append, hzero]
    · rcases mem_append.mp hev with hev | hev
      · exact absurd hk (hdone ev hev)
      · rw [mem_singleton.mp hev]
        simpa [countOf] using hcount.symm
    · -- an end that has something after it would be one of the events before
      intro before ev after heq hk
      rcases eq_nil_or_concat' after with rfl | ⟨after', last, rfl⟩
      · rfl
      · rw [← cons_append, ← append_assoc] at heq
        have hpre := (append_inj' heq rfl).1
        exact absurd hk (hdone ev (by rw [hpre]; simp))

end Story

/-! ### The stream -/

structure Stream where
  /-- How many requests were accepted: they are numbered from one. -/
  next : Nat
  phase : Nat → Phase
  promise : Nat → Promise
  /-- Those that did not start, in order. -/
  fresh : List Nat
  log : List Event
  /-- How many requests ended for lack of KV. -/
  kvEnded : Nat

namespace Stream

/-- No request has the number zero. -/
def init : Stream := ⟨0, update (fun _ => .absent) 0 .closed, fun _ => (0, .stop), [], [], 0⟩

/-- What can happen to a request at time `t`. -/
inductive Step (t : Duration) : Stream → Stream → Prop
  | accept {s : Stream} (p : Promise) :
      Step t s { s with
        next := s.next + 1
        phase := update s.phase (s.next + 1) .queued
        promise := update s.promise (s.next + 1) p
        fresh := s.fresh ++ [s.next + 1] }
  | start {s : Stream} {i : Nat} {rest : List Nat} (hf : s.fresh = i :: rest)
      (hph : s.phase i = .queued) :
      Step t s { s with
        phase := update s.phase i (.serving 0)
        fresh := rest
        log := s.log ++ [⟨t, i, .start, 0, none⟩] }
  | token {s : Stream} {i n : Nat} (hph : s.phase i = .serving n)
      (hlt : (n : Int) + 1 < (s.promise i).1) :
      Step t s { s with
        phase := update s.phase i (.serving (n + 1))
        log := s.log ++ [⟨t, i, .token, n, none⟩] }
  | complete {s : Stream} {i n : Nat} (hph : s.phase i = .serving n)
      (heq : (n : Int) + 1 = (s.promise i).1) :
      Step t s { s with
        phase := update s.phase i .closed
        log := s.log ++ [⟨t, i, .token, n, none⟩, ⟨t, i, .done, n + 1, some (s.promise i).2⟩] }
  | starve {s : Stream} {i n : Nat} (hph : s.phase i = .serving n)
      (hlt : (n : Int) < (s.promise i).1) :
      Step t s { s with
        phase := update s.phase i .closed
        log := s.log ++ [⟨t, i, .done, n, some .length⟩]
        kvEnded := s.kvEnded + 1 }
  | preempt {s : Stream} {i n : Nat} (hph : s.phase i = .serving n) :
      Step t s { s with log := s.log ++ [⟨t, i, .preempt, n, none⟩] }
  | cancel {s : Stream} {i : Nat} (hph : s.phase i = .queued ∨ ∃ n, s.phase i = .serving n) :
      Step t s { s with phase := update s.phase i .closed, fresh := s.fresh.erase i }

/-- What holds of the stream at time `t`. -/
structure Inv (t : Duration) (s : Stream) : Prop where
  story : ∀ i, Story i (eventsOf s.log i) (s.phase i)
  absent : ∀ i, s.next < i → s.phase i = .absent
  fresh : s.fresh.Pairwise (· < ·)
  ids : ∀ i ∈ s.fresh, i ≤ s.next
  starts : (startIds s.log).Pairwise (· < ·)
  after : ∀ i ∈ startIds s.log, ∀ j ∈ s.fresh, i < j
  times : s.log.Pairwise fun a b => a.time ≤ b.time
  past : ∀ ev ∈ s.log, ev.time ≤ t
  kept : ∀ ev ∈ s.log, ev.kind = .done → Kept (s.promise ev.id) ev
  kvEnded : s.log.countP (isShort s.promise) = s.kvEnded

namespace Inv

variable {t : Duration} {s s' : Stream} {i : Nat}

section

variable (h : Inv t s)
include h

theorem id_le {ev : Event} (hev : ev ∈ s.log) : ev.id ≤ s.next := by
  by_contra hlt
  have hstory := h.story ev.id
  rw [h.absent ev.id (not_le.mp hlt)] at hstory
  have := mem_eventsOf hev
  rw [hstory.eq_nil_of_absent] at this
  cases this

theorem le_next (hph : s.phase i ≠ .absent) : i ≤ s.next :=
  not_lt.mp fun hlt => hph (h.absent i hlt)

theorem accept (p : Promise) : Inv t { s with
    next := s.next + 1
    phase := update s.phase (s.next + 1) .queued
    promise := update s.promise (s.next + 1) p
    fresh := s.fresh ++ [s.next + 1] } := by
  have hne : ∀ ev ∈ s.log, ev.id ≠ s.next + 1 := fun ev hev =>
    (Nat.lt_succ_of_le (h.id_le hev)).ne
  refine ⟨fun i => ?_, fun i hi => ?_, ?_, fun i hi => ?_, h.starts, fun i hi j hj => ?_, h.times,
    h.past, fun ev hev hk => ?_, ?_⟩
  · dsimp only
    by_cases hi : i = s.next + 1
    · subst hi
      rw [eventsOf_eq_nil hne, update_self]
      exact .queued
    · rw [update_of_ne hi]
      exact h.story i
  · have hi : s.next + 1 < i := hi
    dsimp only
    rw [update_of_ne hi.ne']
    exact h.absent i (Nat.lt_of_succ_lt hi)
  · refine pairwise_append.mpr ⟨h.fresh, pairwise_singleton _ _, fun i hi j hj => ?_⟩
    rw [mem_singleton.mp hj]
    exact Nat.lt_succ_of_le (h.ids i hi)
  · rcases mem_append.mp hi with hi | hi
    · exact (h.ids i hi).trans (Nat.le_succ _)
    · exact (mem_singleton.mp hi).le
  · rcases mem_append.mp hj with hj | hj
    · exact h.after i hi j hj
    · obtain ⟨ev, hev, -, rfl⟩ := mem_startIds.mp hi
      rw [mem_singleton.mp hj]
      exact Nat.lt_succ_of_le (h.id_le hev)
  · dsimp only
    rw [update_of_ne (hne ev hev)]
    exact h.kept ev hev hk
  · rw [← h.kvEnded]
    refine countP_congr fun ev hev => ?_
    simp only [isShort, update_of_ne (hne ev hev)]

/-- Events of one request are appended. -/
theorem append {new : List Event} (hnext : s'.next = s.next) (hpromise : s'.promise = s.promise)
    (hphase : s'.phase = update s.phase i ph) (hlog : s'.log = s.log ++ new) (hi : i ≤ s.next)
    (hnew : ∀ ev ∈ new, ev.time = t ∧ ev.id = i) (hstory : Story i (eventsOf s.log i ++ new) ph)
    (hfresh : s'.fresh.Sublist s.fresh)
    (hstart : startIds new = [] ∨ startIds new = [i] ∧ s.fresh = i :: s'.fresh)
    (hkept : ∀ ev ∈ new, ev.kind = .done → Kept (s.promise i) ev)
    (hkv : s'.kvEnded = s.kvEnded + new.countP (isShort s.promise)) : Inv t s' := by
  have hbefore : ∀ j ∈ startIds s.log, ∀ k ∈ startIds new, j < k := by
    rcases hstart with hnil | ⟨hone, hcons⟩
    · rw [hnil]
      exact nofun
    · rw [hone]
      intro j hj k hk
      rw [mem_singleton.mp hk]
      exact h.after j hj i (by rw [hcons]; exact mem_cons_self)
  refine ⟨fun j => ?_, fun j hj => ?_, h.fresh.sublist hfresh,
    fun j hj => by rw [hnext]; exact h.ids j (hfresh.subset hj), ?_, fun j hj k hk => ?_, ?_,
    fun ev hev => ?_, fun ev hev hk => ?_, ?_⟩
  · rw [hlog, eventsOf_append, hphase]
    by_cases hj : j = i
    · subst hj
      rw [eventsOf_eq_self fun ev hev => (hnew ev hev).2, update_self]
      exact hstory
    · rw [eventsOf_eq_nil fun ev hev hid => hj (hid.symm.trans (hnew ev hev).2), append_nil,
        update_of_ne hj]
      exact h.story j
  · rw [hnext] at hj
    rw [hphase, update_of_ne (hi.trans_lt hj).ne']
    exact h.absent j hj
  · rw [hlog, startIds_append]
    refine pairwise_append.mpr ⟨h.starts, ?_, hbefore⟩
    rcases hstart with hnil | ⟨hone, -⟩
    · rw [hnil]
      exact .nil
    · rw [hone]
      exact pairwise_singleton _ _
  · rw [hlog, startIds_append] at hj
    rcases mem_append.mp hj with hj | hj
    · exact h.after j hj k (hfresh.subset hk)
    · rcases hstart with hnil | ⟨hone, hcons⟩
      · rw [hnil] at hj
        cases hj
      · rw [hone] at hj
        rw [mem_singleton.mp hj]
        have hpw := h.fresh
        rw [hcons] at hpw
        exact (pairwise_cons.mp hpw).1 k hk
  · rw [hlog]
    refine pairwise_append.mpr ⟨h.times, ?_, fun a ha b hb => ?_⟩
    · exact pairwise_of_forall_mem_list fun a ha b hb => by
        rw [(hnew a ha).1, (hnew b hb).1]
    · rw [(hnew b hb).1]
      exact h.past a ha
  · rw [hlog] at hev
    rcases mem_append.mp hev with hev | hev
    · exact h.past ev hev
    · exact (hnew ev hev).1.le
  · rw [hlog] at hev
    rw [hpromise]
    rcases mem_append.mp hev with hev | hev
    · exact h.kept ev hev hk
    · rw [(hnew ev hev).2]
      exact hkept ev hev hk
  · rw [hlog, hpromise, countP_append, h.kvEnded, hkv]

/-- **Every step keeps the invariant.** -/
theorem step (hs : Step t s s') : Inv t s' := by
  cases hs with
  | accept p => exact h.accept p
  | @start i rest hf hph =>
    have hstory := h.story i
    rw [hph] at hstory
    refine h.append rfl rfl rfl rfl (h.le_next (by rw [hph]; simp)) (by simp) ?_
      (by rw [hf]; exact sublist_cons_self i rest) (.inr ⟨by simp [startIds], hf⟩) (by simp)
      (by simp [isShort])
    rw [hstory.eq_nil_of_queued]
    exact .start t
  | @token i n hph hlt =>
    have hstory := h.story i
    rw [hph] at hstory
    exact h.append rfl rfl rfl rfl (h.le_next (by rw [hph]; simp)) (by simp) (hstory.token t)
      (.refl _) (.inl (by simp [startIds])) (by simp) (by simp [isShort])
  | @complete i n hph heq =>
    have hstory := h.story i
    rw [hph] at hstory
    refine h.append rfl rfl rfl rfl (h.le_next (by rw [hph]; simp)) (by simp) ?_ (.refl _)
      (.inl (by simp [startIds])) ?_ ?_
    · have := (hstory.token t).done t (s.promise i).2
      rwa [append_assoc] at this
    · intro ev hev hk
      simp only [mem_cons, not_mem_nil, or_false] at hev
      rcases hev with rfl | rfl
      · cases hk
      · exact .inl ⟨by push_cast; exact heq, rfl⟩
    · simp [isShort, ← heq]
  | @starve i n hph hlt =>
    have hstory := h.story i
    rw [hph] at hstory
    refine h.append rfl rfl rfl rfl (h.le_next (by rw [hph]; simp)) (by simp)
      (hstory.done t .length) (.refl _) (.inl (by simp [startIds])) ?_ (by simp [isShort, hlt])
    intro ev hev _
    rw [mem_singleton.mp hev]
    exact .inr ⟨hlt, rfl⟩
  | @preempt i n hph =>
    have hstory := h.story i
    rw [hph] at hstory
    have hphase : s.phase = update s.phase i (.serving n) := by
      rw [← hph, update_eq_self]
    exact h.append rfl rfl hphase rfl (h.le_next (by rw [hph]; simp)) (by simp) (hstory.preempt t)
      (.refl _) (.inl (by simp [startIds])) (by simp) (by simp [isShort])
  | @cancel i hph =>
    have hstory := h.story i
    have hlog : s.log = s.log ++ [] := (append_nil _).symm
    refine h.append rfl rfl rfl hlog (h.le_next ?_) (by simp) ?_ erase_sublist (.inl rfl)
      (by simp) rfl
    · rcases hph with hph | ⟨n, hph⟩ <;> simp [hph]
    · rw [append_nil]
      rcases hph with hph | ⟨n, hph⟩
      · rw [hph] at hstory
        rw [hstory.eq_nil_of_queued]
        exact .cancelQueued
      · rw [hph] at hstory
        exact .cancelServing hstory

theorem later {t' : Duration} (ht : t ≤ t') : Inv t' s :=
  ⟨h.story, h.absent, h.fresh, h.ids, h.starts, h.after, h.times,
    fun ev hev => (h.past ev hev).trans ht, h.kept, h.kvEnded⟩

end

theorem init (t : Duration) : Inv t init := by
  refine ⟨fun i => ?_, fun i hi => ?_, .nil, nofun, .nil,
    nofun, .nil, nofun, nofun, rfl⟩
  · by_cases hi : i = 0
    · subst hi
      exact .cancelQueued
    · simp only [Stream.init, update_of_ne hi]
      exact .absent
  · have hi : i ≠ 0 := Nat.ne_of_gt hi
    simp only [Stream.init, update_of_ne hi]

end Inv

/-! ### Runs of the stream -/

/-- A step at the present time, or the passage of time. -/
inductive Pace : Duration × Stream → Duration × Stream → Prop
  | act {t : Duration} {s s' : Stream} (h : Step t s s') : Pace (t, s) (t, s')
  | wait {t t' : Duration} {s : Stream} (h : t ≤ t') : Pace (t, s) (t', s)

abbrev Run := Relation.ReflTransGen Pace

theorem Inv.run {x y : Duration × Stream} (h : Inv x.1 x.2) (hr : Run x y) : Inv y.1 y.2 := by
  induction hr with
  | refl => exact h
  | tail _ hp ih =>
    cases hp with
    | act hs => exact ih.step hs
    | wait ht => exact ih.later ht

/-- What is settled about an accepted request. -/
structure Lasting (i : Nat) (s s' : Stream) : Prop where
  known : i ≤ s'.next
  promise : s'.promise i = s.promise i
  closed : s.phase i = .closed → s'.phase i = .closed ∧ eventsOf s'.log i = eventsOf s.log i

theorem Step.lasting {t : Duration} {s s' : Stream} {i : Nat} (hs : Step t s s') (hi : i ≤ s.next) :
    Lasting i s s' := by
  -- a request that is served is not closed, so what happens is about another one
  have other : ∀ (ph' : Phase) (new : List Event) {j : Nat} {ph : Phase}, s.phase j = ph →
      ph ≠ .closed → (∀ ev ∈ new, ev.id = j) → s.phase i = .closed →
      update s.phase j ph' i = .closed ∧ eventsOf (s.log ++ new) i = eventsOf s.log i := by
    intro ph' new j ph hj hph hnew hc
    have hij : i ≠ j := by
      rintro rfl
      exact hph (hj.symm.trans hc)
    refine ⟨by rw [update_of_ne hij, hc], ?_⟩
    rw [eventsOf_append, eventsOf_eq_nil fun ev hev hid => hij (hid.symm.trans (hnew ev hev)),
      append_nil]
  cases hs with
  | accept p =>
    have hne : i ≠ s.next + 1 := (Nat.lt_succ_of_le hi).ne
    exact ⟨hi.trans (Nat.le_succ _), update_of_ne hne _ _,
      fun hc => ⟨(update_of_ne hne _ _).trans hc, rfl⟩⟩
  | start _ hph => exact ⟨hi, rfl, other _ _ hph (by simp) (by simp)⟩
  | token hph _ => exact ⟨hi, rfl, other _ _ hph (by simp) (by simp)⟩
  | complete hph _ => exact ⟨hi, rfl, other _ _ hph (by simp) (by simp)⟩
  | starve hph _ => exact ⟨hi, rfl, other _ _ hph (by simp) (by simp)⟩
  | preempt hph =>
    exact ⟨hi, rfl, fun hc => ⟨hc, (other .closed _ hph (by simp) (by simp) hc).2⟩⟩
  | @cancel j hph =>
    refine ⟨hi, rfl, fun hc => ?_⟩
    rcases hph with hph | ⟨n, hph⟩
    · exact ⟨(other _ [] hph (by simp) (by simp) hc).1, rfl⟩
    · exact ⟨(other _ [] hph (by simp) (by simp) hc).1, rfl⟩

/-- **The promise stands, and what is closed stays closed.** -/
theorem Run.lasting {x y : Duration × Stream} {i : Nat} (hr : Run x y) (hi : i ≤ x.2.next) :
    Lasting i x.2 y.2 := by
  induction hr with
  | refl => exact ⟨hi, rfl, fun hc => ⟨hc, rfl⟩⟩
  | tail _ hp ih =>
    cases hp with
    | wait ht => exact ih
    | act hs =>
      have hstep := hs.lasting ih.known
      refine ⟨hstep.known, hstep.promise.trans ih.promise, fun hc => ?_⟩
      obtain ⟨hc', hlog⟩ := ih.closed hc
      obtain ⟨hc'', hlog'⟩ := hstep.closed hc'
      exact ⟨hc'', hlog'.trans hlog⟩

end Stream

end ServerFlow.Sim
