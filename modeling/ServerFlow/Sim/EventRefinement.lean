import ServerFlow.Sim.EngineRuns
import ServerFlow.Sim.EventStream

/-!
# Sim.EventRefinement

The engine refines the event stream: each small step of the engine is a step of the stream, or
nothing that a client can see. So what holds of the stream along every run holds of the events that
`Submit`, `Advance` and `Cancel` return.
-/

namespace ServerFlow.Sim

open List Function Machine
open Resilience (Duration)

/-- What a client can see of a live request. -/
def Seq.phase (q : Seq) : Phase := if q.started then .serving q.generated else .queued

theorem Seq.phase_of_started {q : Seq} (h : q.started = true) : q.phase = .serving q.generated := by
  rw [phase, if_pos h]

theorem Seq.phase_of_not_started {q : Seq} (h : q.started = false) : q.phase = .queued := by
  rw [phase, h]
  rfl

namespace Engine

/-- The requests that wait and never started. -/
def fresh (e : Engine) : List Nat := e.waiting.filter fun i => !(e.heap i).started

/-- The stream is what a client sees of the engine. -/
structure Reflects (e : Engine) (s : Stream) : Prop where
  next : s.next = e.next
  submitted : e.submitted = e.next
  log : s.log = e.evs
  kvEnded : s.kvEnded = e.kvEnded
  fresh : s.fresh = e.fresh
  promise : ∀ i, i ≤ e.next → s.promise i = ((e.heap i).target, (e.heap i).finish)
  live : ∀ i ∈ e.live, s.phase i = (e.heap i).phase
  dead : ∀ i, i ∉ e.live → i ≤ e.next → s.phase i = .closed
  unstarted : ∀ i ∈ e.live, (e.heap i).started = false → (e.heap i).generated = 0

/-! ### One sequence changes -/

namespace Reflects

variable {P : List Nat} {e e' : Engine} {s s' : Stream} {i : Nat} {q : Seq} {t : Duration}

/-- One sequence of the engine and one request of the stream change alike. -/
theorem moves (h : Reflects e s) (m : Core.Moves e e' i q) {ph : Phase}
    (hprom : (q.target, q.finish) = ((e.heap i).target, (e.heap i).finish))
    (hun : q.started = false → q.generated = 0) (hnext : s'.next = s.next)
    (hpromise : s'.promise = s.promise) (hphase : s'.phase = update s.phase i ph)
    (hin : i ∈ e'.live → ph = q.phase) (hout : i ∉ e'.live → ph = .closed)
    (hsub : e'.submitted = e.submitted) (hlog : s'.log = e'.evs) (hkv : s'.kvEnded = e'.kvEnded)
    (hfresh : s'.fresh = e'.fresh) : Reflects e' s' := by
  refine ⟨by rw [hnext, m.next, h.next], by rw [hsub, m.next, h.submitted], hlog, hkv, hfresh,
    fun j hj => ?_, fun j hj => ?_, fun j hj hle => ?_, fun j hj hs => ?_⟩
  · rw [m.next] at hj
    rw [hpromise, h.promise j hj]
    by_cases hji : j = i
    · subst hji
      rw [m.heap_self, hprom]
    · rw [m.heap_of_ne hji]
  · rw [hphase]
    by_cases hji : j = i
    · subst hji
      rw [update_self, m.heap_self, hin hj]
    · rw [update_of_ne hji, m.heap_of_ne hji]
      exact h.live j ((m.mem_live hji).mp hj)
  · rw [hphase]
    by_cases hji : j = i
    · subst hji
      rw [update_self, hout hj]
    · rw [m.next] at hle
      rw [update_of_ne hji]
      exact h.dead j (fun hm => hj ((m.mem_live hji).mpr hm)) hle
  · by_cases hji : j = i
    · subst hji
      rw [m.heap_self] at hs ⊢
      exact hun hs
    · rw [m.heap_of_ne hji] at hs ⊢
      exact h.unstarted j ((m.mem_live hji).mp hj) hs

/-- What a client cannot see: the request stays live, with what it got so far. -/
theorem silent (h : Reflects e s) (m : Core.Moves e e' i q) (hi : i ∈ e.live)
    (hprom : (q.target, q.finish) = ((e.heap i).target, (e.heap i).finish))
    (hgot : (q.started, q.generated) = ((e.heap i).started, (e.heap i).generated))
    (hin : i ∈ e'.live) (hsub : e'.submitted = e.submitted) (hlog : e'.evs = e.evs)
    (hkv : e'.kvEnded = e.kvEnded) (hfresh : e'.fresh = e.fresh) : Reflects e' s := by
  obtain ⟨hs, hg⟩ := Prod.mk.inj hgot
  refine h.moves m hprom (fun hno => ?_) rfl rfl (update_eq_self i s.phase).symm
    (fun _ => ?_) (fun hno => absurd hin hno) hsub (by rw [h.log, hlog]) (by rw [h.kvEnded, hkv])
    (by rw [h.fresh, hfresh])
  · rw [hg]
    exact h.unstarted i hi (hs ▸ hno)
  · rw [h.live i hi, Seq.phase, Seq.phase, hs, hg]

end Reflects

/-- The requests that never started, when one record changes. -/
theorem filter_update (heap : Nat → Seq) (l : List Nat) (i : Nat) {q : Seq}
    (h : i ∈ l → q.started = (heap i).started) :
    (l.filter fun j => !(update heap i q j).started) = l.filter fun j => !(heap j).started := by
  refine filter_congr fun j hj => ?_
  by_cases hji : j = i
  · subst hji
    rw [update_self, h hj]
  · rw [update_of_ne hji]

namespace Reflects

variable {P : List Nat} {e : Engine} {s : Stream} {i : Nat} {t : Duration}

/-! ### The small steps of the engine -/

section

variable (h : Reflects e s)
include h

section

variable (hc : Core P e)
include hc

theorem admitHead {rest : List Nat} (hw : e.waiting = i :: rest) :
    ∃ s', Stream.Run (t, s) (t, s') ∧ Reflects (e.admitHead t i rest) s' := by
  have hi : i ∈ e.live := mem_live.mpr (.inl (by rw [hw]; exact mem_cons_self))
  have hrest : i ∉ rest := (nodup_cons.mp (hw ▸ hc.nodup_lists.1)).1
  have hmoves := Core.moves_admitHead hw t
  rw [admitHead_eq] at hmoves ⊢
  have hin : i ∈ e.prefilling ++ [i] := mem_append_right _ (mem_singleton_self i)
  cases hs : (e.heap i).started with
  | true =>
    refine ⟨s, .refl, h.silent hmoves hi rfl (by rw [hs]) (mem_live.mpr (.inr (.inl hin))) rfl ?_
      rfl ?_⟩
    · simp only [startEvents, hs, if_true, append_nil]
    · refine (filter_update e.heap rest i fun hm => absurd hm hrest).trans ?_
      simp only [Engine.fresh, hw, filter_cons, hs, Bool.not_true, Bool.false_eq_true, if_false]
  | false =>
    have hfresh : s.fresh = i :: rest.filter fun j => !(e.heap j).started := by
      rw [h.fresh]
      simp only [Engine.fresh, hw, filter_cons, hs, Bool.not_false, if_true]
    have hph : s.phase i = .queued := by rw [h.live i hi, Seq.phase_of_not_started hs]
    refine ⟨_, .single (.act (.start hfresh hph)), h.moves hmoves rfl (fun h => by cases h)
      rfl rfl rfl (fun _ => ?_) (fun hno => ?_) rfl ?_ h.kvEnded ?_⟩
    · rw [Seq.phase_of_started rfl, h.unstarted i hi hs]
    · exact absurd (mem_live.mpr (.inr (.inl hin))) hno
    · simp only [startEvents, hs, Bool.false_eq_true, if_false, h.log]
    · exact (filter_update e.heap rest i fun hm => absurd hm hrest).symm

/-- A sequence that runs was started. -/
theorem phase_of_running (hi : i ∈ e.running) : s.phase i = .serving (e.heap i).generated := by
  rw [h.live i (mem_live.mpr (.inr (.inr hi))), Seq.phase_of_started (hc.running i hi).started]

theorem promise_of_running (hi : i ∈ e.running) :
    s.promise i = ((e.heap i).target, (e.heap i).finish) :=
  h.promise i (hc.ids i (mem_live.mpr (.inr (.inr hi))))

theorem preempt (hv : e.running.getLast? = some i) :
    ∃ s', Stream.Run (t, s) (t, s') ∧ Reflects (e.preempt t i) s' := by
  have hrun : i ∈ e.running := mem_of_getLast? hv
  have hstarted := (hc.running i hrun).started
  have hph := h.phase_of_running hc hrun
  refine ⟨_, .single (.act (.preempt hph)), h.moves (Core.moves_preempt hv t) rfl
    (fun hno => absurd (hstarted.symm.trans hno) (by simp)) rfl rfl
    (update_eq_self i s.phase).symm (fun _ => ?_) (fun hno => ?_) rfl ?_ h.kvEnded ?_⟩
  · exact hph.trans (Seq.phase_of_started (by exact hstarted)).symm
  · exact absurd (mem_live.mpr (.inl mem_cons_self)) hno
  · exact congrArg (· ++ _) h.log
  · rw [h.fresh]
    have hsame := filter_update e.heap (i :: e.waiting) i (q := { e.heap i with
      kvHeld := 0, state := .waiting, prefillTarget := (e.heap i).input + (e.heap i).generated,
      prefilled := 0, prefillBegun := false }) fun _ => rfl
    refine Eq.trans ?_ hsame.symm
    simp only [Engine.fresh, filter_cons, hstarted, Bool.not_true, Bool.false_eq_true, if_false]

theorem kvEnd (hi : i ∈ e.running) :
    ∃ s', Stream.Run (t, s) (t, s') ∧
      Reflects ({ e with kvEnded := e.kvEnded + 1 }.finish t i .length) s' := by
  obtain ⟨hw, hp⟩ := hc.not_mem_of_running hi
  have hph := h.phase_of_running hc hi
  have hlt : ((e.heap i).generated : Int) < (s.promise i).1 := by
    rw [h.promise_of_running hc hi]
    exact (hc.running i hi).target
  rw [finish_of_running (e := { e with kvEnded := e.kvEnded + 1 }) (hc.running i hi).state]
  refine ⟨_, .single (.act (.starve hph hlt)), h.moves (hc.moves_remove (i := i) rfl rfl rfl
    (erase_of_not_mem hw).symm (erase_of_not_mem hp).symm rfl) rfl
    (fun hno => absurd ((hc.running i hi).started.symm.trans hno) (by simp)) rfl rfl rfl
    (fun hin => ?_) (fun _ => rfl) rfl ?_ ?_ ?_⟩
  · rcases mem_live.mp hin with hm | hm | hm
    · exact absurd hm hw
    · exact absurd hm hp
    · exact absurd rfl (hc.nodup_lists.2.2.mem_erase_iff.mp hm).1
  · exact congrArg (· ++ _) h.log
  · exact congrArg (· + 1) h.kvEnded
  · rw [h.fresh]
    exact (filter_update e.heap e.waiting i fun hm => absurd hm hw).symm

theorem emitToken (hi : i ∈ e.running) :
    ∃ s', Stream.Run (t, s) (t, s') ∧ Reflects (e.emitToken t i) s' := by
  obtain ⟨hw, hp⟩ := hc.not_mem_of_running hi
  have hseq := hc.running i hi
  have hph := h.phase_of_running hc hi
  have hpromise := h.promise_of_running hc hi
  have hstarted : ¬ (e.heap i).started = false := by simp [hseq.started]
  have hfresh : ∀ q, s.fresh = e.waiting.filter fun j => !(update e.heap i q j).started :=
    fun q => h.fresh.trans (filter_update e.heap e.waiting i fun hm => absurd hm hw).symm
  have htarget := hseq.target
  rcases le_or_gt (e.heap i).target (((e.heap i).generated + 1 : Nat) : Int) with hdone | hopen
  · have heq : ((e.heap i).generated : Int) + 1 = (s.promise i).1 := by
      rw [hpromise]
      push_cast at hdone
      show _ = (e.heap i).target
      omega
    rw [emitToken_of_le hseq.state hdone]
    refine ⟨_, .single (.act (.complete hph heq)), h.moves (hc.moves_remove (i := i) rfl rfl rfl
      (erase_of_not_mem hw).symm (erase_of_not_mem hp).symm rfl) rfl
      (fun hno => absurd hno hstarted) rfl rfl rfl (fun hin => ?_) (fun _ => rfl) rfl ?_ h.kvEnded
      (hfresh _)⟩
    · rcases mem_live.mp hin with hm | hm | hm
      · exact absurd hm hw
      · exact absurd hm hp
      · exact absurd rfl (hc.nodup_lists.2.2.mem_erase_iff.mp hm).1
    · simp only [h.log, hpromise]
  · have hlt : ((e.heap i).generated : Int) + 1 < (s.promise i).1 := by
      rw [hpromise]
      push_cast at hopen
      exact hopen
    rw [emitToken_of_lt hopen]
    refine ⟨_, .single (.act (.token hph hlt)),
      h.moves (i := i) (.of_lists rfl rfl rfl rfl rfl rfl) rfl
      (fun hno => absurd hno hstarted) rfl rfl rfl (fun _ => ?_) (fun hno => ?_) rfl ?_ h.kvEnded
      (hfresh _)⟩
    · exact (Seq.phase_of_started
        (q := { e.heap i with generated := (e.heap i).generated + 1 }) hseq.started).symm
    · exact absurd (mem_live.mpr (.inr (.inr hi))) hno
    · exact congrArg (· ++ _) h.log

end

end

/-- Taking one request out of the queue. -/
theorem fresh_erase (hc : Core P e) (i : Nat) (q : Seq) :
    ((e.waiting.erase i).filter fun j => !(update e.heap i q j).started) =
      e.fresh.erase i := by
  have hnd := hc.nodup_lists.1
  have hnot : i ∉ e.waiting.erase i := fun hm => (hnd.mem_erase_iff.mp hm).1 rfl
  rw [filter_update e.heap _ i fun hm => absurd hm hnot, hnd.erase_eq_filter, Engine.fresh,
    (hnd.filter _).erase_eq_filter, filter_comm]

theorem cancel (h : Reflects e s) (hc : Core P e) (hi : i ∈ e.live) :
    ∃ s', Stream.Run (t, s) (t, s') ∧
      Reflects { e.remove i with cancelled := (e.remove i).cancelled + 1 } s' := by
  have hph : s.phase i = .queued ∨ ∃ n, s.phase i = .serving n := by
    rw [h.live i hi]
    cases hs : (e.heap i).started with
    | true => exact .inr ⟨_, Seq.phase_of_started hs⟩
    | false => exact .inl (Seq.phase_of_not_started hs)
  obtain ⟨hw, hp, hr⟩ := hc.nodup_lists
  rw [hc.remove_eq i]
  refine ⟨_, .single (.act (.cancel hph)),
    h.moves (hc.moves_remove (i := i) rfl rfl rfl rfl rfl rfl)
    rfl (h.unstarted i hi) rfl rfl rfl (fun hin => ?_) (fun _ => rfl) rfl h.log h.kvEnded ?_⟩
  · rcases mem_live.mp hin with hm | hm | hm
    · exact absurd rfl (hw.mem_erase_iff.mp hm).1
    · exact absurd rfl (hp.mem_erase_iff.mp hm).1
    · exact absurd rfl (hr.mem_erase_iff.mp hm).1
  · rw [h.fresh]
    exact (fresh_erase hc i _).symm

theorem enqueue (h : Reflects e s) (hc : Core P e) (d : Draws) (r : Request) :
    ∃ s', Stream.Run (t, s) (t, s') ∧ Reflects (e.enqueue d r) s' := by
  have hmem : ∀ j, j ∈ (e.enqueue d r).live ↔ j = e.next + 1 ∨ j ∈ e.live := fun j => by
    simp only [mem_live, Engine.enqueue, Engine.set, mem_append, mem_singleton]
    tauto
  have hnot : e.next + 1 ∉ e.waiting := fun hm =>
    hc.ne_next (mem_live.mpr (.inl hm)) rfl
  refine ⟨_, .single (.act (.accept (e.drawOutput d (e.next + 1) r.maxTokens))), ?_⟩
  rw [h.next]
  refine ⟨rfl, congrArg (· + 1) h.submitted, h.log, h.kvEnded, ?_, fun i hi => ?_, fun i hi => ?_,
    fun i hi hle => ?_, fun i hi hs => ?_⟩
  · rw [h.fresh]
    simp only [Engine.fresh, Engine.enqueue, Engine.set, filter_append]
    rw [filter_update e.heap e.waiting (e.next + 1) fun hm => absurd hm hnot]
    simp
  · simp only [Engine.enqueue, Engine.set]
    by_cases hne : i = e.next + 1
    · subst hne
      rw [update_self, update_self]
    · have hle : i ≤ e.next := Nat.lt_succ_iff.mp (lt_of_le_of_ne hi hne)
      rw [update_of_ne hne, update_of_ne hne, h.promise i hle]
  · simp only [Engine.enqueue, Engine.set]
    by_cases hne : i = e.next + 1
    · subst hne
      rw [update_self, update_self]
      rfl
    · rw [update_of_ne hne, update_of_ne hne]
      exact h.live i (((hmem i).mp hi).resolve_left hne)
  · have hno := not_or.mp fun hm => hi ((hmem i).mpr hm)
    have hle : i ≤ e.next := Nat.lt_succ_iff.mp (lt_of_le_of_ne hle hno.1)
    dsimp only
    rw [update_of_ne hno.1]
    exact h.dead i hno.2 hle
  · simp only [Engine.enqueue, Engine.set] at hs ⊢
    by_cases hne : i = e.next + 1
    · subst hne
      rw [update_self]
    · rw [update_of_ne hne] at hs ⊢
      exact h.unstarted i (((hmem i).mp hi).resolve_left hne) hs

/-- **Each small step is a step of the stream, or nothing that a client can see.** -/
theorem micro {x y : List Nat × Engine} (h : Reflects x.2 s) (hc : Core x.1 x.2)
    (hm : Micro t x y) : ∃ s', Stream.Run (t, s) (t, s') ∧ Reflects y.2 s' := by
  cases hm with
  | control hs =>
    refine ⟨s, .refl, ?_⟩
    rw [SameBody] at hs
    rw [hs]
    exact ⟨h.next, h.submitted, h.log, h.kvEnded, h.fresh, h.promise, h.live, h.dead, h.unstarted⟩
  | regroup _ => exact ⟨s, .refl, h⟩
  | skip _ => exact ⟨s, .refl, h⟩
  | admitted hw _ _ => exact h.admitHead hc hw
  | preempt hv _ _ => exact h.preempt hc hv
  | kvEnd hv _ _ => exact h.kvEnd hc (by rw [hv]; exact mem_singleton_self _)
  | token hi => exact h.emitToken hc hi
  | cancel hi => exact h.cancel hc hi
  | enqueue _ => exact h.enqueue hc _ _
  | @begin P e p hp =>
    have hlive := mem_live.mpr (.inr (.inl hp))
    exact ⟨s, .refl, h.silent (.of_lists rfl rfl rfl rfl rfl rfl) hlive rfl rfl hlive rfl rfl rfl
      (filter_update e.heap e.waiting p fun _ => rfl)⟩
  | @hold P e i hi _ _ =>
    have hlive := mem_live.mpr (.inr (.inr hi))
    exact ⟨s, .refl, h.silent (.of_lists rfl rfl rfl rfl rfl rfl) hlive rfl rfl hlive rfl rfl rfl
      (filter_update e.heap e.waiting i fun _ => rfl)⟩
  | @chunk P e p c hp _ _ =>
    have hlive := mem_live.mpr (.inr (.inl hp))
    exact ⟨s, .refl, h.silent (.of_lists rfl rfl rfl rfl rfl rfl) hlive rfl rfl hlive rfl rfl rfl
      (filter_update e.heap e.waiting p fun _ => rfl)⟩
  | @promote P e p c hp _ =>
    have hlive := mem_live.mpr (.inr (.inl hp))
    have hrun : p ∈ e.running ++ [p] := mem_append_right _ (mem_singleton_self p)
    exact ⟨s, .refl, h.silent (hc.moves_promote p c) hlive rfl rfl
      (mem_live.mpr (.inr (.inr hrun))) rfl rfl rfl
      (filter_update e.heap e.waiting p fun _ => rfl)⟩

/-- **The engine refines the stream**, along every path. -/
theorem path {x y : Duration × List Nat × Engine} (h : Reflects x.2.2 s) (hc : Core x.2.1 x.2.2)
    (hp : Path x y) :
    ∃ s', Stream.Run (x.1, s) (y.1, s') ∧ Reflects y.2.2 s' ∧ Core y.2.1 y.2.2 := by
  induction hp with
  | refl => exact ⟨s, .refl, h, hc⟩
  | tail _ hpace ih =>
    obtain ⟨s₁, hrun, href, hcore⟩ := ih
    cases hpace with
    | act hm =>
      obtain ⟨s₂, hrun', href'⟩ := href.micro hcore hm
      exact ⟨s₂, hrun.trans hrun', href', hcore.micro hm⟩
    | wait ht => exact ⟨s₁, hrun.tail (.wait ht), href, hcore⟩

theorem newEngine (cfg : Config) : Reflects (newEngine cfg) .init := by
  refine ⟨rfl, rfl, rfl, rfl, rfl, fun i _ => rfl, nofun, fun i _ hi => ?_,
    nofun⟩
  rw [Nat.le_zero.mp hi]
  rfl

end Reflects

/-! ### Runs -/

/-- The engine at some time, with the stream that its clients see. -/
structure Streams (e : Engine) (t : Duration) (s : Stream) : Prop where
  reflects : Reflects e s
  inv : s.Inv t

variable {e e' : Engine} {t t' : Duration} {s : Stream}

/-- A run of calls is a run of the stream. -/
theorem Came.streams (h : Came t e t' e') (hs : Streams e t s) (hc : Core e.iter.decode e) :
    ∃ s', Stream.Run (t, s) (t', s') ∧ Streams e' t' s' := by
  obtain ⟨s', hrun, href, -⟩ := hs.reflects.path (x := e.point t) hc h.path
  exact ⟨s', hrun, href, hs.inv.run (x := (t, s)) hrun⟩

/-- The events of every request are orderly, if it was promised what its record says. -/
theorem Streams.orderly (h : Streams e t s) {i : Nat} :
    Orderly (s.promise i) (eventsOf e.evs i) := by
  have hstory := h.inv.story i
  rw [h.reflects.log] at hstory
  refine hstory.orderly fun ev hev hk => ?_
  obtain ⟨hev, hid⟩ := mem_filter.mp hev
  have hkept := h.inv.kept ev (by rw [h.reflects.log]; exact hev) hk
  rwa [of_decide_eq_true hid] at hkept

/-- A request accepted by `Submit`, with the stream that it leads to. -/
theorem submit_streams (h : Ready e) (hs : Streams e e.now s) {d : Draws} {fuel : Nat}
    {now : Duration} {r : Request} {info : Info} (hnow : now ≤ maxDuration)
    (hcall : e.call d fuel (.submit now r) = some (e', .accepted info)) :
    ∃ s', Streams e' e'.now s' ∧ info.id ≤ s'.next ∧ e'.submitted = info.id ∧
      s'.promise info.id = (info.outputTokens, info.finish) := by
  rcases call_cases h hcall hnow with ⟨-, hno⟩ | ⟨e₁, hcame, hnow₁, hserve⟩
  · cases hno
  · change Came e.now e now e₁ at hcame
    change e₁.now = now at hnow₁
    change e₁.submit d now r = (e', .accepted info) at hserve
    obtain ⟨s₁, -, hs₁⟩ := hcame.streams hs h.settled.core
    rcases submit_cases e₁ d now r with ⟨err, n, heq⟩ | ⟨hr, heq⟩
    · cases heq.symm.trans hserve
    · rw [heq] at hserve
      obtain ⟨rfl, hans⟩ := Prod.mk.inj hserve
      obtain rfl := Answer.accepted.inj hans
      obtain ⟨hcame', hnow', hsub⟩ := resume_spec hcame.settled hcame.clocked (d := d) hr
      have hcore := hcame.settled.core
      -- the request is queued, and the promise made
      obtain ⟨s₂, hrun₂, href₂⟩ := hs₁.reflects.enqueue (t := now) hcore d r
      have hcore₂ : Core (e₁.enqueue d r).iter.decode (e₁.enqueue d r) := hcore.enqueue hr d
      obtain ⟨s₃, hrun₃, hs₃⟩ := hcame'.streams ⟨href₂, hs₁.inv.run (x := (now, s₁)) hrun₂⟩ hcore₂
      have hlast : Stream.Lasting (e₁.next + 1) s₂ s₃ :=
        hrun₃.lasting (x := (now, s₂)) (by rw [href₂.next]; exact le_rfl)
      rw [hnow', hnow₁]
      refine ⟨s₃, hs₃, hlast.known, ?_, ?_⟩
      · rw [hsub, hs₁.reflects.submitted]
      · rw [hlast.promise, href₂.promise (e₁.next + 1) le_rfl]
        simp only [Engine.enqueue, Engine.set, update_self]

/-- A request that `Cancel` found is closed. -/
theorem cancel_streams (h : Ready e) (hs : Streams e e.now s) {d : Draws} {fuel : Nat}
    {now : Duration} {id : Nat} (hnow : now ≤ maxDuration)
    (hcall : e.call d fuel (.cancel now id) = some (e', .cancelled true)) :
    ∃ s', Streams e' e'.now s' ∧ id ≤ s'.next ∧ s'.phase id = .closed := by
  rcases call_cases h hcall hnow with ⟨-, hno⟩ | ⟨e₁, hcame, hnow₁, hserve⟩
  · cases hno
  · change Came e.now e now e₁ at hcame
    change e₁.now = now at hnow₁
    change e₁.cancel id = (e', .cancelled true) at hserve
    obtain ⟨s₁, -, hs₁⟩ := hcame.streams hs h.settled.core
    have hcore := hcame.settled.core
    simp only [Engine.cancel] at hserve
    split at hserve
    next hid =>
      obtain ⟨rfl, -⟩ := Prod.mk.inj hserve
      have hlive := (hcore.indexed id).mp hid
      obtain ⟨s₂, hrun, href⟩ := hs₁.reflects.cancel (t := now) hcore hlive
      have hgone := (hcore.cancel hlive).indexed id
      rw [hcore.remove_eq id] at href hgone ⊢
      have hout := fun hm => (Finset.mem_erase.mp (hgone.mpr hm)).1 rfl
      refine ⟨s₂, ⟨href, ?_⟩, by rw [href.next]; exact hcore.ids id hlive,
        href.dead id hout (hcore.ids id hlive)⟩
      have hinv := hs₁.inv.run (x := (now, s₁)) hrun
      show s₂.Inv e₁.now
      rw [hnow₁]
      exact hinv
    next => cases (Prod.mk.inj hserve).2

/-- Every reachable engine has a stream. -/
theorem streams_of_reach {cfg : Config} (hcfg : cfg.validate = none) {d : Draws}
    (h : Machine.Reach (Engine.step d) (newEngine cfg) e) : Ready e ∧ ∃ s, Streams e e.now s := by
  have hnew := newEngine_ready hcfg
  have hcame := hnew.came h
  obtain ⟨s, -, hs⟩ := hcame.streams ⟨.newEngine cfg, .init _⟩ hnew.settled.core
  exact ⟨hcame.ready, s, hs⟩

/-- What the events of all calls look like together. -/
structure StreamOrder (e : Engine) : Prop where
  /-- Requests start in the order they were accepted. -/
  starts : (startIds e.evs).Pairwise (· < ·)
  times : e.evs.Pairwise fun a b => a.time ≤ b.time
  known : ∀ ev ∈ e.evs, ev.id ≤ e.submitted
  /-- The requests that did not get all of their output are those ended for lack of KV. -/
  kvEnded : e.evs.countP (isShort fun i => ((e.heap i).target, (e.heap i).finish)) = e.kvEnded

theorem Streams.order (h : Streams e t s) : StreamOrder e := by
  have hlog := h.reflects.log
  have hknown : ∀ ev ∈ e.evs, ev.id ≤ e.next := fun ev hev => by
    rw [← h.reflects.next]
    exact h.inv.id_le (by rw [hlog]; exact hev)
  refine ⟨hlog ▸ h.inv.starts, hlog ▸ h.inv.times, fun ev hev => ?_, ?_⟩
  · rw [h.reflects.submitted]
    exact hknown ev hev
  · rw [← h.reflects.kvEnded, ← h.inv.kvEnded, hlog]
    refine countP_congr fun ev hev => ?_
    simp only [isShort, h.reflects.promise ev.id (hknown ev hev)]

/-- **The event stream of every run.** The events of all calls are in order. The events of a request
that `Submit` accepted as its `n`-th are orderly, in every continuation, and keep what it promised.
Nothing is heard of a request that `Cancel` found. -/
theorem event_stream {cfg : Config} (hcfg : cfg.validate = none) (d : Draws)
    (h : Machine.Reach (Engine.step d) (newEngine cfg) e) :
    StreamOrder e ∧
    (∀ fuel now r info e₁ e₂, now ≤ maxDuration →
      e.call d fuel (.submit now r) = some (e₁, .accepted info) →
      Machine.Reach (Engine.step d) e₁ e₂ →
      info.id = e₁.submitted ∧ (e₂.heap info.id).target = info.outputTokens ∧
      Orderly (info.outputTokens, info.finish) (eventsOf e₂.evs info.id)) ∧
    (∀ fuel now id e₁ e₂, now ≤ maxDuration →
      e.call d fuel (.cancel now id) = some (e₁, .cancelled true) →
      Machine.Reach (Engine.step d) e₁ e₂ → eventsOf e₂.evs id = eventsOf e₁.evs id) := by
  obtain ⟨hready, s, hs⟩ := streams_of_reach hcfg h
  refine ⟨hs.order, fun fuel now r info e₁ e₂ hnow hcall hreach => ?_,
    fun fuel now id e₁ e₂ hnow hcall hreach => ?_⟩
  · obtain ⟨s₁, hs₁, hid, hsub, hpromise⟩ := submit_streams hready hs hnow hcall
    have hready₁ := (call_spec hready hcall hnow).ready
    obtain ⟨s₂, hrun, hs₂⟩ := (hready₁.came hreach).streams hs₁ hready₁.settled.core
    have hlast := hrun.lasting (x := (e₁.now, s₁)) hid
    have horderly := hs₂.orderly (i := info.id)
    have hknown : info.id ≤ e₂.next := by
      rw [← hs₂.reflects.next]
      exact hlast.known
    have htarget := hs₂.reflects.promise info.id hknown
    rw [hlast.promise, hpromise] at horderly htarget
    exact ⟨hsub.symm, (Prod.mk.inj htarget).1.symm, horderly⟩
  · obtain ⟨s₁, hs₁, hid, hclosed⟩ := cancel_streams hready hs hnow hcall
    have hready₁ := (call_spec hready hcall hnow).ready
    obtain ⟨s₂, hrun, hs₂⟩ := (hready₁.came hreach).streams hs₁ hready₁.settled.core
    have hlast := (hrun.lasting (x := (e₁.now, s₁)) hid).closed hclosed
    rw [← hs₂.reflects.log, ← hs₁.reflects.log]
    exact hlast.2

/-- The first request is preempted on the way; the second is cancelled after its first tokens. -/
theorem event_stream_busyRun :
    (∃ e₁ e₂ : Engine, (newEngine smallConfig).call plainDraws 9 (.submit 0 ⟨3, 0⟩) =
        some (e₁, .accepted ⟨1, 4, .stop⟩) ∧
      countOf .preempt (eventsOf e₂.evs 1) = 1 ∧ countOf .done (eventsOf e₂.evs 1) = 1 ∧
      Orderly (4, .stop) (eventsOf e₂.evs 1)) ∧
    ∃ e e₁ e₂ : Engine, StreamOrder e ∧
      e.call plainDraws 20 (.cancel 62000000 2) = some (e₁, .cancelled true) ∧
      e₂.completed = 3 ∧ countOf .token (eventsOf e₁.evs 2) = 2 ∧
      eventsOf e₂.evs 2 = eventsOf e₁.evs 2 := by
  have hcfg : smallConfig.validate = none := by decide +kernel
  constructor
  · obtain ⟨⟨e₁, ans⟩, hcall, rfl, e₂, hacts, hpreempt, hdone⟩ :
        ∃ x ∈ (newEngine smallConfig).call plainDraws 9 (.submit 0 ⟨3, 0⟩),
          x.2 = .accepted ⟨1, 4, .stop⟩ ∧
        ∃ e₂ ∈ runActs (Engine.step plainDraws) x.1 (busyRun.tail ++ [⟨.advance 1000000000, 60⟩]),
          countOf .preempt (eventsOf e₂.evs 1) = 1 ∧ countOf .done (eventsOf e₂.evs 1) = 1 := by
      decide +kernel
    obtain ⟨-, hsubmit, -⟩ := event_stream hcfg plainDraws .refl
    exact ⟨e₁, e₂, hcall, hpreempt, hdone,
      (hsubmit 9 0 ⟨3, 0⟩ _ e₁ e₂ (by decide) hcall (reach_of_runActs .refl _ hacts)).2.2⟩
  · obtain ⟨e, hacts, ⟨e₁, ans⟩, hcall, rfl, htokens, e₂, hacts₂, hdone⟩ :
        ∃ e ∈ runActs (Engine.step plainDraws) (newEngine smallConfig) busyRun.dropLast,
        ∃ x ∈ e.call plainDraws 20 (.cancel 62000000 2),
          x.2 = .cancelled true ∧ countOf .token (eventsOf x.1.evs 2) = 2 ∧
          ∃ e₂ ∈ runActs (Engine.step plainDraws) x.1 [⟨.advance 1000000000, 60⟩],
              e₂.completed = 3 := by
      decide +kernel
    obtain ⟨horder, -, hcancel⟩ := event_stream hcfg plainDraws
      (reach_of_runActs .refl _ hacts)
    exact ⟨e, e₁, e₂, horder, hcall, hdone, htokens,
      hcancel 20 62000000 2 e₁ e₂ (by decide) hcall (reach_of_runActs .refl _ hacts₂)⟩

end Engine

end ServerFlow.Sim
