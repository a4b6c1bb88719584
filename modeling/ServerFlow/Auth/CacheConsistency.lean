import ServerFlow.Lib.Table
import ServerFlow.Lib.Trace
import ServerFlow.Auth.Calls

/-!
# Auth.CacheConsistency

What the caches hold and what a successful call has relied on, along every run of the calls and
lookups, with a clock that may show anything.

* The lookups of one prefix are serial: none starts before the previous one is recorded.
* A cached entry is the answer of the last lookup of its prefix that had one.
* A call succeeds with a record it saw in the cache, young enough, or that a lookup brought while
  it ran.
-/

namespace ServerFlow.Auth

open List Option
open Resilience (Time Duration)
open Trace

variable {s : Sys} {f c : Nat} {log : List Event} {call : Call} {e : Effect} {ev : Event}
  {now : Time} {stale : Option PosEntry} {lookups : List Lookup} {pfx p : Pfx} {cfg : Config}
  {k : KeyRecord} {evs : List Event} {refresh : Bool} {clock : Time}

/-! ### Properties of the log -/

/-- The answer of the latest lookup of `p` that found a record, or found that there is none. -/
def lastDefinite (p : Pfx) : List Event → Option Answer
  | [] => none
  | .completed _ q ans :: log =>
    if q = p ∧ ans.definite = true then some ans else lastDefinite p log
  | _ :: log => lastDefinite p log

/-- A lookup starts when the earlier ones of its prefix are recorded, and so the answers that are
recorded before it are those recorded before it started. -/
def SerialEvent : Event → List Event → Prop
  | .started _ p, before => ∀ f', .started f' p ∈ before → ∃ ans, .completed f' p ans ∈ before
  | .completed f p _, before => ∃ since old, before = since ++ .started f p :: old ∧
      ∀ f' ans', .completed f' p ans' ∈ before → .completed f' p ans' ∈ old
  | _, _ => True

/-- What a call relies on for the record `k`: it saw it in the cache, or a lookup brought it. -/
def Grounded (cfg : Config) (c : Nat) (p : Pfx) (k : KeyRecord) (during : List Event) : Prop :=
  (∃ e now, .checked c p (some e) now ∈ during ∧ e.record = k ∧
      0 ≤ now - e.fetched ∧ now - e.fetched < cfg.cacheTTL + cfg.staleGrace) ∨
    ∃ f, .completed f p (.record k) ∈ during

/-- What a look at the caches finds is the last definite answer, and a call that succeeds relies on
what happened since it began. -/
def GroundedEvent (cfg : Config) : Event → List Event → Prop
  | .checked _ p (some e) _, before => lastDefinite p before = some (.record e.record)
  | .succeeded c p k, before =>
    ∃ during old, before = during ++ .began c p :: old ∧ Grounded cfg c p k during
  | _, _ => True

/-- What is cached under `p` is the last definite answer for `p`. -/
def CacheCurrent (s : Sys) : Prop :=
  ∀ p, (∀ e, s.a.pos.lookup p = some e → lastDefinite p s.log = some (.record e.record)) ∧
    ∀ t, s.a.neg.lookup p = some t → lastDefinite p s.log = some .notFound

theorem lastDefinite_cons (h : ∀ f q ans, ev ≠ .completed f q ans) (p : Pfx)
    (log : List Event) : lastDefinite p (ev :: log) = lastDefinite p log := by
  cases ev with
  | completed f q ans => exact absurd rfl (h f q ans)
  | _ => rfl

theorem lastDefinite_notes (h : ∀ ev ∈ evs, ev.isNote = true) (p : Pfx)
    (log : List Event) : lastDefinite p (evs ++ log) = lastDefinite p log := by
  induction evs with
  | nil => rfl
  | cons ev evs ih =>
    have hev : ev.isNote = true := h ev (by simp)
    rw [cons_append, lastDefinite_cons (fun f q ans heq => by simp [heq, Event.isNote] at hev)]
    exact ih fun e he => h e (by simp [he])

/-! ### The lookups and the log -/

/-- The flight table and the log say the same about every lookup: the flights are the lookups that
are not recorded yet. -/
structure LookupsOk (s : Sys) : Prop where
  flights : ∀ p f, s.a.flights.lookup p = some f ↔
    ∃ l, s.lookups[f]? = some l ∧ l.pfx = p ∧ l.phase.told = none
  started : ∀ f p, .started f p ∈ s.log ↔ ∃ l, s.lookups[f]? = some l ∧ l.pfx = p
  completed : ∀ f p ans, .completed f p ans ∈ s.log ↔
    ∃ l, s.lookups[f]? = some l ∧ l.pfx = p ∧ l.phase.told = some ans

theorem mem_notes_append (hn : ∀ e ∈ evs, e.isNote = true)
    (hev : ev.isNote = false) : ev ∈ evs ++ log ↔ ev ∈ log := by
  rw [mem_append]
  refine ⟨fun h => h.resolve_left fun hmem => ?_, .inr⟩
  rw [hn ev hmem] at hev
  cases hev

variable {a : Authenticator} {calls : List Call}

section

variable (h : LookupsOk s)
include h

/-- A step that touches neither the flights nor the lookups. -/
theorem LookupsOk.frame (ha : a.flights = s.a.flights)
    (hs : ∀ f p, .started f p ∈ log ↔ .started f p ∈ s.log)
    (hc : ∀ f p ans, .completed f p ans ∈ log ↔ .completed f p ans ∈ s.log) :
    LookupsOk ⟨a, clock, calls, s.lookups, log⟩ where
  flights p f := by rw [← h.flights, ha]
  started f p := by rw [hs, h.started]
  completed f p ans := by rw [hc, h.completed]

/-- A step of a lookup that is neither started nor recorded by it. -/
theorem LookupsOk.setPhase {l l' : Lookup}
    (hl : s.lookups[f]? = some l) (hpfx : l'.pfx = l.pfx) (htold : l'.phase.told = l.phase.told) :
    LookupsOk { s with lookups := s.lookups.set f l' } := by
  have hrow : ∀ (f' : Nat) (P : Pfx → Option Answer → Prop),
      (∃ x : Lookup, (s.lookups.set f l')[f']? = some x ∧ P x.pfx x.phase.told) ↔
        ∃ x : Lookup, s.lookups[f']? = some x ∧ P x.pfx x.phase.told := by
    intro f' P
    by_cases hf : f' = f
    · subst hf
      rw [Table.getElem?_set_of_some hl, hl]
      simp [hpfx, htold]
    · rw [List.getElem?_set, if_neg (Ne.symm hf)]
  refine ⟨fun p f' => ?_, fun f' p => ?_, fun f' p ans => ?_⟩
  · rw [h.flights]
    exact (hrow f' fun q t => q = p ∧ t = none).symm
  · rw [h.started]
    exact (hrow f' fun q _ => q = p).symm
  · rw [h.completed]
    exact (hrow f' fun q t => q = p ∧ t = some ans).symm

/-- A lookup of a prefix that has no flight is started. -/
theorem LookupsOk.spawn (hfree : s.a.flights.lookup pfx = none)
    (ha : a.flights = s.a.flights.insert pfx s.lookups.length)
    (hs : ∀ f p, .started f p ∈ log ↔ (f = s.lookups.length ∧ p = pfx) ∨ .started f p ∈ s.log)
    (hc : ∀ f p ans, .completed f p ans ∈ log ↔ .completed f p ans ∈ s.log) :
    LookupsOk ⟨a, s.clock, calls, s.lookups ++ [⟨pfx, refresh, s.clock, .asking⟩], log⟩ := by
  set new : Lookup := ⟨pfx, refresh, s.clock, .asking⟩ with hnew
  have hrow : ∀ (f : Nat) (P : Lookup → Prop), (∃ x, (s.lookups ++ [new])[f]? = some x ∧ P x) ↔
      (f = s.lookups.length ∧ P new) ∨ ∃ x, s.lookups[f]? = some x ∧ P x := by
    intro f P
    constructor
    · rintro ⟨x, hx, hP⟩
      rcases Table.getElem?_concat_cases hx with ⟨rfl, rfl⟩ | hold
      · exact .inl ⟨rfl, hP⟩
      · exact .inr ⟨x, hold, hP⟩
    · rintro (⟨rfl, hP⟩ | ⟨x, hx, hP⟩)
      · exact ⟨new, Table.getElem?_concat_length _ _, hP⟩
      · exact ⟨x, Table.getElem?_append_of_some hx _, hP⟩
  refine ⟨fun p f => ?_, fun f p => ?_, fun f p ans => ?_⟩
  · rw [ha, AList.lookup_insert_ite]
    refine Iff.trans ?_ (hrow f fun x => x.pfx = p ∧ x.phase.told = none).symm
    split
    · next hp =>
      subst hp
      rw [← h.flights, hfree]
      simp [hnew, Phase.told, eq_comm]
    · next hp =>
      rw [← h.flights]
      simp [hnew, Ne.symm hp]
  · rw [hs, h.started]
    refine Iff.trans ?_ (hrow f fun x => x.pfx = p).symm
    simp [hnew, eq_comm]
  · rw [hc, h.completed]
    refine Iff.trans ?_ (hrow f fun x => x.pfx = p ∧ x.phase.told = some ans).symm
    simp [hnew, Phase.told]

/-- The answer of a lookup is recorded. -/
theorem LookupsOk.record {started : Time} {ans : Answer}
    (hl : s.lookups[f]? = some ⟨pfx, refresh, started, .stamped ans now⟩) :
    LookupsOk
      ⟨s.a.finishLookup pfx refresh ans now, s.clock, s.calls,
        s.lookups.set f ⟨pfx, refresh, started, .recorded ans⟩, .completed f pfx ans :: s.log⟩ := by
  have hmine : s.a.flights.lookup pfx = some f := (h.flights pfx f).mpr ⟨_, hl, rfl, rfl⟩
  have hself := Table.getElem?_set_of_some hl ⟨pfx, refresh, started, .recorded ans⟩
  have hother : ∀ f', f' ≠ f →
      (s.lookups.set f ⟨pfx, refresh, started, .recorded ans⟩)[f']? = s.lookups[f']? := by
    intro f' hf
    rw [List.getElem?_set, if_neg (Ne.symm hf)]
  refine ⟨fun p f' => ?_, fun f' p => ?_, fun f' p ans' => ?_⟩
  · simp only [finishLookup_flights]
    rw [AList.lookup_erase_ite]
    by_cases hf : f' = f
    · subst hf
      rw [hself]
      -- The flight was registered under its own prefix only.
      have hnot : ∀ q, q ≠ pfx → s.a.flights.lookup q ≠ some f' := by
        intro q hq hlook
        obtain ⟨l, hl', hpfx, -⟩ := (h.flights q f').mp hlook
        rw [hl] at hl'
        obtain rfl := some.inj hl'
        exact hq hpfx.symm
      split
      · simp [Phase.told]
      · next hp => simp [Phase.told, hnot p hp]
    · rw [hother f' hf, ← h.flights]
      split
      · next hp =>
        subst hp
        rw [hmine]
        simp [Ne.symm hf]
      · rfl
  · rw [mem_cons, h.started]
    by_cases hf : f' = f
    · subst hf
      rw [hself, hl]
      simp
    · rw [hother f' hf]
      simp
  · rw [mem_cons, h.completed]
    by_cases hf : f' = f
    · subst hf
      rw [hself, hl]
      simp [Phase.told, eq_comm]
    · rw [hother f' hf]
      simp [hf]

/-! ### Lookups are serial -/

/-- A prefix without a flight has only recorded lookups. -/
theorem LookupsOk.completed_of_free (hfree : s.a.flights.lookup p = none)
    (hf : .started f p ∈ s.log) : ∃ ans, .completed f p ans ∈ s.log := by
  obtain ⟨l, hl, hp⟩ := (h.started f p).mp hf
  cases ht : l.phase.told with
  | some ans => exact ⟨ans, (h.completed f p ans).mpr ⟨l, hl, hp, ht⟩⟩
  | none =>
    have hflight := (h.flights p f).mpr ⟨l, hl, hp, ht⟩
    rw [hfree] at hflight
    cases hflight

theorem LookupsOk.completed_unique {ans ans' : Answer}
    (hc : .completed f p ans ∈ s.log) (hc' : .completed f p ans' ∈ s.log) : ans = ans' := by
  obtain ⟨l, hl, -, ht⟩ := (h.completed f p ans).mp hc
  obtain ⟨l', hl', -, ht'⟩ := (h.completed f p ans').mp hc'
  rw [hl] at hl'
  obtain rfl := some.inj hl'
  rw [ht] at ht'
  exact some.inj ht'

/-- A lookup in flight has outlived no other one of its prefix. -/
theorem LookupsOk.serial_record (hlog : Always SerialEvent s.log)
    (hfl : s.a.flights.lookup p = some f) (ans : Answer) :
    SerialEvent (.completed f p ans) s.log := by
  obtain ⟨l, hl, hp, ht⟩ := (h.flights p f).mp hfl
  have hopen : ∀ ans', .completed f p ans' ∉ s.log := by
    intro ans' hc
    obtain ⟨l', hl', -, ht'⟩ := (h.completed f p ans').mp hc
    rw [hl] at hl'
    obtain rfl := some.inj hl'
    rw [ht] at ht'
    cases ht'
  obtain ⟨after, old, hsplit⟩ := append_of_mem ((h.started f p).mpr ⟨l, hl, hp⟩)
  refine ⟨after, old, hsplit, fun f' ans' hc => ?_⟩
  obtain ⟨l', hl', hp', ht'⟩ := (h.completed f' p ans').mp hc
  have hstarted : .started f' p ∈ s.log := (h.started f' p).mpr ⟨l', hl', hp'⟩
  have hold : ∀ {ev}, ev ∈ old → ev ∈ s.log := fun hev => by rw [hsplit]; simp [hev]
  rw [hsplit, mem_append, mem_cons] at hstarted
  rcases hstarted with hlater | heq | hearlier
  · -- `f'` started while `f` was in flight: not so.
    exfalso
    obtain ⟨s₁, s₂, hafter⟩ := append_of_mem hlater
    have hsuf : .started f' p :: (s₂ ++ .started f p :: old) <:+ s.log :=
      ⟨s₁, by rw [hsplit, hafter]; simp⟩
    obtain ⟨a, ha⟩ := hlog _ _ hsuf f (by simp)
    exact hopen a (hsuf.mem (by simp [ha]))
  · cases heq
    exact absurd hc (hopen ans')
  · have hsuf : .started f p :: old <:+ s.log := ⟨after, hsplit.symm⟩
    obtain ⟨a, ha⟩ := hlog _ _ hsuf f' hearlier
    rwa [← h.completed_unique (hold ha) hc]

end

/-- Notes are in order wherever they stand. -/
theorem serialEvent_of_note (h : ev.isNote = true) (before : List Event) :
    SerialEvent ev before := by
  cases ev with
  | started f p => cases h
  | completed f p ans => cases h
  | _ => trivial

/-! ### The caches and the log -/

theorem CacheCurrent.quiet (h : CacheCurrent s)
    (hpos : ∀ p e', a.pos.lookup p = some e' → ∃ e, s.a.pos.lookup p = some e ∧
      e'.record = e.record)
    (hneg : ∀ p t, a.neg.lookup p = some t → s.a.neg.lookup p = some t)
    (hlog : ∀ p, lastDefinite p log = lastDefinite p s.log) :
    CacheCurrent ⟨a, clock, calls, lookups, log⟩ := by
  intro p
  refine ⟨fun e' he' => ?_, fun t ht => ?_⟩
  · obtain ⟨e, he, hrec⟩ := hpos p e' he'
    rw [hlog, hrec]
    exact (h p).1 e he
  · rw [hlog]
    exact (h p).2 t (hneg p t ht)

theorem lastDefinite_completed (f : Nat) (q : Pfx) (ans : Answer) (p : Pfx) (log : List Event) :
    lastDefinite p (.completed f q ans :: log) =
      if q = p ∧ ans.definite = true then some ans else lastDefinite p log := rfl

theorem CacheCurrent.record (h : CacheCurrent s) (f : Nat) (pfx : Pfx) (refresh : Bool)
    (ans : Answer) (now : Time) (lookups : List Lookup) :
    CacheCurrent ⟨s.a.finishLookup pfx refresh ans now, s.clock, s.calls, lookups,
      .completed f pfx ans :: s.log⟩ := by
  intro p
  refine ⟨fun e he => ?_, fun t ht => ?_⟩
  · rw [lastDefinite_completed]
    rcases finishLookup_pos he with ⟨rfl, hans, -⟩ | ⟨hold, hdef⟩
    · rw [if_pos ⟨rfl, by rw [hans]; rfl⟩, hans]
    · rw [if_neg fun hp => by rw [hdef hp.1.symm] at hp; cases hp.2]
      exact (h p).1 e hold
  · rw [lastDefinite_completed]
    rcases finishLookup_neg ht with ⟨rfl, hans⟩ | ⟨hold, hdef⟩
    · rw [if_pos ⟨rfl, by rw [hans]; rfl⟩, hans]
    · rw [if_neg fun hp => by rw [hdef hp.1.symm] at hp; cases hp.2]
      exact (h p).2 t hold

/-! ### What a call relies on -/

/-- The event is the beginning of call `c`. -/
def Event.begins (c : Nat) : Event → Bool
  | .began c' _ => c' == c
  | _ => false

theorem begins_of_note (h : ev.isNote = true) (c : Nat) : ev.begins c = false := by
  cases ev with
  | began c' p => cases h
  | _ => rfl

theorem Grounded.mono {log' : List Event}
    (h : Grounded cfg c p k log) (hsub : ∀ ev ∈ log, ev ∈ log') : Grounded cfg c p k log' := by
  rcases h with ⟨e, now, hmem, hrest⟩ | ⟨f, hmem⟩
  · exact .inl ⟨e, now, hsub _ hmem, hrest⟩
  · exact .inr ⟨f, hsub _ hmem⟩

/-- The call waits for a lookup of its prefix that was not recorded when the call began. -/
def Pending (lookups : List Lookup) (log : List Event) (c : Nat) (pfx : Pfx) (f : Nat) : Prop :=
  (∃ l, lookups[f]? = some l ∧ l.pfx = pfx) ∧
    ∀ ans, .completed f pfx ans ∈ log → .completed f pfx ans ∈ since (Event.begins c) log

/-- The record a call has, and the one it can fall back on, are grounded in what it saw. -/
def PcOk (cfg : Config) (lookups : List Lookup) (log : List Event) (c : Nat) (pfx : Pfx) : Pc → Prop
  | .fetching stale => ∀ e ∈ stale, Grounded cfg c pfx e.record (since (Event.begins c) log)
  | .arming f stale =>
    (∀ e ∈ stale, Grounded cfg c pfx e.record (since (Event.begins c) log)) ∧
      Pending lookups log c pfx f
  | .waiting f stale _ _ =>
    (∀ e ∈ stale, Grounded cfg c pfx e.record (since (Event.begins c) log)) ∧
      Pending lookups log c pfx f
  | .verifying k => Grounded cfg c pfx k (since (Event.begins c) log)
  | .noting k _ => Grounded cfg c pfx k (since (Event.begins c) log)
  | _ => True

structure CallOk (cfg : Config) (lookups : List Lookup) (log : List Event) (c : Nat) (call : Call) :
    Prop where
  began : ∃ old, log = since (Event.begins c) log ++ .began c call.pfx :: old
  pc : PcOk cfg lookups log c call.pfx call.pc

/-- The lookups keep their places, prefixes and starting times. -/
def SameRows (lookups lookups' : List Lookup) : Prop :=
  ∀ (f : Nat) (l : Lookup), lookups[f]? = some l →
    ∃ l', lookups'[f]? = some l' ∧ l'.pfx = l.pfx ∧ l'.started = l.started

theorem SameRows.refl (lookups : List Lookup) : SameRows lookups lookups :=
  fun _ l hl => ⟨l, hl, rfl, rfl⟩

theorem SameRows.append (lookups new : List Lookup) : SameRows lookups (lookups ++ new) :=
  fun _ l hl => ⟨l, Table.getElem?_append_of_some hl new, rfl, rfl⟩

theorem SameRows.set {l : Lookup} (hl : lookups[f]? = some l) (l' : Lookup) (hp : l'.pfx = l.pfx)
    (hs : l'.started = l.started) : SameRows lookups (lookups.set f l') := by
  intro f' x hx
  by_cases hf : f = f'
  · subst hf
    rw [hl] at hx
    obtain rfl := some.inj hx
    exact ⟨l', Table.getElem?_set_of_some hl l', hp, hs⟩
  · exact ⟨x, by rw [List.getElem?_set, if_neg hf]; exact hx, rfl, rfl⟩

section Extend

variable {lookups' : List Lookup} {evs : List Event}

/-- What happens elsewhere takes nothing away from a call. -/
theorem Grounded.extend (h : Grounded cfg c pfx k (since (Event.begins c) log))
    (hev : ∀ ev ∈ evs, ev.begins c = false) :
    Grounded cfg c pfx k (since (Event.begins c) (evs ++ log)) := by
  rw [since_append log hev]
  exact h.mono fun ev hmem => mem_append_right evs hmem

theorem Pending.extend (h : Pending lookups log c pfx f) (hrows : SameRows lookups lookups')
    (hev : ∀ ev ∈ evs, ev.begins c = false) : Pending lookups' (evs ++ log) c pfx f := by
  obtain ⟨⟨l, hl, hp⟩, hseen⟩ := h
  obtain ⟨l', hl', hp', -⟩ := hrows f l hl
  refine ⟨⟨l', hl', hp'.trans hp⟩, fun ans hc => ?_⟩
  rw [since_append log hev, mem_append]
  exact (mem_append.mp hc).imp_right (hseen ans)

theorem PcOk.extend {pc : Pc} (h : PcOk cfg lookups log c pfx pc)
    (hrows : SameRows lookups lookups') (hev : ∀ ev ∈ evs, ev.begins c = false) :
    PcOk cfg lookups' (evs ++ log) c pfx pc := by
  cases pc with
  | start => trivial
  | checking now => trivial
  | fetching stale => exact fun e he => (h e he).extend hev
  | arming f stale => exact ⟨fun e he => (h.1 e he).extend hev, h.2.extend hrows hev⟩
  | waiting f stale budget parked => exact ⟨fun e he => (h.1 e he).extend hev, h.2.extend hrows hev⟩
  | verifying k => exact Grounded.extend h hev
  | noting k now => exact Grounded.extend h hev
  | done res => trivial

section

variable (h : CallOk cfg lookups log c call)
include h

theorem CallOk.extend (hrows : SameRows lookups lookups') (hev : ∀ ev ∈ evs, ev.begins c = false) :
    CallOk cfg lookups' (evs ++ log) c call := by
  refine ⟨?_, h.pc.extend hrows hev⟩
  obtain ⟨old, hold⟩ := h.began
  refine ⟨old, ?_⟩
  rw [since_append log hev, append_assoc, ← hold]

theorem CallOk.extendOne (hrows : SameRows lookups lookups') (ev : Event)
    (hev : ev.begins c = false) : CallOk cfg lookups' (ev :: log) c call := by
  have hall : ∀ e ∈ [ev], e.begins c = false := by
    intro e he
    rw [mem_singleton.mp he, hev]
  exact h.extend hrows hall

theorem CallOk.extendRows (hrows : SameRows lookups lookups') : CallOk cfg lookups' log c call := by
  have hnone : ∀ e ∈ ([] : List Event), e.begins c = false := by simp
  exact h.extend hrows hnone

end

end Extend

/-! ### A call's own steps -/

theorem settle_ok {res : Except RecordErr KeyRecord}
    (hstale : ∀ e ∈ stale, Grounded cfg c pfx e.record (since (Event.begins c) log))
    (hres : ∀ k, res = .ok k → Grounded cfg c pfx k (since (Event.begins c) log)) :
    PcOk cfg lookups log c pfx (settle stale res) := by
  cases res with
  | ok k => exact hres k rfl
  | error err =>
    cases err with
    | notFound => trivial
    | badRecord => trivial
    | unavailable why =>
      cases stale with
      | none => trivial
      | some e => exact hstale e rfl

theorem settle_unavailable_ok (why : Unavailable)
    (hstale : ∀ e ∈ stale, Grounded cfg c pfx e.record (since (Event.begins c) log))
    (hev : ∀ ev ∈ evs, ev.begins c = false) :
    PcOk cfg lookups (evs ++ log) c pfx (settle stale (.error (.unavailable why))) :=
  settle_ok (fun e he => (hstale e he).extend hev) fun _ h => by cases h

/-- A look at the caches grounds what it finds. -/
theorem grounded_of_checked {e : PosEntry} {during : List Event}
    (hmem : .checked c pfx (some e) now ∈ during) (hlow : 0 ≤ now - e.fetched)
    (hage : now - e.fetched < cfg.cacheTTL + cfg.staleGrace) : Grounded cfg c pfx e.record during :=
  .inl ⟨e, now, hmem, rfl, hlow, hage⟩

/-- What `cachedLocked` answers is grounded by the look that is logged. -/
theorem CachedOk.grounded (hcfg : s.a.cfg = cfg) (hv : cfg.Valid)
    (h : CachedOk s.a call.pfx now (.hit (.ok k))) {during : List Event}
    (hmem : .checked c call.pfx (s.a.pos.lookup call.pfx) now ∈ during) :
    Grounded cfg c call.pfx k during := by
  obtain ⟨e, he, rfl, hlow, hage⟩ := h
  rw [he] at hmem
  rw [hcfg] at hage
  have hgrace := hv.staleGrace_nonneg
  exact grounded_of_checked hmem hlow (by linarith)

theorem check_pcOk (hcfg : s.a.cfg = cfg) (hv : cfg.Valid) :
    PcOk cfg s.lookups ((s.check c call now).events ++ s.log) c call.pfx
      (s.check c call now).pc := by
  have hok := cachedLocked_ok s.a call.pfx now
  rcases hout : s.a.cachedLocked call.pfx now with ⟨a, out⟩
  rw [hout] at hok
  simp only [Sys.check, hout]
  set look : Event := .checked c call.pfx (s.a.pos.lookup call.pfx) now with hlook
  have hsince : since (Event.begins c) ([look] ++ s.log) =
      [look] ++ since (Event.begins c) s.log := since_append _ (by simp [hlook, Event.begins])
  cases out with
  | hit res =>
    cases res with
    | error err => trivial
    | ok k =>
      show Grounded cfg c call.pfx k (since (Event.begins c) ([look] ++ s.log))
      rw [hsince]
      exact hok.grounded hcfg hv (by simp [hlook])
  | miss =>
    cases s.a.down now with
    | true => trivial
    | false => exact fun _ h => by cases h
  | stale e =>
    obtain ⟨he, hlow, hage⟩ := hok
    have hg : Grounded cfg c call.pfx e.record (since (Event.begins c) ([look] ++ s.log)) := by
      rw [hsince]
      rw [hcfg] at hage
      exact grounded_of_checked (by simp [hlook, he]) hlow hage
    cases s.a.down now with
    | true => exact hg
    | false =>
      intro e' he'
      obtain rfl := some.inj he'
      exact hg

theorem fetch_pcOk (hcfg : s.a.cfg = cfg) (hv : cfg.Valid) (hl : LookupsOk s)
    (hpc : PcOk cfg s.lookups s.log c call.pfx (.fetching stale)) :
    PcOk cfg (s.lookups ++ (s.fetch c call stale).spawn.toList)
      ((s.fetch c call stale).events ++ s.log) c call.pfx (s.fetch c call stale).pc := by
  have hok := fetch_ok s.a call.pfx stale.isSome s.clock s.lookups.length
  rcases hout : s.a.fetch call.pfx stale.isSome s.clock s.lookups.length with ⟨a, out⟩
  rw [hout] at hok
  simp only [Sys.fetch, hout]
  set look : Event := .checked c call.pfx (s.a.pos.lookup call.pfx) s.clock with hlook
  have hstale : ∀ evs : List Event, (∀ ev ∈ evs, ev.begins c = false) → ∀ e ∈ stale,
      Grounded cfg c call.pfx e.record (since (Event.begins c) (evs ++ s.log)) :=
    fun evs hev e he => (hpc e he).extend hev
  cases out with
  | hit res =>
    refine settle_ok (hstale _ (by simp [hlook, Event.begins])) fun k hk => ?_
    subst hk
    rw [since_append _ (by simp [hlook, Event.begins])]
    exact hok.2.grounded hcfg hv (by simp [hlook])
  | slow => exact settle_unavailable_ok _ hpc (by simp [hlook, Event.begins])
  | shed => exact settle_unavailable_ok _ hpc (by simp [hlook, Event.begins])
  | join f' =>
    obtain ⟨-, -, hfl⟩ := hok
    obtain ⟨l, hlook', hp, ht⟩ := (hl.flights call.pfx f').mp hfl
    refine ⟨hstale _ (by simp [hlook, Event.begins]), ⟨l, by simpa using hlook', hp⟩, ?_⟩
    intro ans hc
    -- The flight is in the table, so it is not recorded.
    rw [mem_notes_append (by simp [hlook, Event.isNote]) rfl, hl.completed] at hc
    obtain ⟨l', hl', -, ht'⟩ := hc
    rw [hlook'] at hl'
    obtain rfl := some.inj hl'
    rw [ht] at ht'
    cases ht'
  | start =>
    refine ⟨hstale _ (by simp [hlook, Event.begins]),
      ⟨_, Table.getElem?_concat_length _ _, rfl⟩, ?_⟩
    intro ans hc
    have hc' : .completed s.lookups.length call.pfx ans ∈ s.log := by simpa [hlook] using hc
    obtain ⟨l', hl', -⟩ := (hl.completed _ _ _).mp hc'
    simp at hl'

theorem result_grounded (hl : LookupsOk s) (hp : Pending s.lookups s.log c pfx f)
    (hres : s.result f = some (.ok k)) : Grounded cfg c pfx k (since (Event.begins c) s.log) := by
  obtain ⟨⟨l, hlf, hpfx⟩, hseen⟩ := hp
  rw [Sys.result, hlf] at hres
  have htold : l.phase.told = some (.record k) := by
    cases hph : l.phase with
    | closed ans =>
      rw [bind_some, hph] at hres
      cases ans <;> cases hres
      rfl
    | _ =>
      rw [bind_some, hph] at hres
      cases hres
  exact .inr ⟨f, hseen _ ((hl.completed f pfx _).mpr ⟨l, hlf, hpfx, htold⟩)⟩

theorem select_pcOk (hl : LookupsOk s) {budget : Option Time}
    {parked : Bool} {ch : Choice} (h : s.select c f stale budget parked ch = some e)
    (hpc : PcOk cfg s.lookups s.log c call.pfx (.waiting f stale budget parked)) :
    PcOk cfg s.lookups (e.events ++ s.log) c call.pfx e.pc := by
  obtain ⟨hstale, hpend⟩ := hpc
  revert h
  fun_cases Sys.select s c f stale budget parked ch <;> intro h <;> try with_reducible cases h
  next =>
    obtain ⟨res, hres, rfl⟩ := map_eq_some_iff.mp h
    refine settle_ok hstale fun k hk => ?_
    subst hk
    exact result_grounded hl hpend hres
  next => exact settle_unavailable_ok _ hstale (by simp [Event.begins])
  next => exact settle_unavailable_ok _ hstale (by simp [Event.begins])
  next => exact ⟨hstale, hpend⟩

variable {m : Move}

theorem effect_pcOk (hcfg : s.a.cfg = cfg) (hv : cfg.Valid) (hl : LookupsOk s)
    (h : s.effect c call m = some e) (hpc : PcOk cfg s.lookups s.log c call.pfx call.pc) :
    PcOk cfg (s.lookups ++ e.spawn.toList) (e.events ++ s.log) c call.pfx e.pc := by
  revert h
  fun_cases Sys.effect s c call m <;> intro h <;> (try with_reducible cases h) <;>
    rename call.pc = _ => hpc' <;> rw [hpc'] at hpc
  next => trivial
  next => simpa [Sys.check] using check_pcOk hcfg hv
  next => exact fetch_pcOk hcfg hv hl hpc
  next =>
    rw [toList_none, append_nil]
    exact hpc
  next =>
    rw [(select_plain h).spawn]
    simpa using select_pcOk hl h hpc
  next => trivial
  next =>
    rw [toList_none, append_nil]
    exact hpc
  next => trivial

/-! ### The whole system -/

structure AuthOk (cfg : Config) (s : Sys) : Prop where
  cfg_eq : s.a.cfg = cfg
  lookups : LookupsOk s
  current : CacheCurrent s
  serial : Always SerialEvent s.log
  grounded : Always (GroundedEvent cfg) s.log
  calls : ∀ c call, s.calls[c]? = some call → CallOk cfg s.lookups s.log c call

theorem authOk_start (cfg : Config) (toucher : Bool) (clock : Time) :
    AuthOk cfg.normalize (.start cfg toucher clock) where
  cfg_eq := rfl
  lookups := ⟨by simp [Sys.start, Authenticator.new], by simp [Sys.start], by simp [Sys.start]⟩
  current p := ⟨fun _ h => (by cases h), fun _ h => (by cases h)⟩
  serial := always_nil _
  grounded := always_nil _
  calls c call h := by simp [Sys.start] at h

section

variable (h : AuthOk cfg s)
include h

theorem AuthOk.begin (pfx : Pfx) (hash : Hash) :
    AuthOk cfg { s with
      calls := s.calls ++ [⟨pfx, hash, s.clock, .start⟩]
      log := .began s.calls.length pfx :: s.log } where
  cfg_eq := h.cfg_eq
  lookups := h.lookups.frame rfl (by simp) (by simp)
  current := h.current.quiet (fun p e he => ⟨e, he, rfl⟩) (fun _ _ ht => ht) fun _ => rfl
  serial := always_cons.mpr ⟨trivial, h.serial⟩
  grounded := always_cons.mpr ⟨trivial, h.grounded⟩
  calls c call hc := by
    rcases Table.getElem?_concat_cases hc with ⟨rfl, rfl⟩ | hold
    · refine ⟨⟨s.log, ?_⟩, trivial⟩
      rw [since_cons_self _ (by simp [Event.begins])]
      rfl
    · have hlt : c < s.calls.length := (List.getElem?_eq_some_iff.mp hold).1
      exact (h.calls c call hold).extendOne (.refl _) _ (by simp [Event.begins]; omega)

/-- The events of a call's own step are in order. -/
theorem AuthOk.groundedEvents (hc : s.calls[c]? = some call) (he : s.effect c call m = some e) :
    Always (GroundedEvent cfg) (e.events ++ s.log) := by
  have hlook : ∀ now, GroundedEvent cfg (.checked c call.pfx (s.a.pos.lookup call.pfx) now)
      s.log := by
    intro now
    cases hpos : s.a.pos.lookup call.pfx with
    | none => trivial
    | some e => exact (h.current call.pfx).1 e hpos
  have hcall := h.calls c call hc
  revert he
  fun_cases Sys.effect s c call m <;> intro he <;> try with_reducible cases he
  next => exact h.grounded
  next => exact always_cons.mpr ⟨hlook _, h.grounded⟩
  next =>
    have hlog := always_cons.mpr ⟨hlook s.clock, h.grounded⟩
    simp only [Sys.fetch]
    split
    · exact hlog
    · exact always_cons.mpr ⟨trivial, hlog⟩
    · exact hlog
    · exact always_cons.mpr ⟨trivial, hlog⟩
    · exact always_cons.mpr ⟨trivial, hlog⟩
  next => exact h.grounded
  next ch f stale budget parked _ =>
    revert he
    fun_cases Sys.select s c f stale budget parked ch <;> intro he <;> try with_reducible cases he
    next =>
      obtain ⟨res, -, rfl⟩ := map_eq_some_iff.mp he
      exact h.grounded
    next => exact always_cons.mpr ⟨trivial, h.grounded⟩
    next => exact always_cons.mpr ⟨trivial, h.grounded⟩
    next => exact h.grounded
  next => exact h.grounded
  next => exact h.grounded
  next hpc =>
    refine always_cons.mpr ⟨?_, h.grounded⟩
    obtain ⟨old, hold⟩ := hcall.began
    have hk := hcall.pc
    rw [hpc] at hk
    exact ⟨_, old, hold, hk⟩

theorem AuthOk.callsApply (hv : cfg.Valid) (hc : s.calls[c]? = some call)
    (he : s.effect c call m = some e) (hev : ∀ ev ∈ e.events, ∀ c', ev.begins c' = false) (c' : Nat)
    (call' : Call) (hc' : (s.calls.set c { call with pc := e.pc })[c']? = some call') :
    CallOk cfg (s.lookups ++ e.spawn.toList) (e.events ++ s.log) c' call' := by
  rcases Table.getElem?_set_cases hc' with ⟨rfl, rfl⟩ | ⟨-, hold⟩
  · have hcall := h.calls _ call hc
    have hpc := effect_pcOk h.cfg_eq hv h.lookups he hcall.pc
    exact ⟨(hcall.extend (.refl _) fun ev hmem => hev ev hmem _).began, hpc⟩
  · exact (h.calls c' call' hold).extend (.append _ _) fun ev hmem => hev ev hmem _

theorem AuthOk.plain (hv : cfg.Valid) (hc : s.calls[c]? = some call)
    (he : s.effect c call m = some e) (hp : e.Plain s) : AuthOk cfg (s.apply c call e) where
  cfg_eq := hp.quiet.cfg.trans h.cfg_eq
  lookups := by
    rw [Sys.apply, hp.spawn, toList_none, append_nil]
    exact h.lookups.frame hp.quiet.flights (fun f p => mem_notes_append hp.notes rfl)
      fun f p ans => mem_notes_append hp.notes rfl
  current := by
    refine h.current.quiet (fun p e' he' => ?_) hp.quiet.neg fun p =>
      lastDefinite_notes hp.notes p _
    obtain ⟨old, hold, hrec, -⟩ := hp.quiet.pos p e' he'
    exact ⟨old, hold, hrec⟩
  serial := always_append (fun ev hev before => serialEvent_of_note (hp.notes ev hev) before)
    h.serial
  grounded := h.groundedEvents hc he
  calls := h.callsApply hv hc he fun ev hev c' => begins_of_note (hp.notes ev hev) c'

theorem AuthOk.starts (hv : cfg.Valid) (hc : s.calls[c]? = some call)
    (he : s.effect c call m = some e) (hs : e.Starts s c call) : AuthOk cfg (s.apply c call e) := by
  obtain ⟨stale, b, -, hfree, hq, hflights, hpos, hneg, hcfg, -, -, hevents, hspawn⟩ := hs
  refine ⟨?_, ?_, ?_, ?_, h.groundedEvents hc he, h.callsApply hv hc he ?_⟩
  · exact hcfg.trans (hq.cfg.trans h.cfg_eq)
  · rw [Sys.apply, hspawn]
    refine h.lookups.spawn hfree ?_ ?_ ?_
    · rw [hflights, hq.flights]
    · intro f p
      simp [hevents]
    · intro f p ans
      simp [hevents]
  · refine h.current.quiet (fun p e' he' => ?_) (fun p t ht => ?_) fun p => ?_
    · rw [hpos] at he'
      obtain ⟨old, hold, hrec, -⟩ := hq.pos p e' he'
      exact ⟨old, hold, hrec⟩
    · rw [hneg] at ht
      exact hq.neg p t ht
    · rw [hevents]
      rfl
  · rw [Sys.apply, hevents]
    refine always_cons.mpr ⟨fun f' hf' => ?_, always_cons.mpr ⟨trivial, h.serial⟩⟩
    have hmem : .started f' call.pfx ∈ s.log := by simpa using hf'
    obtain ⟨ans, hans⟩ := h.lookups.completed_of_free hfree hmem
    exact ⟨ans, mem_cons_of_mem _ hans⟩
  · rw [hevents]
    simp [Event.begins]

/-- A step of a lookup that logs nothing. -/
theorem AuthOk.setPhase {l l' : Lookup} (hl : s.lookups[f]? = some l) (hpfx : l'.pfx = l.pfx)
    (hstarted : l'.started = l.started) (htold : l'.phase.told = l.phase.told) :
    AuthOk cfg { s with lookups := s.lookups.set f l' } where
  cfg_eq := h.cfg_eq
  lookups := h.lookups.setPhase hl hpfx htold
  current := h.current
  serial := h.serial
  grounded := h.grounded
  calls c call hc := (h.calls c call hc).extendRows (.set hl l' hpfx hstarted)

theorem AuthOk.record {started : Time}
    {ans : Answer} (hl : s.lookups[f]? = some ⟨pfx, refresh, started, .stamped ans now⟩) :
    AuthOk cfg
      ⟨s.a.finishLookup pfx refresh ans now, s.clock, s.calls,
        s.lookups.set f ⟨pfx, refresh, started, .recorded ans⟩, .completed f pfx ans :: s.log⟩ where
  cfg_eq := (finishLookup_cfg _ _ _ _ _).trans h.cfg_eq
  lookups := h.lookups.record hl
  current := h.current.record f pfx refresh ans now _
  serial := by
    have hfl : s.a.flights.lookup pfx = some f := (h.lookups.flights pfx f).mpr ⟨_, hl, rfl, rfl⟩
    exact always_cons.mpr ⟨h.lookups.serial_record h.serial hfl ans, h.serial⟩
  grounded := always_cons.mpr ⟨trivial, h.grounded⟩
  calls c call hc := (h.calls c call hc).extendOne
    (.set hl ⟨pfx, refresh, started, .recorded ans⟩ rfl rfl) (.completed f pfx ans) rfl

theorem AuthOk.step (hv : cfg.Valid) {t : Sys} {act : Act}
    (hs : s.step act = some t) : AuthOk cfg t := by
  revert hs
  fun_cases Sys.step s act <;> intro hs <;> try with_reducible cases hs
  next pfx hash => exact h.begin pfx hash
  next =>
    exact ⟨h.cfg_eq, ⟨h.lookups.flights, h.lookups.started, h.lookups.completed⟩, h.current,
      h.serial, h.grounded, h.calls⟩
  next hc =>
    obtain ⟨e, he, rfl⟩ := map_eq_some_iff.mp hs
    rcases effect_cases he with hp | hst
    · exact h.plain hv hc he hp
    · exact h.starts hv hc he hst
  next hl => exact h.setPhase hl rfl rfl rfl
  next hl => exact h.setPhase hl rfl rfl rfl
  next hl => exact h.record hl
  next hl => exact h.setPhase hl rfl rfl rfl

end

/-- An active key without an expiry. -/
def sampleKey : KeyRecord where
  keyID := "k"
  tenantID := "t"
  pfx := "0a"
  secretHash := List.replicate 32 7
  keyStatus := .active
  expiresAt := none
  policy := ⟨.active, none, 0, 0, 0, 0⟩

/-- A call that misses, starts the lookup of its key and waits for it. -/
def firstUse : List Act :=
  [.begin "0a" (List.replicate 32 7), .call 0 .read, .call 0 .check, .call 0 .fetch,
    .answer 0 (.record sampleKey) 0, .stamp 0, .record 0, .close 0, .call 0 .arm,
    .call 0 (.select .done), .call 0 .verify, .call 0 .note]

end ServerFlow.Auth
