import ServerFlow.Auth.CacheConsistency

/-!
# Auth.Revocation

How long a key can be used after it was revoked, or its tenant suspended, while the store is
healthy: its lookups are answered, from registering the flight to waking its waiters in less than
`RefreshWait`, with what the store had at an instant in between; none is shed; and the clock does
not go back.

A call that begins later than `CacheTTL + RefreshWait` after the revocation has no fresh entry to
find, and its own refresh, or one it waits for, asks the store after the revocation. But a call that
finds another call's refresh of the key in flight does not wait for it: it is served the stale copy.
So is one whose context ends while it waits. These calls are the only ones, and `StaleGrace` bounds
them too.
-/

namespace ServerFlow.Auth

open List Option
open Resilience (Time Duration)

variable {e : Effect} {ans : Answer}

/-! ### A healthy store -/

/-- What the store answers when it has `row` under the prefix. -/
def answerOf : Option KeyRecord → Answer
  | some k => .record k
  | none => .notFound

/-- A call that has made its timer gets to its `select` before the timer fires. -/
def Pc.inTime (t : Time) : Pc → Bool
  | .waiting _ _ (some d) false => decide (t < d)
  | _ => true

/-- The clock may show `t` next: it does not go back, no lookup is in flight for `RefreshWait`, and
no call is late at its `select`. -/
def Sys.mayTick (s : Sys) (t : Time) : Bool :=
  decide (s.clock ≤ t) &&
    (s.lookups.all fun l => l.phase.result.isSome || decide (t < l.started + s.a.cfg.refreshWait))
      &&
    s.calls.all fun call => call.pc.inTime t

/-- The step is one of a healthy store; `row p t` is what it has under `p` at the instant `t`. -/
def Sys.healthy (row : Pfx → Time → Option KeyRecord) (s : Sys) : Act → Bool
  | .tick t => s.mayTick t
  | .answer f ans asOf => s.lookups[f]?.all fun l =>
    decide (l.started ≤ asOf ∧ asOf ≤ s.clock ∧ ans = answerOf (row l.pfx asOf))
  | .call c m => (s.step (.call c m)).all fun t => decide (.shed c ∉ t.log)
  | _ => true

/-- The steps of a system whose store is healthy. -/
def Sys.stepHealthy (row : Pfx → Time → Option KeyRecord) (s : Sys) (act : Act) : Option Sys :=
  if s.healthy row act then s.step act else none

/-- The key is not revoked and its tenant not suspended. -/
def KeyRecord.usable (k : KeyRecord) : Bool :=
  decide (k.keyStatus = .active ∧ k.policy.status = .active)

theorem usable_of_verify {k : KeyRecord} {hash : Hash} {now : Time}
    (h : k.verify hash now = .ok ()) : k.usable = true := by
  simp only [KeyRecord.verify] at h
  split at h
  · cases h
  · split at h
    · cases h
    · next hkey =>
      split at h
      · cases h
      · split at h
        · cases h
        · next htenant =>
          exact decide_eq_true ⟨not_not.mp hkey, not_not.mp htenant⟩

/-! ### How old a record can be -/

/-- A call that gave up waiting, or did not wait, for a reason the store has no part in. -/
def Excused (c : Nat) (log : List Event) : Prop := .slow c ∈ log ∨ .ctxEnded c ∈ log

theorem Excused.extend {c : Nat} {log : List Event} (h : Excused c log) (evs : List Event) :
    Excused c (evs ++ log) :=
  h.imp (mem_append_right evs) (mem_append_right evs)

section Ages

variable (row : Pfx → Time → Option KeyRecord) (cfg : Config)

/-- The store had the record under `p` less than `d` before `b`, or after. -/
def Within (p : Pfx) (b : Time) (d : Duration) (k : KeyRecord) : Prop :=
  ∃ t, row p t = some k ∧ b < t + d

/-- How old the record of a call can be that began at `b`: the cache trusted it, or it is the stale
copy. -/
def Aged (log : List Event) (c : Nat) (p : Pfx) (b : Time) (k : KeyRecord) : Prop :=
  Within row p b (cfg.cacheTTL + cfg.refreshWait) k ∨
    (Excused c log ∧ Within row p b (cfg.cacheTTL + cfg.staleGrace + cfg.refreshWait) k)

/-- A stale copy is within the grace. -/
def StaleAged (p : Pfx) (b : Time) (stale : Option PosEntry) : Prop :=
  ∀ e ∈ stale, Within row p b (cfg.cacheTTL + cfg.staleGrace + cfg.refreshWait) e.record

/-- The lookup a call waits for was registered less than `RefreshWait` before the call began, or
after; the timer outlasts it. -/
def Awaited (lookups : List Lookup) (p : Pfx) (b : Time) (f : Nat) (budget : Option Time) : Prop :=
  ∃ l, lookups[f]? = some l ∧ l.pfx = p ∧ b < l.started + cfg.refreshWait ∧
    ∀ d ∈ budget, l.started + cfg.refreshWait ≤ d

/-- What a call has is recent enough. -/
def PcTimely (lookups : List Lookup) (log : List Event) (clock : Time) (c : Nat) (p : Pfx)
    (b : Time) : Pc → Prop
  | .start => True
  | .checking now => b ≤ now
  | .fetching stale => StaleAged row cfg p b stale
  | .arming f stale => StaleAged row cfg p b stale ∧ Awaited cfg lookups p b f none
  | .waiting f stale budget parked => StaleAged row cfg p b stale ∧
      Awaited cfg lookups p b f budget ∧ (parked = false → ∀ d ∈ budget, clock < d)
  | .verifying k => Aged row cfg log c p b k
  | .noting k _ => k.usable = true ∧ Aged row cfg log c p b k
  | .done (.ok _) => ∃ k : KeyRecord, k.usable = true ∧ Aged row cfg log c p b k
  | .done (.error _) => True

/-- An answer is what the store had after the lookup was registered. -/
def Sourced (l : Lookup) (ans : Answer) : Prop := ∃ t, l.started ≤ t ∧ ans = answerOf (row l.pfx t)

/-- What a lookup has is what the store had while it was in flight, less than `RefreshWait`. -/
def LookupTimely (clock : Time) (l : Lookup) : Prop :=
  l.started ≤ clock ∧ (l.phase.result = none → clock < l.started + cfg.refreshWait) ∧
    match l.phase with
    | .asking => True
    | .answered ans => Sourced row l ans
    | .stamped ans now => Sourced row l ans ∧ now < l.started + cfg.refreshWait
    | .recorded ans => Sourced row l ans
    | .closed ans => Sourced row l ans

structure Timely (s : Sys) : Prop where
  up : s.a.downUntil = none
  cached : ∀ p e, s.a.pos.lookup p = some e → Within row p e.fetched cfg.refreshWait e.record
  lookups : ∀ (f : Nat) (l : Lookup), s.lookups[f]? = some l → LookupTimely row cfg s.clock l
  calls : ∀ (c : Nat) (call : Call), s.calls[c]? = some call → call.began ≤ s.clock ∧
    PcTimely row cfg s.lookups s.log s.clock c call.pfx call.began call.pc

end Ages

variable {row : Pfx → Time → Option KeyRecord} {cfg : Config} {s : Sys} {c f : Nat} {k : KeyRecord}
  {now : Time} {l : Lookup} {stale : Option PosEntry}

/-! ### What the steps of others leave alone -/

section Frame

variable {lookups lookups' : List Lookup} {log : List Event} {clock clock' : Time} {p : Pfx}
  {b : Time}

theorem Aged.extend (h : Aged row cfg log c p b k) (evs : List Event) :
    Aged row cfg (evs ++ log) c p b k :=
  h.imp_right fun hold => ⟨hold.1.extend evs, hold.2⟩

theorem Awaited.extend {budget : Option Time} (h : Awaited cfg lookups p b f budget)
    (hrows : SameRows lookups lookups') : Awaited cfg lookups' p b f budget := by
  obtain ⟨l, hl, hp, hb, hd⟩ := h
  obtain ⟨l', hl', hp', hs'⟩ := hrows f l hl
  exact ⟨l', hl', hp'.trans hp, by rw [hs']; exact hb, by rw [hs']; exact hd⟩

/-- Everything a call has stays recent enough; only its timer depends on the clock. -/
theorem PcTimely.extend {pc : Pc} (h : PcTimely row cfg lookups log clock c p b pc)
    (hrows : SameRows lookups lookups') (evs : List Event)
    (hclock : clock' = clock ∨ pc.inTime clock' = true) :
    PcTimely row cfg lookups' (evs ++ log) clock' c p b pc := by
  cases pc with
  | start => trivial
  | checking now => exact h
  | fetching stale => exact h
  | arming f stale => exact ⟨h.1, h.2.extend hrows⟩
  | waiting f stale budget parked =>
    refine ⟨h.1, h.2.1.extend hrows, fun hp d hd => ?_⟩
    rcases hclock with rfl | hin
    · exact h.2.2 hp d hd
    · subst hp
      obtain rfl : budget = some d := hd
      exact of_decide_eq_true hin
  | verifying k => exact Aged.extend h evs
  | noting k now => exact ⟨h.1, h.2.extend evs⟩
  | done res =>
    cases res with
    | error err => trivial
    | ok pr =>
      obtain ⟨k, hk, haged⟩ := h
      exact ⟨k, hk, haged.extend evs⟩

theorem Within.mono {d d' : Duration} (h : Within row p b d k) (hd : d ≤ d') :
    Within row p b d' k := by
  obtain ⟨t, ht, hb⟩ := h
  exact ⟨t, ht, by linarith⟩

/-- An entry of the cache that is less than `d` old when a call looks at it. -/
theorem within_of_age {e : PosEntry} {d : Duration}
    (hw : Within row p e.fetched cfg.refreshWait e.record) (hb : b ≤ now)
    (hage : now - e.fetched < d) : Within row p b (d + cfg.refreshWait) e.record := by
  obtain ⟨t, ht, hlt⟩ := hw
  exact ⟨t, ht, by linarith⟩

/-- What a lookup brings, for a call that waits for it. -/
theorem within_of_sourced (hs : Sourced row l (.record k))
    (hb : b < l.started + cfg.refreshWait) : Within row l.pfx b cfg.refreshWait k := by
  obtain ⟨t, ht, hans⟩ := hs
  refine ⟨t, ?_, by linarith⟩
  cases hrow : row l.pfx t with
  | none => rw [hrow] at hans; cases hans
  | some k' => rw [hrow] at hans; cases hans; rfl

theorem settle_stale_timely (hstale : StaleAged row cfg p b stale)
    (hex : Excused c log) (why : Unavailable) :
    PcTimely row cfg lookups log clock c p b (settle stale (.error (.unavailable why))) := by
  cases stale with
  | none => trivial
  | some e => exact .inr ⟨hex, hstale e rfl⟩

/-- An answer of the store leaves no room for the stale copy. -/
theorem settle_answer_timely (hv : cfg.Valid) (hs : Sourced row l ans) (hp : l.pfx = p)
    (hb : b < l.started + cfg.refreshWait) :
    PcTimely row cfg lookups log clock c p b (settle stale ans.result) := by
  subst hp
  cases ans with
  | record k =>
    have hpos := hv.cacheTTL_pos
    exact .inl ((within_of_sourced hs hb).mono (by linarith))
  | notFound => trivial
  | badRecord => trivial
  | _ =>
    obtain ⟨t, -, hans⟩ := hs
    cases hrow : row l.pfx t <;> rw [hrow] at hans <;> cases hans

end Frame

/-! ### A call's own steps -/

section Own

variable {call : Call}

theorem down_eq_false (hup : s.a.downUntil = none) (now : Time) : s.a.down now = false := by
  simp [Authenticator.down, hup]

section

variable (h : Timely row cfg s)
include h

/-- A fresh entry that a call finds. -/
theorem CachedOk.timely (hcfg : s.a.cfg = cfg) (hc : CachedOk s.a call.pfx now (.hit (.ok k)))
    (hb : call.began ≤ now) (log : List Event) : Aged row cfg log c call.pfx call.began k := by
  obtain ⟨e, he, rfl, -, hage⟩ := hc
  rw [hcfg] at hage
  exact .inl (within_of_age (h.cached call.pfx e he) hb hage)

theorem check_timely (hcfg : s.a.cfg = cfg)
    (hb : call.began ≤ now) (lookups : List Lookup) (log : List Event) :
    PcTimely row cfg lookups log s.clock c call.pfx call.began (s.check c call now).pc := by
  have hok := cachedLocked_ok s.a call.pfx now
  rcases hout : s.a.cachedLocked call.pfx now with ⟨a, out⟩
  rw [hout] at hok
  simp only [Sys.check, hout, down_eq_false h.up, Bool.false_eq_true, if_false]
  cases out with
  | hit res =>
    cases res with
    | error err => trivial
    | ok k => exact hok.timely h hcfg hb log
  | miss => exact fun _ h => by cases h
  | stale e =>
    obtain ⟨he, -, hage⟩ := hok
    rw [hcfg] at hage
    intro e' he'
    obtain rfl := some.inj he'
    exact within_of_age (h.cached call.pfx e he) hb hage

/-- A flight of the table is younger than `RefreshWait`. -/
theorem flight_timely (hl : LookupsOk s) {p : Pfx} (hf : s.a.flights.lookup p = some f) {b : Time}
    (hb : b ≤ s.clock) : Awaited cfg s.lookups p b f none := by
  obtain ⟨l, hrow, hp, ht⟩ := (hl.flights p f).mp hf
  obtain ⟨-, hopen, -⟩ := h.lookups f l hrow
  have hresult : l.phase.result = none := by
    cases hph : l.phase with
    | closed ans => rw [hph] at ht; cases ht
    | _ => rfl
  exact ⟨l, hrow, hp, lt_of_le_of_lt hb (hopen hresult), fun _ h => by cases h⟩

theorem fetch_timely (hcfg : s.a.cfg = cfg) (hv : cfg.Valid) (hl : LookupsOk s)
    (hb : call.began ≤ s.clock) (hstale : StaleAged row cfg call.pfx call.began stale)
    (hshed : .shed c ∉ (s.fetch c call stale).events) :
    PcTimely row cfg (s.lookups ++ (s.fetch c call stale).spawn.toList)
      ((s.fetch c call stale).events ++ s.log) s.clock c call.pfx call.began
      (s.fetch c call stale).pc := by
  have hok := fetch_ok s.a call.pfx stale.isSome s.clock s.lookups.length
  rcases hout : s.a.fetch call.pfx stale.isSome s.clock s.lookups.length with ⟨a, out⟩
  rw [hout] at hok
  simp only [Sys.fetch, hout] at hshed ⊢
  cases out with
  | hit res =>
    cases res with
    | error err =>
      obtain rfl : err = .notFound := hok.2
      trivial
    | ok k => exact hok.2.timely h hcfg hb _
  | slow => exact settle_stale_timely hstale (.inl (by simp)) _
  | join f' =>
    obtain ⟨-, -, hf⟩ := hok
    exact ⟨hstale, (flight_timely h hl hf hb).extend (.append _ _)⟩
  | shed => exact absurd (mem_cons_self ..) hshed
  | start =>
    have hwait := hv.refreshWait_pos
    refine ⟨hstale, ⟨_, Table.getElem?_concat_length _ _, rfl, ?_, fun _ h => by cases h⟩⟩
    linarith

theorem select_timely (hv : cfg.Valid) {budget : Option Time} {parked : Bool} {ch : Choice}
    (he : s.select c f stale budget parked ch = some e)
    (hpc : PcTimely row cfg s.lookups s.log s.clock c call.pfx call.began
      (.waiting f stale budget parked)) :
    PcTimely row cfg s.lookups (e.events ++ s.log) s.clock c call.pfx call.began e.pc := by
  obtain ⟨hstale, hwait, htimer⟩ := hpc
  obtain ⟨l, hl, hp, hb, hbudget⟩ := id hwait
  obtain ⟨-, hopen, hphase⟩ := h.lookups f l hl
  have hresult : s.result f = l.phase.result := by simp [Sys.result, hl]
  revert he
  fun_cases Sys.select s c f stale budget parked ch <;> intro he <;> try with_reducible cases he
  next =>
    obtain ⟨res, hres, rfl⟩ := map_eq_some_iff.mp he
    rw [hresult] at hres
    cases hph : l.phase with
    | closed ans =>
      rw [hph] at hres hphase
      obtain rfl := some.inj hres
      exact settle_answer_timely hv hphase hp hb
    | _ =>
      rw [hph] at hres
      cases hres
  next => exact settle_stale_timely hstale (.inr (by simp)) _
  next hready =>
    -- The timer outlasts the flight, and a call that is not parked is in time for its `select`.
    exfalso
    rw [not_or, not_and_or] at hready
    obtain ⟨hclosed, hfired⟩ := hready
    obtain ⟨d, hd, hle⟩ := (Option.any_eq_true _ _).mp (by simpa using hfired)
    have hle' : d ≤ s.clock := of_decide_eq_true hle
    cases parked with
    | false => exact absurd (htimer rfl d hd) (not_lt.mpr hle')
    | true =>
      have hnone : l.phase.result = none := by
        rw [← hresult]
        simpa using hclosed
      have hd' := hbudget d hd
      have hlt := hopen hnone
      linarith
  next => exact ⟨hstale, hwait, fun h => by cases h⟩

theorem effect_timely (hcfg : s.a.cfg = cfg) (hv : cfg.Valid)
    (hl : LookupsOk s) (hb : call.began ≤ s.clock) {m : Move}
    (he : s.effect c call m = some e) (hshed : .shed c ∉ e.events)
    (hpc : PcTimely row cfg s.lookups s.log s.clock c call.pfx call.began call.pc) :
    PcTimely row cfg (s.lookups ++ e.spawn.toList) (e.events ++ s.log) s.clock c call.pfx call.began
      e.pc := by
  revert he
  fun_cases Sys.effect s c call m <;> intro he <;> (try with_reducible cases he) <;>
    rename call.pc = _ => hpc' <;> rw [hpc'] at hpc
  next => exact hb
  next => exact check_timely h hcfg hpc _ _
  next => exact fetch_timely h hcfg hv hl hb hpc hshed
  next f stale =>
    obtain ⟨hstale, l, hlf, hp, hlt, -⟩ := hpc
    have hstarted := (h.lookups f l hlf).1
    have hwait := hv.refreshWait_pos
    have hd : ∀ d ∈ stale.map (fun _ => s.clock + s.a.cfg.refreshWait),
        d = s.clock + cfg.refreshWait := by
      intro d hd
      obtain ⟨-, -, rfl⟩ := map_eq_some_iff.mp hd
      rw [hcfg]
    rw [toList_none, append_nil]
    refine ⟨hstale, ⟨l, hlf, hp, hlt, fun d hmem => ?_⟩, fun _ d hmem => ?_⟩
    · rw [hd d hmem]
      linarith
    · rw [hd d hmem]
      linarith
  next =>
    rw [(select_plain he).spawn, toList_none, append_nil]
    exact select_timely h hv he hpc
  next => trivial
  next hok => exact ⟨usable_of_verify hok, hpc⟩
  next => exact ⟨_, hpc.1, hpc.2.extend [_]⟩

end

end Own

/-! ### Every step of a healthy system -/

theorem timely_start (cfg : Config) (toucher : Bool) (clock : Time) :
    Timely row cfg.normalize (.start cfg toucher clock) where
  up := rfl
  cached p e he := by cases he
  lookups f l hl := by simp [Sys.start] at hl
  calls c call hc := by simp [Sys.start] at hc

section

variable (h : Timely row cfg s)
include h

theorem Timely.begin (pfx : Pfx) (hash : Hash) :
    Timely row cfg { s with
      calls := s.calls ++ [⟨pfx, hash, s.clock, .start⟩]
      log := .began s.calls.length pfx :: s.log } where
  up := h.up
  cached := h.cached
  lookups := h.lookups
  calls c call hc := by
    rcases Table.getElem?_concat_cases hc with ⟨rfl, rfl⟩ | hold
    · exact ⟨le_refl _, trivial⟩
    · obtain ⟨hb, hpc⟩ := h.calls c call hold
      exact ⟨hb, hpc.extend (.refl _) [_] (.inl rfl)⟩

theorem Timely.tick (hcfg : s.a.cfg = cfg) {t : Time}
    (ht : s.mayTick t = true) : Timely row cfg { s with clock := t } := by
  simp only [Sys.mayTick, Bool.and_eq_true, decide_eq_true_eq, List.all_eq_true,
    Bool.or_eq_true] at ht
  obtain ⟨⟨hle, hlookups⟩, hcalls⟩ := ht
  refine ⟨h.up, h.cached, fun f l hl => ?_, fun c call hc => ?_⟩
  · obtain ⟨hstarted, -, hphase⟩ := h.lookups f l hl
    refine ⟨hstarted.trans hle, fun hnone => ?_, hphase⟩
    have hlt := (hlookups l (mem_of_getElem? hl)).resolve_left (by simp [hnone])
    rwa [hcfg] at hlt
  · obtain ⟨hb, hpc⟩ := h.calls c call hc
    exact ⟨hb.trans hle,
      hpc.extend (.refl _) [] (.inr (hcalls call (mem_of_getElem? hc)))⟩

theorem Timely.apply (hcfg : s.a.cfg = cfg) (hv : cfg.Valid) (hl : LookupsOk s) {call : Call}
    (hc : s.calls[c]? = some call) {m : Move} (he : s.effect c call m = some e)
    (hshed : .shed c ∉ e.events) (hup : e.a.downUntil = s.a.downUntil)
    (hpos : ∀ p e', e.a.pos.lookup p = some e' →
      ∃ e₀, s.a.pos.lookup p = some e₀ ∧ e'.record = e₀.record ∧ e'.fetched = e₀.fetched)
    (hspawn : ∀ l ∈ e.spawn, l.started = s.clock ∧ l.phase = .asking) :
    Timely row cfg (s.apply c call e) where
  up := hup.trans h.up
  cached p e' he' := by
    obtain ⟨e₀, he₀, hrec, hfetched⟩ := hpos p e' he'
    rw [hrec, hfetched]
    exact h.cached p e₀ he₀
  lookups f l hl' := by
    cases hsp : e.spawn with
    | none =>
      rw [Sys.apply, hsp, toList_none, append_nil] at hl'
      exact h.lookups f l hl'
    | some new =>
      rw [Sys.apply, hsp] at hl'
      rcases Table.getElem?_concat_cases hl' with ⟨-, rfl⟩ | hold
      · obtain ⟨hstarted, hphase⟩ := hspawn l hsp
        have hwait := hv.refreshWait_pos
        refine ⟨le_of_eq hstarted, fun _ => ?_, by rw [hphase]; trivial⟩
        show s.clock < l.started + cfg.refreshWait
        rw [hstarted]
        linarith
      · exact h.lookups f l hold
  calls c' call' hc' := by
    rcases Table.getElem?_set_cases hc' with ⟨rfl, rfl⟩ | ⟨-, hold⟩
    · obtain ⟨hb, hpc⟩ := h.calls _ call hc
      have hpc' := effect_timely h hcfg hv hl hb he hshed hpc
      exact ⟨hb, hpc'⟩
    · obtain ⟨hb, hpc⟩ := h.calls c' call' hold
      exact ⟨hb, hpc.extend (.append _ _) _ (.inl rfl)⟩

/-- A lookup goes on to its next phase. -/
theorem Timely.setPhase (hl : s.lookups[f]? = some l) (l' : Lookup) (hpfx : l'.pfx = l.pfx)
    (hstarted : l'.started = l.started) (hl' : LookupTimely row cfg s.clock l') :
    Timely row cfg { s with lookups := s.lookups.set f l' } where
  up := h.up
  cached := h.cached
  lookups f' x hx := by
    rcases Table.getElem?_set_cases hx with ⟨rfl, rfl⟩ | ⟨-, hold⟩
    · exact hl'
    · exact h.lookups f' x hold
  calls c call hc := by
    obtain ⟨hb, hpc⟩ := h.calls c call hc
    exact ⟨hb, hpc.extend (.set hl l' hpfx hstarted) [] (.inl rfl)⟩

end

theorem finishLookup_downUntil_of_sourced {a : Authenticator} (hs : Sourced row l ans)
    (refresh : Bool) (now : Time) : (a.finishLookup l.pfx refresh ans now).downUntil = none := by
  obtain ⟨t, -, rfl⟩ := hs
  cases row l.pfx t <;> rfl

/-- An answer is recorded: the new entry is as old as its flight at most. -/
theorem Timely.record (h : Timely row cfg s) {pfx : Pfx} {refresh : Bool} {started : Time}
    (hl : s.lookups[f]? = some ⟨pfx, refresh, started, .stamped ans now⟩) :
    Timely row cfg
      ⟨s.a.finishLookup pfx refresh ans now, s.clock, s.calls,
        s.lookups.set f ⟨pfx, refresh, started, .recorded ans⟩, .completed f pfx ans :: s.log⟩ := by
  obtain ⟨hclock, hopen, hsourced, hnow⟩ := h.lookups f _ hl
  have hset := h.setPhase hl ⟨pfx, refresh, started, .recorded ans⟩ rfl rfl
    ⟨hclock, fun _ => hopen rfl, hsourced⟩
  refine ⟨finishLookup_downUntil_of_sourced hsourced refresh now, fun p e he => ?_, hset.lookups,
    fun c call hc => ?_⟩
  · rcases finishLookup_pos he with ⟨rfl, rfl, rfl⟩ | ⟨hold, -⟩
    · exact within_of_sourced hsourced hnow
    · exact h.cached p e hold
  · obtain ⟨hb, hpc⟩ := hset.calls c call hc
    exact ⟨hb, hpc.extend (.refl _) [_] (.inl rfl)⟩

theorem Timely.call (h : Timely row cfg s) (hcfg : s.a.cfg = cfg) (hv : cfg.Valid)
    (hl : LookupsOk s) {call : Call} (hc : s.calls[c]? = some call) {m : Move}
    (he : s.effect c call m = some e) (hshed : .shed c ∉ e.events) :
    Timely row cfg (s.apply c call e) := by
  rcases effect_cases he with hp | ⟨stale, b, -, -, hq, -, hpos, -, -, hdown, -, -, hspawn⟩
  · refine h.apply hcfg hv hl hc he hshed hp.quiet.downUntil hp.quiet.pos fun l hmem => ?_
    rw [hp.spawn] at hmem
    cases hmem
  · refine h.apply hcfg hv hl hc he hshed (hdown.trans hq.downUntil) ?_ fun l hmem => ?_
    · rw [hpos]
      exact hq.pos
    · rw [hspawn] at hmem
      obtain rfl := some.inj hmem
      exact ⟨rfl, rfl⟩

theorem Timely.step (h : Timely row cfg s) (hok : AuthOk cfg s) (hv : cfg.Valid) {t : Sys}
    {act : Act} (hs : s.stepHealthy row act = some t) : Timely row cfg t := by
  rw [Sys.stepHealthy, ite_none_right_eq_some] at hs
  obtain ⟨hh, hs⟩ := hs
  have hstep := hs
  revert hs
  fun_cases Sys.step s act <;> intro hs <;> try with_reducible cases hs
  next pfx hash => exact h.begin pfx hash
  next => exact h.tick hok.cfg_eq hh
  next hc =>
    obtain ⟨e, he, rfl⟩ := map_eq_some_iff.mp hs
    refine h.call hok.cfg_eq hv hok.lookups hc he fun hshed => ?_
    rw [Sys.healthy, hstep] at hh
    exact of_decide_eq_true hh (mem_append_left _ hshed)
  next asOf _ _ _ hl =>
    obtain ⟨hclock, hopen, -⟩ := h.lookups _ _ hl
    rw [Sys.healthy, hl] at hh
    obtain ⟨hlow, -, hans⟩ := of_decide_eq_true hh
    exact h.setPhase hl _ rfl rfl ⟨hclock, fun _ => hopen rfl, asOf, hlow, hans⟩
  next hl =>
    obtain ⟨hclock, hopen, hsourced⟩ := h.lookups _ _ hl
    exact h.setPhase hl _ rfl rfl ⟨hclock, fun _ => hopen rfl, hsourced, hopen rfl⟩
  next hl => exact h.record hl
  next hl =>
    obtain ⟨hclock, -, hsourced⟩ := h.lookups _ _ hl
    exact h.setPhase hl _ rfl rfl ⟨hclock, fun h => (by cases h), hsourced⟩

theorem step_of_stepHealthy {t : Sys} {act : Act}
    (h : s.stepHealthy row act = some t) : s.step act = some t := by
  simp only [Sys.stepHealthy] at h
  split at h
  · exact h
  · cases h

theorem timely_of_reach {toucher : Bool}
    {clock : Time} (h : Machine.Reach (Sys.stepHealthy row) (.start cfg toucher clock) s) :
    Timely row cfg.normalize s := by
  have hboth : AuthOk cfg.normalize s ∧ Timely row cfg.normalize s := by
    refine h.invariant (P := fun s => AuthOk cfg.normalize s ∧ Timely row cfg.normalize s)
      ⟨authOk_start cfg toucher clock, timely_start cfg toucher clock⟩ ?_
    intro s t act hs hstep
    exact ⟨hs.1.step cfg.valid_normalize (step_of_stepHealthy hstep),
      hs.2.step hs.1 cfg.valid_normalize hstep⟩
  exact hboth.2

/-! ### The bound -/

/-- **Revocation with a healthy store.** The key `p` is unusable in the store from `r` on. A call
that begins later than `r + CacheTTL + RefreshWait` succeeds only if it found the key being
refreshed by another call, or if its context ended while it waited; and only if it begins before
`r + CacheTTL + StaleGrace + RefreshWait`. -/
theorem revocation_bound {row : Pfx → Time → Option KeyRecord} {p : Pfx} {r : Time}
    (hrev : ∀ t k, r ≤ t → row p t = some k → k.usable = false) {cfg : Config} {toucher : Bool}
    {clock : Time} {s : Sys} (h : Machine.Reach (Sys.stepHealthy row) (.start cfg toucher clock) s)
    {c : Nat} {call : Call} (hc : s.calls[c]? = some call) (hp : call.pfx = p)
    (hb : r + cfg.normalize.cacheTTL + cfg.normalize.refreshWait < call.began) {pr : Principal}
    (hdone : call.pc = .done (.ok pr)) :
    Excused c s.log ∧ call.began < r + cfg.normalize.cacheTTL + cfg.normalize.staleGrace +
      cfg.normalize.refreshWait := by
  obtain ⟨-, hpc⟩ := (timely_of_reach h).calls c call hc
  rw [hdone, hp] at hpc
  obtain ⟨k, hk, haged⟩ := hpc
  -- A usable record was read before the revocation.
  have hold : ∀ t, row p t = some k → t < r := by
    intro t ht
    by_contra hle
    rw [hrev t k (not_lt.mp hle) ht] at hk
    cases hk
  rcases haged with ⟨t, ht, hlt⟩ | ⟨hex, t, ht, hlt⟩
  · have := hold t ht
    linarith
  · have := hold t ht
    exact ⟨hex, by linarith⟩

/-- The key is revoked at the instant 10. -/
def revokedAt10 (_ : Pfx) (t : Time) : Option KeyRecord :=
  some (if t < 10 then sampleKey else { sampleKey with keyStatus := .revoked })

theorem revokedAt10_unusable (t : Time) (k : KeyRecord) (ht : 10 ≤ t)
    (hk : revokedAt10 "0a" t = some k) : k.usable = false := by
  rw [revokedAt10, if_neg (not_lt.mpr ht)] at hk
  obtain rfl := some.inj hk
  decide

/-- The key is used, and again by two calls forty seconds later: the first starts the refresh, the
second finds it in flight. -/
def usedAfterRevocation : List Act :=
  firstUse ++ [.tick 40000000000, .begin "0a" (List.replicate 32 7), .call 1 .read, .call 1 .check,
    .call 1 .fetch, .begin "0a" (List.replicate 32 7), .call 2 .read, .call 2 .check,
      .call 2 .fetch,
    .call 2 .verify, .call 2 .note]

/-- The second call of that run. -/
def IsLateCall (s : Sys) (call : Call) : Prop :=
  s.calls[2]? = some call ∧ call.pfx = "0a" ∧ call.began = 40000000000 ∧
    call.pc = .done (.ok sampleKey.principal) ∧ .ctxEnded 2 ∉ s.log

theorem late_call :
    ∃ s call, Machine.Reach (Sys.stepHealthy revokedAt10) (.start defaultConfig true 0) s ∧
    IsLateCall s call := by
  obtain ⟨s, hs, call, hc, hp, hb, hctx, hpc⟩ : ∃ s ∈ Machine.runActs (Sys.stepHealthy revokedAt10)
      (.start defaultConfig true 0) usedAfterRevocation, ∃ call ∈ s.calls[2]?,
        call.pfx = "0a" ∧ call.began = 40000000000 ∧ .ctxEnded 2 ∉ s.log ∧
        (match call.pc with
          | .done (.ok pr) => decide (pr = sampleKey.principal)
          | _ => false) = true := by
    decide +kernel
  refine ⟨s, call, Machine.reach_of_runActs .refl _ hs, hc, hp, hb, ?_, hctx⟩
  split at hpc
  · next pr hdone => rw [hdone, of_decide_eq_true hpc]
  · cases hpc

/-- A revoked key is accepted, forty seconds after the revocation and with a healthy store: the call
found another call's refresh in flight. -/
theorem revoked_key_accepted : ∃ s call,
    Machine.Reach (Sys.stepHealthy revokedAt10) (.start defaultConfig true 0) s ∧
      (∀ t k, 10 ≤ t → revokedAt10 "0a" t = some k → k.usable = false) ∧
      s.calls[2]? = some call ∧ call.pfx = "0a" ∧
      10 + defaultConfig.normalize.cacheTTL + defaultConfig.normalize.refreshWait < call.began ∧
      call.pc = .done (.ok sampleKey.principal) ∧ .ctxEnded 2 ∉ s.log := by
  obtain ⟨s, call, hreach, hc, hp, hb, hpc, hctx⟩ := late_call
  exact ⟨s, call, hreach, revokedAt10_unusable, hc, hp, by rw [hb]; decide, hpc, hctx⟩

/-- The bound at that run. -/
theorem revocation_bound_late_call : ∃ (s : Sys) (call : Call),
    Machine.Reach (Sys.stepHealthy revokedAt10) (.start defaultConfig true 0) s ∧
    s.calls[2]? = some call ∧ Excused 2 s.log ∧
    call.began < 10 + defaultConfig.normalize.cacheTTL + defaultConfig.normalize.staleGrace +
      defaultConfig.normalize.refreshWait := by
  obtain ⟨s, call, hreach, hc, hp, hb, hpc, -⟩ := late_call
  refine ⟨s, call, hreach, hc, revocation_bound revokedAt10_unusable hreach hc hp ?_ hpc⟩
  rw [hb]
  decide

end ServerFlow.Auth
