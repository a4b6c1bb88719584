import ServerFlow.Lib.Table
import ServerFlow.Resilience.BreakerMoves

/-!
# Resilience.Tickets

A ticket is a plain value: a key, an epoch and, for a probe, a counter. A set of breakers is run
here together with a record of what only an observer knows: which breaker issued each ticket
(breakers are numbered in the order in which they are made), and in which breaker each verdict took
effect.

A breaker that is made for a key starts with the first epoch and the first counter. If a ticket was
taken for that key before, of an earlier breaker or while the worker had none, the new breaker
cannot tell it from its own (`old_ticket_taken_for_own`). In a run in which no `Sync` makes such a
breaker every ticket acts on the breaker that issued it (`tickets_act_on_issuer`).
-/

namespace ServerFlow.Resilience

open List Option AList Bool

variable {es : List Effect} {id : String} {b : Breaker}

/-! ### The record -/

/-- A breaker, by its number, in one of its epochs. Each epoch has one half-open period. -/
structure Period where
  inst : Nat
  epoch : Nat
  deriving Repr, DecidableEq

/-- A ticket that was taken, and the breaker that issued it, if the worker had one. -/
structure Issue where
  ticket : Ticket
  origin : Option Period
  deriving Repr, DecidableEq

/-- A call with a ticket. -/
inductive Use
  | verdict (v : Verdict)
  | late (v : Verdict)
  | abort (okAt : Time)
  | release
  deriving Repr, DecidableEq

def Use.op (t : Ticket) : Use → BreakersOp
  | .verdict v => .record t v
  | .late v => .recordLate t v
  | .abort okAt => .recordAbort t okAt
  | .release => .release t

/-- A ticket is settled by its verdict or returned without one. -/
def Use.settles : Use → Bool
  | .verdict _ | .release => true
  | .late _ | .abort _ => false

/-- A call with a ticket that changed a breaker, and the state in which it found it. -/
structure Effect where
  /-- The number of the ticket. -/
  ticket : Nat
  use : Use
  period : Period
  state : State
  deriving Repr, DecidableEq

structure TicketLog where
  /-- How many breakers were made. -/
  made : Nat
  /-- The number of the breaker of a worker ID. -/
  inst : String → Nat
  /-- The tickets taken, in order. -/
  issued : List Issue
  /-- The tickets that an OK was recorded for, whether it was counted or not. -/
  recorded : List Nat
  effects : List Effect

structure Traced where
  bs : Breakers
  log : TicketLog

def Traced.start (p : BreakerParams) (rnd : Nat → ℚ) : Traced :=
  ⟨.new p rnd, 0, fun _ => 0, [], [], []⟩

/-! ### Runs -/

inductive TracedAct
  | call (c : BreakersCall)
  /-- A call with the ticket of this number. -/
  | use (now : Time) (n : Nat) (u : Use)

/-- Callers have no tickets but those they took and the zero one. -/
def BreakersOp.ticketless : BreakersOp → Bool
  | .record t _ | .recordLate t _ | .recordAbort t _ | .release t => decide (t = Ticket.zero)
  | _ => true

/-- The loop of `Sync`, which numbers the breakers it makes. -/
def Traced.syncMember (s : Traced) (m : Member) : Traced :=
  if (s.bs.find m.key).isSome then ⟨s.bs.syncMember m, s.log⟩
  else ⟨s.bs.syncMember m,
    { s.log with made := s.log.made + 1, inst := Function.update s.log.inst m.key.id s.log.made }⟩

/-- What a worker's ticket is taken of. -/
def Traced.period (s : Traced) (k : Key) : Option Period :=
  (s.bs.find k).map fun b => ⟨s.log.inst k.id, b.epoch⟩

def TicketLog.take (l : TicketLog) (origin : Option Period) : BreakersReply → TicketLog
  | .ticket t true => { l with issued := l.issued ++ [⟨t, origin⟩] }
  | _ => l

def Traced.call (s : Traced) (c : BreakersCall) : Traced :=
  match c.op with
  | .sync members => ⟨(s.bs.step c).1, (members.foldl Traced.syncMember s).log⟩
  | .acquire k => ⟨(s.bs.step c).1, s.log.take (s.period k) (s.bs.step c).2.1⟩
  | _ => ⟨(s.bs.step c).1, s.log⟩

/-- A call changed the breaker of a worker ID: it is neither as it was nor as its lazy transitions
leave it. -/
def Breakers.Changed (bs bs' : Breakers) (now : Time) (id : String) : Prop :=
  bs'.byID.lookup id ≠ bs.byID.lookup id ∧ bs'.byID.lookup id ≠ bs.advanced now id

instance (bs bs' : Breakers) (now : Time) (id : String) : Decidable (bs.Changed bs' now id) :=
  inferInstanceAs (Decidable (_ ∧ _))

/-- The effect of a call, if it has one. -/
def Traced.effect (s : Traced) (bs' : Breakers) (now : Time) (n : Nat) (t : Ticket) (u : Use) :
    List Effect :=
  match s.bs.advanced now t.key.id with
  | none => []
  | some b =>
    if s.bs.Changed bs' now t.key.id then [⟨n, u, ⟨s.log.inst t.key.id, b.epoch⟩, b.state⟩] else []

def Traced.use (s : Traced) (now : Time) (n : Nat) (t : Ticket) (u : Use) : Traced :=
  let bs' := (s.bs.step ⟨now, [], u.op t⟩).1
  ⟨bs', { s.log with
    recorded := if u = .verdict .ok then n :: s.log.recorded else s.log.recorded
    effects := s.effect bs' now n t u ++ s.log.effects }⟩

/-- `RecordAbort` is called for a ticket whose verdict was OK. For a probe it is `RecordLate`. -/
def TicketLog.permits (l : TicketLog) (n : Nat) (i : Issue) : Use → Bool
  | .abort _ => i.ticket.probe || decide (n ∈ l.recorded)
  | _ => true

def Traced.step (s : Traced) : TracedAct → Option Traced
  | .call c => if c.op.ticketless then some (s.call c) else none
  | .use now n u =>
    match s.log.issued[n]? with
    | none => none
    | some i => if s.log.permits n i u then some (s.use now n i.ticket u) else none

theorem Traced.step_call {s s' : Traced} {c : BreakersCall} (h : s.step (.call c) = some s') :
    s' = s.call c :=
  (some.inj (ite_none_right_eq_some.mp h).2).symm

theorem Traced.step_use {s s' : Traced} {now : Time} {n : Nat} {u : Use}
    (h : s.step (.use now n u) = some s') :
    ∃ i, s.log.issued[n]? = some i ∧ s.log.permits n i u = true ∧ s' = s.use now n i.ticket u := by
  simp only [Traced.step] at h
  split at h
  next => cases h
  next i hi =>
    obtain ⟨hpermits, heq⟩ := ite_none_right_eq_some.mp h
    exact ⟨i, hi, hpermits, (some.inj heq).symm⟩

/-- No breaker is made for a key that a ticket was taken for. -/
def Breakers.makesNew (taken : List Key) : Breakers → List Member → Bool
  | _, [] => true
  | bs, m :: ms =>
    ((bs.find m.key).isSome || decide (m.key ∉ taken)) && (bs.syncMember m).makesNew taken ms

def TicketLog.taken (l : TicketLog) : List Key := l.issued.map (·.ticket.key)

def Traced.listsNew (s : Traced) : TracedAct → Bool
  | .call ⟨_, _, .sync members⟩ => s.bs.makesNew s.log.taken members
  | _ => true

/-- The steps that list no key again that a ticket was taken for. -/
def Traced.stepNew (s : Traced) (a : TracedAct) : Option Traced :=
  if s.listsNew a then s.step a else none

/-! ### A call with a ticket -/

/-- What a call with a ticket needs to change the breaker `b`, which its lazy transitions make `a`,
to `b'`. -/
structure Use.Moved (u : Use) (t : Ticket) (b a b' : Breaker) : Prop where
  epoch : b.epoch = t.epoch
  settled : u.settles = true → t.probe = true →
    a.state = .halfOpen ∧ b.tickets.lookup t.id ≠ none ∧ b'.tickets.lookup t.id = none
  aborted : ∀ okAt, u = .abort okAt → t.probe = false → b.state = .closed

/-- A call with a ticket, as it acts on the breaker it found. -/
structure Use.Acts (u : Use) (t : Ticket) (bs bs' : Breakers) (b a b' : Breaker) : Prop where
  lookup : ∀ id, bs'.byID.lookup id = if id = t.key.id then some b' else bs.byID.lookup id
  onward : b.Onward b'
  moved : b' ≠ b → b' ≠ a → u.Moved t b a b'
  counted : u = .verdict .ok → t.probe = false → t.valid = true → b.epoch = t.epoch →
    b.state = .closed → b.win.Sized → b' ≠ b ∧ b' ≠ a

section Use

variable {bs : Breakers} {t : Ticket} {b : Breaker} (now : Time)

section

variable (hb : bs.find t.key = some b)
include hb

theorem onBreaker_lookup (missing : BreakersReply)
    (act : Breakers → Breaker → Acted) (id : String) :
    (bs.onBreaker t.key now missing act).1.byID.lookup id = if id = t.key.id then
      some (act (bs.set t.key.id (b.advance now bs.p).1) (b.advance now bs.p).1).b
      else bs.byID.lookup id := by
  unfold Breakers.onBreaker
  rw [hb]
  exact lookup_insert_ite _ _ _ _

/-- The call does nothing. -/
theorem Use.Acts.idle {u : Use} (hcount : ¬ (u = .verdict .ok ∧ t.probe = false ∧ t.valid = true)) :
    u.Acts t bs bs b (b.advance now bs.p).1 b where
  lookup := fun id => by
    split
    next heq => rw [heq, (find_eq_some hb).1]
    next => rfl
  onward := .refl b
  moved := fun hne => absurd rfl hne
  counted := fun hu hp hv => absurd ⟨hu, hp, hv⟩ hcount

theorem use_record (hvalid : t.valid = true) (v : Verdict) :
    ∃ b', (Use.verdict v).Acts t bs (bs.step ⟨now, [], .record t v⟩).1 b
      (b.advance now bs.p).1 b' := by
  have hstep : bs.step ⟨now, [], .record t v⟩ =
      bs.onBreaker t.key now .done (recordAct t v now) := by
    simp [Breakers.step, hvalid]
  have hadv : b.Onward (b.advance now bs.p).1 := .advance b
  have hepoch : (b.advance now bs.p).1.epoch = b.epoch := (Breaker.SameAt.advance b).epoch_eq
  rw [hstep]
  refine ⟨_, onBreaker_lookup now hb _ _,
    hadv.trans ((Breaker.Act.record _ t v).onward (e := .visit) (by nofun)), fun _ hmoved => ?_,
    fun hu hp _ he hc hs => ?_⟩
  · obtain ⟨he, hprobe⟩ := record_moved hmoved
    refine ⟨hepoch.symm.trans he, fun _ hp => ?_, nofun⟩
    obtain ⟨hhalf, hout, hgone⟩ := hprobe hp
    exact ⟨hhalf, fun hnone => hout (hadv.tickets _ hnone), hgone⟩
  · obtain rfl := Use.verdict.inj hu
    have hwin : (recordAct t .ok now (bs.set t.key.id (b.advance now bs.p).1)
      (b.advance now bs.p).1).b.win ≠
        (b.advance now bs.p).1.win :=
      record_ok_counted hp (hepoch.trans he) (b.advance_closed_iff.mpr hc) (hadv.sized hs)
    have hsame : (b.advance now bs.p).1.win = b.win :=
      (congrArg Breaker.win b.core_advance : (b.advance now bs.p).1.core.win = b.core.win)
    exact ⟨fun heq => hwin (hsame ▸ congrArg Breaker.win heq),
      fun heq => hwin (congrArg Breaker.win heq)⟩

theorem use_recordLate (v : Verdict) {u : Use} (hu : u.settles = false)
    (hprobe : (∃ okAt, u = .abort okAt) → t.probe = true) :
    ∃ b', u.Acts t bs (bs.recordLate now t v).1 b (b.advance now bs.p).1 b' := by
  have hnot : u ≠ .verdict .ok := fun heq => by rw [heq] at hu; cases hu
  unfold Breakers.recordLate
  split
  · exact ⟨b, .idle now hb fun hc => hnot hc.1⟩
  · refine ⟨_, onBreaker_lookup now hb _ _,
      (Breaker.Onward.advance b).trans ((Breaker.Act.late _ t v).onward (e := .visit) (by nofun)),
      fun _ hmoved => ⟨(Breaker.SameAt.advance b).epoch_eq.symm.trans (late_moved hmoved),
        fun hs => ?_, fun okAt hu hp => ?_⟩, fun hv => absurd hv hnot⟩
    · rw [hu] at hs
      cases hs
    · rw [hprobe ⟨okAt, hu⟩] at hp
      cases hp

theorem use_recordAbort (okAt : Time) :
    ∃ b', (Use.abort okAt).Acts t bs (bs.step ⟨now, [], .recordAbort t okAt⟩).1 b
      (b.advance now bs.p).1 b' := by
  show ∃ b', (Use.abort okAt).Acts t bs (if !t.valid then (bs, .done, [])
    else if t.probe then bs.recordLate now t .fault
    else bs.onBreaker t.key now .done (abortAct t okAt now)).1 b (b.advance now bs.p).1 b'
  split
  · exact ⟨b, .idle now hb fun hc => by cases hc.1⟩
  · split
    next hprobe => exact use_recordLate now hb .fault rfl fun _ => hprobe
    next hplain =>
      refine ⟨_, onBreaker_lookup now hb _ _, (Breaker.Onward.advance b).trans
        ((Breaker.Act.abort _ t okAt).onward (e := .visit) (by nofun)),
        fun _ hmoved => ⟨(Breaker.SameAt.advance b).epoch_eq.symm.trans (abort_moved hmoved).1,
          nofun, fun _ _ _ => b.advance_closed_iff.mp (abort_moved hmoved).2⟩,
        nofun⟩

theorem use_release : ∃ b', Use.release.Acts t bs (bs.release t) b (b.advance now bs.p).1 b' := by
  unfold Breakers.release
  split
  · exact ⟨b, .idle now hb fun hc => by cases hc.1⟩
  · rw [hb]
    dsimp only
    have hrel : ∀ {bs' : Breakers}, (∀ id, bs'.byID.lookup id =
        if id = t.key.id then some (b.released t) else bs.byID.lookup id) →
        Use.release.Acts t bs bs' b (b.advance now bs.p).1 (b.released t) := fun hlook =>
      ⟨hlook, onward_released t, fun hmoved _ => by
        obtain ⟨hepoch, hhalf, hout, hgone⟩ := released_moved hmoved
        refine ⟨hepoch, fun _ _ => ⟨?_, hout, hgone⟩, nofun⟩
        unfold Breaker.advance
        rw [if_neg (fun hc => by rw [hhalf] at hc; cases hc.1), if_pos hhalf]
        exact hhalf, nofun⟩
    refine ⟨b.released t, hrel fun id => ?_⟩
    unfold Breaker.released
    split
    · exact lookup_insert_ite _ _ _ _
    · split
      next heq => rw [heq, (find_eq_some hb).1]
      next => rfl

theorem use_acts (hvalid : t.valid = true) (u : Use) :
    ∃ b', u.Acts t bs (bs.step ⟨now, [], u.op t⟩).1 b (b.advance now bs.p).1 b' := by
  cases u with
  | verdict v => exact use_record now hb hvalid v
  | late v => exact use_recordLate now hb v rfl fun ⟨_, hu⟩ => by cases hu
  | abort okAt => exact use_recordAbort now hb okAt
  | release => exact use_release now hb

end

/-- A call with the ticket of a worker that has no breaker does nothing. -/
theorem use_none (hnone : bs.find t.key = none) (u : Use) : (bs.step ⟨now, [], u.op t⟩).1 = bs := by
  have hon : ∀ missing act, (bs.onBreaker t.key now missing act).1 = bs := fun missing act => by
    rw [Breakers.onBreaker, hnone]
  have hlate : ∀ v, (bs.recordLate now t v).1 = bs := fun v => by
    rw [Breakers.recordLate]
    split
    · rfl
    · exact hon _ _
  cases u <;> simp only [Use.op, Breakers.step, Breakers.release, hnone, hlate] <;> split_ifs <;>
    simp only [hon, hlate]

end Use

/-! ### One breaker -/

/-- What the record says about the breaker of a worker ID. -/
structure TicketLog.Fits (l : TicketLog) (id : String) (b : Breaker) : Prop where
  home : b.key.id = id
  sized : b.win.Sized
  /-- All tickets of its key are its own. -/
  origin : ∀ {n : Nat} {i : Issue}, l.issued[n]? = some i → i.ticket.key = b.key →
    i.origin = some ⟨l.inst id, i.ticket.epoch⟩
  plain : ∀ {n : Nat} {i : Issue}, l.issued[n]? = some i → i.ticket.key = b.key →
    i.ticket.probe = false →
    i.ticket.epoch ≤ b.epoch ∧ (b.state ≠ .closed → i.ticket.epoch < b.epoch)
  probe : ∀ {n : Nat} {i : Issue}, l.issued[n]? = some i → i.ticket.key = b.key →
    i.ticket.probe = true → i.ticket.id ≤ b.nextID
  /-- A settled probe ticket is not outstanding. -/
  settled : ∀ {e : Effect} {i : Issue}, e ∈ l.effects → e.use.settles = true →
    l.issued[e.ticket]? = some i →
    i.ticket.key = b.key → i.ticket.probe = true → b.tickets.lookup i.ticket.id = none
  /-- A closed breaker has counted the OKs of its epoch. -/
  counted : ∀ {n : Nat} {i : Issue}, n ∈ l.recorded → l.issued[n]? = some i → i.ticket.key = b.key →
    i.ticket.probe = false → i.ticket.epoch = b.epoch → b.state = .closed →
    ∃ e ∈ l.effects, e.ticket = n ∧ e.use = .verdict .ok ∧ e.period = ⟨l.inst id, b.epoch⟩

namespace TicketLog.Fits

variable {l l' : TicketLog} {id : String} {b b' : Breaker}

theorem onward (h : l.Fits id b) (hon : b.Onward b') : l.Fits id b' where
  home := by rw [hon.key, h.home]
  sized := hon.sized h.sized
  origin := fun hi hk => h.origin hi (hk.trans hon.key)
  plain := by
    intro n i hi hk hp
    obtain ⟨hle, hlt⟩ := h.plain hi (hk.trans hon.key) hp
    refine ⟨hle.trans hon.epoch, fun hopen => ?_⟩
    by_cases hclosed : b.state = .closed
    · exact hle.trans_lt (hon.left hclosed hopen)
    · exact (hlt hclosed).trans_le hon.epoch
  probe := fun hi hk hp => by
    rw [hon.nextID]
    exact h.probe hi (hk.trans hon.key) hp
  settled := fun he hs hi hk hp => hon.tickets _ (h.settled he hs hi (hk.trans hon.key) hp)
  counted := by
    intro n i hn hi hk hp hepoch hclosed'
    obtain ⟨hle, hlt⟩ := h.plain hi (hk.trans hon.key) hp
    have hepoch' := hon.epoch
    -- a breaker of the ticket's epoch that is closed now was closed before, in the same epoch
    have hclosed : b.state = .closed := by
      by_contra hopen
      have := hlt hopen
      omega
    have hsame : b'.epoch = b.epoch := by omega
    rw [hsame]
    exact h.counted hn hi (hk.trans hon.key) hp (hepoch.trans hsame) hclosed

/-- A key that no ticket was taken for. -/
theorem of_untaken (hhome : b.key.id = id) (hsized : b.win.Sized) (hnew : b.key ∉ l.taken) :
    l.Fits id b := by
  have hnone : ∀ {n : Nat} {i : Issue}, l.issued[n]? = some i → i.ticket.key ≠ b.key := fun hi hk =>
    hnew (List.mem_map.mpr ⟨_, mem_of_getElem? hi, hk⟩)
  exact ⟨hhome, hsized, fun hi hk => absurd hk (hnone hi), fun hi hk => absurd hk (hnone hi),
    fun hi hk => absurd hk (hnone hi), fun _ _ hi hk => absurd hk (hnone hi),
    fun _ hi hk => absurd hk (hnone hi)⟩

/-- The numbers of the other workers' breakers do not matter. -/
theorem renumber (h : l.Fits id b) (made : Nat) {inst : String → Nat}
    (hinst : inst id = l.inst id) :
    TicketLog.Fits { l with made := made, inst := inst } id b :=
  { h with
    origin := fun hi hk => by simpa only [hinst] using h.origin hi hk
    counted := fun hn hi hk hp he hc => by simpa only [hinst] using h.counted hn hi hk hp he hc }

end TicketLog.Fits

/-! ### The record of a run -/

/-- The record of a run fits its breakers, and every effect was in the breaker that issued the
ticket. -/
structure Traced.Ok (s : Traced) : Prop where
  fits : ∀ {id : String} {b : Breaker}, s.bs.byID.lookup id = some b → s.log.Fits id b
  valid : ∀ {n : Nat} {i : Issue}, s.log.issued[n]? = some i → i.ticket.valid = true
  recorded : ∀ {n : Nat}, n ∈ s.log.recorded → n < s.log.issued.length
  effects : ∀ {e : Effect}, e ∈ s.log.effects → ∃ i, s.log.issued[e.ticket]? = some i ∧
    i.origin = some e.period ∧
    (i.ticket.probe = true → e.use.settles = true → e.state = .halfOpen) ∧
    (i.ticket.probe = false → ∀ okAt, e.use = .abort okAt → ∃ e' ∈ s.log.effects,
      e'.ticket = e.ticket ∧ e'.use = .verdict .ok ∧ e'.period = e.period)
  once : ∀ {n : Nat} {i : Issue}, s.log.issued[n]? = some i → i.ticket.probe = true →
    s.log.effects.countP (fun e => decide (e.ticket = n) && e.use.settles) ≤ 1

namespace Traced.Ok

variable {s : Traced}

theorem start (p : BreakerParams) (rnd : Nat → ℚ) : (Traced.start p rnd).Ok where
  fits := nofun
  valid := nofun
  recorded := nofun
  effects := nofun
  once := nofun

section

variable (h : s.Ok)
include h

theorem onward {bs' : Breakers} (hon : s.bs.Onward bs') : Traced.Ok ⟨bs', s.log⟩ := by
  refine { h with fits := fun hb' => ?_ }
  obtain ⟨b, hb, hmove⟩ := hon _ _ hb'
  exact (h.fits hb).onward hmove

/-- A breaker is found by its key. -/
theorem find_of_lookup (hb : s.bs.byID.lookup id = some b) : s.bs.find b.key = some b := by
  unfold Breakers.find
  rw [(h.fits hb).home, hb, filter_some, if_pos (decide_eq_true rfl)]

/-! #### `Sync` -/

theorem syncMember {m : Member} (hnew : (s.bs.find m.key).isSome = true ∨ m.key ∉ s.log.taken) :
    (s.syncMember m).Ok := by
  have hview : ∀ b : Breaker, b.Onward { b with eligible := m.eligible, model := m.model } :=
    fun b =>
    ⟨rfl, rfl, le_rfl, fun hc ho => absurd hc ho, fun _ hn => hn, le_rfl, id⟩
  unfold Traced.syncMember
  cases hfind : s.bs.find m.key with
  | some b =>
    have hset : s.bs.Onward (s.bs.syncMember m) := by
      unfold Breakers.syncMember
      rw [hfind]
      exact .set (find_eq_some hfind).1 (hview b)
    exact h.onward hset
  | none =>
    rw [hfind] at hnew
    have hfresh : m.key ∉ s.log.taken := hnew.resolve_left (by simp)
    refine { h with fits := fun {id b} hb => ?_ }
    unfold Breakers.syncMember at hb
    rw [hfind] at hb
    rcases of_lookup_insert hb with ⟨heq, rfl⟩ | ⟨hne, hb⟩
    · exact .of_untaken heq.symm (sized_newSlidingWindow _) hfresh
    · exact (h.fits hb).renumber _ (Function.update_of_ne hne _ _)

theorem syncMembers {members : List Member} (hnew : s.bs.makesNew s.log.taken members = true) :
    (members.foldl Traced.syncMember s).Ok ∧
      (members.foldl Traced.syncMember s).bs = members.foldl Breakers.syncMember s.bs := by
  induction members generalizing s with
  | nil => exact ⟨h, rfl⟩
  | cons m members ih =>
    unfold Breakers.makesNew at hnew
    rw [and_eq_true, or_eq_true, decide_eq_true_eq] at hnew
    have hbs : (s.syncMember m).bs = s.bs.syncMember m := by
      unfold Traced.syncMember
      split <;> rfl
    have htaken : (s.syncMember m).log.taken = s.log.taken := by
      unfold Traced.syncMember
      split <;> rfl
    have hnext := ih (h.syncMember hnew.1) (by rw [hbs, htaken]; exact hnew.2)
    rw [hbs] at hnext
    exact hnext

theorem sync (now : Time) (order : List String) {members : List Member}
    (hnew : s.bs.makesNew s.log.taken members = true) :
    Traced.Ok ⟨(s.bs.sync now order members).1, (members.foldl Traced.syncMember s).log⟩ := by
  obtain ⟨hok, hbs⟩ := h.syncMembers hnew
  refine hok.onward ?_
  rw [hbs]
  exact .keep_enforceCap _ _ now order

/-! #### `Acquire` -/

/-- A ticket is taken. Of the breaker of its key, if there is one, it is a ticket that fits. -/
theorem take {i : Issue} (hvalid : i.ticket.valid = true)
    (hfits : ∀ {id : String} {b : Breaker}, s.bs.byID.lookup id = some b → i.ticket.key = b.key →
      i.origin = some ⟨s.log.inst id, i.ticket.epoch⟩ ∧
      (i.ticket.probe = false → i.ticket.epoch ≤ b.epoch ∧
        (b.state ≠ .closed → i.ticket.epoch < b.epoch)) ∧
      (i.ticket.probe = true → i.ticket.id ≤ b.nextID)) :
    Traced.Ok ⟨s.bs, { s.log with issued := s.log.issued ++ [i] }⟩ := by
  -- the record does not speak of the new ticket yet
  have hrecorded : ∀ {n : Nat} {i' : Issue}, n ∈ s.log.recorded →
    (s.log.issued ++ [i])[n]? = some i' →
      s.log.issued[n]? = some i' := fun hn hi' => by
    rwa [List.getElem?_append_left (h.recorded hn)] at hi'
  have hlogged : ∀ {e : Effect} {i' : Issue}, e ∈ s.log.effects →
    (s.log.issued ++ [i])[e.ticket]? = some i' →
      s.log.issued[e.ticket]? = some i' := fun he hi' => by
    obtain ⟨j, hj, -⟩ := h.effects he
    rwa [List.getElem?_append_left (List.getElem?_eq_some_iff.mp hj).1] at hi'
  refine ⟨fun {id b} hb => ?_, fun {n i'} hi' => ?_, fun hn => ?_, fun {e} he => ?_,
    fun {n i'} hi' hp => ?_⟩
  · have hold := h.fits hb
    refine ⟨hold.home, hold.sized, fun hi' hk => ?_, fun hi' hk hp => ?_, fun hi' hk hp => ?_,
      fun he hs hi' hk hp => hold.settled he hs (hlogged he hi') hk hp,
      fun hn hi' hk hp hepoch hclosed => hold.counted hn (hrecorded hn hi') hk hp hepoch hclosed⟩
    · rcases Table.getElem?_concat_cases hi' with ⟨-, rfl⟩ | hi'
      · exact (hfits hb hk).1
      · exact hold.origin hi' hk
    · rcases Table.getElem?_concat_cases hi' with ⟨-, rfl⟩ | hi'
      · exact (hfits hb hk).2.1 hp
      · exact hold.plain hi' hk hp
    · rcases Table.getElem?_concat_cases hi' with ⟨-, rfl⟩ | hi'
      · exact (hfits hb hk).2.2 hp
      · exact hold.probe hi' hk hp
  · rcases Table.getElem?_concat_cases hi' with ⟨-, rfl⟩ | hi'
    · exact hvalid
    · exact h.valid hi'
  · have := h.recorded hn
    simp only [length_append]
    omega
  · obtain ⟨j, hj, hrest⟩ := h.effects he
    exact ⟨j, Table.getElem?_append_of_some hj [i], hrest⟩
  · rcases Table.getElem?_concat_cases hi' with ⟨rfl, rfl⟩ | hi'
    · -- no effect names the new ticket
      refine (countP_eq_zero.mpr fun e he => ?_).le.trans (Nat.zero_le 1)
      obtain ⟨j, hj, -⟩ := h.effects he
      have hlt := (List.getElem?_eq_some_iff.mp hj).1
      simp [Nat.ne_of_lt hlt]
    · exact h.once hi' hp

/-- A probe ticket is granted: its counter is new. -/
theorem grant (hb : s.bs.byID.lookup id = some b) (now : Time) :
    Traced.Ok ⟨s.bs.set id
      { b with nextID := b.nextID + 1, tickets := b.tickets.insert (b.nextID + 1) now },
        s.log⟩ := by
  refine { h with fits := fun {id' b'} hb' => ?_ }
  rcases of_lookup_insert hb' with ⟨rfl, rfl⟩ | ⟨-, hb'⟩
  · have hold := h.fits hb
    refine { hold with
      probe := fun hi hk hp => (hold.probe hi hk hp).trans (Nat.le_succ _)
      settled := fun {e i} he hs hi hk hp => ?_ }
    show (b.tickets.insert (b.nextID + 1) now).lookup i.ticket.id = none
    have hle := hold.probe hi hk hp
    rw [lookup_insert_ite, if_neg (by omega)]
    exact hold.settled he hs hi hk hp
  · exact h.fits hb'

theorem acquire (now : Time) (order : List String) (k : Key) :
    (s.call ⟨now, order, .acquire k⟩).Ok := by
  show Traced.Ok ⟨(s.bs.onBreaker k now (.ticket ⟨k, 0, 0, false, true⟩ true) (acquireAct k now)).1,
    s.log.take (s.period k)
      (s.bs.onBreaker k now (.ticket ⟨k, 0, 0, false, true⟩ true) (acquireAct k now)).2.1⟩
  unfold Breakers.onBreaker Traced.period
  cases hfind : s.bs.find k with
  | none =>
    refine h.take rfl fun {id b} hb hk => ?_
    -- no breaker has the key
    have hk' : k = b.key := hk
    rw [hk', h.find_of_lookup hb] at hfind
    cases hfind
  | some b =>
    have hb := (find_eq_some hfind).1
    have hadv : Traced.Ok ⟨s.bs.set k.id (b.advance now s.bs.p).1, s.log⟩ :=
      h.onward (.set hb (.advance b))
    have hlook : (s.bs.set k.id (b.advance now s.bs.p).1).byID.lookup k.id =
      some (b.advance now s.bs.p).1 :=
      lookup_insert _
    have hepoch : b.epoch = (b.advance now s.bs.p).1.epoch :=
      (Breaker.SameAt.advance b).epoch_eq.symm
    -- the breaker of the key is the one that was found
    have honly : ∀ {c : Breaker} {id : String} {b' : Breaker},
        (∀ id b', (s.bs.set k.id c).byID.lookup id = some b' → b'.key.id = id) →
        (s.bs.set k.id c).byID.lookup id = some b' → k = b'.key → id = k.id ∧ b' = c := by
      intro c id b' hhome hb' hk
      have hid : id = k.id := by rw [hk]; exact (hhome id b' hb').symm
      refine ⟨hid, ?_⟩
      rw [hid] at hb'
      exact (some.inj (hb'.symm.trans (lookup_insert _)))
    dsimp only [map_some]
    rcases acquire_cases k now (s.bs.set k.id (b.advance now s.bs.p).1)
        (b.advance now s.bs.p).1 with
      ⟨hclosed, hact⟩ | ⟨-, hact⟩ | hact
    · rw [hact]
      have htake := hadv.take (i := ⟨⟨k, 0, (b.advance now s.bs.p).1.epoch, false, true⟩,
        some ⟨s.log.inst k.id, b.epoch⟩⟩) rfl fun {id b'} hb' hk => by
          obtain ⟨rfl, rfl⟩ := honly (fun id b' hb' => (hadv.fits hb').home) hb' hk
          exact ⟨by rw [hepoch], fun _ => ⟨le_rfl, fun hne => absurd hclosed hne⟩, nofun⟩
      exact htake.onward (.of_byID (.refl _) rfl)
    · rw [hact]
      have hgrant := hadv.grant hlook now
      have hset : ∀ c : Breaker, (s.bs.set k.id (b.advance now s.bs.p).1).set k.id c =
          s.bs.set k.id c := fun c => by
        simp only [Breakers.set, insert_insert]
      rw [hset] at hgrant
      have htake := hgrant.take (i := ⟨⟨k, (b.advance now s.bs.p).1.nextID + 1,
        (b.advance now s.bs.p).1.epoch, true, true⟩, some ⟨s.log.inst k.id, b.epoch⟩⟩) rfl
        fun {id b'} hb' hk => by
          obtain ⟨rfl, rfl⟩ := honly (fun id b' hb' => (hgrant.fits hb').home) hb' hk
          exact ⟨by rw [hepoch], fun (hc : true = false) => (by cases hc), fun _ => le_rfl⟩
      exact htake.onward (.of_byID (.refl _) rfl)
    · rw [hact]
      exact hadv.onward (.of_byID (.refl _) rfl)

end

/-! #### Calls with a ticket -/

end Traced.Ok

/-- The record after a call with the ticket of this number. -/
def TicketLog.used (l : TicketLog) (n : Nat) (u : Use) (es : List Effect) : TicketLog :=
  { l with recorded := if u = .verdict .ok then n :: l.recorded else l.recorded, effects := es ++ l.effects }

variable {n : Nat} {u : Use}

theorem TicketLog.mem_recorded_used {l : TicketLog} {m : Nat}
    (h : m ∈ (l.used n u es).recorded) : m ∈ l.recorded ∨ (m = n ∧ u = .verdict .ok) := by
  simp only [TicketLog.used] at h
  split at h
  next hu => exact (mem_cons.mp h).symm.imp_right fun heq => ⟨heq, hu⟩
  next => exact .inl h

/-- The effect of a call on the breaker it found. -/
def Use.effectOn (u : Use) (inst n : Nat) (b a b' : Breaker) : List Effect :=
  if b' ≠ b ∧ b' ≠ a then [⟨n, u, ⟨inst, b.epoch⟩, a.state⟩] else []

theorem Use.mem_effectOn {inst : Nat} {a b' : Breaker} {e : Effect}
    (h : e ∈ u.effectOn inst n b a b') :
    e = ⟨n, u, ⟨inst, b.epoch⟩, a.state⟩ ∧ b' ≠ b ∧ b' ≠ a := by
  simp only [Use.effectOn, mem_ite_nil_right, mem_singleton] at h
  exact h.symm

theorem Use.countP_effectOn_le (u : Use) (inst n : Nat) (b a b' : Breaker) (q : Effect → Bool) :
    (u.effectOn inst n b a b').countP q ≤ 1 := by
  refine countP_le_length.trans ?_
  unfold Use.effectOn
  split <;> simp

theorem Traced.effect_self (s : Traced) (now : Time) (n : Nat) (t : Ticket) (u : Use) :
    s.effect s.bs now n t u = [] := by
  unfold Traced.effect
  cases s.bs.advanced now t.key.id with
  | none => rfl
  | some b => exact if_neg fun hc => hc.1 rfl

theorem Traced.effect_found {s : Traced} {bs' : Breakers} {now : Time} {t : Ticket} {b' : Breaker}
    (hb : s.bs.find t.key = some b) (hacts : u.Acts t s.bs bs' b (b.advance now s.bs.p).1 b') :
    s.effect bs' now n t u = u.effectOn (s.log.inst t.key.id) n b (b.advance now s.bs.p).1 b' := by
  have hlook := (find_eq_some hb).1
  have hadvanced : s.bs.advanced now t.key.id = some (b.advance now s.bs.p).1 := by
    unfold Breakers.advanced
    rw [hlook]
    rfl
  have hchanged : s.bs.Changed bs' now t.key.id ↔ b' ≠ b ∧ b' ≠ (b.advance now s.bs.p).1 := by
    unfold Breakers.Changed
    rw [hacts.lookup, if_pos rfl, hlook, hadvanced]
    simp
  unfold Traced.effect Use.effectOn
  rw [hadvanced]
  dsimp only
  rw [(Breaker.SameAt.advance b).epoch_eq]
  exact if_congr hchanged rfl rfl

/-- The breaker of another worker does not fit less for it. -/
theorem TicketLog.Fits.used_other {l : TicketLog} {c : Breaker} (h : l.Fits id c)
    {i : Issue} (hi : l.issued[n]? = some i) (hother : i.ticket.key ≠ c.key)
    (hes : ∀ {e : Effect}, e ∈ es → e.ticket = n) : (l.used n u es).Fits id c := by
  refine { h with
    settled := fun {e j} he hs hj hk hp => ?_
    counted := fun {m j} hm hj hk hp hepoch hclosed => ?_ }
  · rcases mem_append.mp he with he | he
    · rw [hes he] at hj
      obtain rfl := some.inj (hi.symm.trans hj)
      exact absurd hk hother
    · exact h.settled he hs hj hk hp
  · rcases TicketLog.mem_recorded_used hm with hm | ⟨rfl, -⟩
    · obtain ⟨e, he, hrest⟩ := h.counted hm hj hk hp hepoch hclosed
      exact ⟨e, mem_append_right es he, hrest⟩
    · obtain rfl := some.inj (hi.symm.trans hj)
      exact absurd hk hother

namespace Traced.Ok

variable {s : Traced} {n : Nat} {i : Issue} {u : Use} {bs' : Breakers} {b a b' : Breaker}

variable (h : s.Ok)
include h

theorem recorded_used (hi : s.log.issued[n]? = some i) {m : Nat}
    (hm : m ∈ (s.log.used n u es).recorded) : m < s.log.issued.length := by
  rcases TicketLog.mem_recorded_used hm with hm | ⟨rfl, -⟩
  · exact h.recorded hm
  · exact (List.getElem?_eq_some_iff.mp hi).1

/-- The breaker that the call found. -/
theorem fits_used (hi : s.log.issued[n]? = some i) (hb : s.bs.find i.ticket.key = some b)
    (hacts : u.Acts i.ticket s.bs bs' b a b') :
    (s.log.used n u (u.effectOn (s.log.inst i.ticket.key.id) n b a b')).Fits i.ticket.key.id
      b' := by
  obtain ⟨hlook, hkey⟩ := find_eq_some hb
  have hold := h.fits hlook
  have hnew := hold.onward hacts.onward
  refine { hnew with
    settled := fun {e j} he hs hj hk hp => ?_
    counted := fun {m j} hm hj hk hp hepoch hclosed => ?_ }
  · rcases mem_append.mp he with he | he
    · obtain ⟨rfl, hne, hne'⟩ := Use.mem_effectOn he
      obtain rfl := some.inj (hi.symm.trans hj)
      exact ((hacts.moved hne hne').settled hs hp).2.2
    · exact hnew.settled he hs hj hk hp
  · rcases TicketLog.mem_recorded_used hm with hm | ⟨rfl, hu⟩
    · obtain ⟨e, he, hrest⟩ := hnew.counted hm hj hk hp hepoch hclosed
      exact ⟨e, mem_append_right _ he, hrest⟩
    · obtain rfl := some.inj (hi.symm.trans hj)
      -- the breaker was closed in the ticket's epoch before the call, so the OK was counted
      obtain ⟨hle, hlt⟩ := hold.plain hi hkey.symm hp
      have hmono := hacts.onward.epoch
      have hstate : b.state = .closed := by
        by_contra hopen
        have := hlt hopen
        omega
      have hsame : b'.epoch = b.epoch := by omega
      have hne := hacts.counted hu hp (h.valid hi) (by omega) hstate hold.sized
      refine ⟨⟨m, u, ⟨s.log.inst i.ticket.key.id, b.epoch⟩, a.state⟩, mem_append_left _ ?_, rfl, hu,
        ?_⟩
      · simp [Use.effectOn, hne]
      · rw [hsame]
        rfl

/-- The effect of the call is in the breaker that issued the ticket. -/
theorem effects_used (hi : s.log.issued[n]? = some i) (hpermits : s.log.permits n i u = true)
    (hb : s.bs.find i.ticket.key = some b) (hacts : u.Acts i.ticket s.bs bs' b a b') {e : Effect}
    (he : e ∈ u.effectOn (s.log.inst i.ticket.key.id) n b a b') :
    e.ticket = n ∧ i.origin = some e.period ∧
      (i.ticket.probe = true → e.use.settles = true → e.state = .halfOpen) ∧
      (i.ticket.probe = false → ∀ okAt, e.use = .abort okAt → ∃ e' ∈ s.log.effects,
        e'.ticket = e.ticket ∧ e'.use = .verdict .ok ∧ e'.period = e.period) := by
  obtain ⟨hlook, hkey⟩ := find_eq_some hb
  have hold := h.fits hlook
  obtain ⟨rfl, hne, hne'⟩ := Use.mem_effectOn he
  have hmoved := hacts.moved hne hne'
  refine ⟨rfl, ?_, fun hp hs => (hmoved.settled hs hp).1, fun hp okAt hu => ?_⟩
  · rw [hold.origin hi hkey.symm, hmoved.epoch]
  · -- the OK was recorded, and the breaker is still closed in its epoch
    have hrec : n ∈ s.log.recorded := by
      obtain rfl : u = .abort okAt := hu
      simpa [TicketLog.permits, hp] using hpermits
    exact hold.counted hrec hi hkey.symm hp hmoved.epoch.symm (hmoved.aborted okAt hu hp)

/-- A probe ticket that the call settled was outstanding, so nothing had settled it before. -/
theorem once_used (hi : s.log.issued[n]? = some i) (hb : s.bs.find i.ticket.key = some b)
    (hacts : u.Acts i.ticket s.bs bs' b a b') {m : Nat} {j : Issue} (hj : s.log.issued[m]? = some j)
    (hp : j.ticket.probe = true) :
    (u.effectOn (s.log.inst i.ticket.key.id) n b a b' ++ s.log.effects).countP
      (fun e => decide (e.ticket = m) && e.use.settles) ≤ 1 := by
  obtain ⟨hlook, hkey⟩ := find_eq_some hb
  rw [countP_append]
  by_cases hnone : (u.effectOn (s.log.inst i.ticket.key.id) n b a b').countP
      (fun e => decide (e.ticket = m) && e.use.settles) = 0
  · have := h.once hj hp
    omega
  · obtain ⟨e, he, hpe⟩ := countP_pos_iff.mp (Nat.pos_of_ne_zero hnone)
    obtain ⟨rfl, hne, hne'⟩ := Use.mem_effectOn he
    simp only [and_eq_true, decide_eq_true_eq] at hpe
    obtain ⟨rfl, hs⟩ := hpe
    obtain rfl := some.inj (hi.symm.trans hj)
    have hout := ((hacts.moved hne hne').settled hs hp).2.1
    have hzero : s.log.effects.countP (fun e => decide (e.ticket = n) && e.use.settles) = 0 := by
      refine countP_eq_zero.mpr fun e he hpe => hout ?_
      simp only [and_eq_true, decide_eq_true_eq] at hpe
      exact (h.fits hlook).settled he hpe.2 (hpe.1 ▸ hi) hkey.symm hp
    rw [hzero]
    exact Use.countP_effectOn_le u _ n b a b' _

theorem use (now : Time) (hi : s.log.issued[n]? = some i) (u : Use)
    (hpermits : s.log.permits n i u = true) : (s.use now n i.ticket u).Ok := by
  show Traced.Ok ⟨(s.bs.step ⟨now, [], u.op i.ticket⟩).1,
    s.log.used n u (s.effect (s.bs.step ⟨now, [], u.op i.ticket⟩).1 now n i.ticket u)⟩
  cases hfind : s.bs.find i.ticket.key with
  | none =>
    rw [use_none now hfind u, s.effect_self]
    refine ⟨fun {id c} hc => ?_, h.valid, h.recorded_used hi, h.effects, h.once⟩
    refine (h.fits hc).used_other hi (fun hk => ?_) nofun
    rw [hk, h.find_of_lookup hc] at hfind
    cases hfind
  | some b =>
    obtain ⟨b', hacts⟩ := use_acts now hfind (h.valid hi) u
    rw [Traced.effect_found hfind hacts]
    refine ⟨fun {id c} hc => ?_, h.valid, h.recorded_used hi, fun {e} he => ?_,
      h.once_used hi hfind hacts⟩
    · rw [hacts.lookup] at hc
      split at hc
      next heq =>
        obtain rfl := some.inj hc
        rw [heq]
        exact h.fits_used hi hfind hacts
      next hne =>
        have hother := h.fits hc
        refine hother.used_other hi (fun hk => hne (by rw [hk]; exact hother.home.symm)) fun he =>
          ?_
        rw [(Use.mem_effectOn he).1]
    · have hmem : ∀ {P : Effect → Prop}, (∃ e' ∈ s.log.effects, P e') →
          ∃ e' ∈ u.effectOn (s.log.inst i.ticket.key.id) n b
            (b.advance now s.bs.p).1 b' ++ s.log.effects,
            P e' := fun ⟨e', he', hP⟩ => ⟨e', mem_append_right _ he', hP⟩
      rcases mem_append.mp he with he | he
      · obtain ⟨hn, horigin, hhalf, habort⟩ := h.effects_used hi hpermits hfind hacts he
        exact ⟨i, hn ▸ hi, horigin, hhalf, fun hp okAt hu => hmem (habort hp okAt hu)⟩
      · obtain ⟨j, hj, horigin, hhalf, habort⟩ := h.effects he
        exact ⟨j, hj, horigin, hhalf, fun hp okAt hu => hmem (habort hp okAt hu)⟩

theorem call {c : BreakersCall} (hnew : s.listsNew (.call c) = true) : (s.call c).Ok := by
  obtain ⟨now, order, op⟩ := c
  have hother : (∀ members, op ≠ .sync members) → (∀ k, op ≠ .acquire k) →
      Traced.Ok ⟨(s.bs.step ⟨now, order, op⟩).1, s.log⟩ := fun hsync hacquire =>
    h.onward (.step s.bs ⟨now, order, op⟩ hsync hacquire)
  cases op with
  | sync members => exact h.sync now order hnew
  | acquire k => exact h.acquire now order k
  | _ => exact hother nofun nofun

theorem step {s' : Traced} {act : TracedAct} (hstep : s.stepNew act = some s') : s'.Ok := by
  obtain ⟨hnew, hstep⟩ := ite_none_right_eq_some.mp hstep
  cases act with
  | call c =>
    obtain rfl := Traced.step_call hstep
    exact h.call hnew
  | use now n u =>
    obtain ⟨i, hi, hpermits, rfl⟩ := Traced.step_use hstep
    exact h.use now hi u hpermits

end Traced.Ok

/-! ### Whole runs -/

theorem Traced.step_roomy {s s' : Traced} {act : TracedAct} (hstep : s.step act = some s')
    (h : s.bs.Roomy) : s'.bs.Roomy := by
  cases act with
  | call c =>
    obtain rfl := Traced.step_call hstep
    have hbs : (s.call c).bs = (s.bs.step c).1 := by
      unfold Traced.call
      split <;> rfl
    rw [hbs]
    exact h.step c
  | use now n u =>
    obtain ⟨i, -, -, rfl⟩ := Traced.step_use hstep
    exact h.step _

/-- **Tickets bind to the breaker that issued them,** in every run in which no `Sync` makes a
breaker for a key that a ticket was taken for. Every effect of a ticket is in the breaker, and the
epoch, that issued it, so a ticket that was taken while the worker had no breaker has none. A probe
ticket is settled at most once, in the half-open state. An OK is taken out for an abort only if the
breaker counted the OK of that ticket. And a breaker never has more probes out than
`ProbeConcurrency`. -/
theorem tickets_act_on_issuer (p : BreakerParams) (rnd : Nat → ℚ) (s : Traced)
    (h : Machine.Reach Traced.stepNew (Traced.start p rnd) s) :
    (∀ e ∈ s.log.effects, ∃ i, s.log.issued[e.ticket]? = some i ∧ i.origin = some e.period ∧
      (i.ticket.probe = true → e.use.settles = true → e.state = .halfOpen) ∧
      (i.ticket.probe = false → ∀ okAt, e.use = .abort okAt → ∃ e' ∈ s.log.effects,
        e'.ticket = e.ticket ∧ e'.use = .verdict .ok ∧ e'.period = e.period)) ∧
    (∀ n i, s.log.issued[n]? = some i → i.ticket.probe = true →
      s.log.effects.countP (fun e => decide (e.ticket = n) && e.use.settles) ≤ 1) ∧
    ∀ id b, s.bs.byID.lookup id = some b → (b.tickets.len : Int) ≤ s.bs.p.probeConcurrency := by
  have hok : s.Ok := h.invariant (.start p rnd) fun _ _ _ hs hstep => hs.step hstep
  have hroomy : s.bs.Roomy :=
      h.invariant (P := fun s => s.bs.Roomy) (.new p rnd) fun _ _ _ hs hstep =>
    Traced.step_roomy (ite_none_right_eq_some.mp hstep).2 hs
  exact ⟨fun _ he => hok.effects he, fun _ _ hi hp => hok.once hi hp, fun _ _ hb => hroomy.room hb⟩

/-- Parameters of a breaker that a single fault trips, for a second. -/
def oneFault : BreakerParams := ⟨1, 0, 1, 10 * second, second, 2 * second, 1, 1, 1, 0⟩

/-- A worker trips, its probe passes, and an OK is aborted. -/
theorem tickets_act_on_issuer_probed :
    let k : Key := ⟨"w", 1⟩
    let run : List TracedAct := [.call ⟨0, [], .sync [⟨k, "m", true⟩]⟩, .call ⟨1, [], .acquire k⟩,
      .use 2 0 (.verdict .fault), .call ⟨5 * second, [], .acquire k⟩,
        .use (5 * second) 1 (.verdict .ok),
      .use (5 * second) 1 .release, .call ⟨6 * second, [], .acquire k⟩,
        .use (6 * second) 2 (.verdict .ok),
      .use (7 * second) 2 (.abort (6 * second))]
    ∃ s, Machine.Reach Traced.stepNew (Traced.start oneFault fun _ => 0) s ∧
      Machine.runActs Traced.stepNew (Traced.start oneFault fun _ => 0) run = some s ∧
      s.log.effects.map (fun e => (e.ticket, e.use)) =
        [(2, .abort (6 * second)), (2, .verdict .ok), (1, .verdict .ok), (0, .verdict .fault)] ∧
      ∀ e ∈ s.log.effects, ∃ i, s.log.issued[e.ticket]? = some i ∧ i.origin = some e.period := by
  intro k run
  obtain ⟨s, hs, heffects⟩ : ∃ s ∈ Machine.runActs Traced.stepNew
    (Traced.start oneFault fun _ => 0) run,
      s.log.effects.map (fun e => (e.ticket, e.use)) =
        [(2, .abort (6 * second)), (2, .verdict .ok), (1, .verdict .ok), (0, .verdict .fault)] := by
    decide +kernel
  have hreach := Machine.reach_of_runActs .refl run hs
  refine ⟨s, hreach, hs, heffects, fun e he => ?_⟩
  obtain ⟨i, hi, horigin, -⟩ := (tickets_act_on_issuer oneFault (fun _ => 0) s hreach).1 e he
  exact ⟨i, hi, horigin⟩

/-- A ticket taken before a breaker was made for its key is taken for one of the breaker's own: a
fault of a ticket that was taken while the worker had no breaker trips it; the probe of a breaker
that was dropped closes the next one while its own probe is out; and the abort of an OK that no
breaker counted takes another ticket's OK out of the window. -/
theorem old_ticket_taken_for_own :
    let k : Key := ⟨"w", 1⟩
    let listed : TracedAct := .call ⟨0, [], .sync [⟨k, "m", true⟩]⟩
    let dropped : TracedAct := .call ⟨6 * second, [], .prune []⟩
    let early : List TracedAct := [.call ⟨0, [], .acquire k⟩, listed, .use 1 0 (.verdict .fault)]
    let tripped (at_ : Time) (n : Nat) : List TracedAct := [.call ⟨at_, [], .acquire k⟩,
      .use at_ n (.verdict .fault), .call ⟨at_ + 5 * second, [], .acquire k⟩]
    let probe : List TracedAct :=
      [listed] ++ tripped 0 0 ++ [dropped, listed] ++ tripped (7 * second) 2 ++
      [.use (13 * second) 1 (.verdict .ok)]
    let abort : List TracedAct :=
      [listed, .call ⟨0, [], .acquire k⟩, dropped, .use (7 * second) 0 (.verdict .ok),
      listed, .call ⟨8 * second, [], .acquire k⟩, .use (8 * second) 1 (.verdict .ok),
      .use (9 * second) 0 (.abort (8 * second))]
    let start := Traced.start oneFault fun _ => 0
    (∃ s ∈ Machine.runActs Traced.step start early,
      s.log.issued.map (·.origin) = [none] ∧ s.log.effects.map (·.period) = [⟨0, 0⟩] ∧
      (s.bs.find k).map (·.state) = some .open) ∧
    (∃ s ∈ Machine.runActs Traced.step start probe,
      s.log.issued[1]? = some ⟨⟨k, 1, 1, true, true⟩, some ⟨0, 1⟩⟩ ∧
      s.log.effects.head? = some ⟨1, .verdict .ok, ⟨1, 1⟩, .halfOpen⟩ ∧
      (s.bs.find k).map (·.state) = some .closed) ∧
    ∃ s ∈ Machine.runActs Traced.step start abort,
      s.log.effects.map (fun e => (e.ticket, e.use)) =
        [(0, .abort (8 * second)), (1, .verdict .ok)] ∧
      s.log.issued.map (·.origin) = [some ⟨0, 0⟩, some ⟨1, 0⟩] := by
  decide +kernel

end ServerFlow.Resilience
