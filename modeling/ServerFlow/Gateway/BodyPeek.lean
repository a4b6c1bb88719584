import Mathlib
import ServerFlow.Lib.Machine
import ServerFlow.Lib.Reader

/-!
# Gateway.BodyPeek

The peek at a held 503. Before a retry is routed the start of the body is read by a goroutine of its
own, so that the wait for it can be bounded. If the wait runs out the goroutine reads on. If no
other worker takes the retry the response is relayed after all: `joinPeek` waits for the goroutine,
and `putBack` puts what it read in front of the body.

The body belongs to the goroutine until its channel is closed, and to the relay after that. While
the peek is attached to the attempt nobody relays; when it is detached its goroutine is over
(`HeldBody.Intact`). What was relayed, what was put back and not relayed yet, what the goroutine has
and what the body still holds make up the body, in this order.

The reader of the body may deliver its bytes in any portions, as in `Reader.read`. What the peeked
bytes say about the worker is left out: the verdict does not touch them.
-/

namespace ServerFlow.Gateway

open List Option Bool

variable {ε : Type}

def peekLimit : Nat := 1024

def copyBufferSize : Nat := 16384

/-! ### The attempt -/

/-- `peekRead`, with its goroutine. -/
structure PeekRead where
  /-- The buffer and the loop of `io.ReadFull`. -/
  fill : Fill UInt8
  /-- The goroutine is in `Read`. -/
  reading : Bool
  /-- The channel `done` is closed. -/
  done : Bool

/-- What is relayed: the body, or peeked bytes in front of it. -/
inductive Source
  | body
  | multi (j : Fronted UInt8)

def Source.front : Source → List UInt8
  | .body => []
  | .multi j => j.front

/-- Where the request's goroutine is. -/
inductive HeldPc
  /-- Before the verdict. -/
  | held
  /-- In the `select` of `peekIsNeutral`. -/
  | waiting
  /-- The verdict is given, and another worker is looked for. -/
  | judged
  /-- In `joinPeek`. -/
  | joining
  | relaying
  /-- Another worker took the retry. -/
  | abandoned
  deriving DecidableEq

structure HeldBody (ε : Type) where
  body : Reader UInt8 ε
  peek : Option PeekRead
  /-- `run.peek` is set. -/
  attached : Bool
  src : Source
  pc : HeldPc
  /-- The relay is in `Read`. -/
  relayReading : Bool
  /-- What the relay has read, and the end that it was told. -/
  relayed : List UInt8
  relayEnd : Option (ReadEnd ε)

inductive HeldAct
  /-- The peek begins. -/
  | peek
  /-- No time is left for one, or the verdict needs none. -/
  | skip
  | peekRead
  | peekGot (ready : Nat) (report : Bool)
  | peekClose
  /-- The `select` finds the channel closed. -/
  | finished
  /-- The wait runs out. -/
  | timeout
  /-- Another worker takes the retry, or none. -/
  | route (found : Bool)
  | join
  | relayRead
  | relayGot (ready : Nat) (report : Bool)

namespace HeldBody

def start (data : List UInt8) (final : ReadEnd ε) : HeldBody ε :=
  ⟨.new data final, none, false, .body, .held, false, [], none⟩

/-- `putBack`. -/
def putBack (s : HeldBody ε) (p : PeekRead) : HeldBody ε :=
  { s with attached := false, src := .multi ⟨p.fill.buf, false⟩ }

/-- A read of the relay's source, into the buffer of `pump`. -/
def relayGot (s : HeldBody ε) (ready : Nat) (report : Bool) : HeldBody ε :=
  match s.src with
  | .body =>
    let got := s.body.read copyBufferSize ready report
    { s with body := got.2.2, relayed := s.relayed ++ got.1, relayEnd := got.2.1, relayReading := false }
  | .multi j =>
    let got := j.read s.body copyBufferSize ready report
    { s with
      body := got.2.2.2
      src := .multi got.2.2.1
      relayed := s.relayed ++ got.1
      relayEnd := got.2.1
      relayReading := false }

/-- The steps of the peek's goroutine. -/
def stepPeek (s : HeldBody ε) (p : PeekRead) : HeldAct → Option (HeldBody ε)
  | .peekRead =>
    if p.fill.goesOn peekLimit && !p.reading && !p.done then
      some { s with peek := some { p with reading := true } }
    else none
  | .peekGot ready report =>
    if p.reading then
      let got := p.fill.step peekLimit s.body ready report
      some { s with peek := some { p with fill := got.1, reading := false }, body := got.2 }
    else none
  | .peekClose =>
    if !p.fill.goesOn peekLimit && !p.reading then some
      { s with peek := some { p with done := true } } else none
  | _ => none

/-- The steps of the request's goroutine. -/
def stepRequest (s : HeldBody ε) : HeldAct → Option (HeldBody ε)
  | .peek =>
    if s.pc = .held then
      some { s with pc := .waiting, peek := some ⟨.new, false, false⟩, attached := true }
    else none
  | .skip => if s.pc = .held then some { s with pc := .judged } else none
  | .finished =>
    match s.peek with
    | some p =>
      if s.pc = .waiting ∧ p.done = true then some { s.putBack p with pc := .judged } else none
    | none => none
  | .timeout => if s.pc = .waiting then some { s with pc := .judged } else none
  | .route found =>
    if s.pc = .judged then
      some { s with pc := if found then .abandoned else if s.attached then .joining else .relaying }
    else none
  | .join =>
    match s.peek with
    | some p =>
      if s.pc = .joining ∧ p.done = true then some { s.putBack p with pc := .relaying } else none
    | none => none
  | .relayRead =>
    if s.pc = .relaying ∧ s.relayReading = false ∧
      s.relayEnd.isNone = true then some { s with relayReading := true }
    else none
  | .relayGot ready report => if s.relayReading then some (s.relayGot ready report) else none
  | _ => none

def step (s : HeldBody ε) (a : HeldAct) : Option (HeldBody ε) :=
  match a with
  | .peekRead | .peekGot _ _ | .peekClose => s.peek.bind fun p => s.stepPeek p a
  | _ => s.stepRequest a

/-! ### Whose the body is -/

/-- What the goroutine has, while it is attached. -/
def pending (s : HeldBody ε) : List UInt8 :=
  if s.attached then (s.peek.map fun p => p.fill.buf).getD [] else []

/-- The peek's goroutine is in a read of the body. -/
def peekReading (s : HeldBody ε) : Bool := (s.peek.map PeekRead.reading).getD false

/-- The body is whole, and has one owner. -/
structure Intact (data : List UInt8) (final : ReadEnd ε) (s : HeldBody ε) : Prop where
  whole : s.relayed ++ s.src.front ++ s.pending ++ s.body.data = data
  ending : s.body.final = final
  attached : s.attached = true → s.src = .body ∧ s.relayed = [] ∧ s.relayEnd = none
  detached : s.attached = false → ∀ p, s.peek = some p → p.done = true
  closed : ∀ p, s.peek = some p → p.done = true → p.reading = false
  source : ∀ j, s.src = .multi j → j.Sound s.body
  held : s.pc = .held → s.attached = false ∧ s.src = .body ∧ s.relayed = [] ∧ s.relayEnd = none
  waiting : s.pc = .waiting ∨ s.pc = .joining → s.attached = true
  relaying : s.pc = .relaying → s.attached = false
  reading : s.relayReading = true → s.pc = .relaying
  told : ∀ e, s.relayEnd = some e → e = final ∧ s.relayed = data

namespace Intact

variable {data : List UInt8} {final : ReadEnd ε} {s t : HeldBody ε}

theorem start (data : List UInt8) (final : ReadEnd ε) : Intact data final (start data final) where
  whole := rfl
  ending := rfl
  attached := nofun
  detached := nofun
  closed := nofun
  source := nofun
  held := fun _ => ⟨rfl, rfl, rfl, rfl⟩
  waiting := fun h => by rcases h with h | h <;> cases h
  relaying := nofun
  reading := nofun
  told := nofun

variable {p : PeekRead} {a : HeldAct}

/-- A goroutine that is not over is attached. -/
theorem attached_of_running (h : s.Intact data final) (hp : s.peek = some p)
    (hdone : p.done = false) : s.attached = true := by
  by_contra hno
  cases hdone.symm.trans (h.detached (eq_false_of_not_eq_true hno) p hp)

theorem pending_attached (hatt : s.attached = true) (hp : s.peek = some p) :
    s.pending = p.fill.buf := by
  simp only [pending, hatt, hp, if_true, map_some, getD_some]

theorem pending_detached (hatt : s.attached = false) : s.pending = [] := by
  simp only [pending, hatt, false_eq_true, if_false]

section

variable (h : s.Intact data final)
include h

theorem stepPeek (hp : s.peek = some p) (ht : s.stepPeek p a = some t) : t.Intact data final := by
  revert ht
  fun_cases HeldBody.stepPeek s p a <;> intro ht <;> cases ht
  next hgo =>
    simp only [and_eq_true, not_eq_true'] at hgo
    have hatt := h.attached_of_running hp hgo.2
    refine { h with whole := ?_, detached := ?_, closed := ?_ }
    · have hwhole := h.whole
      rw [pending_attached hatt hp] at hwhole
      change s.relayed ++ s.src.front ++ (if s.attached then p.fill.buf else []) ++ s.body.data =
        data
      rwa [if_pos hatt]
    · intro hno
      cases hatt.symm.trans hno
    · rintro q hq hdone
      cases hq
      cases hgo.2.symm.trans hdone
  next ready report hreading _ =>
    have hdone : p.done = false := by
      by_contra hdone
      cases hreading.symm.trans (h.closed p hp (eq_true_of_not_eq_false hdone))
    have hatt := h.attached_of_running hp hdone
    obtain ⟨hsrc, hnone, -⟩ := h.attached hatt
    refine { h with whole := ?_, ending := ?_, detached := ?_, closed := ?_, source := ?_ }
    · have hwhole := h.whole
      rw [pending_attached hatt hp, hsrc, hnone] at hwhole
      change s.relayed ++ s.src.front ++
        (if s.attached then (p.fill.step peekLimit s.body ready report).1.buf else []) ++
          (p.fill.step peekLimit s.body ready report).2.data = data
      rw [if_pos hatt, hsrc, hnone]
      exact (Fill.step_data peekLimit p.fill s.body ready report).trans hwhole
    · exact (s.body.read_final _ ready report).trans h.ending
    · intro hno
      cases hatt.symm.trans hno
    · rintro q hq -
      cases hq
      rfl
    · intro j hj
      cases hsrc.symm.trans hj
  next hover =>
    simp only [and_eq_true, not_eq_true'] at hover
    refine { h with whole := ?_, detached := ?_, closed := ?_ }
    · have hsame : ({ s with peek := some { p with done := true } } : HeldBody ε).pending =
          s.pending := by
        simp only [pending, hp, map_some]
      rw [hsame]
      exact h.whole
    · rintro - q hq
      cases hq
      rfl
    · rintro q hq -
      cases hq
      exact hover.2

/-- The goroutine is over, so what it read goes in front of the body. -/
theorem putBack (hp : s.peek = some p) (hdone : p.done = true) (hatt : s.attached = true)
    {pc : HeldPc} (hpc : pc = .judged ∨ pc = .relaying) (hidle : s.relayReading = false) :
    ({ s.putBack p with pc := pc } : HeldBody ε).Intact data final := by
  obtain ⟨hsrc, hnone, hend⟩ := h.attached hatt
  have hwhole := h.whole
  rw [pending_attached hatt hp, hsrc, hnone] at hwhole
  refine { h with whole := ?_, attached := ?_, detached := ?_, source := ?_, held := ?_, waiting := ?_,
                  relaying := ?_, reading := ?_ }
  · rw [pending_detached rfl]
    change s.relayed ++ p.fill.buf ++ [] ++ s.body.data = data
    rw [hnone, append_nil]
    exact hwhole
  · exact nofun
  · rintro - q hq
    cases hp.symm.trans hq
    exact hdone
  · rintro j hj
    cases hj
    exact nofun
  · rcases hpc with rfl | rfl
    all_goals exact nofun
  · rcases hpc with rfl | rfl
    all_goals
      rintro (hno | hno)
      all_goals cases hno
  · exact fun _ => rfl
  · intro hreading
    cases hidle.symm.trans hreading

theorem relayGot (hreading : s.relayReading = true) (ready : Nat) (report : Bool) :
    (s.relayGot ready report).Intact data final := by
  have hpc := h.reading hreading
  have hatt := h.relaying hpc
  have hnotHeld : ∀ {q : Prop}, s.pc = .held → q := fun hno => by cases hpc.symm.trans hno
  have hwhole := h.whole
  rw [pending_detached hatt, append_nil] at hwhole
  unfold HeldBody.relayGot
  cases hsrc : s.src with
  | body =>
    dsimp only
    rw [hsrc] at hwhole
    have hdata := s.body.read_data copyBufferSize ready report
    have hall : s.relayed ++ (s.body.read copyBufferSize ready report).1 ++
        (s.body.read copyBufferSize ready report).2.2.data = data := by
      rw [append_assoc, hdata]
      rwa [Source.front, append_nil] at hwhole
    refine { h with whole := ?_, ending := ?_, attached := ?_, source := ?_, held := hnotHeld, reading := ?_, told := ?_ }
    · rw [pending_detached (by exact hatt)]
      change s.relayed ++ _ ++ [] ++ [] ++ _ = data
      rw [append_nil, append_nil]
      exact hall
    · exact (s.body.read_final _ ready report).trans h.ending
    · intro hno
      cases hatt.symm.trans hno
    · intro j hj
      cases hj
    · exact nofun
    · intro e he
      obtain ⟨hfinal, hnil⟩ := s.body.read_end _ ready report he
      refine ⟨hfinal.trans h.ending, ?_⟩
      rw [hnil, append_nil] at hall
      exact hall
  | multi j =>
    dsimp only
    rw [hsrc] at hwhole
    have hsound := h.source j hsrc
    have hdata := j.read_data s.body copyBufferSize ready report
    have hall : s.relayed ++ (j.read s.body copyBufferSize ready report).1 ++
        (j.read s.body copyBufferSize ready report).2.2.1.front ++
        (j.read s.body copyBufferSize ready report).2.2.2.data = data := by
      rw [append_assoc, append_assoc, ← append_assoc _ _ (Reader.data _), hdata, ← append_assoc]
      exact hwhole
    refine { h with whole := ?_, ending := ?_, attached := ?_, source := ?_, held := hnotHeld, reading := ?_, told := ?_ }
    · rw [pending_detached (by exact hatt), append_nil]
      exact hall
    · exact (j.read_final s.body _ ready report).trans h.ending
    · intro hno
      cases hatt.symm.trans hno
    · rintro j' hj'
      cases hj'
      exact hsound.read j s.body copyBufferSize ready report
    · exact nofun
    · intro e he
      obtain ⟨hfinal, hfront, hnil⟩ := j.read_end s.body _ ready report hsound he
      refine ⟨hfinal.trans h.ending, ?_⟩
      rw [hfront, hnil, append_nil, append_nil] at hall
      exact hall

/-- Before the relay nothing is read for it. -/
theorem not_reading (hpc : s.pc ≠ .relaying) : s.relayReading = false := by
  by_contra hreading
  exact hpc (h.reading (eq_true_of_not_eq_false hreading))

/-- The request's goroutine goes on, and the body stays where it is. -/
theorem moved {pc : HeldPc} (hheld : pc ≠ .held)
    (hwaiting : pc = .waiting ∨ pc = .joining → s.attached = true)
    (hrelaying : pc = .relaying → s.attached = false) (hidle : s.relayReading = false) :
    ({ s with pc := pc } : HeldBody ε).Intact data final :=
  { h with
    held := fun hpc => absurd hpc hheld
    waiting := hwaiting
    relaying := hrelaying
    reading := fun hreading => by cases hidle.symm.trans hreading }

theorem stepRequest (ht : s.stepRequest a = some t) : t.Intact data final := by
  have hidle : ∀ {pc : HeldPc}, s.pc = pc → pc ≠ .relaying → s.relayReading = false :=
    fun hpc hne =>
    h.not_reading (by rw [hpc]; exact hne)
  revert ht
  fun_cases HeldBody.stepRequest s a <;> intro ht <;> cases ht
  next hpc =>
    obtain ⟨hatt, hsrc, hnone, hend⟩ := h.held hpc
    have hwhole := h.whole
    rw [pending_detached hatt] at hwhole
    refine { h with whole := hwhole, attached := fun _ => ⟨hsrc, hnone, hend⟩, detached := nofun, closed := ?_,
                    held := nofun, waiting := fun _ => rfl, relaying := nofun, reading := ?_ }
    · rintro p hp hdone
      cases hp
      cases hdone
    · intro hreading
      cases (hidle hpc nofun).symm.trans hreading
  next hpc => exact h.moved nofun (by simp) nofun (hidle hpc nofun)
  next hp hover =>
    exact h.putBack hp hover.2 (h.waiting (.inl hover.1)) (.inl rfl) (hidle hover.1 nofun)
  next hpc => exact h.moved nofun (by simp) nofun (hidle hpc nofun)
  next found hpc =>
    refine h.moved ?_ ?_ ?_ (hidle hpc nofun)
    all_goals cases found <;> cases s.attached <;> simp
  next hp hover =>
    exact h.putBack hp hover.2 (h.waiting (.inr hover.1)) (.inr rfl) (hidle hover.1 nofun)
  next hpc => exact { h with reading := fun _ => hpc.1 }
  next ready report hreading => exact h.relayGot hreading ready report

theorem step (ht : s.step a = some t) : t.Intact data final := by
  cases a with
  | peekRead | peekGot ready report | peekClose =>
    obtain ⟨p, hp, ht⟩ := Option.bind_eq_some_iff.mp ht
    exact h.stepPeek hp ht
  | _ =>
    simp only [HeldBody.step] at ht
    exact h.stepRequest ht

end

end Intact

/-- **The peek is invisible.** In every run of the request, the peek's goroutine and the worker's
body, however the bytes arrive and whenever the wait runs out: the two never read the body at the
same time, what the relay has read is the first part of the body, and a relay that is told an end
has read all of it and is told the body's own end. -/
theorem peek_invisible (data : List UInt8) (final : ReadEnd ε) {s : HeldBody ε}
    (h : Machine.Reach HeldBody.step (start data final) s) :
    ¬ (s.peekReading = true ∧ s.relayReading = true) ∧ s.relayed <+: data ∧
      ∀ e, s.relayEnd = some e → e = final ∧ s.relayed = data := by
  have hintact : s.Intact data final :=
    h.invariant (P := Intact data final) (.start data final) fun _ _ _ hs ht => hs.step ht
  refine ⟨fun ⟨hpeek, hrelay⟩ => ?_, ?_, hintact.told⟩
  · have hatt := hintact.relaying (hintact.reading hrelay)
    unfold peekReading at hpeek
    cases hp : s.peek with
    | none =>
      rw [hp] at hpeek
      cases hpeek
    | some p =>
      rw [hp] at hpeek
      cases (hintact.closed p hp (hintact.detached hatt p hp)).symm.trans hpeek
  · rw [← hintact.whole, append_assoc, append_assoc]
    exact prefix_append _ _

/-- Two bytes of `busy` have been peeked when the wait runs out. No other worker takes the retry,
the goroutine reads the rest while the request waits for it, and the relay reads the put-back bytes
and the end. -/
def lateJoin : List HeldAct :=
  [.peek, .peekRead, .peekGot 2 false, .peekRead, .timeout, .route false, .peekGot 5 false,
    .peekRead, .peekGot 0 true,
    .peekClose, .join, .relayRead, .relayGot 0 false, .relayRead, .relayGot 0 false]

theorem peek_invisible_late_join :
    ∃ s, Machine.runActs step (start [98, 117, 115, 121] (.eof : ReadEnd Unit)) lateJoin = some s ∧
      s.pc = .relaying ∧ s.relayEnd = some .eof ∧ s.relayed = [98, 117, 115, 121] := by
  refine ⟨_, rfl, rfl, rfl, ?_⟩
  have hreach : Machine.Reach step (start [98, 117, 115, 121] (.eof : ReadEnd Unit)) _ :=
    Machine.reach_of_runActs .refl lateJoin rfl
  exact ((peek_invisible [98, 117, 115, 121] .eof hreach).2.2 .eof rfl).2

end HeldBody

end ServerFlow.Gateway
