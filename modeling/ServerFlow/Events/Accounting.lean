import ServerFlow.Events.Publisher

/-!
# Events.Accounting

When does the publisher count every event once?

An event on its way is in one place: with the call that offers it, in the buffer, with the drain
goroutine, or with the sink. `Close` takes over what it finds in the buffer and in flight. The count
is right if nothing is between two places when it looks (`Sys.within`): no `Enqueue` is between its
check of `closed` and its send when the drain goroutine ends, the drain goroutine has ended when
`Close` gives up, and no acknowledgement falls between its in-flight count and its look at
`abandoned` while `Close` reads the in-flight count.

The code does not see to any of this, and events are lost from the count: an `Enqueue` that has
found the publisher open can put its event in the buffer after `Close` has returned.
-/

namespace ServerFlow.Events

open List

variable {E : Type} {pc : ClosePc}

def EnqueuePc.isSending : EnqueuePc → Bool
  | .sending => true
  | _ => false

def AckPc.isPending : AckPc → Bool
  | .pending => true
  | _ => false

def AckPc.isLanded : AckPc → Bool
  | .landed _ => true
  | _ => false

def AckPc.isCounting : AckPc → Bool
  | .counting _ => true
  | _ => false

/-- The drain goroutine has ended. -/
def Sys.drained (s : Sys E) : Bool := s.drain.isFinished

/-- Nothing is between two places when the drain goroutine ends and when `Close` counts what is
left. -/
def Sys.within (s : Sys E) : Act E → Bool
  | .drain .exit => s.calls.all fun c => !c.2.isSending
  | .close =>
    match s.close with
    | .givingUp => s.drained && s.acks.all fun a => !a.isLanded
    | _ => true
  | .ack _ _ =>
    match s.close with
    | .abandoned => false
    | .measured _ => false
    | _ => true
  | _ => true

def Sys.stepWithin (encodes : E → Bool) (s : Sys E) (act : Act E) : Option (Sys E) :=
  if s.within act then s.step encodes act else none

/-! ### Where the uncounted events are -/

/-- The call has not ended: it still has its event. -/
def isOffering (c : E × EnqueuePc) : Bool := !c.2.isDone

def isSendingCall (c : E × EnqueuePc) : Bool := c.2.isSending

def Sys.offering (s : Sys E) : Nat := s.calls.countP isOffering

def Sys.sending (s : Sys E) : Nat := s.calls.countP isSendingCall

/-- The event the drain goroutine has taken from the buffer and not counted or handed on. -/
def DrainPc.held : DrainPc E → Nat
  | .idle _ => 0
  | .finished => 0
  | _ => 1

/-- One if the drain goroutine has counted a record in flight that the sink has not taken. -/
def DrainPc.inHand : DrainPc E → Nat
  | .producing _ => 1
  | .refused _ _ => 1
  | _ => 0

/-- It has seen `stop`. -/
def DrainPc.last : DrainPc E → Bool
  | .idle last => last
  | .holding last _ => last
  | .producing last => last
  | .refused last _ => last
  | .dropping last _ => last
  | .finished => true

def Sys.pending (s : Sys E) : Nat := s.acks.countP AckPc.isPending

def Sys.landed (s : Sys E) : Nat := s.acks.countP AckPc.isLanded

def Sys.counting (s : Sys E) : Nat := s.acks.countP AckPc.isCounting

/-- `Close` has set `abandoned`. -/
def ClosePc.gaveUp : ClosePc → Bool
  | .abandoned => true
  | .measured _ => true
  | .dropping _ => true
  | .returned => true
  | _ => false

/-- `Close` has read what is left: acknowledgements that come later change nothing. -/
def ClosePc.hasRead : ClosePc → Bool
  | .dropping _ => true
  | .returned => true
  | _ => false

/-- What `Close` has read and not counted. -/
def ClosePc.lost : ClosePc → Nat
  | .dropping lost => lost
  | _ => 0

/-- The events that are not counted yet. -/
def Sys.owed (s : Sys E) : Nat :=
  s.offering + s.counting + s.close.lost +
    bif s.close.hasRead then 0 else s.ch.length + s.drain.held + s.pending + s.landed

structure Inv (s : Sys E) : Prop where
  balance : s.calls.length = s.owed + s.published + s.failed
  inflight : s.close.hasRead = false → s.inflight = s.pending + s.drain.inHand
  stop : s.stop = true → s.closed = true
  last : s.drain.last = true → s.closed = true
  /-- Once the drain goroutine has ended nothing comes into the buffer. -/
  drained : s.drained = true → s.ch = [] ∧ s.sending = 0
  abandoned : s.abandoned = s.close.gaveUp
  gaveUp : s.close.gaveUp = true → s.drained = true
  closing : s.close ≠ .idle → s.closed = true
  /-- While `Close` reads what is left no acknowledgement is under way. -/
  reading : s.close.gaveUp = true → s.close.hasRead = false → s.landed = 0
  measured : ∀ n, s.close = .measured n → n = 0

@[simp] theorem failed_drop (s : Sys E) (r : Reason) (n : Nat) :
    (s.drop r n).failed = s.failed + n := by
  cases r <;> simp [Sys.failed, Sys.drop, Function.update] <;> omega

theorem inv_start (bufferSize : Int) : Inv (.start bufferSize : Sys E) :=
  ⟨rfl, fun _ => rfl, nofun, nofun, nofun, rfl, nofun, fun h => absurd rfl h, nofun, nofun⟩

/-! ### The steps -/

section Step

variable {s t : Sys E} {f : Reason → Nat} {i c : Nat} {ev : E}

theorem Inv.offer (h : Inv s) (ev : E) : Inv { s with calls := s.calls ++ [(ev, .start)] } := by
  have hone := Table.countP_concat s.calls (ev, EnqueuePc.start)
  refine { h with balance := ?_, drained := fun hd => ⟨(h.drained hd).1, (hone _).trans (h.drained hd).2⟩ }
  have hb := h.balance
  have hoff : (isOffering (ev, EnqueuePc.start)).toNat = 1 := rfl
  simp only [Sys.owed, Sys.offering, Sys.counting, Sys.pending, Sys.landed, Sys.failed,
    length_append, length_singleton, hone, hoff] at hb ⊢
  omega

theorem drain_of_drained (hd : s.drained = true) : s.drain = .finished := by
  cases hdr : s.drain <;> simp [Sys.drained, DrainPc.isFinished, hdr] at hd
  rfl

theorem Inv.closed_of_drained (h : Inv s) (hd : s.drained = true) : s.closed = true :=
  h.last (by rw [drain_of_drained hd]; rfl)

theorem gaveUp_of_hasRead (h : pc.hasRead = true) : pc.gaveUp = true := by
  cases pc <;> first | rfl | cases h

/-- While the drain goroutine runs `Close` has not given up. -/
theorem Inv.gaveUp_eq_false (h : Inv s) (hd : s.drained = false) : s.close.gaveUp = false := by
  cases hg : s.close.gaveUp with
  | false => rfl
  | true =>
    rw [h.gaveUp hg] at hd
    cases hd

theorem hasRead_eq_false (h : pc.gaveUp = false) : pc.hasRead = false := by
  cases hr : pc.hasRead with
  | false => rfl
  | true =>
    rw [gaveUp_of_hasRead hr] at h
    cases h

section

variable (h : Inv s)
include h

/-- A call goes from one program counter to the next; its event may move to the buffer or to a
count. -/
theorem Inv.callMoves {pc : EnqueuePc}
    (hc : s.calls[c]? = some (ev, pc)) (pc' : EnqueuePc) {ch : List E}
    (hmoved : (!pc'.isDone).toNat + (bif s.close.hasRead then 0 else ch.length) +
        ({ s with failures := f } : Sys E).failed =
      (!pc.isDone).toNat + (bif s.close.hasRead then 0 else s.ch.length) + s.failed)
    (hdrained : s.drained = true → ch = s.ch ∧ (pc'.isSending = true → pc.isSending = true)) :
    Inv { s with ch := ch, failures := f, calls := s.calls.set c (ev, pc') } := by
  refine { h with balance := ?_, drained := fun hd => ?_ }
  · have hoff := Table.countP_set hc (ev, pc') isOffering
    have hb := h.balance
    simp only [isOffering, Sys.owed, Sys.offering, Sys.counting, Sys.pending, Sys.landed,
      Sys.failed, length_set] at hoff hb hmoved ⊢
    cases hr : s.close.hasRead <;> simp only [hr, cond_false, cond_true] at hb hmoved ⊢ <;> omega
  · obtain ⟨hch, hzero⟩ := h.drained hd
    obtain ⟨rfl, hsend⟩ := hdrained hd
    refine ⟨hch, ?_⟩
    have hcount := Table.countP_set hc (ev, pc') isSendingCall
    have hle : (isSendingCall (ev, pc')).toNat ≤ (isSendingCall (ev, pc)).toNat :=
      Bool.toNat_le_toNat hsend
    simp only [Sys.sending] at hzero ⊢
    omega

/-- A call that is at its send: the drain goroutine has not ended. -/
theorem Inv.not_drained_of_sending
    (hc : s.calls[c]? = some (ev, .sending)) : s.drained = false := by
  cases hd : s.drained with
  | false => rfl
  | true =>
    have hpos := Table.countP_pos_of_getElem? (f := isSendingCall) hc rfl
    have hzero := (h.drained hd).2
    simp only [Sys.sending] at hzero
    omega

theorem Inv.enqueue {pc : EnqueuePc}
    (hc : s.calls[c]? = some (ev, pc)) (hs : s.enqueue c ev pc = some t) : Inv t := by
  cases pc with
  | start =>
    cases hs
    refine h.callMoves hc _ ?_ fun hd => ⟨rfl, ?_⟩
    · split <;> rfl
    · rw [if_pos (h.closed_of_drained hd)]
      nofun
  | sending =>
    -- If the drain goroutine had ended no call would be here.
    have hd := h.not_drained_of_sending hc
    have hno : ∀ {p : Prop}, s.drained = true → p := fun hd' => by cases hd.symm.trans hd'
    simp only [Sys.enqueue] at hs
    split at hs <;> cases hs
    · refine h.callMoves hc _ ?_ hno
      simp only [hasRead_eq_false (h.gaveUp_eq_false hd), cond_false, EnqueuePc.isDone,
        Bool.not_true, Bool.not_false,
        Bool.toNat_true, Bool.toNat_false, length_append, length_singleton, Sys.failed]
      omega
    · exact h.callMoves hc _ rfl hno
  | dropping r =>
    cases hs
    refine h.callMoves hc _ ?_ fun _ => ⟨rfl, nofun⟩
    have hfailed := failed_drop s r 1
    simp only [Sys.drop, EnqueuePc.isDone, Bool.not_true, Bool.not_false, Bool.toNat_true,
      Bool.toNat_false] at hfailed ⊢
    omega
  | done accepted => cases hs

/-- A step of the drain goroutine, which has not ended. The in-flight count moves with what it has
in hand. -/
theorem Inv.drainMoves {pc pc' : DrainPc E} (hdr : s.drain = pc) (hpc : pc.isFinished = false)
    {ch : List E} {n : Int} {acks : List AckPc} (hlanded : acks.countP AckPc.isLanded = s.landed)
    (hcounting : acks.countP AckPc.isCounting = s.counting)
    (hlast : pc'.last = true → pc.last = true ∨ s.stop = true)
    (hmoved : ch.length + pc'.held + acks.countP AckPc.isPending +
      ({ s with failures := f } : Sys E).failed =
      s.ch.length + pc.held + s.pending + s.failed)
    (hinflight : n - acks.countP AckPc.isPending - pc'.inHand = s.inflight - s.pending - pc.inHand)
    (hended : pc'.isFinished = true → ch = [] ∧ s.sending = 0) :
    Inv { s with ch := ch, inflight := n, failures := f, drain := pc', acks := acks } := by
  have hgave := h.gaveUp_eq_false (show s.drain.isFinished = false by rw [hdr]; exact hpc)
  have hread := hasRead_eq_false hgave
  refine { h with
    balance := ?_
    inflight := fun _ => ?_
    last := fun hl => (hlast hl).elim (fun hl => h.last (by rw [hdr]; exact hl)) h.stop
    drained := hended
    gaveUp := fun hf => absurd (hgave.symm.trans hf) (by simp)
    reading := fun hf => absurd (hgave.symm.trans hf) (by simp) }
  · have hb := h.balance
    simp only [Sys.owed, Sys.offering, Sys.failed, Sys.counting, Sys.pending, Sys.landed, hread,
      hdr, cond_false] at hb hmoved hlanded hcounting ⊢
    omega
  · have hi := h.inflight hread
    rw [hdr] at hi
    simp only [Sys.pending] at hi hinflight ⊢
    omega

theorem Inv.drain {encodes : E → Bool} {a : DrainAct}
    (hw : s.within (.drain a) = true) (hs : s.drainStep encodes a = some t) : Inv t := by
  revert hs
  fun_cases Sys.drainStep encodes s a <;> intro hs <;> cases hs
  next hch hdr => exact h.drainMoves hdr rfl rfl rfl .inl (by rw [hch]; rfl) rfl nofun
  next hdr hstop => exact h.drainMoves hdr rfl rfl rfl (fun _ => .inr hstop) rfl rfl nofun
  next hch hdr =>
    refine h.drainMoves hdr rfl rfl rfl (fun _ => .inl rfl) rfl rfl fun _ => ⟨hch, ?_⟩
    -- No call is at its send.
    have hall := all_eq_true.mp hw
    refine countP_eq_zero.mpr fun c hc => ?_
    simpa [isSendingCall] using hall c hc
  next hdr _ =>
    refine h.drainMoves hdr rfl rfl rfl .inl rfl ?_ nofun
    simp only [DrainPc.inHand, Sys.pending]
    omega
  next hdr _ => exact h.drainMoves hdr rfl rfl rfl .inl rfl rfl nofun
  next hdr =>
    have hone := Table.countP_concat s.acks .pending
    refine h.drainMoves hdr rfl (hone AckPc.isLanded) (hone AckPc.isCounting) .inl ?_ ?_ nofun <;>
      simp only [DrainPc.held, DrainPc.inHand, Sys.pending, Sys.failed, hone, AckPc.isPending,
        Bool.toNat_true] <;>
      omega
  next hdr => exact h.drainMoves hdr rfl rfl rfl .inl rfl rfl nofun
  next hdr => exact h.drainMoves hdr rfl rfl rfl .inl rfl rfl nofun
  next hdr =>
    refine h.drainMoves hdr rfl rfl rfl .inl rfl ?_ nofun
    simp only [DrainPc.inHand, Sys.pending]
    omega
  next r hdr =>
    refine h.drainMoves hdr rfl rfl rfl .inl ?_ rfl nofun
    have hfailed := failed_drop s r 1
    simp only [Sys.drop, DrainPc.held, Sys.pending] at hfailed ⊢
    omega

/-- An acknowledgement goes on. Once `Close` has read what is left, only its count matters. -/
theorem Inv.ackMoves {pc : AckPc} (hi : s.acks[i]? = some pc) (pc' : AckPc) {m : Int} {n : Nat}
    (hmoved : pc'.isCounting.toNat +
      (bif s.close.hasRead then 0 else pc'.isPending.toNat + pc'.isLanded.toNat) + n +
        ({ s with failures := f } : Sys E).failed =
      pc.isCounting.toNat +
        (bif s.close.hasRead then 0 else pc.isPending.toNat + pc.isLanded.toNat) + s.published +
        s.failed)
    (hinflight : s.close.hasRead = false →
      m - pc'.isPending.toNat = s.inflight - pc.isPending.toNat)

    (hreading : s.close.gaveUp = true → s.close.hasRead = false →
      pc'.isLanded.toNat ≤ pc.isLanded.toNat) :
    Inv { s with inflight := m, published := n, failures := f, acks := s.acks.set i pc' } := by
  have hpend := Table.countP_set hi pc' AckPc.isPending
  have hland := Table.countP_set hi pc' AckPc.isLanded
  have hcount := Table.countP_set hi pc' AckPc.isCounting
  refine { h with balance := ?_, inflight := fun hread => ?_, reading := fun hgave hread => ?_ }
  · have hb := h.balance
    simp only [Sys.owed, Sys.offering, Sys.counting, Sys.pending, Sys.landed, Sys.failed] at hb hmoved ⊢
    cases hr : s.close.hasRead <;> simp only [hr, cond_false, cond_true] at hb hmoved ⊢ <;> omega
  · have hi := h.inflight hread
    have hm := hinflight hread
    simp only [Sys.pending] at hi ⊢
    omega
  · have hzero := h.reading hgave hread
    have hle := hreading hgave hread
    simp only [Sys.landed] at hzero ⊢
    omega

theorem Inv.ack (hi : s.acks[i]? = some .pending) (ok : Bool)
    (hw : s.within (.ack i ok) = true) :
    Inv { s with inflight := s.inflight - 1, acks := s.acks.set i (.landed ok) } := by
  refine h.ackMoves hi (.landed ok) rfl (fun _ => ?_) fun hgave hread => ?_
  · simp only [AckPc.isPending, Bool.toNat_true, Bool.toNat_false]
    omega
  · -- `Close` does not read the in-flight count now.
    exfalso
    cases hc : s.close <;> simp [Sys.within, hc] at hw hgave hread <;>
      simp [ClosePc.gaveUp, ClosePc.hasRead] at hgave hread

/-- An acknowledgement after `Close` has given up: `Close` has counted its record. -/
theorem Inv.landedLate {ok : Bool} (hi : s.acks[i]? = some (.landed ok))
    (hab : s.abandoned = true) : Inv { s with acks := s.acks.set i .done } := by
  have hone : 0 < s.landed := Table.countP_pos_of_getElem? (f := AckPc.isLanded) hi rfl
  have hread : s.close.hasRead = true := by
    by_contra hr
    have := h.reading (h.abandoned.symm.trans hab) (Bool.eq_false_of_not_eq_true hr)
    omega
  exact h.ackMoves hi .done (by rw [hread]; rfl) (fun _ => rfl) fun _ _ => Nat.zero_le _

theorem Inv.counted {ok : Bool} (hi : s.acks[i]? = some (.counting ok)) {n : Nat}
    (hone : n + ({ s with failures := f } : Sys E).failed = s.published + s.failed + 1) :
    Inv { s with published := n, failures := f, acks := s.acks.set i .done } := by
  refine h.ackMoves hi .done ?_ (fun _ => rfl) fun _ _ => Nat.zero_le _
  simp only [AckPc.isCounting, AckPc.isPending, AckPc.isLanded, Bool.toNat_true, Bool.toNat_false]
  omega

theorem Inv.delivered {pc : AckPc} (hi : s.acks[i]? = some pc)
    (hs : s.deliveredStep i pc = some t) : Inv t := by
  cases pc with
  | pending => cases hs
  | landed ok =>
    cases hs
    split
    · next hab => exact h.landedLate hi hab
    · next hab =>
      have hread := hasRead_eq_false (h.abandoned.symm.trans (Bool.eq_false_of_not_eq_true hab))
      exact h.ackMoves hi _ (by rw [hread]; rfl) (fun _ => rfl) fun _ _ => Nat.zero_le _
  | counting ok =>
    cases ok with
    | true =>
      cases hs
      refine h.counted hi ?_
      simp only [Sys.failed]
      omega
    | false =>
      cases hs
      refine h.counted hi ?_
      have hfailed := failed_drop s .deliveryFailed 1
      simp only [Sys.drop] at hfailed ⊢
      omega
  | done => cases hs

/-- `Close` goes on, without giving up yet. -/
theorem Inv.closeMoves (hnow : s.close.gaveUp = false)
    (hpc : pc.gaveUp = false) {closed : Bool} (stop : Bool) (hclosed : closed = true) :
    Inv { s with closed := closed, stop := stop, close := pc } := by
  have hread := hasRead_eq_false hnow
  have hread' := hasRead_eq_false hpc
  have hlost : ∀ q : ClosePc, q.gaveUp = false → q.lost = 0 := by
    intro q hq
    cases q <;> first | rfl | cases hq
  refine ⟨?_, fun _ => h.inflight hread, fun _ => hclosed, fun _ => hclosed, h.drained, ?_, ?_, ?_,
    ?_, ?_⟩
  · have hb := h.balance
    simp only [Sys.owed, Sys.offering, Sys.counting, Sys.pending, Sys.landed, Sys.failed, hread,
      hread', hlost _ hnow, hlost _ hpc] at hb ⊢
    exact hb
  · exact (h.abandoned.trans hnow).trans hpc.symm
  · exact fun hf => absurd (hpc.symm.trans hf) (by simp)
  · exact fun _ => hclosed
  · exact fun hf => absurd (hpc.symm.trans hf) (by simp)
  · intro n hn
    rw [show pc = .measured n from hn] at hpc
    cases hpc

/-- `Close` counts what it has read. -/
theorem Inv.returns {lost : Nat} (hc : s.close = .dropping lost)
    (hf : ({ s with failures := f } : Sys E).failed = s.failed + lost) :
    Inv { s with failures := f, close := .returned } := by
  have hgave : s.close.gaveUp = true := by rw [hc]; rfl
  refine { h with
    balance := ?_
    inflight := nofun
    abandoned := h.abandoned.trans hgave
    gaveUp := fun _ => h.gaveUp hgave
    closing := fun _ => h.closing (by rw [hc]; simp)
    reading := nofun
    measured := nofun }
  have hb := h.balance
  simp only [Sys.owed, Sys.failed, hc, ClosePc.lost, ClosePc.hasRead, cond_true] at hb hf ⊢
  simp only [Sys.offering, Sys.counting] at hb ⊢
  omega

theorem Inv.close (hw : s.within .close = true) (hs : s.closeStep = some t) : Inv t := by
  have hb := h.balance
  have hclosed : ∀ {pc : ClosePc}, s.close = pc → pc ≠ .idle → s.closed = true := fun hc hne =>
    h.closing (by rw [hc]; exact hne)
  revert hs
  fun_cases Sys.closeStep s <;> intro hs <;> cases hs
  next hc => exact h.closeMoves (by rw [hc]; rfl) rfl s.stop rfl
  next hc => exact h.closeMoves (by rw [hc]; rfl) rfl true (hclosed hc (by simp))
  next hc _ => exact h.closeMoves (by rw [hc]; rfl) rfl s.stop (hclosed hc (by simp))
  next hc => exact h.closeMoves (by rw [hc]; rfl) rfl s.stop (hclosed hc (by simp))
  next hc =>
    -- `Close` gives up: nothing is between two places.
    simp only [Sys.within, hc, Bool.and_eq_true] at hw
    obtain ⟨hd, hland⟩ := hw
    have hzero : s.landed = 0 := by
      refine countP_eq_zero.mpr fun a ha => ?_
      simpa using all_eq_true.mp hland a ha
    rw [Sys.owed, hc] at hb
    exact ⟨hb, fun _ => h.inflight (by rw [hc]; rfl), h.stop, h.last, h.drained, rfl, fun _ => hd,
      fun _ => hclosed hc (by simp), fun _ _ => hzero, nofun⟩
  next hc =>
    have hgave : s.close.gaveUp = true := by rw [hc]; rfl
    have hd := h.gaveUp hgave
    rw [Sys.owed, hc] at hb
    refine ⟨hb, fun _ => h.inflight (by rw [hc]; rfl), h.stop, h.last, h.drained,
      h.abandoned.trans hgave, fun _ => hd, fun _ => hclosed hc (by simp),
      fun _ _ => h.reading hgave (by rw [hc]; rfl), fun n hn => ?_⟩
    cases hn
    rw [(h.drained hd).1]
    rfl
  next n hc =>
    -- The in-flight count is what the sink has not acknowledged.
    have hgave : s.close.gaveUp = true := by rw [hc]; rfl
    have hread : s.close.hasRead = false := by rw [hc]; rfl
    have hd := h.gaveUp hgave
    have hn := h.measured n hc
    have hinfl := h.inflight hread
    have hland := h.reading hgave hread
    have hch := (h.drained hd).1
    rw [drain_of_drained hd] at hinfl
    refine ⟨?_, nofun, h.stop, h.last, h.drained, h.abandoned.trans hgave, fun _ => hd,
      fun _ => hclosed hc (by simp), nofun, nofun⟩
    simp only [Sys.owed, cond_false, hch, hland, drain_of_drained hd, DrainPc.held, hc,
      ClosePc.lost, ClosePc.hasRead, length_nil, DrainPc.inHand] at hb hinfl ⊢
    simp only [Sys.offering, Sys.counting, Sys.pending, Sys.failed, cond_true] at hb hinfl ⊢
    omega
  next lost hc =>
    split
    · exact h.returns hc (failed_drop s _ _)
    next hlost =>
      refine h.returns hc ?_
      simp only [Sys.failed]
      omega

theorem Inv.step {encodes : E → Bool} {act : Act E}
    (hs : s.stepWithin encodes act = some t) : Inv t := by
  rw [Sys.stepWithin, Option.ite_none_right_eq_some] at hs
  obtain ⟨hw, hs⟩ := hs
  revert hs
  fun_cases Sys.step encodes s act <;> intro hs
  next ev =>
    cases hs
    exact h.offer ev
  next hc => exact h.enqueue hc hs
  next => cases hs
  next => exact h.drain hw hs
  next hi =>
    cases hs
    exact h.ack hi _ hw
  next => cases hs
  next hi => exact h.delivered hi hs
  next => cases hs
  next => exact h.close hw hs
  next hc =>
    cases hs
    exact h.closeMoves (by rw [hc]; rfl) rfl s.stop (h.closing (by rw [hc]; simp))
  next => cases hs

end

end Step

/-! ### The result -/

/-- **Accounting.** In every run in which nothing is between two places when the drain goroutine
ends and when `Close` counts what is left: once everything has ended, every event offered to
`Enqueue` is counted once, as published or under one of the reasons. -/
theorem events_accounted {encodes : E → Bool} {bufferSize : Int} {s : Sys E}
    (h : Machine.Reach (Sys.stepWithin encodes) (.start bufferSize) s) (hq : s.quiescent = true) :
    s.Accounted := by
  have hinv : Inv s := h.invariant (inv_start bufferSize) fun _ _ _ hs hstep => hs.step hstep
  simp only [Sys.quiescent, Bool.and_eq_true, decide_eq_true_eq] at hq
  obtain ⟨⟨⟨hclose, -⟩, hcalls⟩, hacks⟩ := hq
  have hoff : s.offering = 0 := by
    refine countP_eq_zero.mpr fun c hc => ?_
    simpa [isOffering] using all_eq_true.mp hcalls c hc
  have hcount : s.counting = 0 := by
    refine countP_eq_zero.mpr fun a ha => ?_
    have hrest := all_eq_true.mp hacks a ha
    cases a <;> first | (simp [AckPc.isCounting]; done) | cases hrest
  have hb := hinv.balance
  rw [Sys.owed, hclose, hoff, hcount] at hb
  simpa [Sys.Accounted, ClosePc.lost, ClosePc.hasRead] using hb

/-- One event is published; another is offered after the close, and dropped. -/
def orderlyRun : List (Act Unit) :=
  [.offer (), .enqueue 0, .enqueue 0, .drain .receive, .drain .encode, .drain (.produce .ok),
    .ack 0 true, .delivered 0, .delivered 0, .close, .close, .drain .seeStop, .drain .exit, .close,
    .offer (), .enqueue 1, .enqueue 1, .close, .close, .close, .close, .close]

theorem events_accounted_orderly_close :
    ∃ s : Sys Unit, Machine.runActs (Sys.stepWithin fun _ => true) (.start 8) orderlyRun = some s ∧
      s.quiescent = true ∧ s.calls.length = 2 ∧ s.published = 1 ∧ s.failed = 1 ∧ s.Accounted := by
  obtain ⟨s, hs, hq, hlen, hpub, hfailed⟩ :
      ∃ s ∈ Machine.runActs (Sys.stepWithin fun _ => true) (.start 8) orderlyRun,
        s.quiescent = true ∧ s.calls.length = 2 ∧ s.published = 1 ∧ s.failed = 1 := by
    decide +kernel
  exact ⟨s, hs, hq, hlen, hpub, hfailed,
    events_accounted (Machine.reach_of_runActs .refl orderlyRun hs) hq⟩

/-- `Enqueue` finds the publisher open; `Close` runs to its end; `Enqueue` puts its event in the
buffer. -/
def lateSend : List (Act Unit) :=
  [.offer (), .enqueue 0, .close, .close, .drain .seeStop, .drain .exit, .close, .close, .close,
    .close, .close, .close, .enqueue 0]

/-- The event of that run was accepted, and is never counted. -/
theorem accepted_event_uncounted : ∃ s : Sys Unit,
    Machine.Reach (Sys.step fun _ => true) (.start 8) s ∧ s.quiescent = true ∧
      s.calls = [((), .done true)] ∧ s.published + s.failed = 0 := by
  obtain ⟨s, hs, hfacts⟩ : ∃ s ∈ Machine.runActs (Sys.step fun _ => true) (.start 8) lateSend,
      s.quiescent = true ∧ s.calls = [((), .done true)] ∧ s.published + s.failed = 0 := by
    decide +kernel
  exact ⟨s, Machine.reach_of_runActs .refl lateSend hs, hfacts⟩

end ServerFlow.Events
