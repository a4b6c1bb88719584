import ServerFlow.Resilience.QueueInvariant

/-!
# Resilience.QueueHandoff

No slot is lost in the queue: a value that `Handoff` accepted reaches the waiter that was first
in the model's queue, and that waiter obtains it exactly once.
-/

namespace ServerFlow.Resilience

open List Function

variable {α : Type}

/-! ### Delivery -/

theorem leave_ch (q : Queue α) (w : Nat) (giveBack : Bool) :
    ((q.leave w giveBack).1.heap w).ch = none := by
  simp only [Queue.leave]
  split <;> simp [Queue.drain]

/-- Values are only added to what was accepted for a waiter, and only the waiter's own goroutine
obtains them, which leaves its channel empty. -/
theorem step_logs {s t : QueueSys α} {a : QueueAct α} (ha : s.step a = some t) (w : Nat) :
    s.given w <+: t.given w ∧ (t.got w = s.got w ∨ a = .recv w ∨ a = .leave w) ∧
      (a = .recv w ∨ a = .leave w → (t.q.heap w).ch = none) := by
  have hlogged : ∀ (log : Nat → List α) (x : Nat) (vs : List α),
      log w <+: logged log x vs w ∧ (logged log x vs w = log w ∨ x = w) := by
    intro log x vs
    by_cases hx : w = x
    · subst hx
      rw [logged, update_self]
      exact ⟨prefix_append _ _, .inr rfl⟩
    · rw [logged, update_of_ne hx]
      exact ⟨prefix_rfl, .inl rfl⟩
  have hother : ∀ {t : QueueSys α} {a : QueueAct α}, t.given = s.given → t.got = s.got →
    a ≠ .recv w →
      a ≠ .leave w → s.given w <+: t.given w ∧ (t.got w = s.got w ∨ a = .recv w ∨ a = .leave w) ∧
        (a = .recv w ∨ a = .leave w → (t.q.heap w).ch = none) := by
    intro t a hgiven hgot hrecv hleave
    rw [hgiven, hgot]
    exact ⟨prefix_rfl, .inl rfl, fun h => absurd h (not_or.mpr ⟨hrecv, hleave⟩)⟩
  revert ha
  fun_cases QueueSys.step s a <;> intro ha <;> cases ha
  case case2 model v r =>
    refine ⟨?_, .inl rfl, fun h => (by rcases h with h | h <;> cases h)⟩
    show s.given w <+: accepted s.given v (s.q.handoff model v).2 (s.q.waitersOf model) w
    cases (s.q.handoff model v).2 with
    | false => exact prefix_rfl
    | true =>
      cases s.q.waitersOf model with
      | nil => exact prefix_rfl
      | cons head _ => exact (hlogged s.given head [v]).1
  case case6 x _ g _ =>
    refine ⟨prefix_rfl, (hlogged s.got x g.value).2.imp_right fun h => .inl (by rw [h]),
      fun h => ?_⟩
    obtain rfl : x = w := by rcases h with h | h <;> cases h; rfl
    simp [Queue.drain]
  case case12 x _ _ =>
    refine ⟨prefix_rfl, (hlogged s.got x _).2.imp_right fun h => .inr (by rw [h]), fun h => ?_⟩
    obtain rfl : x = w := by rcases h with h | h <;> cases h; rfl
    exact leave_ch _ _ _
  all_goals exact hother rfl rfl (fun h => by cases h) fun h => by cases h

/-- A hand-off is accepted only for an idle head. -/
theorem handoff_accepted {q : Queue α} {model : String} {v : α} (h : (q.handoff model v).2 = true) :
    ∃ head rest, q.waitersOf model = head :: rest ∧ (q.heap head).woken = false ∧
      ((q.handoff model v).1.heap head).ch = some (.handoff v) := by
  rcases q.handoff_cases model v with
    ⟨-, heq⟩ | ⟨mq, head, rest, hmq, hws, ⟨-, heq⟩ | ⟨hidle, heq⟩⟩ <;> rw [heq] at h ⊢
  · cases h
  · cases h
  · exact ⟨head, rest, by simp [Queue.waitersOf, hmq, hws], hidle,
      by simp [Queue.send, Waiter.send]⟩

/-- The value that a waiter has not read yet was accepted for it, and it obtained none. -/
theorem QueueOk.pending {s : QueueSys α} (h : QueueOk s) {w : Nat} {v : α}
    (hch : (s.q.heap w).ch = some (.handoff v)) :
    s.given w = [v] ∧ s.got w = [] ∧ s.routing w = false ∧ w < s.q.next := by
  have hcons := (h.waiter w).conserved
  have honce := (h.waiter w).once
  rw [hch, show valueOf (some (Grant.handoff v)) = [v] from rfl] at hcons
  have hgot : s.got w = [] := by
    rw [hcons, length_append, length_singleton] at honce
    exact length_eq_zero_iff.mp (by omega)
  rw [hgot] at hcons
  refine ⟨hcons, hgot, ?_, ?_⟩
  · cases hr : s.routing w with
    | false => rfl
    | true =>
      have := (h.waiter w).clear hr
      rw [hch] at this
      cases this
  · by_contra hge
    rw [(h.fresh w (not_lt.mp hge)).2.1] at hcons
    cases hcons

/-- **Slot conservation.** In every state that any interleaving reaches: what was accepted for a
waiter is at most one value, which is unread in its channel or was obtained by it, and not both. A
`Handoff` that returns true delivers its value to the head waiter, which is not routing, and to
nobody else; one that returns false delivers it to nobody. An unread value is neither overwritten
nor dropped: it stays until its waiter reads the channel or leaves, which it can do at once, and
which obtains the value. -/
theorem handoff_exactly_once (p : QueueParams) {s : QueueSys α}
    (h : Machine.Reach QueueSys.step (QueueSys.start p) s) :
    (∀ w, (s.given w).length ≤ 1 ∧ s.given w = s.got w ++ valueOf (s.q.heap w).ch) ∧
    (∀ model v, (s.q.handoff model v).2 = true → ∃ head rest t,
      s.q.waitersOf model = head :: rest ∧ s.routing head = false ∧
      s.step (.handoff model v) = some t ∧ (t.q.heap head).ch = some (.handoff v) ∧
      t.given head = [v] ∧ ∀ w, w ≠ head →
        t.given w = s.given w ∧ valueOf (t.q.heap w).ch = valueOf (s.q.heap w).ch) ∧
    (∀ model v, (s.q.handoff model v).2 = false → ∃ t, s.step (.handoff model v) = some t ∧
      ∀ w, t.given w = s.given w ∧ valueOf (t.q.heap w).ch = valueOf (s.q.heap w).ch) ∧
    (∀ w v, (s.q.heap w).ch = some (.handoff v) → s.routing w = false ∧
      (∀ a t, s.step a = some t → (t.q.heap w).ch = some (.handoff v) ∨
        (a = .recv w ∨ a = .leave w) ∧ t.got w = [v]) ∧
      (∃ t, s.step (.recv w) = some t ∧ t.got w = [v]) ∧
      ∃ t, s.step (.leave w) = some t ∧ t.got w = [v]) := by
  have hok := queueOk_of_reach h
  -- whoever got nothing new and was given nothing new has the same value unread
  have hsame : ∀ {t : QueueSys α}, QueueOk t → ∀ w, t.given w = s.given w → t.got w = s.got w →
      valueOf (t.q.heap w).ch = valueOf (s.q.heap w).ch := by
    intro t ht w hgiven hgot
    have hcons := (ht.waiter w).conserved
    rw [hgiven, hgot, (hok.waiter w).conserved] at hcons
    exact (append_cancel_left hcons).symm
  -- an unread value that its waiter reads is obtained
  have hread : ∀ w v, (s.q.heap w).ch = some (.handoff v) → ∀ a t, s.step a = some t →
      a = .recv w ∨ a = .leave w → t.got w = [v] := by
    intro w v hch a t ha hown
    obtain ⟨hgiven, -, -, -⟩ := hok.pending hch
    obtain ⟨hpfx, -, hempty⟩ := step_logs ha w
    have ht := (hok.step ha).waiter w
    have hcons := ht.conserved
    rw [hempty hown, show valueOf (none : Option (Grant α)) = [] from rfl, append_nil] at hcons
    rw [← hcons]
    rw [hgiven] at hpfx
    exact (hpfx.eq_of_length_le (by simpa using ht.once)).symm
  refine ⟨fun w => ⟨(hok.waiter w).once, (hok.waiter w).conserved⟩, fun model v hacc => ?_,
    fun model v hrej => ?_, fun w v hch => ?_⟩
  · obtain ⟨head, rest, hws, hidle, hch⟩ := handoff_accepted hacc
    have hstep : s.step (.handoff model v) = some { s with
        q := (s.q.handoff model v).1, given := logged s.given head [v] } := by
      simp only [QueueSys.step, hacc, hws, accepted]
    have ht := hok.step hstep
    have hgiven := (ht.pending hch).1
    have hleft : (s.q.heap head).left = false := by
      obtain ⟨mq, hmq, hws'⟩ : ∃ mq, s.q.models.lookup model = some mq ∧
          mq.waiters = head :: rest := by
        simp only [Queue.waitersOf] at hws
        cases hmq : s.q.models.lookup model with
        | none => simp [hmq] at hws
        | some mq => exact ⟨mq, rfl, by simpa [hmq] using hws⟩
      exact ((hok.listed model mq hmq).2.2 head (by rw [hws']; simp)).2.2
    refine ⟨head, rest, _, hws, (hok.waiter head).not_routing hleft hidle, hstep, hch, hgiven,
      fun w hw => ?_⟩
    have hw' : logged s.given head [v] w = s.given w := by rw [logged, update_of_ne hw]
    exact ⟨hw', hsame ht w hw' rfl⟩
  · have hstep : s.step (.handoff model v) = some { s with q := (s.q.handoff model v).1 } := by
      simp only [QueueSys.step, hrej, accepted]
    exact ⟨_, hstep, fun w => ⟨rfl, hsame (hok.step hstep) w rfl rfl⟩⟩
  · obtain ⟨hgiven, hgot, hrouting, hw⟩ := hok.pending hch
    refine ⟨hrouting, fun a t ha => ?_, ?_, ?_⟩
    · obtain ⟨hpfx, hgot', -⟩ := step_logs ha w
      by_cases hown : a = .recv w ∨ a = .leave w
      · exact .inr ⟨hown, hread w v hch a t ha hown⟩
      · have ht := (hok.step ha).waiter w
        rw [hgiven] at hpfx
        have hgiven' : t.given w = s.given w :=
          hgiven.symm ▸ (hpfx.eq_of_length_le (by simpa using ht.once)).symm
        have hval := hsame (hok.step ha) w hgiven' (hgot'.resolve_right hown)
        rw [hch, show valueOf (some (Grant.handoff v)) = [v] from rfl] at hval
        refine .inl ?_
        cases hch' : (t.q.heap w).ch with
        | none => rw [hch'] at hval; cases hval
        | some g =>
          rw [hch'] at hval
          cases g with
          | handoff u => cases hval; rfl
          | reroute => cases hval
          | flushed => cases hval
    · obtain ⟨t, ht⟩ : ∃ t, s.step (.recv w) = some t := by
        simp only [QueueSys.step, if_neg (not_le.mpr hw), hch]
        exact ⟨_, rfl⟩
      exact ⟨t, ht, hread w v hch _ t ht (.inl rfl)⟩
    · obtain ⟨t, ht⟩ : ∃ t, s.step (.leave w) = some t := by
        simp only [QueueSys.step, if_neg (not_le.mpr hw)]
        exact ⟨_, rfl⟩
      exact ⟨t, ht, hread w v hch _ t ht (.inr rfl)⟩

/-- A hand-off races with the timeout of its waiter: the waiter leaves, and obtains it. -/
theorem handoff_exactly_once_racing_leave :
    let acts : List (QueueAct Nat) := [.enqueue "m" "" 0, .enqueue "m" "" 1, .handoff "m" 7]
    ∃ s, Machine.runActs QueueSys.step (QueueSys.start ⟨10, 0, 0⟩) acts = some s ∧
      (s.q.heap 0).ch = some (.handoff 7) ∧ s.q.waitersOf "m" = [1] ∧
      ∃ t, s.step (.leave 0) = some t ∧ t.got 0 = [7] := by
  intro acts
  refine ⟨_, rfl, rfl, rfl, ?_⟩
  have hreach : Machine.Reach QueueSys.step (QueueSys.start ⟨10, 0, 0⟩) _ :=
    Machine.reach_of_runActs .refl acts rfl
  exact ((handoff_exactly_once ⟨10, 0, 0⟩ hreach).2.2.2 0 7 rfl).2.2.2

end ServerFlow.Resilience
