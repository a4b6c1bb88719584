import ServerFlow.Lib.Counting
import ServerFlow.Sim.Engine

/-!
# Sim.EngineInvariant

What holds of the engine at every point of every call (`Core`), and the small steps that calls are
made of (`Micro`): each moves or changes one sequence. Every small step keeps the invariant.

A decode step takes the KV token for its output when it is launched and uses it when it ends. In
between, and while the loop of `finishIteration` is under way, some running sequences hold one token
more than the others. The invariant names them (`P`).
-/

namespace ServerFlow.Sim

open List Function
open Resilience (Duration)

variable {s : Seq}

/-! ### Sequences -/

/-- A request that is not done. -/
structure Seq.Open (s : Seq) : Prop where
  input : 1 ≤ s.input
  target : (s.generated : Int) < s.target

structure Seq.Waiting (budget : Int) (s : Seq) : Prop extends s.Open where
  state : s.state = .waiting
  kvHeld : s.kvHeld = 0
  prefillTarget : s.prefillTarget = s.input + s.generated
  /-- It fits again, alone. -/
  fits : s.prefillTarget + 1 ≤ budget

structure Seq.Prefilling (s : Seq) : Prop extends s.Open where
  state : s.state = .prefilling
  started : s.started = true
  kvHeld : s.kvHeld = s.prefillTarget + 1
  prefillTarget : s.prefillTarget = s.input + s.generated
  prefilled : 0 ≤ s.prefilled ∧ s.prefilled < s.prefillTarget

structure Seq.Running (extra : Int) (s : Seq) : Prop extends s.Open where
  state : s.state = .running
  started : s.started = true
  kvHeld : s.kvHeld = s.input + s.generated + extra

/-! ### The invariant -/

namespace Engine

/-- The live requests. -/
def live (e : Engine) : List Nat := e.waiting ++ e.prefilling ++ e.running

/-- The KV tokens that a list of requests holds. -/
def held (e : Engine) (l : List Nat) : Int := (l.map fun i => (e.heap i).kvHeld).sum

/-- One more than the others, for the sequences of `P`. -/
def extra (P : List Nat) (i : Nat) : Int := if i ∈ P then 1 else 0

/-- The invariant; the running sequences of `P` hold the token for their next output. -/
structure Core (P : List Nat) (e : Engine) : Prop where
  nodup : e.live.Nodup
  pnodup : P.Nodup
  ids : ∀ i ∈ e.live, i ≤ e.next
  indexed : ∀ i, i ∈ e.byID ↔ i ∈ e.live
  waiting : ∀ i ∈ e.waiting, (e.heap i).Waiting e.cfg.budget
  prefilling : ∀ i ∈ e.prefilling, (e.heap i).Prefilling
  running : ∀ i ∈ e.running, (e.heap i).Running (extra P i)
  dead : ∀ i, i ∉ e.live → (e.heap i).state = .gone
  kv : e.kvUsed = e.held e.live
  kvMax : e.kvUsed ≤ e.cfg.budget
  slots : e.active ≤ e.cfg.maxSeqs
  room : (e.live.length : Int) ≤ e.cfg.maxSeqs + e.cfg.maxQueue
  tally : e.submitted = e.completed + e.cancelled + e.kvEnded + e.live.length

section Lists

variable {e : Engine} {i : Nat}

theorem mem_live : i ∈ e.live ↔ i ∈ e.waiting ∨ i ∈ e.prefilling ∨ i ∈ e.running := by
  simp only [live, mem_append, or_assoc]

theorem length_live (e : Engine) :
    e.live.length = e.waiting.length + e.prefilling.length + e.running.length := by
  simp only [live, length_append]

end Lists

namespace Core

variable {P P' : List Nat} {e e' : Engine} {i : Nat} {s : Seq}

/-! #### Where a sequence is -/

section

variable (h : Core P e)
include h

theorem nodup_lists : e.waiting.Nodup ∧ e.prefilling.Nodup ∧ e.running.Nodup := by
  obtain ⟨hwp, hr, -⟩ := nodup_append'.mp h.nodup
  obtain ⟨hw, hp, -⟩ := nodup_append'.mp hwp
  exact ⟨hw, hp, hr⟩

/-- The lists are disjoint. -/
theorem not_mem_of_running (hi : i ∈ e.running) : i ∉ e.waiting ∧ i ∉ e.prefilling := by
  simpa using fun hm => (nodup_append'.mp h.nodup).2.2 hm hi

theorem not_mem_of_waiting (hi : i ∈ e.waiting) : i ∉ e.prefilling ∧ i ∉ e.running :=
  ⟨fun hp => (nodup_append'.mp (nodup_append'.mp h.nodup).1).2.2 hi hp,
    fun hr => (h.not_mem_of_running hr).1 hi⟩

theorem not_mem_of_prefilling (hi : i ∈ e.prefilling) : i ∉ e.waiting ∧ i ∉ e.running :=
  ⟨fun hw => (h.not_mem_of_waiting hw).1 hi, fun hr => (h.not_mem_of_running hr).2 hi⟩

/-- A record says in which list the sequence is. -/
theorem state_eq (i : Nat) : (e.heap i).state =
    if i ∈ e.waiting then .waiting else if i ∈ e.prefilling then .prefilling
    else if i ∈ e.running then .running else .gone := by
  split_ifs with hw hp hr
  · exact (h.waiting i hw).state
  · exact (h.prefilling i hp).state
  · exact (h.running i hr).state
  · exact h.dead i (by simp [mem_live, hw, hp, hr])

theorem state_running_iff : (e.heap i).state = .running ↔ i ∈ e.running := by
  refine ⟨fun hs => ?_, fun hi => (h.running i hi).state⟩
  rw [h.state_eq] at hs
  split_ifs at hs
  assumption

theorem state_prefilling_iff : (e.heap i).state = .prefilling ↔ i ∈ e.prefilling := by
  refine ⟨fun hs => ?_, fun hi => (h.prefilling i hi).state⟩
  rw [h.state_eq] at hs
  split_ifs at hs
  assumption

/-- A running sequence holds at least the KV tokens of its prompt. -/
theorem held_pos (hi : i ∈ e.prefilling ∨ i ∈ e.running) : 1 ≤ (e.heap i).kvHeld := by
  rcases hi with hi | hi
  · have hs := h.prefilling i hi
    have := hs.input
    have := hs.kvHeld
    have := hs.prefillTarget
    omega
  · have hs := h.running i hi
    have := hs.input
    have := hs.kvHeld
    have : 0 ≤ extra P i := by
      simp only [extra]
      split <;> decide
    omega

theorem held_nonneg (hi : i ∈ e.live) : 0 ≤ (e.heap i).kvHeld := by
  rcases mem_live.mp hi with hi | hi
  · exact (h.waiting i hi).kvHeld.ge
  · exact le_trans (by decide) (h.held_pos hi)

end

/-! #### One sequence changes -/

/-- `e'` differs from `e` in one sequence only: its record, and the list it is in. -/
structure Moves (e e' : Engine) (i : Nat) (s : Seq) : Prop where
  heap : e'.heap = update e.heap i s
  cfg : e'.cfg = e.cfg
  next : e'.next = e.next
  waiting : ∀ j, j ≠ i → (j ∈ e'.waiting ↔ j ∈ e.waiting)
  prefilling : ∀ j, j ≠ i → (j ∈ e'.prefilling ↔ j ∈ e.prefilling)
  running : ∀ j, j ≠ i → (j ∈ e'.running ↔ j ∈ e.running)

namespace Moves

theorem heap_self (m : Moves e e' i s) : e'.heap i = s := by rw [m.heap, update_self]

theorem heap_of_ne (m : Moves e e' i s) {j : Nat} (hj : j ≠ i) : e'.heap j = e.heap j := by
  rw [m.heap, update_of_ne hj]

theorem mem_live (m : Moves e e' i s) {j : Nat} (hj : j ≠ i) : j ∈ e'.live ↔ j ∈ e.live := by
  rw [Engine.mem_live, Engine.mem_live, m.waiting j hj, m.prefilling j hj, m.running j hj]

end Moves

/-- Where the sequence is, its record fits. -/
structure Placed (P : List Nat) (e : Engine) (i : Nat) (s : Seq) : Prop where
  waiting : i ∈ e.waiting → s.Waiting e.cfg.budget
  prefilling : i ∈ e.prefilling → s.Prefilling
  running : i ∈ e.running → s.Running (extra P i)

section

variable (h : Core P e)
include h

/-- The records after a sequence changed. -/
theorem records (m : Moves e e' i s) (hP : ∀ j, j ≠ i → (j ∈ P' ↔ j ∈ P))
    (hs : Placed P' e' i s) : (∀ j ∈ e'.waiting, (e'.heap j).Waiting e'.cfg.budget) ∧
      (∀ j ∈ e'.prefilling, (e'.heap j).Prefilling) ∧
      ∀ j ∈ e'.running, (e'.heap j).Running (extra P' j) := by
  have hrecord : ∀ j, (j = i ∧ e'.heap j = s) ∨ (j ≠ i ∧ e'.heap j = e.heap j) := fun j => by
    by_cases hji : j = i
    · exact .inl ⟨hji, hji ▸ m.heap_self⟩
    · exact .inr ⟨hji, m.heap_of_ne hji⟩
  refine ⟨fun j hj => ?_, fun j hj => ?_, fun j hj => ?_⟩ <;>
    obtain ⟨rfl, heq⟩ | ⟨hji, heq⟩ := hrecord j <;> rw [heq]
  · exact hs.waiting hj
  · exact m.cfg ▸ h.waiting j ((m.waiting j hji).mp hj)
  · exact hs.prefilling hj
  · exact h.prefilling j ((m.prefilling j hji).mp hj)
  · exact hs.running hj
  · simpa only [extra, hP j hji] using h.running j ((m.running j hji).mp hj)

/-- A live sequence changes and stays live. -/
theorem stay (m : Moves e e' i s) (hi : i ∈ e.live) (hperm : e'.live.Perm e.live)
    (hP : ∀ j, j ≠ i → (j ∈ P' ↔ j ∈ P)) (hPn : P'.Nodup) (hs : Placed P' e' i s)
    (hbyID : e'.byID = e.byID) (hkv : e'.kvUsed = e.kvUsed - (e.heap i).kvHeld + s.kvHeld)
    (hmax : e'.kvUsed ≤ e.cfg.budget) (hslots : e'.active ≤ e.cfg.maxSeqs)
    (hsub : e'.submitted = e.submitted) (hsum : e'.completed + e'.cancelled + e'.kvEnded =
      e.completed + e.cancelled + e.kvEnded) : Core P' e' := by
  obtain ⟨hw, hp, hr⟩ := h.records m hP hs
  refine ⟨hperm.nodup_iff.mpr h.nodup, hPn, fun j hj => ?_, fun j => ?_, hw, hp, hr, fun j hj => ?_,
    ?_, ?_, ?_, ?_, ?_⟩
  · rw [m.next]
    exact h.ids j (hperm.mem_iff.mp hj)
  · rw [hbyID, hperm.mem_iff]
    exact h.indexed j
  · have hlive : j ∉ e.live := fun hl => hj (hperm.mem_iff.mpr hl)
    have hji : j ≠ i := by
      rintro rfl
      exact hlive hi
    rw [m.heap_of_ne hji]
    exact h.dead j hlive
  · have hsum : e'.held e'.live = e'.held e.live := (hperm.map _).sum_eq
    have hoff := sum_map_add_of_eq_off h.nodup hi (f := fun j => (e'.heap j).kvHeld)
      (g := fun j => (e.heap j).kvHeld) fun j _ hj => by rw [m.heap_of_ne hj]
    have hkv₀ := h.kv
    simp only [held, m.heap_self] at hsum hoff hkv₀ ⊢
    omega
  · rwa [m.cfg]
  · rwa [m.cfg]
  · rw [m.cfg, hperm.length_eq]
    exact h.room
  · rw [hperm.length_eq, hsub, hsum]
    exact h.tally

/-- A live sequence is gone. -/
theorem leave (m : Moves e e' i s) (hi : i ∈ e.live) (hperm : e'.live.Perm (e.live.erase i))
    (hP : ∀ j, j ≠ i → (j ∈ P' ↔ j ∈ P)) (hPn : P'.Nodup) (hs : s.state = .gone)
    (hbyID : e'.byID = e.byID.erase i) (hkv : e'.kvUsed = e.kvUsed - (e.heap i).kvHeld)
    (hslots : e'.active ≤ e.active) (hsub : e'.submitted = e.submitted)
    (hsum : e'.completed + e'.cancelled + e'.kvEnded = e.completed + e.cancelled + e.kvEnded + 1) :
    Core P' e' := by
  have hmem : ∀ j, j ∈ e'.live ↔ j ≠ i ∧ j ∈ e.live := fun j => by
    rw [hperm.mem_iff, h.nodup.mem_erase_iff]
  have hgone : i ∉ e'.live := fun hl => ((hmem i).mp hl).1 rfl
  have hplaced : Placed P' e' i s :=
    ⟨fun hw => absurd (Engine.mem_live.mpr (.inl hw)) hgone,
      fun hp => absurd (Engine.mem_live.mpr (.inr (.inl hp))) hgone,
      fun hr => absurd (Engine.mem_live.mpr (.inr (.inr hr))) hgone⟩
  obtain ⟨hw, hp, hr⟩ := h.records m hP hplaced
  have hlen : e'.live.length + 1 = e.live.length := by
    rw [hperm.length_eq, length_erase_of_mem hi]
    have := length_pos_of_mem hi
    omega
  refine ⟨hperm.nodup_iff.mpr (h.nodup.erase i), hPn, fun j hj => ?_, fun j => ?_, hw, hp, hr,
    fun j hj => ?_, ?_, ?_, ?_, ?_, ?_⟩
  · rw [m.next]
    exact h.ids j ((hmem j).mp hj).2
  · rw [hbyID, Finset.mem_erase, h.indexed, hmem]
  · by_cases hji : j = i
    · subst hji
      rw [m.heap_self]
      exact hs
    · rw [m.heap_of_ne hji]
      exact h.dead j fun hl => hj ((hmem j).mpr ⟨hji, hl⟩)
  · have hsum : e'.held e'.live = e'.held (e.live.erase i) := (hperm.map _).sum_eq
    have hsame : e'.held (e.live.erase i) = e.held (e.live.erase i) := by
      simp only [held]
      refine congrArg List.sum (map_congr_left fun j hj => ?_)
      rw [m.heap_of_ne (h.nodup.mem_erase_iff.mp hj).1]
    have hsplit : e.held e.live = (e.heap i).kvHeld + e.held (e.live.erase i) := by
      simp only [held]
      rw [((perm_cons_erase hi).map _).sum_eq, map_cons, sum_cons]
    have hkv₀ := h.kv
    omega
  · rw [m.cfg]
    have := h.kvMax
    have := h.held_nonneg hi
    omega
  · rw [m.cfg]
    exact hslots.trans h.slots
  · rw [m.cfg]
    have := h.room
    omega
  · have := h.tally
    omega

/-! #### Removing -/

/-- `remove`, without regard to where the sequence is. -/
theorem remove_eq (i : Nat) : e.remove i =
    { e.set i { e.heap i with kvHeld := 0, state := .gone } with
      waiting := e.waiting.erase i
      prefilling := e.prefilling.erase i
      running := e.running.erase i
      kvUsed := e.kvUsed - (e.heap i).kvHeld
      byID := e.byID.erase i } := by
  have hstate := h.state_eq i
  split_ifs at hstate with hw hp hr <;> simp only [remove, hstate, set]
  · obtain ⟨hp, hr⟩ := h.not_mem_of_waiting hw
    rw [erase_of_not_mem hp, erase_of_not_mem hr]
  · rw [erase_of_not_mem hw, erase_of_not_mem (h.not_mem_of_prefilling hp).2]
  · rw [erase_of_not_mem hw, erase_of_not_mem hp]
  · rw [erase_of_not_mem hw, erase_of_not_mem hp, erase_of_not_mem hr]

/-- The live requests without one. -/
theorem erase_live_perm (i : Nat) :
    (e.waiting.erase i ++ e.prefilling.erase i ++ e.running.erase i).Perm (e.live.erase i) := by
  obtain ⟨hw, hp, hr⟩ := h.nodup_lists
  refine (perm_ext_iff_of_nodup ?_ (h.nodup.erase i)).mpr fun j => ?_
  · exact h.nodup.sublist (((erase_sublist).append (erase_sublist)).append
      (erase_sublist))
  · simp only [mem_append, hw.mem_erase_iff, hp.mem_erase_iff, hr.mem_erase_iff,
      h.nodup.mem_erase_iff, mem_live]
    tauto

/-- The lists without `i`, and a record of `i` that is gone. -/
theorem moves_remove (hheap : e'.heap = update e.heap i s)
    (hcfg : e'.cfg = e.cfg) (hnext : e'.next = e.next) (hw : e'.waiting = e.waiting.erase i)
    (hp : e'.prefilling = e.prefilling.erase i) (hr : e'.running = e.running.erase i) :
    Moves e e' i s := by
  obtain ⟨hwn, hpn, hrn⟩ := h.nodup_lists
  refine ⟨hheap, hcfg, hnext, fun j hj => ?_, fun j hj => ?_, fun j hj => ?_⟩
  · simp [hw, hwn.mem_erase_iff, hj]
  · simp [hp, hpn.mem_erase_iff, hj]
  · simp [hr, hrn.mem_erase_iff, hj]

/-- A live request is removed, and counted as ended in one way. -/
theorem removed (hi : i ∈ e.live) (hP : ∀ j, j ≠ i → (j ∈ P' ↔ j ∈ P))
    (hPn : P'.Nodup) (hs : s.state = .gone) (hheap : e'.heap = update e.heap i s)
    (hcfg : e'.cfg = e.cfg) (hnext : e'.next = e.next) (hw : e'.waiting = e.waiting.erase i)
    (hp : e'.prefilling = e.prefilling.erase i) (hr : e'.running = e.running.erase i)
    (hbyID : e'.byID = e.byID.erase i) (hkv : e'.kvUsed = e.kvUsed - (e.heap i).kvHeld)
    (hsub : e'.submitted = e.submitted)
    (hsum : e'.completed + e'.cancelled + e'.kvEnded = e.completed + e.cancelled + e.kvEnded + 1) :
    Core P' e' := by
  refine h.leave (h.moves_remove hheap hcfg hnext hw hp hr) hi ?_ hP hPn hs hbyID hkv ?_ hsub hsum
  · simp only [live, hw, hp, hr]
    exact h.erase_live_perm i
  · have hlp := (erase_sublist (a := i) (l := e.prefilling)).length_le
    have hlr := (erase_sublist (a := i) (l := e.running)).length_le
    simp only [active, hp, hr]
    omega

end

end Core

/-! ### Small steps -/

/-- `e'` differs from `e` in what the invariant does not speak of. -/
def SameBody (e e' : Engine) : Prop :=
  e' = { e with
    now := e'.now
    drawn := e'.drawn
    busy := e'.busy
    iterEnd := e'.iterEnd
    iter := e'.iter
    rejected := e'.rejected
    guardSpent := e'.guardSpent }

/-- `Submit` accepts the request. -/
structure Accepts (e : Engine) (r : Request) : Prop where
  input : 1 ≤ r.inputTokens
  fits : r.inputTokens ≤ e.cfg.budget - 1
  room : (e.waiting.length : Int) < e.cfg.maxQueue + max (e.cfg.maxSeqs - e.active) 0

/-- The prefill of `p` is complete. -/
def promote (e : Engine) (p : Nat) (chunk : Int) : Engine :=
  { e.set p { e.heap p with prefilled := (e.heap p).prefilled + chunk, state := .running } with
    prefilling := e.prefilling.erase p
    running := e.running ++ [p] }

/-- What one call does, step by step, at time `t`. The first component has the running sequences
that hold the token for their next output. -/
inductive Micro (t : Duration) : List Nat × Engine → List Nat × Engine → Prop
  | control {P : List Nat} {e e' : Engine} (h : SameBody e e') : Micro t (P, e) (P, e')
  | regroup {P P' : List Nat} {e : Engine} (h : P.Perm P') : Micro t (P, e) (P', e)
  | admitted {P : List Nat} {e : Engine} {i : Nat} {rest : List Nat} (hw : e.waiting = i :: rest)
      (hslot : e.active < e.cfg.maxSeqs)
      (hkv : e.kvUsed + ((e.heap i).prefillTarget + 1) ≤ e.cfg.budget) :
      Micro t (P, e) (P, e.admitHead t i rest)
  | preempt {e : Engine} {v : Nat} (hv : e.running.getLast? = some v)
      (hfull : e.kvUsed + e.running.length > e.cfg.budget)
      (hnot : ¬ (e.running.length = 1 ∧ e.prefilling = [])) : Micro t ([], e) ([], e.preempt t v)
  | kvEnd {e : Engine} {v : Nat} (hv : e.running = [v]) (hp : e.prefilling = [])
      (hfull : e.kvUsed + e.running.length > e.cfg.budget) :
      Micro t ([], e) ([], { e with kvEnded := e.kvEnded + 1 }.finish t v .length)
  | begin {P : List Nat} {e : Engine} {p : Nat} (hp : p ∈ e.prefilling) :
      Micro t (P, e) (P, e.set p { e.heap p with prefillBegun := true })
  | hold {P : List Nat} {e : Engine} {i : Nat} (hi : i ∈ e.running) (hP : i ∉ P)
      (hkv : e.kvUsed < e.cfg.budget) : Micro t (P, e) (i :: P, e.hold i)
  | skip {P : List Nat} {e : Engine} {i : Nat} (hi : i ∉ e.running) : Micro t (i :: P, e) (P, e)
  | token {P : List Nat} {e : Engine} {i : Nat} (hi : i ∈ e.running) :
      Micro t (i :: P, e) (P, e.emitToken t i)
  | chunk {P : List Nat} {e : Engine} {p : Nat} {c : Int} (hp : p ∈ e.prefilling) (hc : 0 < c)
      (hlt : (e.heap p).prefilled + c < (e.heap p).prefillTarget) :
      Micro t (P, e) (P, e.set p { e.heap p with prefilled := (e.heap p).prefilled + c })
  | promote {P : List Nat} {e : Engine} {p : Nat} {c : Int} (hp : p ∈ e.prefilling) (hP : p ∉ P) :
      Micro t (P, e) (p :: P, e.promote p c)
  | cancel {P : List Nat} {e : Engine} {i : Nat} (hi : i ∈ e.live) :
      Micro t (P, e) (P, { e.remove i with cancelled := (e.remove i).cancelled + 1 })
  | enqueue {P : List Nat} {e : Engine} {d : Draws} {r : Request} (h : e.Accepts r) :
      Micro t (P, e) (P, e.enqueue d r)

/-! #### What the operations change -/

section Operations

variable {e : Engine} {i : Nat}

/-- The event of a first admission. -/
def startEvents (e : Engine) (t : Duration) (i : Nat) : List Event :=
  if (e.heap i).started then [] else [⟨t, i, .start, 0, none⟩]

theorem admitHead_eq (e : Engine) (t : Duration) (i : Nat) (rest : List Nat) :
    e.admitHead t i rest =
      { e.set i { e.heap i with
          kvHeld := (e.heap i).prefillTarget + 1, state := .prefilling, prefilled := 0,
          prefillBegun := false, started := true } with
        waiting := rest
        kvUsed := e.kvUsed + ((e.heap i).prefillTarget + 1)
        prefilling := e.prefilling ++ [i]
        evs := e.evs ++ e.startEvents t i } := by
  simp only [admitHead, startEvents]
  split
  · rw [append_nil]
    rfl
  · rfl

theorem finish_of_running (hs : (e.heap i).state = .running) (t : Duration) (reason : Finish) :
    e.finish t i reason =
      { e.set i { e.heap i with kvHeld := 0, state := .gone } with
        running := e.running.erase i
        kvUsed := e.kvUsed - (e.heap i).kvHeld
        byID := e.byID.erase i
        evs := e.evs ++ [⟨t, i, .done, (e.heap i).generated, some reason⟩] } := by
  simp only [finish, remove, hs, Engine.set, emit, update_self]

/-- A token that is not the last. -/
theorem emitToken_of_lt (ht : (((e.heap i).generated + 1 : Nat) : Int) < (e.heap i).target)
    (t : Duration) : e.emitToken t i =
      { e.set i { e.heap i with generated := (e.heap i).generated + 1 } with
        tokens := e.tokens + 1
        evs := e.evs ++ [⟨t, i, .token, (e.heap i).generated, none⟩] } := by
  simp only [emitToken, if_neg (not_le.mpr ht)]
  rfl

/-- The last token. -/
theorem emitToken_of_le (hs : (e.heap i).state = .running)
    (ht : (e.heap i).target ≤ (((e.heap i).generated + 1 : Nat) : Int)) (t : Duration) :
    e.emitToken t i =
      { e.set i { e.heap i with
          generated := (e.heap i).generated + 1, kvHeld := 0, state := .gone } with
        tokens := e.tokens + 1
        completed := e.completed + 1
        running := e.running.erase i
        kvUsed := e.kvUsed - (e.heap i).kvHeld
        byID := e.byID.erase i
        evs := e.evs ++ [⟨t, i, .token, (e.heap i).generated, none⟩,
          ⟨t, i, .done, (e.heap i).generated + 1, some (e.heap i).finish⟩] } := by
  simp only [emitToken, if_pos ht]
  rw [finish_of_running (by simpa only [Engine.set, emit, update_self] using hs)]
  simp only [Engine.set, emit, update_self, update_idem, append_assoc,
    cons_append, nil_append]

end Operations

namespace Core

variable {P P' : List Nat} {e e' : Engine} {i : Nat}

theorem Moves.of_lists (hheap : e'.heap = update e.heap i s)
    (hcfg : e'.cfg = e.cfg) (hnext : e'.next = e.next) (hw : e'.waiting = e.waiting)
    (hp : e'.prefilling = e.prefilling) (hr : e'.running = e.running) : Moves e e' i s :=
  ⟨hheap, hcfg, hnext, fun _ _ => by rw [hw], fun _ _ => by rw [hp], fun _ _ => by rw [hr]⟩

theorem moves_admitHead {rest : List Nat} (hw : e.waiting = i :: rest) (t : Duration) :
    Moves e (e.admitHead t i rest) i { e.heap i with
      kvHeld := (e.heap i).prefillTarget + 1, state := .prefilling, prefilled := 0,
      prefillBegun := false, started := true } := by
  rw [admitHead_eq]
  refine ⟨rfl, rfl, rfl, fun j hj => ?_, fun j hj => ?_, fun j hj => Iff.rfl⟩
  · simp [hw, hj]
  · simp [hj]

theorem moves_preempt {v : Nat} (hv : e.running.getLast? = some v) (t : Duration) :
    Moves e (e.preempt t v) v { e.heap v with
      kvHeld := 0, state := .waiting, prefillTarget := (e.heap v).input + (e.heap v).generated,
      prefilled := 0, prefillBegun := false } := by
  obtain ⟨r, hr⟩ := List.getLast?_eq_some_iff.mp hv
  refine ⟨rfl, rfl, rfl, fun k hk => ?_, fun k hk => Iff.rfl, fun k hk => ?_⟩
  · exact mem_cons.trans (or_iff_right hk)
  · show k ∈ e.running.dropLast ↔ _
    simp [hr, hk]

section

variable (h : Core P e)
include h

theorem moves_promote (p : Nat) (c : Int) :
    Moves e (e.promote p c) p
      { e.heap p with prefilled := (e.heap p).prefilled + c, state := .running } := by
  refine ⟨rfl, rfl, rfl, fun _ _ => Iff.rfl, fun j hj => ?_, fun j hj => ?_⟩
  · exact h.nodup_lists.2.1.mem_erase_iff.trans (and_iff_right hj)
  · simp [Engine.promote, hj]

theorem sameBody (hs : SameBody e e') : Core P e' := by
  rw [hs]
  exact { h with }

theorem regroup (hp : P.Perm P') : Core P' e := by
  refine { h with pnodup := hp.nodup_iff.mp h.pnodup, running := fun j hj => ?_ }
  simpa only [extra, hp.mem_iff] using h.running j hj

/-- Only where the sequences are, and their records, matter for a step that changes no list. -/
theorem set (hi : i ∈ e.live) (hs : Placed P e i s)
    (hkv : s.kvHeld = (e.heap i).kvHeld) : Core P (e.set i s) := by
  have hmoves : Moves e (e.set i s) i s := .of_lists rfl rfl rfl rfl rfl rfl
  refine h.stay hmoves hi (.refl _) (fun _ _ => Iff.rfl) h.pnodup
    ⟨hs.waiting, hs.prefilling, hs.running⟩ rfl ?_ h.kvMax h.slots rfl rfl
  show e.kvUsed = _
  omega

/-- The record of a prefill changes. -/
theorem setPrefilling (hi : i ∈ e.prefilling) (hs : s.Prefilling)
    (hkv : s.kvHeld = (e.heap i).kvHeld) : Core P (e.set i s) := by
  obtain ⟨hw, hr⟩ := h.not_mem_of_prefilling hi
  exact h.set (mem_live.mpr (.inr (.inl hi)))
    ⟨fun hm => absurd hm hw, fun _ => hs, fun hm => absurd hm hr⟩ hkv

theorem admitHead {rest : List Nat} (hw : e.waiting = i :: rest) (hslot : e.active < e.cfg.maxSeqs)
    (hkv : e.kvUsed + ((e.heap i).prefillTarget + 1) ≤ e.cfg.budget) (t : Duration) :
    Core P (e.admitHead t i rest) := by
  have hi : i ∈ e.waiting := by rw [hw]; exact mem_cons_self
  have hseq := h.waiting i hi
  obtain ⟨hp, hr⟩ := h.not_mem_of_waiting hi
  have hrest : i ∉ rest := (nodup_cons.mp (hw ▸ h.nodup_lists.1)).1
  have hmoves := moves_admitHead hw t
  rw [admitHead_eq] at hmoves ⊢
  refine h.stay hmoves (mem_live.mpr (.inl hi)) ?_ (fun _ _ => Iff.rfl) h.pnodup ⟨?_, ?_, ?_⟩ rfl ?_
    hkv ?_ rfl rfl
  · show (rest ++ (e.prefilling ++ [i]) ++ e.running).Perm e.live
    have hsplit : rest ++ (e.prefilling ++ [i]) ++ e.running =
        (rest ++ e.prefilling) ++ i :: e.running := by simp
    rw [hsplit, live, hw, cons_append, cons_append]
    exact perm_middle
  · exact fun hm => absurd hm hrest
  · intro _
    have hinput := hseq.input
    have htarget := hseq.prefillTarget
    exact ⟨⟨hinput, hseq.target⟩, rfl, rfl, rfl, htarget, le_rfl, by
      show 0 < (e.heap i).prefillTarget
      omega⟩
  · exact fun hm => absurd hm hr
  · have := hseq.kvHeld
    show e.kvUsed + ((e.heap i).prefillTarget + 1) =
      e.kvUsed - (e.heap i).kvHeld + ((e.heap i).prefillTarget + 1)
    omega
  · show ((e.prefilling ++ [i]).length : Int) + e.running.length ≤ e.cfg.maxSeqs
    simp only [active, length_append, length_singleton] at hslot ⊢
    omega

/-- Two sequences that hold a slot hold KV tokens each. -/
theorem held_add_one_le {j : Nat} (hi : i ∈ e.live) (hij : j ≠ i)
    (hj : j ∈ e.prefilling ∨ j ∈ e.running) : (e.heap i).kvHeld + 1 ≤ e.kvUsed := by
  have hjlive : j ∈ e.live := mem_live.mpr (.inr hj)
  have hsplit : e.held e.live = (e.heap i).kvHeld + e.held (e.live.erase i) := by
    simp only [held]
    rw [((perm_cons_erase hi).map _).sum_eq, map_cons, sum_cons]
  have hmem : (e.heap j).kvHeld ∈ (e.live.erase i).map fun i => (e.heap i).kvHeld :=
    mem_map_of_mem (h.nodup.mem_erase_iff.mpr ⟨hij, hjlive⟩)
  have hle : (e.heap j).kvHeld ≤ e.held (e.live.erase i) := by
    refine single_le_sum (fun x hx => ?_) _ hmem
    obtain ⟨k, hk, rfl⟩ := mem_map.mp hx
    exact h.held_nonneg (mem_of_mem_erase hk)
  have := h.held_pos hj
  have := h.kv
  omega

end

/-- **A preempted sequence fits again**: another one holds a slot, so it does not have all of the
budget. -/
theorem preempt {e : Engine} {v : Nat} (h : Core [] e) (hv : e.running.getLast? = some v)
    (hnot : ¬ (e.running.length = 1 ∧ e.prefilling = [])) (t : Duration) :
    Core [] (e.preempt t v) := by
  obtain ⟨r, hr⟩ := List.getLast?_eq_some_iff.mp hv
  have hvr : v ∈ e.running := by rw [hr]; simp
  have hvlive : v ∈ e.live := mem_live.mpr (.inr (.inr hvr))
  have hseq := h.running v hvr
  have hvnot : v ∉ r := by
    have := h.nodup_lists.2.2
    rw [hr] at this
    exact fun hm => (nodup_append.mp this).2.2 v hm v (by simp) rfl
  obtain ⟨hvw, hvp⟩ := h.not_mem_of_running hvr
  have hkvHeld : (e.heap v).kvHeld = (e.heap v).input + (e.heap v).generated := by
    have := hseq.kvHeld
    simpa [extra] using this
  have hother : ∃ j, j ≠ v ∧ (j ∈ e.prefilling ∨ j ∈ e.running) := by
    cases hp : e.prefilling with
    | cons j l => exact ⟨j, fun hjv => hvp (by rw [hp, hjv]; simp), .inl (by simp)⟩
    | nil =>
      cases r with
      | nil => exact absurd ⟨by rw [hr]; rfl, hp⟩ hnot
      | cons j l =>
        refine ⟨j, fun hjv => hvnot (by rw [hjv]; simp), .inr ?_⟩
        rw [hr]
        simp
  obtain ⟨j, hjv, hj⟩ := hother
  have hle := h.held_add_one_le hvlive hjv hj
  have hmax := h.kvMax
  have hnonneg : 0 ≤ (e.heap v).kvHeld := h.held_nonneg hvlive
  refine h.stay (moves_preempt hv t) hvlive ?_ (fun _ _ => Iff.rfl) h.pnodup
    ⟨?_, ?_, ?_⟩ rfl ?_ ?_ ?_ rfl rfl
  · show (v :: e.waiting ++ e.prefilling ++ e.running.dropLast).Perm e.live
    rw [live, hr, dropLast_concat, ← append_assoc, cons_append, cons_append]
    exact (perm_append_singleton v _).symm
  · intro _
    refine ⟨⟨hseq.input, hseq.target⟩, rfl, rfl, rfl, ?_⟩
    show (e.heap v).input + (e.heap v).generated + 1 ≤ e.cfg.budget
    omega
  · exact fun hm => absurd hm hvp
  · intro hm
    have hm : v ∈ e.running.dropLast := hm
    rw [hr, dropLast_concat] at hm
    exact absurd hm hvnot
  · show e.kvUsed - (e.heap v).kvHeld = e.kvUsed - (e.heap v).kvHeld + 0
    omega
  · show e.kvUsed - (e.heap v).kvHeld ≤ e.cfg.budget
    omega
  · have := h.slots
    show ((e.prefilling.length : Int) + (e.running.dropLast.length : Int)) ≤ _
    simp only [active, length_dropLast] at this ⊢
    omega

theorem kvEnd {e : Engine} {v : Nat} (h : Core [] e) (hv : e.running = [v]) (t : Duration) :
    Core [] ({ e with kvEnded := e.kvEnded + 1 }.finish t v .length) := by
  have hvr : v ∈ e.running := by rw [hv]; simp
  obtain ⟨hvw, hvp⟩ := h.not_mem_of_running hvr
  have hstate := (h.running v hvr).state
  rw [finish_of_running (e := { e with kvEnded := e.kvEnded + 1 }) hstate]
  refine h.removed (mem_live.mpr (.inr (.inr hvr))) (fun _ _ => Iff.rfl) h.pnodup
    (s := { e.heap v with kvHeld := 0, state := .gone }) rfl rfl rfl rfl
    (erase_of_not_mem hvw).symm (erase_of_not_mem hvp).symm rfl rfl rfl rfl ?_
  show e.completed + e.cancelled + (e.kvEnded + 1) = _
  omega

theorem hold (h : Core P e) (hi : i ∈ e.running) (hP : i ∉ P) (hkv : e.kvUsed < e.cfg.budget) :
    Core (i :: P) (e.hold i) := by
  have hseq := h.running i hi
  obtain ⟨hw, hp⟩ := h.not_mem_of_running hi
  refine h.stay (.of_lists rfl rfl rfl rfl rfl rfl) (mem_live.mpr (.inr (.inr hi))) (.refl _)
    (fun j hj => ?_) (nodup_cons.mpr ⟨hP, h.pnodup⟩)
    ⟨fun hm => absurd hm hw, fun hm => absurd hm hp, fun _ => ?_⟩ rfl ?_ ?_ h.slots rfl rfl
  · exact mem_cons.trans (or_iff_right hj)
  · refine ⟨⟨hseq.input, hseq.target⟩, hseq.state, hseq.started, ?_⟩
    have := hseq.kvHeld
    simp only [extra, hP, if_false, mem_cons, true_or, if_true] at this ⊢
    omega
  · show e.kvUsed + 1 = e.kvUsed - (e.heap i).kvHeld + ((e.heap i).kvHeld + 1)
    omega
  · show e.kvUsed + 1 ≤ _
    omega

/-- A sequence that is not running any more. -/
theorem skip (h : Core (i :: P) e) (hi : i ∉ e.running) : Core P e := by
  refine { h with pnodup := (nodup_cons.mp h.pnodup).2, running := fun j hj => ?_ }
  have hji : j ≠ i := fun hji => hi (hji ▸ hj)
  simpa only [extra, mem_cons, hji, false_or] using h.running j hj

/-- A running sequence emits the token it holds room for, and may be done. -/
theorem emitToken (h : Core (i :: P) e) (hi : i ∈ e.running) (t : Duration) :
    Core P (e.emitToken t i) := by
  have hseq := h.running i hi
  obtain ⟨hw, hp⟩ := h.not_mem_of_running hi
  obtain ⟨hiP, hPn⟩ := nodup_cons.mp h.pnodup
  have hlive : i ∈ e.live := mem_live.mpr (.inr (.inr hi))
  have hPiff : ∀ j, j ≠ i → (j ∈ P ↔ j ∈ i :: P) :=
    fun j hj => (mem_cons.trans (or_iff_right hj)).symm
  rcases le_or_gt (e.heap i).target (((e.heap i).generated + 1 : Nat) : Int) with hdone | hopen
  · rw [emitToken_of_le hseq.state hdone]
    refine h.removed hlive hPiff hPn (s := { e.heap i with
      generated := (e.heap i).generated + 1, kvHeld := 0, state := .gone }) rfl rfl rfl rfl
      (erase_of_not_mem hw).symm (erase_of_not_mem hp).symm rfl rfl rfl rfl ?_
    show e.completed + 1 + e.cancelled + e.kvEnded = _
    omega
  · rw [emitToken_of_lt hopen]
    refine h.stay (i := i) (.of_lists rfl rfl rfl rfl rfl rfl) hlive (.refl _) hPiff hPn
      ⟨fun hm => absurd hm hw, fun hm => absurd hm hp, fun _ => ?_⟩ rfl ?_ h.kvMax h.slots rfl rfl
    · refine ⟨⟨hseq.input, hopen⟩, hseq.state, hseq.started, ?_⟩
      have := hseq.kvHeld
      simp only [extra, hiP, if_false, mem_cons, true_or, if_true] at this ⊢
      push_cast
      omega
    · show e.kvUsed = e.kvUsed - (e.heap i).kvHeld + (e.heap i).kvHeld
      omega

/-- The prefill is complete: the sequence runs, and holds room for the token that comes of it. -/
theorem promote {p : Nat} {c : Int} (h : Core P e) (hp : p ∈ e.prefilling) (hP : p ∉ P) :
    Core (p :: P) (e.promote p c) := by
  have hseq := h.prefilling p hp
  obtain ⟨hw, hr⟩ := h.not_mem_of_prefilling hp
  have hpn := h.nodup_lists.2.1
  refine h.stay (h.moves_promote p c) (mem_live.mpr (.inr (.inl hp))) ?_ (fun j hj => ?_)
    (nodup_cons.mpr ⟨hP, h.pnodup⟩) ⟨fun hm => absurd hm hw, fun hm => ?_, fun _ => ?_⟩ rfl ?_
    h.kvMax ?_ rfl rfl
  · show (e.waiting ++ e.prefilling.erase p ++ (e.running ++ [p])).Perm e.live
    have hback : (e.prefilling.erase p ++ (e.running ++ [p])).Perm (e.prefilling ++ e.running) := by
      rw [← append_assoc]
      refine (perm_append_singleton p _).trans ?_
      rw [← cons_append]
      exact (perm_cons_erase hp).symm.append_right _
    rw [live, append_assoc, append_assoc]
    exact hback.append_left _
  · exact mem_cons.trans (or_iff_right hj)
  · exact absurd rfl (hpn.mem_erase_iff.mp hm).1
  · refine ⟨⟨hseq.input, hseq.target⟩, rfl, hseq.started, ?_⟩
    have := hseq.kvHeld
    have := hseq.prefillTarget
    simp only [extra, mem_cons, true_or, if_true]
    omega
  · show e.kvUsed = e.kvUsed - (e.heap p).kvHeld + (e.heap p).kvHeld
    omega
  · have := h.slots
    show ((e.prefilling.erase p).length : Int) + ((e.running ++ [p]).length : Int) ≤ _
    have hlen := length_erase_of_mem hp
    have hpos := length_pos_of_mem hp
    simp only [active, length_append, length_singleton] at this ⊢
    omega

theorem cancel (h : Core P e) (hi : i ∈ e.live) :
    Core P { e.remove i with cancelled := (e.remove i).cancelled + 1 } := by
  rw [h.remove_eq i]
  refine h.removed hi (fun _ _ => Iff.rfl) h.pnodup
    (s := { e.heap i with kvHeld := 0, state := .gone }) rfl rfl rfl rfl rfl rfl rfl rfl rfl rfl ?_
  show e.completed + (e.cancelled + 1) + e.kvEnded = _
  omega

theorem min_tokens_pos {m n : Int} (hn : 0 < n) :
    0 < (if m > 0 ∧ m ≤ n then (m, Finish.length) else (n, Finish.stop)).1 := by
  split
  next h => exact h.1
  next => exact hn

/-- The output of a request is at least one token. -/
theorem drawOutput_pos (e : Engine) (d : Draws) (id : Nat) (maxTokens : Int) :
    0 < (e.drawOutput d id maxTokens).1 := by
  simp only [drawOutput]
  exact min_tokens_pos (lt_of_lt_of_le Int.one_pos (le_max_right _ _))

theorem enqueue {r : Request} (h : Core P e) (hr : e.Accepts r) (d : Draws) :
    Core P (e.enqueue d r) := by
  have hfresh : e.next + 1 ∉ e.live := fun hm => by
    have := h.ids _ hm
    omega
  have hperm : (e.enqueue d r).live.Perm ((e.next + 1) :: e.live) := by
    show (e.waiting ++ [e.next + 1] ++ e.prefilling ++ e.running).Perm _
    have hsplit : e.waiting ++ [e.next + 1] ++ e.prefilling ++ e.running =
        e.waiting ++ (e.next + 1) :: (e.prefilling ++ e.running) := by simp
    rw [hsplit, live, append_assoc]
    exact perm_middle
  have hmem : ∀ j, j ∈ (e.enqueue d r).live ↔ j = e.next + 1 ∨ j ∈ e.live := fun j => by
    rw [hperm.mem_iff, mem_cons]
  have hne : ∀ {j}, j ∈ e.live → j ≠ e.next + 1 := fun hj hji => hfresh (hji ▸ hj)
  have hheap : ∀ {j}, j ∈ e.live → (e.enqueue d r).heap j = e.heap j := fun hj =>
    update_of_ne (hne hj) _ _
  have hnew : (e.enqueue d r).heap (e.next + 1) = ⟨r.inputTokens,
      (e.drawOutput d (e.next + 1) r.maxTokens).1, (e.drawOutput d (e.next + 1) r.maxTokens).2, 0,
        0,
      r.inputTokens, 0, false, false, .waiting⟩ := update_self _ _ _
  refine ⟨hperm.nodup_iff.mpr (nodup_cons.mpr ⟨hfresh, h.nodup⟩), h.pnodup, fun j hj => ?_,
    fun j => ?_, fun j hj => ?_, fun j hj => ?_, fun j hj => ?_, fun j hj => ?_, ?_, h.kvMax,
      h.slots,
    ?_, ?_⟩
  · show j ≤ e.next + 1
    rcases (hmem j).mp hj with rfl | hj
    · exact le_rfl
    · exact (h.ids j hj).trans (Nat.le_succ _)
  · rw [hmem]
    show j ∈ insert (e.next + 1) e.byID ↔ _
    rw [Finset.mem_insert, h.indexed]
  · rcases mem_append.mp (show j ∈ e.waiting ++ [e.next + 1] from hj) with hj | hj
    · rw [hheap (mem_live.mpr (.inl hj))]
      exact h.waiting j hj
    · rw [mem_singleton.mp hj, hnew]
      refine ⟨⟨hr.input, ?_⟩, rfl, rfl, ?_, ?_⟩
      · exact drawOutput_pos e d _ _
      · show r.inputTokens = r.inputTokens + ((0 : Nat) : Int)
        omega
      · have := hr.fits
        show r.inputTokens + 1 ≤ e.cfg.budget
        omega
  · rw [hheap (mem_live.mpr (.inr (.inl hj)))]
    exact h.prefilling j hj
  · rw [hheap (mem_live.mpr (.inr (.inr hj)))]
    exact h.running j hj
  · have hj' := fun hm => hj ((hmem j).mpr hm)
    have hjne : j ≠ e.next + 1 := fun hji => hj' (.inl hji)
    rw [show (e.enqueue d r).heap j = e.heap j from update_of_ne hjne _ _]
    exact h.dead j fun hm => hj' (.inr hm)
  · have hsum : (e.enqueue d r).held (e.enqueue d r).live =
        (e.enqueue d r).held ((e.next + 1) :: e.live) := (hperm.map _).sum_eq
    have hsame : (e.enqueue d r).held e.live = e.held e.live := by
      simp only [held]
      exact congrArg List.sum (map_congr_left fun j hj => by rw [hheap hj])
    have hcons : (e.enqueue d r).held ((e.next + 1) :: e.live) = (e.enqueue d r).held e.live := by
      simp only [held, map_cons, sum_cons, hnew, zero_add]
    rw [hsum, hcons, hsame]
    exact h.kv
  · have hlen : (e.enqueue d r).live.length = e.live.length + 1 := by
      rw [hperm.length_eq, length_cons]
    have hroom := hr.room
    have hslots := h.slots
    have hlive := e.length_live
    show ((e.enqueue d r).live.length : Int) ≤ e.cfg.maxSeqs + e.cfg.maxQueue
    rw [hlen]
    simp only [active] at hroom hslots
    rw [max_eq_left (by omega)] at hroom
    omega
  · have hlen : (e.enqueue d r).live.length = e.live.length + 1 := by
      rw [hperm.length_eq, length_cons]
    have := h.tally
    show e.submitted + 1 = e.completed + e.cancelled + e.kvEnded + _
    omega

/-- **Every small step keeps the invariant.** -/
theorem micro {t : Duration} {x y : List Nat × Engine} (h : Core x.1 x.2) (hm : Micro t x y) :
    Core y.1 y.2 := by
  cases hm with
  | control hs => exact h.sameBody hs
  | regroup hp => exact h.regroup hp
  | admitted hw hslot hkv => exact h.admitHead hw hslot hkv t
  | preempt hv _ hnot => exact h.preempt hv hnot t
  | kvEnd hv _ _ => exact h.kvEnd hv t
  | @begin P e p hp =>
    exact h.setPrefilling hp { h.prefilling p hp with } rfl
  | hold hi hP hkv => exact h.hold hi hP hkv
  | skip hi => exact h.skip hi
  | token hi => exact h.emitToken hi t
  | @chunk P e p c hp hc hlt =>
    have hseq := h.prefilling p hp
    exact h.setPrefilling hp { hseq with prefilled := ⟨add_nonneg hseq.prefilled.1 hc.le, hlt⟩ } rfl
  | promote hp hP => exact h.promote hp hP
  | cancel hi => exact h.cancel hi
  | enqueue hr => exact h.enqueue hr _

end Core

/-- Finitely many small steps. -/
abbrev Steps (t : Duration) := Relation.ReflTransGen (Micro t)

/-- A run of small steps keeps the invariant. -/
theorem Core.steps {t : Duration} {x y : List Nat × Engine} (h : Core x.1 x.2) (hs : Steps t x y) :
    Core y.1 y.2 := by
  induction hs with
  | refl => exact h
  | tail _ hm ih => exact ih.micro hm

end Engine

end ServerFlow.Sim
