import ServerFlow.Lib.Machine
import ServerFlow.Lib.Table
import ServerFlow.Signals.Tracker

/-!
# Signals.Ledger

The ledger of a tracker is exact: the `inflight` and `work` of an entry are the number and the
summed cost of the requests in flight that were begun on that very entry.

`Exact` relates a tracker to the leases that are out: one for each `Begin` whose `End` has not come,
with the cost that `AddCost` accepted. Every operation of the tracker has a rule for it. Generations
do the work when an entry is pruned and created again: they only grow (`Tracker.Later`), so a token
of an entry that is gone matches nothing that comes after it.

The `work` of an entry is an `int64`. With costs as the router's (`cost.Work` gives at most
`2 * MaxCost * maxWeight`) and at most `maxInflight` requests on an entry at a time (`Within`) no
sum is out of range: the largest is above nine tenths of the range.
-/

namespace ServerFlow.Signals

open List AList
open Resilience (Time Duration)
open Word (wrap wrap_eq)

variable {tok : Token} {t : Tracker}

/-- `Totals`: the ledger over all tracked workers. -/
def Tracker.totals (t : Tracker) : Int × Int :=
  ((t.entries.vals.map Entry.inflight).sum, (t.entries.vals.map Entry.work).sum)

/-! ### Leases -/

/-- What a request in flight has on the ledger: its token, and the cost that `AddCost` accepted. -/
structure Lease where
  tok : Token
  cost : Int
  deriving Repr, DecidableEq

/-- How many leases are out with a token. -/
def inflightOn (tok : Token) (ls : List Lease) : Int := ls.countP fun l => decide (l.tok = tok)

/-- The summed cost of the leases that are out with a token. -/
def workOn (tok : Token) (ls : List Lease) : Int :=
  ((ls.filter fun l => decide (l.tok = tok)).map Lease.cost).sum

/-- The largest cost of a request. -/
def maxWork : Int := 2 * 2 ^ 32 * 10 ^ 4

/-- The most requests in flight on an entry. -/
def maxInflight : Int := 100000

/-- The costs, and the number of leases with one token, are within the bounds. -/
def Within (ls : List Lease) : Prop :=
  (∀ l ∈ ls, l.cost ≤ maxWork) ∧ ∀ l ∈ ls, inflightOn l.tok ls ≤ maxInflight

instance (ls : List Lease) : Decidable (Within ls) := inferInstanceAs (Decidable (_ ∧ _))

/-- No sum of costs is out of range. -/
def Fits (ls : List Lease) : Prop := ∀ tok, workOn tok ls < 2 ^ 63

section Leases

variable {tok : Token} {l : Lease} {ls ls' : List Lease}

theorem inflightOn_cons (tok : Token) (l : Lease) (ls : List Lease) :
    inflightOn tok (l :: ls) = inflightOn tok ls + if l.tok = tok then 1 else 0 := by
  simp only [inflightOn, countP_cons, decide_eq_true_eq]
  split <;> simp

theorem workOn_cons (tok : Token) (l : Lease) (ls : List Lease) :
    workOn tok (l :: ls) = workOn tok ls + if l.tok = tok then l.cost else 0 := by
  simp only [workOn, filter_cons, decide_eq_true_eq]
  split
  · rw [map_cons, sum_cons, add_comm]
  · rw [add_zero]

theorem inflightOn_nonneg (tok : Token) (ls : List Lease) : 0 ≤ inflightOn tok ls :=
  Int.natCast_nonneg _

theorem workOn_nonneg (h : ∀ l ∈ ls, 0 ≤ l.cost) : 0 ≤ workOn tok ls := by
  refine sum_nonneg fun c hc => ?_
  obtain ⟨l, hl, rfl⟩ := mem_map.mp hc
  exact h l (mem_of_mem_filter hl)

theorem inflightOn_perm (h : ls.Perm ls') : inflightOn tok ls = inflightOn tok ls' := by
  rw [inflightOn, inflightOn, h.countP_eq]

theorem workOn_perm (h : ls.Perm ls') : workOn tok ls = workOn tok ls' :=
  ((h.filter _).map _).sum_eq

theorem Fits.perm (h : Fits ls) (hp : ls'.Perm ls) : Fits ls' := fun tok => workOn_perm hp ▸ h tok

theorem Within.fits (h : Within ls) : Fits ls := by
  intro tok
  have hsum : workOn tok ls ≤ inflightOn tok ls * maxWork := by
    rw [inflightOn, countP_eq_length_filter, ← length_map Lease.cost, ← nsmul_eq_mul]
    refine sum_le_card_nsmul _ _ fun c hc => ?_
    obtain ⟨l, hl, rfl⟩ := mem_map.mp hc
    exact h.1 l (mem_of_mem_filter hl)
  have hcount : inflightOn tok ls ≤ maxInflight := by
    by_cases hex : ∃ l ∈ ls, l.tok = tok
    · obtain ⟨l, hl, rfl⟩ := hex
      exact h.2 l hl
    · push Not at hex
      rw [inflightOn, countP_eq_zero.mpr (by simpa using hex)]
      decide
  unfold maxWork at hsum
  unfold maxInflight at hcount
  omega

/-- No lease has the token. -/
theorem counts_of_forall_ne (h : ∀ l ∈ ls, l.tok ≠ tok) :
    inflightOn tok ls = 0 ∧ workOn tok ls = 0 := by
  induction ls with
  | nil => exact ⟨rfl, rfl⟩
  | cons l ls ih =>
    obtain ⟨hin, hwork⟩ := ih fun l' hl' => h l' (mem_cons_of_mem l hl')
    have hne : l.tok ≠ tok := h l mem_cons_self
    rw [inflightOn_cons, workOn_cons, if_neg hne, if_neg hne, hin, hwork]
    exact ⟨rfl, rfl⟩

end Leases

/-! ### Generations -/

/-- The token is of no entry that is there. -/
def Token.Stale (t : Tracker) (tok : Token) : Prop :=
  ∀ e, t.entries.lookup tok.key = some e → e.gen ≠ tok.gen

/-- The entry of a token that is not stale. -/
theorem Token.current (h : ¬ tok.Stale t) :
    ∃ e, t.entries.lookup tok.key = some e ∧ e.gen = tok.gen := by
  simpa [Token.Stale] using h

/-- `t'` comes after `t`: an entry of it is one of `t`, or its generation is new. -/
structure Tracker.Later (t t' : Tracker) : Prop where
  nextGen : t.nextGen ≤ t'.nextGen
  gens : ∀ k e', t'.entries.lookup k = some e' →
    (∃ e, t.entries.lookup k = some e ∧ e.gen = e'.gen) ∨ t.nextGen < e'.gen

namespace Tracker.Later

variable {t t' t'' : Tracker}

theorem refl (t : Tracker) : t.Later t := ⟨le_rfl, fun _ e' h => .inl ⟨e', h, rfl⟩⟩

theorem trans (h : t.Later t') (h' : t'.Later t'') : t.Later t'' := by
  refine ⟨h.nextGen.trans h'.nextGen, fun k e'' hk => ?_⟩
  rcases h'.gens k e'' hk with ⟨e', hk', hgen⟩ | hlt
  · rw [← hgen]
    exact h.gens k e' hk'
  · exact .inr (h.nextGen.trans_lt hlt)

/-- An entry that is there is written. -/
theorem insert {k : Key} {e : Entry} (hk : t.entries.lookup k = some e) (e' : Entry)
    (hgen : e'.gen = e.gen) : t.Later { t with entries := t.entries.insert k e' } := by
  refine ⟨le_rfl, fun k' x hx => ?_⟩
  rcases of_lookup_insert hx with ⟨rfl, rfl⟩ | ⟨-, hx⟩
  · exact .inl ⟨e, hk, hgen.symm⟩
  · exact .inl ⟨x, hx, rfl⟩

/-- A token that is stale stays so. -/
theorem stale (h : t.Later t') (hgen : tok.gen ≤ t.nextGen) (hs : tok.Stale t) : tok.Stale t' := by
  intro e' hk
  rcases h.gens tok.key e' hk with ⟨e, he, heq⟩ | hlt
  · rw [← heq]
    exact hs e he
  · omega

end Tracker.Later

/-- A stale token does nothing. -/
theorem Token.Stale.addCost (h : tok.Stale t) (cost : Int) : t.addCost tok cost = (t, false) := by
  simp only [Tracker.addCost]
  split
  · rfl
  · cases hk : t.entries.lookup tok.key with
    | none => rfl
    | some e => exact if_pos (h e hk)

theorem Token.Stale.finish (h : tok.Stale t) (now : Time) (cost : Int) :
    (t.finish now tok cost).entries = t.entries ∧ (t.finish now tok cost).nextGen = t.nextGen := by
  simp only [Tracker.finish]
  split
  · exact ⟨rfl, rfl⟩
  · cases hk : (t.setEpoch now).entries.lookup tok.key with
    | none => exact ⟨rfl, rfl⟩
    | some e =>
      dsimp only
      rw [if_pos (h e hk)]
      exact ⟨rfl, rfl⟩

/-! ### The exact ledger -/

/-- The ledger of `t` is that of the leases `ls`. -/
structure Exact (t : Tracker) (ls : List Lease) : Prop where
  inflight : ∀ k e, t.entries.lookup k = some e → e.inflight = inflightOn ⟨k, e.gen⟩ ls
  work : ∀ k e, t.entries.lookup k = some e → e.work = workOn ⟨k, e.gen⟩ ls
  gens : ∀ k e, t.entries.lookup k = some e → 0 < e.gen ∧ e.gen ≤ t.nextGen
  issued : ∀ l ∈ ls, l.tok.gen ≤ t.nextGen
  costs : ∀ l ∈ ls, 0 ≤ l.cost

theorem exact_new (cfg : Config) : Exact (newTracker cfg) [] := by
  refine ⟨fun k e h => ?_, fun k e h => ?_, fun k e h => ?_, fun l h => ?_, fun l h => ?_⟩ <;>
    cases h

namespace Exact

variable {t t' : Tracker} {ls ls' : List Lease} {k : Key} {e : Entry}

theorem perm (h : Exact t ls) (hp : ls.Perm ls') : Exact t ls' :=
  ⟨fun k e hk => (h.inflight k e hk).trans (inflightOn_perm hp),
    fun k e hk => (h.work k e hk).trans (workOn_perm hp), h.gens,
    fun l hl => h.issued l (hp.mem_iff.mpr hl), fun l hl => h.costs l (hp.mem_iff.mpr hl)⟩

/-- Only the entries and the next generation matter. -/
theorem congr (h : Exact t ls) (hentries : t'.entries = t.entries) (hgen : t'.nextGen = t.nextGen) :
    Exact t' ls := by
  refine ⟨?_, ?_, ?_, ?_, h.costs⟩
  · rw [hentries]
    exact h.inflight
  · rw [hentries]
    exact h.work
  · rw [hentries, hgen]
    exact h.gens
  · rw [hgen]
    exact h.issued

theorem setEpoch (h : Exact t ls) (now : Time) : Exact (t.setEpoch now) ls := h.congr rfl rfl

/-- The zero token, of a worker that is not tracked, is stale. -/
theorem stale_zero (h : Exact t ls) (hzero : tok.valid = false) : tok.Stale t := by
  intro e hk heq
  have := (h.gens tok.key e hk).1
  simp only [Token.valid, ne_eq, decide_not, Bool.not_eq_false', decide_eq_true_eq] at hzero
  omega

/-- A lease with a stale token can be added or left out. -/
theorem cons_stale {l : Lease} (hs : l.tok.Stale t) :
    Exact t (l :: ls) ↔ Exact t ls ∧ l.tok.gen ≤ t.nextGen ∧ 0 ≤ l.cost := by
  have hne : ∀ k e, t.entries.lookup k = some e → ¬ l.tok = ⟨k, e.gen⟩ := by
    intro k e hk heq
    have hk' : t.entries.lookup l.tok.key = some e := by rw [heq]; exact hk
    exact hs e hk' (by rw [heq])
  have hcounts : ∀ k e, t.entries.lookup k = some e →
      inflightOn ⟨k, e.gen⟩ (l :: ls) = inflightOn ⟨k, e.gen⟩ ls ∧
        workOn ⟨k, e.gen⟩ (l :: ls) = workOn ⟨k, e.gen⟩ ls := by
    intro k e hk
    rw [inflightOn_cons, workOn_cons, if_neg (hne k e hk), if_neg (hne k e hk), add_zero, add_zero]
    exact ⟨rfl, rfl⟩
  constructor
  · intro h
    exact ⟨⟨fun k e hk => (h.inflight k e hk).trans (hcounts k e hk).1,
      fun k e hk => (h.work k e hk).trans (hcounts k e hk).2, h.gens,
      fun l' hl' => h.issued l' (mem_cons_of_mem l hl'),
      fun l' hl' => h.costs l' (mem_cons_of_mem l hl')⟩,
      h.issued l mem_cons_self, h.costs l mem_cons_self⟩
  · rintro ⟨h, hissued, hcost⟩
    refine ⟨fun k e hk => (h.inflight k e hk).trans (hcounts k e hk).1.symm,
      fun k e hk => (h.work k e hk).trans (hcounts k e hk).2.symm, h.gens, fun l' hl' => ?_,
      fun l' hl' => ?_⟩
    · rcases mem_cons.mp hl' with rfl | hl'
      · exact hissued
      · exact h.issued l' hl'
    · rcases mem_cons.mp hl' with rfl | hl'
      · exact hcost
      · exact h.costs l' hl'

/-- The entry of one token is written, and only the leases with that token change. -/
theorem write (h : Exact t ls) (hk : t.entries.lookup k = some e) {e' : Entry}
    (hgen : e'.gen = e.gen) (hin : e'.inflight = inflightOn ⟨k, e.gen⟩ ls')
    (hwork : e'.work = workOn ⟨k, e.gen⟩ ls') (hother : ∀ tok : Token, tok ≠ ⟨k, e.gen⟩ →
      inflightOn tok ls' = inflightOn tok ls ∧ workOn tok ls' = workOn tok ls)
    (hissued : ∀ l ∈ ls', l.tok.gen ≤ t.nextGen) (hcosts : ∀ l ∈ ls', 0 ≤ l.cost) :
    Exact { t with entries := t.entries.insert k e' } ls' := by
  have hne : ∀ {k' : Key} {x : Entry}, k' ≠ k → (⟨k', x.gen⟩ : Token) ≠ ⟨k, e.gen⟩ :=
    fun hne heq => hne (Token.mk.inj heq).1
  refine ⟨fun k' x hx => ?_, fun k' x hx => ?_, fun k' x hx => ?_, hissued, hcosts⟩
  · rcases of_lookup_insert hx with ⟨rfl, rfl⟩ | ⟨hk', hx⟩
    · rw [hgen]
      exact hin
    · rw [(hother _ (hne hk')).1]
      exact h.inflight k' x hx
  · rcases of_lookup_insert hx with ⟨rfl, rfl⟩ | ⟨hk', hx⟩
    · rw [hgen]
      exact hwork
    · rw [(hother _ (hne hk')).2]
      exact h.work k' x hx
  · rcases of_lookup_insert hx with ⟨rfl, rfl⟩ | ⟨-, hx⟩
    · rw [hgen]
      exact h.gens k' e hk
    · exact h.gens k' x hx

/-! ### The operations -/

/-- An entry is found or created. A created one has a generation that no lease has. -/
theorem entry (h : Exact t ls) (k : Key) (now : Time) :
    Exact (t.entry k now).1 ls ∧ t.Later (t.entry k now).1 ∧
      ∀ e, (t.entry k now).2 = some e → (t.entry k now).1.entries.lookup k = some e := by
  simp only [Tracker.entry]
  cases hk : t.entries.lookup k with
  | some e => exact ⟨h, .refl t, fun e' he' => by rw [← he']; exact hk⟩
  | none =>
    simp only [Tracker.create]
    split
    · exact ⟨h, .refl t, fun e' he' => (by cases he')⟩
    · have hnew : ∀ tok : Token, tok.gen = t.nextGen + 1 →
          inflightOn tok ls = 0 ∧ workOn tok ls = 0 := by
        intro tok htok
        refine counts_of_forall_ne fun l hl heq => ?_
        have := h.issued l hl
        rw [heq] at this
        omega
      refine ⟨⟨fun k' x hx => ?_, fun k' x hx => ?_, fun k' x hx => ?_,
        fun l hl => (h.issued l hl).trans (Nat.le_succ _), h.costs⟩,
        ⟨Nat.le_succ _, fun k' x hx => ?_⟩, fun e' he' => ?_⟩
      · rcases of_lookup_insert hx with ⟨-, rfl⟩ | ⟨-, hx⟩
        · exact (hnew _ rfl).1.symm
        · exact h.inflight k' x hx
      · rcases of_lookup_insert hx with ⟨-, rfl⟩ | ⟨-, hx⟩
        · exact (hnew _ rfl).2.symm
        · exact h.work k' x hx
      · rcases of_lookup_insert hx with ⟨-, rfl⟩ | ⟨-, hx⟩
        · exact ⟨Nat.succ_pos _, le_rfl⟩
        · exact ⟨(h.gens k' x hx).1, (h.gens k' x hx).2.trans (Nat.le_succ _)⟩
      · rcases of_lookup_insert hx with ⟨-, rfl⟩ | ⟨-, hx⟩
        · exact .inr (Nat.lt_succ_self _)
        · exact .inl ⟨x, hx, rfl⟩
      · obtain rfl := Option.some.inj he'
        exact lookup_insert _

/-- `Begin` puts one lease out, with no cost yet. -/
theorem begin (h : Exact t ls) (now : Time) (k : Key) :
    Exact (t.begin now k).1 (⟨(t.begin now k).2, 0⟩ :: ls) ∧ t.Later (t.begin now k).1 := by
  obtain ⟨hex, hlater, hfound⟩ := (h.setEpoch now).entry k now
  have hep : t.Later (t.setEpoch now) := ⟨le_rfl, fun _ e' hk => .inl ⟨e', hk, rfl⟩⟩
  have hlater := hep.trans hlater
  simp only [Tracker.begin]
  rcases hentry : (t.setEpoch now).entry k now with ⟨t', _ | e⟩
  · rw [hentry] at hex hlater
    refine ⟨(cons_stale (hex.stale_zero rfl)).mpr ⟨hex, Nat.zero_le _, le_rfl⟩, hlater⟩
  · rw [hentry] at hex hlater hfound
    have hk : t'.entries.lookup k = some e := hfound e rfl
    refine ⟨hex.write hk rfl ?_ ?_ (fun tok htok => ?_) (fun l hl => ?_) (fun l hl => ?_),
      hlater.trans (.insert hk _ rfl)⟩
    · rw [inflightOn_cons, if_pos rfl, ← hex.inflight k e hk]
    · rw [workOn_cons, if_pos rfl, ← hex.work k e hk, add_zero]
    · rw [inflightOn_cons, workOn_cons, if_neg (Ne.symm htok), if_neg (Ne.symm htok), add_zero,
        add_zero]
      exact ⟨rfl, rfl⟩
    · rcases mem_cons.mp hl with rfl | hl
      · exact (hex.gens k e hk).2
      · exact hex.issued l hl
    · rcases mem_cons.mp hl with rfl | hl
      · exact le_rfl
      · exact hex.costs l hl

/-- `AddCost` on a lease that has no cost yet: the lease has what was accepted. -/
theorem addCost (h : Exact t (⟨tok, 0⟩ :: ls)) (cost : Int)
    (hfit : Fits (⟨tok, if (t.addCost tok cost).2 then cost else 0⟩ :: ls)) :
    Exact (t.addCost tok cost).1 (⟨tok, if (t.addCost tok cost).2 then cost else 0⟩ :: ls) ∧
      t.Later (t.addCost tok cost).1 := by
  by_cases hs : tok.Stale t
  · rw [hs.addCost cost]
    exact ⟨h, .refl t⟩
  obtain ⟨e, hk, hgen⟩ := Token.current hs
  have hnonneg : 0 ≤ workOn tok ls := workOn_nonneg fun l hl => h.costs l (mem_cons_of_mem _ hl)
  simp only [Tracker.addCost, hk, ne_eq, hgen, not_true_eq_false, if_false] at hfit ⊢
  split
  · exact ⟨h, .refl t⟩
  next hguard =>
    rw [if_neg hguard, if_pos rfl] at hfit
    have hfit := hfit tok
    rw [workOn_cons, if_pos rfl] at hfit
    have hcost : 0 < cost := by
      by_contra hle
      exact hguard (by simp [not_lt.mp hle])
    have htok : (⟨tok.key, e.gen⟩ : Token) = tok := by rw [hgen]
    have hin := h.inflight tok.key e hk
    have hwork := h.work tok.key e hk
    rw [htok, inflightOn_cons, if_pos rfl] at hin
    rw [htok, workOn_cons, if_pos rfl] at hwork
    refine ⟨h.write hk hgen.symm ?_ ?_ (fun tok' htok' => ?_) (fun l hl => ?_) (fun l hl => ?_),
      .insert hk _ hgen.symm⟩
    · rw [htok, inflightOn_cons, if_pos rfl]
      exact hin
    · rw [htok, workOn_cons, if_pos rfl, if_pos rfl, hwork, add_zero]
      exact wrap_eq (by omega) hfit
    · rw [htok] at htok'
      simp only [inflightOn_cons, workOn_cons, if_neg (Ne.symm htok'), and_self]
    · rcases mem_cons.mp hl with rfl | hl
      · exact h.issued ⟨tok, 0⟩ mem_cons_self
      · exact h.issued l (mem_cons_of_mem _ hl)
    · rcases mem_cons.mp hl with rfl | hl
      · exact hcost.le
      · exact h.costs l (mem_cons_of_mem _ hl)

/-- **The clamps of `End` do nothing**: the entry has the lease's request and cost. -/
theorem unclamped {l : Lease} (h : Exact t ls) (hl : l ∈ ls)
    (hk : t.entries.lookup l.tok.key = some e) (hgen : e.gen = l.tok.gen) :
    0 < e.inflight ∧ 0 ≤ e.work - l.cost := by
  have hex := h.perm (perm_cons_erase hl)
  have htok : (⟨l.tok.key, e.gen⟩ : Token) = l.tok := by rw [hgen]
  have hin := hex.inflight _ e hk
  have hwork := hex.work _ e hk
  rw [htok, inflightOn_cons, if_pos rfl] at hin
  rw [htok, workOn_cons, if_pos rfl] at hwork
  have := inflightOn_nonneg l.tok (ls.erase l)
  have : 0 ≤ workOn l.tok (ls.erase l) :=
    workOn_nonneg fun l' hl' => hex.costs l' (mem_cons_of_mem l hl')
  omega

/-- `End` takes the lease back. -/
theorem finish {l : Lease} (h : Exact t (l :: ls)) (hfit : Fits ls) (now : Time) :
    Exact (t.finish now l.tok l.cost) ls ∧ t.Later (t.finish now l.tok l.cost) := by
  by_cases hs : l.tok.Stale t
  · obtain ⟨hentries, hgen⟩ := hs.finish now l.cost
    refine ⟨((cons_stale hs).mp h).1.congr hentries hgen, ?_⟩
    exact ⟨hgen.ge, fun k e' hk => .inl ⟨e', hentries ▸ hk, rfl⟩⟩
  obtain ⟨e, hk, hgen⟩ := Token.current hs
  have hvalid : l.tok.valid = true := by
    by_contra hno
    exact hs (h.stale_zero (by simpa using hno))
  have htok : (⟨l.tok.key, e.gen⟩ : Token) = l.tok := by rw [hgen]
  obtain ⟨hpos, hrest⟩ := h.unclamped mem_cons_self hk hgen
  have hin := h.inflight l.tok.key e hk
  have hwork := h.work l.tok.key e hk
  rw [htok, inflightOn_cons, if_pos rfl] at hin
  rw [htok, workOn_cons, if_pos rfl] at hwork
  have hk' : (t.setEpoch now).entries.lookup l.tok.key = some e := hk
  have hep : t.Later (t.setEpoch now) := ⟨le_rfl, fun _ e' hk => .inl ⟨e', hk, rfl⟩⟩
  simp only [Tracker.finish, hvalid, Bool.not_true, Bool.false_eq_true, if_false, hk', ne_eq, hgen,
    not_true_eq_false]
  refine ⟨(h.setEpoch now).write hk' hgen.symm ?_ ?_ (fun tok htok' => ?_)
    (fun l' hl' => h.issued l' (mem_cons_of_mem l hl'))
    (fun l' hl' => h.costs l' (mem_cons_of_mem l hl')), hep.trans (.insert hk' _ hgen.symm)⟩
  · dsimp only
    rw [htok, if_pos hpos]
    omega
  · dsimp only
    rw [htok, wrap_eq (by omega) (by have := hfit l.tok; omega), max_eq_left hrest]
    have := h.costs l mem_cons_self
    split <;> omega
  · rw [htok] at htok'
    simp only [inflightOn_cons, workOn_cons, if_neg (Ne.symm htok'), add_zero, and_self]

/-- One worker of a registry snapshot. -/
theorem observe (h : Exact t ls) (now : Time) (o : Observation) :
    Exact (t.observe now o) ls ∧ t.Later (t.observe now o) := by
  obtain ⟨hex, hlater, hfound⟩ := h.entry o.key now
  simp only [Tracker.observe]
  rcases hentry : t.entry o.key now with ⟨t', _ | e⟩
  · rw [hentry] at hex hlater
    exact ⟨hex, hlater⟩
  · rw [hentry] at hex hlater hfound
    have hk : t'.entries.lookup o.key = some e := hfound e rfl
    -- a reset changes the history, not the ledger
    obtain ⟨e', he', hgen, hin, hwork⟩ : ∃ e' : Entry,
        e' = (if e.wentBack o then { e with hist := .empty, validFrom := now } else e) ∧
          e'.gen = e.gen ∧ e'.inflight = e.inflight ∧ e'.work = e.work := by
      refine ⟨_, rfl, ?_⟩
      split <;> exact ⟨rfl, rfl, rfl⟩
    dsimp only
    rw [← he']
    refine ⟨hex.write hk hgen ?_ ?_ (fun tok _ => ⟨rfl, rfl⟩) hex.issued hex.costs,
      hlater.trans (.insert hk _ hgen)⟩
    · exact hin.trans (hex.inflight o.key e hk)
    · exact hwork.trans (hex.work o.key e hk)

/-- `Sync` changes no ledger: what it prunes is gone, and what it creates is new. -/
theorem sync (h : Exact t ls) (now : Time) (members : List Observation) :
    Exact (t.sync now members) ls ∧ t.Later (t.sync now members) := by
  have hfold : ∀ (ms : List Observation) {t : Tracker}, Exact t ls →
      Exact (ms.foldl (Tracker.observe now) t) ls ∧ t.Later (ms.foldl (Tracker.observe now) t) := by
    intro ms
    induction ms with
    | nil => exact fun {t} h => ⟨h, .refl t⟩
    | cons o ms ih =>
      intro t h
      obtain ⟨hex, hlater⟩ := h.observe now o
      exact ⟨(ih hex).1, hlater.trans (ih hex).2⟩
  obtain ⟨hex, hlater⟩ := hfold members (h.setEpoch now)
  have hkept : ∀ k e, (t.sync now members).entries.lookup k = some e →
      (members.foldl (Tracker.observe now) (t.setEpoch now)).entries.lookup k = some e := by
    exact fun k e hk => (of_lookup_keep hk).1
  refine ⟨⟨fun k e hk => hex.inflight k e (hkept k e hk), fun k e hk => hex.work k e (hkept k e hk),
    fun k e hk => hex.gens k e (hkept k e hk), hex.issued, hex.costs⟩, ?_⟩
  exact ⟨hlater.nextGen, fun k e hk => hlater.gens k e (hkept k e hk)⟩

theorem overlay (h : Exact t ls) (now : Time) (inp : Input) :
    Exact (t.overlay now inp).1 ls ∧ t.Later (t.overlay now inp).1 := by
  have heq : (t.overlay now inp).1 = t.setEpoch now := by
    simp only [Tracker.overlay]
    split
    · rfl
    · split
      · rfl
      · split <;> rfl
  rw [heq]
  exact ⟨h.setEpoch now, ⟨le_rfl, fun _ e' hk => .inl ⟨e', hk, rfl⟩⟩⟩

/-- With no lease out, the totals are zero. -/
theorem totals (h : Exact t []) : t.totals = (0, 0) := by
  have hzero : ∀ e ∈ t.entries.vals, e.inflight = 0 ∧ e.work = 0 := by
    intro e he
    obtain ⟨⟨k, e'⟩, hmem, rfl⟩ := mem_map.mp he
    have hk := AList.lookup_eq_some_iff.mpr hmem
    exact ⟨h.inflight k e' hk, h.work k e' hk⟩
  have hsum : ∀ f : Entry → Int, (∀ e ∈ t.entries.vals, f e = 0) → (t.entries.vals.map f).sum = 0 :=
    fun f hf => sum_eq_zero fun x hx => by
      obtain ⟨e, he, rfl⟩ := mem_map.mp hx
      exact hf e he
  simp only [Tracker.totals]
  rw [hsum _ fun e he => (hzero e he).1, hsum _ fun e he => (hzero e he).2]

end Exact

/-- A tracker's ledger is that of the leases `ls`: each entry has the requests and the cost of the
leases with its own token, the clamps of `End` would do nothing for any of them, and if there are
none the totals are zero. -/
def Tracker.Balanced (t : Tracker) (ls : List Lease) : Prop :=
  (∀ k e, t.entries.lookup k = some e →
    e.inflight = inflightOn ⟨k, e.gen⟩ ls ∧ e.work = workOn ⟨k, e.gen⟩ ls) ∧
  (∀ l ∈ ls, ∀ e, t.entries.lookup l.tok.key = some e → e.gen = l.tok.gen →
    0 < e.inflight ∧ 0 ≤ e.work - l.cost) ∧
  (ls = [] → t.totals = (0, 0))

theorem Exact.balanced {ls : List Lease} (h : Exact t ls) : t.Balanced ls := by
  refine ⟨fun k e hk => ⟨h.inflight k e hk, h.work k e hk⟩, fun l hl e hk hgen => ?_, ?_⟩
  · exact h.unclamped hl hk hgen
  · rintro rfl
    exact h.totals

/-! ### Requests -/

/-- A request, between its `Begin` and its `End`. -/
structure Req where
  tok : Token
  /-- What `AddCost` accepted. -/
  cost : Int
  charged : Bool
  ended : Bool

def Req.lease? (r : Req) : Option Lease := if r.ended then none else some ⟨r.tok, r.cost⟩

theorem Req.lease?_of_not_ended {r : Req} (h : r.ended = false) :
    r.lease? = some ⟨r.tok, r.cost⟩ := if_neg (by rw [h]; exact Bool.false_ne_true)

/-- A tracker and the requests that were begun on it. -/
structure LedgerSys where
  t : Tracker
  reqs : List Req

inductive LedgerAct
  | sync (now : Time) (members : List Observation)
  | begin (now : Time) (k : Key)
  | addCost (i : Nat) (cost : Int)
  | finish (i : Nat) (now : Time)
  | overlay (now : Time) (inp : Input)

def LedgerSys.start (cfg : Config) : LedgerSys := ⟨newTracker cfg, []⟩

/-- One call. A request calls `Begin` once, `AddCost` at most once, and `End` once, with the cost
that was accepted. -/
def LedgerSys.step (s : LedgerSys) : LedgerAct → Option LedgerSys
  | .sync now members => some { s with t := s.t.sync now members }
  | .begin now k =>
    let b := s.t.begin now k
    some ⟨b.1, s.reqs ++ [⟨b.2, 0, false, false⟩]⟩
  | .addCost i cost =>
    match s.reqs[i]? with
    | none => none
    | some r =>
      if r.charged || r.ended then none
      else
        let a := s.t.addCost r.tok cost
        some ⟨a.1, s.reqs.set i { r with cost := if a.2 then cost else 0, charged := true }⟩
  | .finish i now =>
    match s.reqs[i]? with
    | none => none
    | some r =>
      if r.ended then none
      else some ⟨s.t.finish now r.tok r.cost, s.reqs.set i { r with ended := true }⟩
  | .overlay now inp => some { s with t := (s.t.overlay now inp).1 }

def LedgerSys.leases (s : LedgerSys) : List Lease := s.reqs.filterMap Req.lease?

/-- One call, with the requests in flight within the bounds. -/
def LedgerSys.stepWithin (s : LedgerSys) (a : LedgerAct) : Option LedgerSys :=
  (s.step a).filter fun s' => Within s'.leases

/-- The ledger is exact, tokens are of generations that were issued, and there is no cost before
`AddCost`. -/
structure LedgerOk (s : LedgerSys) : Prop where
  exact_ : Exact s.t s.leases
  issued : ∀ r ∈ s.reqs, r.tok.gen ≤ s.t.nextGen
  uncharged : ∀ r ∈ s.reqs, r.charged = false → r.cost = 0

theorem ledgerOk_start (cfg : Config) : LedgerOk (.start cfg) :=
  ⟨exact_new cfg, nofun, nofun⟩

namespace LedgerOk

variable {s s' : LedgerSys}

theorem step (h : LedgerOk s) {a : LedgerAct} (ha : s.stepWithin a = some s') :
    LedgerOk s' ∧ s.t.Later s'.t := by
  replace ⟨ha, hin⟩ := Option.filter_eq_some_iff.mp ha
  replace hin : Fits s'.leases := (of_decide_eq_true hin).fits
  have hissued : ∀ {t : Tracker}, s.t.Later t → ∀ r ∈ s.reqs, r.tok.gen ≤ t.nextGen :=
    fun hlater r hr =>
    (h.issued r hr).trans hlater.nextGen
  -- one request changes, and keeps its token
  have hset : ∀ {i : Nat} {r r' : Req} {t : Tracker}, s.reqs[i]? = some r → s.t.Later t →
      Exact t (s.reqs.set i r' |>.filterMap Req.lease?) → r'.tok = r.tok →
        (r'.charged = false → r'.cost = 0) →
      LedgerOk ⟨t, s.reqs.set i r'⟩ := by
    intro i r r' t hr hlater hex htok hcost
    refine ⟨hex, fun x hx => ?_, fun x hx => ?_⟩
    · rcases mem_or_eq_of_mem_set hx with hx | rfl
      · exact hissued hlater x hx
      · rw [htok]
        exact hissued hlater r (mem_of_getElem? hr)
    · rcases mem_or_eq_of_mem_set hx with hx | rfl
      · exact h.uncharged x hx
      · exact hcost
  revert ha
  fun_cases LedgerSys.step s a <;> intro ha <;> cases ha
  next now members =>
    obtain ⟨hex, hlater⟩ := h.exact_.sync now members
    exact ⟨⟨hex, hissued hlater, h.uncharged⟩, hlater⟩
  next now k _ =>
    obtain ⟨hex, hlater⟩ := h.exact_.begin now k
    refine ⟨⟨hex.perm ?_, fun r hr => ?_, fun r hr => ?_⟩, hlater⟩
    · simp only [LedgerSys.leases, filterMap_append]
      exact (perm_append_singleton _ _).symm
    · rcases mem_append.mp hr with hr | hr
      · exact hissued hlater r hr
      · rw [mem_singleton.mp hr]
        exact hex.issued _ mem_cons_self
    · rcases mem_append.mp hr with hr | hr
      · exact h.uncharged r hr
      · rw [mem_singleton.mp hr]
        exact fun _ => rfl
  next i cost r hr hguard _ =>
    obtain ⟨hcharged, hended⟩ : r.charged = false ∧ r.ended = false := by simpa using hguard
    have hlease : r.lease? = some ⟨r.tok, 0⟩ := by
      rw [Req.lease?_of_not_ended hended, h.uncharged r (mem_of_getElem? hr) hcharged]
    have hout := h.exact_.perm (Table.filterMap_perm hr Req.lease?)
    rw [hlease] at hout
    have hsplit := Table.filterMap_set_perm hr { r with
      cost := if (s.t.addCost r.tok cost).2 then cost else 0
      charged := true } Req.lease?
    rw [Req.lease?_of_not_ended (by exact hended)] at hsplit
    obtain ⟨hex, hlater⟩ := hout.addCost cost (hin.perm hsplit.symm)
    exact ⟨hset hr hlater (hex.perm hsplit.symm) rfl nofun, hlater⟩
  next i now r hr hended =>
    have hout := h.exact_.perm (Table.filterMap_perm hr Req.lease?)
    rw [Req.lease?, if_neg hended] at hout
    have hsplit := (Table.filterMap_set_perm hr { r with ended := true } Req.lease?).symm
    obtain ⟨hex, hlater⟩ := hout.finish (hin.perm hsplit) now
    exact ⟨hset hr hlater (hex.perm hsplit) rfl (h.uncharged r (mem_of_getElem? hr)), hlater⟩
  next now inp =>
    obtain ⟨hex, hlater⟩ := h.exact_.overlay now inp
    exact ⟨⟨hex, hissued hlater, h.uncharged⟩, hlater⟩

/-- Whatever is reached from a reachable state comes after it. -/
theorem later (h : LedgerOk s) (hreach : Machine.Reach LedgerSys.stepWithin s s') :
    s.t.Later s'.t := by
  refine (hreach.invariant (P := fun s' => LedgerOk s' ∧ s.t.Later s'.t) ⟨h, .refl _⟩ ?_).2
  intro s₁ s₂ a h₁ ha
  obtain ⟨hok, hlater⟩ := h₁.1.step ha
  exact ⟨hok, h₁.2.trans hlater⟩

theorem of_reach {cfg : Config} (hreach : Machine.Reach LedgerSys.stepWithin (.start cfg) s) :
    LedgerOk s :=
  hreach.invariant (P := LedgerOk) (ledgerOk_start cfg) fun _ _ _ h ha => (h.step ha).1

end LedgerOk

end ServerFlow.Signals
