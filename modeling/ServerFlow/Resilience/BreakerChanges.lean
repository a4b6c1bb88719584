import ServerFlow.Resilience.BreakersReads
import ServerFlow.Resilience.BreakerMoves

/-!
# Resilience.BreakerChanges

The changes that an operation hands to the hook are the state changes that it made, in their order:
read as a path, the changes of a registration lead from the state its breaker had to the one it has
(`Moves`). A breaker that `Sync` makes starts closed and without a change. With that, the changes of
a run say what state every breaker is in (`Tracks`).
-/

namespace ServerFlow.Resilience

open List AList

variable {cs : List Change} {bs : Breakers}

/-- Follow the changes from a state. `none` if one of them does not start where the last one
ended. -/
def follow : State → List Change → Option State
  | st, [] => some st
  | st, c :: cs => if c.before = st then follow c.after cs else none

theorem follow_append (st : State) (cs cs' : List Change) :
    follow st (cs ++ cs') = (follow st cs).bind fun st' => follow st' cs' := by
  induction cs generalizing st with
  | nil => rfl
  | cons c cs ih =>
    simp only [cons_append, follow]
    split
    · exact ih c.after
    · rfl

/-- The last change says where the path ends. -/
theorem follow_getLast {st st' : State} (h : follow st cs = some st') (hne : cs ≠ []) :
    (cs.getLast?).map (·.after) = some st' := by
  obtain ⟨cs', c, rfl⟩ := eq_nil_or_concat' cs |>.resolve_left hne
  rw [follow_append] at h
  obtain ⟨mid, -, hlast⟩ := Option.bind_eq_some_iff.mp h
  simp only [follow] at hlast
  split at hlast
  · rw [List.getLast?_concat]
    exact hlast
  · cases hlast

/-- The changes of one registration. -/
def changesOf (k : Key) (cs : List Change) : List Change := cs.filter fun c => decide (c.key = k)

theorem changesOf_append (k : Key) (cs cs' : List Change) :
    changesOf k (cs ++ cs') = changesOf k cs ++ changesOf k cs' := filter_append _ _

theorem changesOf_self {k : Key} (h : ∀ c ∈ cs, c.key = k) : changesOf k cs = cs :=
  filter_eq_self.mpr fun c hc => decide_eq_true (h c hc)

theorem changesOf_other {k k' : Key} (h : ∀ c ∈ cs, c.key = k) (hne : k ≠ k') :
    changesOf k' cs = [] :=
  filter_eq_nil_iff.mpr fun c hc heq => hne ((h c hc).symm.trans (of_decide_eq_true heq))

variable {bs bs' bs'' : Breakers} {now : Time} {id : String} {b b' : Breaker} {cs cs' : List Change}
  {keys : List Key}

/-! ### One breaker -/

/-- The changes are the breaker's, and lead from its state to the next one's. -/
structure Breaker.Changed (b b' : Breaker) (cs : List Change) : Prop where
  key : b'.key = b.key
  own : ∀ c ∈ cs, c.key = b.key
  path : follow b.state cs = some b'.state

namespace Breaker.Changed

theorem quiet (hkey : b'.key = b.key) (hstate : b'.state = b.state) : b.Changed b' [] :=
  ⟨hkey, fun _ hc => absurd hc not_mem_nil, congrArg some hstate.symm⟩

theorem one {c : Change} (hkey : b'.key = b.key) (hc : c.key = b.key) (hbefore : c.before = b.state)
    (hafter : c.after = b'.state) : b.Changed b' [c] where
  key := hkey
  own := fun c' hc' => by rw [mem_singleton.mp hc', hc]
  path := by
    simp only [follow]
    rw [if_pos hbefore, hafter]

end Breaker.Changed

theorem Breaker.Changed.advance {now : Time} {p : BreakerParams} (b : Breaker) :
    b.Changed (b.advance now p).1 (b.advance now p).2 := by
  unfold Breaker.advance
  split
  next h => exact .one rfl rfl h.1.symm rfl
  next =>
    split
    · exact .quiet rfl rfl
    · exact .quiet rfl rfl

theorem Breaker.Act.changed {e : Errand} {now : Time} {b b' : Breaker}
    (h : b.Act e bs now b' cs) : b.Changed b' cs := by
  cases h with
  | recover hhalf => exact .one rfl rfl hhalf.symm rfl
  | reopen hhalf => exact .one rfl rfl hhalf.symm rfl
  | count hclosed okAt v => rw [b.tallied_eq]; exact .quiet rfl rfl
  | suppress hclosed okAt v => rw [b.tallied_eq]; exact .one rfl rfl hclosed.symm hclosed.symm
  | trip hclosed hroom okAt v => rw [b.tallied_eq]; exact .one rfl rfl hclosed.symm rfl
  | _ => exact .quiet rfl rfl

/-! ### Sets of breakers -/

/-- No breaker is new, and the changes of each one lead from the state it had to the one it has. -/
def Breakers.Moves (bs bs' : Breakers) (cs : List Change) : Prop :=
  ∀ id b', bs'.byID.lookup id = some b' → ∃ b, bs.byID.lookup id = some b ∧ b'.key = b.key ∧
    follow b.state (changesOf b.key cs) = some b'.state

namespace Breakers.Moves

theorem refl (bs : Breakers) : bs.Moves bs [] := fun _ b hb => ⟨b, hb, rfl, rfl⟩

theorem trans (h : bs.Moves bs' cs) (h' : bs'.Moves bs'' cs') : bs.Moves bs'' (cs ++ cs') := by
  intro id b'' hb''
  obtain ⟨b', hb', hkey', hpath'⟩ := h' id b'' hb''
  obtain ⟨b, hb, hkey, hpath⟩ := h id b' hb'
  refine ⟨b, hb, hkey'.trans hkey, ?_⟩
  rw [changesOf_append, follow_append, hpath]
  rw [hkey] at hpath'
  exact hpath'

theorem keyed (h : bs.Moves bs' cs) (hk : bs.Keyed) : bs'.Keyed := by
  intro id b' hb'
  obtain ⟨b, hb, hkey, -⟩ := h id b' hb'
  rw [hkey]
  exact hk id b hb

theorem of_byID (h : bs.Moves bs' cs) (heq : bs''.byID = bs'.byID) : bs.Moves bs'' cs := by
  intro id b hb
  rw [heq] at hb
  exact h id b hb

theorem set (hk : bs.Keyed) (hb : bs.byID.lookup id = some b) (h : b.Changed b' cs) :
    bs.Moves (bs.set id b') cs := by
  intro id' c hc
  rcases of_lookup_insert hc with ⟨rfl, rfl⟩ | ⟨hne, hc⟩
  · refine ⟨b, hb, h.key, ?_⟩
    rw [changesOf_self h.own]
    exact h.path
  · refine ⟨c, hc, rfl, ?_⟩
    have hother : b.key ≠ c.key := by
      intro heq
      refine hne ?_
      rw [← hk id b hb, ← hk id' c hc, heq]
    rw [changesOf_other h.own hother]
    rfl

theorem keep (bs : Breakers) (q : String → Breaker → Bool) :
    bs.Moves { bs with byID := bs.byID.keep q } [] := by
  intro id b hb
  exact ⟨b, (of_lookup_keep hb).1, rfl, rfl⟩

theorem walk {e : Errand} (h : Breakers.Walk e now bs bs' cs) (hk : bs.Keyed) :
    bs.Moves bs' cs := by
  induction h with
  | refl bs => exact refl bs
  | @advance bs bs' id b cs' he hb hwalk ih =>
    have hset : bs.Moves (bs.set id (b.advance now bs.p).1) _ := set hk hb (.advance b)
    exact hset.trans (ih (hset.keyed hk))
  | act d n he hb hact => exact (set hk hb hact.changed).of_byID rfl
  | @relax bs bs' id b model cs' he hb hej hwalk ih =>
    have hset : bs.Moves (bs.set id (b.close now))
      [Change.plain b.key b.state .closed .capRelaxed 0] :=
      set hk hb (.one rfl rfl rfl rfl)
    exact hset.trans (ih (hset.keyed hk))

/-- What comes after the breakers are kept: they are counted, and the cap is enforced. -/
theorem keep_enforceCap (hk : bs.Keyed) (q : String → Breaker → Bool) (now : Time)
    (order : List String) :
    bs.Moves (({ bs with byID := bs.byID.keep q } : Breakers).recountEligible.enforceCap now
      order).1
      (({ bs with byID := bs.byID.keep q } : Breakers).recountEligible.enforceCap now order).2 := by
  have hkeep : bs.Moves ({ bs with byID := bs.byID.keep q } : Breakers).recountEligible [] :=
    (keep bs q).of_byID rfl
  exact hkeep.trans (walk (.enforceCap _ now order) (hkeep.keyed hk))

/-- Every call but `Sync`. -/
theorem step (hk : bs.Keyed) (c : BreakersCall) (hsync : ∀ members, c.op ≠ .sync members) :
    bs.Moves (bs.step c).1 (bs.step c).2.2 := by
  have hwalk := bs.step_walk c
  obtain ⟨now, order, op⟩ := c
  cases op with
  | sync members => exact absurd rfl (hsync members)
  | prune keys => exact keep_enforceCap hk _ now order
  | _ => exact walk (hwalk rfl) hk

end Breakers.Moves

/-! ### The registry view -/

/-- The breaker was there before, or it starts closed: its registration is listed, and had none. -/
def Breakers.Renewed (keys : List Key) (bs bs' : Breakers) : Prop :=
  ∀ id b', bs'.byID.lookup id = some b' →
    (∃ b, bs.byID.lookup id = some b ∧ b'.key = b.key ∧ b'.state = b.state) ∨
      (b'.state = .closed ∧ b'.key ∈ keys ∧ bs.find b'.key = none)

theorem renewed_syncMember (hk : bs.Keyed) (m : Member) :
    (bs.syncMember m).Keyed ∧ Breakers.Renewed [m.key] bs (bs.syncMember m) ∧
      ∀ id, id ≠ m.key.id → (bs.syncMember m).byID.lookup id = bs.byID.lookup id := by
  have hother : ∀ id, id ≠ m.key.id → (bs.syncMember m).byID.lookup id = bs.byID.lookup id := by
    intro id hid
    simp only [Breakers.syncMember, Breakers.set, lookup_insert_ite, if_neg hid]
  have hown : ∃ b', (bs.syncMember m).byID.lookup m.key.id = some b' ∧ b'.key = m.key ∧
      ((∃ b, bs.byID.lookup m.key.id = some b ∧ b'.key = b.key ∧ b'.state = b.state) ∨
        (b'.state = .closed ∧ b'.key ∈ [m.key] ∧ bs.find b'.key = none)) := by
    refine ⟨_, lookup_insert _, ?_⟩
    cases hfind : bs.find m.key with
    | some b =>
      obtain ⟨hb, hkey⟩ := find_eq_some hfind
      exact ⟨hkey, .inl ⟨b, hb, rfl, rfl⟩⟩
    | none => exact ⟨rfl, .inr ⟨rfl, mem_singleton_self _, hfind⟩⟩
  obtain ⟨b₀, hb₀, hkey₀, hren₀⟩ := hown
  refine ⟨fun id b' hb' => ?_, fun id b' hb' => ?_, hother⟩
  · by_cases hid : id = m.key.id
    · subst hid
      obtain rfl := Option.some.inj (hb₀.symm.trans hb')
      rw [hkey₀]
    · rw [hother id hid] at hb'
      exact hk id b' hb'
  · by_cases hid : id = m.key.id
    · subst hid
      obtain rfl := Option.some.inj (hb₀.symm.trans hb')
      exact hren₀
    · rw [hother id hid] at hb'
      exact .inl ⟨b', hb', rfl, rfl⟩

/-- A registration of another worker is found as before. -/
theorem find_of_lookup {bs' : Breakers} {k : Key} (h : bs'.byID.lookup k.id = bs.byID.lookup k.id) :
    bs'.find k = bs.find k := by
  simp only [Breakers.find, h]

/-- A view that lists each worker once. -/
theorem renewed_members {members : List Member} (hids : (memberIDs members).Nodup) (hk : bs.Keyed) :
    (members.foldl Breakers.syncMember bs).Keyed ∧
      Breakers.Renewed (members.map Member.key) bs (members.foldl Breakers.syncMember bs) ∧
      ∀ id, id ∉ memberIDs members →
        (members.foldl Breakers.syncMember bs).byID.lookup id = bs.byID.lookup id := by
  induction members generalizing bs with
  | nil => exact ⟨hk, fun id b hb => .inl ⟨b, hb, rfl, rfl⟩, fun id _ => rfl⟩
  | cons m members ih =>
    have hcons : memberIDs (m :: members) = m.key.id :: memberIDs members := rfl
    rw [hcons, nodup_cons] at hids
    obtain ⟨hk₁, hren₁, hother₁⟩ := renewed_syncMember hk m
    obtain ⟨hk₂, hren₂, hother₂⟩ := ih hids.2 hk₁
    refine ⟨hk₂, fun id b' hb' => ?_, fun id hid => ?_⟩
    · by_cases hid : id = m.key.id
      · have hsame := hother₂ id (hid ▸ hids.1)
        rcases hren₁ id b' (hsame ▸ hb') with hold | ⟨hclosed, hkey, hnone⟩
        · exact .inl hold
        · exact .inr ⟨hclosed, mem_cons.mpr (.inl (mem_singleton.mp hkey)), hnone⟩
      · have hbid : b'.key.id = id := hk₂ id b' hb'
        rcases hren₂ id b' hb' with hold | ⟨hclosed, hkey, hnone⟩
        · rw [hother₁ id hid] at hold
          exact .inl hold
        · rw [find_of_lookup (hother₁ b'.key.id (hbid ▸ hid))] at hnone
          exact .inr ⟨hclosed, mem_cons_of_mem _ hkey, hnone⟩
    · rw [hcons, mem_cons, not_or] at hid
      exact (hother₂ id hid.2).trans (hother₁ id hid.1)

/-! ### Calls -/

/-- The registry lists each worker once. -/
def BreakersCall.OneEach (c : BreakersCall) : Prop :=
  match c.op with
  | .sync members => (memberIDs members).Nodup
  | _ => True

instance (c : BreakersCall) : Decidable c.OneEach := by
  unfold BreakersCall.OneEach
  cases c.op <;> infer_instance

/-- The registrations of the view that the call is given. -/
def BreakersCall.listed (c : BreakersCall) : List Key :=
  match c.op with
  | .sync members => members.map Member.key
  | _ => []

/-- The changes of a call lead every breaker from the state it had, or from the closed state if it
is new, to the one it has. -/
def Breakers.Tracks (keys : List Key) (bs bs' : Breakers) (cs : List Change) : Prop :=
  ∀ id b', bs'.byID.lookup id = some b' →
    (∃ b, bs.byID.lookup id = some b ∧ b.key = b'.key ∧
      follow b.state (changesOf b'.key cs) = some b'.state) ∨
      (b'.key ∈ keys ∧ bs.find b'.key = none ∧ follow .closed (changesOf b'.key cs) = some b'.state)

theorem Breakers.Moves.tracks (h : bs.Moves bs' cs) : Breakers.Tracks keys bs bs' cs := by
  intro id b' hb'
  obtain ⟨b, hb, hkey, hpath⟩ := h id b' hb'
  refine .inl ⟨b, hb, hkey.symm, ?_⟩
  rw [hkey]
  exact hpath

theorem Breakers.Renewed.tracks (h : Breakers.Renewed keys bs bs') (hmoves : bs'.Moves bs'' cs) :
    Breakers.Tracks keys bs bs'' cs := by
  intro id b'' hb''
  obtain ⟨b', hb', hkey', hpath⟩ := hmoves id b'' hb''
  rcases h id b' hb' with ⟨b, hb, hkey, hstate⟩ | ⟨hclosed, hlisted, hnone⟩
  · refine .inl ⟨b, hb, (hkey'.trans hkey).symm, ?_⟩
    rw [← hstate, hkey']
    exact hpath
  · rw [hclosed] at hpath
    rw [hkey']
    exact .inr ⟨hlisted, hnone, hpath⟩

/-- **A call's changes are the state changes that it made.** -/
theorem Breakers.step_tracks (hk : bs.Keyed) {c : BreakersCall} (hc : c.OneEach) :
    (bs.step c).1.Keyed ∧ Breakers.Tracks c.listed bs (bs.step c).1 (bs.step c).2.2 := by
  by_cases hsync : ∃ members, c.op = .sync members
  · obtain ⟨members, hop⟩ := hsync
    obtain ⟨now, order, op⟩ := c
    cases hop
    obtain ⟨hk', hren, -⟩ := renewed_members hc hk
    have hmoves := Moves.keep_enforceCap hk' (fun id _ => decide (id ∈ memberIDs members)) now order
    exact ⟨hmoves.keyed hk', hren.tracks hmoves⟩
  · have hmoves := Moves.step hk c fun members hop => hsync ⟨members, hop⟩
    exact ⟨hmoves.keyed hk, hmoves.tracks⟩

end ServerFlow.Resilience
