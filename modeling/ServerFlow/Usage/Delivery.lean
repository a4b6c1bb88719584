import ServerFlow.Usage.Consumer

/-!
# Usage.Delivery

Usage records are neither lost nor doubled, whatever fails.

The invariant of every run: what is below a committed offset is settled, that is, in one of the two
tables or skipped for good; and what the source has delivered is settled or in hand. A batch is
committed only when all of it is settled, so a commit keeps the first; a batch that is given up
stops the consumer, and the next start reads it again, so nothing is passed over.
-/

namespace ServerFlow.Usage

open Protocol List Function AList

variable {V : Type} {codec : Codec V} {log : Nat → Nat → Option V} {s t : Sys V} {job : Job V}
  {bad : List Reject} {ms batch : List (Message V)} {batchSize : Nat} {r : Row} {m : Message V}
  {ph : Phase V}

/-! ### What `process` makes of a batch -/

def Class.row? : Class → Option Row
  | .row r => some r
  | _ => none

def Class.reject? : Class → Option Reject
  | .reject j => some j
  | _ => none

def Class.isSkip : Class → Bool
  | .skip => true
  | _ => false

/-- `job` is what the first loop of `process` has made of the messages `ms`. -/
structure Job.Of (codec : Codec V) (job : Job V) (ms : List (Message V)) : Prop where
  rows : job.rows = (ms.map (classify codec)).filterMap Class.row?
  rejects : job.rejects = (ms.map (classify codec)).filterMap Class.reject?
  skipped : job.skipped = (ms.map (classify codec)).countP Class.isSkip
  next : ∀ p n, job.next.lookup p = some n → ∃ m ∈ ms, m.part = p ∧ n = m.offset + 1

theorem length_classes (cs : List Class) : (cs.filterMap Class.row?).length +
    (cs.filterMap Class.reject?).length + cs.countP Class.isSkip = cs.length := by
  induction cs with
  | nil => rfl
  | cons c cs ih =>
    cases c <;> simp only [filterMap_cons, countP_cons, length_cons, Class.row?,
      Class.reject?, Class.isSkip, if_true, Bool.false_eq_true, if_false] <;> omega

/-- Every message is counted once. -/
theorem Job.Of.length (h : job.Of codec ms) :
    job.rows.length + job.rejects.length + job.skipped = ms.length := by
  rw [h.rows, h.rejects, h.skipped, length_classes, length_map]

variable {p inserted : Nat} {db : Db}

/-- The next offset after one more message is the old one or its successor. -/
theorem Job.add_next {n : Nat} (h : (job.add codec m).next.lookup p = some n) :
    job.next.lookup p = some n ∨ (m.part = p ∧ n = m.offset + 1) := by
  have hnext : (job.add codec m).next = job.next.insert m.part (m.offset + 1) ∨
      (job.add codec m).next = job.next := by
    simp only [Job.add]
    split <;> split <;> first | exact .inl rfl | (split <;> simp)
  rcases hnext with heq | heq <;> rw [heq] at h
  · rcases of_lookup_insert h with ⟨rfl, rfl⟩ | ⟨-, h⟩
    · exact .inr ⟨rfl, rfl⟩
    · exact .inl h
  · exact .inl h

theorem Job.Of.add (h : job.Of codec ms)
    (m : Message V) : (job.add codec m).Of codec (ms ++ [m]) := by
  have hnext : ∀ p n, (job.add codec m).next.lookup p = some n →
      ∃ x ∈ ms ++ [m], x.part = p ∧ n = x.offset + 1 := by
    intro p n hn
    rcases Job.add_next hn with hold | ⟨hp, ho⟩
    · obtain ⟨x, hx, hxp⟩ := h.next p n hold
      exact ⟨x, mem_append_left _ hx, hxp⟩
    · exact ⟨m, by simp, hp, ho⟩
  refine ⟨?_, ?_, ?_, hnext⟩
  · cases hc : classify codec m <;> simp [Job.add, hc, h.rows, Class.row?]
  · cases hc : classify codec m <;> simp [Job.add, hc, h.rejects, Class.reject?]
  · cases hc : classify codec m <;> simp [Job.add, hc, h.skipped, Class.isSkip]

@[simp] theorem Job.add_batch (codec : Codec V) (job : Job V) (m : Message V) :
    (job.add codec m).batch = job.batch := by
  simp only [Job.add]
  split <;> rfl

/-- The loop over the messages `ms`, after those in `done`. -/
theorem Job.Of.foldl {done : List (Message V)} (h : job.Of codec done) (ms : List (Message V)) :
    (ms.foldl (Job.add codec) job).Of codec (done ++ ms) ∧
      (ms.foldl (Job.add codec) job).batch = job.batch := by
  induction ms generalizing job done with
  | nil => exact ⟨by rwa [append_nil], rfl⟩
  | cons m ms ih =>
    obtain ⟨hof, hbatch⟩ := ih (h.add m)
    rw [append_assoc] at hof
    exact ⟨hof, by rw [foldl_cons, hbatch, Job.add_batch]⟩

theorem plan_batch (codec : Codec V) (ms : List (Message V)) : (plan codec ms).batch = ms := by
  have hnil : (⟨ms, [], [], 0, ∅⟩ : Job V).Of codec [] := ⟨rfl, rfl, rfl, by simp⟩
  exact (hnil.foldl ms).2

theorem plan_of (codec : Codec V) (ms : List (Message V)) :
    (plan codec ms).Of codec (plan codec ms).batch := by
  have hnil : (⟨ms, [], [], 0, ∅⟩ : Job V).Of codec [] := ⟨rfl, rfl, rfl, by simp⟩
  rw [plan_batch]
  exact (hnil.foldl ms).1

/-! ### The database only grows -/

/-- `db'` has what `db` has. -/
structure Db.Sub (db db' : Db) : Prop where
  usage : ∀ id, id ∈ db.usage → id ∈ db'.usage
  rejects : ∀ c, c ∈ db.rejects → c ∈ db'.rejects

theorem Db.Sub.refl (db : Db) : db.Sub db := ⟨fun _ h => h, fun _ h => h⟩

theorem Db.Sub.trans {a b c : Db} (h : a.Sub b) (h' : b.Sub c) : a.Sub c :=
  ⟨fun id hid => h'.usage id (h.usage id hid), fun x hx => h'.rejects x (h.rejects x hx)⟩

section

variable (db : Db)

theorem insertUsage_sub (rows : List Row) : db.Sub (db.insertUsage rows).1 := by
  induction rows generalizing db with
  | nil => exact .refl db
  | cons r rows ih =>
    simp only [Db.insertUsage]
    split
    · exact ih db
    · have hone : db.Sub { db with usage := db.usage.insert r.eventID r } :=
        ⟨fun id hid => (mem_insert _).mpr (.inr hid), fun _ h => h⟩
      exact hone.trans (ih _)

theorem mem_insertUsage {rows : List Row} (h : r ∈ rows) :
    r.eventID ∈ (db.insertUsage rows).1.usage := by
  induction rows generalizing db with
  | nil => cases h
  | cons x rows ih =>
    simp only [Db.insertUsage]
    rcases mem_cons.mp h with rfl | h
    · split
      · next hin => exact (insertUsage_sub db rows).usage _ hin
      · exact (insertUsage_sub _ rows).usage _ ((mem_insert _).mpr (.inl rfl))
    · split
      · exact ih _ h
      · exact ih _ h

theorem insertUsage_count_le (rows : List Row) : (db.insertUsage rows).2 ≤ rows.length := by
  induction rows generalizing db with
  | nil => exact le_refl _
  | cons r rows ih =>
    simp only [Db.insertUsage, length_cons]
    split
    · exact (ih db).trans (Nat.le_succ _)
    · exact Nat.succ_le_succ (ih _)

theorem recordReject_sub (j : Reject) : db.Sub (db.recordReject j) := by
  simp only [Db.recordReject]
  split
  · exact .refl db
  · exact ⟨fun _ h => h, fun c hc => (mem_insert _).mpr (.inr hc)⟩

theorem mem_recordReject (j : Reject) : (j.part, j.offset) ∈ (db.recordReject j).rejects := by
  simp only [Db.recordReject]
  split
  · assumption
  · exact (mem_insert _).mpr (.inl rfl)

theorem recordRejects_sub (js : List Reject) : db.Sub (db.recordRejects js) := by
  induction js generalizing db with
  | nil => exact .refl db
  | cons j js ih => exact (recordReject_sub db j).trans (ih _)

theorem mem_recordRejects {js : List Reject} {j : Reject} (h : j ∈ js) :
    (j.part, j.offset) ∈ (db.recordRejects js).rejects := by
  induction js generalizing db with
  | nil => cases h
  | cons x js ih =>
    rcases mem_cons.mp h with rfl | h
    · exact (recordRejects_sub _ js).rejects _ (mem_recordReject db j)
    · exact ih _ h

theorem recordRejects_usage (js : List Reject) : (db.recordRejects js).usage = db.usage := by
  induction js generalizing db with
  | nil => rfl
  | cons j js ih =>
    refine (ih _).trans ?_
    simp only [Db.recordReject]
    split <;> rfl

/-- What an insert finds in the table was there or is one of its rows. -/
theorem lookup_insertUsage (rows : List Row) {id : String}
    (h : (db.insertUsage rows).1.usage.lookup id = some r) :
    db.usage.lookup id = some r ∨ r ∈ rows ∧ r.eventID = id := by
  induction rows generalizing db with
  | nil => exact .inl h
  | cons x rows ih =>
    simp only [Db.insertUsage] at h
    split at h
    · exact (ih db h).imp_right fun hr => ⟨mem_cons_of_mem _ hr.1, hr.2⟩
    · rcases ih _ h with h | hr
      · rcases of_lookup_insert h with ⟨rfl, rfl⟩ | ⟨-, h⟩
        · exact .inr ⟨mem_cons_self, rfl⟩
        · exact .inl h
      · exact .inr ⟨mem_cons_of_mem _ hr.1, hr.2⟩

end

/-! ### What is settled -/

/-- The row's event is in the usage table, or the database has refused the row and its record is
rejected. -/
def RowSettled (db : Db) (refused : List Row) (r : Row) : Prop :=
  r.eventID ∈ db.usage ∨ (r ∈ refused ∧ (r.part, r.offset) ∈ db.rejects)

/-- The row says what the event of the record says. -/
structure Row.Carries (r : Row) (m : Message V) (e : Event) : Prop where
  record : (r.part, r.offset, r.occurredAt) = (m.part, m.offset, e.timestamp)
  names : [r.eventID, r.requestID, r.tenantID, r.apiKeyID, r.model, r.workerID] =
    [e.eventID, e.requestID, e.tenantID, e.apiKeyID, e.model, e.workerID]
  outcome : r.outcome = .failed ↔ e.eventType = .failed
  data : ∃ t, e.terminal = some t ∧
    (r.failureClass, r.httpStatus, r.attempts) = (t.failureClass, t.httpStatus, t.attempts.length) ∧
    (r.inputTokens, r.outputTokens, r.tokensSource) =
      (t.inputTokens, t.outputTokens, t.tokensSource) ∧
    (r.estimatedCostTokens, r.ttftMS, r.durationMS) =
      (t.estimatedCostTokens, t.ttftMS, t.durationMS)

/-- The record is a valid terminal event. -/
structure Terminal (codec : Codec V) (v : V) (e : DecodedEvent) : Prop where
  len : codec.len v ≤ maxEventBytes
  decode : codec.decode v = .ok e
  terminal : isTerminalEventType e.1.eventType = true

/-- The record needs nothing more: one that is too long or does not decode is among the rejects, and
the event of a terminal one is in the usage table, or the database has refused its row and it is
among the rejects. -/
def Settled (codec : Codec V) (s : Sys V) (m : Message V) : Prop :=
  ((codec.len m.value > maxEventBytes ∨ ∃ err, codec.decode m.value = .error err) →
    (m.part, m.offset) ∈ s.db.rejects) ∧
  ∀ e, Terminal codec m.value e → e.1.eventID ∈ s.db.usage ∨
    (∃ r ∈ s.refused, r.Carries m e.1) ∧ (m.part, m.offset) ∈ s.db.rejects

/-- A terminal event makes a row, which says what the event says. -/
theorem classify_row : classify codec m = .row r ↔
    ∃ e, ∃ h : Terminal codec m.value e, r = rowOf m e.1 (e.terminal h.terminal) := by
  constructor
  · fun_cases classify codec m <;> intro hc <;> cases hc
    next hlen e he h => exact ⟨e, ⟨not_lt.mp hlen, he, h⟩, rfl⟩
  · rintro ⟨e, h, rfl⟩
    rw [classify, if_neg (not_lt.mpr h.len), h.decode]
    exact dif_pos h.terminal

theorem rowOf_carries (m : Message V) (e : DecodedEvent)
    (h : isTerminalEventType e.1.eventType = true) :
    (rowOf m e.1 (e.terminal h)).Carries m e.1 := by
  refine ⟨rfl, rfl, ?_, e.terminal h, (Option.some_get _).symm, rfl, rfl, rfl⟩
  unfold rowOf
  split
  next hf => exact ⟨fun _ => hf, fun _ => rfl⟩
  next hf => exact ⟨nofun, fun h => absurd h hf⟩

/-- A record that makes no event is rejected, under its coordinates. -/
theorem classify_reject
    (h : codec.len m.value > maxEventBytes ∨ ∃ err, codec.decode m.value = .error err) :
    ∃ reason, classify codec m = .reject ⟨m.part, m.offset, reason⟩ := by
  fun_cases classify codec m
  case case6 hlen e he _ => exact absurd h (by simp [hlen, he])
  case case7 hlen e he _ => exact absurd h (by simp [hlen, he])
  all_goals exact ⟨_, rfl⟩

/-- The batch that is being collected or processed. -/
def Phase.hand : Phase V → List (Message V)
  | .collecting batch => batch
  | .rejecting job => job.batch
  | .inserting job => job.batch
  | .rowByRow job _ _ _ _ => job.batch
  | .rejectingBad job _ _ => job.batch
  | .committing job _ => job.batch
  | .stopped => []

/-- The records of the partition below `n` are settled or in hand. -/
def Covered (codec : Codec V) (log : Nat → Nat → Option V) (s : Sys V) (p n : Nat) : Prop :=
  ∀ o v, o < n → log p o = some v → Settled codec s ⟨p, o, v⟩ ∨ ⟨p, o, v⟩ ∈ s.phase.hand

/-- The row is that of a terminal event `id` in the log. -/
def Logged (codec : Codec V) (log : Nat → Nat → Option V) (id : String) (r : Row) : Prop :=
  ∃ m e, log m.part m.offset = some m.value ∧ Terminal codec m.value e ∧ e.1.eventID = id ∧
    r.Carries m e.1

/-- Nothing that is settled in `s` is unsettled in `t`, and the usage table of `t` is from the
log. -/
structure Grows (codec : Codec V) (log : Nat → Nat → Option V) (s t : Sys V) : Prop where
  db : s.db.Sub t.db
  refused : ∀ r ∈ s.refused, r ∈ t.refused
  rows : ∀ id r, t.db.usage.lookup id = some r → Logged codec log id r

theorem Settled.mono (h : Settled codec s m) (hg : Grows codec log s t) : Settled codec t m := by
  refine ⟨fun hbad => hg.db.rejects _ (h.1 hbad), fun e he => ?_⟩
  refine (h.2 e he).imp (hg.db.usage _) ?_
  rintro ⟨⟨r, hr, hcarries⟩, hrej⟩
  exact ⟨⟨r, hg.refused r hr, hcarries⟩, hg.db.rejects _ hrej⟩

theorem Covered.mono {n : Nat} (h : Covered codec log s p n) (hg : Grows codec log s t)
    (hhand : ∀ m ∈ s.phase.hand, m ∈ t.phase.hand ∨ Settled codec t m) :
    Covered codec log t p n := by
  intro o v ho hv
  rcases h o v ho hv with hs | hm
  · exact .inl (hs.mono hg)
  · exact (hhand _ hm).symm

/-- The rows are those of records of the batch. -/
theorem Job.Of.mem_rows (h : job.Of codec ms) (hr : r ∈ job.rows) :
    ∃ m ∈ ms, classify codec m = .row r := by
  rw [h.rows, mem_filterMap] at hr
  obtain ⟨c, hc, hrow⟩ := hr
  obtain ⟨m, hm, rfl⟩ := mem_map.mp hc
  refine ⟨m, hm, ?_⟩
  revert hrow
  fun_cases Class.row? (classify codec m) <;> intro hrow <;> cases hrow
  rfl

/-- A batch is settled when its rejects are recorded and its rows are settled. -/
theorem Job.Of.settled (h : job.Of codec ms)
    (hrej : ∀ j ∈ job.rejects, (j.part, j.offset) ∈ s.db.rejects)
    (hrows : ∀ r ∈ job.rows, RowSettled s.db s.refused r) : ∀ m ∈ ms, Settled codec s m := by
  intro m hm
  have hmem : classify codec m ∈ ms.map (classify codec) := mem_map_of_mem hm
  constructor
  · intro hbad
    obtain ⟨reason, hc⟩ := classify_reject hbad
    rw [hc] at hmem
    exact hrej _ (by rw [h.rejects]; exact mem_filterMap.mpr ⟨_, hmem, rfl⟩)
  · intro e he
    have hc := classify_row.mpr ⟨e, he, rfl⟩
    rw [hc] at hmem
    have hr := hrows _ (by rw [h.rows]; exact mem_filterMap.mpr ⟨_, hmem, rfl⟩)
    exact Or.imp_right (fun hbad => ⟨⟨_, hbad.1, rowOf_carries m e he.terminal⟩, hbad.2⟩) hr

/-! ### The invariant -/

/-- A row that has been tried alone: its event is in the table, or it is among the refused. -/
def Tried (s : Sys V) (bad : List Reject) (r : Row) : Prop :=
  r.eventID ∈ s.db.usage ∨ (r ∈ s.refused ∧ r.refusal ∈ bad)

def RejectsRecorded (s : Sys V) (job : Job V) : Prop :=
  ∀ j ∈ job.rejects, (j.part, j.offset) ∈ s.db.rejects

/-- How far the batch in hand is. -/
def PhaseOk (codec : Codec V) (s : Sys V) : Phase V → Prop
  | .collecting _ => True
  | .rejecting job => job.Of codec job.batch
  | .inserting job => job.Of codec job.batch ∧ RejectsRecorded s job
  | .rowByRow job inserted bad r todo => job.Of codec job.batch ∧ RejectsRecorded s job ∧
      ∃ done, job.rows = done ++ r :: todo ∧ (∀ x ∈ done, Tried s bad x) ∧
        inserted + bad.length ≤ done.length
  | .rejectingBad job inserted bad => job.Of codec job.batch ∧ RejectsRecorded s job ∧
      (∀ x ∈ job.rows, Tried s bad x) ∧ inserted + bad.length ≤ job.rows.length
  | .committing job _ => job.Of codec job.batch ∧ ∀ m ∈ job.batch, Settled codec s m
  | .stopped => True

/-- The four counts of a batch are counts, and they add up to its size. -/
def Counts.Balanced (c : Counts) : Prop :=
  c.inserted + c.duplicate + c.skipped + c.rejected = c.size ∧
    0 ≤ c.inserted ∧ 0 ≤ c.duplicate ∧ 0 ≤ c.skipped ∧ 0 ≤ c.rejected

structure Ok (codec : Codec V) (log : Nat → Nat → Option V) (s : Sys V) : Prop where
  committed : ∀ p o v, o < s.committed p → log p o = some v → Settled codec s ⟨p, o, v⟩
  /-- Nothing is passed over. -/
  read : s.phase ≠ .stopped → ∀ p, Covered codec log s p (s.pos p)
  hand : ∀ m ∈ s.phase.hand, Covered codec log s m.part (m.offset + 1)
  logged : ∀ m ∈ s.phase.hand, log m.part m.offset = some m.value
  rows : ∀ id r, s.db.usage.lookup id = some r → Logged codec log id r
  phase : PhaseOk codec s s.phase
  counts : ∀ c ∈ s.processed, c.Balanced

/-- The batch in hand gets on, or the consumer stops. -/
theorem Ok.advance (h : Ok codec log s) (hg : Grows codec log s t)
    (hcommitted : t.committed = s.committed) (hpos : t.pos = s.pos)
    (hhand : t.phase = .stopped ∨ (s.phase ≠ .stopped ∧ t.phase.hand = s.phase.hand))
    (hphase : PhaseOk codec t t.phase) (hcounts : ∀ c ∈ t.processed, c.Balanced) :
    Ok codec log t := by
  have hsame : ∀ m ∈ t.phase.hand, m ∈ s.phase.hand ∧ t.phase.hand = s.phase.hand := by
    intro m hm
    rcases hhand with hstop | ⟨-, heq⟩
    · rw [hstop] at hm
      cases hm
    · exact ⟨heq ▸ hm, heq⟩
  refine ⟨fun p o v ho hv => ?_, fun hrun p => ?_, fun m hm => ?_,
    fun m hm => h.logged m (hsame m hm).1, hg.rows, hphase, hcounts⟩
  · rw [hcommitted] at ho
    exact (h.committed p o v ho hv).mono hg
  · obtain ⟨hs, heq⟩ := hhand.resolve_left hrun
    rw [hpos]
    exact (h.read hs p).mono hg fun m hm => .inl (by rwa [heq])
  · obtain ⟨hin, heq⟩ := hsame m hm
    exact (h.hand m hin).mono hg fun m hm => .inl (by rwa [heq])

theorem RejectsRecorded.mono (h : RejectsRecorded s job)
    (hg : s.db.Sub t.db) : RejectsRecorded t job := fun j hj => hg.rejects _ (h j hj)

theorem Tried.mono {bad' : List Reject} (h : Tried s bad r) (hg : Grows codec log s t)
    (hbad : ∀ j ∈ bad, j ∈ bad') : Tried t bad' r :=
  h.imp (hg.db.usage _) fun hb => ⟨hg.refused r hb.1, hbad _ hb.2⟩

/-- Recording the refused rows settles the tried ones. -/
theorem Tried.settled (h : Tried s bad r)
    (hrec : ∀ j ∈ bad, (j.part, j.offset) ∈ s.db.rejects) : RowSettled s.db s.refused r :=
  h.imp_right fun hb => ⟨hb.1, hrec _ hb.2⟩

theorem Ok.grows (h : Ok codec log s) : Grows codec log s s := ⟨.refl _, fun _ h => h, h.rows⟩

theorem Ok.grows_rejects (h : Ok codec log s) (js : List Reject) :
    Grows codec log s { s with db := s.db.recordRejects js } := by
  refine ⟨recordRejects_sub s.db js, fun _ h => h, ?_⟩
  rw [recordRejects_usage]
  exact h.rows

/-- Rows of the batch in hand are inserted. -/
theorem Ok.grows_rows (h : Ok codec log s) (hjob : s.phase.hand = job.batch)
    (hof : job.Of codec job.batch) {rows : List Row} (hrows : ∀ r ∈ rows, r ∈ job.rows) :
    Grows codec log s { s with db := (s.db.insertUsage rows).1 } := by
  refine ⟨insertUsage_sub s.db rows, fun _ h => h, fun id r hr => ?_⟩
  rcases lookup_insertUsage s.db rows hr with hold | ⟨hnew, rfl⟩
  · exact h.rows id r hold
  · obtain ⟨m, hm, hc⟩ := hof.mem_rows (hrows r hnew)
    obtain ⟨e, he, rfl⟩ := classify_row.mp hc
    exact ⟨m, e, h.logged m (by rwa [hjob]), he, rfl, rowOf_carries m e he.terminal⟩

/-- The counters of a batch whose rows are all tried. -/
theorem finish_counts (hof : job.Of codec job.batch) (hle : inserted + bad.length ≤ job.rows.length)
    (hcounts : ∀ c ∈ s.processed, c.Balanced) :
    ∀ c ∈ (s.finish job inserted bad).processed, c.Balanced := by
  have hlen := hof.length
  intro c hc
  rcases mem_cons.mp hc with rfl | hc
  · refine ⟨?_, ?_, ?_, ?_, ?_⟩ <;> simp only <;> omega
  · exact hcounts c hc

/-- The consumer is at work on `job`, and `t` is `s` after a call of the store for it. -/
structure Onward (codec : Codec V) (log : Nat → Nat → Option V) (s t : Sys V) (job : Job V) :
    Prop where
  run : s.phase ≠ .stopped
  hand : s.phase.hand = job.batch
  of : job.Of codec job.batch
  grows : Grows codec log s t
  committed : t.committed = s.committed
  pos : t.pos = s.pos
  processed : t.processed = s.processed

section

variable (h : Ok codec log s)
include h

section

variable (ht : Onward codec log s t job)
include ht

theorem Ok.onward
    (hhand : ph.hand = job.batch) (hph : PhaseOk codec { t with phase := ph } ph) :
    Ok codec log { t with phase := ph } := by
  refine h.advance ⟨ht.grows.db, ht.grows.refused, ht.grows.rows⟩ ht.committed ht.pos
    (.inr ⟨ht.run, hhand.trans ht.hand.symm⟩) hph ?_
  rw [ht.processed]
  exact h.counts

/-- A batch is done but for the commit. -/
theorem Ok.finish (hle : inserted + bad.length ≤ job.rows.length) (hrej : RejectsRecorded t job)
    (hrows : ∀ r ∈ job.rows, RowSettled t.db t.refused r) :
    Ok codec log (t.finish job inserted bad) := by
  refine h.advance ⟨ht.grows.db, ht.grows.refused, ht.grows.rows⟩ ht.committed ht.pos
    (.inr ⟨ht.run, ht.hand.symm⟩) ⟨ht.of, ht.of.settled hrej hrows⟩ (finish_counts ht.of hle ?_)
  rw [ht.processed]
  exact h.counts

/-- `insert`, once the rejects are recorded. -/
theorem Ok.insert (hrej : RejectsRecorded t job) : Ok codec log (t.insert job) := by
  simp only [Sys.insert]
  split
  · next hnil => exact h.finish ht (by simp) hrej (by rw [hnil]; simp)
  · exact h.onward ht rfl ⟨ht.of, hrej⟩

end

theorem Ok.process
    (hp : s.phase = .collecting batch) : Ok codec log (s.process (plan codec batch)) := by
  have ht : Onward codec log s s (plan codec batch) :=
    ⟨by rw [hp]; simp, by rw [hp, plan_batch]; rfl, plan_of codec batch, h.grows, rfl, rfl, rfl⟩
  simp only [Sys.process]
  split
  · next hnil => exact h.insert ht (by simp [RejectsRecorded, hnil])
  · exact h.onward ht rfl ht.of

/-- The loop over the rows: those in `done` are tried. -/
theorem Ok.nextRow (ht : Onward codec log s t job) (hrej : RejectsRecorded t job)
    (done : List Row) {todo : List Row} (hsplit : job.rows = done ++ todo)
    (htried : ∀ x ∈ done, Tried t bad x) (hle : inserted + bad.length ≤ done.length) :
    Ok codec log (t.nextRow job inserted bad todo) := by
  cases todo with
  | cons r todo => exact h.onward ht rfl ⟨ht.of, hrej, done, hsplit, htried, hle⟩
  | nil =>
    rw [append_nil] at hsplit
    subst hsplit
    simp only [Sys.nextRow]
    split
    · next hnil =>
      subst hnil
      exact h.finish ht (by simpa using hle) hrej fun r hr => (htried r hr).settled (by simp)
    · exact h.onward ht rfl ⟨ht.of, hrej, htried, hle⟩

end

theorem PhaseOk.mono (hg : Grows codec log s t) (h : PhaseOk codec s ph) : PhaseOk codec t ph := by
  cases ph with
  | collecting batch => trivial
  | rejecting job => exact h
  | inserting job => exact ⟨h.1, h.2.mono hg.db⟩
  | rowByRow job inserted bad r todo =>
    obtain ⟨hof, hrej, done, hsplit, htried, hle⟩ := h
    exact ⟨hof, hrej.mono hg.db, done, hsplit, fun x hx => (htried x hx).mono hg fun _ h => h, hle⟩
  | rejectingBad job inserted bad =>
    obtain ⟨hof, hrej, htried, hle⟩ := h
    exact ⟨hof, hrej.mono hg.db, fun x hx => (htried x hx).mono hg fun _ h => h, hle⟩
  | committing job attempt => exact ⟨h.1, fun m hm => (h.2 m hm).mono hg⟩
  | stopped => trivial

section

variable (h : Ok codec log s)
include h

/-- A call of the store fails, after it has made its write or without. -/
theorem Ok.failed (hrun : s.phase ≠ .stopped) (hdb : Grows codec log s { s with db := db })
    (giveUp applied : Bool) : Ok codec log (s.failed giveUp (if applied then db else s.db)) := by
  have hg : Grows codec log s (s.failed giveUp (if applied then db else s.db)) := by
    cases applied with
    | true => exact ⟨hdb.db, hdb.refused, hdb.rows⟩
    | false => exact ⟨.refl _, fun _ h => h, h.rows⟩
  cases giveUp with
  | true => exact h.advance hg rfl rfl (.inl rfl) trivial h.counts
  | false => exact h.advance hg rfl rfl (.inr ⟨hrun, rfl⟩) (h.phase.mono hg) h.counts

theorem Ok.stopped : Ok codec log { s with phase := .stopped } :=
  h.advance ⟨.refl _, fun _ h => h, h.rows⟩ rfl rfl (.inl rfl) trivial h.counts

theorem Ok.answer {reply : Reply} (hs : s.answer reply = some t) : Ok codec log t := by
  have hph := h.phase
  simp only [Sys.answer] at hs
  split at hs <;> cases hs
  · -- The rejects are recorded.
    next job hp =>
    rw [hp] at hph
    exact h.insert ⟨by rw [hp]; simp, by rw [hp]; rfl, hph, h.grows_rejects _, rfl, rfl, rfl⟩
      fun j hj => mem_recordRejects s.db hj
  · next hp => exact h.failed (by rw [hp]; simp) (h.grows_rejects _) _ _
  · exact h.stopped
  · -- The rows are inserted.
    next job hp =>
    rw [hp] at hph
    have hg := h.grows_rows (by rw [hp]; rfl) hph.1 fun r hr => hr
    exact h.finish ⟨by rw [hp]; simp, by rw [hp]; rfl, hph.1, hg, rfl, rfl, rfl⟩
      (insertUsage_count_le s.db job.rows) (hph.2.mono hg.db) fun r hr =>
        .inl (mem_insertUsage s.db hr)
  · next job _ _ hp =>
    rw [hp] at hph
    exact h.failed (by rw [hp]; simp) (h.grows_rows (by rw [hp]; rfl) hph.1 fun r hr => hr) _ _
  · -- The batch is refused: row by row, from the first.
    next job hp =>
    rw [hp] at hph
    exact h.nextRow ⟨by rw [hp]; simp, by rw [hp]; rfl, hph.1, h.grows, rfl, rfl, rfl⟩ hph.2
      [] (nil_append _).symm (by simp) (by simp)
  · -- A row is inserted alone.
    next job inserted bad r todo hp =>
    rw [hp] at hph
    obtain ⟨hof, hrej, done, hsplit, htried, hle⟩ := hph
    have hg := h.grows_rows (by rw [hp]; rfl) hof (show ∀ x ∈ [r], x ∈ job.rows by simp [hsplit])
    have hone := insertUsage_count_le s.db [r]
    refine h.nextRow ⟨by rw [hp]; simp, by rw [hp]; rfl, hof, hg, rfl, rfl, rfl⟩ (hrej.mono hg.db)
      (done ++ [r]) (by rw [hsplit]; simp) (fun x hx => ?_) ?_
    · rcases mem_append.mp hx with hx | hx
      · exact (htried x hx).mono hg fun _ h => h
      · obtain rfl := mem_singleton.mp hx
        exact .inl (mem_insertUsage s.db (mem_singleton_self _))
    · simp only [length_append, length_singleton] at hone ⊢
      omega
  · next job inserted bad r todo _ _ hp =>
    rw [hp] at hph
    obtain ⟨hof, -, done, hsplit, -⟩ := hph
    exact h.failed (by rw [hp]; simp) (h.grows_rows (by rw [hp]; rfl) hof (by simp [hsplit])) _ _
  · -- A row is refused.
    next job inserted bad r todo hp =>
    rw [hp] at hph
    obtain ⟨hof, hrej, done, hsplit, htried, hle⟩ := hph
    have hg : Grows codec log s { s with refused := r :: s.refused } :=
      ⟨.refl _, fun _ h => mem_cons_of_mem _ h, h.rows⟩
    refine h.nextRow ⟨by rw [hp]; simp, by rw [hp]; rfl, hof, hg, rfl, rfl, rfl⟩ hrej
      (done ++ [r]) (by rw [hsplit]; simp) (fun x hx => ?_) ?_
    · rcases mem_append.mp hx with hx | hx
      · exact (htried x hx).mono hg fun j hj => mem_append_left _ hj
      · obtain rfl := mem_singleton.mp hx
        exact .inr ⟨mem_cons_self, by simp⟩
    · simp only [length_append, length_singleton]
      omega
  · -- The refused rows are recorded.
    next job inserted bad hp =>
    rw [hp] at hph
    obtain ⟨hof, hrej, htried, hle⟩ := hph
    have hg := h.grows_rejects bad
    exact h.finish ⟨by rw [hp]; simp, by rw [hp]; rfl, hof, hg, rfl, rfl, rfl⟩ hle (hrej.mono hg.db)
      fun r hr => ((htried r hr).mono hg fun _ h => h).settled fun j hj => mem_recordRejects s.db hj
  · next hp => exact h.failed (by rw [hp]; simp) (h.grows_rejects _) _ _
  · exact h.stopped

/-- The source delivers the next record of a partition: what it skips is no record. -/
theorem Ok.deliver (hp : s.phase = .collecting batch)
    {o : Nat} {v : V} (hv : log p o = some v) (hmay : s.mayDeliver log p o = true) :
    Ok codec log { s with
      phase := .collecting (batch ++ [⟨p, o, v⟩])
      pos := update s.pos p (o + 1) } := by
  set t : Sys V := { s with
    phase := .collecting (batch ++ [⟨p, o, v⟩]), pos := update s.pos p (o + 1) } with ht
  obtain ⟨-, hgap⟩ := of_decide_eq_true hmay
  have hg : Grows codec log s t := ⟨.refl _, fun _ h => h, h.rows⟩
  have hhand : ∀ m ∈ s.phase.hand, m ∈ t.phase.hand ∨ Settled codec t m := by
    intro m hm
    rw [hp] at hm
    exact .inl (mem_append_left _ hm)
  have hread : ∀ q, Covered codec log t q (s.pos q) := fun q =>
    (h.read (by rw [hp]; simp) q).mono hg hhand
  -- Up to the new record the partition is covered.
  have hnew : Covered codec log t p (o + 1) := by
    intro o' v' ho' hv'
    by_cases hlt : o' < s.pos p
    · exact hread p o' v' hlt hv'
    · rcases Nat.lt_succ_iff_lt_or_eq.mp ho' with hlt' | rfl
      · have hnone := hgap o' hlt' (not_lt.mp hlt)
        rw [hv'] at hnone
        cases hnone
      · rw [hv] at hv'
        obtain rfl := Option.some.inj hv'
        exact .inr (mem_append_right _ (mem_singleton_self _))
  refine ⟨fun q o' v' ho' hv' => (h.committed q o' v' ho' hv').mono hg, fun _ q => ?_,
    fun m hm => ?_, fun m hm => ?_, h.rows, trivial, h.counts⟩
  · by_cases hq : q = p
    · subst hq
      simpa [ht] using hnew
    · simpa [ht, update_of_ne hq] using hread q
  · rcases mem_append.mp hm with hm | hm
    · exact (h.hand m (by rw [hp]; exact hm)).mono hg hhand
    · obtain rfl := mem_singleton.mp hm
      exact hnew
  · rcases mem_append.mp hm with hm | hm
    · exact h.logged m (by rw [hp]; exact hm)
    · obtain rfl := mem_singleton.mp hm
      exact hv

/-- A commit, for all partitions or for some: the batch is settled. -/
theorem Ok.commit {attempt : Nat}
    (hp : s.phase = .committing job attempt) (made : Nat → Bool)
    (hph : ph = .collecting [] ∨ ∃ n, ph = .committing job n) :
    Ok codec log { s with
      committed := commitOffsets job.next made s.committed
      phase := ph } := by
  set t : Sys V := { s with committed := commitOffsets job.next made s.committed, phase := ph }
  have hphase := h.phase
  rw [hp] at hphase
  obtain ⟨hof, hsettled⟩ := hphase
  have hg : Grows codec log s t := ⟨.refl _, fun _ h => h, h.rows⟩
  have hhand : ∀ m ∈ s.phase.hand, m ∈ t.phase.hand ∨ Settled codec t m := by
    intro m hm
    rw [hp] at hm
    exact .inr ((hsettled m hm).mono hg)
  refine ⟨fun p o v ho hv => ?_, fun _ p => ?_, fun m hm => ?_, fun m hm => ?_, h.rows, ?_,
    h.counts⟩
  · -- A new committed offset is one past a record of the batch.
    have hcases : o < s.committed p ∨ ∃ n, job.next.lookup p = some n ∧ o < n := by
      simp only [t, commitOffsets] at ho
      split at ho
      · cases hn : job.next.lookup p with
        | none => rw [hn] at ho; exact .inl ho
        | some n => rw [hn] at ho; exact .inr ⟨n, rfl, ho⟩
      · exact .inl ho
    rcases hcases with hold | ⟨n, hn, hon⟩
    · exact (h.committed p o v hold hv).mono hg
    · obtain ⟨m, hm, rfl, rfl⟩ := hof.next p n hn
      have hcov := h.hand m (by rw [hp]; exact hm)
      rcases hcov o v hon hv with hs | hin
      · exact hs.mono hg
      · rw [hp] at hin
        exact (hsettled _ hin).mono hg
  · exact (h.read (by rw [hp]; simp) p).mono hg hhand
  · rcases hph with rfl | ⟨n, rfl⟩
    · cases hm
    · exact (h.hand m (by rw [hp]; exact hm)).mono hg hhand
  · rcases hph with rfl | ⟨n, rfl⟩
    · cases hm
    · exact h.logged m (by rw [hp]; exact hm)
  · rcases hph with rfl | ⟨n, rfl⟩
    · trivial
    · exact ⟨hof, fun m hm => (hsettled m hm).mono hg⟩

theorem Ok.seek (p : Nat) : Ok codec log { s with pos := update s.pos p (s.committed p) } := by
  have hg : Grows codec log s { s with pos := update s.pos p (s.committed p) } :=
    ⟨.refl _, fun _ h => h, h.rows⟩
  refine ⟨h.committed, fun hrun q => ?_, h.hand, h.logged, h.rows, h.phase.mono hg, h.counts⟩
  by_cases hq : q = p
  · subst hq
    intro o v ho hv
    exact .inl (h.committed q o v (by simpa using ho) hv)
  · have hpos : update s.pos p (s.committed p) q = s.pos q := update_of_ne hq _ _
    show Covered codec log _ q (update s.pos p (s.committed p) q)
    rw [hpos]
    exact h.read hrun q

theorem Ok.restart : Ok codec log { s with pos := s.committed, phase := .collecting [] } where
  committed := h.committed
  read _ p o v ho hv := .inl (h.committed p o v ho hv)
  hand m hm := by cases hm
  logged m hm := by cases hm
  rows := h.rows
  phase := trivial
  counts := h.counts

theorem Ok.step {act : Act} (hs : s.step codec batchSize log act = some t) : Ok codec log t := by
  revert hs
  fun_cases Sys.step codec batchSize log s act <;> intro hs <;> try with_reducible cases hs
  next hv hp hmay => exact h.deliver hp hv hmay.2
  next hp => exact h.process hp
  next => exact h.answer hs
  next hp => exact h.commit hp _ (.inl rfl)
  next hp =>
    refine h.commit hp _ ?_
    split
    · exact .inr ⟨_, rfl⟩
    · exact .inl rfl
  next p => exact h.seek p
  next => exact h.restart

end

end ServerFlow.Usage
