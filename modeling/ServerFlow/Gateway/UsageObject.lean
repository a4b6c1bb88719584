import ServerFlow.Lib.JsonWords
import ServerFlow.Gateway.TokenScanner

/-!
# Gateway.UsageObject

How the token scanner reads the counts of a usage object (`parseUsage` in
`internal/gateway/tokens.go`): a search for the quoted names in the raw bytes, a matcher for braces
that skips strings, and a reader for plain integers.

For the text of a JSON document the search finds the members named `usage`, and strings that end in
the quoted name, which no brace follows. Inside the object the names of the counts must occur once,
and there a string that ends in one of them is a second occurrence: it hides the count, but it can
never stand for one.

A result that is not `ok` is `none`.
-/

namespace ServerFlow.Gateway

open JsonText JsonSyntax Occurs List Option

def usageKey : Bytes := bytesOf "\"usage\""

def promptKey : Bytes := bytesOf "\"prompt_tokens\""

def completionKey : Bytes := bytesOf "\"completion_tokens\""

def maxEventTokens : Nat := 10000000000

/-! ### The code -/

/-- What is skipped between a name and its value. -/
def isSep (b : UInt8) : Bool := isSpace b || decide (b = colon)

/-- What follows a name is an object: from its brace on. -/
def objectAfter (rest : Bytes) : Option Bytes :=
  let rest := rest.dropWhile isSep
  if rest.head? = some openBrace then some rest else none

/-- The loop of `parseUsage`: where the usage object starts, if there is one. `none` if there are
two. Every round moves past a name, so the length of the text bounds them. -/
def usageLoop (b : Bytes) : Nat → Nat → Option Nat → Option (Option Nat)
  | 0, _, objStart => some objStart
  | fuel + 1, off, objStart =>
    match index usageKey (b.drop off) with
    | none => some objStart
    | some i =>
      let pos := off + i + usageKey.length
      match objectAfter (b.drop pos) with
      | none => usageLoop b fuel pos objStart
      | some rest =>
        match objStart with
        | some _ => none
        | none => usageLoop b fuel pos (some (b.length - rest.length))

/-- Where `balanced` is: a backslash in a string skips the next byte. -/
inductive Scan
  | outside
  | inString
  | escaped

/-- The loop of `balanced`, at index `i`: the length of the object. -/
def balancedFrom : Bytes → Int → Scan → Nat → Option Nat
  | [], _, _, _ => none
  | _ :: b, depth, .escaped, i => balancedFrom b depth .inString (i + 1)
  | c :: b, depth, .inString, i =>
    if c = backslash then balancedFrom b depth .escaped (i + 1)
    else if c = dquote then balancedFrom b depth .outside (i + 1)
    else balancedFrom b depth .inString (i + 1)
  | c :: b, depth, .outside, i =>
    if c = dquote then balancedFrom b depth .inString (i + 1)
    else if c = openBrace then balancedFrom b (depth + 1) .outside (i + 1)
    else if c = closeBrace then
      if depth - 1 = 0 then some (i + 1) else balancedFrom b (depth - 1) .outside (i + 1)
    else balancedFrom b depth .outside (i + 1)

/-- `balanced`. -/
def balanced (b : Bytes) : Option Bytes := (balancedFrom b 0 .outside 0).map b.take

/-- The loop over the digits: their number, the value, and what follows. `none` if there are too
many. -/
def readDigits : Bytes → Nat → Nat → Option (Nat × Nat × Bytes)
  | [], digits, n => some (digits, n, [])
  | c :: b, digits, n =>
    if isDigit c then
      if digits ≥ 11 then none else readDigits b (digits + 1) (n * 10 + (c.toNat - 48))
    else some (digits, n, c :: b)

/-- The number that starts here, which must be a plain integer. -/
def readCount (b : Bytes) : Option Nat :=
  match readDigits b 0 0 with
  | none => none
  | some (digits, n, rest) =>
    if digits = 0 ∨ (digits > 1 ∧ b.head? = some 48) ∨ n > maxEventTokens then none
    else
      match rest with
      | [] => none
      | c :: _ => if c = comma ∨ c = closeBrace ∨ isSpace c then some n else none

/-- The rest of `uniqueCount`, after the name. -/
def countAfter (rest : Bytes) : Option Nat :=
  match skipSpace rest with
  | [] => none
  | c :: b => if c ≠ colon then none else readCount (skipSpace b)

/-- `uniqueCount`. -/
def uniqueCount (obj key : Bytes) : Option Nat :=
  match index key obj with
  | none => none
  | some i =>
    let rest := obj.drop (i + key.length)
    if (index key rest).isSome then none else countAfter rest

/-- `parseUsage`: the two counts. -/
def parseUsage (b : Bytes) : Option (Nat × Nat) :=
  match usageLoop b (b.length + 1) 0 none with
  | some (some objStart) =>
    match balanced (b.drop objStart) with
    | none => none
    | some obj =>
      match uniqueCount obj promptKey, uniqueCount obj completionKey with
      | some prompt, some completion => some (prompt, completion)
      | _, _ => none
  | _ => none

/-- `result`: the source of the counts, and the counts. -/
def TokenScanner.result (t : TokenScanner) (stream : Bool) : String × Nat × Nat :=
  match parseUsage t.tail with
  | some (p, c) => ("usage", p, c)
  | none => if stream && decide (t.chunks > 0) then ("chunks", 0, t.chunks) else ("", 0, 0)

/-! ### What a document reports -/

def usageName : Bytes := bytesOf "usage"

def promptName : Bytes := bytesOf "prompt_tokens"

def completionName : Bytes := bytesOf "completion_tokens"

/-- The count that a value is: a plain integer that is not too large. -/
def countOf : Syn .value → Option Nat
  | .num n => n.plain.filter fun m => decide (m ≤ maxEventTokens)
  | _ => none

/-- The members named `usage` with an object as value, at any depth. -/
def usageObjects {k : Kind} (d : Syn k) : List (Syn .value) :=
  (d.membersNamed usageName).filter Syn.isObject

/-- Exactly one member inside the object, at any depth, has the name, and its value is the count. -/
def CountIn (u : Syn .value) (name : Bytes) (n : Nat) : Prop :=
  ∃ v, u.membersNamed name = [v] ∧ countOf v = some n

/-- The document has exactly one usage object, with the two counts. -/
def Reports {k : Kind} (d : Syn k) (p c : Nat) : Prop :=
  ∃ u, usageObjects d = [u] ∧ CountIn u promptName p ∧ CountIn u completionName c

/-- A string in the object ends in the quoted name of a count. -/
def Hides (u : Syn .value) : Prop :=
  ∃ ps ∈ u.strings, keyed promptName ps = true ∨ keyed completionName ps = true

/-! ### The search for the object -/

/-- What the loop makes of the objects that it finds. -/
def pick (len : Nat) : Option Nat → List Bytes → Option (Option Nat)
  | objStart, [] => some objStart
  | some _, _ :: _ => none
  | none, t :: ts => pick len (some (len - t.length)) ts

theorem usageKey_quoted : usageKey = quoted usageName := by decide

theorem isWord_usage : isWord usageName = true := by decide

theorem usageLoop_eq {b : Bytes} {fuel off : Nat} (hfuel : b.length < off + fuel)
    (hall : ∀ r ∈ rests (quoted usageName) (b.drop off), Follows r) (objStart : Option Nat) :
    usageLoop b fuel off objStart =
      pick b.length objStart ((rests (quoted usageName) (b.drop off)).filterMap objectAfter) := by
  induction fuel generalizing off objStart with
  | zero =>
    rw [drop_eq_nil_of_le (by omega)]
    rfl
  | succ fuel ih =>
    rw [usageLoop, usageKey_quoted]
    cases hindex : index (quoted usageName) (b.drop off) with
    | none =>
      rw [rests_eq_nil hindex]
      rfl
    | some i =>
      have hnext := rests_next isWord_usage hall hindex
      rw [drop_drop, ← Nat.add_assoc] at hnext
      have hrest : ∀ r ∈ rests (quoted usageName) (b.drop (off + i + (quoted usageName).length)),
          Follows r := by
        intro r hr
        refine hall r ?_
        rw [hnext]
        exact mem_cons_of_mem _ hr
      have hlen : b.length < off + i + (quoted usageName).length + fuel := by
        have : 0 < (quoted usageName).length := by decide
        omega
      rw [hnext]
      dsimp only
      cases hobj : objectAfter (b.drop (off + i + (quoted usageName).length)) with
      | none =>
        rw [filterMap_cons_none hobj]
        exact ih hlen hrest objStart
      | some rest =>
        rw [filterMap_cons_some hobj]
        cases objStart with
        | some k => rfl
        | none => exact ih hlen hrest _

/-! ### What follows a name -/

theorem not_sep_of_punct {b : UInt8} (h : punct b = false) : isSep b = false := by
  simp only [punct, Bool.or_eq_false_iff, decide_eq_false_iff_not] at h
  simp only [isSep, h.1, Bool.false_or, decide_eq_false_iff_not]
  exact fun hb => h.2 (.inl hb)

theorem not_space_of_punct {b : UInt8} (h : punct b = false) : isSpace b = false := by
  unfold punct at h
  exact (Bool.or_eq_false_iff.mp h).1

theorem dropWhile_sep_blank {ws : Bytes} (h : Syn.blank ws = true) (s : Bytes) :
    (ws ++ s).dropWhile isSep = s.dropWhile isSep := by
  refine dropWhile_append_of_pos fun b hb => ?_
  simp only [isSep, all_eq_true.mp h b hb, Bool.true_or]

/-- After a string that is a value no object follows. -/
theorem objectAfter_string {r : Bytes} (h : EndsValue r) : objectAfter r = none := by
  have hhead : ∀ b, (r.dropWhile isSep).head? = some b → b ≠ openBrace := by
    induction r with
    | nil => nofun
    | cons c r ih =>
      by_cases hspace : isSpace c = true
      · have hskip : skipSpace (c :: r) = skipSpace r := dropWhile_cons_of_pos hspace
        rw [dropWhile_cons_of_pos (by rw [isSep, hspace, Bool.true_or])]
        exact ih (by rwa [EndsValue, hskip] at h)
      · have hskip : skipSpace (c :: r) = c :: r := dropWhile_cons_of_neg hspace
        have hc := h c (by rw [hskip]; rfl)
        rw [dropWhile_cons_of_neg (by rcases hc with rfl | rfl | rfl <;> decide)]
        rintro b ⟨⟩
        rcases hc with rfl | rfl | rfl <;> decide
  exact if_neg fun hbrace => hhead openBrace hbrace rfl

/-- After a name the value is found, if it is an object. -/
theorem objectAfter_name {mid lead : Bytes} (hmid : Syn.blank mid = true)
    (hlead : Syn.blank lead = true) {v : Syn .value} (hv : v.wf = true) (t : Bytes) :
    objectAfter (mid ++ colon :: (lead ++ (v.text ++ t))) =
      if v.isObject then some (v.text ++ t) else none := by
  obtain ⟨b, x, htext, hpunct, hobj⟩ := Syn.text_head hv
  have hdrop : (mid ++ colon :: (lead ++ (v.text ++ t))).dropWhile isSep = v.text ++ t := by
    rw [dropWhile_sep_blank hmid, dropWhile_cons_of_pos (by decide), dropWhile_sep_blank hlead,
      htext, cons_append, dropWhile_cons_of_neg (by rw [not_sep_of_punct hpunct]; decide)]
  unfold objectAfter
  rw [hdrop]
  refine if_congr ?_ rfl rfl
  rw [htext, ← hobj]
  exact some_inj

/-- The objects that the loop finds are the ones of the members with the name. -/
theorem objects_of_hits {hs : List Hit} (hsound : ∀ h ∈ hs, h.Sound) :
    List.Forall₂ (fun t v => v.wf = true ∧ ∃ tail, t = v.text ++ tail)
      ((hs.map Hit.rest).filterMap objectAfter) ((hs.filterMap Hit.value).filter Syn.isObject) := by
  induction hs with
  | nil => exact List.Forall₂.nil
  | cons h hs ih =>
    have htail := ih fun h' hh' => hsound h' (mem_cons_of_mem _ hh')
    have hh := hsound h mem_cons_self
    obtain ⟨rest, value⟩ := h
    rw [map_cons]
    cases value with
    | none =>
      rw [filterMap_cons_none (objectAfter_string hh), filterMap_cons_none rfl]
      exact htail
    | some v =>
      obtain ⟨hv, mid, lead, post, c, t, hmid, hlead, -, -, hrest⟩ := hh
      have hafter : objectAfter rest =
        if v.isObject then some (v.text ++ (post ++ c :: t)) else none :=
        (congrArg objectAfter hrest).trans (objectAfter_name hmid hlead hv _)
      rw [filterMap_cons_some (f := Hit.value) rfl]
      cases hobj : v.isObject with
      | false =>
        rw [hobj] at hafter
        rw [filterMap_cons_none hafter, filter_cons_of_neg (by rw [hobj]; decide)]
        exact htail
      | true =>
        rw [hobj] at hafter
        rw [filterMap_cons_some hafter, filter_cons_of_pos hobj]
        exact List.Forall₂.cons ⟨hv, _, rfl⟩ htail

/-! ### Matching braces -/

section Balanced

variable {depth : Int}

/-- Outside of strings, the bytes are passed over: they close what they open. -/
def Passes (depth : Int) (x : Bytes) : Prop :=
  ∀ s i, balancedFrom (x ++ s) depth .outside i = balancedFrom s depth .outside (i + x.length)

namespace Passes

variable {x y : Bytes}

theorem neutral (hx : ∀ b ∈ x, neutral b = true) : Passes depth x := by
  intro s i
  induction x generalizing i with
  | nil => rfl
  | cons c x ih =>
    obtain ⟨hquote, hopen, hclose⟩ := of_decide_eq_true (hx c mem_cons_self)
    rw [cons_append, balancedFrom, if_neg hquote, if_neg hopen, if_neg hclose,
      ih (fun b hb => hx b (mem_cons_of_mem _ hb)), length_cons, Nat.add_right_comm, Nat.add_assoc]

theorem blank {ws : Bytes} (h : Syn.blank ws = true) : Passes depth ws :=
  neutral fun b hb => isSpace_neutral (all_eq_true.mp h b hb)

theorem append (hx : Passes depth x) (hy : Passes depth y) : Passes depth (x ++ y) := by
  intro s i
  rw [append_assoc, hx, hy, length_append, Nat.add_assoc]

theorem cons {b : UInt8} (hb : JsonSyntax.neutral b = true) (hx : Passes depth x) :
    Passes depth (b :: x) :=
  (neutral (x := [b]) fun c hc => by rw [mem_singleton.mp hc]; exact hb).append hx

/-- Braces around something, where the object does not end. -/
theorem braces (hdepth : 0 < depth) (hx : Passes (depth + 1) x) :
    Passes depth (openBrace :: (x ++ [closeBrace])) := by
  intro s i
  simp only [cons_append, append_assoc, nil_append, length_cons, length_append,
    length_nil]
  rw [balancedFrom, if_neg (by decide), if_pos rfl, hx, balancedFrom, if_neg (by decide),
    if_neg (by decide), if_pos rfl, Int.add_sub_cancel, if_neg hdepth.ne']
  congr 1
  omega

end Passes

/-- In a string, bytes that are neither a quote nor a backslash are passed over. -/
theorem balancedFrom_inString {x : Bytes} (hx : ∀ b ∈ x, b ≠ dquote ∧ b ≠ backslash) (s : Bytes)
    (i : Nat) :
    balancedFrom (x ++ s) depth .inString i = balancedFrom s depth .inString (i + x.length) := by
  induction x generalizing i with
  | nil => rfl
  | cons c x ih =>
    obtain ⟨hquote, hback⟩ := hx c mem_cons_self
    rw [cons_append, balancedFrom, if_neg hback, if_neg hquote,
      ih (fun b hb => hx b (mem_cons_of_mem _ hb)), length_cons, Nat.add_right_comm, Nat.add_assoc]

theorem balancedFrom_piece {p : Piece} (hp : p.ok = true) (s : Bytes) (i : Nat) :
    balancedFrom (p.text ++ s) depth .inString i =
      balancedFrom s depth .inString (i + p.text.length) := by
  cases p with
  | plain c =>
    refine balancedFrom_inString ?_ s i
    intro b hb
    rw [mem_singleton.mp hb]
    exact (of_decide_eq_true hp).2
  | esc c =>
    show balancedFrom (backslash :: c :: s) depth .inString i = _
    rw [balancedFrom, if_pos rfl, balancedFrom]
    rfl
  | uni a b c d =>
    show balancedFrom (backslash :: 0x75 :: ([a, b, c, d] ++ s)) depth .inString i = _
    rw [balancedFrom, if_pos rfl, balancedFrom, balancedFrom_inString]
    · rfl
    · intro h hmem
      have hhex := all_eq_true.mp hp h hmem
      refine ⟨?_, ?_⟩ <;> rintro rfl <;> exact absurd hhex (by decide)

/-- A string is passed over, whatever braces and escapes are in it. -/
theorem Passes.string {ps : List Piece} (hps : ps.all Piece.ok = true) :
    Passes depth (dquote :: (body ps ++ [dquote])) := by
  intro s i
  have hbody : ∀ i, balancedFrom (body ps ++ dquote :: s) depth .inString i =
      balancedFrom s depth .outside (i + (body ps).length + 1) := by
    induction ps with
    | nil =>
      intro i
      show balancedFrom (dquote :: s) depth .inString i = _
      rw [balancedFrom, if_neg (by decide), if_pos rfl]
      rfl
    | cons p ps ih =>
      rw [all_cons, Bool.and_eq_true] at hps
      intro i
      rw [body_cons, append_assoc, balancedFrom_piece hps.1, ih hps.2, length_append]
      congr 1
      omega
  simp only [cons_append, append_assoc, nil_append, length_cons, length_append,
    length_nil]
  rw [balancedFrom, if_pos rfl, hbody]
  congr 1
  omega

/-- What precedes a member's value, and the rest of the member. -/
theorem Passes.name {pre mid lead x : Bytes} {name : List Piece} (hpre : Syn.blank pre = true)
    (hname : name.all Piece.ok = true) (hmid : Syn.blank mid = true) (hlead : Syn.blank lead = true)
    (hx : Passes depth x) :
    Passes depth (pre ++ dquote :: (body name ++ dquote :: (mid ++ colon :: (lead ++ x)))) := by
  have hafter := (Passes.blank hmid).append
    (.cons (b := colon) (by decide) ((Passes.blank hlead).append hx))
  have htext := (Passes.blank hpre).append ((Passes.string hname).append hafter)
  rwa [cons_append, append_assoc] at htext

/-- Inside an object, the text of a tree is passed over. -/
theorem Passes.text {k : Kind} {d : Syn k} (hd : d.wf = true) (hdepth : 0 < depth) :
    Passes depth d.text := by
  induction d generalizing depth <;> simp only [Syn.wf, Bool.and_eq_true] at hd
  case word t =>
    simp only [decide_eq_true_eq, mem_cons, not_mem_nil, or_false] at hd
    rcases hd with rfl | rfl | rfl <;> exact .neutral (all_eq_true.mp (by decide))
  case num n => exact .neutral (Numeral.text_neutral hd)
  case str ps => exact .string hd
  case emptyArr ws =>
    exact .cons (by decide) ((Passes.blank hd).append (.neutral (all_eq_true.mp rfl)))
  case arr es ih => exact .cons (by decide) ((ih hd hdepth).append (.neutral (all_eq_true.mp rfl)))
  case emptyObj ws => exact .braces hdepth (.blank hd)
  case obj ms ih => exact .braces hdepth (ih hd (by omega))
  case lastItem pre v post ih =>
    exact (Passes.blank hd.1.1).append ((ih hd.1.2 hdepth).append (.blank hd.2))
  case item pre v post rest ih ihrest =>
    obtain ⟨⟨⟨hpre, hv⟩, hpost⟩, hrest⟩ := hd
    have hafter := (Passes.blank hpost).append
      (.cons (b := comma) (by decide) (ihrest hrest hdepth))
    exact (Passes.blank hpre).append ((ih hv hdepth).append hafter)
  case lastField pre name mid lead v post ih =>
    obtain ⟨⟨⟨⟨⟨hpre, hname⟩, hmid⟩, hlead⟩, hv⟩, hpost⟩ := hd
    exact .name hpre hname hmid hlead ((ih hv hdepth).append (.blank hpost))
  case field pre name mid lead v post rest ih ihrest =>
    obtain ⟨⟨⟨⟨⟨⟨hpre, hname⟩, hmid⟩, hlead⟩, hv⟩, hpost⟩, hrest⟩ := hd
    have hafter := (Passes.blank hpost).append
      (.cons (b := comma) (by decide) (ihrest hrest hdepth))
    exact .name hpre hname hmid hlead ((ih hv hdepth).append hafter)

/-- The brace that `balanced` finds is the one that ends the object. -/
theorem balanced_object {u : Syn .value} (hu : u.wf = true) (hobj : u.isObject = true) (s : Bytes) :
    balanced (u.text ++ s) = some u.text := by
  -- at depth zero the closing brace is the last byte
  have hbraces : ∀ {x : Bytes}, Passes 1 x →
      balancedFrom (openBrace :: (x ++ [closeBrace]) ++ s) 0 .outside 0 =
        some (openBrace :: (x ++ [closeBrace])).length := by
    intro x hx
    simp only [cons_append, append_assoc, nil_append, length_cons, length_append,
      length_nil]
    rw [balancedFrom, if_neg (by decide), if_pos rfl, zero_add, hx, balancedFrom,
      if_neg (by decide), if_neg (by decide), if_pos rfl, if_pos (by decide)]
    congr 1
    omega
  have hlen : balancedFrom (u.text ++ s) 0 .outside 0 = some u.text.length := by
    cases u with
    | emptyObj ws => exact hbraces (.blank hu)
    | obj ms => exact hbraces (Passes.text (d := ms) hu (by decide))
    | _ => cases hobj
  rw [balanced, hlen, map_some, take_left]

end Balanced

/-! ### Reading a count -/

theorem readDigits_append {ds s : Bytes} (hds : ∀ b ∈ ds, isDigit b = true)
    (hs : ∀ b, s.head? = some b → isDigit b = false) {digits : Nat} (hdigits : digits ≤ 11)
    (n : Nat) :
    readDigits (ds ++ s) digits n =
      if digits + ds.length ≤ 11 then
        some (digits + ds.length, ds.foldl (fun n b => n * 10 + (b.toNat - 48)) n, s)
      else none := by
  induction ds generalizing digits n with
  | nil =>
    rw [nil_append, length_nil, Nat.add_zero, if_pos hdigits]
    cases s with
    | nil => rfl
    | cons c s =>
      rw [readDigits, hs c rfl]
      rfl
  | cons c ds ih =>
    rw [cons_append, readDigits, if_pos (hds c mem_cons_self), length_cons]
    by_cases hmany : digits ≥ 11
    · rw [if_pos hmany, if_neg (by omega)]
    · rw [if_neg hmany, ih (fun b hb => hds b (mem_cons_of_mem _ hb)) (by omega),
        Nat.add_right_comm digits 1, Nat.add_assoc digits]
      rfl

theorem foldl_digits_ge (ds : Bytes) (n : Nat) :
    n * 10 ^ ds.length ≤ ds.foldl (fun n b => n * 10 + (b.toNat - 48)) n := by
  induction ds generalizing n with
  | nil => simp
  | cons c ds ih =>
    calc n * 10 ^ (ds.length + 1) = n * 10 * 10 ^ ds.length := by ring
      _ ≤ (n * 10 + (c.toNat - 48)) * 10 ^ ds.length :=
        Nat.mul_le_mul_right _ (Nat.le_add_right _ _)
      _ ≤ _ := ih _

/-- A number of more than eleven digits is too large. -/
theorem readNat_of_long {ds : Bytes} (hds : ∀ b ∈ ds, isDigit b = true) (hzero : ds.head? ≠ some 48)
    (hlong : 11 < ds.length) : maxEventTokens < readNat ds := by
  cases ds with
  | nil => cases hlong
  | cons c ds =>
    have hrange := of_decide_eq_true (hds c mem_cons_self)
    have hc : c.toNat ≠ 48 := by
      intro h
      refine hzero (congrArg some ?_)
      exact UInt8.toNat_inj.mp h
    have hfold := foldl_digits_ge ds (0 * 10 + (c.toNat - 48))
    have hpow : 10 ^ 11 ≤ 10 ^ ds.length := Nat.pow_le_pow_right (by decide) (by simpa using hlong)
    have hmul : 1 * 10 ^ ds.length ≤ (0 * 10 + (c.toNat - 48)) * 10 ^ ds.length :=
      Nat.mul_le_mul_right _ (by omega)
    show maxEventTokens < ds.foldl (fun n b => n * 10 + (b.toNat - 48)) (0 * 10 + (c.toNat - 48))
    unfold maxEventTokens
    omega

theorem readCount_of_head {s : Bytes} (h : ∀ b, s.head? = some b → isDigit b = false) :
    readCount s = none := by
  have hdigits := readDigits_append (forall_mem_nil _) h (Nat.zero_le 11) 0
  rw [nil_append] at hdigits
  rw [readCount, hdigits]
  rfl

/-- What ends a member's value ends a number. -/
theorem ends_number {post : Bytes} (hpost : Syn.blank post = true) {c : UInt8}
    (hc : c = comma ∨ c = closeBrace) (t : Bytes) :
    ∃ b x, post ++ c :: t = b :: x ∧ isDigit b = false ∧
      (b = comma ∨ b = closeBrace ∨ isSpace b = true) := by
  cases post with
  | nil =>
    refine ⟨c, t, rfl, ?_, ?_⟩
    · rcases hc with rfl | rfl <;> decide
    · rcases hc with rfl | rfl
      · exact .inl rfl
      · exact .inr (.inl rfl)
  | cons b x =>
    unfold Syn.blank at hpost
    rw [all_cons, Bool.and_eq_true] at hpost
    refine ⟨b, x ++ c :: t, rfl, ?_, .inr (.inr hpost.1)⟩
    rcases of_decide_eq_true hpost.1 with rfl | rfl | rfl | rfl <;> decide

section Number

variable {n : Numeral} {post t : Bytes} {c : UInt8}

/-- What comes after the integer part: a point, an exponent, or the end of the value. -/
theorem after_int (hn : n.ok = true) (hpost : Syn.blank post = true)
    (hc : c = comma ∨ c = closeBrace) :
    ∃ b x, n.frac ++ (n.exp ++ (post ++ c :: t)) = b :: x ∧ isDigit b = false ∧
      ((b = comma ∨ b = closeBrace ∨ isSpace b = true) ↔ n.frac = [] ∧ n.exp = []) := by
  obtain ⟨-, -, hfrac, hexp⟩ := Numeral.ok_parts hn
  cases hf : n.frac with
  | cons b x =>
    rw [hf] at hfrac
    unfold fracOk at hfrac
    rw [Bool.and_eq_true, decide_eq_true_eq] at hfrac
    obtain ⟨rfl, -⟩ := hfrac
    exact ⟨_, _, rfl, by decide, iff_of_false (by decide) (fun h => by cases h.1)⟩
  | nil =>
    cases he : n.exp with
    | cons b x =>
      rw [he] at hexp
      unfold expOk at hexp
      rw [Bool.and_eq_true, decide_eq_true_eq] at hexp
      refine ⟨_, _, rfl, ?_⟩
      rcases hexp.1 with rfl | rfl
      · exact ⟨by decide, iff_of_false (by decide) (fun h => by cases h.2)⟩
      · exact ⟨by decide, iff_of_false (by decide) (fun h => by cases h.2)⟩
    | nil =>
      obtain ⟨b, x, heq, hdigit, hends⟩ := ends_number hpost hc t
      exact ⟨b, x, heq, hdigit, iff_of_true hends ⟨rfl, rfl⟩⟩

theorem readCount_num (hn : n.ok = true) (hpost : Syn.blank post = true)
    (hc : c = comma ∨ c = closeBrace) :
    readCount (n.text ++ (post ++ c :: t)) = countOf (.num n) := by
  obtain ⟨hint, hzero, -, -⟩ := Numeral.ok_parts hn
  have hdigits : ∀ b ∈ n.int, isDigit b = true := by
    unfold digitsOk at hint
    rw [Bool.and_eq_true] at hint
    exact all_eq_true.mp hint.2
  have hne : n.int ≠ [] := by
    intro h
    rw [h] at hint
    cases hint
  cases hneg : n.neg with
  | true =>
    have hcount : countOf (.num n) = none := by
      simp [countOf, Numeral.plain, hneg]
    rw [hcount]
    refine readCount_of_head ?_
    unfold Numeral.text
    rw [hneg]
    intro b hb
    cases hb
    decide
  | false =>
    obtain ⟨b, x, hafter, hbdigit, hends⟩ := after_int (t := t) hn hpost hc
    have htext : n.text ++ (post ++ c :: t) = n.int ++ b :: x := by
      rw [← hafter]
      simp [Numeral.text, hneg]
    have hread : readDigits (n.int ++ b :: x) 0 0 =
        if n.int.length ≤ 11 then some (n.int.length, readNat n.int, b :: x) else none := by
      rw [readDigits_append hdigits (fun b' hb' => by cases hb'; exact hbdigit) (Nat.zero_le 11),
        Nat.zero_add, readNat]
    have hplain : n.plain = if n.frac = [] ∧ n.exp = [] then some (readNat n.int) else none := by
      unfold Numeral.plain
      rw [hneg]
      exact if_congr (and_iff_right rfl) rfl rfl
    have hends' : (if b = comma ∨ b = closeBrace ∨
        isSpace b = true then some (readNat n.int) else none) = n.plain := by
      rw [hplain, if_congr hends rfl rfl]
    simp only [readCount, htext, hread, countOf]
    by_cases hlen : n.int.length ≤ 11
    · have hlead : ¬ (n.int.length > 1 ∧ (n.int ++ b :: x).head? = some 48) := by
        rintro ⟨hlong, hhead⟩
        rw [List.head?_append_of_ne_nil _ hne] at hhead
        rcases hzero with hzero | hone
        · exact hzero hhead
        · omega
      have hpos : n.int.length ≠ 0 := fun h => hne (length_eq_zero_iff.mp h)
      simp only [if_pos hlen, hpos, hlead, false_or]
      rw [hends', hplain]
      split <;> split <;> simp_all [filter_some]
    · rw [if_neg hlen, hplain]
      have hlarge := readNat_of_long hdigits (hzero.resolve_right (by omega))
        (Nat.lt_of_not_le hlen)
      by_cases hend : n.frac = [] ∧ n.exp = []
      · rw [if_pos hend]
        simp [filter_some, hlarge]
      · rw [if_neg hend]
        rfl

end Number

theorem readCount_value {v : Syn .value} (hv : v.wf = true) {post t : Bytes} {c : UInt8}
    (hpost : Syn.blank post = true) (hc : c = comma ∨ c = closeBrace) :
    readCount (v.text ++ (post ++ c :: t)) = countOf v := by
  have hother : (∃ b x, v.text = b :: x ∧ isDigit b = false) →
      readCount (v.text ++ (post ++ c :: t)) = none := by
    rintro ⟨b, x, htext, hb⟩
    refine readCount_of_head ?_
    rw [htext]
    intro b' hb'
    cases hb'
    exact hb
  cases v with
  | num n => exact readCount_num hv hpost hc
  | word t =>
    refine hother ?_
    simp only [Syn.wf, decide_eq_true_eq, mem_cons, not_mem_nil, or_false] at hv
    rcases hv with rfl | rfl | rfl <;> exact ⟨_, _, rfl, by decide⟩
  | str ps => exact hother ⟨dquote, _, rfl, by decide⟩
  | emptyArr ws => exact hother ⟨openBracket, _, rfl, by decide⟩
  | arr es => exact hother ⟨openBracket, _, rfl, by decide⟩
  | emptyObj ws => exact hother ⟨openBrace, _, rfl, by decide⟩
  | obj ms => exact hother ⟨openBrace, _, rfl, by decide⟩

/-- After a name, the count is the member's value. -/
theorem countAfter_name {mid lead post t : Bytes} {c : UInt8} {v : Syn .value}
    (hmid : Syn.blank mid = true) (hlead : Syn.blank lead = true) (hv : v.wf = true)
    (hpost : Syn.blank post = true) (hc : c = comma ∨ c = closeBrace) :
    countAfter (mid ++ colon :: (lead ++ (v.text ++ (post ++ c :: t)))) = countOf v := by
  obtain ⟨b, x, htext, hpunct, -⟩ := Syn.text_head hv
  have hcolon : ∀ s, skipSpace (colon :: s) = colon :: s :=
    fun s => dropWhile_cons_of_neg (by decide)
  have hvalue : skipSpace (v.text ++ (post ++ c :: t)) = v.text ++ (post ++ c :: t) := by
    rw [htext]
    exact dropWhile_cons_of_neg (by rw [not_space_of_punct hpunct]; decide)
  unfold countAfter
  rw [skipSpace_blank hmid, hcolon]
  dsimp only
  rw [if_neg (not_not.mpr rfl), skipSpace_blank hlead, hvalue, readCount_value hv hpost hc]

/-- After a string that is a value, there is no count. -/
theorem countAfter_string {r : Bytes} (h : EndsValue r) : countAfter r = none := by
  unfold countAfter
  cases hskip : skipSpace r with
  | nil => rfl
  | cons c b =>
    have hc := h c (by rw [hskip]; rfl)
    refine if_pos ?_
    rcases hc with rfl | rfl | rfl <;> decide

/-! ### A name that occurs once -/

section Unique

variable {w : Bytes} {u : Syn .value}

theorem uniqueCount_rests (hw : isWord w = true) {obj : Bytes}
    (hall : ∀ r ∈ rests (quoted w) obj, Follows r) (n : Nat) :
    uniqueCount obj (quoted w) = some n ↔ ∃ r, rests (quoted w) obj = [r] ∧
      countAfter r = some n := by
  unfold uniqueCount
  cases hindex : index (quoted w) obj with
  | none =>
    rw [rests_eq_nil hindex]
    refine iff_of_false nofun ?_
    rintro ⟨r, hr, -⟩
    cases hr
  | some i =>
    have hnext := rests_next hw hall hindex
    dsimp only
    cases hmore : index (quoted w) (obj.drop (i + (quoted w).length)) with
    | none =>
      rw [rests_eq_nil hmore] at hnext
      rw [if_neg (by decide), hnext]
      constructor
      · intro h
        exact ⟨_, rfl, h⟩
      · rintro ⟨r, hr, h⟩
        cases hr
        exact h
    | some j =>
      rw [rests_of_index hmore] at hnext
      rw [if_pos (show (some j).isSome = true from rfl), hnext]
      refine iff_of_false nofun ?_
      rintro ⟨r, hr, -⟩
      cases hr

/-- What is read at a hit. -/
theorem countAfter_hit {h : Hit} (hh : h.Sound) : countAfter h.rest = h.value.bind countOf := by
  obtain ⟨rest, value⟩ := h
  cases value with
  | none => exact countAfter_string hh
  | some v =>
    obtain ⟨hv, mid, lead, post, c, t, hmid, hlead, hpost, hc, hrest⟩ := hh
    exact (congrArg countAfter hrest).trans (countAfter_name hmid hlead hv hpost hc)

/-- `uniqueCount` reads the count of the one member with the name, unless a string of the object
ends in the quoted name. -/
theorem uniqueCount_iff (hw : isWord w = true) (hu : u.wf = true) (hplain : u.plainNames = true)
    (n : Nat) :
    uniqueCount u.text (quoted w) = some n ↔ CountIn u w n ∧
      ∀ ps ∈ u.strings, keyed w ps = false := by
  have hsound := hits_sound (w := w) hu (s := []) endsValue_nil
  have htext := rests_text hw hu endsValue_nil
  rw [append_nil, show rests (quoted w) [] = [] from rfl, append_nil] at htext
  have hall : ∀ r ∈ rests (quoted w) u.text, Follows r := by
    intro r hr
    rw [htext] at hr
    obtain ⟨h, hh, rfl⟩ := mem_map.mp hr
    exact (hsound h hh).follows
  have hkeyed : (∀ ps ∈ u.strings, keyed w ps = false) ↔ ∀ h ∈ hits w u [], h.value ≠ none := by
    have hstrings := hits_strings (w := w) u []
    have hzero : u.strings.countP (keyed w) = 0 ↔
      (hits w u []).countP (fun h => h.value.isNone) = 0 := by rw [hstrings]
    simpa [countP_eq_zero] using hzero
  rw [uniqueCount_rests hw hall, htext, hkeyed, CountIn, ← hits_members hu hplain []]
  constructor
  · rintro ⟨r, hr, hcount⟩
    obtain ⟨h, hhits, rfl⟩ := map_eq_singleton_iff.mp hr
    rw [hhits] at hsound ⊢
    rw [countAfter_hit (hsound h mem_cons_self)] at hcount
    obtain ⟨v, hv, hn⟩ := Option.bind_eq_some_iff.mp hcount
    exact ⟨⟨v, by simp [hv], hn⟩, by simp [hv]⟩
  · rintro ⟨⟨v, hone, hcount⟩, hno⟩
    -- every hit has a value, so there is one hit only
    obtain ⟨h, hhits⟩ : ∃ h, hits w u [] = [h] := by
      refine length_eq_one_iff.mp ?_
      have hlen := congrArg List.length hone
      rwa [length_filterMap_eq_countP,
        countP_eq_length.mpr fun h hh => Option.isSome_iff_ne_none.mpr (hno h hh)] at hlen
    rw [hhits] at hsound hone ⊢
    obtain ⟨v', hv, hsame⟩ : ∃ v', h.value = some v' ∧ [v'] = [v] := by
      cases hv : h.value with
      | none => simp [hv] at hone
      | some v' => exact ⟨v', rfl, by simpa [hv] using hone⟩
    refine ⟨h.rest, rfl, ?_⟩
    rw [countAfter_hit (hsound h mem_cons_self), hv, singleton_inj.mp hsame]
    exact hcount

end Unique

/-! ### Documents -/

theorem plainNames_members {w : Bytes} {k : Kind} {d : Syn k} (hplain : d.plainNames = true) :
    ∀ v ∈ d.membersNamed w, v.plainNames = true := by
  induction d <;> simp only [Syn.plainNames, Bool.and_eq_true] at hplain <;> intro x hx <;>
    simp only [Syn.membersNamed, mem_append, mem_ite_nil_right, mem_singleton, not_mem_nil] at hx
  case arr es ih => exact ih hplain x hx
  case obj ms ih => exact ih hplain x hx
  case lastItem pre v post ih => exact ih hplain x hx
  case item pre v post rest ih ihrest =>
    rcases hx with hx | hx
    · exact ih hplain.1 x hx
    · exact ihrest hplain.2 x hx
  case lastField pre name mid lead v post ih =>
    rcases hx with ⟨-, rfl⟩ | hx
    · exact hplain.2
    · exact ih hplain.2 x hx
  case field pre name mid lead v post rest ih ihrest =>
    rcases hx with ⟨-, rfl⟩ | hx | hx
    · exact hplain.1.2
    · exact ih hplain.1.2 x hx
    · exact ihrest hplain.2 x hx

section Document

variable {pre post : Bytes} {v : Syn .value}

/-- The search ends at the one usage object, and the object is cut out. -/
theorem usage_found (hd : (Syn.lastItem pre v post).wf = true)
    (hplain : (Syn.lastItem pre v post).plainNames = true) :
    (∃ u start, usageObjects (Syn.lastItem pre v post) = [u] ∧ u.wf = true ∧
        usageLoop (Syn.lastItem pre v post).text ((Syn.lastItem pre v post).text.length + 1) 0 none
          = some (some start) ∧
        balanced ((Syn.lastItem pre v post).text.drop start) = some u.text) ∨
      (∀ u, usageObjects (Syn.lastItem pre v post) ≠ [u]) ∧
        ∀ start, usageLoop (Syn.lastItem pre v post).text
          ((Syn.lastItem pre v post).text.length + 1) 0 none ≠
          some (some start) := by
  generalize hdoc : Syn.lastItem pre v post = d at hd hplain ⊢
  have hsound := hits_sound (w := usageName) hd (s := []) endsValue_nil
  have htext := rests_text isWord_usage hd endsValue_nil
  rw [append_nil, show rests (quoted usageName) [] = [] from rfl, append_nil] at htext
  have hfuel : d.text.length < 0 + (d.text.length + 1) := by omega
  have hfollow : ∀ r ∈ rests (quoted usageName) (d.text.drop 0), Follows r := by
    intro r hr
    rw [drop_zero, htext] at hr
    obtain ⟨h, hh, rfl⟩ := mem_map.mp hr
    exact (hsound h hh).follows
  have hloop := usageLoop_eq hfuel hfollow none
  have hobjects := objects_of_hits hsound
  rw [hits_members hd hplain] at hobjects
  have hsuffix : ∀ t ∈ ((hits usageName d []).map Hit.rest).filterMap objectAfter,
      t <:+ d.text := by
    intro t ht
    obtain ⟨r, hr, hrt⟩ := mem_filterMap.mp ht
    rw [← htext] at hr
    unfold objectAfter at hrt
    dsimp only at hrt
    split at hrt
    · cases hrt
      exact (dropWhile_suffix _).trans (rests_suffix hr)
    · cases hrt
  rw [drop_zero, htext] at hloop
  rw [hloop]
  unfold usageObjects
  revert hobjects hsuffix
  generalize ((hits usageName d []).map Hit.rest).filterMap objectAfter = ts
  generalize hus : (d.membersNamed usageName).filter Syn.isObject = us
  intro hobjects hsuffix
  cases hobjects with
  | nil =>
    refine .inr ⟨nofun, fun start h => ?_⟩
    cases h
  | cons hhead htail =>
    rename_i t u ts us
    cases htail with
    | nil =>
      obtain ⟨hu, tail, rfl⟩ := hhead
      have hobj : u.isObject = true := by
        have hmem : u ∈ (d.membersNamed usageName).filter Syn.isObject := by
          rw [hus]
          exact mem_singleton_self u
        exact (mem_filter.mp hmem).2
      refine .inl ⟨u, d.text.length - (u.text ++ tail).length, rfl, hu, rfl, ?_⟩
      rw [← suffix_iff_eq_drop.mp (hsuffix _ (mem_singleton_self _))]
      exact balanced_object hu hobj tail
    | cons _ _ =>
      refine .inr ⟨nofun, fun start h => ?_⟩
      cases h

/-- What `parseUsage` accepts: the counts that the document reports, unless a string of its usage
object ends in the quoted name of a count. -/
theorem parseUsage_iff (hd : (Syn.lastItem pre v post).wf = true)
    (hplain : (Syn.lastItem pre v post).plainNames = true) (p c : Nat) :
    parseUsage (Syn.lastItem pre v post).text = some (p, c) ↔
      ∃ u, usageObjects (Syn.lastItem pre v post) = [u] ∧
        (CountIn u promptName p ∧ CountIn u completionName c) ∧
        ¬ Hides u := by
  have hprompt : promptKey = quoted promptName := by decide
  have hcompletion : completionKey = quoted completionName := by decide
  unfold parseUsage
  rcases usage_found hd hplain with ⟨u, start, hone, hu, hloop, hbalanced⟩ | ⟨hno, hloop⟩
  · have hmem : u ∈ (Syn.lastItem pre v post).membersNamed usageName :=
      mem_of_mem_filter (hone ▸ mem_singleton_self u)
    have huplain := plainNames_members hplain u hmem
    have hp := uniqueCount_iff (w := promptName) (by decide) hu huplain
    have hc := uniqueCount_iff (w := completionName) (by decide) hu huplain
    rw [hloop]
    dsimp only
    rw [hbalanced, hprompt, hcompletion]
    dsimp only
    have hboth : (match uniqueCount u.text (quoted promptName),
        uniqueCount u.text (quoted completionName) with
        | some prompt, some completion => some (prompt, completion)
        | _, _ => none) = some (p, c) ↔
        uniqueCount u.text (quoted promptName) = some p ∧
            uniqueCount u.text (quoted completionName) = some c := by
      cases uniqueCount u.text (quoted promptName) <;> cases uniqueCount u.text
        (quoted completionName) <;> simp
    rw [hboth, hp, hc]
    constructor
    · rintro ⟨⟨hcp, hnp⟩, hcc, hnc⟩
      refine ⟨u, hone, ⟨hcp, hcc⟩, ?_⟩
      rintro ⟨ps, hps, hkeyed | hkeyed⟩
      · rw [hnp ps hps] at hkeyed
        cases hkeyed
      · rw [hnc ps hps] at hkeyed
        cases hkeyed
    · rintro ⟨u', hone', ⟨hcp, hcc⟩, hhides⟩
      cases hone.symm.trans hone'
      refine ⟨⟨hcp, fun ps hps => ?_⟩, hcc, fun ps hps => ?_⟩
      · rw [Bool.eq_false_iff]
        exact fun h => hhides ⟨ps, hps, .inl h⟩
      · rw [Bool.eq_false_iff]
        exact fun h => hhides ⟨ps, hps, .inr h⟩
  · refine iff_of_false ?_ ?_
    · intro h
      split at h
      next start hstart => exact hloop start hstart
      next => cases h
    · rintro ⟨u, hone, -⟩
      exact hno u hone

/-- **Usage extraction and JSON.** No string forges a count: what `parseUsage` returns is what the
document reports. It returns everything that the document reports if and only if no string of a
usage object with counts ends in the quoted name of one of them. -/
theorem usage_agrees_iff (pre post : Bytes) (v : Syn .value)
    (hd : (Syn.lastItem pre v post).wf = true)
    (hplain : (Syn.lastItem pre v post).plainNames = true) :
    (∀ p c, parseUsage (Syn.lastItem pre v post).text = some (p, c) →
      Reports (Syn.lastItem pre v post) p c) ∧
    ((∀ p c, parseUsage (Syn.lastItem pre v post).text = some (p, c) ↔
      Reports (Syn.lastItem pre v post) p c) ↔
      ∀ p c, Reports (Syn.lastItem pre v post) p c → ∀ u ∈ usageObjects (Syn.lastItem pre v post),
        ¬ Hides u) := by
  have hparse := parseUsage_iff hd hplain
  refine ⟨fun p c h => ?_, fun h p c hrep u hu => ?_, fun h p c => ⟨fun hp => ?_, fun hrep => ?_⟩⟩
  · obtain ⟨u, hone, hcounts, -⟩ := (hparse p c).mp h
    exact ⟨u, hone, hcounts⟩
  · obtain ⟨u', hone, -, hhides⟩ := (hparse p c).mp ((h p c).mpr hrep)
    rw [hone, mem_singleton] at hu
    rw [hu]
    exact hhides
  · obtain ⟨u, hone, hcounts, -⟩ := (hparse p c).mp hp
    exact ⟨u, hone, hcounts⟩
  · have hrep' := hrep
    obtain ⟨u, hone, hcounts⟩ := hrep'
    refine (hparse p c).mpr ⟨u, hone, hcounts, h p c hrep u ?_⟩
    rw [hone]
    exact mem_singleton_self u

end Document

/-- A string of ASCII characters that need no escape. -/
def plainPieces (s : String) : List Piece := (bytesOf s).map Piece.plain

/-- A response with two counts and a note in its usage object. -/
def notedUsage (note : List Piece) : Syn .value :=
  .obj (.lastField [] (plainPieces "usage") [] []
    (.obj (.field [] (plainPieces "prompt_tokens") [] [] (.num ⟨false, [53], [], []⟩) []
      (.field [] (plainPieces "completion_tokens") [] [] (.num ⟨false, [55], [], []⟩) []
        (.lastField [] (plainPieces "note") [] [] (.str note) [])))) [])

/-- A response with the counts 5 and 7 in which they are not found. -/
def CountsHidden {k : Kind} (d : Syn k) : Prop :=
  d.wf = true ∧ d.plainNames = true ∧ Reports d 5 7 ∧ parseUsage d.text = none

theorem reports_noted (note : List Piece) : Reports (Syn.lastItem [] (notedUsage note) []) 5 7 :=
  ⟨_, rfl, ⟨_, rfl, rfl⟩, ⟨_, rfl, rfl⟩⟩

/-- A note that is the name of a count, or that ends in an escaped quote and the name, hides the
counts. -/
theorem note_hides_counts :
    CountsHidden (Syn.lastItem [] (notedUsage (plainPieces "prompt_tokens")) []) ∧
      CountsHidden (Syn.lastItem []
        (notedUsage (.plain 0x78 :: .esc dquote :: plainPieces "completion_tokens")) []) := by
  refine ⟨⟨by decide, by decide, reports_noted _, by decide +kernel⟩,
    ⟨by decide, by decide, reports_noted _, by decide +kernel⟩⟩

/-- A note with a quoted name in it, as text: the counts are read. -/
theorem usage_agrees_iff_quoted_note :
    parseUsage (Syn.lastItem [] (notedUsage (.esc dquote :: plainPieces "completion_tokens" ++
      [.esc dquote] ++ plainPieces ":99")) []).text = some (5, 7) := by
  refine ((usage_agrees_iff [] [] _ (by decide) (by decide)).2.mpr ?_ 5 7).mpr (reports_noted _)
  intro p c _ u hu
  rw [mem_singleton.mp hu]
  rintro ⟨ps, hps, hkeyed⟩
  rw [mem_singleton.mp hps] at hkeyed
  revert hkeyed
  decide

/-- **From the wire to the counts.** However a response that fits into the window is cut into
pieces, `result` reports two counts of the worker exactly if the document has one usage object, with
these counts, and none of its strings ends in the quoted name of one. -/
theorem result_of_pieces {pre post : Bytes} {v : Syn .value}
    (hd : (Syn.lastItem pre v post).wf = true)
    (hplain : (Syn.lastItem pre v post).plainNames = true) {pieces : List Bytes}
    (htext : pieces.flatten = (Syn.lastItem pre v post).text)
    (hfits : pieces.flatten.length ≤ tokenWindow) (stream : Bool) (p c : Nat) :
    (TokenScanner.zero.feedAll pieces).result stream = ("usage", p, c) ↔
      ∃ u, usageObjects (Syn.lastItem pre v post) = [u] ∧
        (CountIn u promptName p ∧ CountIn u completionName c) ∧
        ¬ Hides u := by
  have htail : (TokenScanner.zero.feedAll pieces).tail = (Syn.lastItem pre v post).text := by
    rw [(TokenScanner.saw_zero.feedAll pieces).tail, nil_append, lastBytes,
      Nat.sub_eq_zero_of_le hfits, drop_zero, htext]
  rw [← parseUsage_iff hd hplain, TokenScanner.result, htail]
  cases parseUsage (Syn.lastItem pre v post).text with
  | some counts => simp [Prod.ext_iff]
  | none =>
    simp only [reduceCtorEq, iff_false]
    split <;> simp

/-- A cut in the middle of the name of a count. -/
theorem result_of_pieces_cut :
    ∃ a b, a.length = 20 ∧ a ++ b = (Syn.lastItem [] (notedUsage []) []).text ∧
    (TokenScanner.zero.feedAll [a, b]).result true = ("usage", 5, 7) := by
  refine ⟨_, _, by decide +kernel, take_append_drop 20 _,
    (@result_of_pieces [] [] (notedUsage []) (by decide)
    (by decide) _ (by simp) (by decide +kernel) true 5 7).mpr
      ⟨_, rfl, ⟨⟨_, rfl, rfl⟩, ⟨_, rfl, rfl⟩⟩, ?_⟩⟩
  rintro ⟨ps, hps, hkeyed⟩
  rw [mem_singleton.mp hps] at hkeyed
  revert hkeyed
  decide

end ServerFlow.Gateway
