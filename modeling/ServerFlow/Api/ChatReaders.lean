import ServerFlow.Api.Chat

/-!
# Api.ChatReaders

What an exact reader obtains from a body that the gateway accepted, against what the gateway read.
The body is forwarded unchanged, so a difference lets a client show the gateway one request and the
upstream another.

At the top level and in the messages a name occurs at most once (`strictObject_pick`), so every
reader finds what the gateway found. In the content parts it need not: the gateway takes the last
member named `text` in any case, while a reader takes one that is named so exactly.
-/

namespace ServerFlow.Api

open List Option AList Except
open Json (Reader occurrences)

variable {quote : String → String} {fields : GoMap String Json} {order : List String} {body : Body}
  {lim : Limits} {round64 : ℚ → Option ℚ} {ms : List (String × Json)}

/-! ### The view of a reader -/

structure View where
  model : String
  stream : Bool
  maxTokens : Option Int
  maxCompletionTokens : Option Int
  temperature : Option ℚ
  messages : List Message

def readString : Option Json → String
  | some (.str s) => s
  | _ => ""

def readBool : Option Json → Bool
  | some (.bool b) => b
  | _ => false

def readInt : Option Json → Option Int
  | some (.int n) => some n
  | _ => none

def readFloat (round64 : ℚ → Option ℚ) : Option Json → Option ℚ
  | some (.int n) => round64 n
  | some (.dec q) => round64 q
  | _ => none

/-- The text of a content part. -/
def readPart (r : Reader) (path : List Nat) : Json → String
  | .obj ms => readString (r.pick path ms "text")
  | _ => ""

/-- The texts that a reader obtains from the parts of message `i`. -/
def readParts (r : Reader) (i : Nat) (xs : List Json) : List String :=
  xs.mapIdx fun j x => readPart r [i, j] x

/-- The content string, or the texts of the content parts one after the other. -/
def readContent (r : Reader) (i : Nat) : Option Json → String
  | some (.str s) => s
  | some (.arr xs) => String.join (readParts r i xs)
  | _ => ""

def readMessage (r : Reader) (i : Nat) : Json → Message
  | .obj ms => ⟨readString (r.pick [i] ms "role"), readContent r i (r.pick [i] ms "content")⟩
  | _ => ⟨"", ""⟩

def readMessages (r : Reader) : Option Json → List Message
  | some (.arr raws) => raws.mapIdx fun i raw => readMessage r i raw
  | _ => []

/-- What the reader obtains from the members of a body. -/
def readView (r : Reader) (round64 : ℚ → Option ℚ) (ms : List (String × Json)) : View where
  model := readString (r.pick [] ms "model")
  stream := readBool (r.pick [] ms "stream")
  maxTokens := readInt (r.pick [] ms "max_tokens")
  maxCompletionTokens := readInt (r.pick [] ms "max_completion_tokens")
  temperature := readFloat round64 (r.pick [] ms "temperature")
  messages := readMessages r (r.pick [] ms "messages")

/-! ### Strict objects are read alike -/

theorem occurrences_cons (key : String) (v : Json) (ms : List (String × Json)) (name : String) :
    occurrences ((key, v) :: ms) name =
      if key = name then v :: occurrences ms name else occurrences ms name := by
  simp only [occurrences, filterMap_cons]
  split
  next hnone =>
    split at hnone
    · cases hnone
    next hkey => rw [if_neg hkey]
  next u hsome =>
    split at hsome
    next hkey =>
      obtain rfl := some.inj hsome
      rw [if_pos hkey]
    next => cases hsome

/-- A name that `collect` accepts occurs once and was not there, or it does not occur. -/
theorem collect_lookup {fields' : GoMap String Json} (h : collect quote fields ms = .ok fields')
    (name : String) :
    occurrences ms name = [] ∧ fields'.lookup name = fields.lookup name ∨
      ∃ v, occurrences ms name = [v] ∧ fields.lookup name = none ∧
        fields'.lookup name = some v := by
  induction ms generalizing fields with
  | nil =>
    obtain rfl := ok.inj h
    exact .inl ⟨rfl, rfl⟩
  | cons m ms ih =>
    obtain ⟨key, v⟩ := m
    simp only [collect] at h
    split at h
    · cases h
    next hfresh =>
      have hnone : fields.lookup key = none := by simpa using hfresh
      rw [occurrences_cons]
      rcases ih h with ⟨hocc, hlook⟩ | ⟨u, hocc, hold, hlook⟩
      · rw [lookup_insert_ite] at hlook
        by_cases hkey : key = name
        · subst hkey
          rw [if_pos rfl] at hlook
          exact .inr ⟨v, by rw [if_pos rfl, hocc], hnone, hlook⟩
        · rw [if_neg (Ne.symm hkey)] at hlook
          exact .inl ⟨by rw [if_neg hkey, hocc], hlook⟩
      · rw [lookup_insert_ite] at hold
        by_cases hkey : key = name
        · rw [if_pos hkey.symm] at hold
          cases hold
        · rw [if_neg (Ne.symm hkey)] at hold
          exact .inr ⟨u, by rw [if_neg hkey, hocc], hold, hlook⟩

/-- The members of a body. -/
def Body.members : Body → List (String × Json)
  | .object ms _ => ms
  | .other => []

theorem strictObject_collect {known : List String}
    (h : strictObject quote order known body = .ok fields) :
    collect quote ∅ body.members = .ok fields := by
  cases body with
  | other => cases h
  | object ms ending =>
    simp only [strictObject] at h
    split at h
    · cases h
    next fields' hcollect =>
      split at h
      · cases h
      · cases h
      · split at h
        · cases h
        · obtain rfl := ok.inj h
          exact hcollect

/-- Whatever occurrence a reader would keep, it finds what the gateway found. -/
theorem strictObject_pick {known : List String}
    (h : strictObject quote order known body = .ok fields) (r : Reader)
    (path : List Nat) (name : String) : r.pick path body.members name = fields.lookup name := by
  rcases collect_lookup (strictObject_collect h) name with ⟨hocc, hlook⟩ | ⟨v, hocc, -, hlook⟩
  · rw [r.pick_eq_none path hocc, hlook, lookup_empty]
  · rw [r.pick_eq_of_occurrences path hocc, hlook]

/-! ### Scalar fields are read alike -/

section Scalars

variable {j : Json} {round64 : ℚ → Option ℚ}

theorem readString_of_decode {s : String} (h : decodeString j = some s) :
    readString (some j) = s := by
  cases j <;> simp_all [decodeString, readString]

theorem readBool_of_decode {b : Bool} (h : decodeBool j = some b) : readBool (some j) = b := by
  cases j <;> simp_all [decodeBool, readBool]

theorem readInt_of_decode {n : Option Int} (h : decodeInt j = some n) : readInt (some j) = n := by
  cases j <;> simp_all [decodeInt, readInt]

theorem readFloat_of_decode {t : Option ℚ} (h : decodeFloat round64 j = some t) :
    readFloat round64 (some j) = t := by
  cases j with
  | int n =>
    obtain ⟨q, hq, rfl⟩ := map_eq_some_iff.mp h
    exact hq
  | dec q =>
    obtain ⟨q', hq, rfl⟩ := map_eq_some_iff.mp h
    exact hq
  | _ => simp_all [decodeFloat, readFloat]

/-- A field that the gateway decoded reads the same. -/
theorem decodeField_read {β : Type} {name : String} {zero v : β}
    {decode : Json → Option β} {read : Option Json → β} (hnone : read none = zero)
    (hsome : ∀ {j v}, decode j = some v → read (some j) = v)
    (h : decodeField fields name zero decode = .ok v) : read (fields.lookup name) = v := by
  simp only [decodeField] at h
  split at h
  next hlook =>
    obtain rfl := ok.inj h
    rw [hlook, hnone]
  next raw hlook =>
    split at h
    · cases h
    next u hdec =>
      obtain rfl := ok.inj h
      rw [hlook]
      exact hsome hdec

theorem tokenField_read {name : String} {v : Option Int}
    (h : tokenField lim fields name = .ok v) : readInt (fields.lookup name) = v := by
  simp only [tokenField] at h
  split at h
  · cases h
  next hdec =>
    obtain rfl := ok.inj h
    exact decodeField_read rfl readInt_of_decode hdec
  next n hdec =>
    split at h
    · cases h
    · obtain rfl := ok.inj h
      exact decodeField_read rfl readInt_of_decode hdec

theorem parseTemperature_read {v : Option ℚ} (h : parseTemperature round64 fields = .ok v) :
    readFloat round64 (fields.lookup "temperature") = v := by
  simp only [parseTemperature] at h
  split at h
  · cases h
  next hdec =>
    obtain rfl := ok.inj h
    exact decodeField_read rfl readFloat_of_decode hdec
  next n hdec =>
    split at h
    · cases h
    · obtain rfl := ok.inj h
      exact decodeField_read rfl readFloat_of_decode hdec

theorem parseModel_read {model : String}
    (h : parseModel lim fields = .ok model) : readString (fields.lookup "model") = model := by
  simp only [parseModel] at h
  split at h
  · cases h
  next raw hlook =>
    split at h
    · cases h
    next s hdec =>
      rw [hlook]
      split_ifs at h
      obtain rfl := ok.inj h
      exact readString_of_decode hdec

end Scalars

/-! ### Content parts -/

/-- The string in a member. -/
def stringOf : Json → Option String
  | .str s => some s
  | _ => none

/-- The strings of the members named `text` in any case. -/
def foldedTexts (ms : List (String × Json)) : List String :=
  ms.filterMap fun m => if foldsTo m.1 "text" then stringOf m.2 else none

/-- The last of them: what the gateway reads. -/
def lastText : Json → String
  | .obj ms => (foldedTexts ms).getLast?.getD ""
  | _ => ""

/-- The strings of the members named `text` exactly; a reader obtains one of them. -/
def exactTexts : Json → List String
  | .obj ms => (occurrences ms "text").map fun v => readString (some v)
  | _ => []

def exactText (x : Json) : String := (exactTexts x).headD ""

/-- The content parts are unambiguous: in each, the members named `text` exactly carry one string,
and joined these are what the gateway reads. -/
structure PartsAgree (xs : List Json) : Prop where
  single : ∀ x ∈ xs, ∀ a ∈ exactTexts x, ∀ b ∈ exactTexts x, a = b
  joined : String.join (xs.map exactText) = String.join (xs.map lastText)

theorem foldedTexts_cons (key : String) (v : Json) (ms : List (String × Json)) :
    foldedTexts ((key, v) :: ms) =
      if foldsTo key "text" then (stringOf v).toList ++ foldedTexts ms else foldedTexts ms := by
  simp only [foldedTexts, filterMap_cons]
  split
  next hnone =>
    split at hnone
    next hkey => rw [if_pos hkey, hnone]; rfl
    next hkey => rw [if_neg hkey]
  next s hsome =>
    split at hsome
    next hkey => rw [if_pos hkey, hsome]; rfl
    next => cases hsome

/-- Decoding a part leaves the last string named `text`, in any case. -/
theorem decodePart_text {p p' : Part} (h : decodePart p ms = some p') :
    p'.text = (foldedTexts ms).getLast?.getD p.text := by
  induction ms generalizing p with
  | nil =>
    obtain rfl := some.inj h
    rfl
  | cons m ms ih =>
    obtain ⟨key, v⟩ := m
    rw [foldedTexts_cons]
    simp only [decodePart] at h
    split at h
    next htype =>
      have htext : foldsTo key "text" = false := by
        simp only [foldsTo, decide_eq_true_eq] at htype
        simp [foldsTo, htype]
      obtain ⟨s, -, hrest⟩ := bind_eq_some_iff.mp h
      have hlast := ih hrest
      rw [htext]
      exact hlast
    next =>
      split at h
      next htext =>
        rw [if_pos htext]
        obtain ⟨s, hs, hrest⟩ := bind_eq_some_iff.mp h
        rw [ih hrest]
        -- the string assigned here is read if no later one is
        cases v with
        | str u =>
          obtain rfl := some.inj hs
          simp [stringOf, List.getLast?_cons]
        | null =>
          obtain rfl := some.inj hs
          simp [stringOf]
        | _ => cases hs
      next htext =>
        rw [if_neg htext]
        exact ih h

theorem partOf_text {x : Json} {p : Part} (h : partOf x = some p) : p.text = lastText x := by
  cases x with
  | obj ms => exact decodePart_text h
  | null =>
    obtain rfl := some.inj h
    rfl
  | _ => cases h

theorem mapM_partOf_text {xs : List Json} {parts : List Part} (h : xs.mapM partOf = some parts) :
    parts.map Part.text = xs.map lastText := by
  induction xs generalizing parts with
  | nil =>
    obtain rfl : [] = parts := by simpa using h
    rfl
  | cons x xs ih =>
    simp only [mapM_cons, bind_eq_bind, bind_eq_some_iff, Option.pure_def,
      some.injEq] at h
    obtain ⟨p, hp, ps, hps, rfl⟩ := h
    rw [map_cons, map_cons, partOf_text hp, ih hps]

/-- A reader obtains the string of an exact member, or nothing if there is none. -/
theorem readPart_mem (r : Reader) (path : List Nat) (x : Json) :
    exactTexts x = [] ∧ readPart r path x = "" ∨ readPart r path x ∈ exactTexts x := by
  cases x with
  | obj ms =>
    by_cases hocc : occurrences ms "text" = []
    · refine .inl ⟨by simp [exactTexts, hocc], ?_⟩
      simp only [readPart, r.pick_eq_none path hocc, readString]
    · obtain ⟨v, hv⟩ := isSome_iff_exists.mp (r.pick_isSome path ms "text" hocc)
      refine .inr (List.mem_map.mpr ⟨v, r.pick_mem path ms "text" v hv, ?_⟩)
      simp only [readPart, hv]
  | _ => exact .inl ⟨rfl, rfl⟩

/-- If the exact members of a part carry one string, every reader obtains it. -/
theorem readPart_eq_exactText {x : Json} (h : ∀ a ∈ exactTexts x, ∀ b ∈ exactTexts x, a = b)
    (r : Reader) (path : List Nat) : readPart r path x = exactText x := by
  rcases readPart_mem r path x with ⟨hnil, hread⟩ | hmem
  · rw [hread, exactText, hnil]
    rfl
  · cases hx : exactTexts x with
    | nil =>
      rw [hx] at hmem
      cases hmem
    | cons a rest =>
      rw [exactText, hx]
      exact h _ hmem _ (by rw [hx]; simp)

/-- For every exact member there is a reader that obtains its string. -/
theorem exists_readPart {x : Json} {a : String} (h : a ∈ exactTexts x) :
    ∃ r : Reader, ∀ path, readPart r path x = a := by
  cases x with
  | obj ms =>
    obtain ⟨v, hv, rfl⟩ := List.mem_map.mp h
    obtain ⟨i, hi⟩ := mem_iff_getElem?.mp hv
    exact ⟨.nth i, fun path => by simp only [readPart, Reader.nth_pick hi path]⟩
  | _ => cases h

/-! ### Messages -/

/-- Two ways of filling one place that join to the same string are the same. -/
theorem eq_of_join_eq {l₁ l₂ : List String} {a b : String}
    (h : String.join (l₁ ++ a :: l₂) = String.join (l₁ ++ b :: l₂)) : a = b := by
  have hl := congrArg String.toList h
  simp only [String.toList_join, flatMap_append, flatMap_cons] at hl
  have := append_cancel_right (append_cancel_left hl)
  exact String.toList_injective this

/-- What a reader obtains outside the part at `[i, j]` does not depend on what it does there. -/
theorem readParts_splice (base : Reader) (i : Nat) (pre post : List Json) (x : Json) :
    ∃ l₁ l₂ : List String, ∀ r : Reader,
      readParts (.splice [i, pre.length] r base) i (pre ++ x :: post) =
        l₁ ++ readPart r [i, pre.length] x :: l₂ := by
  have hother : ∀ (r : Reader) (j : Nat) (y : Json), j ≠ pre.length →
      readPart (.splice [i, pre.length] r base) [i, j] y = readPart base [i, j] y := by
    intro r j y hj
    have hne : [i, j] ≠ [i, pre.length] := by simpa using hj
    cases y with
    | obj ms => simp only [readPart, Reader.splice_of_ne hne]
    | _ => rfl
  refine ⟨pre.mapIdx fun j y => readPart base [i, j] y,
    post.mapIdx fun j y => readPart base [i, j + 1 + pre.length] y, fun r => ?_⟩
  simp only [readParts, mapIdx_append, mapIdx_cons]
  congr 1
  · refine mapIdx_eq_mapIdx_iff.mpr fun j hj => hother r j _ (Nat.ne_of_lt hj)
  · congr 1
    · rw [Nat.zero_add]
      cases x with
      | obj ms => simp only [readPart, Reader.splice_self]
      | _ => rfl
    · exact mapIdx_eq_mapIdx_iff.mpr fun j _ => hother r _ _ (by omega)

/-- All readers obtain the gateway's text exactly if the parts are unambiguous. -/
theorem readParts_iff (i : Nat) (xs : List Json) :
    (∀ r : Reader, String.join (readParts r i xs) = String.join (xs.map lastText)) ↔
      PartsAgree xs := by
  have hexact : (∀ x ∈ xs, ∀ a ∈ exactTexts x, ∀ b ∈ exactTexts x, a = b) → ∀ r : Reader,
      readParts r i xs = xs.map exactText := by
    intro hsingle r
    refine ext_getElem? fun j => ?_
    rw [readParts, List.getElem?_mapIdx, List.getElem?_map]
    cases hx : xs[j]? with
    | none => rfl
    | some x =>
      simp only [map_some, readPart_eq_exactText (hsingle x (mem_of_getElem? hx)) r]
  constructor
  · intro h
    have hsingle : ∀ x ∈ xs, ∀ a ∈ exactTexts x, ∀ b ∈ exactTexts x, a = b := by
      intro x hx a ha b hb
      obtain ⟨pre, post, rfl⟩ := append_of_mem hx
      obtain ⟨ra, hra⟩ := exists_readPart ha
      obtain ⟨rb, hrb⟩ := exists_readPart hb
      obtain ⟨l₁, l₂, hsplice⟩ := readParts_splice ra i pre post x
      -- two readers that differ in this part only
      have heq := (h (.splice [i, pre.length] ra ra)).trans (h (.splice [i, pre.length] rb ra)).symm
      rw [hsplice ra, hsplice rb, hra, hrb] at heq
      exact eq_of_join_eq heq
    refine ⟨hsingle, ?_⟩
    rw [← hexact hsingle (.nth 0)]
    exact h (.nth 0)
  · intro h r
    rw [hexact h.single r]
    exact h.joined

/-- The content parts of a message are unambiguous. -/
def MessageAgrees (raw : Json) : Prop :=
  ∀ ms xs, raw = .obj ms → .arr xs ∈ occurrences ms "content" → PartsAgree xs

/-- What the gateway makes of a content is what a reader does, if it is not an array. -/
theorem messageText_read {c : Json} {text : String} (h : messageText c = .ok text) :
    (∃ xs, c = .arr xs ∧ text = String.join (xs.map lastText)) ∨
      (∀ xs, c ≠ .arr xs) ∧ ∀ r i, readContent r i (some c) = text := by
  cases c with
  | arr xs =>
    refine .inl ⟨xs, rfl, ?_⟩
    simp only [messageText] at h
    split at h
    next parts hparts =>
      obtain rfl := ok.inj h
      rw [mapM_partOf_text hparts]
    next => cases h
  | str s =>
    obtain rfl := ok.inj h
    exact .inr ⟨nofun, fun _ _ => rfl⟩
  | null =>
    obtain rfl := ok.inj h
    exact .inr ⟨nofun, fun _ _ => rfl⟩
  | _ => cases h

/-- A message that the gateway parsed: a reader finds the same role, and the content `c` that the
gateway found. -/
theorem parseMessage_read {raw : Json} {m : Message} (h : parseMessage quote order raw = .ok m) :
    ∃ ms c, raw = .obj ms ∧ (∀ r : Reader, ∀ path, r.pick path ms "content" = c) ∧
      (∀ r i, readMessage r i raw = ⟨m.role, readContent r i c⟩) ∧
      ((∃ xs, c = some (.arr xs) ∧ m.content = String.join (xs.map lastText)) ∨
        (∀ xs, c ≠ some (.arr xs)) ∧ ∀ r i, readContent r i c = m.content) := by
  simp only [parseMessage] at h
  split at h
  · cases h
  next fields hstrict =>
    obtain ⟨ms, rfl⟩ : ∃ ms, raw = .obj ms := by
      cases raw with
      | obj ms => exact ⟨ms, rfl⟩
      | _ => cases hstrict
    have hpick : ∀ r : Reader, ∀ path name, r.pick path ms name = fields.lookup name :=
      fun r path name => strictObject_pick hstrict r path name
    have hrole : readString (fields.lookup "role") =
        ((fields.lookup "role").bind decodeString).getD "" := by
      cases fields.lookup "role" with
      | none => rfl
      | some j => cases j <;> rfl
    refine ⟨ms, fields.lookup "content", rfl, fun r path => hpick r path _, ?_⟩
    have hread : ∀ r i, readMessage r i (.obj ms) =
        ⟨((fields.lookup "role").bind decodeString).getD "",
            readContent r i (fields.lookup "content")⟩ := by
      intro r i
      simp only [readMessage, hpick, hrole]
    split_ifs at h with hvalid hpresent htools
    · -- no content, but tool calls
      obtain rfl := ok.inj h
      refine ⟨hread, .inr ⟨fun xs hxs => ?_, fun r i => ?_⟩⟩
      · rw [hxs] at hpresent
        cases hpresent
      · cases hc : fields.lookup "content" with
        | none => rfl
        | some j =>
          rw [hc] at hpresent
          cases j <;> first | rfl | cases hpresent
    · split at h
      · cases h
      next text htext =>
        obtain rfl := ok.inj h
        cases hc : fields.lookup "content" with
        | none =>
          rw [hc] at hpresent
          exact absurd rfl hpresent
        | some c =>
          rw [hc, getD_some] at htext
          rw [hc] at hread
          refine ⟨hread, (messageText_read htext).imp ?_
            fun ⟨hne, hsame⟩ => ⟨fun xs hxs => ?_, hsame⟩⟩
          · rintro ⟨xs, rfl, hjoin⟩
            exact ⟨xs, rfl, hjoin⟩
          · exact hne xs (some.inj hxs)

/-- All readers obtain the gateway's message exactly if its content parts are unambiguous. -/
theorem readMessage_iff {raw : Json} {m : Message} (h : parseMessage quote order raw = .ok m)
    (i : Nat) : (∀ r, readMessage r i raw = m) ↔ MessageAgrees raw := by
  obtain ⟨ms, c, rfl, hpick, hread, hc⟩ := parseMessage_read h
  have hcontent : (∀ r, readMessage r i (.obj ms) = m) ↔ ∀ r, readContent r i c = m.content := by
    refine forall_congr' fun r => ?_
    rw [hread r i]
    constructor
    · intro heq
      rw [← heq]
    · intro heq
      rw [heq]
  -- every occurrence of the content is the one that all readers find
  have hocc : ∀ v, v ∈ occurrences ms "content" → c = some v := by
    intro v hv
    obtain ⟨k, hk⟩ := mem_iff_getElem?.mp hv
    rw [← hpick (.nth k) [], Reader.nth_pick hk]
  rw [hcontent]
  rcases hc with ⟨xs, rfl, hjoin⟩ | ⟨hne, hsame⟩
  · have hmem : .arr xs ∈ occurrences ms "content" :=
      (Reader.nth 0).pick_mem _ _ _ _ (hpick (.nth 0) [])
    rw [hjoin]
    show (∀ r, String.join (readParts r i xs) = _) ↔ _
    rw [readParts_iff]
    constructor
    · rintro hagree ms' xs' hms hxs
      obtain rfl := Json.obj.inj hms
      obtain rfl := Json.arr.inj (some.inj (hocc _ hxs))
      exact hagree
    · exact fun hagree => hagree ms xs rfl hmem
  · refine ⟨fun _ ms' xs hms hxs => ?_, fun _ r => hsame r i⟩
    obtain rfl := Json.obj.inj hms
    exact absurd (hocc _ hxs) (hne xs)

theorem readMessages_iff {raws : List Json}
    {k : Nat} {msgs : List Message} (h : parseMessages quote order k raws = .ok msgs) :
    (∀ r, raws.mapIdx (fun i raw => readMessage r (k + i) raw) = msgs) ↔
      ∀ raw ∈ raws, MessageAgrees raw := by
  induction raws generalizing k msgs with
  | nil =>
    obtain rfl := ok.inj h
    simp
  | cons raw raws ih =>
    simp only [parseMessages] at h
    split at h
    · cases h
    next m hm =>
      split at h
      · cases h
      next ms hms =>
        obtain rfl := ok.inj h
        have hrest := ih hms
        simp only [mapIdx_cons, List.cons.injEq, forall_and, forall_mem_cons]
        rw [← readMessage_iff hm k, ← hrest]
        simp only [Nat.add_zero, Nat.add_assoc, Nat.add_comm 1]

/-! ### The request -/

theorem bind_eq_ok {ε β γ : Type} {x : Except ε β} {f : β → Except ε γ} {v : γ} :
    (x >>= f) = .ok v ↔ ∃ u, x = .ok u ∧ f u = .ok v := by
  cases x with
  | error e => exact ⟨nofun, fun ⟨_, h, _⟩ => (by cases h)⟩
  | ok u => exact ⟨fun h => ⟨u, rfl, h⟩, fun ⟨_, h, hf⟩ => (by cases h; exact hf)⟩

/-- What the gateway read of a request that it accepted. -/
structure Parsed (quote : String → String) (round64 : ℚ → Option ℚ) (order : List String)
    (lim : Limits) (body : Body) (req : InferenceRequest) (fields : GoMap String Json)
    (raws : List Json) (n m : Option Int) (t : Option ℚ) : Prop where
  strict : strictObject quote order requestFields body = .ok fields
  model : parseModel lim fields = .ok req.model
  array : fields.lookup "messages" = some (.arr raws)
  messages : parseMessages quote order 0 raws = .ok req.messages
  stream : decodeField fields "stream" false decodeBool = .ok req.stream
  maxTokens : tokenField lim fields "max_tokens" = .ok n
  maxCompletionTokens : tokenField lim fields "max_completion_tokens" = .ok m
  larger : req.maxTokens = max (max 0 (n.getD 0)) (m.getD 0)
  temperature : parseTemperature round64 fields = .ok t
  default : req.temperature = t.getD 0

theorem parsed_of_ok {req : InferenceRequest}
    (h : parseChatRequest quote round64 order lim body = .ok req) :
    ∃ fields raws n m t, Parsed quote round64 order lim body req fields raws n m t := by
  simp only [parseChatRequest, bind_eq_ok] at h
  obtain ⟨fields, hstrict, model, hmodel, raws, hraws, msgs, hmsgs, stream, hstream, n, hn, m, hm,
    t, ht, hreq⟩ := h
  obtain rfl := ok.inj hreq
  refine ⟨fields, raws, n, m, t, ?_, hmodel, ?_, hmsgs, hstream, hn, hm, rfl, ht, rfl⟩
  · cases hs : strictObject quote order requestFields body with
    | error e =>
      rw [hs] at hstrict
      cases hstrict
    | ok fields' =>
      rw [hs] at hstrict
      obtain rfl := ok.inj hstrict
      rfl
  · simp only [rawMessages] at hraws
    split at hraws
    next hlook =>
      obtain rfl := ok.inj hraws
      exact hlook
    next => cases hraws

/-- A reader obtains what the gateway's parsed request says. Of the two token fields, which the
gateway checks one by one, the request keeps the larger. -/
structure Agrees (quote : String → String) (order : List String) (lim : Limits) (body : Body)
    (req : InferenceRequest) (v : View) : Prop where
  model : v.model = req.model
  stream : v.stream = req.stream
  tokens : ∃ fields, strictObject quote order requestFields body = .ok fields ∧
    tokenField lim fields "max_tokens" = .ok v.maxTokens ∧
    tokenField lim fields "max_completion_tokens" = .ok v.maxCompletionTokens
  maxTokens : req.maxTokens = max (max 0 (v.maxTokens.getD 0)) (v.maxCompletionTokens.getD 0)
  temperature : v.temperature.getD 0 = req.temperature
  messages : v.messages = req.messages

/-- Every content part of every message is unambiguous. -/
def Body.PartsAgree (body : Body) : Prop :=
  ∀ raws, .arr raws ∈ occurrences body.members "messages" → ∀ raw ∈ raws, MessageAgrees raw

/-- Only the content parts of an accepted body can be read in two ways: all exact readers obtain
what the gateway read if and only if those are unambiguous. -/
theorem readers_agree_iff {quote : String → String} {order : List String}
    {lim : Limits} {body : Body} {req : InferenceRequest}
    (h : parseChatRequest quote round64 order lim body = .ok req) :
    (∀ r : Reader, Agrees quote order lim body req (readView r round64 body.members)) ↔
      body.PartsAgree := by
  obtain ⟨fields, raws, n, m, t, hp⟩ := parsed_of_ok h
  have hpick : ∀ r : Reader, ∀ name, r.pick [] body.members name = fields.lookup name :=
    fun r name => strictObject_pick hp.strict r [] name
  have hmessages : ∀ r : Reader, (readView r round64 body.members).messages =
      raws.mapIdx fun i raw => readMessage r (0 + i) raw := by
    intro r
    simp only [readView, hpick, hp.array, readMessages, Nat.zero_add]
  -- everything but the messages is read alike
  have hsame : (∀ r : Reader, Agrees quote order lim body req (readView r round64 body.members)) ↔
      ∀ r : Reader, (raws.mapIdx fun i raw => readMessage r (0 + i) raw) = req.messages := by
    refine forall_congr' fun r => ⟨fun ha => (hmessages r).symm.trans ha.messages, fun ha => ?_⟩
    have hn : (readView r round64 body.members).maxTokens = n := by
      simp only [readView, hpick]
      exact tokenField_read hp.maxTokens
    have hm : (readView r round64 body.members).maxCompletionTokens = m := by
      simp only [readView, hpick]
      exact tokenField_read hp.maxCompletionTokens
    have ht : (readView r round64 body.members).temperature = t := by
      simp only [readView, hpick]
      exact parseTemperature_read hp.temperature
    refine ⟨?_, ?_, ⟨fields, hp.strict, ?_, ?_⟩, ?_, ?_, (hmessages r).trans ha⟩
    · simp only [readView, hpick]
      exact parseModel_read hp.model
    · simp only [readView, hpick]
      exact decodeField_read rfl readBool_of_decode hp.stream
    · rw [hn]
      exact hp.maxTokens
    · rw [hm]
      exact hp.maxCompletionTokens
    · rw [hn, hm]
      exact hp.larger
    · rw [ht]
      exact hp.default.symm
  rw [hsame, readMessages_iff hp.messages]
  have hocc : occurrences body.members "messages" = [.arr raws] := by
    rcases collect_lookup (strictObject_collect hp.strict) "messages" with ⟨-, hlook⟩ |
      ⟨v, hocc, -, hlook⟩
    · rw [hp.array, lookup_empty] at hlook
      cases hlook
    · obtain rfl := some.inj (hp.array.symm.trans hlook)
      exact hocc
  constructor
  · intro hall raws' hraws'
    rw [hocc] at hraws'
    obtain rfl := Json.arr.inj (mem_singleton.mp hraws')
    exact hall
  · intro hall
    exact hall raws (by rw [hocc]; simp)

/-- The members of a content part that are named `text` in any case carry one string, and if it is
not empty one of them is named so exactly. -/
def OneText (part : List (String × Json)) : Prop :=
  ∃ s, (∀ m ∈ part, foldsTo m.1 "text" = true → m.2 = .str s) ∧ (s = "" ∨ ∃ m ∈ part, m.1 = "text")

/-- Every content part of every message carries one text. -/
def Body.OneText (body : Body) : Prop :=
  ∀ raws, .arr raws ∈ occurrences body.members "messages" → ∀ ms, .obj ms ∈ raws →
    ∀ xs, .arr xs ∈ occurrences ms "content" → ∀ part, .obj part ∈ xs → Api.OneText part

theorem first_last_eq {l : List String} {s : String} (h : ∀ a ∈ l, a = s) (hs : s = "" ∨ s ∈ l) :
    l.headD "" = s ∧ l.getLast?.getD "" = s := by
  cases l with
  | nil => simpa [eq_comm] using hs
  | cons a l =>
    have hlast := h _ (mem_of_getLast? getLast?_cons)
    exact ⟨h a mem_cons_self, by rw [getLast?_cons]; exact hlast⟩

/-- Readers and gateway obtain the one text of a part. -/
theorem OneText.texts {part : List (String × Json)} (h : OneText part) :
    ∃ s, (∀ a ∈ exactTexts (.obj part), a = s) ∧ exactText (.obj part) = s ∧
      lastText (.obj part) = s := by
  obtain ⟨s, hall, hne⟩ := h
  have hexact : ∀ a ∈ exactTexts (.obj part), a = s := by
    simp only [exactTexts, occurrences, List.mem_map, mem_filterMap]
    rintro a ⟨v, ⟨m, hm, hv⟩, rfl⟩
    split_ifs at hv with hname
    rw [← some.inj hv, hall m hm (by rw [hname]; decide)]
    rfl
  have hfolded : ∀ a ∈ foldedTexts part, a = s := by
    simp only [foldedTexts, mem_filterMap]
    rintro a ⟨m, hm, hv⟩
    split_ifs at hv with hname
    rw [hall m hm hname] at hv
    exact (some.inj hv).symm
  have hmem : s = "" ∨ s ∈ exactTexts (.obj part) ∧ s ∈ foldedTexts part := by
    refine hne.imp_right fun ⟨m, hm, hname⟩ => ?_
    have hfold : foldsTo m.1 "text" = true := by rw [hname]; decide
    have hstr := hall m hm hfold
    exact ⟨List.mem_map.mpr ⟨m.2, mem_filterMap.mpr ⟨m, hm, if_pos hname⟩, by rw [hstr]; rfl⟩,
      mem_filterMap.mpr ⟨m, hm, by rw [if_pos hfold, hstr]; rfl⟩⟩
  exact ⟨s, hexact, (first_last_eq hexact (hmem.imp_right And.left)).1,
    (first_last_eq hfolded (hmem.imp_right And.right)).2⟩

/-- **No differential where a part carries one text.** If the members of every content part that are
named `text` in any case carry the one string of those named so exactly, every exact reader of an
accepted body obtains what the gateway read. -/
theorem readers_agree {quote : String → String} {round64 : ℚ → Option ℚ} {order : List String}
    {lim : Limits} {body : Body} {req : InferenceRequest}
    (h : parseChatRequest quote round64 order lim body = .ok req) (hbody : body.OneText)
    (r : Reader) : Agrees quote order lim body req (readView r round64 body.members) := by
  refine (readers_agree_iff h).mpr (fun raws hraws raw hraw ms xs hms hxs => ?_) r
  subst hms
  have hpart : ∀ x ∈ xs, ∃ s, (∀ a ∈ exactTexts x, a = s) ∧ exactText x = s ∧ lastText x = s := by
    intro x hx
    cases x with
    | obj part => exact (hbody raws hraws ms hraw xs hxs part hx).texts
    | _ => exact ⟨"", nofun, rfl, rfl⟩
  refine ⟨fun x hx a ha b hb => ?_, congrArg String.join (map_congr_left fun x hx => ?_)⟩
  all_goals obtain ⟨s, hs, hexact, hlast⟩ := hpart x hx
  · rw [hs a ha, hs b hb]
  · rw [hexact, hlast]

/-- A request with one message, of content parts. -/
def partsBody (parts : List Json) : Body := .object [("model", .str "m"),
  ("messages", .arr [.obj [("role", .str "user"), ("content", .arr parts)]])] .closed

/-- Two content parts, each with one `text`: every exact reader obtains both. -/
theorem readers_agree_two_parts :
    let body := partsBody [.obj [("text", .str "a")], .obj [("text", .str "b")]]
    let req : InferenceRequest := ⟨"m", [⟨"user", "ab"⟩], false, 0, 0⟩
    parseChatRequest id some [] ⟨[], 100, true, none⟩ body = .ok req ∧
      ∀ r : Reader, Agrees id [] ⟨[], 100, true, none⟩ body req (readView r some body.members) := by
  intro body req
  have hok : parseChatRequest id some [] ⟨[], 100, true, none⟩ body = .ok req := by decide +kernel
  refine ⟨hok, readers_agree hok fun raws hraws ms hms xs hxs part hpart => ?_⟩
  obtain rfl := Json.arr.inj (mem_singleton.mp hraws)
  obtain rfl := Json.obj.inj (mem_singleton.mp hms)
  obtain rfl := Json.arr.inj (mem_singleton.mp hxs)
  obtain ⟨s, rfl⟩ : ∃ s, part = [("text", .str s)] := by
    rcases (by simpa using hpart : _ ∨ _) with rfl | rfl <;> exact ⟨_, rfl⟩
  exact ⟨s, by simp, .inr ⟨_, mem_singleton_self _, rfl⟩⟩

/-- A second member `TEXT` in a content part: the gateway reads it, and an exact reader does not. -/
theorem readers_disagree_text_case :
    let body := partsBody
      [.obj [("type", .str "text"), ("text", .str "hello"), ("TEXT", .str "evil")]]
    let req : InferenceRequest := ⟨"m", [⟨"user", "evil"⟩], false, 0, 0⟩
    parseChatRequest id some [] ⟨[], 100, true, none⟩ body = .ok req ∧
      (readView (.nth 0) some body.members).messages = [⟨"user", "hello"⟩] ∧
      ¬ Agrees id [] ⟨[], 100, true, none⟩ body req (readView (.nth 0) some body.members) := by
  intro body req
  have hread : (readView (.nth 0) some body.members).messages = [⟨"user", "hello"⟩] := by decide
  refine ⟨by decide +kernel, hread, fun ha => ?_⟩
  have hmessages := ha.messages
  rw [hread] at hmessages
  exact absurd hmessages (by decide)

end ServerFlow.Api
