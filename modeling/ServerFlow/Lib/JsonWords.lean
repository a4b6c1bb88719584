import ServerFlow.Lib.JsonSyntax
import ServerFlow.Lib.Occurs

/-!
# Where a quoted word occurs in a JSON text

A search for the bytes of a quoted word finds more than member names: a string that is the word, and
a string that ends in an escaped quote and the word. It finds nothing else, because every other
quote of the text is followed by a byte that no word starts with. `hits` lists what it finds in the
order of the text, and `rests_text` says that this is what the search finds.
-/

namespace JsonSyntax

open JsonText Occurs List

variable {b : UInt8}

/-- The bytes of a word, which no escape and no punctuation is part of. -/
def isWord (w : Bytes) : Bool :=
  !w.isEmpty && w.all fun b => !punct b && decide (b ≠ dquote ∧ b ≠ backslash)

def quoted (w : Bytes) : Bytes := dquote :: (w ++ [dquote])

/-- The text of the string, with its quotes, ends in the quoted word. -/
def keyed (w : Bytes) (ps : List Piece) : Bool := decide (dquote :: w <:+ dquote :: body ps)

/-- The text can follow a string. -/
def Follows (s : Bytes) : Prop := ∀ b, s.head? = some b → punct b = true

/-- The text can follow a value: after white space it is at its end, at a comma or at a closing
bracket. -/
def EndsValue (s : Bytes) : Prop :=
  ∀ b, (skipSpace s).head? = some b → b = comma ∨ b = closeBracket ∨ b = closeBrace

section Follow

variable {s ws : Bytes}

theorem follows_blank (hws : Syn.blank ws = true) (h : Follows s) : Follows (ws ++ s) := by
  cases ws with
  | nil => exact h
  | cons b ws =>
    intro c hc
    cases hc
    unfold Syn.blank at hws
    rw [all_cons, Bool.and_eq_true] at hws
    unfold punct
    rw [hws.1, Bool.true_or]

theorem follows_cons (h : punct b = true) (s : Bytes) : Follows (b :: s) := by
  intro c hc
  cases hc
  exact h

theorem skipSpace_blank (hws : Syn.blank ws = true) (s : Bytes) :
    skipSpace (ws ++ s) = skipSpace s := by
  unfold skipSpace
  unfold Syn.blank at hws
  rw [all_eq_true] at hws
  exact dropWhile_append_of_pos hws

theorem endsValue_blank (hws : Syn.blank ws = true) (h : EndsValue s) : EndsValue (ws ++ s) := by
  unfold EndsValue
  rw [skipSpace_blank hws]
  exact h

theorem endsValue_cons (h : b = comma ∨ b = closeBracket ∨ b = closeBrace) (s : Bytes) :
    EndsValue (b :: s) := by
  intro c hc
  have hspace : isSpace b = false := by rcases h with rfl | rfl | rfl <;> decide
  unfold skipSpace at hc
  rw [dropWhile_cons_of_neg (by rw [hspace]; decide)] at hc
  cases hc
  exact h

theorem EndsValue.follows (h : EndsValue s) : Follows s := by
  intro b hb
  unfold punct
  cases hspace : isSpace b with
  | true => rfl
  | false =>
    obtain ⟨t, rfl⟩ := List.head?_eq_some_iff.mp hb
    have hhead := h b (by unfold skipSpace; rw [dropWhile_cons_of_neg (by rw [hspace]; decide)]; rfl)
    rw [Bool.false_or, decide_eq_true_eq]
    exact .inr hhead

theorem endsValue_nil : EndsValue [] := by
  intro b hb
  cases hb

end Follow

/-! ### One string -/

section Word

variable {w : Bytes} {ps : List Piece} {s : Bytes}

theorem isWord_byte (hw : isWord w = true) (hb : b ∈ w) :
    punct b = false ∧ b ≠ dquote ∧ b ≠ backslash := by
  unfold isWord at hw
  rw [Bool.and_eq_true, all_eq_true] at hw
  have := hw.2 b hb
  rw [Bool.and_eq_true, decide_eq_true_eq, Bool.not_eq_true'] at this
  exact this

theorem isWord_cons (hw : isWord w = true) : ∃ b t, w = b :: t ∧ punct b = false := by
  cases w with
  | nil => cases hw
  | cons b t => exact ⟨b, t, rfl, (isWord_byte hw mem_cons_self).1⟩

/-- A quote that another byte than the word's first one follows does not start the word. -/
theorem not_quoted_before (hw : isWord w = true) (hs : Follows s) : ¬ quoted w <+: dquote :: s := by
  obtain ⟨b, t, rfl, hb⟩ := isWord_cons hw
  rintro ⟨u, hu⟩
  have hhead : s.head? = some b := by
    rw [← (cons.inj hu).2]
    rfl
  rw [hs b hhead] at hb
  cases hb

theorem rests_skip {x : Bytes} (hx : ∀ b ∈ x, b ≠ dquote) (s : Bytes) :
    rests (quoted w) (x ++ s) = rests (quoted w) s := by
  induction x with
  | nil => rfl
  | cons b x ih =>
    have hb : ¬ quoted w <+: b :: (x ++ s) := by
      rintro ⟨u, hu⟩
      exact hx b mem_cons_self (cons.inj hu).1.symm
    rw [cons_append, rests_cons_of_not hb]
    exact ih fun c hc => hx c (mem_cons_of_mem _ hc)

theorem rests_quote (hw : isWord w = true) (hs : Follows s) :
    rests (quoted w) (dquote :: s) = rests (quoted w) s :=
  rests_cons_of_not (not_quoted_before hw hs)

theorem body_cons (p : Piece) (ps : List Piece) : body (p :: ps) = p.text ++ body ps := rfl

/-- From a place in a string on, the word and the closing quote are there only if the rest of the
string is the word. -/
theorem word_prefix_iff {v : Bytes} (hv : ∀ b ∈ v, b ≠ dquote ∧ b ≠ backslash)
    (hps : ps.all Piece.ok = true) : v ++ [dquote] <+: body ps ++ dquote :: s ↔ body ps = v := by
  induction ps generalizing v with
  | nil =>
    cases v with
    | nil => exact iff_of_true ⟨s, rfl⟩ rfl
    | cons b v =>
      refine iff_of_false ?_ nofun
      rintro ⟨u, hu⟩
      exact (hv b mem_cons_self).1 (cons.inj hu).1
  | cons p ps ih =>
    rw [all_cons, Bool.and_eq_true] at hps
    -- an escape starts with a backslash, which the word does not have
    have hescape : ∀ x, body (p :: ps) = backslash :: x →
        (v ++ [dquote] <+: body (p :: ps) ++ dquote :: s ↔ body (p :: ps) = v) := by
      intro x hx
      rw [hx]
      cases v with
      | nil =>
        refine iff_of_false ?_ nofun
        rintro ⟨u, hu⟩
        cases (cons.inj hu).1
      | cons b v =>
        have hb := (hv b mem_cons_self).2
        refine iff_of_false ?_ (fun h => hb (cons.inj h).1.symm)
        rintro ⟨u, hu⟩
        exact hb (cons.inj hu).1
    cases p with
    | plain c =>
      have hc := of_decide_eq_true hps.1
      show _ <+: c :: (body ps ++ dquote :: s) ↔ c :: body ps = v
      cases v with
      | nil =>
        refine iff_of_false ?_ nofun
        rintro ⟨u, hu⟩
        exact hc.2.1 (cons.inj hu).1.symm
      | cons b v =>
        rw [cons_append, cons_prefix_cons,
          ih (fun d hd => hv d (mem_cons_of_mem _ hd)) hps.2, cons.injEq, @eq_comm _ b c]
    | esc c => exact hescape _ rfl
    | uni a b c d => exact hescape _ rfl

/-- Hexadecimal digits and the characters of the short escapes other than the quote are no
quotes. -/
theorem piece_tail {p : Piece} (hp : p.ok = true) :
    (∃ c, p = .plain c ∧ c ≠ dquote) ∨ p = .esc dquote ∨ (∀ b ∈ p.text, b ≠ dquote) ∧
      ∃ x, p.text = backslash :: x := by
  cases p with
  | plain c => exact .inl ⟨c, rfl, (of_decide_eq_true hp).2.1⟩
  | esc c =>
    by_cases hc : c = dquote
    · exact .inr (.inl (by rw [hc]))
    · refine .inr (.inr ⟨?_, [c], rfl⟩)
      intro b hb
      rcases mem_cons.mp hb with rfl | hb
      · decide
      · rw [mem_singleton.mp hb]
        exact hc
  | uni a b c d =>
    refine .inr (.inr ⟨?_, _, rfl⟩)
    have hhex : ∀ h ∈ [a, b, c, d], h ≠ dquote := by
      intro h hmem heq
      have := all_eq_true.mp hp h hmem
      rw [heq] at this
      exact absurd this (by decide)
    intro x hx
    rcases mem_cons.mp hx with rfl | hx
    · decide
    · rcases mem_cons.mp hx with rfl | hx
      · decide
      · exact hhex x hx

theorem suffix_skip {x y : Bytes} (hx : ∀ b ∈ x, b ≠ dquote) :
    dquote :: w <:+ x ++ y ↔ dquote :: w <:+ y := by
  induction x with
  | nil => rfl
  | cons b x ih =>
    rw [cons_append, suffix_cons_iff, ih fun c hc => hx c (mem_cons_of_mem _ hc)]
    refine or_iff_right ?_
    intro h
    exact hx b mem_cons_self (cons.inj h).1.symm

/-- At a quote from which on the rest of a string follows, the word starts if that rest is the
word. -/
theorem rests_open (hw : isWord w = true) (hps : ps.all Piece.ok = true)
    (hrest : rests (quoted w) (body ps ++ dquote :: s) =
      (if dquote :: w <:+ body ps then [s] else []) ++ rests (quoted w) s) :
    rests (quoted w) (dquote :: (body ps ++ dquote :: s)) =
      (if keyed w ps then [s] else []) ++ rests (quoted w) s := by
  have hstart : quoted w <+: dquote :: (body ps ++ dquote :: s) ↔ body ps = w := by
    unfold quoted
    rw [cons_prefix_cons, and_iff_right rfl]
    exact word_prefix_iff (fun b hb => (isWord_byte hw hb).2) hps
  have hkeyed : keyed w ps = true ↔ w = body ps ∨ dquote :: w <:+ body ps := by
    unfold keyed
    rw [decide_eq_true_eq, suffix_cons_iff, cons.injEq, and_iff_right rfl]
  rw [rests, hrest, if_congr hstart rfl rfl, if_congr hkeyed rfl rfl]
  by_cases hbody : body ps = w
  · have hnot : ¬ dquote :: w <:+ body ps := by
      intro h
      have := h.length_le
      rw [hbody, length_cons] at this
      omega
    have hdrop : (dquote :: (body ps ++ dquote :: s)).drop (quoted w).length = s := by
      rw [hbody]
      unfold quoted
      rw [length_cons, drop_succ_cons, append_cons w dquote s, drop_left]
    rw [if_pos hbody, if_neg hnot, if_pos (.inl hbody.symm), hdrop]
    rfl
  · rw [if_neg hbody, nil_append]
    refine congrArg (· ++ _) (if_congr ?_ rfl rfl)
    exact (or_iff_right fun h => hbody h.symm).symm

theorem rests_body (hw : isWord w = true) (hps : ps.all Piece.ok = true) (hs : Follows s) :
    rests (quoted w) (body ps ++ dquote :: s) =
      (if dquote :: w <:+ body ps then [s] else []) ++ rests (quoted w) s := by
  induction ps with
  | nil =>
    have hnot : ¬ dquote :: w <:+ body [] := by
      intro h
      cases suffix_nil.mp h
    rw [if_neg hnot]
    exact rests_quote hw hs
  | cons p ps ih =>
    rw [all_cons, Bool.and_eq_true] at hps
    have hrest := ih hps.2
    have hskip : (∀ b ∈ p.text, b ≠ dquote) →
        rests (quoted w) (body (p :: ps) ++ dquote :: s) =
          (if dquote :: w <:+ body (p :: ps) then [s] else []) ++ rests (quoted w) s := by
      intro hp
      rw [body_cons, append_assoc, rests_skip hp, hrest, if_congr (suffix_skip hp) rfl rfl]
    rcases piece_tail hps.1 with ⟨c, rfl, hc⟩ | rfl | ⟨hp, -⟩
    · refine hskip fun b hb => ?_
      rw [mem_singleton.mp hb]
      exact hc
    · -- an escaped quote: the word can start here
      have hback : ∀ b ∈ [backslash], b ≠ dquote := by
        intro b hb
        rw [mem_singleton.mp hb]
        decide
      have hsuffix : dquote :: w <:+ body (.esc dquote :: ps) ↔ keyed w ps = true := by
        show dquote :: w <:+ [backslash] ++ (dquote :: body ps) ↔ _
        rw [suffix_skip hback]
        unfold keyed
        rw [decide_eq_true_eq]
      have htext : body (.esc dquote :: ps) ++ dquote :: s =
          [backslash] ++ dquote :: (body ps ++ dquote :: s) := rfl
      rw [htext, rests_skip hback, rests_open hw hps.2 hrest, if_congr hsuffix rfl rfl]
    · exact hskip hp

/-- A string is found if it ends in the quoted word. -/
theorem rests_string (hw : isWord w = true) (hps : ps.all Piece.ok = true) (hs : Follows s) :
    rests (quoted w) (dquote :: (body ps ++ dquote :: s)) =
      (if keyed w ps then [s] else []) ++ rests (quoted w) s :=
  rests_open hw hps (rests_body hw hps hs)

end Word

/-! ### A whole text -/

/-- A place where the quoted word is found: what follows it, and the value if it is the name of a
member. -/
structure Hit where
  rest : Bytes
  value : Option (Syn .value)

/-- The places where the word is found, `s` being what follows the tree's text. -/
def hits (w : Bytes) : {k : Kind} → Syn k → Bytes → List Hit
  | _, .str ps, s => if keyed w ps then [⟨s, none⟩] else []
  | _, .arr es, s => hits w es (closeBracket :: s)
  | _, .obj ms, s => hits w ms (closeBrace :: s)
  | _, .lastItem _ v post, s => hits w v (post ++ s)
  | _, .item _ v post rest, s => hits w v (post ++ comma :: (rest.text ++ s)) ++ hits w rest s
  | _, .lastField _ name mid lead v post, s =>
    (if keyed w name then [⟨mid ++ colon :: (lead ++ (v.text ++ (post ++ s))), some v⟩] else []) ++
      hits w v (post ++ s)
  | _, .field _ name mid lead v post rest, s =>
    (if keyed w name then
        [⟨mid ++ colon :: (lead ++ (v.text ++ (post ++ comma :: (rest.text ++ s)))), some v⟩]
      else []) ++
      (hits w v (post ++ comma :: (rest.text ++ s)) ++ hits w rest s)
  | _, _, _ => []

section Hits

variable {w : Bytes} {k : Kind}

theorem blank_ne_dquote {ws : Bytes} (h : Syn.blank ws = true) : ∀ b ∈ ws, b ≠ dquote := by
  intro b hb
  unfold Syn.blank at h
  rw [all_eq_true] at h
  exact (of_decide_eq_true (isSpace_neutral (h b hb))).1

theorem rests_skip_one (hb : b ≠ dquote) (s : Bytes) :
    rests (quoted w) (b :: s) = rests (quoted w) s :=
  rests_skip (x := [b]) (fun c hc => by rw [mem_singleton.mp hc]; exact hb) s

/-- What precedes a member's value in its text. -/
theorem rests_name {pre mid lead : Bytes} {name : List Piece} (hw : isWord w = true)
    (hpre : Syn.blank pre = true) (hname : name.all Piece.ok = true) (hmid : Syn.blank mid = true)
    (hlead : Syn.blank lead = true) (s : Bytes) :
    rests (quoted w) (pre ++ dquote :: (body name ++ dquote :: (mid ++ colon :: (lead ++ s)))) =
      (if keyed w name then [mid ++ colon :: (lead ++ s)] else []) ++ rests (quoted w) s := by
  have hfollow : Follows (mid ++ colon :: (lead ++ s)) :=
    follows_blank hmid (follows_cons (by decide) _)
  rw [rests_skip (blank_ne_dquote hpre), rests_string hw hname hfollow,
    rests_skip (blank_ne_dquote hmid),
    rests_skip_one (by decide), rests_skip (blank_ne_dquote hlead)]

variable {d : Syn k} {s : Bytes}

/-- **The search finds the hits** in the text of a tree, and goes on with what follows it. -/
theorem rests_text (hw : isWord w = true) (hd : d.wf = true) (hs : EndsValue s) :
    rests (quoted w) (d.text ++ s) = (hits w d s).map Hit.rest ++ rests (quoted w) s := by
  induction d generalizing s <;> simp only [Syn.text, cons_append, append_assoc, nil_append] <;>
    simp only [Syn.wf, Bool.and_eq_true] at hd
  case word t =>
    refine rests_skip ?_ s
    simp only [decide_eq_true_eq, mem_cons, not_mem_nil, or_false] at hd
    rcases hd with rfl | rfl | rfl <;> exact fun b hb => (of_decide_eq_true (all_eq_true.mp
      (show List.all _ neutral = true by decide) b hb)).1
  case num n =>
    exact rests_skip (fun b hb => (of_decide_eq_true (Numeral.text_neutral hd b hb)).1) s
  case str ps =>
    rw [rests_string hw hd hs.follows, hits]
    split <;> rfl
  case emptyArr ws =>
    rw [rests_skip_one (by decide), rests_skip (blank_ne_dquote hd), rests_skip_one (by decide)]
    rfl
  case arr es ih =>
    rw [rests_skip_one (by decide), ih hd (endsValue_cons (by decide) s),
      rests_skip_one (by decide)]
    rfl
  case emptyObj ws =>
    rw [rests_skip_one (by decide), rests_skip (blank_ne_dquote hd), rests_skip_one (by decide)]
    rfl
  case obj ms ih =>
    rw [rests_skip_one (by decide), ih hd (endsValue_cons (by decide) s),
      rests_skip_one (by decide)]
    rfl
  case lastItem pre v post ih =>
    obtain ⟨⟨hpre, hv⟩, hpost⟩ := hd
    rw [rests_skip (blank_ne_dquote hpre), ih hv (endsValue_blank hpost hs),
      rests_skip (blank_ne_dquote hpost)]
    rfl
  case item pre v post rest ih ihrest =>
    obtain ⟨⟨⟨hpre, hv⟩, hpost⟩, hrest⟩ := hd
    rw [rests_skip (blank_ne_dquote hpre),
      ih hv (endsValue_blank hpost (endsValue_cons (by decide) _)),
      rests_skip (blank_ne_dquote hpost), rests_skip_one (by decide), ihrest hrest hs, hits,
        map_append,
      append_assoc]
  case lastField pre name mid lead v post ih =>
    obtain ⟨⟨⟨⟨⟨hpre, hname⟩, hmid⟩, hlead⟩, hv⟩, hpost⟩ := hd
    rw [rests_name hw hpre hname hmid hlead, ih hv (endsValue_blank hpost hs),
      rests_skip (blank_ne_dquote hpost), hits, map_append, append_assoc]
    congr 1
    split <;> rfl
  case field pre name mid lead v post rest ih ihrest =>
    obtain ⟨⟨⟨⟨⟨⟨hpre, hname⟩, hmid⟩, hlead⟩, hv⟩, hpost⟩, hrest⟩ := hd
    rw [rests_name hw hpre hname hmid hlead,
      ih hv (endsValue_blank hpost (endsValue_cons (by decide) _)),
      rests_skip (blank_ne_dquote hpost), rests_skip_one (by decide), ihrest hrest hs, hits,
        map_append,
      map_append, append_assoc, append_assoc]
    congr 1
    split <;> rfl

/-- What is known of a hit: a string that is a value ends there, and after a name comes the member's
value, which a comma or a closing brace ends. -/
def Hit.Sound (h : Hit) : Prop :=
  match h.value with
  | none => EndsValue h.rest
  | some v => v.wf = true ∧ ∃ mid lead post c t, Syn.blank mid = true ∧ Syn.blank lead = true ∧
      Syn.blank post = true ∧ (c = comma ∨ c = closeBrace) ∧
      h.rest = mid ++ colon :: (lead ++ (v.text ++ (post ++ c :: t)))

/-- What follows the text of a tree: the members of an object end in its brace. -/
def Ended : Kind → Bytes → Prop
  | .fields, s => ∃ t, s = closeBrace :: t
  | _, s => EndsValue s

theorem hits_sound (hd : d.wf = true) (hs : Ended k s) : ∀ h ∈ hits w d s, h.Sound := by
  induction d generalizing s <;> simp only [Syn.wf, Bool.and_eq_true] at hd <;> intro h hh <;>
    simp only [hits, mem_append, mem_ite_nil_right, mem_singleton, not_mem_nil] at hh
  case str ps =>
    obtain ⟨-, rfl⟩ := hh
    exact hs
  case arr es ih => exact ih hd (endsValue_cons (by decide) s) h hh
  case obj ms ih => exact ih hd ⟨s, rfl⟩ h hh
  case lastItem pre v post ih => exact ih hd.1.2 (endsValue_blank hd.2 hs) h hh
  case item pre v post rest ih ihrest =>
    rcases hh with hh | hh
    · exact ih hd.1.1.2 (endsValue_blank hd.1.2 (endsValue_cons (by decide) _)) h hh
    · exact ihrest hd.2 hs h hh
  case lastField pre name mid lead v post ih =>
    obtain ⟨t, rfl⟩ := hs
    rcases hh with ⟨-, rfl⟩ | hh
    · exact ⟨hd.1.2, mid, lead, post, closeBrace, t, hd.1.1.1.2, hd.1.1.2, hd.2, .inr rfl, rfl⟩
    · exact ih hd.1.2 (endsValue_blank hd.2 (endsValue_cons (by decide) t)) h hh
  case field pre name mid lead v post rest ih ihrest =>
    rcases hh with ⟨-, rfl⟩ | hh | hh
    · exact ⟨hd.1.1.2, mid, lead, post, comma, _, hd.1.1.1.1.2, hd.1.1.1.2, hd.1.2, .inl rfl, rfl⟩
    · exact ih hd.1.1.2 (endsValue_blank hd.1.2 (endsValue_cons (by decide) _)) h hh
    · exact ihrest hd.2 hs h hh

theorem Hit.Sound.follows {h : Hit} (hh : h.Sound) : Follows h.rest := by
  obtain ⟨rest, value⟩ := h
  cases value with
  | none => exact EndsValue.follows hh
  | some v =>
    obtain ⟨-, mid, lead, post, c, t, hmid, -, -, -, hrest⟩ := hh
    have heq : rest = mid ++ colon :: (lead ++ (v.text ++ (post ++ c :: t))) := hrest
    show Follows rest
    rw [heq]
    exact follows_blank hmid (follows_cons (by decide) _)

/-- After the first occurrence, the search goes on with what follows it. -/
theorem rests_next (hw : isWord w = true) (hall : ∀ r ∈ rests (quoted w) s, Follows r) {i : Nat}
    (hindex : index (quoted w) s = some i) :
    rests (quoted w) s = s.drop (i + (quoted w).length) :: rests (quoted w)
      (s.drop (i + (quoted w).length)) := by
  have hlist := rests_of_index hindex
  have hfollow : Follows (s.drop (i + (quoted w).length)) := by
    refine hall _ ?_
    rw [hlist]
    exact mem_cons_self
  obtain ⟨⟨r, hr⟩, -⟩ := index_some hindex
  have hdrop : s.drop (i + (quoted w).length) = r := by
    rw [← drop_drop, ← hr, drop_left]
  have hone : s.drop (i + 1) = w ++ dquote :: r := by
    rw [← drop_drop, ← hr, append_cons w dquote r]
    rfl
  rw [hdrop] at hfollow hlist ⊢
  rw [hlist, hone, rests_skip (fun b hb => (isWord_byte hw hb).2.1), rests_quote hw hfollow]

/-- A name without escapes ends in the quoted word only if it is the word. -/
theorem keyed_plain {name : List Piece} (hok : name.all Piece.ok = true)
    (hplain : name.all Piece.isPlain = true) : keyed w name = decide (body name = w) := by
  have hbytes : ∀ b ∈ body name, b ≠ dquote := by
    intro b hb
    obtain ⟨p, hp, hbp⟩ := mem_flatMap.mp hb
    have hp' := all_eq_true.mp hplain p hp
    have hok' := all_eq_true.mp hok p hp
    cases p with
    | plain c =>
      rw [mem_singleton.mp hbp]
      exact (of_decide_eq_true hok').2.1
    | esc c => cases hp'
    | uni a b c d => cases hp'
  unfold keyed
  rw [decide_eq_decide, suffix_cons_iff, cons.injEq, and_iff_right rfl]
  constructor
  · rintro (heq | hsuf)
    · exact heq.symm
    · exact absurd rfl (hbytes dquote (hsuf.subset mem_cons_self))
  · intro heq
    exact .inl heq.symm

/-- The hits that are names are the members with the name. -/
theorem hits_members (hd : d.wf = true) (hplain : d.plainNames = true) (s : Bytes) :
    (hits w d s).filterMap Hit.value = d.membersNamed w := by
  induction d generalizing s <;> simp only [Syn.wf, Syn.plainNames, Bool.and_eq_true] at hd hplain <;>
    simp only [hits, Syn.membersNamed, filterMap_append, filterMap_nil]
  case str ps => split <;> rfl
  case arr es ih => exact ih hd hplain _
  case obj ms ih => exact ih hd hplain _
  case lastItem pre v post ih => exact ih hd.1.2 hplain _
  case item pre v post rest ih ihrest => rw [ih hd.1.1.2 hplain.1, ihrest hd.2 hplain.2]
  case lastField pre name mid lead v post ih =>
    rw [ih hd.1.2 hplain.2, keyed_plain hd.1.1.1.1.2 hplain.1]
    simp only [decide_eq_true_eq]
    congr 1
    split <;> rfl
  case field pre name mid lead v post rest ih ihrest =>
    rw [ih hd.1.1.2 hplain.1.2, ihrest hd.2 hplain.2, keyed_plain hd.1.1.1.1.1.2 hplain.1.1]
    simp only [decide_eq_true_eq]
    congr 1
    split <;> rfl

/-- The other hits are the strings that end in the quoted word. -/
theorem hits_strings (d : Syn k) (s : Bytes) :
    (hits w d s).countP (fun h => h.value.isNone) = d.strings.countP (keyed w) := by
  induction d generalizing s <;> simp only [hits, Syn.strings, countP_append, countP_nil]
  case str ps => cases hkeyed : keyed w ps <;> simp [hkeyed]
  case arr es ih => exact ih _
  case obj ms ih => exact ih _
  case lastItem pre v post ih => exact ih _
  case item pre v post rest ih ihrest => rw [ih, ihrest]
  case lastField pre name mid lead v post ih =>
    rw [ih]
    split <;> simp
  case field pre name mid lead v post rest ih ihrest =>
    rw [ih, ihrest]
    split <;> simp

end Hits

end JsonSyntax
