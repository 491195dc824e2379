import SchemaHistory.Proofs.CommaDropping
import SchemaHistory.Proofs.JsonReading

namespace SchemaHistory.Json

open Token (Spells isSpace)

namespace Token

def closes : Token → Bool
  | closeArray | closeObject => true
  | _ => false

/-- An item or a member of a container can end with the token. -/
def endsItem : Token → Bool
  | openArray | openObject | comma | colon => false
  | _ => true

/-- A token without the text of a string. -/
def hollow : Token → Token
  | string _ => string ""
  | t => t

end Token

def Frame.hollow : Frame → Frame
  | array _ => array []
  | object _ _ => object [] ""

namespace Reader

/-- What a reader expects next, without what it has read. -/
def hollow : Reader → Reader
  | value frames => value (frames.map Frame.hollow)
  | itemOrEnd frames => itemOrEnd (frames.map Frame.hollow)
  | afterItem frames _ => afterItem (frames.map Frame.hollow) []
  | nameOrEnd frames => nameOrEnd (frames.map Frame.hollow)
  | name frames _ => name (frames.map Frame.hollow) []
  | colon frames _ _ => colon (frames.map Frame.hollow) [] ""
  | afterMember frames _ => afterMember (frames.map Frame.hollow) []
  | finished _ => finished null

theorem hollow_frames (frames : List Frame) :
    (frames.map Frame.hollow).map Frame.hollow = frames.map Frame.hollow := by
  rw [List.map_map]
  refine List.map_congr_left fun f _ => ?_
  cases f <;> rfl

theorem complete_hollow (v w : Json) (frames : List Frame) :
    (complete v frames).hollow = (complete w (frames.map Frame.hollow)).hollow := by
  cases frames with
  | nil => rfl
  | cons f frames =>
    cases f with
    | array items => exact congrArg (afterItem · []) (hollow_frames frames).symm
    | object members n => exact congrArg (afterMember · []) (hollow_frames frames).symm

theorem start_hollow (frames : List Frame) (t : Token) :
    (start frames t).map hollow = (start (frames.map Frame.hollow) t.hollow).map hollow := by
  have hframes := (hollow_frames frames).symm
  cases t with
  | openArray => exact congrArg (some ∘ itemOrEnd) hframes
  | openObject => exact congrArg (some ∘ nameOrEnd) hframes
  | null | bool | number | string => exact congrArg some (complete_hollow _ _ frames)
  | _ => rfl

theorem step_hollow (r : Reader) (t : Token) :
    (r.step t).map hollow = (r.hollow.step t.hollow).map hollow := by
  have hvalue (f : Frame) (frames : List Frame) : (value (f :: frames)).hollow
      = (value (f.hollow :: frames.map Frame.hollow)).hollow :=
    congrArg value (hollow_frames (f :: frames)).symm
  cases r with
  | value frames => exact start_hollow frames t
  | itemOrEnd frames =>
    by_cases ht : t = .closeArray
    · rw [ht]
      exact congrArg some (complete_hollow _ _ frames)
    · have hh : t.hollow ≠ .closeArray := by
        cases t <;> simp_all [Token.hollow]
      rw [ready_item frames t ht, hollow, ready_item _ _ hh]
      exact start_hollow (.array [] :: frames) t
  | afterItem frames items =>
    cases t with
    | comma => exact congrArg some (hvalue _ frames)
    | closeArray => exact congrArg some (complete_hollow _ _ frames)
    | _ => rfl
  | nameOrEnd frames =>
    cases t with
    | closeObject => exact congrArg some (complete_hollow _ _ frames)
    | string n => exact congrArg (fun fs => some (colon fs [] "")) (hollow_frames frames).symm
    | _ => rfl
  | name frames members =>
    cases t with
    | string n => exact congrArg (fun fs => some (colon fs [] "")) (hollow_frames frames).symm
    | _ => rfl
  | colon frames members n =>
    cases t with
    | colon => exact congrArg some (hvalue _ frames)
    | _ => rfl
  | afterMember frames members =>
    cases t with
    | comma => exact congrArg (fun fs => some (name fs [])) (hollow_frames frames).symm
    | closeObject => exact congrArg some (complete_hollow _ _ frames)
    | _ => rfl
  | finished v => rfl

theorem run_cons (r : Reader) (t : Token) (ts : List Token) :
    r.run (t :: ts) = (r.step t).bind fun r' => r'.run ts := by
  cases hs : r.step t with
  | none => cases r <;> simp only [run, hs, Option.bind_none]
  | some r' => exact run_step hs ts

/-- Whether tokens are read as a value does not depend on the texts of strings. -/
theorem run_alike {r r' : Reader} {ts ts' : List Token} (hr : r.hollow = r'.hollow)
    (ht : ts.map Token.hollow = ts'.map Token.hollow) :
    (r.run ts).isSome = (r'.run ts').isSome := by
  induction ts generalizing r r' ts' with
  | nil =>
    have hend (r : Reader) : (r.run []).isSome = (r.hollow.run []).isSome := by
      cases r <;> rfl
    rw [List.map_eq_nil_iff.mp ht.symm, hend r, hend r', hr]
  | cons t ts ih =>
    obtain ⟨t', ts', rfl, hhead, htail⟩ := List.map_eq_cons_iff.mp ht.symm
    have hstep : (r.step t).map hollow = (r'.step t').map hollow := by
      rw [step_hollow, step_hollow r', hr, hhead]
    rw [run_cons, run_cons]
    cases hs : r.step t with
    | none =>
      rw [hs, Option.map_none, eq_comm, Option.map_eq_none_iff] at hstep
      rw [hstep]
      rfl
    | some q =>
      rw [hs, Option.map_some, eq_comm, Option.map_eq_some_iff] at hstep
      obtain ⟨q', hs', hq⟩ := hstep
      rw [hs']
      exact ih hq.symm htail.symm

/-- A comma before a closing bracket is not read. -/
theorem run_trailing {t : Token} (ht : t.closes = true) (r : Reader) (ts : List Token) :
    r.run (.comma :: t :: ts) = none := by
  rw [run_cons]
  cases r <;> first | rfl | (cases t <;> first | rfl | contradiction)

end Reader

def commaLexeme : Lexeme :=
  ⟨[','], .comma, .fixed (by simp [Token.fixedTexts])⟩

theorem ends_closing {t : Token} (h : t.closes = true) {cs : List Char} : t.EndsBefore cs := by
  cases t <;> trivial

/-- Tokens without the commas before closing brackets. -/
def dropCommas : List Lexeme → List Lexeme
  | [] => []
  | l :: ls =>
    if l.token = .comma ∧ (ls.head?.any fun l' => l'.token.closes) then dropCommas ls
    else l :: dropCommas ls

theorem drop_commas_other {l : Lexeme} (h : l.token ≠ .comma) (ls : List Lexeme) :
    dropCommas (l :: ls) = l :: dropCommas ls :=
  if_neg fun hl => h hl.1

/-- In the tokens of a value no comma stands before a closing bracket. -/
theorem drop_commas_read {r : Reader} {ls : List Lexeme} {v : Json}
    (h : r.run (ls.map Lexeme.token) = some v) : dropCommas ls = ls := by
  induction ls generalizing r with
  | nil => rfl
  | cons l ls ih =>
    have hl : ¬(l.token = .comma ∧ (ls.head?.any fun l' => l'.token.closes)) := by
      rintro ⟨hc, hn⟩
      cases ls with
      | nil => contradiction
      | cons l' ls =>
        rw [List.map_cons, List.map_cons, hc, Reader.run_trailing hn] at h
        contradiction
    rw [List.map_cons, Reader.run_cons] at h
    obtain ⟨r', -, h⟩ := Option.bind_eq_some_iff.mp h
    rw [dropCommas, if_neg hl, ih h]

/-- A token with what is left of its characters. Only a string can lose some. -/
def Tidied (l m : Lexeme) : Prop :=
  m.chars = dropTrailingCommas [] [] l.chars ∧ m.token.hollow = l.token.hollow

theorem exists_tidied (l : Lexeme) : ∃ m, Tidied l m := by
  obtain ⟨s, t, h⟩ := l
  cases h with
  | fixed h =>
    have hall : ∀ p ∈ Token.fixedTexts, dropTrailingCommas [] [] p.1 = p.1 := by decide
    exact ⟨⟨s, t, .fixed h⟩, (hall _ h).symm, rfl⟩
  | @string cs us h =>
    obtain ⟨us', h'⟩ := content_dropped h (List.forall_mem_nil IsPlain)
    refine ⟨⟨_, _, .string h'⟩, ?_, rfl⟩
    rw [drop_inert (by decide), drop_split (by decide), drop_end]
    rfl
  | @number n power h =>
    refine ⟨⟨_, _, .number h⟩, ?_, rfl⟩
    have hs := drop_all_inert (number_inert h) (Spells.number h).solid.nonempty [] []
    rw [List.append_nil, drop_end] at hs
    simpa using hs.symm

theorem tidied_unique {l m m' : Lexeme} (h : Tidied l m) (h' : Tidied l m') : m = m' := by
  obtain ⟨s, t, hs⟩ := m
  obtain ⟨s', t', hs'⟩ := m'
  obtain rfl : s = s' := h.1.trans h'.1.symm
  have hr := Token.read_of_spells hs (Token.ends_nil t)
  rw [Token.read_of_spells hs' (Token.ends_nil t')] at hr
  obtain rfl : t' = t := (Prod.mk.inj (Option.some.inj hr)).1
  rfl

theorem comma_chars {l : Lexeme} (h : l.token = .comma) : l.chars = [','] := by
  obtain ⟨s, t, hs⟩ := l
  obtain rfl : t = .comma := h
  have hall : ∀ p ∈ Token.fixedTexts, p.2 = .comma → p.1 = [','] := by decide
  cases hs with
  | fixed h => exact hall _ h rfl

theorem closing_chars {l : Lexeme} (h : l.token.closes = true) :
    ∃ c, IsClosing c ∧ l.chars = [c] := by
  obtain ⟨s, t, hs⟩ := l
  have hall : ∀ p ∈ Token.fixedTexts, p.2.closes = true → p.1 = [']'] ∨ p.1 = ['}'] := by decide
  cases hs with
  | fixed hf =>
    rcases hall _ hf h with hc | hc
    · exact ⟨_, .inl rfl, hc⟩
    · exact ⟨_, .inr rfl, hc⟩
  | _ => contradiction

/-- No comma before a token reaches over it, if it is no closing bracket. -/
theorem drop_lexeme {l : Lexeme} (hc : l.token ≠ .comma) (hb : l.token.closes = false)
    (held cs : List Char) : dropTrailingCommas held [] (l.chars ++ cs)
      = held.reverse ++ (dropTrailingCommas [] [] l.chars ++ dropTrailingCommas [] [] cs) := by
  have hself {s : List Char} (hs : ∀ c ∈ s, Inert c) (hne : s ≠ []) :
      dropTrailingCommas held [] (s ++ cs)
        = held.reverse ++ (dropTrailingCommas [] [] s ++ dropTrailingCommas [] [] cs) := by
    have h := drop_all_inert hs hne [] []
    rw [List.append_nil, drop_end] at h
    rw [drop_all_inert hs hne, h]
    simp
  obtain ⟨s, t, hs⟩ := l
  cases hs with
  | fixed h =>
    have hall : ∀ p ∈ Token.fixedTexts, p.2 ≠ .comma → p.2.closes = false →
        (p.1.all fun c => decide (Inert c)) = true := by
      decide
    exact hself (forall_of_all (hall _ h hc hb)) (Spells.fixed h).solid.nonempty
  | @string body us h =>
    have hinert : Inert '"' := by decide
    simp only [List.cons_append, List.append_assoc]
    rw [drop_inert hinert, drop_inert hinert, drop_split hinert, drop_split hinert, drop_end]
    simp
  | number h => exact hself (number_inert h) (Spells.number h).solid.nonempty

theorem closes_not_comma {l : Lexeme} (h : l.token.closes = true) : l.token ≠ .comma := by
  intro hc
  rw [hc] at h
  contradiction

theorem tidied_self {l : Lexeme} (h : dropTrailingCommas [] [] l.chars = l.chars) : Tidied l l :=
  ⟨h.symm, rfl⟩

theorem tidied_comma {l : Lexeme} (h : l.token = .comma) : Tidied l l :=
  tidied_self (by rw [comma_chars h]; rfl)

theorem ends_dropped {t u : Token} {cs : List Char} (hu : u.hollow = t.hollow)
    (h : t.EndsBefore cs) : u.EndsBefore (dropTrailingCommas [] [] cs) := by
  cases u with
  | number x =>
    obtain rfl : t = .number x := by
      cases t <;> first | contradiction | exact hu.symm
    intro c hc
    rcases drop_head cs c hc with hc | rfl | rfl | rfl
    · exact h c hc
    all_goals decide
  | _ => trivial

theorem space_other {c : Char} (h : isSpace c = true) : c ≠ ',' ∧ ¬IsClosing c := by
  simp only [isSpace, Bool.or_eq_true, beq_iff_eq] at h
  rcases h with ((rfl | rfl) | rfl) | rfl <;> decide

/-- A comma that may be needless, with the blanks behind it, last character first. -/
def Held (held : List Char) (pre : List Lexeme) : Prop :=
  held = [] ∧ pre = [] ∨ ∃ space l, (∀ c ∈ space, isSpace c = true) ∧ l.token = .comma ∧
    held = space ++ [','] ∧ pre = [l]

variable {held cs : List Char} {pre ls ms : List Lexeme}

theorem Held.flush (hh : Held held pre) (h : Lexed cs ms) :
    Lexed (held.reverse ++ cs) (pre ++ ms) := by
  rcases hh with ⟨rfl, rfl⟩ | ⟨space, l, hs, hl, rfl, rfl⟩
  · exact h
  · have hend : l.token.EndsBefore (space.reverse ++ cs) := by
      rw [hl]
      trivial
    have hspaces := Lexed.lexeme l hend (h.spaces fun c hc => hs c (List.mem_reverse.mp hc))
    rw [comma_chars hl] at hspaces
    simpa using hspaces

theorem Held.tidied (hh : Held held pre) (h : List.Forall₂ Tidied ls ms) :
    List.Forall₂ Tidied (pre ++ ls) (pre ++ ms) := by
  rcases hh with ⟨rfl, rfl⟩ | ⟨space, l, hs, hl, rfl, rfl⟩
  · exact h
  · exact .cons (tidied_comma hl) h

/-- A comma is kept before what is no closing bracket. -/
theorem Held.kept (hh : Held held pre) (ls : List Lexeme)
    (h : (ls.head?.any fun l => l.token.closes) = false) :
    dropCommas (pre ++ ls) = pre ++ dropCommas ls := by
  rcases hh with ⟨rfl, rfl⟩ | ⟨space, l, hs, hl, rfl, rfl⟩
  · rfl
  · exact if_neg fun hn => by simp [h] at hn

theorem Held.dropped (hh : Held held pre) {l : Lexeme} (h : l.token.closes = true) :
    dropCommas (pre ++ l :: ls) = l :: dropCommas ls := by
  have hl := closes_not_comma h
  rcases hh with ⟨rfl, rfl⟩ | ⟨space, k, hs, hk, rfl, rfl⟩
  · exact drop_commas_other hl ls
  · rw [List.singleton_append, dropCommas, if_pos ⟨hk, h⟩, drop_commas_other hl]

/-- The tokens of a text without the commas before closing brackets. -/
theorem lexed_dropped (h : Lexed cs ls) (hh : Held held pre) :
    ∃ ms, Lexed (dropTrailingCommas held [] cs) ms ∧
      List.Forall₂ Tidied (dropCommas (pre ++ ls)) ms := by
  induction h generalizing held pre with
  | nil =>
    have hflush := hh.flush .nil
    have htidied := hh.tidied .nil
    rw [drop_end, hh.kept [] rfl]
    rw [List.append_nil] at hflush
    exact ⟨_, hflush, htidied⟩
  | @space c cs ls hc _ ih =>
    rcases hh with ⟨rfl, rfl⟩ | ⟨space, l, hs, hl, rfl, rfl⟩
    · obtain ⟨ms, hms, ht⟩ := ih (.inl ⟨rfl, rfl⟩)
      obtain ⟨h1, h2⟩ := space_other hc
      rw [drop_kept h1 h2 (.inl rfl)]
      exact ⟨ms, .space hc hms, ht⟩
    · rw [drop_blank (space_blank hc).1 (by simp)]
      exact ih (.inr ⟨c :: space, l, List.forall_mem_cons.mpr ⟨hc, hs⟩, hl, rfl, rfl⟩)
  | @lexeme cs ls l he _ ih =>
    by_cases hc : l.token = .comma
    · obtain ⟨ms, hms, ht⟩ := ih (.inr ⟨[], l, by simp, hc, rfl, rfl⟩)
      have hopen : l.token.closes = false := by
        rw [hc]
        rfl
      rw [comma_chars hc, List.singleton_append, drop_comma, hh.kept (l :: ls) hopen]
      exact ⟨_, hh.flush hms, hh.tidied ht⟩
    · obtain ⟨ms, hms, ht⟩ := ih (.inl ⟨rfl, rfl⟩)
      cases hb : l.token.closes with
      | true =>
        obtain ⟨c, hclose, hl⟩ := closing_chars hb
        have hself : Tidied l l := tidied_self (by rw [hl, drop_closing hclose]; rfl)
        rw [hh.dropped hb, hl, List.singleton_append, drop_closing hclose, ← List.singleton_append,
          ← hl]
        exact ⟨_, .lexeme l (ends_dropped rfl he) hms, .cons hself ht⟩
      | false =>
        obtain ⟨m, hm⟩ := exists_tidied l
        rw [drop_lexeme hc hb, ← hm.1, hh.kept (l :: ls) hb, drop_commas_other hc]
        exact ⟨_, hh.flush (.lexeme m (ends_dropped hm.2 he) hms), hh.tidied (.cons hm ht)⟩

/-- JSON text with needless commas in it. Before the closing bracket of what is not empty there can
be a comma with blanks behind it, once. Whether an item or a member ends right before the text says
the first argument. -/
inductive Loosened : Bool → List Char → List Char → Prop
  | nil {ended : Bool} : Loosened ended [] []
  | space {ended : Bool} {c : Char} {cs cs' : List Char} (hc : isSpace c = true)
    (h : Loosened ended cs cs') : Loosened ended (c :: cs) (c :: cs')
  | lexeme {ended : Bool} {cs cs' : List Char} (l : Lexeme) (he : l.token.EndsBefore cs)
    (h : Loosened l.token.endsItem cs cs') : Loosened ended (l.chars ++ cs) (l.chars ++ cs')
  | comma (added space : List Char) (l : Lexeme) {cs cs' : List Char}
    (ha : ∀ c ∈ added, isSpace c = true) (hs : ∀ c ∈ space, isSpace c = true)
    (hl : l.token.closes = true) (h : Loosened true cs cs') :
    Loosened true (space ++ (l.chars ++ cs)) (',' :: (added ++ (space ++ (l.chars ++ cs'))))

theorem loosened_head {ended : Bool} {cs cs' : List Char} (h : Loosened ended cs cs') :
    cs'.head? = cs.head? ∨ cs'.head? = some ',' := by
  cases h with
  | nil => exact .inl rfl
  | space => exact .inl rfl
  | lexeme l =>
    rw [List.head?_append_of_ne_nil _ l.spells.solid.nonempty,
      List.head?_append_of_ne_nil _ l.spells.solid.nonempty]
    exact .inl rfl
  | comma => exact .inr rfl

theorem loosened_end {t : Token} {ended : Bool} {cs cs' : List Char} (h : Loosened ended cs cs')
    (he : t.EndsBefore cs) : t.EndsBefore cs' := by
  cases t with
  | number x =>
    intro c hc
    rcases loosened_head h with hh | hh
    · exact he c (hh ▸ hc)
    · rw [hh] at hc
      cases hc
      decide
  | _ => trivial

/-- The tokens on both sides differ by the commas before closing brackets. -/
structure Pair (ended : Bool) (ls ls' : List Lexeme) : Prop where
  dropped : dropCommas ls' = dropCommas ls
  head : ended = false → ls'.head? = ls.head?

theorem loosened_lexed {ended : Bool} {cs cs' : List Char} (h : Loosened ended cs cs') :
    ∃ ls ls', Lexed cs ls ∧ Lexed cs' ls' ∧ Pair ended ls ls' ∧
      (cs' = cs ∧ ls' = ls ∨ ls.length < ls'.length) := by
  induction h with
  | nil => exact ⟨[], [], .nil, .nil, ⟨rfl, fun _ => rfl⟩, .inl ⟨rfl, rfl⟩⟩
  | space hc _ ih =>
    obtain ⟨ls, ls', h1, h2, hp, hl⟩ := ih
    exact ⟨ls, ls', .space hc h1, .space hc h2, hp, hl.imp_left (.imp_left (congrArg _))⟩
  | lexeme l he h ih =>
    obtain ⟨ls, ls', h1, h2, hp, hl⟩ := ih
    refine ⟨l :: ls, l :: ls', .lexeme l he h1, .lexeme l (loosened_end h he) h2,
      ⟨?_, fun _ => rfl⟩, hl.imp (.imp (congrArg _) (congrArg _)) Nat.succ_lt_succ⟩
    by_cases hc : l.token = .comma
    · have hhead := hp.head (by rw [hc]; rfl)
      rw [dropCommas, dropCommas, hhead, hp.dropped]
    · rw [drop_commas_other hc, drop_commas_other hc, hp.dropped]
  | comma added space l ha hs hl _ ih =>
    obtain ⟨ls, ls', h1, h2, hp, hlen⟩ := ih
    have hcomma : commaLexeme.token = .comma := rfl
    have hbare := closes_not_comma hl
    refine ⟨l :: ls, commaLexeme :: l :: ls', (Lexed.lexeme l (ends_closing hl) h1).spaces hs,
      .lexeme commaLexeme trivial (((Lexed.lexeme l (ends_closing hl) h2).spaces hs).spaces ha),
      ⟨?_, fun h => absurd h (by decide)⟩, .inr ?_⟩
    · rw [dropCommas, if_pos ⟨hcomma, hl⟩, drop_commas_other hbare, drop_commas_other hbare,
        hp.dropped]
    · have hle : ls.length ≤ ls'.length := by
        rcases hlen with ⟨-, rfl⟩ | hlt
        · exact Nat.le_refl _
        · exact Nat.le_of_lt hlt
      simp only [List.length_cons]
      omega

theorem tidied_right_unique : Relator.RightUnique Tidied :=
  fun _ _ _ => tidied_unique

theorem tidied_hollow {ls ms : List Lexeme} (h : List.Forall₂ Tidied ls ms) :
    (ls.map Lexeme.token).map Token.hollow = (ms.map Lexeme.token).map Token.hollow := by
  induction h with
  | nil => rfl
  | cons ht _ ih =>
    simp only [List.map_cons, ih, ht.2]

/-- What is left of a text is still read. -/
theorem read_tidied {r : Reader} {ls ms : List Lexeme} {v : Json}
    (h : List.Forall₂ Tidied ls ms) (hr : r.run (ls.map Lexeme.token) = some v) :
    ∃ w, r.run (ms.map Lexeme.token) = some w := by
  have hsome := @Reader.run_alike r r _ _ rfl (tidied_hollow h)
  rw [hr] at hsome
  exact Option.isSome_iff_exists.mp hsome.symm

theorem trim_mark {mark : String} (hm : mark ∈ ["", "\uFEFF"]) (text : String) :
    Text.trimChars (mark ++ text).toList = Text.trimChars text.toList := by
  simp only [List.mem_cons, List.not_mem_nil, or_false] at hm
  rcases hm with rfl | rfl
  · simp
  · have hlist : ("\uFEFF" ++ text).toList = '\uFEFF' :: text.toList := by simp
    rw [hlist, Text.trimChars, List.dropWhile_cons_of_pos (by decide)]
    rfl

/-- A comma more is not JSON. -/
theorem read_longer {r : Reader} {ls ls' : List Lexeme} (hd : dropCommas ls' = ls)
    (hl : ls.length < ls'.length) : r.run (ls'.map Lexeme.token) = none := by
  cases hr : r.run (ls'.map Lexeme.token) with
  | none => rfl
  | some v =>
    rw [← hd, drop_commas_read hr] at hl
    exact absurd hl (Nat.lt_irrefl _)

/-- Needless commas do not make a text unreadable, and they are forgiven. But once there is one,
commas inside strings go the same way: then the text is read as if they were dropped from the
original text too. Where no comma of the original looks like a needless one, its value is
unchanged. -/
theorem parse_loosened {t t' mark : String} {v : Json} (ht : parse? t = some v)
    (h : Loosened false t.toList t'.toList) (hm : mark ∈ ["", "\uFEFF"]) :
    ∃ w, parse? (String.ofList (dropTrailingCommas [] [] t.toList)) = some w ∧
      parseLenient? (mark ++ t') = some (if t' = t then v else w) ∧
      (NoneTrailing t.toList → w = v) := by
  obtain ⟨ls, ls', hls, hls', hp, hlen⟩ := loosened_lexed h
  have hread : Reader.run (.value []) (ls.map Lexeme.token) = some v := by
    rw [← read_of_lexed hls]
    exact ht
  have hdropped : dropCommas ls' = ls := hp.dropped.trans (drop_commas_read hread)
  obtain ⟨ms, hms, htidied⟩ := lexed_dropped hls (.inl ⟨rfl, rfl⟩)
  rw [List.nil_append, drop_commas_read hread] at htidied
  obtain ⟨w, hw⟩ := read_tidied htidied hread
  rw [← read_of_lexed hms] at hw
  refine ⟨w, ?_, ?_, fun hnone => ?_⟩
  · rw [parse?, String.toList_ofList, hw]
  · unfold parseLenient?
    dsimp only
    rw [trim_mark hm]
    by_cases hsame : t' = t
    · rw [if_pos hsame, hsame, read_of_lexed hls.trimmed, hread]
    · have hlt := hlen.resolve_left fun hl => hsame (String.toList_inj.mp hl.1)
      obtain ⟨ms', hms', htidied'⟩ := lexed_dropped hls'.trimmed (.inl ⟨rfl, rfl⟩)
      rw [List.nil_append, hdropped] at htidied'
      have hms'' : ms' = ms := List.right_unique_forall₂' tidied_right_unique htidied' htidied
      rw [if_neg hsame, read_of_lexed hls'.trimmed, read_longer hdropped hlt]
      dsimp only
      rw [read_of_lexed hms', hms'', ← read_of_lexed hms, hw]
  · rw [drop_none hnone] at hw
    exact Option.some.inj (hw.symm.trans ht)

def closeArrayLexeme : Lexeme :=
  ⟨[']'], .closeArray, .fixed (by decide)⟩

theorem parse_loosened_flags :
    parseLenient? ("\uFEFF" ++ "[true,[null, ],\n ]") = some (array [bool true, array [null]]) := by
  have hinner : Loosened true [']', ' ', ']'] [',', ' ', ']', ',', '\n', ' ', ']'] :=
    .comma [' '] [] closeArrayLexeme (forall_of_all rfl) (forall_of_all rfl) rfl
      (.comma ['\n'] [' '] closeArrayLexeme (forall_of_all rfl) (forall_of_all rfl) rfl .nil)
  have hloose : Loosened false "[true,[null] ]".toList "[true,[null, ],\n ]".toList :=
    .lexeme ⟨['['], .openArray, .fixed (by decide)⟩ trivial
      (.lexeme ⟨['t', 'r', 'u', 'e'], .bool true, .fixed (by decide)⟩ trivial
      (.lexeme commaLexeme trivial
      (.lexeme ⟨['['], .openArray, .fixed (by decide)⟩ trivial
      (.lexeme ⟨['n', 'u', 'l', 'l'], .null, .fixed (by decide)⟩ trivial hinner))))
  have hread : parse? "[true,[null] ]" = some (array [bool true, array [null]]) := by
    with_unfolding_all rfl
  obtain ⟨w, -, hw, hkept⟩ := parse_loosened hread hloose (by decide : "\uFEFF" ∈ ["", "\uFEFF"])
  rw [hw, hkept (by decide), ite_self]

/-- A comma inside a string is lost, once there is a needless one behind the string. -/
theorem string_comma_lost : parse? "[\"x,]\"]" = some (array [string "x,]"]) ∧
    Loosened false "[\"x,]\"]".toList "[\"x,]\",]".toList ∧
    parseLenient? "[\"x,]\",]" = some (array [string "x]"]) ∧
    array [string "x]"] ≠ array [string "x,]"] := by
  have hx : Token.Content ['x', ',', ']'] _ :=
    .plain (by decide) (by decide) (by decide) (.plain (by decide) (by decide) (by decide)
      (.plain (by decide) (by decide) (by decide) .nil))
  have hloose : Loosened false "[\"x,]\"]".toList "[\"x,]\",]".toList :=
    .lexeme ⟨['['], .openArray, .fixed (by decide)⟩ trivial
      (.lexeme ⟨_, _, .string hx⟩ trivial
      (.comma [] [] closeArrayLexeme (forall_of_all rfl) (forall_of_all rfl) rfl .nil))
  exact ⟨by with_unfolding_all rfl, hloose, by with_unfolding_all rfl, by simp⟩

end SchemaHistory.Json
