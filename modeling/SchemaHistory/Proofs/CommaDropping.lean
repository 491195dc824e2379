import Mathlib.Data.List.Infix
import SchemaHistory.Proofs.Lexemes

namespace SchemaHistory.Json

open Token (Spells Content isSpace)

/-- Brackets that a comma before them is needless at. -/
abbrev IsClosing (c : Char) : Prop :=
  c = ']' ∨ c = '}'

section Dropping

variable {c : Char} {held seen cs s : List Char}

theorem drop_seen (held seen cs : List Char) :
    dropTrailingCommas held seen cs = seen.reverse ++ dropTrailingCommas held [] cs := by
  induction cs generalizing held seen with
  | nil => simp [dropTrailingCommas]
  | cons c cs ih =>
    unfold dropTrailingCommas
    split
    · rw [ih, ih _ (held ++ [])]
      simp
    · split
      · rw [ih, ih _ [c]]
        simp
      · split
        · exact ih _ _
        · rw [ih, ih _ (c :: (held ++ []))]
          simp

theorem drop_end (held : List Char) : dropTrailingCommas held [] [] = held.reverse := by
  rw [dropTrailingCommas, List.append_nil]

theorem drop_comma (held cs : List Char) :
    dropTrailingCommas held [] (',' :: cs) = held.reverse ++ dropTrailingCommas [','] [] cs := by
  rw [dropTrailingCommas, if_pos rfl, drop_seen, List.append_nil]

theorem drop_closing (hc : IsClosing c) (held cs : List Char) :
    dropTrailingCommas held [] (c :: cs) = c :: dropTrailingCommas [] [] cs := by
  have hne : c ≠ ',' := by
    rcases hc with rfl | rfl <;> decide
  rw [dropTrailingCommas, if_neg hne, if_pos hc, drop_seen]
  rfl

theorem drop_kept (hc : c ≠ ',') (hb : ¬IsClosing c) (h : held = [] ∨ Text.isBlank c = false)
    (cs : List Char) : dropTrailingCommas held [] (c :: cs)
      = held.reverse ++ c :: dropTrailingCommas [] [] cs := by
  have hkeep : ¬(held ≠ [] ∧ Text.isBlank c = true) := by
    rintro ⟨hne, hblank⟩
    rcases h with h | h
    · exact hne h
    · rw [h] at hblank
      contradiction
  rw [dropTrailingCommas, if_neg hc, if_neg hb, if_neg hkeep, drop_seen]
  simp

theorem drop_blank (hb : Text.isBlank c = true) (hh : held ≠ []) (cs : List Char) :
    dropTrailingCommas held [] (c :: cs) = dropTrailingCommas (c :: held) [] cs := by
  have hc : c ≠ ',' := by
    rintro rfl
    exact absurd hb (by decide)
  have hclose : ¬IsClosing c := by
    rintro (rfl | rfl) <;> exact absurd hb (by decide)
  rw [dropTrailingCommas, if_neg hc, if_neg hclose, if_pos ⟨hh, hb⟩]

/-- What is done with a character: it is a comma, a closing bracket, a blank behind a comma, or
none of these. -/
theorem drop_cases (held : List Char) (c : Char) :
    c = ',' ∨ IsClosing c ∨ (held ≠ [] ∧ Text.isBlank c = true) ∨
      c ≠ ',' ∧ ¬IsClosing c ∧ (held = [] ∨ Text.isBlank c = false) := by
  by_cases h1 : c = ','
  · exact .inl h1
  · by_cases h2 : IsClosing c
    · exact .inr (.inl h2)
    · by_cases h3 : held = [] ∨ Text.isBlank c = false
      · exact .inr (.inr (.inr ⟨h1, h2, h3⟩))
      · rw [not_or, Bool.not_eq_false] at h3
        exact .inr (.inr (.inl h3))

theorem drop_inert (hc : Inert c) (held cs : List Char) : dropTrailingCommas held [] (c :: cs)
    = held.reverse ++ c :: dropTrailingCommas [] [] cs :=
  drop_kept hc.1 (fun h => h.elim hc.2.1 hc.2.2.1) (.inr hc.2.2.2) cs

theorem drop_all_inert (hs : ∀ c ∈ s, Inert c) (hne : s ≠ []) (held cs : List Char) :
    dropTrailingCommas held [] (s ++ cs)
      = held.reverse ++ (s ++ dropTrailingCommas [] [] cs) := by
  induction s generalizing held with
  | nil => exact absurd rfl hne
  | cons c s ih =>
    obtain ⟨hc, hs⟩ := List.forall_mem_cons.mp hs
    rw [List.cons_append, drop_inert hc]
    cases s with
    | nil => rfl
    | cons d s => rw [ih hs (List.cons_ne_nil _ _)]; rfl

/-- What stands before a character that no comma reaches over is done by itself. -/
theorem drop_split (hc : Inert c) (held s cs : List Char) :
    dropTrailingCommas held [] (s ++ c :: cs)
      = dropTrailingCommas held [] s ++ c :: dropTrailingCommas [] [] cs := by
  induction s generalizing held with
  | nil => rw [List.nil_append, drop_inert hc, drop_end]
  | cons d s ih =>
    rw [List.cons_append]
    rcases drop_cases held d with rfl | hd | ⟨hne, hd⟩ | ⟨hd, hclose, hkeep⟩
    · rw [drop_comma, drop_comma, ih, List.append_assoc]
    · rw [drop_closing hd, drop_closing hd, ih, List.cons_append]
    · rw [drop_blank hd hne, drop_blank hd hne, ih]
    · rw [drop_kept hd hclose hkeep, drop_kept hd hclose hkeep, ih, List.append_assoc,
        List.cons_append]

theorem drop_head_held (held cs : List Char) :
    ∀ d ∈ (dropTrailingCommas (held ++ [',']) [] cs).head?, d = ',' ∨ IsClosing d := by
  have hflush (rest : List Char) : ∀ d ∈ ((held ++ [',']).reverse ++ rest).head?,
      d = ',' ∨ IsClosing d := by
    rw [List.reverse_append]
    rintro d ⟨⟩
    exact .inl rfl
  induction cs generalizing held with
  | nil =>
    rw [drop_end, ← List.append_nil (held ++ [',']).reverse]
    exact hflush []
  | cons c cs ih =>
    rcases drop_cases (held ++ [',']) c with rfl | hc | ⟨hne, hc⟩ | ⟨hc, hclose, hkeep⟩
    · rw [drop_comma]
      exact hflush _
    · rw [drop_closing hc]
      rintro d ⟨⟩
      exact .inr hc
    · rw [drop_blank hc hne]
      refine ih (c :: held) fun rest => ?_
      rw [List.reverse_append]
      rintro d ⟨⟩
      exact .inl rfl
    · rw [drop_kept hc hclose hkeep]
      exact hflush _

theorem drop_head (cs : List Char) : ∀ d ∈ (dropTrailingCommas [] [] cs).head?,
    d ∈ cs.head? ∨ d = ',' ∨ IsClosing d := by
  cases cs with
  | nil => simp [drop_end]
  | cons c cs =>
    rcases drop_cases [] c with rfl | hc | ⟨hne, _⟩ | ⟨hc, hclose, hkeep⟩
    · rw [drop_comma]
      exact fun d hd => .inr (drop_head_held [] cs d hd)
    · rw [drop_closing hc]
      exact fun d hd => .inl hd
    · exact absurd rfl hne
    · rw [drop_kept hc hclose hkeep]
      exact fun d hd => .inl hd

/-- Behind each comma of a text, the first character that is no blank is no closing bracket. -/
def NoneTrailing (cs : List Char) : Prop :=
  ∀ back ∈ cs.tails, back.head? = some ',' →
    ∀ c ∈ (back.tail.dropWhile Text.isBlank).head?, ¬IsClosing c

instance (cs : List Char) : Decidable (NoneTrailing cs) :=
  @List.decidableBAll _ _ (fun _ => @instDecidableForall _ _ _ (Option.decidableForallMem _)) _

theorem NoneTrailing.tail {front back : List Char} (h : NoneTrailing (front ++ back)) :
    NoneTrailing back :=
  fun rest hr => h rest ((List.mem_tails _ _).mpr (((List.mem_tails _ _).mp hr).trans ⟨front, rfl⟩))

theorem NoneTrailing.behind {blanks cs : List Char} {c : Char}
    (h : NoneTrailing ((blanks ++ [',']).reverse ++ c :: cs))
    (hb : ∀ b ∈ blanks, Text.isBlank b = true) : ¬IsClosing c := by
  intro hc
  have hblank : Text.isBlank c = false := by
    rcases hc with rfl | rfl <;> decide
  have hnext : (blanks.reverse ++ c :: cs).dropWhile Text.isBlank = c :: cs := by
    rw [List.dropWhile_append_of_pos fun b hm => hb b (List.mem_reverse.mp hm),
      List.dropWhile_cons_of_neg (by simp [hblank])]
  have hlist : (blanks ++ [',']).reverse ++ c :: cs = ',' :: (blanks.reverse ++ c :: cs) := by
    simp
  rw [hlist] at h
  refine h _ ((List.mem_tails _ _).mpr (List.suffix_refl _)) rfl c ?_ hc
  rw [List.tail_cons, hnext]
  rfl

theorem drop_held_none (hh : held = [] ∨ ∃ blanks, (∀ b ∈ blanks, Text.isBlank b = true) ∧
      held = blanks ++ [',']) (h : NoneTrailing (held.reverse ++ cs)) :
    dropTrailingCommas held [] cs = held.reverse ++ cs := by
  induction cs generalizing held with
  | nil => rw [drop_end, List.append_nil]
  | cons c cs ih =>
    have htail : NoneTrailing cs := by
      rw [← List.singleton_append] at h
      exact h.tail.tail
    rcases drop_cases held c with rfl | hc | ⟨hne, hc⟩ | ⟨hc, hclose, hkeep⟩
    · have hkept := @ih [','] (.inr ⟨[], by simp, rfl⟩) h.tail
      rw [drop_comma, hkept]
      rfl
    · rcases hh with rfl | ⟨blanks, hb, rfl⟩
      · rw [drop_closing hc, ih (.inl rfl) htail]
        rfl
      · exact absurd hc (h.behind hb)
    · obtain ⟨blanks, hb, rfl⟩ := hh.resolve_left hne
      have hlist : (c :: (blanks ++ [','])).reverse ++ cs
          = (blanks ++ [',']).reverse ++ c :: cs := by
        simp
      have hblanks : ∀ b ∈ c :: blanks, Text.isBlank b = true :=
        List.forall_mem_cons.mpr ⟨hc, hb⟩
      have hkept := ih (.inr ⟨c :: blanks, hblanks, rfl⟩) (hlist ▸ h)
      rw [drop_blank hc hne, ← hlist]
      exact hkept
    · rw [drop_kept hc hclose hkeep, ih (.inl rfl) htail]
      rfl

/-- Then nothing is dropped. -/
theorem drop_none (h : NoneTrailing cs) : dropTrailingCommas [] [] cs = cs :=
  drop_held_none (.inl rfl) h

end Dropping

section Strings

variable {c e : Char} {cs held : List Char} {us : List Nat}

/-- Characters that stand for themselves in a string. -/
def IsPlain (c : Char) : Prop :=
  c ≠ '"' ∧ c ≠ '\\' ∧ ¬c.toNat < 0x20

theorem content_plain {ps : List Char} (hp : ∀ c ∈ ps, IsPlain c) (h : ∃ us, Content cs us) :
    ∃ us, Content (ps ++ cs) us := by
  induction ps with
  | nil => exact h
  | cons c ps ih =>
    obtain ⟨⟨hq, hb, hc⟩, hp⟩ := List.forall_mem_cons.mp hp
    obtain ⟨us, hus⟩ := ih hp
    exact ⟨_, .plain hq hb hc hus⟩

theorem escape_inert {e c : Char} (h : Token.unescape e = some c) : Inert e := by
  unfold Token.unescape at h
  split at h
  case h_9 => contradiction
  all_goals decide

theorem content_dropped (h : Content cs us) {held : List Char} (hh : ∀ c ∈ held, IsPlain c) :
    ∃ us', Content (dropTrailingCommas held [] cs) us' := by
  have hflush {held cs : List Char} (hh : ∀ c ∈ held, IsPlain c) (h : ∃ us, Content cs us) :
      ∃ us, Content (held.reverse ++ cs) us :=
    content_plain (fun c hc => hh c (List.mem_reverse.mp hc)) h
  induction h generalizing held with
  | nil =>
    rw [drop_end, ← List.append_nil held.reverse]
    exact hflush hh ⟨_, .nil⟩
  | @plain c cs us hq hb hc _ ih =>
    have hplain : IsPlain c := ⟨hq, hb, hc⟩
    rcases drop_cases held c with rfl | hclose | ⟨hne, hblank⟩ | ⟨hcomma, hclose, hkeep⟩
    · rw [drop_comma]
      exact hflush hh (ih (List.forall_mem_singleton.mpr hplain))
    · obtain ⟨us', hus⟩ := @ih [] (by simp)
      rw [drop_closing hclose]
      exact ⟨_, .plain hq hb hc hus⟩
    · rw [drop_blank hblank hne]
      exact ih (List.forall_mem_cons.mpr ⟨hplain, hh⟩)
    · obtain ⟨us', hus⟩ := @ih [] (by simp)
      rw [drop_kept hcomma hclose hkeep]
      exact hflush hh ⟨_, .plain hq hb hc hus⟩
  | @escape e c cs us he _ ih =>
    obtain ⟨us', hus⟩ := @ih [] (by simp)
    rw [drop_inert (by decide), drop_inert (escape_inert he)]
    exact hflush hh ⟨_, .escape he hus⟩
  | @unit a b c d u cs us hu _ ih =>
    obtain ⟨us', hus⟩ := @ih [] (by simp)
    have hs : ∀ x ∈ ['\\', 'u', a, b, c, d], Inert x := by
      rw [List.forall_mem_cons, List.forall_mem_cons]
      exact ⟨by decide, by decide, hex_digits_inert hu⟩
    have hdrop := drop_all_inert hs (List.cons_ne_nil _ _) held cs
    exact hdrop ▸ hflush hh ⟨_, .unit hu hus⟩

end Strings

end SchemaHistory.Json
