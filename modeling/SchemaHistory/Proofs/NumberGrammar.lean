import SchemaHistory.Binary64.Decimal
import SchemaHistory.Proofs.Lists

namespace SchemaHistory.Binary64

/-- No decimal goes on with such a text. -/
def NumberEnd (rest : List Char) : Prop :=
  ∀ c ∈ rest.head?, c.isDigit = false ∧ c ≠ '.' ∧ c ≠ 'e' ∧ c ≠ 'E'

namespace Numeral

def fractionChars : Option (List Char) → List Char
  | none => []
  | some digits => '.' :: digits

/-- A power of ten as JSON writes it behind a number. -/
inductive Power : List Char → Int → Prop
  | none : Power [] 0
  | some {mark : Char} {sign digits : List Char} (hm : mark = 'e' ∨ mark = 'E')
    (hs : sign ∈ [[], ['+'], ['-']]) (hne : digits ≠ []) (hd : ∀ c ∈ digits, c.isDigit = true) :
    Power (mark :: (sign ++ digits))
      (if sign = ['-'] then -(Nat.ofDigitChars 10 digits 0 : Int) else Nat.ofDigitChars 10 digits 0)

/-- The text of a decimal, with the text of its power. -/
def chars (n : Numeral) (power : List Char) : List Char :=
  n.whole ++ (fractionChars n.fraction ++ power)

/-- A decimal that JSON writes, without its sign. -/
structure Written (n : Numeral) (power : List Char) : Prop where
  whole : n.whole ≠ [] ∧ ∀ c ∈ n.whole, c.isDigit = true
  fraction : ∀ ds ∈ n.fraction, ∀ c ∈ ds, c.isDigit = true
  power : Power power n.exponent
  strict : n.isStrict = true

variable {n : Numeral} {cs rest p s digits : List Char} {e : Int} {fraction : Option (List Char)}

theorem sign_written (hs : s ∈ [[], ['+'], ['-']]) (hne : digits ≠ [])
    (hd : ∀ c ∈ digits, c.isDigit = true) (rest : List Char) :
    sign (s ++ (digits ++ rest)) = (decide (s = ['-']), digits ++ rest) := by
  simp only [List.mem_cons, List.not_mem_nil, or_false] at hs
  rcases hs with rfl | rfl | rfl
  · obtain ⟨c, ds, rfl⟩ := List.exists_cons_of_ne_nil hne
    have hc := hd c List.mem_cons_self
    rw [List.nil_append, List.cons_append, sign]
    · rfl
    all_goals
      rintro cs he
      rw [(List.cons.inj he).1] at hc
      contradiction
  · rfl
  · rfl

theorem sign_split (cs : List Char) : ∃ s ∈ [[], ['+'], ['-']],
    cs = s ++ (sign cs).2 ∧ (sign cs).1 = decide (s = ['-']) := by
  unfold sign
  split
  · exact ⟨['-'], by simp, rfl, rfl⟩
  · exact ⟨['+'], by simp, rfl, rfl⟩
  · exact ⟨[], by simp, rfl, rfl⟩

theorem exponent_of_power (h : Power p e) (hr : NumberEnd rest) :
    exponent? (p ++ rest) = some (e, rest) := by
  cases h with
  | none =>
    cases rest with
    | nil => rfl
    | cons c cs =>
      obtain ⟨_, _, h1, h2⟩ := hr c rfl
      simp [exponent?, h1, h2]
  | some hm hs hne hd =>
    obtain ⟨h1, h2⟩ := span_append hd fun c hc => (hr c hc).1
    simp only [List.cons_append, List.append_assoc, exponent?, if_pos hm,
      sign_written hs hne hd rest, h1, h2, List.isEmpty_iff, if_neg hne, decide_eq_true_eq]

theorem head_drop_while (p : Char → Bool) (cs : List Char) :
    ∀ c ∈ (cs.dropWhile p).head?, p c = false := by
  intro c hc
  have h := List.head?_dropWhile_not p cs
  rw [Option.mem_def.mp hc] at h
  exact h

theorem power_of_exponent (h : exponent? cs = some (e, rest)) : ∃ p, cs = p ++ rest ∧ Power p e ∧
    (p = [] ∨ ∀ c ∈ rest.head?, c.isDigit = false) := by
  cases cs with
  | nil =>
    cases h
    exact ⟨[], rfl, .none, .inl rfl⟩
  | cons c cs =>
    simp only [exponent?] at h
    split at h
    · rename_i hm
      split at h
      · contradiction
      · rename_i hne
        cases h
        obtain ⟨s, hs, hcs, hn⟩ := sign_split cs
        refine ⟨c :: (s ++ (sign cs).2.takeWhile Char.isDigit), ?_, ?_, .inr (head_drop_while _ _)⟩
        · rw [List.cons_append, List.append_assoc, List.takeWhile_append_dropWhile, ← hcs]
        · have hp := Power.some hm hs (List.isEmpty_iff.not.mp hne)
            fun _ hd => List.mem_takeWhile_imp hd
          simpa [hn] using hp
    · cases h
      exact ⟨[], rfl, .none, .inl rfl⟩

theorem power_end (h : Power p e) (hr : NumberEnd rest) :
    ∀ c ∈ (p ++ rest).head?, c.isDigit = false ∧ c ≠ '.' := by
  cases h with
  | none => exact fun c hc => ⟨(hr c hc).1, (hr c hc).2.1⟩
  | some hm =>
    intro c hc
    cases hc
    rcases hm with rfl | rfl <;> decide

theorem fraction_end (fraction : Option (List Char)) (h : Power p e) (hr : NumberEnd rest) :
    ∀ c ∈ (fractionChars fraction ++ (p ++ rest)).head?, c.isDigit = false := by
  cases fraction with
  | none => exact fun c hc => (power_end h hr c hc).1
  | some ds =>
    intro c hc
    cases hc
    decide

theorem point_read (hf : ∀ ds ∈ fraction, ∀ c ∈ ds, c.isDigit = true)
    (hr : ∀ c ∈ rest.head?, c.isDigit = false ∧ c ≠ '.') :
    point (fractionChars fraction ++ rest) = (fraction, rest) := by
  cases fraction with
  | none =>
    unfold point
    split
    · rename_i he
      rw [fractionChars, List.nil_append] at he
      exact absurd rfl (hr '.' (by rw [he]; rfl)).2
    · rfl
  | some ds =>
    obtain ⟨h1, h2⟩ := span_append (hf ds rfl) fun c hc => (hr c hc).1
    simp only [fractionChars, List.cons_append, point, h1, h2]

theorem point_split (hc : ∀ c ∈ cs.head?, c.isDigit = false) :
    cs = fractionChars (point cs).1 ++ (point cs).2 ∧
      (∀ ds ∈ (point cs).1, ∀ c ∈ ds, c.isDigit = true) ∧
      ∀ c ∈ (point cs).2.head?, c.isDigit = false := by
  unfold point
  split
  · refine ⟨?_, ?_, head_drop_while _ _⟩
    · rw [fractionChars, List.cons_append, List.takeWhile_append_dropWhile]
    · rintro ds ⟨⟩ c hd
      exact List.mem_takeWhile_imp hd
  · exact ⟨rfl, by simp, hc⟩

theorem unsigned_of_written (h : Written n p) (hr : NumberEnd rest) :
    unsigned? n.negative (chars n p ++ rest) = some (n, rest) := by
  have hpoint := point_read h.fraction (power_end h.power hr)
  have hne : n.whole.isEmpty = false := by simpa using h.whole.1
  obtain ⟨h1, h2⟩ := span_append h.whole.2 (fraction_end n.fraction h.power hr)
  simp only [unsigned?, chars, List.append_assoc, h1, h2, hpoint, exponent_of_power h.power hr,
    hne, Bool.false_and, Bool.false_eq_true, ↓reduceIte, Option.map_some]

theorem whole_of_strict (h : n.isStrict = true) : n.whole ≠ [] := by
  intro hne
  unfold isStrict at h
  rw [hne] at h
  contradiction

/-- A decimal is read as far as its digits go. -/
theorem written_of_unsigned {negative : Bool} (h : unsigned? negative cs = some (n, rest))
    (hs : n.isStrict = true) : ∃ p, cs = chars n p ++ rest ∧ Written n p ∧
      n.negative = negative ∧ ∀ c ∈ rest.head?, c.isDigit = false := by
  have hsplit := List.takeWhile_append_dropWhile (p := Char.isDigit) (l := cs)
  obtain ⟨hcs, hf, hhead⟩ := point_split (head_drop_while Char.isDigit cs)
  simp only [unsigned?] at h
  split at h
  · contradiction
  · obtain ⟨⟨e, r⟩, he, hr⟩ := Option.map_eq_some_iff.mp h
    cases hr
    obtain ⟨p, hp, hpower, hend⟩ := power_of_exponent he
    refine ⟨p, ?_, ⟨⟨?_, ?_⟩, hf, hpower, hs⟩, rfl, ?_⟩
    · rw [chars, List.append_assoc, List.append_assoc, ← hp, ← hcs, hsplit]
    · exact whole_of_strict hs
    · exact fun c hc => List.mem_takeWhile_imp hc
    · rcases hend with rfl | hend
      · rw [hp] at hhead
        exact hhead
      · exact hend

end Numeral

end SchemaHistory.Binary64
