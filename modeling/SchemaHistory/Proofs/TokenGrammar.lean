import SchemaHistory.Proofs.NumberText
import SchemaHistory.Proofs.StringText

namespace SchemaHistory.Json.Token

open Binary64 (NumberEnd)
open Binary64.Numeral (Written chars)

/-- What may stand between the quotes of a string, with the 16-bit units that it stands for. -/
inductive Content : List Char → List Nat → Prop
  | nil : Content [] []
  | plain {c : Char} {cs : List Char} {us : List Nat} (hq : c ≠ '"') (hb : c ≠ '\\')
    (hc : ¬c.toNat < 0x20) (h : Content cs us) : Content (c :: cs) (Text.unitsOf c ++ us)
  | escape {e c : Char} {cs : List Char} {us : List Nat} (he : unescape e = some c)
    (h : Content cs us) : Content ('\\' :: e :: cs) (c.toNat :: us)
  | unit {a b c d : Char} {u : Nat} {cs : List Char} {us : List Nat}
    (hu : Binary64.ofDigits? 16 [a, b, c, d] = some u) (h : Content cs us) :
    Content ('\\' :: 'u' :: a :: b :: c :: d :: cs) (u :: us)

/-- The tokens with one text. -/
def fixedTexts : List (List Char × Token) :=
  [(['['], openArray), ([']'], closeArray), (['\x7b'], openObject), (['\x7d'], closeObject),
    ([','], comma), ([':'], colon), (['n', 'u', 'l', 'l'], null),
    (['t', 'r', 'u', 'e'], bool true), (['f', 'a', 'l', 's', 'e'], bool false)]

def signChars (negative : Bool) : List Char :=
  if negative then ['-'] else []

/-- The texts of the tokens of JSON. -/
inductive Spells : List Char → Token → Prop
  | fixed {s : List Char} {t : Token} (h : (s, t) ∈ fixedTexts) : Spells s t
  | string {cs : List Char} {us : List Nat} (h : Content cs us) :
    Spells ('"' :: (cs ++ ['"'])) (string (String.ofList (Text.ofUnits us)))
  | number {n : Binary64.Numeral} {power : List Char} (h : Written n power) :
    Spells (signChars n.negative ++ chars n power) (number n.value)

/-- A text can follow a token without changing it. -/
def EndsBefore : Token → List Char → Prop
  | number _, rest => NumberEnd rest
  | _, _ => True

/-- The digits of a number do not go on in a text. -/
def StopsBefore : Token → List Char → Prop
  | number _, rest => ∀ c ∈ rest.head?, c.isDigit = false
  | _, _ => True

theorem ends_nil (t : Token) : t.EndsBefore [] := by
  cases t with
  | number x => exact Binary64.number_end_nil
  | _ => trivial

variable {cs rest s : List Char} {us units seen : List Nat} {t : Token}

theorem scan_content (h : Content cs us) (seen : List Nat) (rest : List Char) :
    scanString seen (cs ++ '"' :: rest) = some (seen.reverse ++ us, rest) := by
  induction h generalizing seen with
  | nil => simp [scanString]
  | plain hq hb hc _ ih =>
    rw [List.cons_append, scan_plain hq hb hc, ih]
    simp
  | @escape e c cs us he _ ih =>
    rw [List.cons_append, List.cons_append, scanString, he]
    · dsimp only
      rw [ih]
      simp
    · rintro _ _ _ _ _ rfl
      contradiction
  | unit hu _ ih =>
    simp only [List.cons_append, scanString, hu]
    rw [ih]
    simp

theorem content_of_scan (h : scanString seen cs = some (units, rest)) :
    ∃ body us, cs = body ++ '"' :: rest ∧ Content body us ∧ units = seen.reverse ++ us := by
  fun_induction scanString seen cs with
  | case1 => contradiction
  | case2 seen cs =>
    cases h
    exact ⟨[], [], rfl, .nil, by simp⟩
  | case3 seen a b c d cs unit hu ih =>
    obtain ⟨body, us, rfl, hb, rfl⟩ := ih h
    exact ⟨_, _, rfl, .unit hu hb, by simp⟩
  | case4 => contradiction
  | case5 seen e cs hno c he ih =>
    obtain ⟨body, us, rfl, hb, rfl⟩ := ih h
    exact ⟨_, _, rfl, .escape he hb, by simp⟩
  | case6 => contradiction
  | case7 => contradiction
  | case8 seen c cs hq hu he hc ih =>
    obtain ⟨body, us, rfl, hb, rfl⟩ := ih h
    obtain ⟨d, ds, hd⟩ := List.exists_cons_of_ne_nil (l := body ++ '"' :: rest) (by simp)
    exact ⟨_, _, rfl, .plain hq (fun h => he d ds h hd) hc hb, by simp⟩

theorem read_of_spells (h : Spells s t) (hr : t.EndsBefore rest) :
    read? (s ++ rest) = some (t, rest) := by
  cases h with
  | fixed h =>
    simp only [fixedTexts, List.mem_cons, Prod.mk.injEq, List.not_mem_nil, or_false] at h
    rcases h with ⟨rfl, rfl⟩ | ⟨rfl, rfl⟩ | ⟨rfl, rfl⟩ | ⟨rfl, rfl⟩ | ⟨rfl, rfl⟩ | ⟨rfl, rfl⟩ |
      ⟨rfl, rfl⟩ | ⟨rfl, rfl⟩ | ⟨rfl, rfl⟩ <;> rfl
  | string h =>
    rw [List.cons_append, List.append_assoc, List.singleton_append, read?, scan_content h]
    rfl
  | @number n power h =>
    have hread : readNumber n.negative (chars n power ++ rest) = some (number n.value, rest) := by
      rw [readNumber, Binary64.Numeral.unsigned_of_written h hr]
      exact if_pos h.strict
    cases hn : n.negative with
    | true =>
      rw [hn] at hread
      exact hread
    | false =>
      obtain ⟨c, ds, hc⟩ := List.exists_cons_of_ne_nil h.whole.1
      have hd : c.isDigit = true := h.whole.2 c (hc ▸ List.mem_cons_self)
      have hchars : chars n power ++ rest = c :: (ds
          ++ (Binary64.Numeral.fractionChars n.fraction ++ power) ++ rest) := by
        rw [chars, hc, List.cons_append, List.cons_append]
      rw [hn, hchars] at hread
      rw [signChars, if_neg (by decide), List.nil_append, hchars, Binary64.digit_token hd, hread]

theorem spells_of_fixed (h : ∃ p ∈ fixedTexts, p.2 = t ∧ cs = p.1 ++ rest) :
    ∃ s, cs = s ++ rest ∧ Spells s t ∧ t.StopsBefore rest := by
  obtain ⟨⟨s, u⟩, hp, rfl, rfl⟩ := h
  refine ⟨s, rfl, .fixed hp, ?_⟩
  cases u with
  | number x => simp [fixedTexts] at hp
  | _ => trivial

theorem spells_of_number {negative : Bool} (h : readNumber negative cs = some (t, rest)) :
    ∃ s, cs = s ++ rest ∧ Spells (signChars negative ++ s) t ∧ t.StopsBefore rest := by
  unfold readNumber at h
  split at h
  · rename_i n r hn
    split at h
    · rename_i hs
      cases h
      obtain ⟨p, hcs, hw, rfl, hend⟩ := Binary64.Numeral.written_of_unsigned hn hs
      exact ⟨_, hcs, .number hw, hend⟩
    · contradiction
  · contradiction

/-- What was read as a token spells it, and the digits of a number do not go on. -/
theorem spells_of_read (h : read? cs = some (t, rest)) :
    ∃ s, cs = s ++ rest ∧ Spells s t ∧ t.StopsBefore rest := by
  unfold read? at h
  split at h
  case h_10 cs =>
    split at h
    · rename_i units r hs
      cases h
      obtain ⟨body, us, rfl, hb, rfl⟩ := content_of_scan hs
      exact ⟨_, by simp, .string hb, trivial⟩
    · contradiction
  case h_11 cs =>
    obtain ⟨s, rfl, hs⟩ := spells_of_number h
    exact ⟨_, rfl, hs⟩
  case h_12 =>
    obtain ⟨s, rfl, hs⟩ := spells_of_number h
    exact ⟨_, rfl, hs⟩
  all_goals
    cases h
    exact spells_of_fixed (by simp [fixedTexts])

end SchemaHistory.Json.Token
