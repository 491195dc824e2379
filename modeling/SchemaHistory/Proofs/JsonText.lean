import Mathlib.Data.List.Forall2
import SchemaHistory.Json.Reader
import SchemaHistory.Proofs.NumberText
import SchemaHistory.Proofs.StringText

namespace SchemaHistory.Json

open Binary64 (NumberEnd)

mutual

/-- The tokens of the text of a value. -/
def tokens : Json → List Token
  | null => [.null]
  | bool b => [.bool b]
  | number (.finite u fits) => [.number (.finite u fits)]
  | number _ => [.null]
  | string s => [.string s]
  | array items => .openArray :: ([.comma].intercalate (itemTokens items) ++ [.closeArray])
  | object members => .openObject :: ([.comma].intercalate (memberTokens members) ++ [.closeObject])

def itemTokens : List Json → List (List Token)
  | [] => []
  | v :: vs => tokens v :: itemTokens vs

def memberTokens : List (String × Json) → List (List Token)
  | [] => []
  | (name, v) :: members => (.string name :: .colon :: tokens v) :: memberTokens members

end

namespace Token

theorem read_space {c : Char} (hc : isSpace c = true) (cs : List Char) :
    read? (c :: cs) = none := by
  simp only [isSpace, Bool.or_eq_true, beq_iff_eq] at hc
  rcases hc with ((rfl | rfl) | rfl) | rfl <;> rfl

theorem scan_unfold (seen : List Token) (cs : List Char) :
    scan seen cs = match cs.dropWhile isSpace with
      | [] => some seen.reverse
      | c :: cs' => (read? (c :: cs')).bind fun r => scan (r.1 :: seen) r.2 := by
  rw [scan]
  split
  · rename_i h
    rw [h]
  · rename_i h
    rw [h]
    split
    · rename_i hr
      simp only [hr, Option.bind_none]
    · rename_i hr
      simp only [hr, Option.bind_some]

theorem scan_nil (seen : List Token) : scan seen [] = some seen.reverse :=
  scan_unfold seen []

theorem scan_space {c : Char} (hc : isSpace c = true) (seen : List Token) (cs : List Char) :
    scan seen (c :: cs) = scan seen cs := by
  rw [scan_unfold, scan_unfold, List.dropWhile_cons_of_pos hc]

theorem scan_spaces (k : Nat) (seen : List Token) (cs : List Char) :
    scan seen (List.replicate k ' ' ++ cs) = scan seen cs := by
  induction k with
  | zero => rfl
  | succ k ih => rw [List.replicate_succ, List.cons_append, scan_space rfl, ih]

theorem scan_token {t : Token} {cs rest : List Char} (h : read? cs = some (t, rest))
    (seen : List Token) : scan seen cs = scan (t :: seen) rest := by
  cases cs with
  | nil => contradiction
  | cons c cs =>
    have hc : ¬isSpace c = true := by
      intro hs
      rw [read_space hs] at h
      contradiction
    rw [scan_unfold, List.dropWhile_cons_of_neg hc]
    simp only [h, Option.bind_some]

end Token

/-- A text is read as a list of tokens, whatever follows that goes on with no number. -/
def Reads (text : String) (ts : List Token) : Prop :=
  ∀ seen rest, NumberEnd rest →
    Token.scan seen (text.toList ++ rest) = Token.scan (ts.reverse ++ seen) rest

theorem number_end_of_head {c : Char} {cs : List Char}
    (h : c.isDigit = false ∧ c ≠ '.' ∧ c ≠ 'e' ∧ c ≠ 'E') : NumberEnd (c :: cs) := by
  intro d hd
  cases hd
  exact h

theorem reads_token {text : String} {t : Token}
    (h : ∀ rest, Token.read? (text.toList ++ rest) = some (t, rest)) : Reads text [t] :=
  fun seen rest _ => Token.scan_token (h rest) seen

theorem reads_number (x : Binary64) : Reads (numberText x) (tokens (.number x)) := by
  have hn : Reads "null" [.null] := reads_token fun _ => rfl
  cases x with
  | nan => exact hn
  | infinite negative => exact hn
  | finite u fits =>
    intro seen rest hr
    exact Token.scan_token (Binary64.token_of_text fits hr) seen

theorem reads_quote (text : String) : Reads (quote text) [.string text] :=
  reads_token (token_of_quote text)

theorem margin_chars (depth : Nat) : (margin depth).toList = List.replicate (2 * depth) ' ' :=
  String.toList_ofList

/-- A text that stands between the items of a container and is read as a comma. -/
structure Separates (sep : String) : Prop where
  comma : ∀ seen rest, Token.scan seen (sep.toList ++ rest) = Token.scan (.comma :: seen) rest
  ends : ∀ rest, NumberEnd (sep.toList ++ rest)

theorem separates_bare : Separates "," where
  comma _ _ := Token.scan_token rfl _
  ends _ := number_end_of_head (by decide)

theorem separates_line (depth : Nat) : Separates (",\n" ++ margin depth) := by
  have hs : ∀ cs : List Char, (",\n" ++ margin depth).toList ++ cs
      = ',' :: '\n' :: (List.replicate (2 * depth) ' ' ++ cs) := by
    simp [margin_chars]
  constructor
  · intro seen rest
    rw [hs, Token.scan_token rfl, Token.scan_space rfl, Token.scan_spaces]
  · intro rest
    rw [hs]
    exact number_end_of_head (by decide)

/-- Where each part is read as one list of tokens, the parts together are read with commas
between. -/
theorem reads_joined {sep : String} (hs : Separates sep) {texts : List String}
    {tss : List (List Token)} (h : List.Forall₂ Reads texts tss) :
    Reads (String.intercalate sep texts) ([.comma].intercalate tss) := by
  induction h with
  | nil => exact fun _ _ _ => rfl
  | cons hl ht ih =>
    rename_i text ts texts tss
    cases ht with
    | nil => simpa using hl
    | cons _ _ =>
      rename_i text' ts' texts tss _ _
      intro seen rest hr
      rw [String.intercalate_cons_cons, List.intercalate_cons_cons, String.toList_append,
        String.toList_append, List.append_assoc, List.append_assoc, hl _ _ (hs.ends _), hs.comma,
        ih _ _ hr]
      simp

/-- A member is read as its name and its value, with or without blanks between. -/
theorem reads_member (name : String) {between text : String} {ts : List Token}
    (hb : ∀ seen rest, Token.scan seen (between.toList ++ rest) = Token.scan (.colon :: seen) rest)
    (h : Reads text ts) : Reads (quote name ++ between ++ text) (.string name :: .colon :: ts) := by
  intro seen rest hr
  rw [String.toList_append, String.toList_append, List.append_assoc, List.append_assoc,
    Token.scan_token (token_of_quote name _), hb, h _ _ hr]
  simp

theorem colon_bare (seen : List Token) (rest : List Char) :
    Token.scan seen (":".toList ++ rest) = Token.scan (.colon :: seen) rest :=
  Token.scan_token rfl seen

theorem colon_spaced (seen : List Token) (rest : List Char) :
    Token.scan seen (": ".toList ++ rest) = Token.scan (.colon :: seen) rest :=
  (Token.scan_token rfl seen).trans (Token.scan_space rfl _ rest)

/-- Brackets around lines are read as their tokens around those of the lines. -/
theorem reads_block {opening closing : String} {o c : Char} {t u : Token} (depth : Nat)
    (ho : opening.toList = [o]) (hc : closing.toList = [c])
    (ht : ∀ rest, Token.read? (o :: rest) = some (t, rest))
    (hu : ∀ rest, Token.read? (c :: rest) = some (u, rest))
    {lines : List String} {tss : List (List Token)} (h : List.Forall₂ Reads lines tss) :
    Reads (block depth opening closing lines) (t :: ([.comma].intercalate tss ++ [u])) := by
  intro seen rest hr
  unfold block
  split
  · cases h
    rw [String.toList_append, ho, hc, List.singleton_append, List.cons_append,
      Token.scan_token (ht _), List.singleton_append, Token.scan_token (hu _)]
    rfl
  · have hn : NumberEnd ('\n' :: (List.replicate (2 * depth) ' ' ++ c :: rest)) :=
      number_end_of_head (by decide)
    have hw : (opening ++ "\n" ++ margin (depth + 1)
          ++ String.intercalate (",\n" ++ margin (depth + 1)) lines
          ++ "\n" ++ margin depth ++ closing).toList ++ rest
        = o :: '\n' :: (List.replicate (2 * (depth + 1)) ' '
          ++ ((String.intercalate (",\n" ++ margin (depth + 1)) lines).toList
            ++ '\n' :: (List.replicate (2 * depth) ' ' ++ c :: rest))) := by
      simp [ho, hc, margin_chars]
    rw [hw, Token.scan_token (ht _), Token.scan_space rfl, Token.scan_spaces,
      reads_joined (separates_line _) h _ _ hn, Token.scan_space rfl, Token.scan_spaces,
      Token.scan_token (hu _)]
    simp

mutual

/-- The text of a value is read as its tokens. -/
theorem reads_value (depth : Nat) : (v : Json) → Reads (prettyAt depth v) v.tokens
  | null => (reads_token fun _ => rfl : Reads "null" _)
  | bool true => (reads_token fun _ => rfl : Reads "true" _)
  | bool false => (reads_token fun _ => rfl : Reads "false" _)
  | number x => reads_number x
  | string s => reads_quote s
  | array items => reads_block depth rfl rfl (fun _ => rfl) (fun _ => rfl) (reads_items _ items)
  | object members =>
    reads_block depth rfl rfl (fun _ => rfl) (fun _ => rfl) (reads_members _ members)

theorem reads_items (depth : Nat) : (vs : List Json) →
    List.Forall₂ Reads (prettyItems depth vs) (itemTokens vs)
  | [] => .nil
  | v :: vs => .cons (reads_value depth v) (reads_items depth vs)

theorem reads_members (depth : Nat) : (members : List (String × Json)) →
    List.Forall₂ Reads (prettyMembers depth members) (memberTokens members)
  | [] => .nil
  | (name, v) :: members =>
    .cons (reads_member name colon_spaced (reads_value depth v)) (reads_members depth members)

end

/-- Brackets right around parts that bare commas part. -/
theorem reads_enclosed {opening closing : String} {o c : Char} {t u : Token}
    (ho : opening.toList = [o]) (hc : closing.toList = [c])
    (ht : ∀ rest, Token.read? (o :: rest) = some (t, rest))
    (hu : ∀ rest, Token.read? (c :: rest) = some (u, rest)) (he : ∀ rest, NumberEnd (c :: rest))
    {texts : List String} {tss : List (List Token)} (h : List.Forall₂ Reads texts tss) :
    Reads (opening ++ String.intercalate "," texts ++ closing)
      (t :: ([.comma].intercalate tss ++ [u])) := by
  intro seen rest _
  rw [String.toList_append, String.toList_append, ho, hc, List.append_assoc, List.append_assoc,
    List.singleton_append, List.singleton_append, Token.scan_token (ht _),
    reads_joined separates_bare h _ _ (he _), Token.scan_token (hu _)]
  simp

mutual

/-- The text of a value on one line is read as the same tokens. -/
theorem reads_compact : (v : Json) → Reads (compact v) v.tokens
  | null => (reads_token fun _ => rfl : Reads "null" _)
  | bool true => (reads_token fun _ => rfl : Reads "true" _)
  | bool false => (reads_token fun _ => rfl : Reads "false" _)
  | number x => reads_number x
  | string s => reads_quote s
  | array items =>
    reads_enclosed rfl rfl (fun _ => rfl) (fun _ => rfl)
      (fun _ => number_end_of_head (by decide)) (reads_compact_items items)
  | object members =>
    reads_enclosed rfl rfl (fun _ => rfl) (fun _ => rfl)
      (fun _ => number_end_of_head (by decide)) (reads_compact_members members)

theorem reads_compact_items : (vs : List Json) →
    List.Forall₂ Reads (compactItems vs) (itemTokens vs)
  | [] => .nil
  | v :: vs => .cons (reads_compact v) (reads_compact_items vs)

theorem reads_compact_members : (members : List (String × Json)) →
    List.Forall₂ Reads (compactMembers members) (memberTokens members)
  | [] => .nil
  | (name, v) :: members =>
    .cons (reads_member name colon_bare (reads_compact v)) (reads_compact_members members)

end

theorem scan_of_reads {text : String} {ts : List Token} (h : Reads text ts) :
    Token.scan [] text.toList = some ts := by
  have h := h [] [] Binary64.number_end_nil
  rw [List.append_nil, List.append_nil, Token.scan_nil, List.reverse_reverse] at h
  exact h

end SchemaHistory.Json
