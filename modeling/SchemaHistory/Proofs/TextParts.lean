import SchemaHistory.Proofs.TextLiterals

namespace SchemaHistory

namespace Sdl

/-- How deep in braces a reader is behind a token, if it is still in the outermost ones. -/
def level? (depth : Nat) : Token → Option Nat
  | .mark '{' => some (depth + 1)
  | .mark '}' => if depth = 0 then none else some (depth - 1)
  | _ => some depth

def levels? (depth : Nat) (ts : List Token) : Option Nat :=
  ts.foldlM level? depth

/-- A text that can stand in a definition: it ends with its last token, and closes the braces that
it opens. -/
def Enclosed (text : String) : Prop :=
  (tokens? text).bind (levels? 0) = some 0

instance (text : String) : Decidable (Enclosed text) :=
  inferInstanceAs (Decidable (_ = _))

theorem levels_append (depth : Nat) (ts us : List Token) :
    levels? depth (ts ++ us) = (levels? depth ts).bind (levels? · us) :=
  List.foldlM_append

theorem enclosed_iff {text : String} :
    Enclosed text ↔ ∃ ts, tokens? text = some ts ∧ levels? 0 ts = some 0 :=
  Option.bind_eq_some_iff

/-- A separator that closes the braces that it opens. -/
def Parts (sep : String) : Prop :=
  IsSeparator sep ∧ levels? 0 (Scan.markTokens sep.toList) = some 0

instance (sep : String) : Decidable (Parts sep) :=
  inferInstanceAs (Decidable (_ ∧ _))

theorem Enclosed.join {a sep b : String} (hs : Parts sep) (ha : Enclosed a) (hb : Enclosed b) :
    Enclosed (a ++ sep ++ b) := by
  obtain ⟨ts, hts, hla⟩ := enclosed_iff.mp ha
  obtain ⟨us, hus, hlb⟩ := enclosed_iff.mp hb
  refine enclosed_iff.mpr ⟨_, tokens_join hs.1 hts hus, ?_⟩
  rw [levels_append, levels_append, hla, Option.bind_some, hs.2, Option.bind_some, hlb]

theorem Enclosed.joined {sep : String} (hs : Parts sep) {texts : List String}
    (h : ∀ t ∈ texts, Enclosed t) : Enclosed (String.intercalate sep texts) := by
  induction texts with
  | nil =>
    rw [String.intercalate_nil]
    decide
  | cons t ts ih =>
    obtain ⟨ht, hts⟩ := List.forall_mem_cons.mp h
    cases ts with
    | nil => rwa [String.intercalate_singleton]
    | cons u us =>
      rw [String.intercalate_cons_of_ne_nil (List.cons_ne_nil _ _)]
      exact ht.join hs (ih hts)

end Sdl

open Sdl

theorem IsName.enclosed {text : String} (h : IsName text) : Enclosed text :=
  enclosed_iff.mpr ⟨_, tokens_name h, rfl⟩

theorem TypeRef.text_enclosed {t : TypeRef} (h : IsName t.baseName) : Enclosed t.text := by
  induction t with
  | named name =>
    have htext : (named name).text = name := by
      rw [text, textBefore, List.append_nil, String.ofList_toList]
    rw [htext]
    exact h.enclosed
  | list t ih =>
    have htext : (list t).text = "" ++ "[" ++ t.text ++ "]" ++ "" := by
      rw [text, textBefore, text_before_append]
      simp [text, String.append_assoc]
    rw [htext]
    exact Enclosed.join (by decide) (Enclosed.join (by decide) (by decide) (ih h)) (by decide)
  | nonNull t ih =>
    have htext : (nonNull t).text = t.text ++ "!" ++ "" := by
      rw [text, textBefore, text_before_append]
      simp [text]
    rw [htext]
    exact Enclosed.join (by decide) (ih h) (by decide)

theorem Sdl.enclosed_kept : Kept Enclosed where
  empty := by decide
  name := IsName.enclosed
  type := TypeRef.text_enclosed
  join := by
    intro sep hs a b ha hb
    have hsep : ∀ sep ∈ [": ", " = ", ", ", "(", ")"], Parts sep := by decide
    exact ha.join (hsep sep hs) hb

theorem Sdl.deprecation_enclosed {text : String} (h : Enclosed text) (options : Options)
    (isDeprecated : Bool) (reason : Option String) :
    Enclosed (text ++ deprecationText options isDeprecated reason) := by
  have hplain : Enclosed (text ++ " @deprecated") := by
    have hjoin : Enclosed (text ++ " @" ++ "deprecated") := h.join (by decide) (by decide)
    rwa [String.append_assoc] at hjoin
  unfold deprecationText
  split
  · split
    · exact hplain
    · rename_i reason
      split
      · exact hplain
      · have hquote : Enclosed (Json.quote reason) := enclosed_iff.mpr ⟨_, tokens_quote reason, rfl⟩
        have hopen : Enclosed (text ++ " @" ++ "deprecated" ++ "(" ++ "reason") :=
          (h.join (by decide) (by decide)).join (by decide) (by decide)
        have hclose : Enclosed (text ++ " @" ++ "deprecated" ++ "(" ++ "reason" ++ ": "
            ++ Json.quote reason ++ ")" ++ "") :=
          (hopen.join (by decide) hquote).join (by decide) (by decide)
        simpa [String.append_assoc, toString] using hclose
  · rwa [String.append_empty]

/-- A description is a literal, or none. -/
theorem Sdl.description_tokens (shown : Bool) {margin : String} (hm : ∀ c ∈ margin.toList, c = ' ')
    (description : Option String) : ∃ ts, (ts = [] ∨ ts = [Token.literal]) ∧
      Scan.between.run (descriptionText shown margin description).toList = (.between, ts) := by
  unfold descriptionText
  split
  · exact ⟨[], .inl rfl, rfl⟩
  · exact ⟨[], .inl rfl, rfl⟩
  · rename_i d hd
    split
    · refine ⟨_, .inr rfl, ?_⟩
      rw [String.toList_ofList]
      refine run_description hm d.toList fun he => hd ?_
      rw [String.toList_eq_nil_iff.mp he]
    · exact ⟨[], .inl rfl, rfl⟩

/-- A member, with its description above it. -/
theorem Sdl.Enclosed.described {text : String} (h : Enclosed text) (shown : Bool)
    (description : Option String) :
    Enclosed (descriptionText shown margin description ++ margin ++ text) := by
  have hm : ∀ c ∈ margin.toList, c = ' ' := by simp [margin]
  obtain ⟨ts, hts, hrun⟩ := description_tokens shown hm description
  obtain ⟨us, hus, hlevel⟩ := enclosed_iff.mp h
  have hindent := Scan.run_trans hrun (run_blanks (.inl rfl) hm)
  rw [← String.toList_append] at hindent
  refine enclosed_iff.mpr ⟨_, tokens_after hindent hus, ?_⟩
  rcases hts with rfl | rfl <;> exact hlevel

end SchemaHistory
