import SchemaHistory.Proofs.Layout
import SchemaHistory.Proofs.TextParts

namespace SchemaHistory

namespace Sdl

/-- Where a reader stands among the definitions of schema text. -/
inductive Place where
  /-- Where a definition may start, or one that has its name may go on. -/
  | top
  /-- Where the name of a definition stands, behind the word for its kind. -/
  | named (word : String)
  /-- Where the name of an interface or of a member of a union stands. -/
  | linked
  /-- In the braces of a definition, and so much deeper. -/
  | body (depth : Nat)
  | schema
  | operations
  | operation (name : String)
  | root (operation : String)
  | lost
deriving DecidableEq

/-- What a reader has found: the definitions with the words for their kinds, and the root types of
operations, if the text has a section for them. -/
structure Reading where
  place : Place
  definitions : List (String × String)
  operations : Option (List (String × String))
deriving DecidableEq

def kindWords : List String :=
  TypeKind.all.map TypeKind.keyword

namespace Reading

/-- A token where a definition may start or go on. Which parts of a definition may follow which is
not checked: kinds, names and braces are found all the same. -/
def stepTop : Token → Place
  | .literal => .top
  | .name word =>
    if word = "schema" then .schema
    else if word = "implements" then .linked
    else if word ∈ kindWords then .named word
    else .lost
  | .mark c =>
    if c = '{' then .body 0
    else if c ∈ ['=', '&', '|'] then .linked
    else .lost
  | .number => .lost

def stepBody (depth : Nat) (t : Token) : Place :=
  match level? depth t with
  | some depth => .body depth
  | none => .top

def step (r : Reading) (t : Token) : Reading :=
  match r.place, t with
  | .top, t => { r with place := stepTop t }
  | .named word, .name name =>
    { r with place := .top, definitions := r.definitions ++ [(word, name)] }
  | .linked, .name _ => { r with place := .top }
  | .linked, .mark c => { r with place := if c ∈ ['&', '|'] then .linked else .lost }
  | .body depth, t => { r with place := stepBody depth t }
  | .schema, .mark '{' => { r with place := .operations, operations := some (r.operations.getD []) }
  | .operations, .name operation => { r with place := .operation operation }
  | .operations, .mark '}' => { r with place := .top }
  | .operation name, .mark ':' => { r with place := .root name }
  | .root operation, .name name =>
    { r with place := .operations, operations := r.operations.map (· ++ [(operation, name)]) }
  | _, _ => { r with place := .lost }

def run (r : Reading) (ts : List Token) : Reading :=
  ts.foldl step r

/-- Reading a text goes from one place to another. -/
def Reaches (r : Reading) (text : String) (s : Reading) : Prop :=
  ∃ ts, tokens? text = some ts ∧ r.run ts = s

variable {r s t : Reading} {a b sep : String}

theorem run_append (r : Reading) (ts us : List Token) : r.run (ts ++ us) = (r.run ts).run us :=
  List.foldl_append

theorem Reaches.join {behind : Reading} (hs : IsSeparator sep) (ha : r.Reaches a s)
    (hsep : s.run (Scan.markTokens sep.toList) = behind) (hb : behind.Reaches b t) :
    r.Reaches (a ++ sep ++ b) t := by
  obtain ⟨ts, hts, rfl⟩ := ha
  obtain ⟨us, hus, rfl⟩ := hb
  exact ⟨_, tokens_join hs hts hus, by rw [run_append, run_append, hsep]⟩

/-- Texts that each add an entry, with separators between them. -/
theorem reaches_joined {α β : Type} (place : List β → Reading) {text : α → String} {entry : α → β}
    (hs : IsSeparator sep) (hsep : ∀ es, (place es).run (Scan.markTokens sep.toList) = place es)
    {xs : List α} (h : ∀ x ∈ xs, ∀ es, (place es).Reaches (text x) (place (es ++ [entry x])))
    (es : List β) :
    (place es).Reaches (String.intercalate sep (xs.map text)) (place (es ++ xs.map entry)) := by
  induction xs generalizing es with
  | nil =>
    rw [List.map_nil, List.map_nil, String.intercalate_nil, List.append_nil]
    exact ⟨[], rfl, rfl⟩
  | cons x xs ih =>
    obtain ⟨hx, hxs⟩ := List.forall_mem_cons.mp h
    by_cases hne : xs = []
    · rw [hne, List.map_singleton, List.map_singleton, String.intercalate_singleton]
      exact hx es
    · have hrest := ih hxs (es ++ [entry x])
      rw [List.append_assoc] at hrest
      rw [List.map_cons, String.intercalate_cons_of_ne_nil (List.map_eq_nil_iff.not.mpr hne)]
      exact (hx es).join hs (hsep _) hrest

theorem reaches_name {name : String} (h : IsName name) : r.Reaches name (r.step (.name name)) :=
  ⟨_, tokens_name h, rfl⟩

theorem reaches_end (r : Reading) : r.Reaches "" r :=
  ⟨[], rfl, rfl⟩

variable {ds : List (String × String)} {ops : Option (List (String × String))}

theorem run_body {depth deeper : Nat} {ts : List Token} (h : levels? depth ts = some deeper) :
    run ⟨.body depth, ds, ops⟩ ts = ⟨.body deeper, ds, ops⟩ := by
  induction ts generalizing depth with
  | nil =>
    obtain rfl := Option.some.inj h
    rfl
  | cons t ts ih =>
    obtain ⟨next, hnext, hrest⟩ := Option.bind_eq_some_iff.mp h
    have hstep : step ⟨.body depth, ds, ops⟩ t = ⟨stepBody depth t, ds, ops⟩ := rfl
    have hbody : stepBody depth t = .body next := by
      unfold stepBody
      rw [hnext]
    rw [run, List.foldl_cons, hstep, hbody]
    exact ih hrest

/-- A text that closes its own braces does not end the braces that it stands in. -/
theorem reaches_enclosed (h : Enclosed a) : Reaches ⟨.body 0, ds, ops⟩ a ⟨.body 0, ds, ops⟩ := by
  obtain ⟨ts, hts, hlevels⟩ := enclosed_iff.mp h
  exact ⟨ts, hts, run_body hlevels⟩

/-- The braces behind the head of a definition. -/
theorem Reaches.block {header : String} (h : r.Reaches header ⟨.top, ds, ops⟩)
    {members : List String} (hm : ∀ m ∈ members, Enclosed m) :
    r.Reaches (block header members) ⟨.top, ds, ops⟩ := by
  cases members with
  | nil =>
    have hopen : r.Reaches (header ++ " \x7b\n" ++ "") ⟨.body 0, ds, ops⟩ :=
      h.join (by decide) rfl (reaches_end _)
    have hblock : r.Reaches (header ++ " \x7b\n" ++ "" ++ "\x7d" ++ "") ⟨.top, ds, ops⟩ :=
      hopen.join (by decide) rfl (reaches_end _)
    simpa [Sdl.block, String.append_assoc] using hblock
  | cons m ms =>
    have hbody : r.Reaches (header ++ " \x7b\n" ++ String.intercalate "\n" (m :: ms))
        ⟨.body 0, ds, ops⟩ :=
      h.join (by decide) rfl (reaches_enclosed (Enclosed.joined (by decide) hm))
    have hblock : r.Reaches (header ++ " \x7b\n" ++ String.intercalate "\n" (m :: ms)
        ++ "\n\x7d" ++ "") ⟨.top, ds, ops⟩ :=
      hbody.join (by decide) rfl (reaches_end _)
    simpa [Sdl.block, String.append_assoc] using hblock

/-- Names with marks between them that stand before one more. -/
theorem reaches_links (hs : IsSeparator sep)
    (hsep : run ⟨.top, ds, ops⟩ (Scan.markTokens sep.toList) = ⟨.linked, ds, ops⟩)
    {links : List String} (hne : links ≠ []) (h : ∀ n ∈ links, IsName n) :
    Reaches ⟨.linked, ds, ops⟩ (String.intercalate sep links) ⟨.top, ds, ops⟩ := by
  induction links with
  | nil => contradiction
  | cons n ns ih =>
    obtain ⟨hn, hns⟩ := List.forall_mem_cons.mp h
    cases ns with
    | nil =>
      rw [String.intercalate_singleton]
      exact reaches_name hn
    | cons m ms =>
      rw [String.intercalate_cons_of_ne_nil (List.cons_ne_nil _ _)]
      exact (reaches_name hn).join hs hsep (ih (List.cons_ne_nil _ _) hns)

theorem Reaches.interfaces {header : String} (h : r.Reaches header ⟨.top, ds, ops⟩)
    {links : List String} (hn : ∀ n ∈ links, IsName n) :
    r.Reaches (if links.isEmpty then header
      else header ++ " implements " ++ String.intercalate " & " links) ⟨.top, ds, ops⟩ := by
  split
  · exact h
  · rename_i hne
    have hword : r.Reaches (header ++ " " ++ "implements") ⟨.linked, ds, ops⟩ :=
      h.join (by decide) rfl (reaches_name (by decide))
    have hlinks : Reaches ⟨.linked, ds, ops⟩ (String.intercalate " & " links) ⟨.top, ds, ops⟩ :=
      reaches_links (by decide) rfl (by simpa using hne) hn
    have htext : r.Reaches (header ++ " " ++ "implements" ++ " " ++ String.intercalate " & " links)
        ⟨.top, ds, ops⟩ :=
      hword.join (by decide) rfl hlinks
    simpa [String.append_assoc] using htext

theorem Reaches.members {header : String} (h : r.Reaches header ⟨.top, ds, ops⟩)
    {links : List String} (hn : ∀ n ∈ links, IsName n) :
    r.Reaches (if links.isEmpty then header
      else header ++ " = " ++ String.intercalate " | " links) ⟨.top, ds, ops⟩ := by
  split
  · exact h
  · rename_i hne
    exact h.join (by decide) rfl (reaches_links (by decide) rfl (by simpa using hne) hn)

end Reading

end Sdl

open Sdl

namespace TypeDef

open Reading

variable {t : TypeDef} {ds : List (String × String)} {ops : Option (List (String × String))}

/-- What a reader finds of a definition. -/
def found (t : TypeDef) : String × String :=
  (t.kind.keyword, t.name)

/-- The word and the name that a definition starts with. -/
theorem reaches_head (kind : TypeKind) {word name : String} (hw : kind.keyword ++ " " = word)
    (h : IsName name) :
    Reaches ⟨.top, ds, ops⟩ (word ++ name) ⟨.top, ds ++ [(kind.keyword, name)], ops⟩ := by
  have hword : step ⟨.top, ds, ops⟩ (.name kind.keyword) = ⟨.named kind.keyword, ds, ops⟩ := by
    cases kind <;> rfl
  rw [← hw]
  exact (hword ▸ reaches_name kind.keyword_name).join (by decide) rfl (reaches_name h)

theorem field_enclosed {f : Field} (h : Enclosed (f.sdl .bare)) (options : Options) :
    Enclosed (fieldLine options f) := by
  have hplain : f.sdl options
      = f.sdl .bare ++ deprecationText options f.isDeprecated f.deprecationReason := by
    rw [Field.sdl, Field.sdl, deprecation_hidden, String.append_empty]
  rw [fieldLine, hplain]
  exact (deprecation_enclosed h options _ _).described _ _

theorem value_enclosed {v : EnumValue} (h : IsName v.name) (options : Options) :
    Enclosed (valueLine options v) := by
  rw [valueLine, String.append_assoc]
  exact Enclosed.described (deprecation_enclosed h.enclosed options _ _) _ _

theorem reaches_body (h : t.Named) (hd : ∀ value ∈ t.defaults, Enclosed value) (options : Options) :
    Reaches ⟨.top, ds, ops⟩ (t.bodySdl options) ⟨.top, ds ++ [t.found], ops⟩ := by
  have hfields : ∀ f ∈ t.fields, Enclosed (fieldLine options f) := fun f hf =>
    field_enclosed (fields_kept enclosed_kept h hd f hf) options
  have hinputs : ∀ a ∈ t.inputs, Enclosed (inputLine options a) := fun a ha =>
    (inputs_kept enclosed_kept h hd a ha).described _ _
  have hvalues := h.values
  have hlinks := h.links
  have hname := h.name
  obtain ⟨name, description, body⟩ := t
  cases body with
  | object interfaces fields =>
    have hhead : Reaches ⟨.top, ds, ops⟩ ("type " ++ name) _ := reaches_head .object rfl hname
    exact (hhead.interfaces hlinks).block (List.forall_mem_map.mpr hfields)
  | interface fields =>
    have hhead : Reaches ⟨.top, ds, ops⟩ ("interface " ++ name) _ :=
      reaches_head .interface rfl hname
    exact hhead.block (List.forall_mem_map.mpr hfields)
  | inputObject fields =>
    have hhead : Reaches ⟨.top, ds, ops⟩ ("input " ++ name) _ := reaches_head .inputObject rfl hname
    exact hhead.block (List.forall_mem_map.mpr hinputs)
  | enum values =>
    have hhead : Reaches ⟨.top, ds, ops⟩ ("enum " ++ name) _ := reaches_head .enum rfl hname
    refine hhead.block (List.forall_mem_map.mpr fun v hv => ?_)
    exact value_enclosed (hvalues v.name (List.mem_map_of_mem hv)) options
  | union members =>
    have hhead : Reaches ⟨.top, ds, ops⟩ ("union " ++ name) _ := reaches_head .union rfl hname
    exact hhead.members hlinks
  | scalar => exact reaches_head .scalar rfl hname

/-- A definition with its description is read, whatever the description says. -/
theorem reaches_sdl (h : t.Named) (hd : ∀ value ∈ t.defaults, Enclosed value) (options : Options) :
    Reaches ⟨.top, ds, ops⟩ (t.sdl options) ⟨.top, ds ++ [t.found], ops⟩ := by
  have hm : ∀ c ∈ "".toList, c = ' ' := by simp
  obtain ⟨ts, hts, hrun⟩ := description_tokens options.descriptions hm t.description
  obtain ⟨us, hus, hbody⟩ := @reaches_body t ds ops h hd options
  refine ⟨_, tokens_after hrun hus, ?_⟩
  rw [run_append, ← hbody]
  rcases hts with rfl | rfl <;> rfl

end TypeDef

end SchemaHistory
