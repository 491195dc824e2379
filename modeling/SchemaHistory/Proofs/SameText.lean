import SchemaHistory.Proofs.Layout

namespace SchemaHistory

/-- What the text of a definition tells comparisons: the word it starts with, the name, and the
members and values with the texts of their types. A value has none. -/
structure Sdl.Outline where
  keyword : List Char
  name : List Char
  members : List (List Char × List Char)

namespace Sdl

def lastWord (cs : List Char) : List Char :=
  (cs.reverse.takeWhile (· != ' ')).reverse

/-- The text of a type in what stands behind a name. If it does not follow the name at once, there
are arguments, and it is at the end of the line. -/
def readType : List Char → List Char
  | ':' :: ' ' :: rest => rest.takeWhile (· != ' ')
  | rest => lastWord rest

def readMember (line : List Char) : List Char × List Char :=
  let text := line.drop margin.length
  (text.takeWhile isNameChar, readType (text.dropWhile isNameChar))

def readSection : List (List Char) → Outline
  | [] => ⟨[], [], []⟩
  | header :: below =>
    ⟨header.takeWhile isNameChar,
      ((header.dropWhile isNameChar).drop 1).takeWhile isNameChar,
      below.dropLast.map readMember⟩

/-- The outlines of the definitions in schema text that shows nothing beside them. The section that
names the root types is none of them. -/
def outlines (text : List Char) : List Outline :=
  ((layout text).map readSection).filter fun o => o.keyword != "schema".toList

theorem last_word_append (cs : List Char) {word : List Char} (h : ' ' ∉ word) :
    lastWord (cs ++ ' ' :: word) = word := by
  have hw : ∀ c ∈ word.reverse, (c != ' ') = true := by
    intro c hc
    rw [bne_iff_ne]
    rintro rfl
    exact h (List.mem_reverse.mp hc)
  have hr : ∀ c ∈ (' ' :: cs.reverse).head?, (c != ' ') = false := by
    rintro c ⟨⟩
    rfl
  rw [lastWord, List.reverse_append, List.reverse_cons, List.append_assoc, List.singleton_append,
    (span_append hw hr).1, List.reverse_reverse]

theorem read_member {name : String} (h : IsName name) {rest : List Char}
    (hr : ∀ c ∈ rest.head?, isNameChar c = false) :
    readMember ((margin ++ name).toList ++ rest) = (name.toList, readType rest) := by
  obtain ⟨htake, hdrop⟩ := span_append h.chars hr
  have hmargin : ((margin ++ name).toList ++ rest).drop margin.length = name.toList ++ rest := by
    rw [String.toList_append, List.append_assoc, ← String.length_toList, List.drop_left]
  rw [readMember, hmargin, htake, hdrop]

/-- A type that follows a name at once ends at a blank, or at the end of the line. -/
theorem read_type {type rest : List Char} (ht : ' ' ∉ type) (hr : ∀ c ∈ rest.head?, c = ' ') :
    readType (':' :: ' ' :: (type ++ rest)) = type := by
  have htype : ∀ c ∈ type, (c != ' ') = true := by
    intro c hc
    rw [bne_iff_ne]
    rintro rfl
    exact ht hc
  have hrest : ∀ c ∈ rest.head?, (c != ' ') = false := by
    intro c hc
    rw [hr c hc]
    rfl
  exact (span_append htype hrest).1

end Sdl

open Sdl

theorem Argument.read_line {a : Argument} (h : a.Named) :
    readMember (TypeDef.inputLine .bare a).toList = (a.name.toList, a.type.text.toList) := by
  have htype : ' ' ∉ a.type.text.toList := TypeRef.text_clear h.type (by decide)
  have hcolon : ∀ rest, ∀ c ∈ (':' :: rest).head?, isNameChar c = false := by
    rintro rest c ⟨⟩
    decide
  rw [TypeDef.inputLine, description_hidden, String.empty_append, sdl]
  split
  · have hline : (margin ++ (a.name ++ ": " ++ a.type.text)).toList
        = (margin ++ a.name).toList ++ ':' :: ' ' :: (a.type.text.toList ++ []) := by
      simp
    rw [hline, read_member h.name (hcolon _), read_type htype (by simp)]
  · rename_i value _
    have hline : (margin ++ (a.name ++ ": " ++ a.type.text ++ " = " ++ value)).toList
        = (margin ++ a.name).toList
          ++ ':' :: ' ' :: (a.type.text.toList ++ ' ' :: '=' :: ' ' :: value.toList) := by
      simp
    rw [hline, read_member h.name (hcolon _), read_type htype]
    rintro c ⟨⟩
    rfl

theorem Field.read_line {f : Field} (h : f.Named) :
    readMember (TypeDef.fieldLine .bare f).toList = (f.name.toList, f.type.text.toList) := by
  have htype : ' ' ∉ f.type.text.toList := TypeRef.text_clear h.type (by decide)
  rw [TypeDef.fieldLine, description_hidden, String.empty_append, sdl, deprecation_hidden,
    String.append_empty]
  split
  · have hline : (margin ++ (f.name ++ "" ++ ": " ++ f.type.text)).toList
        = (margin ++ f.name).toList ++ ':' :: ' ' :: (f.type.text.toList ++ []) := by
      simp
    rw [hline, read_member h.name, read_type htype (by simp)]
    rintro c ⟨⟩
    decide
  · have hline (args : String) :
        (margin ++ (f.name ++ ("(" ++ args ++ ")") ++ ": " ++ f.type.text)).toList
        = (margin ++ f.name).toList
          ++ '(' :: (args.toList ++ [')', ':'] ++ ' ' :: f.type.text.toList) := by
      simp
    rw [hline, read_member h.name, readType, ← List.cons_append, last_word_append _ htype]
    · intro rest he
      exact absurd (List.cons.inj he).1 (by decide)
    · rintro c ⟨⟩
      decide

theorem EnumValue.read_line {v : EnumValue} (h : IsName v.name) :
    readMember (TypeDef.valueLine .bare v).toList = (v.name.toList, []) := by
  have hline : (margin ++ v.name).toList = (margin ++ v.name).toList ++ [] := by
    rw [List.append_nil]
  rw [TypeDef.valueLine, description_hidden, String.empty_append, deprecation_hidden,
    String.append_empty, hline, read_member h (by simp)]
  rfl

namespace TypeDef

/-- The names of the members of a definition with the texts of their types, then its values. -/
def entries (t : TypeDef) : List (List Char × List Char) :=
  t.members.map (fun m => (m.name.toList, m.type.text.toList)) ++ t.values.map (·.toList, [])

def outline (t : TypeDef) : Outline :=
  ⟨t.kind.keyword.toList, t.name.toList, t.entries⟩

variable {s t : TypeDef}

theorem read_below (h : t.Named) :
    ((t.body.below.map String.toList).dropLast).map readMember = t.entries := by
  have hclosed {α : Type} {members : List α} {line : α → String} {entry : α → List Char × List Char}
      (hm : ∀ m ∈ members, readMember (line m).toList = entry m) :
      (((members.map line ++ ["\x7d"]).map String.toList).dropLast).map readMember
        = members.map entry := by
    rw [List.map_append, List.map_singleton, List.dropLast_concat, List.map_map, List.map_map]
    exact List.map_congr_left hm
  obtain ⟨name, description, body⟩ := t
  have hfields := h.fields
  have hinputs := h.inputs
  have hvalues := h.values
  cases body with
  | object interfaces fields =>
    refine (hclosed fun f hf => Field.read_line (hfields f hf)).trans ?_
    simp [entries, members, values, TypeDef.fields, Field.member, Function.comp_def]
  | interface fields =>
    refine (hclosed fun f hf => Field.read_line (hfields f hf)).trans ?_
    simp [entries, members, values, TypeDef.fields, Field.member, Function.comp_def]
  | inputObject fields =>
    refine (hclosed fun a ha => Argument.read_line (hinputs a ha)).trans ?_
    simp [entries, members, values, TypeDef.inputs, Argument.member, Function.comp_def]
  | enum vs =>
    refine (hclosed fun v hv => EnumValue.read_line
      (hvalues v.name (List.mem_map_of_mem hv))).trans ?_
    simp [entries, members, values]
  | union members => rfl
  | scalar => rfl

theorem clause_ends_name (t : TypeDef) :
    ∀ c ∈ t.body.clause.toList.head?, isNameChar c = false := by
  obtain ⟨name, description, body⟩ := t
  cases body with
  | object interfaces fields => cases interfaces <;> simp [TypeBody.clause] <;> decide
  | union members =>
    cases members
    · simp [TypeBody.clause]
    · simp [TypeBody.clause]
      decide
  | scalar => simp [TypeBody.clause]
  | _ =>
    simp [TypeBody.clause]
    decide

/-- The outline of a definition can be read from its text. -/
theorem read_lines (h : t.Named) : readSection t.lines = t.outline := by
  have hkeyword := span_append t.kind.keyword_name.chars
    (show ∀ c ∈ (' ' :: (t.name.toList ++ t.body.clause.toList)).head?, isNameChar c = false by
      rintro c ⟨⟩
      decide)
  have hheader : t.header.toList
      = t.kind.keyword.toList ++ ' ' :: (t.name.toList ++ t.body.clause.toList) := by
    simp [header]
  rw [lines, readSection, hheader, hkeyword.1, hkeyword.2, List.drop_one, List.tail_cons,
    (span_append h.name.chars t.clause_ends_name).1, read_below h, outline]

theorem Named.members (h : t.Named) :
    ∀ m ∈ t.members, IsName m.name ∧ IsName m.type.baseName := by
  intro m hm
  rw [members_split] at hm
  rcases List.mem_append.mp hm with hm | hm
  · obtain ⟨f, hf, rfl⟩ := List.mem_map.mp hm
    exact ⟨(h.fields f hf).name, (h.fields f hf).type⟩
  · obtain ⟨a, ha, rfl⟩ := List.mem_map.mp hm
    exact ⟨(h.inputs a ha).name, (h.inputs a ha).type⟩

/-- A member can be told from a value by the text of its type. -/
theorem member_of_entries (hs : s.Named) (h : s.entries = t.entries) :
    ∀ m ∈ s.members, ∃ n ∈ t.members, m.name = n.name ∧ m.type.text = n.type.text := by
  intro m hm
  have hin : (m.name.toList, m.type.text.toList) ∈ t.entries :=
    h ▸ List.mem_append_left _ (List.mem_map.mpr ⟨m, hm, rfl⟩)
  rcases List.mem_append.mp hin with hin | hin
  · obtain ⟨n, hn, he⟩ := List.mem_map.mp hin
    obtain ⟨hname, htype⟩ := Prod.mk.inj he
    exact ⟨n, hn, String.toList_injective hname.symm, String.toList_injective htype.symm⟩
  · obtain ⟨v, _, he⟩ := List.mem_map.mp hin
    exact absurd (Prod.mk.inj he).2.symm (TypeRef.text_nonempty (hs.members m hm).2)

theorem value_of_entries (ht : t.Named) (h : s.entries = t.entries) :
    ∀ v ∈ s.values, v ∈ t.values := by
  intro v hv
  have hin : (v.toList, []) ∈ t.entries :=
    h ▸ List.mem_append_right _ (List.mem_map.mpr ⟨v, hv, rfl⟩)
  rcases List.mem_append.mp hin with hin | hin
  · obtain ⟨n, hn, he⟩ := List.mem_map.mp hin
    exact absurd (Prod.mk.inj he).2 (TypeRef.text_nonempty (ht.members n hn).2)
  · obtain ⟨w, hw, he⟩ := List.mem_map.mp hin
    exact String.toList_injective (Prod.mk.inj he).1 ▸ hw

/-- Definitions with one outline have one name and are the same to comparisons. -/
theorem alike_of_outline (hs : s.Named) (ht : t.Named) (h : s.outline = t.outline) :
    s.name = t.name ∧ s.Alike t := by
  obtain ⟨hk, hn, he⟩ := Outline.mk.inj h
  refine ⟨String.toList_injective hn, TypeKind.keyword_injective (String.toList_injective hk),
    member_of_entries hs he, fun n hn => ?_, fun v => ⟨value_of_entries ht he v,
      value_of_entries hs he.symm v⟩⟩
  obtain ⟨m, hm, hname, htype⟩ := member_of_entries ht he.symm n hn
  exact ⟨m, hm, hname.symm, htype.symm⟩

theorem alike_of_scalar (hs : s.kind = .scalar) (ht : t.kind = .scalar) : s.Alike t := by
  obtain ⟨_, _, body⟩ := s
  obtain ⟨_, _, other⟩ := t
  cases body <;> cases hs
  cases other <;> cases ht
  exact ⟨rfl, nofun, nofun, fun v => Iff.rfl⟩

end TypeDef

theorem TypeKind.keyword_not_schema (k : TypeKind) :
    (k.keyword.toList != "schema".toList) = true := by
  cases k <;> decide

namespace Model

/-- The section that names the root types, as its lines. It is there if one of them has an unusual
name. -/
def schemaLines (m : Model) : List (List (List Char)) :=
  if m.roots.any fun (_, name, usual) => name != usual then
    [("schema".toList ++ [' ', '{']) :: ((m.roots.map fun (operation, name, _) =>
      margin ++ operation ++ ": " ++ name).map String.toList ++ [['}']])]
  else []

def sections (m : Model) : List (List (List Char)) :=
  m.schemaLines ++ (m.types.filter isWritten).map TypeDef.lines

theorem schema_block_lines (m : Model) :
    m.schemaBlock.map String.toList = m.schemaLines.map stack := by
  unfold schemaBlock schemaLines
  split
  · rw [List.map_singleton, List.map_singleton, block_chars]
  · rfl

theorem sdl_sections (m : Model) :
    (m.sdl .bare).toList = ['\n', '\n'].intercalate (m.sections.map stack) ++ ['\n'] := by
  have htypes : ((m.types.filter isWritten).map (TypeDef.sdl .bare)).map String.toList
      = ((m.types.filter isWritten).map TypeDef.lines).map stack := by
    rw [List.map_map, List.map_map]
    exact List.map_congr_left fun t _ => t.sdl_lines
  rw [sdl, Sdl.sections, String.toList_append, String.toList_intercalate, List.map_append,
    schema_block_lines, htypes, sections, List.map_append]
  rfl

theorem schema_keyword (m : Model) :
    ∀ s ∈ m.schemaLines, (readSection s).keyword = "schema".toList := by
  intro s hs
  unfold schemaLines at hs
  split at hs
  · rw [List.mem_singleton.mp hs]
    rfl
  · contradiction

variable {r s : Introspection.Schema} {a b m : Model}

theorem schema_section (h : ofSchema s = .ok m) (hn : ∀ t ∈ m.types, t.Named) :
    ∀ lines ∈ m.schemaLines, IsSection lines := by
  intro lines hlines
  unfold schemaLines at hlines
  split at hlines
  · rw [List.mem_singleton.mp hlines]
    refine ⟨List.cons_ne_nil _ _, fun l hl => ?_⟩
    rcases List.mem_cons.mp hl with rfl | hl
    · decide
    · rcases List.mem_append.mp hl with hl | hl
      · obtain ⟨line, hline, rfl⟩ := List.mem_map.mp hl
        obtain ⟨root, hroot, rfl⟩ := List.mem_map.mp hline
        obtain ⟨hop, hname⟩ := root_names h hn root hroot
        exact ⟨by simp [margin],
          ((OneLine.append (by decide) hop.one_line).append (by decide)).append hname.one_line⟩
      · rw [List.mem_singleton.mp hl]
        decide
  · contradiction

/-- The outlines of the definitions in the text of a model are those of the definitions that it
writes. -/
theorem outlines_sdl (h : ofSchema s = .ok m)
    (hm : ∀ t ∈ m.types, t.Named ∧ ∀ value ∈ t.defaults, OneLine value) :
    outlines (m.sdl .bare).toList = (m.types.filter isWritten).map TypeDef.outline := by
  have hsections : ∀ l ∈ m.sections, IsSection l := by
    intro l hl
    rcases List.mem_append.mp hl with hl | hl
    · exact schema_section h (fun t ht => (hm t ht).1) l hl
    · obtain ⟨t, ht, rfl⟩ := List.mem_map.mp hl
      obtain ⟨hnamed, hdefaults⟩ := hm t (List.mem_of_mem_filter ht)
      exact TypeDef.lines_section hnamed hdefaults
  have hne : m.sections ≠ [] := by
    obtain ⟨t, ht, _⟩ := root_written h
    exact List.append_ne_nil_of_right_ne_nil _ (List.ne_nil_of_mem (List.mem_map_of_mem ht))
  have hschema : (m.schemaLines.map readSection).filter (·.keyword != "schema".toList) = [] := by
    refine List.filter_eq_nil_iff.mpr fun o ho => ?_
    obtain ⟨l, hl, rfl⟩ := List.mem_map.mp ho
    simp [m.schema_keyword l hl]
  have htypes : ((m.types.filter isWritten).map TypeDef.lines).map readSection
      = (m.types.filter isWritten).map TypeDef.outline := by
    rw [List.map_map]
    exact List.map_congr_left fun t ht => TypeDef.read_lines (hm t (List.mem_of_mem_filter ht)).1
  rw [outlines, sdl_sections, layout_sections hne hsections, sections, List.map_append,
    List.filter_append, hschema, List.nil_append, htypes]
  refine List.filter_eq_self.mpr fun o ho => ?_
  obtain ⟨t, _, rfl⟩ := List.mem_map.mp ho
  exact t.kind.keyword_not_schema

/-- Of two models with one text, each writes a definition like every one that the other writes. -/
theorem written_matched (ha : ofSchema r = .ok a) (hb : ofSchema s = .ok b)
    (hna : ∀ t ∈ a.types, t.Named ∧ ∀ value ∈ t.defaults, OneLine value)
    (hnb : ∀ t ∈ b.types, t.Named ∧ ∀ value ∈ t.defaults, OneLine value)
    (h : a.sdl .bare = b.sdl .bare) :
    ∀ t ∈ a.types, isWritten t = true → ∃ u ∈ b.types, t.name = u.name ∧ t.Alike u := by
  intro t ht hw
  have he : t.outline ∈ (b.types.filter isWritten).map TypeDef.outline := by
    rw [← outlines_sdl hb hnb, ← h, outlines_sdl ha hna]
    exact List.mem_map_of_mem (List.mem_filter.mpr ⟨ht, hw⟩)
  obtain ⟨u, hu, he⟩ := List.mem_map.mp he
  have hu := List.mem_of_mem_filter hu
  exact ⟨u, hu, TypeDef.alike_of_outline (hna t ht).1 (hnb u hu).1 he.symm⟩

/-- A definition that is not written is a scalar that every schema has. -/
theorem unwritten {t : TypeDef} (h : isWritten t = false) :
    t.kind = .scalar ∧ Scalar.isBuiltIn t.name = true := by
  simpa [isWritten] using h

/-- A definition whose name one of two models with one text lacks is a scalar that every schema
has. -/
theorem unshared_scalar
    (hab : ∀ t ∈ a.types, isWritten t = true → ∃ u ∈ b.types, t.name = u.name ∧ t.Alike u)
    {name : String} (hin : name ∈ a.names) (hno : name ∉ b.names) :
    Scalar.isBuiltIn name = true ∧ ∃ t ∈ a.types, t.name = name ∧ t.kind = .scalar := by
  obtain ⟨t, ht, rfl⟩ := List.mem_map.mp hin
  cases hw : isWritten t with
  | true =>
    obtain ⟨u, hu, hn, _⟩ := hab t ht hw
    exact absurd (List.mem_map.mpr ⟨u, hu, hn.symm⟩) hno
  | false =>
    obtain ⟨hk, hs⟩ := unwritten hw
    exact ⟨hs, t, ht, rfl, hk⟩

theorem shared_alike (ha : a.Built) (hb : b.Built)
    (hab : ∀ t ∈ a.types, isWritten t = true → ∃ u ∈ b.types, t.name = u.name ∧ t.Alike u)
    (hba : ∀ t ∈ b.types, isWritten t = true → ∃ u ∈ a.types, t.name = u.name ∧ t.Alike u)
    {t u : TypeDef} (ht : t ∈ a.types) (hu : u ∈ b.types) (hn : t.name = u.name) : t.Alike u := by
  cases hwt : isWritten t with
  | true =>
    obtain ⟨u', hu', hn', halike⟩ := hab t ht hwt
    obtain rfl := List.inj_on_of_nodup_map hb.names_distinct hu' hu (hn'.symm.trans hn)
    exact halike
  | false =>
    cases hwu : isWritten u with
    | true =>
      obtain ⟨t', ht', hn', halike⟩ := hba u hu hwu
      obtain rfl := List.inj_on_of_nodup_map ha.names_distinct ht' ht (hn'.symm.trans hn.symm)
      exact halike.symm
    | false => exact TypeDef.alike_of_scalar (unwritten hwt).1 (unwritten hwu).1

/-- Two models with one text, of names that schema text allows and with defaults on one line, differ
in nothing that comparisons report but in scalars that every schema has and that only one of the
models defines. -/
theorem same_text_unchanged (ha : ofSchema r = .ok a) (hb : ofSchema s = .ok b)
    (hna : ∀ t ∈ a.types, t.Named ∧ ∀ value ∈ t.defaults, OneLine value)
    (hnb : ∀ t ∈ b.types, t.Named ∧ ∀ value ∈ t.defaults, OneLine value)
    (h : a.sdl .bare = b.sdl .bare) (policy : Policy) :
    ∀ c ∈ a.changes policy b, Scalar.isBuiltIn c.typeName = true ∧
      (c = Change.typeRemoved c.typeName ∧
          (∃ t ∈ a.types, t.name = c.typeName ∧ t.kind = .scalar) ∨
        c = Change.typeAdded c.typeName ∧
          ∃ t ∈ b.types, t.name = c.typeName ∧ t.kind = .scalar) := by
  have hab := written_matched ha hb hna hnb h
  have hba := written_matched hb ha hnb hna h.symm
  have hbuilt := built_of_schema hb
  intro c hc
  rcases (mem_changes hbuilt).mp hc with ⟨name, hin, hno, rfl⟩ | ⟨t, ht, u, hu, hn, hc⟩ |
    ⟨name, hin, hno, rfl⟩
  · obtain ⟨hs, hdef⟩ := unshared_scalar hab hin hno
    exact ⟨hs, .inl ⟨rfl, hdef⟩⟩
  · have halike := shared_alike (built_of_schema ha) hbuilt hab hba ht hu hn
    exact absurd (hc.differs hn) ((TypeDef.alike_iff (hbuilt.types_built u hu)).mp halike _)
  · obtain ⟨hs, hdef⟩ := unshared_scalar hba hin hno
    exact ⟨hs, .inr ⟨rfl, hdef⟩⟩

/-- A query type with one argument, whose default looks like the end of a definition, and other
types beside it. -/
def greeting (others : List Introspection.TypeEntry) : Introspection.Schema :=
  let text : Introspection.RawRef := .ofChain (.last "SCALAR" (some "String"))
  let argument : Introspection.InputValue := ⟨"name", .absent, text, .filled "\"x): y = \x7d\""⟩
  .ofTypes "Query" (⟨"OBJECT", "Query", .absent,
    .filled [⟨"greeting", .absent, .filled [argument], text, .absent, .absent⟩],
    .absent, .absent, .absent, .absent⟩ :: others)

def stringScalar : Introspection.TypeEntry :=
  ⟨"SCALAR", "String", .absent, .absent, .absent, .absent, .absent, .absent⟩

theorem same_text_unchanged_greeting : ∃ a b,
    ofSchema (greeting [stringScalar]) = .ok a ∧ ofSchema (greeting []) = .ok b ∧
    a.sdl .bare = b.sdl .bare ∧ Change.typeRemoved "String" ∈ a.changes .structural b ∧
    ∃ t ∈ a.types, t.name = "String" ∧ t.kind = .scalar := by
  refine ⟨_, _, rfl, rfl, by decide, by decide, ?_⟩
  have h := same_text_unchanged (r := greeting [stringScalar]) (s := greeting []) rfl rfl
    (by decide) (by decide) (by decide) .structural (Change.typeRemoved "String") (by decide)
  exact (h.2.resolve_right fun h => absurd h.1 (by decide)).2

end Model

end SchemaHistory
