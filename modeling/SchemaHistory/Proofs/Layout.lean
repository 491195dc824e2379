import SchemaHistory.Proofs.Naming

namespace SchemaHistory

theorem intercalate_append {α : Type} {sep : List α} {xs ys : List (List α)} (hx : xs ≠ [])
    (hy : ys ≠ []) :
    sep.intercalate (xs ++ ys) = sep.intercalate xs ++ (sep ++ sep.intercalate ys) := by
  induction xs with
  | nil => contradiction
  | cons x xs ih =>
    cases xs with
    | nil =>
      rw [List.singleton_append, List.intercalate_cons_of_ne_nil hy, List.intercalate_singleton,
        List.append_assoc]
    | cons x' xs =>
      have hne : (x' :: xs) ++ ys ≠ [] := List.cons_ne_nil _ _
      rw [List.cons_append, List.intercalate_cons_of_ne_nil hne, ih (List.cons_ne_nil _ _),
        List.intercalate_cons_cons, List.append_assoc, List.append_assoc, List.append_assoc]

theorem mem_intercalate {α : Type} {sep : List α} {xs : List (List α)} {a : α}
    (h : a ∈ sep.intercalate xs) : a ∈ sep ∨ ∃ x ∈ xs, a ∈ x := by
  induction xs with
  | nil => simp at h
  | cons x xs ih =>
    cases xs with
    | nil =>
      rw [List.intercalate_singleton] at h
      exact .inr ⟨x, List.mem_cons_self, h⟩
    | cons x' xs =>
      rw [List.intercalate_cons_cons, List.append_assoc] at h
      rcases List.mem_append.mp h with h | h
      · exact .inr ⟨x, List.mem_cons_self, h⟩
      · rcases List.mem_append.mp h with h | h
        · exact .inl h
        · rcases ih h with h | ⟨y, hy, h⟩
          · exact .inl h
          · exact .inr ⟨y, List.mem_cons_of_mem _ hy, h⟩

namespace Sdl

/-- Lines, each below the one before. -/
def stack (lines : List (List Char)) : List Char :=
  ['\n'].intercalate lines

/-- The sections of schema text, each as its lines: empty lines stand between them, and a line end
behind the last. -/
def layout (text : List Char) : List (List (List Char)) :=
  (text.splitOn '\n').dropLast.splitOn []

/-- A section has lines, none of them empty. -/
structure IsSection (lines : List (List Char)) : Prop where
  nonempty : lines ≠ []
  lines : ∀ l ∈ lines, l ≠ [] ∧ '\n' ∉ l

theorem sections_stacked {ss : List (List (List Char))} (hs : ss ≠ []) (hne : ∀ s ∈ ss, s ≠ []) :
    ['\n', '\n'].intercalate (ss.map stack) ++ ['\n'] = stack ([[]].intercalate ss ++ [[]]) := by
  induction ss with
  | nil => contradiction
  | cons s ss ih =>
    obtain ⟨hfirst, hrest⟩ := List.forall_mem_cons.mp hne
    cases ss with
    | nil =>
      rw [List.map_singleton, List.intercalate_singleton, List.intercalate_singleton, stack, stack,
        intercalate_append hfirst (List.cons_ne_nil _ _), List.intercalate_singleton]
      simp
    | cons s' ss =>
      have htail : [[]].intercalate (s' :: ss) ++ [[]] ≠ [] :=
        List.append_ne_nil_of_right_ne_nil _ (List.cons_ne_nil _ _)
      have hempty : ([] : List Char) :: ([[]].intercalate (s' :: ss) ++ [[]]) ≠ [] :=
        List.cons_ne_nil _ _
      calc ['\n', '\n'].intercalate ((s :: s' :: ss).map stack) ++ ['\n']
          = stack s ++ ('\n' :: '\n' :: stack ([[]].intercalate (s' :: ss) ++ [[]])) := by
            rw [← ih (List.cons_ne_nil _ _) hrest, List.map_cons, List.map_cons,
              List.intercalate_cons_cons]
            simp
        _ = stack (s ++ [] :: ([[]].intercalate (s' :: ss) ++ [[]])) := by
            rw [stack, stack, stack, intercalate_append hfirst hempty,
              List.intercalate_cons_of_ne_nil htail]
            simp
        _ = stack ([[]].intercalate (s :: s' :: ss) ++ [[]]) := by
            rw [List.intercalate_cons_cons]
            simp

/-- The sections of a text can be read back from it. -/
theorem layout_sections {ss : List (List (List Char))} (hs : ss ≠ []) (h : ∀ s ∈ ss, IsSection s) :
    layout (['\n', '\n'].intercalate (ss.map stack) ++ ['\n']) = ss := by
  have hlines : ∀ l ∈ [[]].intercalate ss ++ [[]], '\n' ∉ l := by
    intro l hl
    rcases List.mem_append.mp hl with hl | hl
    · rcases mem_intercalate hl with hl | ⟨s, hs, hl⟩
      · rw [List.mem_singleton.mp hl]
        exact List.not_mem_nil
      · exact ((h s hs).lines l hl).2
    · rw [List.mem_singleton.mp hl]
      exact List.not_mem_nil
  rw [layout, sections_stacked hs fun s hm => (h s hm).nonempty, stack,
    List.splitOn_intercalate _ hlines (List.append_ne_nil_of_right_ne_nil _ (List.cons_ne_nil _ _)),
    List.dropLast_concat]
  exact List.splitOn_intercalate _ (fun s hm he => ((h s hm).lines [] he).1 rfl) hs

theorem stack_cons {line : List Char} {lines : List (List Char)} (h : lines ≠ []) :
    stack (line :: lines) = line ++ '\n' :: stack lines := by
  rw [stack, List.intercalate_cons_of_ne_nil h, List.append_assoc]
  rfl

theorem block_chars (header : String) (members : List String) :
    (block header members).toList
      = stack ((header.toList ++ [' ', '{']) :: (members.map String.toList ++ [['}']])) := by
  have hlast : ∀ lines : List (List Char), lines ++ [['}']] ≠ [] := fun _ =>
    List.append_ne_nil_of_right_ne_nil _ (List.cons_ne_nil _ _)
  rw [stack_cons (hlast _)]
  cases members with
  | nil => simp [block, stack]
  | cons m ms =>
    have hmembers : (m :: ms).map String.toList ≠ [] := List.cons_ne_nil _ _
    rw [stack, intercalate_append hmembers (List.cons_ne_nil _ _)]
    simp [block, String.toList_intercalate]

end Sdl

/-- The word that the text of a definition starts with. -/
def TypeKind.keyword : TypeKind → String
  | object => "type"
  | inputObject => "input"
  | interface => "interface"
  | enum => "enum"
  | union => "union"
  | scalar => "scalar"

theorem TypeKind.keyword_injective {j k : TypeKind} (h : j.keyword = k.keyword) : j = k := by
  cases j <;> cases k <;> first | rfl | exact absurd h (by decide)

theorem TypeKind.keyword_name (k : TypeKind) : IsName k.keyword := by
  cases k <;> decide

open Sdl

namespace TypeBody

/-- What stands behind the name in the first line of a definition. -/
def clause : TypeBody → String
  | object interfaces _ =>
    (if interfaces.isEmpty then "" else " implements " ++ String.intercalate " & " interfaces)
      ++ " \x7b"
  | union members => if members.isEmpty then "" else " = " ++ String.intercalate " | " members
  | scalar => ""
  | interface _ | inputObject _ | enum _ => " \x7b"

/-- The lines below the first one, of a definition without descriptions and deprecations. -/
def below : TypeBody → List String
  | object _ fields => fields.map (TypeDef.fieldLine .bare) ++ ["\x7d"]
  | interface fields => fields.map (TypeDef.fieldLine .bare) ++ ["\x7d"]
  | inputObject fields => fields.map (TypeDef.inputLine .bare) ++ ["\x7d"]
  | enum values => values.map (TypeDef.valueLine .bare) ++ ["\x7d"]
  | union _ => []
  | scalar => []

end TypeBody

namespace TypeDef

/-- The first line of a definition. -/
def header (t : TypeDef) : String :=
  t.kind.keyword ++ " " ++ t.name ++ t.body.clause

def lines (t : TypeDef) : List (List Char) :=
  t.header.toList :: t.body.below.map String.toList

theorem sdl_lines (t : TypeDef) : (t.sdl .bare).toList = stack t.lines := by
  rw [sdl, description_hidden, lines, header]
  obtain ⟨name, description, body⟩ := t
  cases body with
  | object interfaces fields =>
    cases interfaces <;>
      simp [bodySdl, block_chars, TypeBody.below, TypeBody.clause, TypeDef.kind, TypeBody.kind,
        TypeKind.keyword]
  | union members =>
    cases members <;>
      simp [bodySdl, stack, TypeBody.below, TypeBody.clause, TypeDef.kind, TypeBody.kind,
        TypeKind.keyword]
  | scalar =>
    simp [bodySdl, stack, TypeBody.below, TypeBody.clause, TypeDef.kind, TypeBody.kind,
      TypeKind.keyword]
  | _ =>
    simp [bodySdl, block_chars, TypeBody.below, TypeBody.clause, TypeDef.kind, TypeBody.kind,
      TypeKind.keyword]

end TypeDef

theorem TypeRef.text_nonempty {t : TypeRef} (h : IsName t.baseName) : t.text.toList ≠ [] := by
  rw [text, String.toList_ofList, text_before_parts]
  intro he
  exact h.nonempty (List.append_eq_nil_iff.mp (List.append_eq_nil_iff.mp he).2).1

/-- One line holds the text. -/
def OneLine (text : String) : Prop :=
  '\n' ∉ text.toList

instance (text : String) : Decidable (OneLine text) :=
  inferInstanceAs (Decidable ('\n' ∉ text.toList))

theorem OneLine.append {s t : String} (hs : OneLine s) (ht : OneLine t) : OneLine (s ++ t) := by
  rw [OneLine, String.toList_append, List.mem_append]
  exact not_or.mpr ⟨hs, ht⟩

theorem OneLine.joined {sep : String} {texts : List String} (hs : OneLine sep)
    (h : ∀ t ∈ texts, OneLine t) : OneLine (String.intercalate sep texts) := by
  intro hm
  rw [String.toList_intercalate] at hm
  rcases mem_intercalate hm with hm | ⟨cs, hcs, hm⟩
  · exact hs hm
  · obtain ⟨t, ht, rfl⟩ := List.mem_map.mp hcs
    exact h t ht hm

theorem IsName.one_line {text : String} (h : IsName text) : OneLine text :=
  h.clear (by decide)

theorem one_line_kept : Kept OneLine where
  empty := List.not_mem_nil
  name := IsName.one_line
  type := fun h => TypeRef.text_clear h (by decide)
  join := by
    intro sep hs a b ha hb
    have hsep : ∀ sep ∈ [": ", " = ", ", ", "(", ")"], OneLine sep := by decide
    exact (ha.append (hsep sep hs)).append hb

namespace TypeDef

variable {t : TypeDef}

theorem clause_one_line (h : t.Named) : OneLine t.body.clause := by
  obtain ⟨name, description, body⟩ := t
  have hlinks := h.links
  cases body with
  | object interfaces fields =>
    refine OneLine.append ?_ (by decide)
    split
    · exact List.not_mem_nil
    · exact OneLine.append (by decide)
        (OneLine.joined (by decide) fun n hn => (hlinks n hn).one_line)
  | union members =>
    rw [TypeBody.clause]
    split
    · exact List.not_mem_nil
    · exact OneLine.append (by decide)
        (OneLine.joined (by decide) fun n hn => (hlinks n hn).one_line)
  | scalar => exact List.not_mem_nil
  | _ =>
    have hclause : OneLine " \x7b" := by decide
    exact hclause

/-- A line of a member is indented, and one line. -/
theorem below_lines (h : t.Named) (hd : ∀ value ∈ t.defaults, OneLine value) :
    ∀ line ∈ t.body.below, line.toList ≠ [] ∧ OneLine line := by
  have hline {text : String} (ht : OneLine text) :
      ("" ++ Sdl.margin ++ text).toList ≠ [] ∧ OneLine ("" ++ Sdl.margin ++ text) :=
    ⟨by simp [Sdl.margin], OneLine.append (by decide) ht⟩
  have hfield : ∀ f ∈ t.fields, (fieldLine .bare f).toList ≠ [] ∧ OneLine (fieldLine .bare f) := by
    intro f hf
    rw [fieldLine, description_hidden]
    exact hline (fields_kept one_line_kept h hd f hf)
  have hinput : ∀ a ∈ t.inputs, (inputLine .bare a).toList ≠ [] ∧ OneLine (inputLine .bare a) := by
    intro a ha
    rw [inputLine, description_hidden]
    exact hline (inputs_kept one_line_kept h hd a ha)
  have hvalues := h.values
  have hmembers {α : Type} {members : List α} {line : α → String}
      (hm : ∀ m ∈ members, (line m).toList ≠ [] ∧ OneLine (line m)) :
      ∀ l ∈ members.map line ++ ["\x7d"], l.toList ≠ [] ∧ OneLine l := by
    intro l hl
    rcases List.mem_append.mp hl with hl | hl
    · obtain ⟨m, hmem, rfl⟩ := List.mem_map.mp hl
      exact hm m hmem
    · rw [List.mem_singleton.mp hl]
      decide
  obtain ⟨name, description, body⟩ := t
  cases body with
  | object _ fields => exact hmembers hfield
  | interface fields => exact hmembers hfield
  | inputObject fields => exact hmembers hinput
  | enum values =>
    refine hmembers fun v hv => ?_
    rw [valueLine, description_hidden, deprecation_hidden, String.append_empty]
    exact hline (hvalues v.name (List.mem_map_of_mem hv)).one_line
  | union members => exact fun _ hl => absurd hl List.not_mem_nil
  | scalar => exact fun _ hl => absurd hl List.not_mem_nil

theorem lines_section (h : t.Named) (hd : ∀ value ∈ t.defaults, OneLine value) :
    IsSection t.lines where
  nonempty := List.cons_ne_nil _ _
  lines := by
    intro l hl
    rcases List.mem_cons.mp hl with rfl | hl
    · refine ⟨?_, ?_⟩
      · rw [header, String.append_assoc, String.append_assoc, String.toList_append]
        exact List.append_ne_nil_of_left_ne_nil t.kind.keyword_name.nonempty _
      · exact ((t.kind.keyword_name.one_line.append (by decide)).append h.name.one_line).append
          (clause_one_line h)
    · obtain ⟨line, hline, rfl⟩ := List.mem_map.mp hl
      exact below_lines h hd line hline

end TypeDef

end SchemaHistory
