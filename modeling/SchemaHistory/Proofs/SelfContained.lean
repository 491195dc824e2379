import SchemaHistory.Proofs.Reachability
import SchemaHistory.Proofs.Rereading

namespace SchemaHistory

namespace Model

variable {m : Model} {custom : List String} {start : String}

/-- Each name that the search visits has its definition. -/
theorem found_names (hm : m.names.Nodup) :
    ((m.reachable custom start).filterMap m.find?).map TypeDef.name
      = m.reachable custom start := by
  have hfind : ∀ n ∈ m.reachable custom start, (m.find? n).map TypeDef.name = some n := by
    intro n hn
    obtain ⟨t, ht, rfl⟩ := List.mem_map.mp (reachable_defined hm hn)
    rw [(find_iff hm).mpr ⟨ht, rfl⟩, Option.map_some]
  rw [List.map_filterMap, List.filterMap_congr hfind, List.filterMap_some]

theorem mem_found (hm : m.names.Nodup) (hs : start ∈ m.names) {t : TypeDef} :
    t ∈ (m.reachable custom start).filterMap m.find? ↔
      t ∈ m.types ∧ ∃ k, m.ReachedIn custom start k t.name := by
  rw [List.mem_filterMap]
  constructor
  · intro h
    obtain ⟨n, hn, hf⟩ := h
    obtain ⟨ht, rfl⟩ := (find_iff hm).mp hf
    exact ⟨ht, (mem_reachable hm hs).mp hn⟩
  · intro h
    exact ⟨t.name, (mem_reachable hm hs).mpr h.2, (find_iff hm).mpr ⟨h.1, rfl⟩⟩

end Model

namespace Registry

variable {r : Registry} {options : Sdl.Options} {name : String} {document : Json} {text : String}

/-- A type and what it leads to are shown when the document can be read and defines the type. -/
theorem sdl_reachable_ok :
    r.sdl options (.reachable name) document = .ok text ↔
      ∃ current, ReadDocument.ofJson document = .ok current ∧ name ∈ current.model.names ∧
        current.model.sdlOf options (current.model.reachable r.customScalars name) = text := by
  unfold sdl
  rw [bind_ok]
  refine exists_congr fun current => and_congr_right fun _ => ?_
  dsimp only
  by_cases hn : name ∈ current.model.names
  · rw [if_pos (Model.defines_iff.mpr hn), pure_ok]
    exact (and_iff_right hn).symm
  · rw [if_neg fun h => hn (Model.defines_iff.mp h)]
    exact ⟨nofun, fun h => absurd h.1 hn⟩

/-- The text of a type and what it leads to holds the definition of each type once. Of the types
that a definition in it refers to, it holds those that are no leaves, and the type that was asked
for. -/
theorem sdl_self_contained (h : r.sdl options (.reachable name) document = .ok text) :
    ∃ (current : ReadDocument) (defs : List TypeDef),
      ReadDocument.ofJson document = .ok current ∧
      text = Sdl.sections (defs.map (TypeDef.sdl options)) ∧
      (defs.map TypeDef.name).Nodup ∧ (∃ t ∈ defs, t.name = name) ∧
      ∀ t ∈ defs, t ∈ current.model.types ∧
        ∀ u ∈ current.model.types, t.RefersTo u.name →
          (u ∈ defs ↔ u.name = name ∨ Scalar.isLeaf r.customScalars u.name = false) := by
  obtain ⟨current, hr, hn, rfl⟩ := sdl_reachable_ok.mp h
  have hm := (Model.built_of_schema (ReadDocument.of_json_ok hr).2).names_distinct
  have hfound := @Model.mem_found current.model r.customScalars name hm hn
  refine ⟨current, _, hr, rfl, ?_, ?_, fun t ht => ⟨(hfound.mp ht).1, fun u hu href => ?_⟩⟩
  · rw [Model.found_names hm]
    exact Model.reachable_distinct hm
  · obtain ⟨t, ht, rfl⟩ := List.mem_map.mp hn
    exact ⟨t, hfound.mpr ⟨ht, 0, .start⟩, rfl⟩
  · rw [hfound, and_iff_right hu]
    constructor
    · intro hk
      obtain ⟨k, hk⟩ := hk
      exact hk.visible.imp_right And.right
    · rintro (rfl | hleaf)
      · exact ⟨0, .start⟩
      · obtain ⟨ht, k, hk⟩ := hfound.mp ht
        exact ⟨k + 1, .step hk ht href (Model.mem_names hu) hleaf⟩

end Registry

namespace Introspection

/-- A schema with an object type that has the name of a usual scalar. -/
def calendar : Schema :=
  .ofTypes "Query" [.object "Query" [("day", .last "OBJECT" (some "Date"))],
    .object "Date" [("year", .last "SCALAR" (some "Int"))]]

def calendarDocument : Json :=
  .object [("__schema", calendar.toJson)]

end Introspection

namespace Model

def calendar : Model :=
  ⟨[.record "Query" [("day", .named "Date")], .record "Date" [("year", .named "Int")]], "Query",
    none, none⟩

theorem calendar_read : ReadDocument.ofJson Introspection.calendarDocument
    = .ok ⟨Introspection.calendar, calendar⟩ :=
  ReadDocument.of_written rfl

end Model

namespace Registry

/-- With no scalars of its own, a registry shows the day with its definition. -/
theorem sdl_self_contained_calendar : ∃ (text : String) (defs : List TypeDef),
    { standard "" with customScalars := [] }.sdl .bare (.reachable "Query")
      Introspection.calendarDocument = .ok text ∧
    text = Sdl.sections (defs.map (TypeDef.sdl .bare)) ∧ (defs.map TypeDef.name).Nodup ∧
    TypeDef.record "Date" [("year", .named "Int")] ∈ defs := by
  have hs : { standard "" with customScalars := [] }.sdl .bare (.reachable "Query")
      Introspection.calendarDocument = .ok _ :=
    sdl_reachable_ok.mpr ⟨_, Model.calendar_read, by decide, rfl⟩
  obtain ⟨current, defs, hc, htext, hd, ⟨t, ht, hname⟩, hclosed⟩ := sdl_self_contained hs
  obtain rfl := Except.ok.inj (Model.calendar_read.symm.trans hc)
  refine ⟨_, defs, hs, htext, hd, ?_⟩
  obtain ⟨hmem, hrefs⟩ := hclosed t ht
  obtain rfl := List.inj_on_of_nodup_map (by decide : Model.calendar.names.Nodup) hmem
    (by decide : TypeDef.record "Query" [("day", .named "Date")] ∈ _) hname
  exact (hrefs _ (by decide) (TypeDef.mem_references.mp (by decide))).mpr (.inr (by decide))

/-- An object type that goes by the name of a usual scalar is referred to by a definition that is
shown, and is not shown itself. -/
theorem leaf_left_out : ∃ (current : ReadDocument) (query date : TypeDef),
    ReadDocument.ofJson Introspection.calendarDocument = .ok current ∧
    query ∈ current.model.types ∧ date ∈ current.model.types ∧ query.RefersTo date.name ∧
    date.kind ≠ .scalar ∧ query ≠ date ∧
    (standard "").sdl .bare (.reachable "Query") Introspection.calendarDocument
      = .ok (Sdl.sections [query.sdl .bare]) := by
  refine ⟨_, .record "Query" [("day", .named "Date")], .record "Date" [("year", .named "Int")],
    Model.calendar_read, by decide, by decide, TypeDef.mem_references.mp (by decide), by decide,
    by decide, ?_⟩
  refine sdl_reachable_ok.mpr ⟨_, Model.calendar_read, by decide, ?_⟩
  have hfound : Model.calendar.reachable Scalar.customDefault "Query" = ["Query"] := by
    have hstep : Model.discover (Model.calendar.names.filter fun n =>
        n != "Query" && !Scalar.isLeaf Scalar.customDefault n) (Model.calendar.next "Query")
        = ([], []) := by decide
    rw [Model.reachable, if_pos (by decide), Model.walk, hstep, List.append_nil, Model.walk]
  exact congrArg (Model.calendar.sdlOf .bare) hfound

end Registry

end SchemaHistory
