import SchemaHistory.Proofs.InputValues
import SchemaHistory.Proofs.Settling
import SchemaHistory.Proofs.ShownText

namespace SchemaHistory

namespace Store

open SchemaHistory.Action Binary64

/-- The latest version of a key is the version `n`, and is built into a model. -/
def Latest (s : Store) (key : String) (n : Binary64) (m : Model) : Prop :=
  ∃ y, (load key).Gives s s (some y) ∧ y.version = n ∧ Model.ofSchema y.schema = .ok m

/-- What settles a document leaves a latest version that comparisons take for it. Unless it was
there before, it is built into the model of the document. -/
theorem settles_latest {s s' : Store} {r : Registry} {key : String} {document : Json}
    {n : Binary64} (h : s.Tidy) (hd : document.Distinct) (hm : Json.Clear r.metadata)
    (hs : r.Settles s key document s' n) : ∃ current latest,
      ReadDocument.ofJson document = .ok current ∧ s'.Latest key n latest ∧
      (s' = s ∨ latest = current.model) ∧ latest.Alike current.model := by
  cases hs with
  | @unchanged existing previous current hr hl hb hc hs =>
    have hbuilt := Model.built_of_schema (ReadDocument.of_json_ok hr).2
    refine ⟨current, previous, hr, ?_, .inl hs, (Model.unchanged_iff hbuilt).mp hc⟩
    rw [hs]
    exact ⟨existing, gives_load hl, rfl, hb⟩
  | @kept current v hr hdue hs =>
    obtain ⟨s'', y, hg, _, hl, hy, hb⟩ := Registry.due_kept h hr hd hm hdue
    have hbuilt := Model.built_of_schema (ReadDocument.of_json_ok hr).2
    have hself := Model.changes_self hbuilt r.policy
    refine ⟨current, current.model, hr, ?_, .inr rfl, (Model.unchanged_iff hbuilt).mp hself⟩
    rw [hs, hg.1]
    exact ⟨y, hl, hy, hb⟩

/-- After a new version that is not forced, the latest version is the document, or what comparisons
take for it. What is shown of the two is the same just when they also agree on what comparisons do
not look at, and the text of the latest version is then the text of the document in some order. -/
theorem snapshot_recorded (path : Path) {calls : List (Registry × Call)}
    (hc : ∀ c ∈ calls, c.2.Clear c.1) {r : Registry} {document : Json} (hd : document.Distinct)
    (hm : Json.Clear r.metadata) (key : String) {s' : Store} {x : Snapshot}
    (h : (r.snapshot key document none).Gives (run ⟨path, none⟩ calls) s' x) :
    ∃ current latest, ReadDocument.ofJson document = .ok current ∧
      s'.Latest key x.version latest ∧
      (s' = run ⟨path, none⟩ calls ∨ latest = current.model) ∧ latest.Alike current.model ∧
      (latest.shown = current.model.shown ↔ latest.SameBeside current.model) ∧
      (latest.SameBeside current.model →
        ∃ m, current.model.Permuted m ∧ latest.sdl .bare = m.sdl .bare) := by
  obtain ⟨rfl, hx⟩ := h
  have htidy := run_tidy (tidy_absent path) hc
  obtain ⟨current, latest, hr, hl, hor, halike⟩ :=
    settles_latest htidy hd hm (Registry.snapshot_ok hx)
  obtain ⟨y, _, _, hb⟩ := id hl
  have hlatest := Model.built_of_schema hb
  have hbuilt := Model.built_of_schema (ReadDocument.of_json_ok hr).2
  have hshown := Model.shown_iff hlatest hbuilt halike
  refine ⟨current, latest, hr, hl, hor, halike, hshown, fun hbeside => ?_⟩
  obtain ⟨m, hp, hlines⟩ := Model.shown_iff_lines.mp (hshown.mpr hbeside)
  exact ⟨m, hp, Model.sdl_congr hlines⟩

/-- A second document that has changes is the latest version after it. -/
theorem snapshot_recorded_sizes : ∃ s s' x current latest,
    run ⟨["srv"], none⟩ [(.standard "",
      .snapshot "shop" (Introspection.sizeDocument "Int") none)] = s ∧
    ((Registry.standard "").snapshot "shop" (Introspection.sizeDocument "Float") none).Gives
      s s' x ∧ x.version = .ofNat 2 ∧
    ReadDocument.ofJson (Introspection.sizeDocument "Float") = .ok current ∧
    s'.Latest "shop" x.version latest ∧ latest.Alike current.model ∧
    (latest.shown = current.model.shown ↔ latest.SameBeside current.model) := by
  obtain ⟨s, s', x, hrun, hsecond, hx⟩ := sizes_kept
  obtain ⟨current, latest, hr, hlatest, _, halike, hshown, _⟩ :=
    snapshot_recorded ["srv"] sizes_clear (Introspection.size_document_distinct "Float")
      (Registry.standard_clear "") "shop" (hrun.symm ▸ hsecond)
  exact ⟨s, s', x, current, latest, hrun, hsecond, hx, hr, hlatest, halike, hshown⟩

end Store

namespace Introspection

/-- A schema whose only field takes an argument. -/
def sizeInUnits : Schema :=
  .ofTypes "Query" [{ TypeEntry.object "Query" [] with
    fields := .filled [{ Field.ofType "size" (.last "SCALAR" (some "Int")) with
      args := .filled [.ofType "unit" unitName .absent] }] }]

end Introspection

namespace Store

/-- A document with a new argument is answered by the old version: it is not kept, and the text of
the latest version is not the text of the document. -/
theorem argument_not_recorded : ∃ s y a b,
    run ⟨["srv"], none⟩ [(.standard "",
      .snapshot "shop" (Introspection.sizeDocument "Int") none)] = s ∧
    ((Registry.standard "").snapshot "shop"
      (.object [("__schema", Introspection.sizeInUnits.toJson)]) none).Gives s s y ∧
    (load "shop").Gives s s (some y) ∧ Model.ofSchema y.schema = .ok a ∧
    ReadDocument.ofJson (.object [("__schema", Introspection.sizeInUnits.toJson)])
      = .ok ⟨Introspection.sizeInUnits, b⟩ ∧
    a.shown ≠ b.shown ∧ a.sdl .bare ≠ b.sdl .bare := by
  have hint := ReadDocument.of_size_document
    (rfl : Model.ofSchema (Introspection.sizeSchema "Int") = .ok _)
  have hr : ReadDocument.ofJson (.object [("__schema", Introspection.sizeInUnits.toJson)])
      = .ok ⟨Introspection.sizeInUnits, _⟩ :=
    ReadDocument.of_written rfl
  obtain ⟨s, y, hfirst, _, hl, _, hb⟩ := Registry.first_kept ["srv"] hint
    (Introspection.size_document_distinct "Int") (Registry.standard_clear "") "shop"
  have hsettled := Registry.settled_of_loaded (r := .standard "") hl hb hr
    (by decide : Model.changes .baseName _ _ = [])
  obtain ⟨z, hz, _, hs⟩ := hsettled.found
  obtain rfl : y = z := Option.some.inj (Except.ok.inj (hl.2.symm.trans hz.2))
  exact ⟨s, y, _, _, run_snapshot hfirst, hs, hl, hb, hr, by decide, by decide⟩

end Store

end SchemaHistory
