import SchemaHistory.Proofs.SnapshotText

namespace SchemaHistory

open Json

namespace Json

theorem finite_items {vs : List Json} : FiniteItems vs ↔ ∀ v ∈ vs, v.Finite := by
  induction vs with
  | nil => simp [FiniteItems]
  | cons v vs ih => rw [FiniteItems, ih, List.forall_mem_cons]

theorem finite_members {members : List (String × Json)} :
    FiniteMembers members ↔ ∀ m ∈ members, m.2.Finite := by
  induction members with
  | nil => simp [FiniteMembers]
  | cons m members ih => rw [FiniteMembers, ih, List.forall_mem_cons]

end Json

namespace Validation

variable {α : Type} {decode : Decoder α} {settle : α → α}

/-- What is read of a value with finite numbers alone is left as it is in a text. -/
def KeepsFinite (decode : Decoder α) (settle : α → α) : Prop :=
  ∀ o a, (∀ v ∈ o, v.Finite) → decode o = .accepted a → settle a = a

theorem items_kept (h : KeepsFinite decode settle) {n : Nat} {vs : List Json} {as : List α}
    (hv : ∀ v ∈ vs, v.Finite) (hd : itemsFrom decode n vs = .accepted as) :
    as.map settle = as := by
  induction vs generalizing n as with
  | nil =>
    cases hd
    rfl
  | cons v vs ih =>
    obtain ⟨hv, hvs⟩ := List.forall_mem_cons.mp hv
    obtain ⟨_, as', hf, has, rfl⟩ := seq_accepted hd
    obtain ⟨a, ha, rfl⟩ := map_accepted hf
    have ha := h (some v) a (by simpa using hv) (under_accepted ha)
    rw [List.map_cons, ha, ih hvs has]

namespace KeepsFinite

theorem list (h : KeepsFinite decode settle) : KeepsFinite (listOf decode) (List.map settle) := by
  intro o as hv hd
  cases o with
  | none => cases hd
  | some v =>
    cases v with
    | array items => exact items_kept h (finite_items.mp (hv _ rfl)) hd
    | _ => cases hd

theorem slot (h : KeepsFinite decode settle) : KeepsFinite (nullable decode) (Slot.map settle) := by
  intro o s hv hd
  cases o with
  | none =>
    cases hd
    rfl
  | some v =>
    cases v with
    | null =>
      cases hd
      rfl
    | _ =>
      obtain ⟨a, ha, rfl⟩ := map_accepted hd
      exact congrArg Slot.filled (h _ a hv ha)

theorem record {members : List (String × Json) → Checked α}
    (h : ∀ ms a, (∀ m ∈ ms, m.2.Finite) → members ms = .accepted a → settle a = a) :
    KeepsFinite (objectOf members) settle := by
  intro o a hv hd
  cases o with
  | none => cases hd
  | some v =>
    cases v with
    | object ms => exact h ms a (finite_members.mp (hv _ rfl)) hd
    | _ => cases hd

theorem member (h : KeepsFinite decode settle) {ms : List (String × Json)}
    (hm : ∀ m ∈ ms, m.2.Finite) {name : String} {a : α}
    (ha : Validation.member ms name decode = .accepted a) : settle a = a :=
  h _ a (fun v hv => hm (name, v) (mem_of_lookup hv)) (under_accepted ha)

end KeepsFinite

end Validation

namespace Introspection

open Validation

theorem RawRef.settled_finite {r : RawRef} (h : r.json.Finite) : r.settled = r := by
  obtain ⟨json, chain, spells⟩ := r
  rw [RawRef.settled, RawRef.mk.injEq]
  exact ⟨Json.settled_finite json h, rfl⟩

theorem type_ref_kept : KeepsFinite typeRef RawRef.settled := by
  intro o r hv h
  cases o with
  | none => cases h
  | some v =>
    rw [← type_ref_accepted.mp h] at hv
    exact RawRef.settled_finite (hv _ rfl)

theorem input_value_kept : KeepsFinite inputValue InputValue.settled := by
  refine .record fun ms v hm h => ?_
  obtain ⟨_, _, h1, -, rfl⟩ := seq_accepted h
  obtain ⟨_, type, h2, ht, rfl⟩ := seq_accepted h1
  obtain ⟨_, _, h3, -, rfl⟩ := seq_accepted h2
  obtain ⟨_, -, rfl⟩ := map_accepted h3
  rw [InputValue.settled, type_ref_kept.member hm ht]

theorem field_kept : KeepsFinite field Field.settled := by
  refine .record fun ms f hm h => ?_
  obtain ⟨_, _, h1, -, rfl⟩ := seq_accepted h
  obtain ⟨_, _, h2, -, rfl⟩ := seq_accepted h1
  obtain ⟨_, type, h3, ht, rfl⟩ := seq_accepted h2
  obtain ⟨_, args, h4, ha, rfl⟩ := seq_accepted h3
  obtain ⟨_, _, h5, -, rfl⟩ := seq_accepted h4
  obtain ⟨_, -, rfl⟩ := map_accepted h5
  rw [Field.settled, type_ref_kept.member hm ht, input_value_kept.list.slot.member hm ha]

theorem type_entry_kept : KeepsFinite typeEntry TypeEntry.settled := by
  refine .record fun ms t hm h => ?_
  obtain ⟨_, _, h1, -, rfl⟩ := seq_accepted h
  obtain ⟨_, _, h2, -, rfl⟩ := seq_accepted h1
  obtain ⟨_, _, h3, -, rfl⟩ := seq_accepted h2
  obtain ⟨_, inputFields, h4, hi, rfl⟩ := seq_accepted h3
  obtain ⟨_, fields, h5, hf, rfl⟩ := seq_accepted h4
  obtain ⟨_, _, h6, -, rfl⟩ := seq_accepted h5
  obtain ⟨_, _, h7, -, rfl⟩ := seq_accepted h6
  obtain ⟨_, -, rfl⟩ := map_accepted h7
  rw [TypeEntry.settled, field_kept.list.slot.member hm hf,
    input_value_kept.list.slot.member hm hi]

theorem schema_kept : KeepsFinite schema Schema.settled := by
  refine .record fun ms s hm h => ?_
  obtain ⟨_, types, h1, ht, rfl⟩ := seq_accepted h
  obtain ⟨_, _, h2, -, rfl⟩ := seq_accepted h1
  obtain ⟨_, _, h3, -, rfl⟩ := seq_accepted h2
  obtain ⟨_, -, rfl⟩ := map_accepted h3
  rw [Schema.settled, type_entry_kept.list.member hm ht]

/-- A schema that is read from a document with finite numbers alone is left as it is in a text. -/
theorem parse_kept {d : Json} {s : Schema} (hd : ∀ v ∈ standsFor? d, v.Finite)
    (h : parse d = .ok s) : s.settled = s := by
  obtain ⟨v, ms, hv, hm, hs⟩ := parse_ok h
  refine schema_kept _ s ?_ hs
  exact schema_inside (fun _ h => finite_members.mp h) (hd v hv) hm

end Introspection

end SchemaHistory
