import SchemaHistory.Proofs.JsonReading
import SchemaHistory.Validation.Decoder

namespace SchemaHistory

open Json

namespace Slot

variable {α β : Type}

def map (f : α → β) : Slot α → Slot β
  | absent => absent
  | null => null
  | filled a => filled (f a)

theorem map_id (s : Slot α) : s.map id = s := by
  cases s <;> rfl

/-- The value of a member, if the member is written. -/
def json? (toJson : α → Json) : Slot α → Option Json
  | absent => none
  | null => some .null
  | filled a => some (toJson a)

theorem to_member_json (name : String) (toJson : α → Json) (s : Slot α) :
    s.toMember name toJson = member? name (s.json? toJson) := by
  cases s <;> rfl

end Slot

namespace Validation

/-- The members of an object in the order in which they may be written. -/
def written : List (String × Option Json) → List (String × Json)
  | [] => []
  | (name, v) :: parts => member? name v ++ written parts

theorem written_names (parts : List (String × Option Json)) :
    ((written parts).map Prod.fst).Sublist (parts.map Prod.fst) := by
  induction parts with
  | nil => exact List.nil_sublist _
  | cons p parts ih =>
    obtain ⟨name, v⟩ := p
    cases v with
    | none => exact ih.cons name
    | some v => exact ih.cons_cons name

theorem written_mem {parts : List (String × Option Json)} {m : String × Json}
    (h : m ∈ written parts) : ∃ p ∈ parts, m.2 ∈ p.2 := by
  induction parts with
  | nil => simp [written] at h
  | cons p parts ih =>
    obtain ⟨name, v⟩ := p
    rcases List.mem_append.mp h with h | h
    · refine ⟨(name, v), List.mem_cons_self, ?_⟩
      cases v with
      | none => simp [member?] at h
      | some v =>
        obtain rfl : m = (name, v) := by simpa [member?] using h
        rfl
    · obtain ⟨q, hq, hm⟩ := ih h
      exact ⟨q, List.mem_cons_of_mem _ hq, hm⟩

theorem written_clear {parts : List (String × Option Json)} (hn : (parts.map Prod.fst).Nodup)
    (h : ∀ p ∈ parts, ∀ v ∈ p.2, v.Distinct) : (object (written parts)).Distinct := by
  refine distinct_object.mpr ⟨hn.sublist (written_names parts), ?_⟩
  intro m hm
  obtain ⟨p, hp, hv⟩ := written_mem hm
  exact h p hp _ hv

theorem settled_append (ms ns : List (String × Json)) :
    settledMembers (ms ++ ns) = settledMembers ms ++ settledMembers ns := by
  simp only [settled_members_map, List.map_append]

theorem written_settled (parts : List (String × Option Json)) :
    settledMembers (written parts) = written (parts.map fun p => (p.1, p.2.map settled)) := by
  induction parts with
  | nil => rfl
  | cons p parts ih =>
    obtain ⟨name, v⟩ := p
    rw [written, settled_append, ih, List.map_cons, written]
    cases v <;> rfl

theorem lookup_written {parts : List (String × Option Json)} (hn : (parts.map Prod.fst).Nodup)
    {name : String} {v : Option Json} (hv : parts.lookup name = some v) :
    (written parts).lookup name = v := by
  induction parts with
  | nil => contradiction
  | cons p parts ih =>
    obtain ⟨n, w⟩ := p
    rw [List.map_cons, List.nodup_cons] at hn
    by_cases he : name = n
    · subst he
      simp only [List.lookup_cons_self, Option.some.injEq] at hv
      subst hv
      cases w with
      | none =>
        refine lookup_absent fun hm => hn.1 ?_
        exact (written_names parts).subset hm
      | some w => simp [written, member?]
    · rw [lookup_skip he] at hv
      cases w with
      | none => exact ih hn.2 hv
      | some w => exact (lookup_skip he w _).trans (ih hn.2 hv)

theorem member_written {α : Type} {parts : List (String × Option Json)}
    (hn : (parts.map Prod.fst).Nodup) {name : String} {v : Option Json}
    (hv : parts.lookup name = some v) {decode : Decoder α} {a : α} (h : decode v = .accepted a) :
    member (written parts) name decode = .accepted a := by
  rw [member, lookup_written hn hv, h]
  rfl

/-- Writing and reading fit together. A value is read back from what is written for it, what is left
of that in a text is written for its settled form, and no member is written twice for a clear value,
such as those that are read. -/
structure Faithful {α : Type} (write : α → Option Json) (decode : Decoder α) (settle : α → α)
    (clear : α → Prop) : Prop where
  decoded : ∀ a, decode (write a) = .accepted a
  settled : ∀ a, (write a).map settled = write (settle a)
  distinct : ∀ a, clear a → ∀ v ∈ write a, v.Distinct
  cleared : ∀ o a, (∀ v ∈ o, v.Distinct) → decode o = .accepted a → clear a

namespace Faithful

theorem text : Faithful (fun s => some (.string s)) text id fun _ => True where
  decoded _ := rfl
  settled _ := rfl
  distinct _ _ := by
    intro v hv
    cases hv
    exact trivial
  cleared _ _ _ _ := trivial

theorem flag : Faithful (fun b => some (.bool b)) flag id fun _ => True where
  decoded _ := rfl
  settled _ := rfl
  distinct _ _ := by
    intro v hv
    cases hv
    exact trivial
  cleared _ _ _ _ := trivial

end Faithful

theorem seq_accepted {α β : Type} {f : Checked (α → β)} {x : Checked α} {b : β}
    (h : f <*> x = .accepted b) : ∃ g a, f = .accepted g ∧ x = .accepted a ∧ b = g a := by
  cases f with
  | refused _ => cases x <;> cases h
  | accepted g =>
    cases x with
    | refused _ => cases h
    | accepted a => exact ⟨g, a, rfl, rfl, (Checked.accepted.inj h).symm⟩

theorem map_accepted {α β : Type} {g : α → β} {x : Checked α} {b : β}
    (h : g <$> x = .accepted b) : ∃ a, x = .accepted a ∧ b = g a := by
  obtain ⟨_, a, hg, ha, rfl⟩ := seq_accepted (f := .accepted g) h
  cases hg
  exact ⟨a, ha, rfl⟩

theorem under_accepted {α : Type} {step : Step} {x : Checked α} {a : α}
    (h : x.under step = .accepted a) : x = .accepted a := by
  cases x with
  | refused _ => cases h
  | accepted b => exact h

section

variable {α : Type} {toJson : α → Json} {decode : Decoder α} {settle : α → α} {clear : α → Prop}
  (h : Faithful (fun a => some (toJson a)) decode settle clear)

include h

theorem items_decoded (n : Nat) (as : List α) :
    itemsFrom decode n (as.map toJson) = .accepted as := by
  induction as generalizing n with
  | nil => rfl
  | cons a as ih =>
    rw [List.map_cons, itemsFrom, h.decoded, ih]
    rfl

theorem items_cleared {n : Nat} {vs : List Json} {as : List α} (hv : ∀ v ∈ vs, v.Distinct)
    (hd : itemsFrom decode n vs = .accepted as) : ∀ a ∈ as, clear a := by
  induction vs generalizing n as with
  | nil =>
    cases hd
    simp
  | cons v vs ih =>
    obtain ⟨hv, hvs⟩ := List.forall_mem_cons.mp hv
    obtain ⟨_, as', hf, has, rfl⟩ := seq_accepted hd
    obtain ⟨a, ha, rfl⟩ := map_accepted hf
    have hc := h.cleared (some v) a (by simpa using hv) (under_accepted ha)
    exact List.forall_mem_cons.mpr ⟨hc, ih hvs has⟩

theorem Faithful.list :
    Faithful (fun as : List α => some (.array (as.map toJson))) (listOf decode) (List.map settle)
      (∀ a ∈ ·, clear a) where
  decoded as := items_decoded h 0 as
  settled as := by
    simp only [Json.settled, settled_items_map, List.map_map, Option.map_some]
    refine congrArg (fun vs => some (Json.array vs)) (List.map_congr_left fun a _ => ?_)
    exact Option.some.inj (h.settled a)
  distinct as ha := by
    intro v he
    cases he
    apply distinct_items.mpr
    intro v hv
    obtain ⟨a, hm, rfl⟩ := List.mem_map.mp hv
    exact h.distinct a (ha a hm) _ rfl
  cleared o as hv hd := by
    cases o with
    | none => cases hd
    | some v =>
      cases v with
      | array items => exact items_cleared h (distinct_items.mp (hv _ rfl)) hd
      | _ => cases hd

theorem Faithful.slot (hn : ∀ a, toJson a ≠ .null) :
    Faithful (fun s : Slot α => s.json? toJson) (nullable decode) (Slot.map settle)
      (∀ a ∈ ·.value?, clear a) where
  decoded s := by
    cases s with
    | absent => rfl
    | null => rfl
    | filled a =>
      have hd := h.decoded a
      change nullable decode (some (toJson a)) = _
      cases hv : toJson a with
      | null => exact absurd hv (hn a)
      | _ =>
        rw [hv] at hd
        simp only [nullable, hd]
        rfl
  settled s := by
    cases s with
    | absent => rfl
    | null => rfl
    | filled a => exact h.settled a
  distinct s hs := by
    cases s with
    | absent => simp [Slot.json?]
    | null =>
      intro v hm
      cases hm
      exact trivial
    | filled a => exact h.distinct a (hs a rfl)
  cleared o s hv hd := by
    cases o with
    | none =>
      cases hd
      simp [Slot.value?]
    | some v =>
      cases v with
      | null =>
        cases hd
        simp [Slot.value?]
      | _ =>
        obtain ⟨a, ha, rfl⟩ := map_accepted hd
        intro b hb
        cases hb
        exact h.cleared _ a hv ha

end

section

variable {α : Type} {write : α → Option Json} {decode : Decoder α} {settle : α → α}
  {clear : α → Prop} (h : Faithful write decode settle clear)

include h

theorem Faithful.member_decoded {parts : List (String × Option Json)}
    (hn : (parts.map Prod.fst).Nodup) (name : String) (a : α)
    (hv : parts.lookup name = some (write a)) : member (written parts) name decode = .accepted a :=
  member_written hn hv (h.decoded a)

theorem Faithful.member_cleared {ms : List (String × Json)} (hm : Clear ms) {name : String} {a : α}
    (ha : member ms name decode = .accepted a) : clear a := by
  refine h.cleared _ a (fun v hv => ?_) (under_accepted ha)
  exact hm.2 (name, v) (mem_of_lookup hv)

end

/-- A record is faithful if its members are. -/
theorem Faithful.record {α : Type} {toJson : α → Json} {settle : α → α} {clear : α → Prop}
    {parts : α → List (String × Option Json)} {members : List (String × Json) → Checked α}
    (names : List String) (hn : names.Nodup) (hp : ∀ a, (parts a).map Prod.fst = names)
    (hw : ∀ a, toJson a = .object (written (parts a)))
    (hd : ∀ a, ((parts a).map Prod.fst).Nodup → members (written (parts a)) = .accepted a)
    (hs : ∀ a, (parts a).map (fun p => (p.1, p.2.map Json.settled)) = parts (settle a))
    (hc : ∀ a, clear a → ∀ p ∈ parts a, ∀ v ∈ p.2, v.Distinct)
    (hr : ∀ ms a, Clear ms → members ms = .accepted a → clear a) :
    Faithful (fun a => some (toJson a)) (objectOf members) settle clear where
  decoded a := by
    rw [hw]
    exact hd a (by rwa [hp])
  settled a := by
    rw [hw, hw, ← hs, Option.map_some, Json.settled, written_settled]
  distinct a ha := by
    rw [hw]
    intro v hm
    cases hm
    exact written_clear (by rwa [hp]) (hc a ha)
  cleared o a hv h := by
    cases o with
    | none => cases h
    | some v =>
      cases v with
      | object ms => exact hr ms a (distinct_object.mp (hv _ rfl)) h
      | _ => cases h

end Validation

end SchemaHistory
