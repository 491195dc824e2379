import Mathlib.Data.List.Basic
import SchemaHistory.Proofs.Lists
import SchemaHistory.TypeRef.Chain
import SchemaHistory.TypeRef.Parser

namespace SchemaHistory

/-- The mark that a wrapper leaves behind the text of what it wraps. -/
def Wrapper.mark : Wrapper → Char
  | list => ']'
  | nonNull => '!'

namespace Wrapper

theorem mark_injective {v w : Wrapper} (h : v.mark = w.mark) : v = w := by
  cases v <;> cases w <;> first | rfl | exact absurd h (by decide)

theorem mark_not_name (w : Wrapper) : isNameChar w.mark = false := by
  cases w <;> decide

end Wrapper

/-- A fault is reported with the place that it was found at. -/
theorem RefFault.located {x : Except RefFault TypeRef} {location : String} {f : Failure}
    (h : x.mapError (fun fault => Failure.malformedTypeRef location fault.message) = .error f) :
    ∃ fault : RefFault, f = .malformedTypeRef location fault.message := by
  cases x with
  | ok t => contradiction
  | error fault => exact ⟨fault, (Except.error.inj h).symm⟩

namespace TypeRef

/-- No non-null mark stands right on another. -/
def Regular : TypeRef → Prop
  | named _ => True
  | list t => t.Regular
  | nonNull t => t.isNonNull = false ∧ t.Regular

instance decidableRegular : (t : TypeRef) → Decidable t.Regular
  | named _ => isTrue trivial
  | list t => decidableRegular t
  | nonNull t =>
    have := decidableRegular t
    inferInstanceAs (Decidable (t.isNonNull = false ∧ t.Regular))

theorem wrap_regular {fault : RefFault} {w : Wrapper} {t r : TypeRef} (ht : t.Regular)
    (h : wrap? fault w t = .ok r) : r.Regular := by
  unfold wrap? at h
  split at h
  · contradiction
  · rename_i hn
    cases h
    cases w with
    | list => exact ht
    | nonNull => exact ⟨by simpa using hn, ht⟩

/-- References that documents can hold and that can be told apart by their texts. -/
structure Proper (t : TypeRef) : Prop where
  regular : t.Regular
  name : isName t.baseName.toList = true

/-- One more wrapper, around what has been put together so far. -/
theorem wrap_checked (fault : RefFault) (w : Wrapper) (t : TypeRef) :
    ((if t.Regular then .ok t else .error fault) >>= wrap? fault w)
      = if (wrap w t).Regular then .ok (wrap w t) else .error fault := by
  by_cases ht : t.Regular
  · rw [if_pos ht]
    change wrap? fault w t = _
    cases w with
    | list => simp [wrap?, wrap, Regular, ht]
    | nonNull => cases hn : t.isNonNull <;> simp [wrap?, wrap, Regular, ht, hn]
  · have hw : ¬(wrap w t).Regular := by
      cases w with
      | list => exact ht
      | nonNull => exact fun h => ht h.2
    rw [if_neg ht, if_neg hw]
    rfl

/-- The brackets that open before the name. -/
def brackets (t : TypeRef) : List Char :=
  (t.wrappers.filter (· = .list)).map fun _ => '['

/-- The marks behind the name, innermost first. -/
def marks (t : TypeRef) : List Char :=
  (t.wrappers.map Wrapper.mark).reverse

theorem text_before_parts (t : TypeRef) (rest : List Char) :
    t.textBefore rest = t.brackets ++ (t.baseName.toList ++ (t.marks ++ rest)) := by
  induction t generalizing rest with
  | named name => simp [textBefore, brackets, marks, wrappers, baseName]
  | list t ih => simp [textBefore, ih, brackets, marks, wrappers, baseName, Wrapper.mark]
  | nonNull t ih => simp [textBefore, ih, brackets, marks, wrappers, baseName, Wrapper.mark]

theorem of_wrappers_self (t : TypeRef) : ofWrappers t.wrappers t.baseName = t := by
  induction t with
  | named name => rfl
  | list t ih => exact congrArg list ih
  | nonNull t ih => exact congrArg nonNull ih

theorem brackets_open (t : TypeRef) : ∀ c ∈ t.brackets, (c == '[') = true := by
  intro c hc
  obtain ⟨_, _, rfl⟩ := List.mem_map.mp hc
  rfl

theorem marks_end_name (t : TypeRef) : ∀ c ∈ t.marks.head?, isNameChar c = false := by
  intro c hc
  obtain ⟨w, _, rfl⟩ := List.mem_map.mp (List.mem_reverse.mp (List.mem_of_mem_head? hc))
  exact w.mark_not_name

/-- A name is what stands between the brackets and the marks. -/
theorem drop_brackets (t : TypeRef) (hn : isName t.baseName.toList = true) :
    (t.textBefore []).dropWhile (· == '[') = t.baseName.toList ++ t.marks := by
  rw [text_before_parts, List.append_nil, List.dropWhile_append_of_pos t.brackets_open]
  cases hb : t.baseName.toList with
  | nil => simp [hb, isName] at hn
  | cons c cs =>
    have hc : (c == '[') = false := by
      cases he : c == '[' with
      | false => rfl
      | true =>
        rw [hb, beq_iff_eq.mp he, isName, Bool.and_eq_true] at hn
        exact absurd hn.1 (by decide)
    simp [hc]

theorem name_chars {cs : List Char} (hn : isName cs = true) : ∀ c ∈ cs, isNameChar c = true := by
  cases cs with
  | nil => simp
  | cons d ds =>
    simp only [isName, Bool.and_eq_true, List.all_eq_true] at hn
    intro c hc
    rcases List.mem_cons.mp hc with rfl | hm
    · simp [isNameChar, hn.1]
    · exact hn.2 c hm

/-- The text of a reference to a proper name determines the reference. -/
theorem text_determines {s t : TypeRef} (hs : isName s.baseName.toList = true)
    (ht : isName t.baseName.toList = true) (h : s.text = t.text) : s = t := by
  have hl : s.textBefore [] = t.textBefore [] := String.ofList_injective h
  have hd : s.baseName.toList ++ s.marks = t.baseName.toList ++ t.marks := by
    rw [← drop_brackets s hs, ← drop_brackets t ht, hl]
  obtain ⟨hs1, hs2⟩ := span_append (name_chars hs) s.marks_end_name
  obtain ⟨ht1, ht2⟩ := span_append (name_chars ht) t.marks_end_name
  have hname : s.baseName = t.baseName := by
    rw [hd, ht1] at hs1
    exact (String.toList_injective hs1).symm
  have hmarks : s.marks = t.marks := by
    rw [hd, ht2] at hs2
    exact hs2.symm
  have hwrap : s.wrappers = t.wrappers :=
    List.map_injective_iff.mpr @Wrapper.mark_injective (List.reverse_injective hmarks)
  rw [← of_wrappers_self s, ← of_wrappers_self t, hwrap, hname]

end TypeRef

theorem RefChain.to_json_object (chain : RefChain) :
    ∃ members, chain.toJson = .object members := by
  cases chain <;> exact ⟨_, rfl⟩

/-- A chain can be read back from the JSON that it is written as. -/
theorem RefChain.of_json_to_json (chain : RefChain) : ofJson? chain.toJson = some chain := by
  induction chain with
  | last kind name => cases name <;> rfl
  | link kind name inner ih =>
    obtain ⟨ms, hms⟩ := inner.to_json_object
    rw [hms] at ih
    have hi : inner? [("kind", .string kind), ("name", nameJson name), ("ofType", inner.toJson)]
        = some (some inner) := by
      rw [hms]
      simp only [inner?, ih]
      rfl
    cases name <;> simp only [toJson, ofJson?, nameOf?, hi] <;> rfl

theorem RefChain.leaf_regular {kind : String} {name : Option String} {t : TypeRef}
    (h : leaf kind name = .ok t) : t.Regular := by
  unfold leaf at h
  split at h <;> cases h
  trivial

/-- Whatever a chain resolves to is regular. -/
theorem RefChain.resolve_regular {chain : RefChain} {t : TypeRef} (h : chain.resolve = .ok t) :
    t.Regular := by
  induction chain generalizing t with
  | last kind name =>
    unfold resolve at h
    split at h
    · contradiction
    · exact leaf_regular h
  | link kind name inner ih =>
    unfold resolve at h
    split at h
    · split at h
      · rename_i u hu
        exact TypeRef.wrap_regular (ih hu) h
      · contradiction
    · exact leaf_regular h

theorem RefChain.resolve_at_iff {location : String} {chain : RefChain} {t : TypeRef} :
    chain.resolveAt location = .ok t ↔ chain.resolve = .ok t := by
  unfold resolveAt
  cases chain.resolve <;> simp [Except.mapError]

theorem RefChain.resolve_at_regular {location : String} {chain : RefChain} {t : TypeRef}
    (h : chain.resolveAt location = .ok t) : t.Regular :=
  resolve_regular (resolve_at_iff.mp h)

end SchemaHistory
