import Mathlib.Data.List.Nodup
import SchemaHistory.Json.Lenient
import SchemaHistory.Proofs.JsonText

namespace SchemaHistory.Json

mutual

/-- No object of a value names a member twice. -/
def Distinct : Json → Prop
  | array items => DistinctItems items
  | object members => (members.map Prod.fst).Nodup ∧ DistinctMembers members
  | _ => True

def DistinctItems : List Json → Prop
  | [] => True
  | v :: vs => Distinct v ∧ DistinctItems vs

def DistinctMembers : List (String × Json) → Prop
  | [] => True
  | (_, v) :: members => Distinct v ∧ DistinctMembers members

end

mutual

/-- Every number of a value is finite. -/
def Finite : Json → Prop
  | number (.finite _ _) => True
  | number _ => False
  | array items => FiniteItems items
  | object members => FiniteMembers members
  | _ => True

def FiniteItems : List Json → Prop
  | [] => True
  | v :: vs => Finite v ∧ FiniteItems vs

def FiniteMembers : List (String × Json) → Prop
  | [] => True
  | (_, v) :: members => Finite v ∧ FiniteMembers members

end

mutual

/-- What is left of a value in its text, where a number that is not finite is null. -/
def settled : Json → Json
  | number (.finite u fits) => number (.finite u fits)
  | number _ => null
  | array items => array (settledItems items)
  | object members => object (settledMembers members)
  | v => v

def settledItems : List Json → List Json
  | [] => []
  | v :: vs => settled v :: settledItems vs

def settledMembers : List (String × Json) → List (String × Json)
  | [] => []
  | (name, v) :: members => (name, settled v) :: settledMembers members

end

mutual

theorem settled_finite : (v : Json) → v.Finite → v.settled = v
  | null, _ => rfl
  | bool _, _ => rfl
  | number (.finite _ _), _ => rfl
  | number .nan, h => h.elim
  | number (.infinite _), h => h.elim
  | string _, _ => rfl
  | array items, h => congrArg array (settled_items_finite items h)
  | object members, h => congrArg object (settled_members_finite members h)

theorem settled_items_finite : (vs : List Json) → FiniteItems vs → settledItems vs = vs
  | [], _ => rfl
  | v :: vs, h => by rw [settledItems, settled_finite v h.1, settled_items_finite vs h.2]

theorem settled_members_finite : (members : List (String × Json)) → FiniteMembers members →
    settledMembers members = members
  | [], _ => rfl
  | (name, v) :: members, h => by
    rw [settledMembers, settled_finite v h.1, settled_members_finite members h.2]

end

mutual

theorem pretty_settled (depth : Nat) : (v : Json) → prettyAt depth v.settled = prettyAt depth v
  | null => rfl
  | bool _ => rfl
  | number (.finite _ _) => rfl
  | number .nan => rfl
  | number (.infinite _) => rfl
  | string _ => rfl
  | array items => by
    rw [settled, prettyAt, prettyAt, pretty_settled_items (depth + 1) items]
  | object members => by
    rw [settled, prettyAt, prettyAt, pretty_settled_members (depth + 1) members]

theorem pretty_settled_items (depth : Nat) : (vs : List Json) →
    prettyItems depth (settledItems vs) = prettyItems depth vs
  | [] => rfl
  | v :: vs => by
    rw [settledItems, prettyItems, prettyItems, pretty_settled depth v,
      pretty_settled_items depth vs]

theorem pretty_settled_members (depth : Nat) : (members : List (String × Json)) →
    prettyMembers depth (settledMembers members) = prettyMembers depth members
  | [] => rfl
  | (name, v) :: members => by
    rw [settledMembers, prettyMembers, prettyMembers, pretty_settled depth v,
      pretty_settled_members depth members]

end

theorem settled_items_map (vs : List Json) : settledItems vs = vs.map settled := by
  induction vs with
  | nil => rfl
  | cons v vs ih => rw [settledItems, ih, List.map_cons]

theorem settled_members_map (members : List (String × Json)) :
    settledMembers members = members.map fun m => (m.1, m.2.settled) := by
  induction members with
  | nil => rfl
  | cons m members ih => rw [settledMembers, ih, List.map_cons]

theorem put_fresh {name : String} {members : List (String × Json)} (value : Json)
    (h : name ∉ members.map Prod.fst) : put name value members = members ++ [(name, value)] := by
  induction members with
  | nil => rfl
  | cons m members ih =>
    obtain ⟨n, v⟩ := m
    simp only [List.map_cons, List.mem_cons, not_or] at h
    rw [put, if_neg (Ne.symm h.1), ih h.2, List.cons_append]

namespace Reader

/-- A reader that takes any value next, inside the given frames. -/
def Ready (r : Reader) (frames : List Frame) : Prop :=
  ∀ t, t ≠ .closeArray → r.step t = start frames t

theorem ready_value (frames : List Frame) : Ready (value frames) frames :=
  fun _ _ => rfl

theorem ready_item (frames : List Frame) : Ready (itemOrEnd frames) (.array [] :: frames) := by
  intro t ht
  cases t <;> first | rfl | exact absurd rfl ht

theorem run_step {r r' : Reader} {t : Token} (h : r.step t = some r') (ts : List Token) :
    run r (t :: ts) = run r' ts := by
  cases r <;> simp only [run, h]

/-- The tokens of a value are read as that value, as far as it has a text. -/
def ReadsBack (v : Json) : Prop :=
  ∀ r frames, Ready r frames → ∀ ts, run r (v.tokens ++ ts) = run (complete v.settled frames) ts

theorem run_items {v : Json} {vs : List Json} (hv : ∀ w ∈ v :: vs, ReadsBack w) {r : Reader}
    {frames : List Frame} {seen : List Json} (hr : Ready r (.array seen :: frames))
    (ts : List Token) :
    run r ([.comma].intercalate (itemTokens (v :: vs)) ++ .closeArray :: ts)
      = run (complete (.array (seen.reverse ++ settledItems (v :: vs))) frames) ts := by
  induction vs generalizing v r seen with
  | nil =>
    rw [itemTokens, itemTokens, List.intercalate_singleton, hv v List.mem_cons_self _ _ hr,
      complete, run_step rfl, List.reverse_cons]
    rfl
  | cons w vs ih =>
    have hw := ih (fun u hu => hv u (List.mem_cons_of_mem _ hu))
      (ready_value (.array (v.settled :: seen) :: frames))
    rw [itemTokens] at hw
    rw [itemTokens, itemTokens, List.intercalate_cons_cons, List.append_assoc, List.append_assoc,
      hv v List.mem_cons_self _ _ hr, complete, List.singleton_append, run_step rfl, hw,
      List.reverse_cons, List.append_assoc]
    rfl

theorem run_members {m : String × Json} {members : List (String × Json)}
    (hm : ∀ n ∈ m :: members, ReadsBack n.2) {r : Reader} {frames : List Frame}
    {seen : List (String × Json)} (hr : ∀ n, r.step (.string n) = some (colon frames seen n))
    (hd : (seen.map Prod.fst ++ (m :: members).map Prod.fst).Nodup) (ts : List Token) :
    run r ([.comma].intercalate (memberTokens (m :: members)) ++ .closeObject :: ts)
      = run (complete (.object (seen ++ settledMembers (m :: members))) frames) ts := by
  induction members generalizing m r seen with
  | nil =>
    obtain ⟨name, v⟩ := m
    have hn : name ∉ seen.map Prod.fst := fun h =>
      (List.nodup_append.mp hd).2.2 _ h _ List.mem_cons_self rfl
    rw [memberTokens, memberTokens, List.intercalate_singleton, List.cons_append, List.cons_append,
      run_step (hr name), run_step rfl, hm _ List.mem_cons_self _ _ (ready_value _), complete,
      put_fresh _ hn, run_step rfl]
    rfl
  | cons m' members ih =>
    obtain ⟨name, v⟩ := m
    have hn : name ∉ seen.map Prod.fst := fun h =>
      (List.nodup_append.mp hd).2.2 _ h _ List.mem_cons_self rfl
    have hw := @ih m' (fun n h => hm n (List.mem_cons_of_mem _ h))
      (.name frames (seen ++ [(name, v.settled)])) (seen ++ [(name, v.settled)]) (fun _ => rfl)
      (by simpa using hd)
    obtain ⟨name', v'⟩ := m'
    rw [memberTokens] at hw
    rw [memberTokens, memberTokens, List.intercalate_cons_cons, List.append_assoc,
      List.append_assoc, List.cons_append, List.cons_append, run_step (hr name), run_step rfl,
      hm _ List.mem_cons_self _ _ (ready_value _), complete, put_fresh _ hn, List.singleton_append,
      run_step rfl, hw, List.append_assoc]
    rfl

theorem ready_first {r r' : Reader} {frames : List Frame} (h : Ready r frames) {t : Token}
    (ht : t ≠ .closeArray) (hs : start frames t = some r') (ts : List Token) :
    run r (t :: ts) = run r' ts :=
  run_step ((h t ht).trans hs) ts

theorem read_array {items : List Json} (hv : ∀ v ∈ items, ReadsBack v) :
    ReadsBack (.array items) := by
  intro r frames hr ts
  rw [tokens, List.cons_append, ready_first hr (by simp) rfl, List.append_assoc]
  cases items with
  | nil => exact run_step rfl ts
  | cons v vs => exact run_items hv (ready_item frames) ts

theorem read_object {members : List (String × Json)} (hd : (members.map Prod.fst).Nodup)
    (hm : ∀ m ∈ members, ReadsBack m.2) : ReadsBack (.object members) := by
  intro r frames hr ts
  rw [tokens, List.cons_append, ready_first hr (by simp) rfl, List.append_assoc]
  cases members with
  | nil => exact run_step rfl ts
  | cons m members =>
    exact @run_members m members hm _ frames [] (fun _ => rfl) (by simpa using hd) ts

mutual

theorem reads_back : (v : Json) → v.Distinct → ReadsBack v
  | .null, _ => fun _ _ h _ => ready_first h (by simp) rfl _
  | .bool _, _ => fun _ _ h _ => ready_first h (by simp) rfl _
  | .number (.finite _ _), _ => fun _ _ h _ => ready_first h (by simp) rfl _
  | .number .nan, _ => fun _ _ h _ => ready_first h (by simp) rfl _
  | .number (.infinite _), _ => fun _ _ h _ => ready_first h (by simp) rfl _
  | .string _, _ => fun _ _ h _ => ready_first h (by simp) rfl _
  | .array items, hd => read_array (items_read_back items hd)
  | .object members, hd => read_object hd.1 (members_read_back members hd.2)

theorem items_read_back : (vs : List Json) → DistinctItems vs → ∀ v ∈ vs, ReadsBack v
  | [], _ => by simp
  | v :: vs, hd => List.forall_mem_cons.mpr ⟨reads_back v hd.1, items_read_back vs hd.2⟩

theorem members_read_back : (members : List (String × Json)) → DistinctMembers members →
    ∀ m ∈ members, ReadsBack m.2
  | [], _ => by simp
  | (_, v) :: members, hd =>
    List.forall_mem_cons.mpr ⟨reads_back v hd.1, members_read_back members hd.2⟩

end

end Reader

/-- A value can be read back from whatever is read as its tokens. -/
theorem parse_reads {text : String} {v : Json} (hr : Reads text v.tokens) (hd : v.Distinct) :
    parse? text = some v.settled := by
  have h := Reader.reads_back v hd (.value []) [] (Reader.ready_value []) []
  rw [List.append_nil] at h
  rw [parse?, read?, scan_of_reads hr]
  exact h

/-- A value can be read back from its text. -/
theorem parse_pretty {v : Json} (hd : v.Distinct) : parse? v.pretty = some v.settled :=
  parse_reads (reads_value 0 v) hd

theorem parse_compact {v : Json} (hd : v.Distinct) : parse? v.compact = some v.settled :=
  parse_reads (reads_compact v) hd

theorem distinct_items {vs : List Json} : DistinctItems vs ↔ ∀ v ∈ vs, v.Distinct := by
  induction vs with
  | nil => simp [DistinctItems]
  | cons v vs ih => rw [DistinctItems, ih, List.forall_mem_cons]

theorem distinct_members {members : List (String × Json)} :
    DistinctMembers members ↔ ∀ m ∈ members, m.2.Distinct := by
  induction members with
  | nil => simp [DistinctMembers]
  | cons m members ih => rw [DistinctMembers, ih, List.forall_mem_cons]

theorem put_mem {name : String} {value : Json} {members : List (String × Json)}
    {m : String × Json} (h : m ∈ put name value members) : m = (name, value) ∨ m ∈ members := by
  induction members with
  | nil => exact .inl (List.mem_singleton.mp h)
  | cons n members ih =>
    rw [put] at h
    split at h
    · rcases List.mem_cons.mp h with rfl | hm
      · exact .inl rfl
      · exact .inr (List.mem_cons_of_mem _ hm)
    · rcases List.mem_cons.mp h with rfl | hm
      · exact .inr List.mem_cons_self
      · rcases ih hm with rfl | hm
        · exact .inl rfl
        · exact .inr (List.mem_cons_of_mem _ hm)

theorem put_nodup {name : String} {value : Json} {members : List (String × Json)}
    (h : (members.map Prod.fst).Nodup) : ((put name value members).map Prod.fst).Nodup := by
  induction members with
  | nil => simp [put]
  | cons n members ih =>
    rw [List.map_cons, List.nodup_cons] at h
    rw [put]
    split
    · rename_i hn
      rw [List.map_cons, List.nodup_cons]
      exact ⟨hn ▸ h.1, h.2⟩
    · rename_i hn
      rw [List.map_cons, List.nodup_cons]
      refine ⟨?_, ih h.2⟩
      intro hm
      obtain ⟨m, hm, he⟩ := List.mem_map.mp hm
      rcases put_mem hm with rfl | hm
      · exact hn he.symm
      · exact h.1 (List.mem_map.mpr ⟨m, hm, he⟩)

/-- Members of an object that names none twice, with values that do not either. -/
def Clear (members : List (String × Json)) : Prop :=
  (members.map Prod.fst).Nodup ∧ ∀ m ∈ members, m.2.Distinct

theorem distinct_object {members : List (String × Json)} :
    (object members).Distinct ↔ Clear members := by
  rw [Distinct, distinct_members, Clear]

theorem clear_put {name : String} {value : Json} {members : List (String × Json)}
    (hv : value.Distinct) (h : Clear members) : Clear (put name value members) := by
  refine ⟨put_nodup h.1, ?_⟩
  intro m hm
  rcases put_mem hm with rfl | hm
  · exact hv
  · exact h.2 m hm

def Frame.Distinct : Frame → Prop
  | array items => ∀ v ∈ items, v.Distinct
  | object members _ => Clear members

namespace Reader

/-- Nothing that was read so far names a member twice. -/
def Distinct : Reader → Prop
  | value frames => ∀ f ∈ frames, f.Distinct
  | itemOrEnd frames => ∀ f ∈ frames, f.Distinct
  | afterItem frames items => (∀ v ∈ items, v.Distinct) ∧ ∀ f ∈ frames, f.Distinct
  | nameOrEnd frames => ∀ f ∈ frames, f.Distinct
  | name frames members => Clear members ∧ ∀ f ∈ frames, f.Distinct
  | colon frames members _ => Clear members ∧ ∀ f ∈ frames, f.Distinct
  | afterMember frames members => Clear members ∧ ∀ f ∈ frames, f.Distinct
  | finished v => v.Distinct

theorem complete_distinct {v : Json} {frames : List Frame} (hv : v.Distinct)
    (h : ∀ f ∈ frames, f.Distinct) : (complete v frames).Distinct := by
  cases frames with
  | nil => exact hv
  | cons f frames =>
    obtain ⟨hf, hr⟩ := List.forall_mem_cons.mp h
    cases f with
    | array items => exact ⟨List.forall_mem_cons.mpr ⟨hv, hf⟩, hr⟩
    | object members n => exact ⟨clear_put hv hf, hr⟩

theorem start_distinct {frames : List Frame} {t : Token} {r : Reader}
    (h : ∀ f ∈ frames, f.Distinct) (hs : start frames t = some r) : r.Distinct := by
  cases t <;> cases hs <;> first | exact h | exact complete_distinct trivial h

theorem clear_nil : Clear [] :=
  ⟨List.nodup_nil, by simp⟩

theorem step_distinct {r r' : Reader} {t : Token} (h : r.Distinct) (hs : r.step t = some r') :
    r'.Distinct := by
  cases r with
  | value frames => exact start_distinct h hs
  | itemOrEnd frames =>
    by_cases ht : t = .closeArray
    · subst ht
      cases hs
      exact complete_distinct trivial h
    · rw [ready_item frames t ht] at hs
      exact start_distinct (List.forall_mem_cons.mpr ⟨by simp [Frame.Distinct], h⟩) hs
  | afterItem frames items =>
    cases t <;> cases hs
    · refine complete_distinct (distinct_items.mpr fun v hv => ?_) h.2
      exact h.1 v (List.mem_reverse.mp hv)
    · exact List.forall_mem_cons.mpr h
  | nameOrEnd frames =>
    cases t <;> cases hs
    · exact complete_distinct (distinct_object.mpr clear_nil) h
    · exact ⟨clear_nil, h⟩
  | name frames members =>
    cases t <;> cases hs
    exact h
  | colon frames members n =>
    cases t <;> cases hs
    exact List.forall_mem_cons.mpr h
  | afterMember frames members =>
    cases t <;> cases hs
    · exact complete_distinct (distinct_object.mpr h.1) h.2
    · exact h
  | finished v => cases hs

theorem run_distinct {r : Reader} {ts : List Token} {v : Json} (h : r.Distinct)
    (hr : r.run ts = some v) : v.Distinct := by
  induction ts generalizing r with
  | nil =>
    cases r with
    | finished w =>
      cases hr
      exact h
    | _ => cases hr
  | cons t ts ih =>
    cases hs : r.step t with
    | none => simp [run, hs] at hr
    | some r' =>
      rw [run_step hs] at hr
      exact ih (step_distinct h hs) hr

end Reader

/-- No object that was read from text names a member twice. -/
theorem read_distinct {cs : List Char} {v : Json} (h : read? cs = some v) : v.Distinct := by
  unfold read? at h
  split at h
  · exact Reader.run_distinct (by simp [Reader.Distinct]) h
  · contradiction

theorem parse_lenient_distinct {text : String} {v : Json} (h : parseLenient? text = some v) :
    v.Distinct := by
  unfold parseLenient? at h
  dsimp only at h
  split at h
  · rename_i hr
    exact Option.some.inj h ▸ read_distinct hr
  · exact read_distinct h

end SchemaHistory.Json
