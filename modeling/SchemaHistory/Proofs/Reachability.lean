import Mathlib.Order.Bounds.Defs
import SchemaHistory.Model.Reachable
import SchemaHistory.Proofs.Unchanged

namespace SchemaHistory

/-- The names that a definition refers to: interfaces or members of a union, the types of fields and
of their arguments, the types of input fields. -/
inductive TypeDef.RefersTo (t : TypeDef) : String → Prop where
  | link {name : String} : name ∈ t.links → RefersTo t name
  | field {f : Field} : f ∈ t.fields → RefersTo t f.type.baseName
  | argument {f : Field} {a : Argument} : f ∈ t.fields → a ∈ f.args → RefersTo t a.type.baseName
  | input {a : Argument} : a ∈ t.inputs → RefersTo t a.type.baseName

/-- An object type of which only the fields and their types matter. -/
def TypeDef.record (name : String) (fields : List (String × TypeRef)) : TypeDef :=
  ⟨name, none, .object [] (fields.map fun f => ⟨f.1, none, f.2, [], false, none⟩)⟩

theorem TypeDef.references_split (t : TypeDef) :
    t.references = t.links ++ t.fields.flatMap Field.references
      ++ t.inputs.map fun a => a.type.baseName := by
  obtain ⟨_, _, body⟩ := t
  cases body <;> simp [references, links, fields, inputs]

theorem TypeDef.mem_references {t : TypeDef} {name : String} :
    name ∈ t.references ↔ t.RefersTo name := by
  rw [references_split]
  constructor
  · intro h
    rcases List.mem_append.mp h with h | h
    · rcases List.mem_append.mp h with h | h
      · exact .link h
      · obtain ⟨f, hf, h⟩ := List.mem_flatMap.mp h
        rcases List.mem_cons.mp h with rfl | h
        · exact .field hf
        · obtain ⟨a, ha, rfl⟩ := List.mem_map.mp h
          exact .argument hf ha
    · obtain ⟨a, ha, rfl⟩ := List.mem_map.mp h
      exact .input ha
  · intro h
    cases h with
    | link h => exact List.mem_append_left _ (List.mem_append_left _ h)
    | field hf =>
      exact List.mem_append_left _ (List.mem_append_right _
        (List.mem_flatMap.mpr ⟨_, hf, List.mem_cons_self⟩))
    | argument hf ha =>
      exact List.mem_append_left _ (List.mem_append_right _
        (List.mem_flatMap.mpr ⟨_, hf, List.mem_cons_of_mem _ (List.mem_map_of_mem ha)⟩))
    | input ha => exact List.mem_append_right _ (List.mem_map_of_mem ha)

namespace Model

/-- What a type leads to in a number of steps. A step goes to a name that a definition refers to, if
the name is defined and no leaf. -/
inductive ReachedIn (m : Model) (custom : List String) (start : String) : Nat → String → Prop where
  | start : ReachedIn m custom start 0 start
  | step {k : Nat} {t : TypeDef} {name : String} : ReachedIn m custom start k t.name →
    t ∈ m.types → t.RefersTo name → name ∈ m.names → Scalar.isLeaf custom name = false →
    ReachedIn m custom start (k + 1) name

/-- Whatever is reached is the start, or defined and no leaf. -/
theorem ReachedIn.visible {m : Model} {custom : List String} {start : String} {k : Nat}
    {name : String} (h : m.ReachedIn custom start k name) :
    name = start ∨ name ∈ m.names ∧ Scalar.isLeaf custom name = false := by
  cases h with
  | start => exact .inl rfl
  | step _ _ _ hname hleaf => exact .inr ⟨hname, hleaf⟩

theorem defines_iff {m : Model} {name : String} : m.defines name = true ↔ name ∈ m.names :=
  List.contains_iff_mem

theorem mem_next {m : Model} (hm : m.names.Nodup) {name other : String} :
    other ∈ m.next name ↔ ∃ t ∈ m.types, t.name = name ∧ t.RefersTo other := by
  unfold next
  cases hf : m.find? name with
  | none =>
    have hno := find_none_iff.mp hf
    constructor
    · intro h
      contradiction
    · rintro ⟨t, ht, rfl, _⟩
      exact absurd (mem_names ht) hno
  | some t =>
    obtain ⟨ht, hn⟩ := (find_iff hm).mp hf
    rw [Option.elim_some, TypeDef.mem_references]
    constructor
    · intro h
      exact ⟨t, ht, hn, h⟩
    · rintro ⟨u, hu, he, h⟩
      rw [(find_iff hm).mpr ⟨hu, he⟩] at hf
      exact Option.some.inj hf ▸ h

theorem discover_splits {unseen : List String} (names : List String) (hu : unseen.Nodup) :
    (discover unseen names).1.Nodup ∧ (discover unseen names).2.Nodup ∧
    (∀ n, n ∈ (discover unseen names).1 ↔ n ∈ unseen ∧ n ∈ names) ∧
    ∀ n, n ∈ (discover unseen names).2 ↔ n ∈ unseen ∧ n ∉ names := by
  induction names generalizing unseen with
  | nil => simp [discover, hu]
  | cons name names ih =>
    unfold discover
    split
    · rename_i hmem
      obtain ⟨hf, hl, hfound, hleft⟩ := ih (hu.erase name)
      refine ⟨List.nodup_cons.mpr ⟨?_, hf⟩, hl, fun n => ?_, fun n => ?_⟩
      · intro h
        exact (hu.mem_erase_iff.mp ((hfound name).mp h).1).1 rfl
      · rw [List.mem_cons, hfound, hu.mem_erase_iff, List.mem_cons]
        constructor
        · rintro (rfl | ⟨⟨_, hn⟩, hs⟩)
          · exact ⟨hmem, .inl rfl⟩
          · exact ⟨hn, .inr hs⟩
        · rintro ⟨hn, rfl | hs⟩
          · exact .inl rfl
          · by_cases he : n = name
            · exact .inl he
            · exact .inr ⟨⟨he, hn⟩, hs⟩
      · rw [hleft, hu.mem_erase_iff, List.mem_cons, not_or]
        tauto
    · rename_i hno
      obtain ⟨hf, hl, hfound, hleft⟩ := ih hu
      have hne : ∀ n ∈ unseen, n ≠ name := by
        rintro n hn rfl
        exact hno hn
      refine ⟨hf, hl, fun n => ?_, fun n => ?_⟩
      · rw [hfound, List.mem_cons]
        exact and_congr_right fun hn => (or_iff_right (hne n hn)).symm
      · rw [hleft, List.mem_cons, not_or]
        exact and_congr_right fun hn => (and_iff_right (hne n hn)).symm

/-- One name is at most a number of steps farther from the start than another one. -/
def AtMost (m : Model) (custom : List String) (start : String) (steps : Nat)
    (name other : String) : Prop :=
  ∀ k, m.ReachedIn custom start k other → ∃ j ≤ k + steps, m.ReachedIn custom start j name

/-- A search on its way: the names that it has visited, those that wait in the queue and those that
it has not seen yet. -/
structure Frontier (m : Model) (custom : List String) (start : String)
    (visited queue unseen : List String) : Prop where
  distinct : (visited ++ queue).Nodup
  unseen_distinct : unseen.Nodup
  start_seen : start ∈ visited ++ queue
  unseen_iff : ∀ n, n ∈ unseen ↔
    n ∈ m.names ∧ Scalar.isLeaf custom n = false ∧ n ∉ visited ++ queue
  reached : ∀ n ∈ visited ++ queue, ∃ k, m.ReachedIn custom start k n
  followed : ∀ t ∈ m.types, t.name ∈ visited → ∀ n, t.RefersTo n → n ∉ unseen
  ordered : (visited ++ queue).Pairwise (m.AtMost custom start 0)
  near : ∀ h ∈ queue.head?, ∀ n ∈ queue, m.AtMost custom start 1 n h

variable {m : Model} {custom : List String} {start : String} {visited queue unseen : List String}

/-- An unseen name can be reached only through the queue. -/
theorem Frontier.behind (h : m.Frontier custom start visited queue unseen) {k : Nat} {n : String}
    (hr : m.ReachedIn custom start k n) (hn : n ∈ unseen) :
    ∃ q ∈ queue, ∃ j, j < k ∧ m.ReachedIn custom start j q := by
  induction hr with
  | start => exact absurd h.start_seen ((h.unseen_iff start).mp hn).2.2
  | @step k t n hr ht href hname hleaf ih =>
    by_cases hseen : t.name ∈ visited ++ queue
    · rcases List.mem_append.mp hseen with hv | hq
      · exact absurd hn (h.followed t ht hv n href)
      · exact ⟨t.name, hq, k, Nat.lt_succ_self k, hr⟩
    · have hne : t.name ≠ start := fun he => hseen (he ▸ h.start_seen)
      obtain ⟨hdefined, hclear⟩ := hr.visible.resolve_left hne
      have hopen : t.name ∈ unseen := (h.unseen_iff _).mpr ⟨hdefined, hclear, hseen⟩
      obtain ⟨q, hq, j, hj, hqr⟩ := ih hopen
      exact ⟨q, hq, j, Nat.lt_succ_of_lt hj, hqr⟩

/-- An unseen name is farther from the start than the head of the queue. -/
theorem Frontier.beyond {head : String}
    (h : m.Frontier custom start visited (head :: queue) unseen) {k : Nat} {n : String}
    (hr : m.ReachedIn custom start k n) (hn : n ∈ unseen) :
    ∃ j, j < k ∧ m.ReachedIn custom start j head := by
  obtain ⟨q, hq, j, hj, hqr⟩ := h.behind hr hn
  rcases List.mem_cons.mp hq with rfl | hq
  · exact ⟨j, hj, hqr⟩
  · have hsorted := (List.pairwise_append.mp h.ordered).2.1
    obtain ⟨i, hi, hhead⟩ := List.rel_of_pairwise_cons hsorted hq j hqr
    exact ⟨i, by omega, hhead⟩

theorem Frontier.found (h : m.Frontier custom start visited (head :: queue) unseen)
    (hm : m.names.Nodup) {n : String} (hn : n ∈ (discover unseen (m.next head)).1) {k : Nat}
    (hk : m.ReachedIn custom start k head) : m.ReachedIn custom start (k + 1) n := by
  obtain ⟨_, _, hfound, _⟩ := discover_splits (m.next head) h.unseen_distinct
  obtain ⟨hu, hnext⟩ := (hfound n).mp hn
  obtain ⟨t, ht, rfl, href⟩ := (mem_next hm).mp hnext
  obtain ⟨hname, hleaf, _⟩ := (h.unseen_iff n).mp hu
  exact .step hk ht href hname hleaf

/-- Visiting the head of the queue keeps a search on its way. -/
theorem Frontier.step {head : String}
    (h : m.Frontier custom start visited (head :: queue) unseen) (hm : m.names.Nodup) :
    m.Frontier custom start (visited ++ [head])
      (queue ++ (discover unseen (m.next head)).1) (discover unseen (m.next head)).2 := by
  obtain ⟨hfd, hld, hfound, hleft⟩ := discover_splits (m.next head) h.unseen_distinct
  set found := (discover unseen (m.next head)).1
  set left := (discover unseen (m.next head)).2
  have hseen : visited ++ [head] ++ (queue ++ found) = visited ++ head :: queue ++ found := by simp
  have hnew : ∀ n ∈ found, n ∈ unseen := fun n hn => ((hfound n).mp hn).1
  have hsorted := (List.pairwise_append.mp h.ordered).2.1
  have hwait : ∀ q ∈ head :: queue, ∀ n ∈ found, m.AtMost custom start 0 q n := by
    intro q hq n hn k hk
    obtain ⟨j, hj, hhead⟩ := h.beyond hk (hnew n hn)
    obtain ⟨i, hi, hqr⟩ := h.near head rfl q hq j hhead
    exact ⟨i, by omega, hqr⟩
  have hlast : ∀ q ∈ queue ++ found, m.AtMost custom start 1 q head := by
    intro q hq
    rcases List.mem_append.mp hq with hq | hq
    · exact h.near head rfl q (List.mem_cons_of_mem _ hq)
    · intro k hk
      exact ⟨k + 1, Nat.le_refl _, h.found hm hq hk⟩
  have hhead : ∀ q ∈ queue ++ found, m.AtMost custom start 0 head q := by
    intro q hq
    rcases List.mem_append.mp hq with hq | hq
    · exact List.rel_of_pairwise_cons hsorted hq
    · exact hwait head List.mem_cons_self q hq
  refine ⟨?distinct, hld, ?start_seen, ?unseen_iff, ?reached, ?followed, ?ordered, ?near⟩
  case distinct =>
    rw [hseen]
    refine h.distinct.append hfd fun n hs hn => ?_
    exact ((h.unseen_iff n).mp (hnew n hn)).2.2 hs
  case start_seen =>
    rw [hseen]
    exact List.mem_append_left _ h.start_seen
  case unseen_iff =>
    intro n
    rw [hseen, hleft, List.mem_append, not_or, hfound, h.unseen_iff]
    tauto
  case reached =>
    rw [hseen]
    intro n hn
    rcases List.mem_append.mp hn with hn | hn
    · exact h.reached n hn
    · obtain ⟨k, hk⟩ := h.reached head (List.mem_append_right _ List.mem_cons_self)
      exact ⟨k + 1, h.found hm hn hk⟩
  case followed =>
    intro t ht hv n href hn
    obtain ⟨hu, hno⟩ := (hleft n).mp hn
    rcases List.mem_append.mp hv with hv | hv
    · exact h.followed t ht hv n href hu
    · exact hno ((mem_next hm).mpr ⟨t, ht, List.mem_singleton.mp hv, href⟩)
  case ordered =>
    rw [hseen]
    refine List.pairwise_append.mpr ⟨h.ordered, ?_, fun a ha b hb => ?_⟩
    · refine List.pairwise_of_forall_mem_list fun a ha b hb k hk => ?_
      obtain ⟨j, hj, hr⟩ := h.beyond hk (hnew b hb)
      exact ⟨j + 1, hj, h.found hm ha hr⟩
    · rcases List.mem_append.mp ha with ha | ha
      · have hfirst := (List.pairwise_append.mp h.ordered).2.2 a ha head List.mem_cons_self
        intro k hk
        obtain ⟨j, hj, hr⟩ := hwait head List.mem_cons_self b hb k hk
        obtain ⟨i, hi, ha⟩ := hfirst j hr
        exact ⟨i, by omega, ha⟩
      · exact hwait a ha b hb
  case near =>
    intro front hfront n hn k hk
    obtain ⟨j, hj, hr⟩ := hhead front (List.mem_of_mem_head? hfront) k hk
    obtain ⟨i, hi, hn⟩ := hlast n hn j hr
    exact ⟨i, by omega, hn⟩

/-- A search visits what waits in its queue and what it discovers, until nothing waits. -/
theorem Frontier.walked (h : m.Frontier custom start visited queue unseen) (hm : m.names.Nodup) :
    ∃ left, m.Frontier custom start (visited ++ walk m.next unseen queue) [] left := by
  fun_induction walk m.next unseen queue generalizing visited with
  | case1 unseen => exact ⟨unseen, by rwa [List.append_nil]⟩
  | case2 =>
    rename_i ih
    obtain ⟨left, hw⟩ := ih (h.step hm)
    exact ⟨left, by simpa using hw⟩

/-- A search starts with one name in its queue. -/
theorem frontier_start (hm : m.names.Nodup) :
    m.Frontier custom start [] [start]
      (m.names.filter fun n => n != start && !Scalar.isLeaf custom n) where
  distinct := List.nodup_singleton start
  unseen_distinct := hm.filter _
  start_seen := List.mem_singleton_self start
  unseen_iff n := by
    simp only [List.mem_filter, Bool.and_eq_true, bne_iff_ne, Bool.not_eq_true', List.nil_append,
      List.mem_singleton]
    tauto
  reached n hn := ⟨0, List.mem_singleton.mp hn ▸ .start⟩
  followed := nofun
  ordered := List.pairwise_singleton _ start
  near h hh n hn := by
    obtain rfl : start = h := by simpa using hh
    obtain rfl := List.mem_singleton.mp hn
    exact fun k hk => ⟨k, Nat.le_succ k, hk⟩

/-- The search from a defined type, at its end. -/
theorem reachable_frontier (custom : List String) (hm : m.names.Nodup) (hs : start ∈ m.names) :
    ∃ left, m.Frontier custom start (m.reachable custom start) [] left := by
  rw [reachable, if_pos (defines_iff.mpr hs)]
  exact (frontier_start hm).walked hm

theorem mem_reachable (hm : m.names.Nodup) (hs : start ∈ m.names) {n : String} :
    n ∈ m.reachable custom start ↔ ∃ k, m.ReachedIn custom start k n := by
  obtain ⟨left, h⟩ := reachable_frontier custom hm hs
  constructor
  · intro hn
    exact h.reached n (List.mem_append_left _ hn)
  · rintro ⟨k, hk⟩
    by_contra hn
    have hseen : n ∉ m.reachable custom start ++ [] := by rwa [List.append_nil]
    have hne : n ≠ start := fun he => hseen (he ▸ h.start_seen)
    obtain ⟨hname, hleaf⟩ := hk.visible.resolve_left hne
    obtain ⟨q, hq, _⟩ := h.behind hk ((h.unseen_iff n).mpr ⟨hname, hleaf, hseen⟩)
    contradiction

theorem reachable_undefined (hs : start ∉ m.names) : m.reachable custom start = [] := by
  rw [reachable, if_neg fun h => hs (defines_iff.mp h)]

theorem reachable_head (custom : List String) (hs : start ∈ m.names) :
    ∃ rest, m.reachable custom start = start :: rest := by
  rw [reachable, if_pos (defines_iff.mpr hs), walk]
  exact ⟨_, rfl⟩

theorem reachable_distinct (hm : m.names.Nodup) : (m.reachable custom start).Nodup := by
  by_cases hs : start ∈ m.names
  · obtain ⟨left, h⟩ := reachable_frontier custom hm hs
    simpa using h.distinct
  · rw [reachable_undefined hs]
    exact List.nodup_nil

/-- No more names are visited than the model defines. -/
theorem reachable_defined (hm : m.names.Nodup) : m.reachable custom start ⊆ m.names := by
  intro n hn
  by_cases hs : start ∈ m.names
  · obtain ⟨k, hk⟩ := (mem_reachable hm hs).mp hn
    rcases hk.visible with rfl | ⟨hname, _⟩
    · exact hs
    · exact hname
  · rw [reachable_undefined hs] at hn
    contradiction

/-- The search gives nothing for a name without a definition. For a defined one it gives just what
can be reached from it, that name first, each name once, and the nearer before the farther. It
visits no more names than there are types. -/
theorem reachable_exact (hm : m.names.Nodup) (custom : List String) (start : String) :
    (m.reachable custom start = [] ↔ start ∉ m.names) ∧
    (m.reachable custom start).length ≤ m.types.length ∧
    (start ∈ m.names →
      (∃ rest, m.reachable custom start = start :: rest) ∧
      (m.reachable custom start).Nodup ∧
      (∀ n, n ∈ m.reachable custom start ↔ ∃ k, m.ReachedIn custom start k n) ∧
      (m.reachable custom start).Pairwise fun a b => ∀ j k,
        IsLeast {i | m.ReachedIn custom start i a} j →
        IsLeast {i | m.ReachedIn custom start i b} k → j ≤ k) := by
  refine ⟨⟨fun h hs => ?_, reachable_undefined⟩, ?_, fun hs => ?_⟩
  · obtain ⟨rest, hr⟩ := reachable_head custom hs
    rw [h] at hr
    contradiction
  · have hle : (m.reachable custom start).length ≤ m.names.length :=
      ((reachable_distinct hm).subperm (reachable_defined hm)).length_le
    rwa [names, List.length_map] at hle
  · obtain ⟨left, h⟩ := reachable_frontier custom hm hs
    have hordered := h.ordered
    rw [List.append_nil] at hordered
    refine ⟨reachable_head custom hs, reachable_distinct hm, fun n => mem_reachable hm hs, ?_⟩
    refine hordered.imp fun hab j k hj hk => ?_
    obtain ⟨i, hi, hr⟩ := hab k hk.1
    exact (hj.2 hr).trans hi

/-- Posts and users that refer to each other, a scalar, and a name without a definition. -/
def threads : Model :=
  ⟨[.record "Query" [("post", .named "Post")],
    .record "Post" [("author", .nonNull (.named "User")), ("day", .named "Date")],
    .record "User" [("posts", .list (.named "Post")), ("home", .named "Address")],
    ⟨"Date", none, .scalar⟩], "Query", none, none⟩

theorem reachable_exact_threads :
    threads.names.Nodup ∧ "Post" ∈ threads.names ∧
    "User" ∈ threads.reachable ["Date"] "Post" ∧ "Date" ∉ threads.reachable ["Date"] "Post" ∧
    "Address" ∉ threads.reachable ["Date"] "Post" ∧ (threads.reachable ["Date"] "Post").Nodup ∧
    threads.reachable ["Date"] "Address" = [] := by
  have hn : threads.names.Nodup := by decide
  obtain ⟨_, _, h⟩ := reachable_exact hn ["Date"] "Post"
  obtain ⟨_, hd, hmem, _⟩ := h (by decide)
  refine ⟨hn, by decide, (hmem _).mpr ⟨1, ?_⟩, fun hdate => ?_, fun haddress => ?_, hd,
    (reachable_exact hn ["Date"] "Address").1.mpr (by decide)⟩
  · obtain ⟨t, ht, hname, href⟩ := (mem_next hn).mp (by decide : "User" ∈ threads.next "Post")
    exact .step (hname ▸ .start) ht href (by decide) (by decide)
  · obtain ⟨_, hk⟩ := (hmem _).mp hdate
    exact absurd hk.visible (by decide)
  · obtain ⟨_, hk⟩ := (hmem _).mp haddress
    exact absurd hk.visible (by decide)

end Model

end SchemaHistory
