import SchemaHistory.Proofs.Built
import SchemaHistory.Proofs.Listings

namespace SchemaHistory

/-- What is asked of a store. -/
inductive Request where
  | save (snapshot : Snapshot)
  | delete (key : String)
  | load (key : String)
  | loadVersion (key : String) (version : Binary64)
  | versions (key : String)
  | keys

/-- What a store answers. -/
inductive Reply where
  | done
  | snapshot (found : Option Snapshot)
  | snapshots (all : List Snapshot)
  | keys (all : List String)

namespace Store

def perform : Request → Action Reply
  | .save s => do
    save s
    return .done
  | .delete key => do
    delete key
    return .done
  | .load key => return .snapshot (← load key)
  | .loadVersion key version => return .snapshot (← loadVersion key version)
  | .versions key => return .snapshots (← versions key)
  | .keys => return .keys (← keys)

/-- The answers of a run. A request that fails does not end it. -/
def answers (s : Store) : List Request → List (Except Failure Reply)
  | [] => []
  | r :: rs => (perform r s).answer :: answers (perform r s).store rs

end Store

/-- A store without files: the snapshot for each version of each key. -/
def Archive := String → Store.Versions

namespace Archive

def empty : Archive :=
  fun _ _ => none

/-- What a request changes. A snapshot is kept as far as it has a text. -/
def after (m : Archive) : Request → Archive
  | .save s => fun k => if k = s.key then (m k).set s.settled else m k
  | .delete key => fun k => if k = key then fun _ => none else m k
  | _ => m

/-- The right answer to a request. -/
def Answers (m : Archive) : Request → Reply → Prop
  | .save _, .done => True
  | .delete _, .done => True
  | .load key, .snapshot found => Store.IsLatest (m key) found
  | .loadVersion key version, .snapshot found => found = m key version
  | .versions key, .snapshots xs =>
    Store.Ascending (m key) xs ∧ Store.IsLatest (m key) xs.getLast?
  | .keys, .keys ks =>
    ks.Pairwise (fun a b => Text.units a < Text.units b) ∧ ∀ k, k ∈ ks ↔ ∃ v, m k v ≠ none
  | _, _ => False

/-- Every answer of a run is the right one, and none is a failure. -/
def Follows (m : Archive) : List Request → List (Except Failure Reply) → Prop
  | [], [] => True
  | r :: rs, .ok a :: as => m.Answers r a ∧ (m.after r).Follows rs as
  | _, _ => False

end Archive

/-- The requests that a store for some keys is meant for. A saved schema was read from a
document. -/
def Request.Admissible (names : Set String) : Request → Prop
  | save s => s.key ∈ names ∧ (∃ d, d.Distinct ∧ Introspection.parse d = .ok s.schema) ∧
    s.version.Counted ∧ ∀ ms ∈ s.metadata, Json.Clear ms ∧ ∀ m ∈ ms, m.1 ≠ "__proto__"
  | delete key => key ∈ names
  | load key => key ∈ names
  | loadVersion key _ => key ∈ names
  | versions key => key ∈ names
  | keys => True

theorem RefChain.distinct (chain : RefChain) : chain.toJson.Distinct := by
  have hname (name : Option String) : (nameJson name).Distinct := by
    cases name <;> trivial
  induction chain with
  | last kind name => exact ⟨by simp, trivial, hname name, trivial, trivial⟩
  | link kind name inner ih => exact ⟨by simp, trivial, hname name, ih, trivial⟩

/-- A schema of one object type names no member twice. -/
theorem Introspection.object_clear (query name : String) (fields : List (String × RefChain)) :
    (Schema.ofTypes query [.object name fields]).Clear := by
  intro t ht
  obtain rfl := List.mem_singleton.mp ht
  refine ⟨?_, by simp [TypeEntry.object, Slot.value?]⟩
  rintro fs ⟨⟩ f hf
  obtain ⟨f, _, rfl⟩ := List.mem_map.mp hf
  exact ⟨by simp [Field.ofType, Slot.value?], RefChain.distinct f.2⟩

namespace Store

open SchemaHistory.Action FileTree

/-- The store holds what the archive does: a directory for each key with versions, and nothing
else. -/
structure Keeps (names : Set String) (m : Archive) (s : Store) : Prop where
  plain : s.Plain
  ordered : Ordered s.top
  shelves : ∀ d t, s.top.lookup d = some t →
    ∃ k ∈ names, d = Key.directoryName k ∧ ∃ es, t = .directory es ∧ Shelf k (m k) es
  absent : ∀ k, s.top.lookup (Key.directoryName k) = none → ∀ v, m k v = none
  named : ∀ k, k ∉ names → ∀ v, m k v = none

section

variable {names : Set String} {m : Archive} {s : Store}

theorem Keeps.stock (h : Keeps names m s) (hn : Set.InjOn Key.directoryName names) {k : String}
    (hk : k ∈ names) : ∃ es, s.Shows (Key.directoryName k) es ∧ Stock k (m k) es := by
  cases hl : s.top.lookup (Key.directoryName k) with
  | none => exact ⟨[], .inr ⟨hl, rfl⟩, .inr ⟨rfl, h.absent k hl⟩⟩
  | some t =>
    obtain ⟨j, hj, he, es, rfl, hs⟩ := h.shelves _ _ hl
    rw [← hn hk hj he] at hs
    exact ⟨es, .inl hl, .inl hs⟩

/-- Whatever is done to the versions of one key leaves the others as they are. -/
theorem Keeps.changed (h : Keeps names m s) (hn : Set.InjOn Key.directoryName names) {k : String}
    (hk : k ∈ names) {s' : Store} {tree : Option FileTree} {versions : Versions}
    (hc : Changed s s' (Key.directoryName k) tree)
    (ht : ∀ t, tree = some t → ∃ es, t = .directory es ∧ Shelf k versions es)
    (ha : tree = none → ∀ v, versions v = none) {m' : Archive} (hm : m' k = versions)
    (hm' : ∀ j, j ≠ k → m' j = m j) : Keeps names m' s' where
  plain := hc.plain
  ordered := hc.ordered
  shelves d t hl := by
    rw [hc.lookup] at hl
    split at hl
    · rename_i hd
      obtain ⟨es, he, hs⟩ := ht t hl
      rw [← hm] at hs
      exact ⟨k, hk, hd, es, he, hs⟩
    · rename_i hd
      obtain ⟨j, hj, he, es, ht, hs⟩ := h.shelves d t hl
      have hjk : j ≠ k := by
        intro heq
        subst heq
        exact hd he
      rw [← hm' j hjk] at hs
      exact ⟨j, hj, he, es, ht, hs⟩
  absent j hl := by
    rw [hc.lookup] at hl
    split at hl
    · rename_i hd
      by_cases hj : j ∈ names
      · rw [hn hj hk hd, hm]
        exact ha hl
      · have hjk : j ≠ k := by
          intro h0
          subst h0
          exact hj hk
        rw [hm' j hjk]
        exact h.named j hj
    · rename_i hd
      have hjk : j ≠ k := by
        rintro rfl
        exact hd rfl
      rw [hm' j hjk]
      exact h.absent j hl
  named j hj := by
    have hjk : j ≠ k := by
      rintro rfl
      exact hj hk
    rw [hm' j hjk]
    exact h.named j hj

/-- What is read back from the text of a snapshot is kept as its version. -/
theorem Keeps.saved (h : Keeps names m s) (hn : Set.InjOn Key.directoryName names) {x y : Snapshot}
    (hk : x.key ∈ names) (hp : Snapshot.parse x.text = .ok y) (hyk : y.key = x.key)
    (hyv : y.version = x.version) (hv : x.version.Numbered) : ∃ s', (save x).Gives s s' () ∧
      Keeps names (fun k => if k = x.key then (m k).set y else m k) s' := by
  obtain ⟨es, hshow, hs⟩ := h.stock hn hk
  obtain ⟨s', hg, hc⟩ := put_given h.plain h.ordered hshow (stock_file hs) x.version x.toJson
  refine ⟨s', hg, h.changed hn hk hc ?_ (by simp) (if_pos rfl) fun j hj => if_neg hj⟩
  intro t ht
  cases ht
  have hshelf := shelf_saved hs hp (hyv ▸ hv) hyk
  rw [hyv] at hshelf
  exact ⟨_, rfl, hshelf⟩

theorem Keeps.cleared (h : Keeps names m s) (hn : Set.InjOn Key.directoryName names) {key : String}
    (hk : key ∈ names) {s' : Store} (hc : Changed s s' (Key.directoryName key) none) :
    Keeps names (fun k => if k = key then fun _ => none else m k) s' :=
  h.changed hn hk hc (by simp) (fun _ _ => rfl) (if_pos rfl) fun j hj => if_neg hj

theorem Keeps.keyed (h : Keeps names m s) : Keyed names s where
  plain := h.plain
  ordered := h.ordered
  keyed d t hl := by
    obtain ⟨k, hk, hd, es, ht, hs⟩ := h.shelves d t hl
    obtain ⟨v, x, hx, hh⟩ := hs.latest
    exact ⟨k, hk, hd, es, x, ht, hh, (hs.proper v x hx.1).2.1⟩

/-- The keys with a directory are those with versions. -/
theorem Keeps.lookup_iff (h : Keeps names m s) (hn : Set.InjOn Key.directoryName names)
    {k : String} :
    k ∈ names ∧ s.top.lookup (Key.directoryName k) ≠ none ↔ ∃ v, m k v ≠ none := by
  constructor
  · rintro ⟨hk, hl⟩
    obtain ⟨t, ht⟩ := Option.ne_none_iff_exists'.mp hl
    obtain ⟨j, hj, hdj, es, _, hs⟩ := h.shelves _ t ht
    obtain ⟨v, x, hx, _⟩ := hs.latest
    rw [hn hk hj hdj]
    exact ⟨v, by simp [hx.1]⟩
  · rintro ⟨v, hv⟩
    exact ⟨by_contra fun hk => hv (h.named k hk v), fun hl => hv (h.absent k hl v)⟩

theorem admissible_proper {x : Snapshot} (h : (Request.save x).Admissible names) : x.Proper := by
  obtain ⟨_, ⟨d, hd, hp⟩, hv, hm⟩ := h
  exact ⟨hv, Introspection.parse_clear hd hp, hm⟩

/-- One request is answered as the archive answers it, and changes the store as it changes the
archive. -/
theorem Keeps.perform (h : Keeps names m s) (hn : Set.InjOn Key.directoryName names) {r : Request}
    (hr : r.Admissible names) : ∃ s' a, (Store.perform r).Gives s s' a ∧ m.Answers r a ∧
      Keeps names (m.after r) s' := by
  cases r with
  | save x =>
    have hx := admissible_proper hr
    obtain ⟨s', hg, hk⟩ :=
      h.saved hn hr.1 (Snapshot.parse_text hx) rfl rfl hx.version.numbered
    exact ⟨s', .done, gives_bind hg (gives_pure _ s'), trivial, hk⟩
  | delete key =>
    obtain ⟨s', hg, hc⟩ := delete_given h.plain h.ordered key
    exact ⟨s', .done, gives_bind hg (gives_pure _ s'), trivial, h.cleared hn hr hc⟩
  | load key =>
    obtain ⟨es, hv, hs⟩ := h.stock hn hr
    obtain ⟨found, hg, hl⟩ := load_given hv hs
    exact ⟨s, .snapshot found, gives_bind hg (gives_pure _ s), hl, h⟩
  | loadVersion key v =>
    obtain ⟨es, hv, hs⟩ := h.stock hn hr
    exact ⟨s, .snapshot (m key v), gives_bind (load_version_given hv hs v) (gives_pure _ s), rfl, h⟩
  | versions key =>
    obtain ⟨es, hv, hs⟩ := h.stock hn hr
    obtain ⟨xs, hg, ha⟩ := versions_given hv hs
    exact ⟨s, .snapshots xs, gives_bind hg (gives_pure _ s), ⟨ha, ascending_last hs ha⟩, h⟩
  | keys =>
    obtain ⟨ks, hg, hs, hk⟩ := h.keyed.keys_given hn
    exact ⟨s, .keys ks, gives_bind hg (gives_pure _ s),
      ⟨hs, fun k => (hk k).trans (h.lookup_iff hn)⟩, h⟩

/-- No request has two right answers. -/
theorem Keeps.determined (h : Keeps names m s) (hn : Set.InjOn Key.directoryName names)
    {r : Request} (hr : r.Admissible names) {a b : Reply} (ha : m.Answers r a)
    (hb : m.Answers r b) : a = b := by
  cases r with
  | save x => cases a <;> cases b <;> first | rfl | contradiction
  | delete key => cases a <;> cases b <;> first | rfl | contradiction
  | load key =>
    obtain ⟨es, _, hs⟩ := h.stock hn hr
    cases a <;> cases b <;> first | contradiction | exact congrArg _ (latest_unique hs ha hb)
  | loadVersion key v =>
    cases a <;> cases b <;> first | contradiction | exact congrArg _ (ha.trans hb.symm)
  | versions key =>
    obtain ⟨es, _, hs⟩ := h.stock hn hr
    cases a <;> cases b <;> first | contradiction | exact congrArg _ (ascending_unique hs ha.1 hb.1)
  | keys =>
    cases a <;> cases b <;> try contradiction
    refine congrArg Reply.keys (ascending_determined ha.1 hb.1 ?_ fun _ _ _ _ => lt_asymm)
    exact fun k => (ha.2 k).trans (hb.2 k).symm

theorem Keeps.follows_iff (h : Keeps names m s) (hn : Set.InjOn Key.directoryName names)
    {rs : List Request} (hr : ∀ r ∈ rs, r.Admissible names) (as : List (Except Failure Reply)) :
    m.Follows rs as ↔ as = s.answers rs := by
  induction rs generalizing m s as with
  | nil => cases as <;> simp [Archive.Follows, Store.answers]
  | cons r rs ih =>
    obtain ⟨hr, hrs⟩ := List.forall_mem_cons.mp hr
    obtain ⟨s', a, ⟨hs, ha⟩, hm, hk⟩ := h.perform hn hr
    rw [Store.answers, hs, ha]
    match as with
    | [] => simp [Archive.Follows]
    | .error failure :: as => simp [Archive.Follows]
    | .ok b :: as =>
      rw [Archive.Follows, ih hk hrs, List.cons.injEq, Except.ok.injEq]
      exact and_congr_left fun _ => ⟨fun hb => h.determined hn hr hb hm, fun hb => hb ▸ hm⟩

theorem keeps_empty (path : Path) : Keeps names Archive.empty ⟨path, none⟩ where
  plain := by simp [Plain]
  ordered := List.Pairwise.nil
  shelves d t hl := by cases hl
  absent _ _ _ := rfl
  named _ _ _ := rfl

end

/-- A store of files that starts out absent gives the answers of a map from keys and versions to
snapshots, and no other answers are right. A snapshot comes back as it was saved, with the same
text: only a number that is not finite has none, and comes back as null. -/
theorem follows_archive (path : Path) {names : Set String}
    (hn : Set.InjOn Key.directoryName names) {rs : List Request}
    (hr : ∀ r ∈ rs, r.Admissible names) :
    (∀ as, Archive.empty.Follows rs as ↔ as = answers ⟨path, none⟩ rs) ∧
      ∀ x, Request.save x ∈ rs → x.settled.text = x.text ∧ (x.toJson.Finite → x.settled = x) := by
  refine ⟨(keeps_empty path).follows_iff hn hr, ?_⟩
  intro x hx
  have hp := admissible_proper (hr _ hx)
  exact ⟨Snapshot.text_settled hp, Snapshot.settled_self hp.readable hp.unreserved⟩

/-- A version of a schema with one field. -/
def shop (version : Binary64) : Snapshot :=
  ⟨"shop", .ofTypes "Query" [.object "Query" [("size", .last "SCALAR" (some "Int"))]],
    "2024-01-01T00:00:00.000Z", version, some [("stage", .string "live")]⟩

theorem shop_admissible {v : Binary64} (h : v.Counted) :
    (Request.save (shop v)).Admissible {"shop", "blog"} := by
  refine ⟨Set.mem_insert _ _, ⟨_, ?_, Introspection.parse_written _⟩, h, ?_⟩
  · refine ⟨by simp, ?_, trivial⟩
    exact Introspection.Schema.faithful.distinct _ (Introspection.object_clear _ _ _) _ rfl
  · intro ms hms
    cases hms
    exact ⟨⟨by simp, by simp [Json.Distinct]⟩, by simp⟩

theorem shop_settled (v : Binary64) : (shop v).settled = shop v :=
  rfl

theorem shop_latest {v w : Binary64} (hw : w ≤ v) (hv : v ≤ v) (hne : v ≠ w) :
    IsLatest (((Archive.empty.after (.save (shop v))).after (.save (shop w))) "shop")
      (some (shop v)) := by
  have hs : ((Archive.empty.after (.save (shop v))).after (.save (shop w))) "shop"
      = Versions.set (Versions.set (fun _ => none) (shop v)) (shop w) := by
    rw [← shop_settled w, ← shop_settled v]
    rfl
  rw [hs]
  refine ⟨v, (set_other hne).trans (set_self _ (shop v)), ?_⟩
  intro u hu
  by_cases h : u = w
  · rwa [h]
  · rw [set_other h] at hu
    by_cases h' : u = v
    · rwa [h']
    · rw [set_other h'] at hu
      exact absurd rfl hu

/-- A version that is saved after a higher one does not become the latest. -/
theorem follows_archive_shop :
    answers ⟨["srv"], none⟩ [.save (shop (.ofNat 2)), .save (shop (.ofNat 1)), .load "shop"]
      = [.ok .done, .ok .done, .ok (.snapshot (some (shop (.ofNat 2))))] := by
  have hc1 : (Binary64.ofNat 1).Counted := Binary64.counted_nat (by decide) (by decide)
  have hc2 : (Binary64.ofNat 2).Counted := Binary64.counted_nat (by decide) (by decide)
  have hle : Binary64.ofNat 1 ≤ .ofNat 2 :=
    (Binary64.of_nat_le (by decide) (by decide)).mpr (by decide)
  have hne : Binary64.ofNat 2 ≠ .ofNat 1 := fun h =>
    absurd (Binary64.of_nat_injective (by decide) (by decide) h) (by decide)
  have hrefl := Binary64.whole_le_refl hc2.whole
  generalize Binary64.ofNat 2 = v at *
  generalize Binary64.ofNat 1 = w at *
  have hn : Set.InjOn Key.directoryName {"shop", "blog"} := Set.injOn_pair.mpr (by decide)
  have hr : ∀ r ∈ [Request.save (shop v), .save (shop w), .load "shop"],
      r.Admissible {"shop", "blog"} := by
    simp only [List.forall_mem_cons]
    exact ⟨shop_admissible hc2, shop_admissible hc1, Set.mem_insert _ _, by simp⟩
  have hf := follows_archive ["srv"] hn hr
  refine Eq.symm ((hf.1 _).mp ?_)
  exact ⟨trivial, trivial, shop_latest hle hrefl hne, trivial⟩

end Store

end SchemaHistory
