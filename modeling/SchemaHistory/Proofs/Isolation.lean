import SchemaHistory.Proofs.Calls
import SchemaHistory.Proofs.Counting
import SchemaHistory.Proofs.Rereading

namespace SchemaHistory

namespace Store

open SchemaHistory.Action Binary64 FileTree

/-- A store is at the same place as before, and holds the same beside one directory. -/
structure Beside (s s' : Store) (d : String) : Prop where
  path : s'.path = s.path
  lookup : ∀ other, other ≠ d → s'.top.lookup other = s.top.lookup other

namespace Beside

theorem refl (s : Store) (d : String) : Beside s s d :=
  ⟨rfl, fun _ _ => rfl⟩

theorem trans {s s' s'' : Store} {d : String} (h : Beside s s' d) (h' : Beside s' s'' d) :
    Beside s s'' d :=
  ⟨h'.path.trans h.path, fun other ho => (h'.lookup other ho).trans (h.lookup other ho)⟩

end Beside

theorem update_beside {s : Store} {d : String} {inside : Path}
    {change : Option FileTree → Option FileTree} {root : Option FileTree}
    (h : update? change (d :: inside) s.root = some root) :
    Beside s { s with root := root } d := by
  obtain ⟨_, _, hroot⟩ := update_child h
  refine ⟨rfl, fun other ho => ?_⟩
  rw [top_lookup, top_lookup, hroot other, if_neg ho]

theorem clear_beside (s : Store) (d : String) : Beside s (s.clear (s.path ++ [d])) d := by
  unfold clear
  rw [List.drop_left]
  split
  · rename_i h
    exact update_beside h
  · exact .refl s d

theorem write_file_beside {s s' : Store} {d name text : String}
    (h : s.writeFile (s.path ++ [d]) name text = .ok s') : Beside s s' d := by
  unfold writeFile at h
  split at h
  · contradiction
  · rw [List.drop_left] at h
    dsimp only at h
    split at h
    · rename_i hu
      cases h
      exact update_beside hu
    · contradiction

end Store

namespace Action

open Store

variable {α β : Type} {x : Action α} {f : α → Action β} {p : Path} {d : String}

/-- An operation on a store at a place changes nothing there beside one directory. -/
def Confined (x : Action α) (p : Path) (d : String) : Prop :=
  ∀ s : Store, s.path = p → Beside s (x s).store d

theorem confined_still (h : ∀ s, x.Still s) : x.Confined p d := by
  intro s _
  rw [(h s).1]
  exact .refl s d

theorem confined_bind (hx : x.Confined p d)
    (hf : ∀ s a, s.path = p → (x s).answer = .ok a → (f a).Confined p d) :
    (x >>= f).Confined p d := by
  intro s hs
  have hb := hx s hs
  cases ha : (x s).answer with
  | error failure =>
    rw [after_error ha]
    exact hb
  | ok a =>
    rw [after_ok ha]
    exact hb.trans (hf s a hs ha _ (hb.path.trans hs))

theorem confined_write (name text : String) :
    (Action.write fun s => s.writeFile (p ++ [d]) name text).Confined p d := by
  intro s hs
  unfold Action.write
  subst hs
  split
  · rename_i h
    exact write_file_beside h
  · exact .refl s d

end Action

namespace Store

open SchemaHistory.Action Binary64 FileTree

theorem put_confined (key : String) (version : Binary64) (content : Json) (p : Path) :
    (put key version content).Confined p (Key.directoryName key) := by
  unfold put
  refine confined_bind (confined_still fun s => still_read _ s) fun s directory hs hd => ?_
  obtain rfl : p ++ [Key.directoryName key] = directory := by
    simp only [Action.read, directory_of_key, hs] at hd
    exact Except.ok.inj hd
  refine confined_bind (confined_still fun s => still_read _ s) fun _ highest _ _ => ?_
  refine confined_bind (confined_write _ _) fun _ _ _ _ => ?_
  split
  · refine confined_bind (confined_write _ _) fun _ _ _ _ => ?_
    intro s _
    exact .refl s _
  · intro s _
    exact .refl s _

theorem save_beside (x : Snapshot) (s : Store) :
    Beside s (save x s).store (Key.directoryName x.key) :=
  put_confined x.key x.version x.toJson s.path s rfl

end Store

/-- The key whose versions a call may change. -/
def Call.target? : Call → Option String
  | .check key _ => some key
  | .snapshot key _ _ => some key
  | .store (.save x) => some x.key
  | .store (.delete key) => some key
  | _ => none

theorem Registry.Files.target {r : Registry} {s : Store} {c : Call} {x : Snapshot}
    (h : r.Files s c x) : c.target? = some x.key := by
  cases h <;> rfl

/-- A call changes one directory at most, whatever the store holds. -/
theorem Registry.call_beside (r : Registry) {c : Call} {key : String} (h : c.target? = some key)
    (s : Store) : Store.Beside s (r.call c s).store (Key.directoryName key) := by
  rcases r.call_writes s c with (hs | ⟨x, hx, hs⟩) | ⟨k, rfl, hs, _⟩
  · rw [hs.1]
    exact .refl s _
  · rw [hs.1]
    obtain rfl : x.key = key := Option.some.inj (hx.target.symm.trans h)
    exact Store.save_beside x s
  · rw [hs]
    obtain rfl : k = key := Option.some.inj h
    exact Store.clear_beside s _

namespace Action

variable {α β : Type} {s s' : Store} {x : Action α} {f : α → Action β}

theorem answer_bind_congr (hx : (x s').answer = (x s).answer)
    (hf : ∀ a, (x s).answer = .ok a →
      (f a (x s').store).answer = (f a (x s).store).answer) :
    ((x >>= f) s').answer = ((x >>= f) s).answer := by
  cases ha : (x s).answer with
  | error failure =>
    rw [ha] at hx
    rw [after_error ha, after_error hx]
  | ok a =>
    rw [ha] at hx
    rw [after_ok ha, after_ok hx]
    exact hf a ha

end Action

namespace Store

open SchemaHistory.Action Binary64 FileTree

/-- Files that are at hand are read the same, whatever the store. -/
theorem read_versions_answer (directory : Path) (files : FileTree.Entries) (s s' : Store) :
    (readVersions directory files s').answer = (readVersions directory files s).answer := by
  induction files generalizing s s' with
  | nil => rfl
  | cons e files ih =>
    obtain ⟨name, tree⟩ := e
    rw [readVersions]
    cases snapshotIn (directory ++ [name]) tree with
    | ok x => exact answer_bind_congr (ih s s') fun _ _ => rfl
    | error failure => exact answer_bind_congr rfl fun _ _ => ih _ _

section

variable {s s' : Store} {d key : String}

theorem Beside.file (h : Beside s s' d) (hk : Key.directoryName key ≠ d) (f : String) :
    s'.snapshotAt? (s'.path ++ [Key.directoryName key] ++ [f])
      = s.snapshotAt? (s.path ++ [Key.directoryName key] ++ [f]) := by
  rw [snapshotAt?, snapshotAt?, at_file, at_file, h.lookup _ hk, h.path]

theorem Beside.load (h : Beside s s' d) (hk : Key.directoryName key ≠ d) :
    (Store.load key s').answer = (Store.load key s).answer := by
  unfold Store.load
  simp only [Action.read, directory_of_key]
  exact h.file hk latestFile

theorem Beside.load_version (h : Beside s s' d) (hk : Key.directoryName key ≠ d)
    (v : Binary64) : (loadVersion key v s').answer = (loadVersion key v s).answer := by
  unfold loadVersion
  simp only [Action.read, directory_of_key]
  exact h.file hk (versionFile v)

theorem Beside.versions (h : Beside s s' d) (hk : Key.directoryName key ≠ d) :
    (Store.versions key s').answer = (Store.versions key s).answer := by
  unfold Store.versions
  refine answer_bind_congr ?_ fun directory hd => ?_
  · simp only [Action.read, directory_of_key, h.path]
  · simp only [Action.read, directory_of_key] at hd
    obtain rfl := Except.ok.inj hd
    refine answer_bind_congr ?_ fun files _ => ?_
    · simp only [Action.read, Store.entries]
      rw [at_directory, ← h.path, at_directory, h.lookup _ hk]
    · exact answer_bind_congr (read_versions_answer _ _ _ _) fun _ _ => rfl

end

/-- A store whose directories hold files only, and say which keys they belong to. -/
structure Orderly (names : Set String) (s : Store) : Prop extends Keyed names s where
  flat : ∀ d es, s.top.lookup d = some (.directory es) → ∀ f inner,
    es.lookup f ≠ some (.directory inner)

section

variable {names : Set String} {s s' : Store}

theorem orderly_absent (path : Path) : Orderly names ⟨path, none⟩ where
  plain := by simp [Plain]
  ordered := List.Pairwise.nil
  keyed d t hl := by cases hl
  flat d es hl := by cases hl

theorem Orderly.changed (h : Orderly names s) {d : String} {tree : Option FileTree}
    (hc : Changed s s' d tree)
    (ht : ∀ t, tree = some t → ∃ k ∈ names, d = Key.directoryName k ∧ ∃ es x, t = .directory es ∧
      (∀ f inner, es.lookup f ≠ some (.directory inner)) ∧ Holds es latestFile x ∧ x.key = k) :
    Orderly names s' where
  plain := hc.plain
  ordered := hc.ordered
  keyed other t hl := by
    rw [hc.lookup] at hl
    split at hl
    · rename_i he
      subst he
      obtain ⟨k, hk, hd, es, x, he, _, hx⟩ := ht t hl
      exact ⟨k, hk, hd, es, x, he, hx⟩
    · exact h.keyed other t hl
  flat other es hl := by
    rw [hc.lookup] at hl
    split at hl
    · obtain ⟨_, _, _, es', _, he, hf, _⟩ := ht _ hl
      cases he
      exact hf
    · exact h.flat other es hl

theorem Orderly.cleared (h : Orderly names s) (d : String) :
    Orderly names (s.clear (s.path ++ [d])) :=
  h.changed (clear_shown h.plain h.ordered d) fun t ht => by cases ht

/-- The directory of a key, with the latest version that it has if it is there. -/
theorem Orderly.shown (h : Orderly names s) (key : String) :
    ∃ es, s.Shows (Key.directoryName key) es ∧
      (∀ f inner, es.lookup f ≠ some (.directory inner)) ∧
      (es = [] ∨ ∃ k ∈ names, Key.directoryName key = Key.directoryName k ∧
        ∃ y, Holds es latestFile y ∧ y.key = k) := by
  cases hl : s.top.lookup (Key.directoryName key) with
  | none =>
    refine ⟨[], .inr ⟨hl, rfl⟩, ?_, .inl rfl⟩
    intro f inner hf
    cases hf
  | some t =>
    obtain ⟨k, hk, hd, es, y, rfl, hy⟩ := h.keyed _ t hl
    exact ⟨es, .inl hl, h.flat _ es hl, .inr ⟨k, hk, hd, y, hy⟩⟩

/-- A snapshot that can be read back is saved, and its directory is in order after that: a new
directory gets a latest version at once, since no version is below zero. -/
theorem Orderly.saved (h : Orderly names s) {x : Snapshot} (hk : x.key ∈ names)
    (hx : x.Readable) : ∃ s' t, (save x).Gives s s' () ∧ Orderly names s' ∧
      Changed s s' (Key.directoryName x.key) (some t) := by
  obtain ⟨es, hv, hf, he⟩ := h.shown x.key
  obtain ⟨s', hg, hc⟩ := put_given h.plain h.ordered hv hf x.version x.toJson
  refine ⟨s', _, hg, h.changed hc ?_, hc⟩
  intro t ht
  cases ht
  have hflat : ∀ f inner, (filed es x.version x.toJson.pretty).lookup f
      ≠ some (.directory inner) := by
    intro f inner
    rw [lookup_filed]
    split
    · simp
    · exact hf f inner
  by_cases hle : highest es ≤ x.version
  · refine ⟨x.key, hk, rfl, _, x.settled.unreserved, rfl, hflat, ?_, rfl⟩
    exact holds_filed (.inr ⟨rfl, hle⟩) (Snapshot.parse_readable hx)
  · rcases he with rfl | ⟨k, hkn, hd, y, hy, hyk⟩
    · exact absurd (le_of_positive hx.positive) hle
    · refine ⟨k, hkn, hd, _, y, rfl, hflat, holds_kept ?_ hy, hyk⟩
      rintro (hl | ⟨_, hl⟩)
      · exact latest_not_version _ hl.symm
      · exact hle hl

end

end Store

/-- The calls that write snapshots that can be read back, for some keys only. -/
def Call.Storable (names : Set String) (r : Registry) : Call → Prop
  | .check key document => key ∈ names ∧ document.Distinct ∧ Json.Clear r.metadata
  | .snapshot key document version => key ∈ names ∧ document.Distinct ∧ Json.Clear r.metadata ∧
    ∀ v ∈ version, v.isInteger = true ∧ 0 < v
  | .store (.save x) => x.key ∈ names ∧ x.Readable
  | _ => True

namespace Registry

variable {names : Set String} {r : Registry} {s : Store}

theorem Files.readable {c : Call} {x : Snapshot} (hc : c.Storable names r)
    (h : r.Files s c x) : x.key ∈ names ∧ x.Readable := by
  cases h with
  | checked hr hd =>
    obtain ⟨hk, hdoc, hm⟩ := hc
    exact ⟨hk, hd.readable hr hdoc hm⟩
  | due hr hd =>
    obtain ⟨hk, hdoc, hm, _⟩ := hc
    exact ⟨hk, hd.readable hr hdoc hm⟩
  | forced hr =>
    obtain ⟨hk, hdoc, hm, hv⟩ := hc
    obtain ⟨hi, h0⟩ := hv _ rfl
    exact ⟨hk, Snapshot.readable_of_document hr hdoc hm hi h0⟩
  | saved x => exact hc

theorem call_orderly (h : Store.Orderly names s) {c : Call} (hc : c.Storable names r) :
    Store.Orderly names (r.call c s).store := by
  rcases r.call_writes s c with (hs | ⟨x, hx, hs⟩) | ⟨k, _, hs, _⟩
  · rw [hs.1]
    exact h
  · obtain ⟨hk, hr⟩ := hx.readable hc
    obtain ⟨s', t, hg, ho, _⟩ := h.saved hk hr
    rw [hs.1, hg.1]
    exact ho
  · rw [hs]
    exact h.cleared _

end Registry

theorem Store.run_orderly {names : Set String} {s : Store} (h : Store.Orderly names s)
    {calls : List (Registry × Call)} (hc : ∀ c ∈ calls, c.2.Storable names c.1) :
    Store.Orderly names (s.run calls) := by
  induction calls generalizing s with
  | nil => exact h
  | cons c calls ih =>
    obtain ⟨hc, hcs⟩ := List.forall_mem_cons.mp hc
    exact ih (Registry.call_orderly h hc) hcs

namespace Store

open SchemaHistory.Action Binary64 FileTree

/-- A key of which a version is there has a directory. -/
theorem lookup_of_version {s : Store} {key : String} {v : Binary64}
    (h : (loadVersion key v s).answer ≠ .ok none) :
    s.top.lookup (Key.directoryName key) ≠ none := by
  intro hl
  apply h
  unfold loadVersion
  simp only [Action.read, directory_of_key]
  change s.snapshotAt? _ = _
  rw [snapshotAt?, at_file, hl]
  rfl

theorem clear_lookup (s : Store) (d : String) :
    (s.clear (s.path ++ [d])).top.lookup d = none := by
  obtain ⟨path, root⟩ := s
  rw [clear, List.drop_left]
  cases root with
  | none => rfl
  | some tree =>
    cases tree with
    | file text => rfl
    | directory entries => exact (lookup_remove d entries d).trans (if_pos rfl)

/-- Nothing is loaded for a key whose directory has been cleared. -/
theorem load_cleared (key : String) (s : Store) :
    (load key (s.clear (s.path ++ [Key.directoryName key]))).answer = .ok none := by
  unfold load
  simp only [Action.read, directory_of_key]
  change snapshotAt? _ _ = _
  rw [snapshotAt?, at_file, clear_lookup]
  rfl

theorem first_latest {x : Snapshot} (hx : x.version.Whole) :
    IsLatest (Versions.set (fun _ => none) x) (some x) := by
  refine ⟨x.version, set_self _ x, fun w hw => ?_⟩
  by_cases he : w = x.version
  · rw [he]
    exact whole_le_refl hx
  · rw [set_other he] at hw
    exact absurd rfl hw

/-- The first snapshot of a store is found again. -/
theorem first_saved (path : Path) {x : Snapshot} (hx : x.Proper) :
    ∃ s, (save x).Gives ⟨path, none⟩ s () ∧ (load x.key).Gives s s (some x.settled) ∧
      (loadVersion x.key x.version).Gives s s (some x.settled) := by
  have ho : Orderly {x.key} ⟨path, none⟩ := orderly_absent path
  obtain ⟨s, hg, hc⟩ := put_given ho.plain ho.ordered
    (.inr ⟨rfl, rfl⟩ : Shows ⟨path, none⟩ (Key.directoryName x.key) [])
    (fun f es hf => by cases hf) x.version x.toJson
  have hn : x.settled.version.Numbered := hx.version.numbered
  have hs : Shelf x.key (Versions.set (fun _ => none) x.settled)
      (filed [] x.version x.toJson.pretty) :=
    shelf_saved (.inr ⟨rfl, fun _ => rfl⟩) (Snapshot.parse_text hx) hn rfl
  have hv : Versions.set (fun _ => none) x.settled x.version = some x.settled :=
    set_self _ x.settled
  obtain ⟨found, hl, hf⟩ := load_given hc.shows (.inl hs)
  rw [latest_unique (.inl hs) hf (first_latest hn.whole)] at hl
  refine ⟨s, hg, hl, ?_⟩
  rw [← hv]
  exact load_version_given hc.shows (.inl hs) x.version

/-- The store finds the same for a key as before. -/
structure Unmoved (key : String) (s s' : Store) : Prop where
  load : (Store.load key s').answer = (Store.load key s).answer
  loadVersion : ∀ v, (Store.loadVersion key v s').answer = (Store.loadVersion key v s).answer
  versions : (Store.versions key s').answer = (Store.versions key s).answer

/-- No call on a key, after whatever run, has an effect on what is found for another one. -/
def Isolated (key other : String) : Prop :=
  ∀ path calls (r : Registry) (c : Call), c.target? = some key →
    Unmoved other (run ⟨path, none⟩ calls) (r.call c (run ⟨path, none⟩ calls)).store

theorem Beside.unmoved {s s' : Store} {d key : String} (h : Beside s s' d)
    (hk : Key.directoryName key ≠ d) : Unmoved key s s' :=
  ⟨h.load hk, h.load_version hk, h.versions hk⟩

theorem call_saved {r : Registry} {s s' : Store} {x : Snapshot} (h : (save x).Gives s s' ()) :
    (r.call (.store (.save x)) s).store = s' := by
  have hp : (perform (.save x)).Gives s s' .done := by
    rw [perform]
    exact gives_bind h (gives_pure _ s')
  have hc : (r.call (.store (.save x))).Gives s s' () := by
    rw [Registry.call]
    exact gives_bind hp (gives_pure _ s')
  exact hc.1

/-- A version of the same schema under any key. -/
def shopFor (key : String) (version : Binary64) : Snapshot :=
  { shop version with key := key }

theorem shop_proper {v : Binary64} (h : v.Counted) (key : String) :
    (shopFor key v).Proper := by
  have hp := admissible_proper (shop_admissible h)
  exact ⟨hp.version, hp.schema, hp.metadata⟩

/-- Keys that share a directory are not isolated: one is saved and the other deleted. -/
theorem not_isolated {key other : String} (h : Key.directoryName other = Key.directoryName key) :
    ¬Isolated key other := by
  intro hi
  have hc : (Binary64.ofNat 1).Counted := Binary64.counted_nat (by decide) (by decide)
  obtain ⟨s, hg, hl, _⟩ := first_saved [] (shop_proper hc other)
  have hu := (hi [] [(.standard "", .store (.save (shopFor other (.ofNat 1))))]
    (.standard "") (.store (.delete key)) rfl).load
  rw [run, List.foldl_cons, List.foldl_nil, call_saved hg, Registry.call_delete, ← h,
    load_cleared] at hu
  cases hu.trans hl.2

/-- A key is isolated from those with other directories, and from no others. After a snapshot is
saved, its key is listed, and every key that has a version still is. -/
theorem keys_isolated (key other : String) :
    (Isolated key other ↔ Key.directoryName other ≠ Key.directoryName key) ∧
    ∀ (names : Set String) (path : Path) (calls : List (Registry × Call)) (x : Snapshot),
      Set.InjOn Key.directoryName names → (∀ c ∈ calls, c.2.Storable names c.1) →
      key ∈ names → x.key = key → x.Readable →
      ∃ s' ks, (save x).Gives (run ⟨path, none⟩ calls) s' () ∧ keys.Gives s' s' ks ∧ key ∈ ks ∧
        ∀ v, other ∈ names → (loadVersion other v s').answer ≠ .ok none → other ∈ ks := by
  constructor
  · refine ⟨fun hi he => not_isolated he hi, fun hne path calls r c hc => ?_⟩
    exact (r.call_beside hc _).unmoved hne
  · intro names path calls x hn hc hk hxk hx
    subst hxk
    obtain ⟨s', t, hg, ho, hch⟩ := (run_orderly (orderly_absent path) hc).saved hk hx
    obtain ⟨ks, hks, _, hm⟩ := ho.keys_given hn
    refine ⟨s', ks, hg, hks, (hm x.key).mpr ⟨hk, ?_⟩, fun v hkn hv => ?_⟩
    · rw [hch.lookup, if_pos rfl]
      simp
    · exact (hm other).mpr ⟨hkn, lookup_of_version hv⟩

/-- Two keys, one saved after the other, are both listed. -/
theorem keys_isolated_shop : ∃ s ks,
    (save (shopFor "blog" (.ofNat 2))).Gives
      (run ⟨["srv"], none⟩ [(.standard "", .store (.save (shopFor "shop" (.ofNat 2))))]) s () ∧
    keys.Gives s s ks ∧ "blog" ∈ ks ∧ "shop" ∈ ks := by
  have hc : (Binary64.ofNat 2).Counted := Binary64.counted_nat (by decide) (by decide)
  generalize Binary64.ofNat 2 = v at *
  have hn : Set.InjOn Key.directoryName {"shop", "blog"} := Set.injOn_pair.mpr (by decide)
  have hcalls : ∀ c ∈ [(Registry.standard "", Call.store (.save (shopFor "shop" v)))],
      c.2.Storable {"shop", "blog"} c.1 := by
    intro c hm
    obtain rfl := List.mem_singleton.mp hm
    exact ⟨Set.mem_insert _ _, (shop_proper hc "shop").readable⟩
  have hi := keys_isolated "blog" "shop"
  obtain ⟨s, ks, hg, hks, hblog, hshop⟩ := hi.2 {"shop", "blog"} ["srv"] _
    (shopFor "blog" v) hn hcalls (Set.mem_insert_of_mem _ (Set.mem_singleton _)) rfl
    (shop_proper hc "blog").readable
  refine ⟨s, ks, hg, hks, hblog, hshop v (Set.mem_insert _ _) ?_⟩
  obtain ⟨s₁, hg₁, _, hv⟩ := first_saved ["srv"] (shop_proper hc "shop")
  have hu := hi.1.mpr (by decide) ["srv"] [(.standard "", .store (.save (shopFor "shop" v)))]
    (.standard "") (.store (.save (shopFor "blog" v))) rfl
  have hrun : run ⟨["srv"], none⟩ [(.standard "", .store (.save (shopFor "shop" v)))] = s₁ :=
    call_saved hg₁
  have hf : (loadVersion "shop" v s₁).answer = .ok (some (shopFor "shop" v).settled) := hv.2
  rw [call_saved hg] at hu
  rw [hu.loadVersion v, hrun, hf]
  simp

/-- To delete one of two keys that share a directory deletes the other one, too. -/
theorem other_key_deleted :
    (load "admin_api" (run ⟨["srv"], none⟩
        [(.standard "", .store (.save (shopFor "admin_api" (.ofNat 1))))])).answer
      = .ok (some (shopFor "admin_api" (.ofNat 1))) ∧
    (load "admin_api" (run ⟨["srv"], none⟩
        [(.standard "", .store (.save (shopFor "admin_api" (.ofNat 1)))),
          (.standard "", .store (.delete "admin api"))])).answer
      = .ok none := by
  have hc : (Binary64.ofNat 1).Counted := Binary64.counted_nat (by decide) (by decide)
  generalize Binary64.ofNat 1 = v at *
  have hd : Key.directoryName "admin api" = Key.directoryName "admin_api" := by decide
  obtain ⟨s, hg, hl, _⟩ := first_saved ["srv"] (shop_proper hc "admin_api")
  constructor
  · rw [run, List.foldl_cons, List.foldl_nil, call_saved hg]
    exact hl.2
  · rw [run, List.foldl_cons, List.foldl_cons, List.foldl_nil, call_saved hg,
      Registry.call_delete, hd, load_cleared]

end Store

end SchemaHistory
