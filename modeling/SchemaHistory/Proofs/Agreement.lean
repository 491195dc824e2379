import SchemaHistory.Proofs.Rereading
import SchemaHistory.Proofs.Settling

namespace SchemaHistory

/-- The document that each version of each key was kept from. -/
def Ledger := String → Binary64 → Option Json

namespace Ledger

def empty : Ledger :=
  fun _ _ => none

/-- One more version, or another document for a version. -/
def set (l : Ledger) (key : String) (version : Binary64) (document : Json) : Ledger :=
  fun k v => if k = key ∧ v = version then some document else l k v

/-- The highest version of a key, and its document. -/
def Latest (l : Ledger) (key : String) (version : Binary64) (document : Json) : Prop :=
  l key version = some document ∧ ∀ v, l key v ≠ none → v ≤ version

theorem latest_first (key : String) {v : Binary64} (hv : v ≤ v) (document : Json) :
    (empty.set key v document).Latest key v document := by
  refine ⟨if_pos ⟨rfl, rfl⟩, fun w hw => ?_⟩
  by_cases he : w = v
  · rw [he]
    exact hv
  · exact absurd (if_neg fun h => he h.2) hw

theorem Latest.set_below {l : Ledger} {key : String} {v w : Binary64} {document : Json}
    (h : l.Latest key v document) (hle : w ≤ v) (hne : v ≠ w) (other : Json) :
    (l.set key w other).Latest key v document := by
  refine ⟨(if_neg fun he => hne he.2).trans h.1, fun u hu => ?_⟩
  by_cases he : u = w
  · rw [he]
    exact hle
  · exact h.2 u fun hno => hu ((if_neg fun h => he h.2).trans hno)

/-- What a call changes: its document is kept under the versions that are reported as written. -/
def after (l : Ledger) (filed : List (String × Binary64)) : Call → Ledger
  | .check _ document => filed.foldl (fun l e => l.set e.1 e.2 document) l
  | .snapshot _ document _ => filed.foldl (fun l e => l.set e.1 e.2 document) l
  | .store (.delete key) => fun k v => if k = key then none else l k v
  | _ => l

theorem after_nothing (l : Ledger) {c : Call} (hc : ¬∃ key, c = .store (.delete key)) :
    l.after [] c = l := by
  cases c with
  | store request =>
    cases request with
    | delete key => exact absurd ⟨key, rfl⟩ hc
    | _ => rfl
  | _ => rfl

/-- The ledger after some calls on a store, each with its own settings. -/
def run (l : Ledger) (s : Store) : List (Registry × Call) → Ledger
  | [] => l
  | (r, c) :: calls =>
    (l.after (Log.filed (r.call c s).log) c).run (r.call c s).store calls

end Ledger

/-- The calls that keep documents under versions up to 2^53 - 1 of some keys, or count on from
there. -/
def Call.Documented (names : Set String) (r : Registry) : Call → Prop
  | .check key document => key ∈ names ∧ document.Distinct ∧ Json.Clear r.metadata
  | .snapshot key document version => key ∈ names ∧ document.Distinct ∧ Json.Clear r.metadata ∧
    ∀ v ∈ version, v.Counted
  | .store (.save _) => False
  | .store (.delete key) => key ∈ names
  | _ => True

/-- A snapshot and a document are built into the same model. -/
def Snapshot.Of (x : Snapshot) (document : Json) : Prop :=
  ∃ current, ReadDocument.ofJson document = .ok current ∧
    Model.ofSchema x.schema = .ok current.model

namespace Store

open SchemaHistory.Action Binary64

/-- The store keeps a version for each document of a ledger, and no other versions. -/
structure Mirrors (names : Set String) (l : Ledger) (m : Archive) (s : Store) : Prop
    extends Keeps names m s where
  documents : ∀ k v, Option.Rel Snapshot.Of (m k v) (l k v)

theorem mirrors_empty (names : Set String) (path : Path) :
    Mirrors names Ledger.empty Archive.empty ⟨path, none⟩ where
  toKeeps := keeps_empty path
  documents _ _ := .none

/-- A track tells what the comparisons of the versions of its key tell. -/
structure Tracks (s : Store) (r : Registry) (key : String) (versions : Binary64 → Prop)
    (t : Track Nat) : Prop where
  ascends : t.versions.Pairwise (· < ·)
  stored : ∀ v, v ∈ t.versions ↔ versions v
  adjacent : t.metrics.length + 1 = t.versions.length
  steps : ∀ i x, t.metrics[i]? = some x → x.index = i + 1 ∧
    ∃ a b, t.versions[i]? = some a ∧ t.versions[i + 1]? = some b ∧ ∀ least, ∃ report,
      ({ r with least := least }.diff key a b).Gives s s report ∧
      report.counts.breaking = x.breaking ∧ report.score = x.score ∧
      (least = .minor → report.counts.total = x.total ∧
        report.counts.nonBreaking = x.nonBreaking)

namespace Mirrors

variable {names : Set String} {l : Ledger} {m : Archive} {s : Store}

/-- What is loaded is the version that it says. -/
theorem loaded (h : Mirrors names l m s) (hn : Set.InjOn Key.directoryName names) {key : String}
    (hk : key ∈ names) {x : Snapshot} (hl : (load key s).answer = .ok (some x)) :
    x.version.Numbered ∧ m key x.version = some x := by
  obtain ⟨es, hv, hs⟩ := h.stock hn hk
  obtain ⟨found, hg, hf⟩ := load_given hv hs
  obtain rfl : found = some x := Except.ok.inj (hg.2.symm.trans hl)
  obtain ⟨v, hx, _⟩ := hf
  obtain ⟨hc, _, he⟩ := stock_proper hs hx
  rw [he]
  exact ⟨hc, hx⟩

/-- The number that is due next is one that versions can have. -/
theorem due (h : Mirrors names l m s) (hn : Set.InjOn Key.directoryName names) {key : String}
    (hk : key ∈ names) {r : Registry} {model : Model} {v : Binary64}
    (hd : r.Due s key model v) : v.Numbered := by
  cases hd with
  | first _ => exact numbered_one
  | next hl _ _ => exact (h.loaded hn hk hl).1.next

theorem cleared (h : Mirrors names l m s) (hn : Set.InjOn Key.directoryName names) {key : String}
    (hk : key ∈ names) : ∃ m', Mirrors names (fun k v => if k = key then none else l k v) m'
      (s.clear (s.path ++ [Key.directoryName key])) := by
  have hc := clear_shown h.plain h.ordered (Key.directoryName key)
  refine ⟨_, h.toKeeps.cleared hn hk hc, fun k v => ?_⟩
  change Option.Rel Snapshot.Of ((if k = key then fun _ => none else m k) v) _
  by_cases hkk : k = key
  · rw [if_pos hkk, if_pos hkk]
    exact .none
  · rw [if_neg hkk, if_neg hkk]
    exact h.documents k v

/-- A snapshot of a document is saved under its version. -/
theorem saved (h : Mirrors names l m s) (hn : Set.InjOn Key.directoryName names) {x : Snapshot}
    (hk : x.key ∈ names) (hx : x.Readable) (hv : x.version.Numbered) {document : Json}
    (hd : x.Of document) : ∃ s' m', (save x).Gives s s' () ∧
      Mirrors names (l.set x.key x.version document) m' s' := by
  obtain ⟨current, hr, hb⟩ := hd
  obtain ⟨y, hp, hyk, hyv, hyb⟩ := Snapshot.reread hx hb
  obtain ⟨s', hg, hkeeps⟩ := h.toKeeps.saved hn hk hp hyk hyv hv
  refine ⟨s', _, hg, hkeeps, fun k v => ?_⟩
  change Option.Rel Snapshot.Of ((if k = x.key then (m k).set y else m k) v)
    (if k = x.key ∧ v = x.version then some document else l k v)
  by_cases hkk : k = x.key
  · by_cases hvv : v = x.version
    · rw [if_pos hkk, if_pos ⟨hkk, hvv⟩, hvv, ← hyv, set_self]
      exact .some ⟨current, hr, hyb⟩
    · rw [if_pos hkk, if_neg fun hh => hvv hh.2, set_other (hyv ▸ hvv)]
      exact h.documents k v
  · rw [if_neg hkk, if_neg fun hh => hkk hh.1]
    exact h.documents k v

/-- What a call writes is a snapshot of its document. -/
theorem files (h : Mirrors names l m s) (hn : Set.InjOn Key.directoryName names) {r : Registry}
    {c : Call} (hc : c.Documented names r) {x : Snapshot} (hx : r.Files s c x) :
    x.key ∈ names ∧ x.Readable ∧ x.version.Numbered ∧ ∃ document, x.Of document ∧
      ∀ l, Ledger.after l [(x.key, x.version)] c = l.set x.key x.version document := by
  cases hx with
  | checked hr hd =>
    obtain ⟨hk, hdoc, hm⟩ := hc
    exact ⟨hk, hd.readable hr hdoc hm, h.due hn hk hd, _,
      ⟨_, hr, (ReadDocument.of_json_ok hr).2⟩, fun _ => rfl⟩
  | due hr hd =>
    obtain ⟨hk, hdoc, hm, _⟩ := hc
    exact ⟨hk, hd.readable hr hdoc hm, h.due hn hk hd, _,
      ⟨_, hr, (ReadDocument.of_json_ok hr).2⟩, fun _ => rfl⟩
  | forced hr =>
    obtain ⟨hk, hdoc, hm, hv⟩ := hc
    have hnum := (hv _ rfl).numbered
    exact ⟨hk, Snapshot.readable_of_document hr hdoc hm hnum.integer hnum.positive, hnum, _,
      ⟨_, hr, (ReadDocument.of_json_ok hr).2⟩, fun _ => rfl⟩
  | saved x => exact hc.elim

/-- A call changes the store as it changes the ledger. -/
theorem called (h : Mirrors names l m s) (hn : Set.InjOn Key.directoryName names) {r : Registry}
    {c : Call} (hc : c.Documented names r) : ∃ m',
      Mirrors names (l.after (Log.filed (r.call c s).log) c) m' (r.call c s).store := by
  by_cases hdel : ∃ key, c = .store (.delete key)
  · obtain ⟨key, rfl⟩ := hdel
    rw [r.call_delete]
    exact h.cleared hn hc
  · rcases r.call_writes s c with (hs | ⟨x, hx, hs⟩) | ⟨key, hk, _⟩
    · rw [hs.1, hs.2, Ledger.after_nothing l hdel]
      exact ⟨m, h⟩
    · obtain ⟨hk, hr, hv, document, hd, ha⟩ := h.files hn hc hx
      obtain ⟨s', m', hg, hm⟩ := h.saved hn hk hr hv hd
      have hf : Log.filed (save x s).log = [(x.key, x.version)] := filed_put hg.2
      rw [hs.1, hs.2, hf, ha, hg.1]
      exact ⟨m', hm⟩
    · exact absurd ⟨key, hk⟩ hdel

theorem run (h : Mirrors names l m s) (hn : Set.InjOn Key.directoryName names)
    {calls : List (Registry × Call)} (hc : ∀ c ∈ calls, c.2.Documented names c.1) :
    ∃ m', Mirrors names (l.run s calls) m' (s.run calls) := by
  induction calls generalizing l m s with
  | nil => exact ⟨m, h⟩
  | cons c calls ih =>
    obtain ⟨hc, hcs⟩ := List.forall_mem_cons.mp hc
    obtain ⟨m', h'⟩ := h.called hn hc
    exact ih h' hcs

section

variable {r : Registry} {key : String}

theorem stored_iff (h : Mirrors names l m s) (k : String) (v : Binary64) :
    m k v = none ↔ l k v = none := by
  have hd := h.documents k v
  generalize m k v = found at hd ⊢
  generalize l k v = document at hd ⊢
  cases hd <;> simp

theorem kept (h : Mirrors names l m s) {k : String} {v : Binary64} {document : Json}
    (hl : l k v = some document) : ∃ x, m k v = some x ∧ x.Of document := by
  have hd := h.documents k v
  rw [hl] at hd
  generalize m k v = found at hd ⊢
  cases hd with
  | some hx => exact ⟨_, rfl, hx⟩

theorem document (h : Mirrors names l m s) {k : String} {v : Binary64} {x : Snapshot}
    (hm : m k v = some x) : ∃ document, l k v = some document ∧ x.Of document := by
  have hd := h.documents k v
  rw [hm] at hd
  generalize l k v = document at hd ⊢
  cases hd with
  | some hx => exact ⟨_, rfl, hx⟩

/-- The highest version of a ledger is the one that is loaded without a number. -/
theorem load_latest (h : Mirrors names l m s) (hn : Set.InjOn Key.directoryName names)
    (hk : key ∈ names) {v : Binary64} {document : Json} (hl : l.Latest key v document) :
    ∃ x, (load key).Gives s s (some x) ∧ x.version = v ∧ x.Of document := by
  obtain ⟨es, hv, hs⟩ := h.stock hn hk
  obtain ⟨x, hx, ho⟩ := h.kept hl.1
  obtain ⟨found, hg, hf⟩ := load_given hv hs
  have hlatest : IsLatest (m key) (some x) :=
    ⟨v, hx, fun w hw => hl.2 w (mt (h.stored_iff key w).mpr hw)⟩
  obtain rfl := latest_unique hs hf hlatest
  exact ⟨x, hg, (stock_proper hs hx).2.2, ho⟩

/-- A version of a ledger is loaded by its number. -/
theorem load_kept (h : Mirrors names l m s) (hn : Set.InjOn Key.directoryName names)
    (hk : key ∈ names) {v : Binary64} {document : Json} (hl : l key v = some document) :
    ∃ x, (loadVersion key v).Gives s s (some x) ∧ x.Of document := by
  obtain ⟨es, hv, hs⟩ := h.stock hn hk
  obtain ⟨x, hx, ho⟩ := h.kept hl
  have hg := load_version_given hv hs v
  rw [hx] at hg
  exact ⟨x, hg, ho⟩

/-- The versions of a key that can be loaded are those of the ledger. -/
theorem load_version (h : Mirrors names l m s) (hn : Set.InjOn Key.directoryName names)
    (hk : key ∈ names) (v : Binary64) : ∃ found, (loadVersion key v).Gives s s found ∧
      (found = none ↔ l key v = none) := by
  obtain ⟨es, hv, hs⟩ := h.stock hn hk
  exact ⟨_, load_version_given hv hs v, h.stored_iff key v⟩

/-- Two versions are compared as the documents that they were kept from. -/
theorem diff_given (h : Mirrors names l m s) (hn : Set.InjOn Key.directoryName names)
    (hk : key ∈ names) {a b : Binary64} {before after : Json} (ha : l key a = some before)
    (hb : l key b = some after) : ∃ previous current,
      ReadDocument.ofJson before = .ok previous ∧ ReadDocument.ofJson after = .ok current ∧
      (r.diff key a b).Gives s s
        (r.report key a b (previous.model.changes r.policy current.model)) := by
  obtain ⟨x, hx, previous, hp, hxb⟩ := h.load_kept hn hk ha
  obtain ⟨y, hy, current, hc, hyb⟩ := h.load_kept hn hk hb
  exact ⟨previous, current, hp, hc, r.diff_given s hx hxb hy hyb⟩

/-- A check that updates keeps a document that has changes from the highest version. -/
theorem check_updates (h : Mirrors names l m s) (hn : Set.InjOn Key.directoryName names)
    {v : Binary64} {before document : Json} {previous current : ReadDocument}
    (hc : (Call.check key document).Documented names r) (hu : r.autoUpdate = true)
    (hl : l.Latest key v before) (hp : ReadDocument.ofJson before = .ok previous)
    (hr : ReadDocument.ofJson document = .ok current)
    (hne : previous.model.changes r.policy current.model ≠ []) : ∃ s' y,
      (r.check key document).Gives s s'
        (r.report key v (v + 1) (previous.model.changes r.policy current.model)) ∧
      Log.filed (r.check key document s).log = [(key, v + 1)] ∧
      (loadVersion key (v + 1)).Gives s' s' (some y) ∧ y.Of document := by
  obtain ⟨hk, hdoc, hm⟩ := hc
  obtain ⟨x, hload, rfl, read, hread, hb⟩ := h.load_latest hn hk hl
  obtain rfl : read = previous := Except.ok.inj (hread.symm.trans hp)
  have hnum := (h.loaded hn hk hload.2).1.next
  obtain ⟨s', m', hg, h'⟩ := h.saved hn hk
    (x := ⟨key, current.schema, r.now, x.version + 1, some r.metadata⟩)
    (Snapshot.readable_of_document hr hdoc hm hnum.integer hnum.positive) hnum
    ⟨current, hr, (ReadDocument.of_json_ok hr).2⟩
  obtain ⟨hgives, hfiled⟩ := Registry.check_updates hr hload hb hu hne hg
  obtain ⟨y, hy, ho⟩ := h'.load_kept hn hk (if_pos ⟨rfl, rfl⟩)
  exact ⟨s', y, hgives, hfiled, hy, ho⟩

/-- A check that writes has found what the comparison of the two versions finds after it. -/
theorem check_diff (h : Mirrors names l m s) (hn : Set.InjOn Key.directoryName names)
    {document : Json} (hc : (Call.check key document).Documented names r) {report : Report Nat}
    (ha : (r.check key document s).answer = .ok report)
    (hf : Log.filed (r.check key document s).log ≠ []) (hv : report.currentVersion.Counted) :
    ∃ s' later, (r.check key document).Gives s s' report ∧
      (r.diff key report.previousVersion report.currentVersion).Gives s' s' later ∧
      later.changes = report.changes := by
  obtain ⟨hk, hdoc, hm⟩ := hc
  obtain ⟨current, hr, hsave, hcase⟩ := r.check_wrote ha hf
  have hread : (Snapshot.mk key current.schema r.now report.currentVersion
      (some r.metadata)).Readable :=
    Snapshot.readable_of_document hr hdoc hm hv.numbered.integer hv.numbered.positive
  obtain ⟨s', m', hg, h'⟩ := h.saved hn hk hread hv.numbered
    ⟨current, hr, (ReadDocument.of_json_ok hr).2⟩
  have hgives : (r.check key document).Gives s s' report := ⟨hsave.1.trans hg.1, ha⟩
  have hnew : (l.set key report.currentVersion document) key report.currentVersion
      = some document := if_pos ⟨rfl, rfl⟩
  rcases hcase with ⟨_, he⟩ | ⟨existing, previous, hl, hb, he⟩
  · -- A first version is compared with itself.
    obtain ⟨p, q, hp, hq, hdiff⟩ := h'.diff_given (r := r) hn hk hnew hnew
    obtain rfl : p = current := Except.ok.inj (hp.symm.trans hr)
    obtain rfl : q = p := Except.ok.inj (hq.symm.trans hr)
    subst he
    refine ⟨s', _, hgives, hdiff, ?_⟩
    rw [Model.changes_self (Model.built_of_schema (ReadDocument.of_json_ok hr).2)]
    rfl
  · -- The version that was the latest is still there: below 2^53 the next one has another number.
    obtain ⟨hnum, hex⟩ := h.loaded hn hk hl
    obtain ⟨d, hd, first, hfirst, hfb⟩ := h.document hex
    obtain rfl : previous = first.model := Except.ok.inj (hb.symm.trans hfb)
    subst he
    have hold : (l.set key (existing.version + 1) document) key existing.version = some d :=
      (if_neg fun hh => hnum.next_ne hv hh.2).trans hd
    obtain ⟨p, q, hp, hq, hdiff⟩ := h'.diff_given (r := r) hn hk hold hnew
    obtain rfl : p = first := Except.ok.inj (hp.symm.trans hfirst)
    obtain rfl : q = current := Except.ok.inj (hq.symm.trans hr)
    exact ⟨s', _, hgives, hdiff, rfl⟩

theorem track_diffs (h : Mirrors names l m s) (hn : Set.InjOn Key.directoryName names)
    (hk : key ∈ names) {t : Track Nat} (ht : (r.track key s).answer = .ok t) :
    s.Tracks r key (fun v => l key v ≠ none) t := by
  obtain ⟨es, hv, hs⟩ := h.stock hn hk
  obtain ⟨xs, hg, hx⟩ := versions_given hv hs
  obtain ⟨hversions, hlen, hsteps⟩ := r.track_given hg ht
  have hloaded : ∀ x ∈ xs, (loadVersion key x.version).Gives s s (some x) := by
    intro x hm
    obtain ⟨v, hxv⟩ := (hx.listed x).mp hm
    obtain ⟨_, _, he⟩ := stock_proper hs hxv
    rw [he, ← hxv]
    exact load_version_given hv hs v
  refine ⟨?_, fun v => ?_, ?_, fun i x hi => ?_⟩
  · rw [hversions, List.pairwise_map]
    exact hx.ascends
  · rw [hversions, List.mem_map]
    refine Iff.trans ?_ (not_congr (h.stored_iff key v))
    constructor
    · rintro ⟨x, hm, rfl⟩
      obtain ⟨v, hxv⟩ := (hx.listed x).mp hm
      rw [(stock_proper hs hxv).2.2, hxv]
      simp
    · intro hne
      obtain ⟨x, hxv⟩ := Option.ne_none_iff_exists'.mp hne
      exact ⟨x, (hx.listed x).mpr ⟨v, hxv⟩, (stock_proper hs hxv).2.2⟩
  · rw [hversions, List.length_map, hlen]
  · obtain ⟨y, z, before, after, hy, hz, hb, ha, rfl⟩ := hsteps i x hi
    refine ⟨rfl, y.version, z.version, ?_, ?_, fun least => ?_⟩
    · rw [hversions, List.getElem?_map, hy]
      rfl
    · rw [hversions, List.getElem?_map, hz]
      rfl
    · have hdiff := Registry.diff_given { r with least := least } s
        (hloaded y (List.mem_of_getElem? hy)) hb (hloaded z (List.mem_of_getElem? hz)) ha
      refine ⟨_, hdiff, ?_, rfl, ?_⟩
      · exact Model.count_breaking_listed (Model.built_of_schema ha) least
      · intro hleast
        subst hleast
        have hall := Registry.at_least_minor (before.changes r.policy after)
        exact ⟨congrArg List.length hall,
          congrArg (fun cs => cs.length - Change.countBreaking cs) hall⟩

/-- A document that is kept under a given version is in the ledger after that. -/
theorem forced (h : Mirrors names l m s) (hn : Set.InjOn Key.directoryName names)
    {document : Json} {current : ReadDocument} {v : Binary64}
    (hr : ReadDocument.ofJson document = .ok current)
    (hc : (Call.snapshot key document (some v)).Documented names r) :
    l.after (Log.filed (r.call (.snapshot key document (some v)) s).log)
      (.snapshot key document (some v)) = l.set key v document := by
  obtain ⟨es, hv, hs⟩ := h.stock hn hc.1
  obtain ⟨found, hg, _⟩ := load_given hv hs
  obtain ⟨hk, hx, hnum, _, hd, _⟩ := h.files hn hc (.forced hr)
  obtain ⟨s', _, hput, _⟩ := h.saved hn hk hx hnum hd
  have hf : Log.filed (save ⟨key, current.schema, r.now, v, some r.metadata⟩ s).log
      = [(key, v)] := filed_put hput.2
  rw [(r.call_forced s hr hg.2).2, hf]
  rfl

end

end Mirrors

/-- All ways to compare the versions of some keys tell what the documents tell that they were kept
from. -/
structure Agreement (names : Set String) (l : Ledger) (s : Store) : Prop where
  stored : ∀ key ∈ names, ∀ v, ∃ found, (loadVersion key v).Gives s s found ∧
    (found = none ↔ l key v = none)
  compared : ∀ (r : Registry), ∀ key ∈ names, ∀ a b before after, l key a = some before →
    l key b = some after → ∃ x y, (r.diff key a b).Gives s s x ∧
      r.compare before after = .ok y ∧ x.Agrees y
  checked : ∀ (r : Registry) key document report,
    (Call.check key document).Documented names r →
    (r.check key document s).answer = .ok report →
    Log.filed (r.check key document s).log ≠ [] → report.currentVersion.Counted →
    ∃ s' later, (r.check key document).Gives s s' report ∧
      (r.diff key report.previousVersion report.currentVersion).Gives s' s' later ∧
      later.changes = report.changes
  updated : ∀ (r : Registry) key v before document previous current,
    (Call.check key document).Documented names r → r.autoUpdate = true →
    l.Latest key v before → ReadDocument.ofJson before = .ok previous →
    ReadDocument.ofJson document = .ok current →
    previous.model.changes r.policy current.model ≠ [] →
    ∃ s' y, (r.check key document).Gives s s'
        (r.report key v (v + 1) (previous.model.changes r.policy current.model)) ∧
      Log.filed (r.check key document s).log = [(key, v + 1)] ∧
      (loadVersion key (v + 1)).Gives s' s' (some y) ∧ y.Of document
  tracked : ∀ (r : Registry), ∀ key ∈ names, ∀ t, (r.track key s).answer = .ok t →
    s.Tracks r key (fun v => l key v ≠ none) t

/-- After a run over keys with directories of their own, the versions of a key that are compared by
their numbers, in a check or in a track differ as their documents do. A check that updates keeps and
reports what has changes. -/
theorem comparisons_agree (path : Path) {names : Set String}
    (hn : Set.InjOn Key.directoryName names) {calls : List (Registry × Call)}
    (hc : ∀ c ∈ calls, c.2.Documented names c.1) :
    Agreement names (Ledger.empty.run ⟨path, none⟩ calls) (run ⟨path, none⟩ calls) := by
  obtain ⟨m, h⟩ := (mirrors_empty names path).run hn hc
  refine ⟨fun key hk v => h.load_version hn hk v, ?_, ?_, ?_, ?_⟩
  · intro r key hk a b before after ha hb
    obtain ⟨previous, current, hp, hcur, hdiff⟩ := h.diff_given (r := r) hn hk ha hb
    exact ⟨_, _, hdiff, r.compare_given hp hcur, r.reports_agree _ _ _ _ _ _ _⟩
  · intro r key document report hcheck ha hf hv
    exact h.check_diff hn hcheck ha hf hv
  · intro r key v before document previous current hcheck hu hl hp hr hne
    exact h.check_updates hn hcheck hu hl hp hr hne
  · intro r key hk t ht
    exact h.track_diffs hn hk ht

/-- Two documents that are kept under given versions differ as their versions do. A check that
updates keeps the one with the lower version again, above the other. -/
theorem comparisons_agree_sizes : ∃ s x y,
    run ⟨["srv"], none⟩
      [(.standard "", .snapshot "shop" (Introspection.sizeDocument "Int") (some (.ofNat 7))),
        (.standard "", .snapshot "shop" (Introspection.sizeDocument "Float")
          (some (.ofNat 2)))] = s ∧
    ((Registry.standard "").diff "shop" (.ofNat 7) (.ofNat 2)).Gives s s x ∧
    (Registry.standard "").compare (Introspection.sizeDocument "Int")
      (Introspection.sizeDocument "Float") = .ok y ∧ x.Agrees y ∧ x.changes ≠ [] ∧
    ∃ s' z report, ({ Registry.standard "" with autoUpdate := true }.check "shop"
      (Introspection.sizeDocument "Float")).Gives s s' report ∧ report.changes ≠ [] ∧
      (loadVersion "shop" (.ofNat 7 + 1)).Gives s' s' (some z) := by
  have hv : (Binary64.ofNat 7).Counted := counted_nat (by decide) (by decide)
  have hw : (Binary64.ofNat 2).Counted := counted_nat (by decide) (by decide)
  have hne : Binary64.ofNat 7 ≠ .ofNat 2 := fun he =>
    absurd (of_nat_injective (by decide) (by decide) he) (by decide)
  have hle : Binary64.ofNat 2 ≤ .ofNat 7 := (of_nat_le (by decide) (by decide)).mpr (by decide)
  generalize Binary64.ofNat 7 = v at *
  generalize Binary64.ofNat 2 = w at *
  have hn : Set.InjOn Key.directoryName {"shop"} := Set.injOn_singleton _ _
  have hd (scalar : String) {v : Binary64} (hv : v.Counted) :
      (Call.snapshot "shop" (Introspection.sizeDocument scalar) (some v)).Documented {"shop"}
        (.standard "") := by
    refine ⟨rfl, Introspection.size_document_distinct scalar, Registry.standard_clear "", ?_⟩
    intro u hu
    cases hu
    exact hv
  have hint := ReadDocument.of_size_document
    (rfl : Model.ofSchema (Introspection.sizeSchema "Int") = .ok _)
  have hfloat := ReadDocument.of_size_document
    (rfl : Model.ofSchema (Introspection.sizeSchema "Float") = .ok _)
  have hcalls : ∀ c ∈ [(Registry.standard "", Call.snapshot "shop"
      (Introspection.sizeDocument "Int") (some v)), (Registry.standard "", Call.snapshot "shop"
      (Introspection.sizeDocument "Float") (some w))], c.2.Documented {"shop"} c.1 := by
    simpa using ⟨hd "Int" hv, hd "Float" hw⟩
  have h₀ := mirrors_empty {"shop"} ["srv"]
  have hl₁ := h₀.forced hn hint (hd "Int" hv)
  obtain ⟨m, h₁⟩ := h₀.called hn (hd "Int" hv)
  rw [hl₁] at h₁
  have hl₂ := h₁.forced hn hfloat (hd "Float" hw)
  have hagree := comparisons_agree ["srv"] hn hcalls
  rw [Ledger.run, Ledger.run, Ledger.run, hl₁, hl₂] at hagree
  rw [run, List.foldl_cons, List.foldl_cons, List.foldl_nil] at hagree ⊢
  have hlatest := (Ledger.latest_first "shop" (whole_le_refl hv.whole)
    (Introspection.sizeDocument "Int")).set_below hle hne (Introspection.sizeDocument "Float")
  obtain ⟨x, y, hx, hy, hxy⟩ := hagree.compared (.standard "") "shop" rfl v w _ _ hlatest.1
    (if_pos ⟨rfl, rfl⟩)
  have hcheck : (Call.check "shop" (Introspection.sizeDocument "Float")).Documented {"shop"}
      { Registry.standard "" with autoUpdate := true } :=
    ⟨rfl, Introspection.size_document_distinct "Float", Registry.standard_clear ""⟩
  obtain ⟨s', z, hz, _, hload, _⟩ :=
    hagree.updated _ "shop" v _ _ _ _ hcheck rfl hlatest hint hfloat Model.size_changes
  have hcompare := (Registry.standard "").compare_given hint hfloat
  obtain rfl := Except.ok.inj (hy.symm.trans hcompare)
  refine ⟨_, x, _, rfl, hx, hy, hxy, ?_, s', z, _, hz, ?_, hload⟩
  · rw [hxy.changes]
    exact Model.size_changes
  · exact Model.size_changes

end Store

end SchemaHistory
