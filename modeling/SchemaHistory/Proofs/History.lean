import SchemaHistory.Proofs.Calls
import SchemaHistory.Proofs.Counting
import SchemaHistory.Proofs.Exactness
import SchemaHistory.Proofs.Rereading

namespace SchemaHistory

/-- One version in a history: the text of its file, and what the text says. -/
structure Edition where
  text : String
  snapshot : Snapshot
  model : Model
  read : Snapshot.parse text = .ok snapshot
  built : Model.ofSchema snapshot.schema = .ok model

/-- Whether there are changes does not depend on how they are judged. -/
theorem Model.changes_nonempty {a b : Model} (hb : b.Built) {policy : Policy}
    (h : a.changes policy b ≠ []) (other : Policy) : a.changes other b ≠ [] := by
  obtain ⟨c, hc⟩ := List.exists_mem_of_ne_nil _ h
  have hd : a.Differs b c.finding := (mem_findings hb).mp (List.mem_map_of_mem hc)
  intro he
  have hm : c.finding ∈ (a.changes other b).map Change.finding := (mem_findings hb).mpr hd
  rw [he] at hm
  contradiction

namespace Store

open SchemaHistory.Action Binary64 FileTree

/-- The file of the version at a position of a history. -/
def editionFile (i : Nat) : String :=
  s!"v{i + 1}.json"

theorem edition_file {i : Nat} (hi : i < safe) : versionFile (.ofNat (i + 1)) = editionFile i := by
  rw [versionFile, of_nat_text hi]
  rfl

theorem edition_chars (i : Nat) :
    (editionFile i).toList = 'v' :: (Nat.toDigits 10 (i + 1) ++ ".json".toList) := by
  change (("v" ++ String.ofList (Nat.toDigits 10 (i + 1))) ++ ".json").toList = _
  simp

theorem edition_file_injective : Function.Injective editionFile := by
  intro i j h
  have hc := congrArg String.toList h
  rw [edition_chars, edition_chars, List.cons.injEq, List.append_left_inj] at hc
  have hn := congrArg (Nat.ofDigitChars 10 · 0) hc.2
  simp only [Nat.ofDigitChars_ten_toDigits] at hn
  exact Nat.succ.inj hn

theorem edition_not_latest (i : Nat) : editionFile i ≠ latestFile := by
  intro h
  have hc := congrArg String.toList h
  rw [edition_chars] at hc
  simp [latestFile] at hc

/-- A directory that holds a history and nothing else: a file for each version, a copy of the last
one, versions that are counted from one, and changes in every step. -/
structure History (editions : List Edition) (entries : Entries) : Prop where
  ordered : Ordered entries
  files : ∀ f t, entries.lookup f = some t ↔
    (f = latestFile ∧ ∃ e, editions.getLast? = some e ∧ t = .file e.text) ∨
    ∃ i e, editions[i]? = some e ∧ f = editionFile i ∧ t = .file e.text
  numbered : ∀ i (e : Edition), editions[i]? = some e → e.snapshot.version = .ofNat (i + 1)
  differs : ∀ i a b, editions[i]? = some a → editions[i + 1]? = some b →
    ∀ policy, a.model.changes policy b.model ≠ []

theorem history_nil : History [] [] where
  ordered := List.Pairwise.nil
  files f t := by simp
  numbered i e he := by simp at he
  differs i a b ha := by simp at ha

namespace History

variable {editions : List Edition} {entries : Entries}

theorem file (h : History editions entries) (f : String) :
    ∀ inner, entries.lookup f ≠ some (.directory inner) := by
  intro inner hl
  rcases (h.files f _).mp hl with ⟨_, e, _, he⟩ | ⟨i, e, _, _, he⟩ <;> cases he

/-- The highest version is not above the number of versions. -/
theorem highest_le (h : History editions entries) {n : Nat} (hn : editions.length ≤ n)
    (hs : n ≤ safe) : highest entries ≤ .ofNat n := by
  have hw : ∀ v ∈ entries.filterMap (fun e => versionOf? e.1), ∃ i < editions.length,
      v = .ofNat (i + 1) := by
    intro v hv
    obtain ⟨⟨f, t⟩, hm, hv⟩ := List.mem_filterMap.mp hv
    rcases (h.files f t).mp ((lookup_iff h.ordered).mpr hm) with ⟨rfl, _⟩ | ⟨i, e, he, rfl, _⟩
    · rw [version_of_latest] at hv
      contradiction
    · have hi : i < editions.length := (List.getElem?_eq_some_iff.mp he).1
      rw [← edition_file (by omega), version_of_file (by omega)] at hv
      exact ⟨i, hi, (Option.some.inj hv).symm⟩
  have hwhole : ∀ v ∈ entries.filterMap (fun e => versionOf? e.1), v.Whole := by
    intro v hv
    obtain ⟨i, hi, he⟩ := hw v hv
    exact ⟨i + 1, by omega, he⟩
  have hm : highest entries ∈ 0 :: entries.filterMap fun e => versionOf? e.1 :=
    (foldl_max whole_zero hwhole).1
  rcases List.mem_cons.mp hm with hz | hv
  · rw [hz, zero_eq]
    exact (of_nat_le (Nat.zero_le _) hs).mpr (Nat.zero_le n)
  · obtain ⟨i, hi, he⟩ := hw _ hv
    rw [he]
    exact (of_nat_le (by omega) hs).mpr (by omega)

/-- A new version at the end is filed where it belongs. -/
theorem extended (h : History editions entries) (hs : editions.length < safe) {e : Edition}
    (hv : e.snapshot.version = .ofNat (editions.length + 1))
    (hd : ∀ last, editions.getLast? = some last →
      ∀ policy, last.model.changes policy e.model ≠ []) :
    History (editions ++ [e]) (filed entries (.ofNat (editions.length + 1)) e.text) where
  ordered := ordered_filed h.ordered _ _
  files f t := by
    have hf : versionFile (.ofNat (editions.length + 1)) = editionFile editions.length :=
      edition_file hs
    have hhigh := h.highest_le (Nat.le_succ _) hs
    rw [lookup_filed, hf]
    constructor
    · intro hl
      split at hl
      · rename_i hw
        cases hl
        rcases hw with rfl | ⟨rfl, _⟩
        · exact .inr ⟨_, e, get_concat_iff.mpr (.inr ⟨rfl, rfl⟩), rfl, rfl⟩
        · exact .inl ⟨rfl, e, List.getLast?_concat, rfl⟩
      · rename_i hw
        rcases (h.files f t).mp hl with ⟨rfl, _⟩ | ⟨i, a, ha, hfi, ht⟩
        · exact absurd (.inr ⟨rfl, hhigh⟩) hw
        · exact .inr ⟨i, a, get_concat_iff.mpr (.inl ha), hfi, ht⟩
    · rintro (⟨rfl, a, ha, rfl⟩ | ⟨i, a, ha, rfl, rfl⟩)
      · obtain rfl : e = a := by simpa using ha
        exact if_pos (.inr ⟨rfl, hhigh⟩)
      · rcases get_concat_iff.mp ha with ha | ⟨rfl, rfl⟩
        · have hi : i < editions.length := (List.getElem?_eq_some_iff.mp ha).1
          rw [if_neg]
          · exact (h.files _ _).mpr (.inr ⟨i, a, ha, rfl, rfl⟩)
          · rintro (hw | ⟨hw, _⟩)
            · exact absurd (edition_file_injective hw) (by omega)
            · exact edition_not_latest i hw
        · exact if_pos (.inl rfl)
  numbered i a ha := by
    rcases get_concat_iff.mp ha with ha | ⟨rfl, rfl⟩
    · exact h.numbered i a ha
    · exact hv
  differs i a b ha hb := by
    rcases get_concat_iff.mp hb with hb | ⟨hi, rfl⟩
    · have hi : i + 1 < editions.length := (List.getElem?_eq_some_iff.mp hb).1
      rcases get_concat_iff.mp ha with ha | ⟨he, _⟩
      · exact h.differs i a b ha hb
      · omega
    · rcases get_concat_iff.mp ha with ha | ⟨he, _⟩
      · refine hd a ?_
        rw [List.getLast?_eq_getElem?, ← hi, Nat.add_sub_cancel]
        exact ha
      · omega

theorem edition_iff (h : History editions entries) {i : Nat} :
    (∃ t, entries.lookup (editionFile i) = some t) ↔ i < editions.length := by
  constructor
  · rintro ⟨t, hl⟩
    rcases (h.files _ _).mp hl with ⟨hf, _⟩ | ⟨j, e, he, hf, _⟩
    · exact absurd hf (edition_not_latest i)
    · rw [edition_file_injective hf]
      exact (List.getElem?_eq_some_iff.mp he).1
  · intro hi
    exact ⟨_, (h.files _ _).mpr (.inr ⟨i, _, List.getElem?_eq_getElem hi, rfl, rfl⟩)⟩

theorem held (h : History editions entries) {i : Nat} {e : Edition} (he : editions[i]? = some e) :
    Holds entries (editionFile i) e.snapshot :=
  ⟨e.text, (h.files _ _).mpr (.inr ⟨i, e, he, rfl, rfl⟩), e.read⟩

variable {s : Store} {key : String}

theorem load_given (h : History editions entries)
    (hv : s.Shows (Key.directoryName key) entries) :
    (load key s).answer = .ok (editions.getLast?.map Edition.snapshot) := by
  have hat := file_shown hv latestFile
  unfold load
  simp only [Action.read, directory_of_key]
  cases hl : editions.getLast? with
  | none =>
    refine snapshot_missing (hat.trans ?_)
    cases hf : entries.lookup latestFile with
    | none => rfl
    | some t =>
      rcases (h.files _ _).mp hf with ⟨_, e, he, _⟩ | ⟨i, e, he, _⟩
      · rw [hl] at he
        contradiction
      · rw [List.getLast?_eq_none_iff.mp hl] at he
        contradiction
  | some e => exact snapshot_held hat ⟨e.text, (h.files _ _).mpr (.inl ⟨rfl, e, hl, rfl⟩), e.read⟩

theorem load_version_given (h : History editions entries)
    (hv : s.Shows (Key.directoryName key) entries) {i : Nat} (hi : i < safe) {e : Edition}
    (he : editions[i]? = some e) :
    (loadVersion key (.ofNat (i + 1)) s).answer = .ok (some e.snapshot) := by
  have hh := h.held he
  rw [← edition_file hi] at hh
  unfold loadVersion
  simp only [Action.read, directory_of_key]
  exact snapshot_held (file_shown hv _) hh

/-- What is due next in a history is the next number, for a model that differs from the last. -/
theorem due (h : History editions entries) (hs : editions.length < safe)
    (hv : s.Shows (Key.directoryName key) entries) {r : Registry} {model : Model}
    {v : Binary64} (hb : model.Built) (hd : r.Due s key model v) :
    v = .ofNat (editions.length + 1) ∧ ∀ last, editions.getLast? = some last →
      ∀ policy, last.model.changes policy model ≠ [] := by
  have hload := h.load_given hv
  cases hd with
  | first hl =>
    rw [hl] at hload
    have hn : editions.getLast? = none := by simpa using (Except.ok.inj hload).symm
    refine ⟨?_, fun last hlast => ?_⟩
    · rw [List.getLast?_eq_none_iff.mp hn, List.length_nil, Nat.zero_add]
      exact one_nat
    · rw [hn] at hlast
      cases hlast
  | @next existing previous hl hm hc =>
    rw [hl] at hload
    obtain ⟨last, hlast, he⟩ := Option.map_eq_some_iff.mp (Except.ok.inj hload).symm
    subst he
    have hp : last.model = previous := Except.ok.inj (last.built.symm.trans hm)
    rw [List.getLast?_eq_getElem?] at hlast
    have hpos : editions.length - 1 + 1 = editions.length := by
      have hlt := (List.getElem?_eq_some_iff.mp hlast).1
      omega
    refine ⟨?_, fun other hother => ?_⟩
    · rw [h.numbered _ _ hlast, hpos, of_nat_succ hs]
    · rw [List.getLast?_eq_getElem?, hlast] at hother
      cases hother
      rw [hp]
      exact Model.changes_nonempty hb hc

end History

/-- Every directory of a store at a place holds a history, of at most so many versions. -/
structure Chronicle (path : Path) (n : Nat) (s : Store) : Prop where
  place : s.path = path
  plain : s.Plain
  ordered : Ordered s.top
  histories : ∀ d t, s.top.lookup d = some t → ∃ editions entries,
    t = .directory entries ∧ editions ≠ [] ∧ editions.length ≤ n ∧ History editions entries

theorem chronicle_absent (path : Path) : Chronicle path 0 ⟨path, none⟩ where
  place := rfl
  plain := by simp [Plain]
  ordered := List.Pairwise.nil
  histories d t hl := by cases hl

end Store

/-- The calls that leave it to the registry to number versions, with documents and metadata whose
objects name no member twice. -/
def Call.Unforced (r : Registry) : Call → Prop
  | .check _ document => document.Distinct ∧ Json.Clear r.metadata
  | .snapshot _ document version => version = none ∧ document.Distinct ∧ Json.Clear r.metadata
  | .store (.save _) => False
  | _ => True

theorem Call.Unforced.due {r : Registry} {s : Store} {c : Call} {x : Snapshot}
    (hc : c.Unforced r) (hx : r.Files s c x) : ∃ model, x.Readable ∧
      Model.ofSchema x.schema = .ok model ∧ r.Due s x.key model x.version := by
  cases hx with
  | checked hr hd =>
    exact ⟨_, hd.readable hr hc.1 hc.2, (ReadDocument.of_json_ok hr).2, hd⟩
  | due hr hd =>
    exact ⟨_, hd.readable hr hc.2.1 hc.2.2, (ReadDocument.of_json_ok hr).2, hd⟩
  | forced hr => cases hc.1
  | saved x => exact hc.elim

/-- A call deletes the directory of that name. -/
def Call.Deletes (d : String) (c : Call) : Prop :=
  ∃ key, c = .store (.delete key) ∧ Key.directoryName key = d

namespace Store

open SchemaHistory.Action Binary64 FileTree

/-- The version that a call writes is the next one of the history of its directory. -/
theorem History.written {editions : List Edition} {entries : Entries}
    (h : History editions entries) (hs : editions.length < safe) {s : Store} {r : Registry}
    {c : Call} (hc : c.Unforced r) {x : Snapshot} (hx : r.Files s c x)
    (hv : s.Shows (Key.directoryName x.key) entries) :
    x.version = .ofNat (editions.length + 1) ∧ ∃ e : Edition,
      Model.ofSchema x.schema = .ok e.model ∧
      History (editions ++ [e]) (filed entries x.version x.text) := by
  obtain ⟨model, hr, hm, hd⟩ := hc.due hx
  obtain ⟨hver, hdiff⟩ := h.due hs hv (Model.built_of_schema hm) hd
  obtain ⟨y, hp, _, hy, hb⟩ := Snapshot.reread hr hm
  refine ⟨hver, ⟨x.text, y, model, hp, hb⟩, hm, ?_⟩
  rw [hver]
  exact h.extended hs (hy.trans hver) hdiff

namespace Chronicle

variable {path : Path} {n : Nat} {s : Store}

theorem mono (h : Chronicle path n s) {m : Nat} (hm : n ≤ m) : Chronicle path m s where
  place := h.place
  plain := h.plain
  ordered := h.ordered
  histories d t hl := by
    obtain ⟨editions, entries, ht, hne, hlen, hh⟩ := h.histories d t hl
    exact ⟨editions, entries, ht, hne, Nat.le_trans hlen hm, hh⟩

theorem shown (h : Chronicle path n s) (d : String) : ∃ editions entries,
    s.Shows d entries ∧ editions.length ≤ n ∧ History editions entries := by
  cases hl : s.top.lookup d with
  | none => exact ⟨[], [], .inr ⟨hl, rfl⟩, Nat.zero_le n, history_nil⟩
  | some t =>
    obtain ⟨editions, entries, rfl, _, hlen, hh⟩ := h.histories d t hl
    exact ⟨editions, entries, .inl hl, hlen, hh⟩

theorem changed (h : Chronicle path n s) {s' : Store} {d : String} {tree : Option FileTree}
    (hc : Changed s s' d tree)
    (ht : ∀ t, tree = some t → ∃ editions entries,
      t = .directory entries ∧ editions ≠ [] ∧ editions.length ≤ n ∧ History editions entries) :
    Chronicle path n s' where
  place := hc.path.trans h.place
  plain := hc.plain
  ordered := hc.ordered
  histories other t hl := by
    rw [hc.lookup] at hl
    split at hl
    · exact ht t hl
    · exact h.histories other t hl

/-- What a new version is filed with leaves the texts of the others as they are. -/
theorem kept {editions : List Edition} {entries : Entries} (h : History editions entries)
    (hs : editions.length < safe) (text : String) {i : Nat} {t : FileTree}
    (hl : entries.lookup (editionFile i) = some t) :
    (filed entries (.ofNat (editions.length + 1)) text).lookup (editionFile i) = some t := by
  have hlt : i < editions.length := h.edition_iff.mp ⟨t, hl⟩
  rw [lookup_filed, edition_file hs, if_neg, hl]
  rintro (hf | ⟨hf, _⟩)
  · exact absurd (edition_file_injective hf) (by omega)
  · exact edition_not_latest i hf

/-- A call adds one version at most to a history. Unless it deletes the directory, the versions that
are there keep their texts. -/
theorem called (h : Chronicle path n s) (hn : n < safe) {r : Registry} {c : Call}
    (hc : c.Unforced r) : Chronicle path (n + 1) (r.call c s).store ∧
      ∀ d, ¬c.Deletes d → ∀ i t, s.at? (s.path ++ [d] ++ [editionFile i]) = some t →
        (r.call c s).store.at? (s.path ++ [d] ++ [editionFile i]) = some t := by
  rcases r.call_writes s c with (hs | ⟨x, hx, hs⟩) | ⟨k, hk, hs, _⟩
  · rw [hs.1]
    exact ⟨h.mono (Nat.le_succ n), fun d _ i t ht => ht⟩
  · obtain ⟨editions, entries, hv, hlen, hh⟩ := h.shown (Key.directoryName x.key)
    have hlt : editions.length < safe := Nat.lt_of_le_of_lt hlen hn
    obtain ⟨hver, e, _, hnew⟩ := hh.written hlt hc hx hv
    obtain ⟨s', hg, hch⟩ := put_given h.plain h.ordered hv hh.file x.version x.toJson
    have hst : (save x s).store = s' := hg.1
    rw [hs.1, hst]
    refine ⟨(h.mono (Nat.le_succ n)).changed hch ?_, fun d _ i t ht => ?_⟩
    · intro t ht
      cases ht
      refine ⟨_, _, rfl, by simp, ?_, hnew⟩
      rw [List.length_append, List.length_singleton]
      exact Nat.succ_le_succ hlen
    · by_cases hd : d = Key.directoryName x.key
      · subst hd
        rw [file_shown hv] at ht
        rw [← hch.path, file_shown hch.shows, hver]
        exact kept hh hlt _ ht
      · exact (hch.file hd _).trans ht
  · have hch := clear_shown h.plain h.ordered (Key.directoryName k)
    rw [hs]
    refine ⟨(h.mono (Nat.le_succ n)).changed hch (fun t ht => by cases ht), fun d hd i t ht => ?_⟩
    exact (hch.file (fun he => hd ⟨k, hk, he.symm⟩) _).trans ht

/-- A document that differs from the last version of a history becomes the next one. -/
theorem appended (h : Chronicle path n s) {r : Registry} {key : String} {document : Json}
    {current : ReadDocument} (hr : ReadDocument.ofJson document = .ok current)
    (hc : (Call.snapshot key document none).Unforced r) {editions : List Edition}
    {entries : Entries} (hv : s.Shows (Key.directoryName key) entries)
    (hh : History editions entries) (hs : editions.length < safe)
    (hd : ∀ last, editions.getLast? = some last →
      last.model.changes r.policy current.model ≠ []) :
    ∃ e entries', e.model = current.model ∧ History (editions ++ [e]) entries' ∧
      (r.call (.snapshot key document none) s).store.top.lookup (Key.directoryName key)
        = some (.directory entries') := by
  have hload := hh.load_given hv
  obtain ⟨v, hdue⟩ : ∃ v, r.Due s key current.model v := by
    cases hlast : editions.getLast? with
    | none =>
      rw [hlast] at hload
      exact ⟨_, .first hload⟩
    | some last =>
      rw [hlast] at hload
      exact ⟨_, .next hload last.built (hd last hlast)⟩
  obtain ⟨_, e, hm, hnew⟩ := hh.written hs hc (.due hr hdue) hv
  obtain ⟨s', hg, hch⟩ := put_given h.plain h.ordered hv hh.file v
    (Snapshot.mk key current.schema r.now v (some r.metadata)).toJson
  have hst : (r.call (.snapshot key document none) s).store = s' :=
    (r.call_due s hr hdue).1.trans hg.1
  refine ⟨e, _, Except.ok.inj (hm.symm.trans (ReadDocument.of_json_ok hr).2), hnew, ?_⟩
  rw [hst]
  exact (hch.lookup _).trans (if_pos rfl)

theorem run (h : Chronicle path n s) {calls : List (Registry × Call)}
    (hc : ∀ c ∈ calls, c.2.Unforced c.1) (hn : n + calls.length ≤ safe) :
    Chronicle path (n + calls.length) (s.run calls) := by
  induction calls generalizing n s with
  | nil => exact h
  | cons c calls ih =>
    obtain ⟨hc, hcs⟩ := List.forall_mem_cons.mp hc
    rw [List.length_cons] at hn
    have h' := (h.called (by omega) hc).1
    have hr := ih h' hcs (by omega)
    rw [List.length_cons, Nat.add_comm calls.length 1, ← Nat.add_assoc]
    exact hr

end Chronicle

/-- The comparison of two versions that follow each other finds changes. -/
theorem History.diff_given {editions : List Edition} {entries : Entries}
    (h : History editions entries) (hlen : editions.length ≤ safe) {s : Store} {key : String}
    (hl : s.top.lookup (Key.directoryName key) = some (.directory entries)) (r : Registry) {i : Nat}
    (hi : i + 1 < editions.length) :
    ∃ report, (r.diff key (.ofNat (i + 1)) (.ofNat (i + 2))).Gives s s report ∧
      (r.least = .minor → report.changes ≠ []) := by
  have ha : editions[i]? = some editions[i] := List.getElem?_eq_getElem (by omega)
  have hb : editions[i + 1]? = some editions[i + 1] := List.getElem?_eq_getElem hi
  have hva := gives_load_version (h.load_version_given (.inl hl) (by omega) ha)
  have hvb := gives_load_version (h.load_version_given (.inl hl) (by omega) hb)
  refine ⟨_, r.diff_given s hva editions[i].built hvb editions[i + 1].built, fun hleast => ?_⟩
  change Change.atLeast r.least _ ≠ []
  rw [hleast, Registry.at_least_minor]
  exact h.differs i _ _ ha hb r.policy

/-- After a run that leaves the numbering to the registry, every directory holds a history, and the
last call, unless it deleted a directory, has not changed the text of a version in it. -/
theorem history_unforced (path : Path) {calls : List (Registry × Call)}
    (hc : ∀ c ∈ calls, c.2.Unforced c.1) (hn : calls.length < 2 ^ 53) :
    (∀ d t, (run ⟨path, none⟩ calls).top.lookup d = some t → ∃ editions entries,
      t = .directory entries ∧ editions ≠ [] ∧ History editions entries ∧
      ∀ (r : Registry) (key : String), Key.directoryName key = d →
        ∀ i, i + 1 < editions.length → ∃ report,
          (r.diff key (.ofNat (i + 1)) (.ofNat (i + 2))).Gives (run ⟨path, none⟩ calls)
            (run ⟨path, none⟩ calls) report ∧
          (r.least = .minor → report.changes ≠ [])) ∧
    ∀ before r c, calls = before ++ [(r, c)] → ∀ d, ¬c.Deletes d → ∀ i t,
      (run ⟨path, none⟩ before).at? (path ++ [d] ++ [editionFile i]) = some t →
      (run ⟨path, none⟩ calls).at? (path ++ [d] ++ [editionFile i]) = some t := by
  have hs : calls.length < safe := hn
  constructor
  · intro d t hl
    have hr := (chronicle_absent path).run hc (by omega)
    obtain ⟨editions, entries, rfl, hne, hlen, hh⟩ := hr.histories d t hl
    refine ⟨editions, entries, rfl, hne, hh, fun r key hk i hi => ?_⟩
    subst hk
    exact hh.diff_given (by omega) hl r hi
  · rintro before r c rfl d hd i t ht
    have hbefore : ∀ c ∈ before, c.2.Unforced c.1 := fun c hm =>
      hc c (List.mem_append_left _ hm)
    rw [List.length_append, List.length_singleton] at hs
    have hr := (chronicle_absent path).run hbefore (by omega)
    have hlast : c.Unforced r := hc (r, c) (List.mem_append_right _ (List.mem_singleton_self _))
    have hstep := (hr.called (by omega) hlast).2 d hd i t
    rw [hr.place] at hstep
    rw [run, List.foldl_append]
    exact hstep ht

/-- Two documents that differ become two versions, and the comparison of them finds the change. -/
theorem history_unforced_sizes : ∃ s report,
    run ⟨["srv"], none⟩ [(.standard "", .snapshot "shop" (Introspection.sizeDocument "Int") none),
      (.standard "", .snapshot "shop" (Introspection.sizeDocument "Float") none)] = s ∧
    ((Registry.standard "").diff "shop" (.ofNat 1) (.ofNat 2)).Gives s s report ∧
    report.changes ≠ [] := by
  have hu (scalar : String) :
      (Call.snapshot "shop" (Introspection.sizeDocument scalar) none).Unforced (.standard "") :=
    ⟨rfl, Introspection.size_document_distinct scalar, by simp [Json.Clear, Registry.standard]⟩
  have hcalls : ∀ c ∈ [(Registry.standard "", Call.snapshot "shop"
      (Introspection.sizeDocument "Int") none), (Registry.standard "", Call.snapshot "shop"
      (Introspection.sizeDocument "Float") none)], c.2.Unforced c.1 := by
    simpa using ⟨hu "Int", hu "Float"⟩
  have hint := ReadDocument.of_size_document
    (rfl : Model.ofSchema (Introspection.sizeSchema "Int") = .ok _)
  have hfloat := ReadDocument.of_size_document
    (rfl : Model.ofSchema (Introspection.sizeSchema "Float") = .ok _)
  have h₀ := chronicle_absent ["srv"]
  have h₁ := (h₀.called (by decide) (hu "Int")).1
  obtain ⟨e₁, _, he₁, hh₁, hl₁⟩ :=
    h₀.appended hint (hu "Int") (.inr ⟨rfl, rfl⟩) history_nil (by decide) (by simp)
  have hdiff : ∀ last, [e₁].getLast? = some last →
      last.model.changes .baseName (Model.sizeModel (.named "Float")) ≠ [] := by
    intro last hlast
    obtain rfl : e₁ = last := by simpa using hlast
    rw [he₁]
    exact Model.size_changes
  obtain ⟨e₂, _, _, hh₂, hl₂⟩ :=
    h₁.appended hfloat (hu "Float") (.inl hl₁) hh₁ (by simp [safe]) hdiff
  have hrun := (history_unforced ["srv"] hcalls (by simp)).1
  rw [run, List.foldl_cons, List.foldl_cons, List.foldl_nil] at hrun ⊢
  obtain ⟨editions, entries, he, _, hh, hd⟩ := hrun _ _ hl₂
  cases he
  have hlen : 1 < editions.length := hh.edition_iff.mp (hh₂.edition_iff.mpr (by simp))
  obtain ⟨report, hg, hc⟩ := hd (.standard "") "shop" rfl 0 hlen
  exact ⟨_, report, rfl, hg, hc rfl⟩

end Store

end SchemaHistory
