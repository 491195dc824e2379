import SchemaHistory.Proofs.Entries
import SchemaHistory.Store.Basic

namespace SchemaHistory

namespace Key

theorem squeeze_mem {run : Nat} {cs : List Char} {c : Char} (h : c ∈ squeeze run cs) :
    c = '_' ∨ c ∈ cs := by
  induction cs generalizing run with
  | nil => exact .inr h
  | cons d cs ih =>
    rw [squeeze] at h
    split at h
    · split at h
      · rcases List.mem_cons.mp h with hc | hm
        · exact .inl hc
        · exact (ih hm).imp_right (List.mem_cons_of_mem d)
      · exact (ih h).imp_right (List.mem_cons_of_mem d)
    · rcases List.mem_cons.mp h with rfl | hm
      · exact .inr List.mem_cons_self
      · exact (ih hm).imp_right (List.mem_cons_of_mem d)

theorem safe_not_slash {c d : Char} (h : d ∈ safeChars c) : d ≠ '/' := by
  unfold safeChars at h
  split at h
  · rename_i hs
    rw [List.mem_singleton] at h
    intro he
    subst he
    rw [← h] at hs
    exact absurd hs (by decide)
  · split at h
    · obtain rfl : d = '_' := by simpa using h
      decide
    · rw [List.eq_of_mem_replicate h]
      decide

/-- No slash is left in the name of a directory. -/
theorem name_not_slash {key : List Char} : '/' ∉ nameChars key := by
  have hn : ∀ c ∈ (squeeze 0 ((withoutScheme key).flatMap safeChars)).take longest, c ≠ '/' := by
    intro c hc
    rcases squeeze_mem (List.mem_of_mem_take hc) with rfl | hm
    · decide
    · obtain ⟨d, _, hd⟩ := List.mem_flatMap.mp hm
      exact safe_not_slash hd
  intro h
  unfold nameChars at h
  dsimp only at h
  split at h
  · rcases List.mem_cons.mp h with he | hm
    · exact absurd he (by decide)
    · exact hn _ hm rfl
  · exact hn _ h rfl

theorem name_not_dots (key : List Char) : (nameChars key).all (· == '.') = false := by
  unfold nameChars
  dsimp only
  split
  · rfl
  · rename_i h
    exact Bool.eq_false_iff.mpr h

end Key

namespace Path

theorem split_name {name : String} (h : '/' ∉ name.toList) : split name = [name] := by
  rw [split, List.splitOn_eq_singleton h]
  simp

theorem follow_name {path : Path} {name : String} (h : name.toList.all (· == '.') = false) :
    follow path name = path ++ [name] := by
  have h0 : ¬(name = "" ∨ name = ".") := by
    rintro (rfl | rfl) <;> exact absurd h (by decide)
  have h2 : ¬name = ".." := by
    intro he
    subst he
    exact absurd h (by decide)
  rw [follow, if_neg h0, if_neg h2]

/-- The name of a key leads into the directory that it is resolved in. -/
theorem resolve_key (base : Path) (key : String) :
    resolve base (Key.directoryName key) = base ++ [Key.directoryName key] := by
  have hc : (Key.directoryName key).toList = Key.nameChars key.toList := String.toList_ofList
  have hs : '/' ∉ (Key.directoryName key).toList := by
    rw [hc]
    exact Key.name_not_slash
  have hr : ¬['/'].isPrefixOf (Key.directoryName key).toList = true := by
    cases hl : (Key.directoryName key).toList with
    | nil => simp
    | cons c cs =>
      have hc : '/' ≠ c := by
        intro he
        subst he
        exact hs (hl ▸ List.mem_cons_self)
      simpa using hc
  have hd : (Key.directoryName key).toList.all (· == '.') = false := by
    rw [hc]
    exact Key.name_not_dots _
  rw [resolve, if_neg hr, split_name hs, List.foldl_cons, List.foldl_nil, follow_name hd]

end Path

namespace Store

open FileTree

theorem directory_of_key (s : Store) (key : String) :
    s.directoryOf key = .ok (s.path ++ [Key.directoryName key]) := by
  have hp : Path.parent (s.path ++ [Key.directoryName key]) = s.path := List.dropLast_concat
  rw [directoryOf, Path.resolve_key, if_pos hp]

/-- The directories of a store. -/
def top (s : Store) : Entries :=
  match s.root with
  | some (.directory entries) => entries
  | _ => []

/-- No file is in the place of the store. -/
def Plain (s : Store) : Prop :=
  ∀ text, s.root ≠ some (.file text)

theorem at_directory (s : Store) (d : String) : s.at? (s.path ++ [d]) = s.top.lookup d := by
  obtain ⟨path, root⟩ := s
  rw [at?, List.drop_left]
  match root with
  | none => rfl
  | some (.file _) => rfl
  | some (.directory entries) =>
    change (entries.lookup d).bind (fun t => some t) = entries.lookup d
    exact Option.bind_fun_some _

theorem at_file (s : Store) (d f : String) :
    s.at? (s.path ++ [d] ++ [f]) = (s.top.lookup d).bind (child? f) := by
  obtain ⟨path, root⟩ := s
  rw [at?, List.append_assoc, List.drop_left]
  match root with
  | none => rfl
  | some (.file _) => rfl
  | some (.directory entries) =>
    change (entries.lookup d).bind (fun t => (t.child? f).bind fun t => some t)
      = (entries.lookup d).bind (child? f)
    exact congrArg _ (funext fun t => Option.bind_fun_some _)

theorem top_lookup (s : Store) (d : String) : s.top.lookup d = s.root.bind (child? d) := by
  obtain ⟨path, root⟩ := s
  match root with
  | none => rfl
  | some (.file _) => rfl
  | some (.directory _) => rfl

/-- A file that was written holds its text, and the other files of its directory hold what they
did. -/
theorem write_file_at {s s' : Store} {d f text : String}
    (h : s.writeFile (s.path ++ [d]) f text = .ok s') : s'.path = s.path ∧
      ∀ g, s'.at? (s.path ++ [d] ++ [g])
        = if g = f then some (.file text) else s.at? (s.path ++ [d] ++ [g]) := by
  unfold writeFile at h
  split at h
  · contradiction
  · rw [List.drop_left] at h
    dsimp only at h
    split at h
    · rename_i root hu
      cases h
      refine ⟨rfl, fun g => ?_⟩
      obtain ⟨inner, hd, htop⟩ := update_child hu
      obtain ⟨_, hf, hinner⟩ := update_child hd
      cases hf
      have hat := at_file { s with root := root } d g
      rw [top_lookup, htop d, if_pos rfl, hinner g] at hat
      rw [hat, at_file, top_lookup]
    · contradiction

/-- A directory of a store holds the given entries, or it is not there and holds none. -/
def Shows (s : Store) (d : String) (entries : Entries) : Prop :=
  s.top.lookup d = some (.directory entries) ∨ s.top.lookup d = none ∧ entries = []

theorem entries_shown {s : Store} {d : String} {entries : Entries} (h : s.Shows d entries) :
    s.entries (s.path ++ [d]) = .ok entries := by
  rw [Store.entries, at_directory]
  rcases h with h | ⟨h, rfl⟩ <;> rw [h]

theorem file_shown {s : Store} {d : String} {entries : Entries} (h : s.Shows d entries)
    (f : String) : s.at? (s.path ++ [d] ++ [f]) = entries.lookup f := by
  rw [at_file]
  rcases h with h | ⟨h, rfl⟩ <;> rw [h] <;> rfl

/-- One directory of a store now holds something else, or nothing, and the others what they did. -/
structure Changed (s s' : Store) (d : String) (tree : Option FileTree) : Prop where
  path : s'.path = s.path
  plain : s'.Plain
  ordered : Ordered s'.top
  lookup : ∀ other, s'.top.lookup other = if other = d then tree else s.top.lookup other

theorem Changed.trans {s s' s'' : Store} {d : String} {tree tree' : Option FileTree}
    (h : Changed s s' d tree) (h' : Changed s' s'' d tree') : Changed s s'' d tree' where
  path := h'.path.trans h.path
  plain := h'.plain
  ordered := h'.ordered
  lookup other := by
    rw [h'.lookup, h.lookup]
    split <;> rfl

theorem Changed.shows {s s' : Store} {d : String} {entries : Entries}
    (h : Changed s s' d (some (.directory entries))) : s'.Shows d entries :=
  .inl (by rw [h.lookup, if_pos rfl])

theorem Changed.file {s s' : Store} {d other : String} {tree : Option FileTree}
    (h : Changed s s' d tree) (hne : other ≠ d) (f : String) :
    s'.at? (s.path ++ [other] ++ [f]) = s.at? (s.path ++ [other] ++ [f]) := by
  have hat := at_file s' other f
  rw [h.path] at hat
  rw [hat, at_file, h.lookup, if_neg hne]

theorem update_shown {s : Store} (hp : s.Plain) {d : String} {entries : Entries}
    (h : s.Shows d entries) (f text : String) :
    update? (fun _ => some (.file text)) [d, f] s.root = some (some (.directory
      (FileTree.put d (.directory (FileTree.put f (.file text) entries)) s.top))) := by
  obtain ⟨path, root⟩ := s
  cases root with
  | none =>
    rcases h with h | ⟨_, rfl⟩
    · cases h
    · rfl
  | some tree =>
    cases tree with
    | file text => exact absurd rfl (hp text)
    | directory es =>
      rcases h with h | ⟨h, rfl⟩
      · change es.lookup d = _ at h
        simp only [update?, h]
        rfl
      · change es.lookup d = _ at h
        simp only [update?, h]
        rfl

/-- Writing a file puts it into its directory, which is made if need be. -/
theorem write_shown {s : Store} (hp : s.Plain) (ho : Ordered s.top) {d : String}
    {entries : Entries} (h : s.Shows d entries) {f : String}
    (hf : ∀ es, entries.lookup f ≠ some (.directory es)) (text : String) :
    ∃ s', s.writeFile (s.path ++ [d]) f text = .ok s' ∧
      Changed s s' d (some (.directory (FileTree.put f (.file text) entries))) := by
  have hu := update_shown hp h f text
  refine ⟨{ s with root := some (.directory _) }, ?_, rfl, by simp [Plain], put_ordered ho,
    lookup_put _ _ _⟩
  unfold writeFile
  rw [file_shown h f]
  split
  · rename_i hl
    exact absurd hl (hf _)
  · rw [List.drop_left, List.singleton_append]
    dsimp only
    rw [hu]

theorem clear_shown {s : Store} (hp : s.Plain) (ho : Ordered s.top) (d : String) :
    Changed s (s.clear (s.path ++ [d])) d none := by
  have ht : (s.clear (s.path ++ [d])).path = s.path ∧ (s.clear (s.path ++ [d])).Plain ∧
      (s.clear (s.path ++ [d])).top = FileTree.remove d s.top := by
    obtain ⟨path, root⟩ := s
    rw [clear, List.drop_left]
    match root with
    | none =>
      refine ⟨rfl, ?_, rfl⟩
      intro _ h
      cases h
    | some (.file text) => exact absurd rfl (hp text)
    | some (.directory entries) =>
      refine ⟨rfl, ?_, rfl⟩
      intro _ h
      cases h
  obtain ⟨hpath, hplain, htop⟩ := ht
  refine ⟨hpath, hplain, ?_, ?_⟩
  · rw [htop]
    exact remove_ordered ho
  · intro other
    rw [htop, lookup_remove]

end Store

end SchemaHistory
