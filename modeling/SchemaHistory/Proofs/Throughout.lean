import SchemaHistory.Proofs.Latest

namespace SchemaHistory

namespace Store

open SchemaHistory.Action FileTree

/-- A tidy store with a property of every directory. -/
structure Throughout (p : Entries → Prop) (s : Store) : Prop where
  tidy : s.Tidy
  each : ∀ d es, s.Shows d es → p es

variable {p : Entries → Prop} {s s' : Store}

theorem throughout_absent (h : p []) (path : Path) : Throughout p ⟨path, none⟩ where
  tidy := tidy_absent path
  each d es hv := by
    rcases hv with hl | ⟨_, rfl⟩
    · cases hl
    · exact h

/-- What a directory shows after one was changed. -/
theorem Changed.shown {d other : String} {tree : Option FileTree} {es : Entries}
    (hc : Changed s s' d tree) (hv : s'.Shows other es) :
    other = d ∧ (tree = some (.directory es) ∨ tree = none ∧ es = []) ∨ s.Shows other es := by
  unfold Shows at hv ⊢
  rw [hc.lookup] at hv
  split at hv
  · rename_i hd
    exact .inl ⟨hd, hv⟩
  · exact .inr hv

theorem Throughout.changed (h : Throughout p s) {d : String} {es : Entries}
    (hc : Changed s s' d (some (.directory es))) (ht : s'.Tidy) (hp : p es) :
    Throughout p s' where
  tidy := ht
  each other es' hv := by
    rcases hc.shown hv with ⟨_, hl | ⟨hl, _⟩⟩ | hv
    · cases hl
      exact hp
    · cases hl
    · exact h.each other es' hv

theorem Throughout.cleared (h : Throughout p s) (hp : p []) (d : String) :
    Throughout p (s.clear (s.path ++ [d])) where
  tidy := h.tidy.cleared d
  each other es hv := by
    rcases (clear_shown h.tidy.plain h.tidy.ordered d).shown hv with ⟨_, hl | ⟨_, rfl⟩⟩ | hv
    · cases hl
    · exact hp
    · exact h.each other es hv

/-- A call keeps a property of every directory if the snapshots that it may write do. -/
theorem Throughout.called (h : Throughout p s) (h0 : p []) {r : Registry} {c : Call}
    (hc : c.Clear r) (hp : ∀ x es, r.Files s c x → s.Shows (Key.directoryName x.key) es →
      Topped es → p es → p (filed es x.version x.text)) : Throughout p (r.call c s).store := by
  cases Registry.call_effect h.tidy hc with
  | still hs =>
    rw [hs.1]
    exact h
  | saved hx hv ht _ ho hchanged _ => exact h.changed hchanged ho (hp _ _ hx hv ht (h.each _ _ hv))
  | deleted _ hs =>
    rw [hs]
    exact h.cleared h0 _

/-- So does a run. -/
theorem run_throughout (h0 : p []) {allowed : Registry → Call → Prop}
    (hallowed : ∀ r c, allowed r c → c.Clear r)
    (hp : ∀ r c s x es, allowed r c → r.Files s c x → s.Shows (Key.directoryName x.key) es →
      Topped es → p es → p (filed es x.version x.text))
    (h : Throughout p s) {calls : List (Registry × Call)}
    (hc : ∀ c ∈ calls, allowed c.1 c.2) : Throughout p (s.run calls) := by
  induction calls generalizing s with
  | nil => exact h
  | cons c calls ih =>
    obtain ⟨hc, hcs⟩ := List.forall_mem_cons.mp hc
    refine ih (h.called h0 (hallowed _ _ hc) fun x es hx hv => ?_) hcs
    exact hp _ _ s x es hc hx hv

end Store

end SchemaHistory
