import SchemaHistory.Proofs.Faithful
import SchemaHistory.Settings

namespace SchemaHistory

open Validation

namespace Json

theorem lookup_put (name : String) (value : Json) (members : List (String × Json))
    (other : String) : (put name value members).lookup other
      = if other = name then some value else members.lookup other := by
  by_cases ho : other = name
  · subst ho
    rw [if_pos rfl]
    induction members with
    | nil => exact List.lookup_cons_self
    | cons m members ih =>
      obtain ⟨n, v⟩ := m
      rw [put]
      split
      · exact List.lookup_cons_self
      · rename_i hn
        rw [lookup_skip (Ne.symm hn), ih]
  · rw [if_neg ho]
    induction members with
    | nil => exact lookup_skip ho value []
    | cons m members ih =>
      obtain ⟨n, v⟩ := m
      rw [put]
      split
      · rename_i hn
        subst hn
        rw [lookup_skip ho, lookup_skip ho]
      · rw [List.lookup_cons, List.lookup_cons, ih]

end Json

namespace Validation

theorem seq_accepted_iff {α β : Type} {f : Checked (α → β)} {x : Checked α} {b : β} :
    f <*> x = .accepted b ↔ ∃ g a, f = .accepted g ∧ x = .accepted a ∧ b = g a := by
  refine ⟨seq_accepted, ?_⟩
  rintro ⟨g, a, rfl, rfl, rfl⟩
  rfl

theorem map_accepted_iff {α β : Type} {g : α → β} {x : Checked α} {b : β} :
    g <$> x = .accepted b ↔ ∃ a, x = .accepted a ∧ b = g a := by
  refine ⟨map_accepted, ?_⟩
  rintro ⟨a, rfl, rfl⟩
  rfl

theorem member_accepted_iff {α : Type} {members : List (String × Json)} {name : String}
    {decode : Decoder α} {a : α} :
    member members name decode = .accepted a ↔ decode (members.lookup name) = .accepted a := by
  refine ⟨under_accepted, fun h => ?_⟩
  rw [member, h]
  rfl

/-- A decoder takes the values that are allowed and no others, and each for what it is written
for. -/
structure Reads {α : Type} (decode : Decoder α) (write : α → Json) (allowed : Json → Prop) :
    Prop where
  reads : ∀ v a, decode (some v) = .accepted a ↔ allowed v ∧ v = write a
  written : ∀ v, allowed v → ∃ a, v = write a
  injective : write.Injective

theorem string_injective : Json.string.Injective :=
  fun _ _ h => Json.string.inj h

theorem non_empty_reads :
    Reads Settings.nonEmptyText .string fun v => ∃ text, text ≠ "" ∧ v = .string text where
  reads v a := by
    constructor
    · intro h
      unfold Settings.nonEmptyText at h
      split at h
      · cases h
      · rename_i hv
        cases v with
        | string text =>
          obtain rfl := Checked.accepted.inj h
          exact ⟨⟨text, fun ht => hv (by rw [ht]), rfl⟩, rfl⟩
        | _ => cases h
    · rintro ⟨⟨text, ht, rfl⟩, he⟩
      obtain rfl := Json.string.inj he
      unfold Settings.nonEmptyText
      split
      · rename_i hv
        exact absurd (Json.string.inj (Option.some.inj hv)) ht
      · rfl
  written := by
    rintro v ⟨text, -, rfl⟩
    exact ⟨text, rfl⟩
  injective := string_injective

theorem one_of_reads {α : Type} {all : List α} {text : α → String} (hall : ∀ a, a ∈ all)
    (ht : (all.map text).Nodup) :
    Reads (Settings.oneOf all text) (fun a => .string (text a))
      fun v => ∃ t ∈ all.map text, v = .string t where
  reads v a := by
    constructor
    · intro h
      cases v with
      | string t =>
        unfold Settings.oneOf at h
        dsimp only at h
        split at h
        · rename_i b hb
          obtain rfl := Checked.accepted.inj h
          obtain rfl : text b = t := by simpa using List.find?_some hb
          exact ⟨⟨_, List.mem_map_of_mem (hall b), rfl⟩, rfl⟩
        · cases h
      | _ => cases h
    · rintro ⟨-, rfl⟩
      have hf : all.find? (fun b => text b = text a) = some a := by
        cases hb : all.find? fun b => text b = text a with
        | none => simpa using List.find?_eq_none.mp hb a (hall a)
        | some b =>
          have hbt : text b = text a := by simpa using List.find?_some hb
          rw [List.inj_on_of_nodup_map ht (hall b) (hall a) hbt]
      simp only [Settings.oneOf, hf]
  written := by
    rintro v ⟨t, hm, rfl⟩
    obtain ⟨a, -, rfl⟩ := List.mem_map.mp hm
    exact ⟨a, rfl⟩
  injective a b h := List.inj_on_of_nodup_map ht (hall a) (hall b) (Json.string.inj h)

section

variable {α : Type} {decode : Decoder α} {write : α → Json} {allowed : Json → Prop}
  (h : Reads decode write allowed)

include h

theorem items_reads {n : Nat} {vs : List Json} {as : List α} :
    itemsFrom decode n vs = .accepted as ↔ (∀ v ∈ vs, allowed v) ∧ vs = as.map write := by
  induction vs generalizing n as with
  | nil => cases as <;> simp [itemsFrom]
  | cons v vs ih =>
    have hv {a : α} : (decode (some v)).under (.index n) = .accepted a ↔ allowed v ∧ v = write a :=
      ⟨fun hd => (h.reads v a).mp (under_accepted hd), fun hd => by rw [(h.reads v a).mpr hd]; rfl⟩
    rw [itemsFrom, seq_accepted_iff]
    simp only [map_accepted_iff, hv, ih, List.forall_mem_cons]
    constructor
    · rintro ⟨_, as', ⟨a, ⟨ha, rfl⟩, rfl⟩, ⟨has, rfl⟩, rfl⟩
      exact ⟨⟨ha, has⟩, rfl⟩
    · rintro ⟨⟨ha, has⟩, he⟩
      cases as with
      | nil => cases he
      | cons a as =>
        obtain ⟨rfl, rfl⟩ := List.cons.inj he
        exact ⟨_, as, ⟨a, ⟨ha, rfl⟩, rfl⟩, ⟨has, rfl⟩, rfl⟩

theorem list_reads :
    Reads (listOf decode) (fun as => .array (as.map write))
      fun v => ∃ vs, (∀ v ∈ vs, allowed v) ∧ v = .array vs where
  reads v as := by
    cases v with
    | array vs =>
      refine (items_reads h).trans ?_
      simp
    | _ =>
      constructor
      · intro hd
        cases hd
      · rintro ⟨-, he⟩
        cases he
  written := by
    rintro v ⟨vs, hvs, rfl⟩
    suffices ∃ as : List α, vs = as.map write from this.imp fun _ => congrArg Json.array
    induction vs with
    | nil => exact ⟨[], rfl⟩
    | cons v vs ih =>
      obtain ⟨hv, hvs⟩ := List.forall_mem_cons.mp hvs
      obtain ⟨a, hva⟩ := h.written v hv
      obtain ⟨as, has⟩ := ih hvs
      exact ⟨a :: as, by rw [hva, has, List.map_cons]⟩
  injective _ _ he := h.injective.list_map (Json.array.inj he)

/-- What is missing is read as if the standard value were written. -/
theorem or_else_reads {standard a : α} {o : Option Json} :
    Settings.orElse standard decode o = .accepted a ↔
      (∀ v ∈ o, allowed v) ∧ o.getD (write standard) = write a := by
  cases o with
  | none => simpa [Settings.orElse] using h.injective.eq_iff.symm
  | some v => simpa [Settings.orElse] using h.reads v a

end

end Validation

/-- One of the settings. -/
inductive Setting where
  | store
  | least
  | scalars
  | policy
  | format
  | log
deriving DecidableEq

namespace Setting

def all : List Setting :=
  [store, least, scalars, policy, format, log]

theorem mem_all (x : Setting) : x ∈ all := by
  cases x <;> decide

/-- The name of its member in an object. -/
def name : Setting → String
  | store => Settings.storeName
  | least => Settings.severityName
  | scalars => Settings.scalarsName
  | policy => Settings.policyName
  | format => Settings.formatName
  | log => Settings.logName

/-- The variable that holds it. There is none for the format of reports. -/
def variableName? : Setting → Option String
  | store => some Settings.storeVariable
  | least => some Settings.severityVariable
  | scalars => some Settings.scalarsVariable
  | policy => some Settings.policyVariable
  | format => none
  | log => some Settings.logVariable

/-- What the text of a variable stands for: names parted by commas, or the text itself. -/
def ofText : Setting → String → Json
  | scalars, text => .strings (Settings.namesIn text)
  | _, text => .string text

/-- The values that it may be given. -/
def Allows : Setting → Json → Prop
  | store, v => ∃ text, text ≠ "" ∧ v = .string text
  | least, v => ∃ text ∈ ["minor", "major", "critical"], v = .string text
  | scalars, v => ∃ vs, (∀ w ∈ vs, ∃ text, text ≠ "" ∧ w = .string text) ∧ v = .array vs
  | policy, v => ∃ text ∈ ["base-name", "structural"], v = .string text
  | format, v => ∃ text ∈ ["console", "json", "markdown"], v = .string text
  | log, v => ∃ text ∈ ["debug", "info", "warn", "error", "silent"], v = .string text

/-- What it is once it is read. -/
def Value : Setting → Type
  | store => String
  | least => Severity
  | scalars => List String
  | policy => Policy
  | format => Format
  | log => Log.Threshold

def of (s : Settings) : (x : Setting) → x.Value
  | store => s.store
  | least => s.least
  | scalars => s.customScalars
  | policy => s.policy
  | format => s.format
  | log => s.logThreshold

def toJson : (x : Setting) → x.Value → Json
  | store => .string
  | least => fun a : Severity => .string a.text
  | scalars => .strings
  | policy => fun a : Policy => .string a.text
  | format => fun a : Format => .string a.text
  | log => fun a : Log.Threshold => .string a.text

def decoder : (x : Setting) → Decoder x.Value
  | store => Settings.nonEmptyText
  | least => Settings.oneOf Severity.all Severity.text
  | scalars => listOf Settings.nonEmptyText
  | policy => Settings.oneOf Policy.all Policy.text
  | format => Settings.oneOf Format.all Format.text
  | log => Settings.oneOf Log.Threshold.all Log.Threshold.text

theorem decoder_reads (x : Setting) : Reads x.decoder x.toJson x.Allows := by
  cases x with
  | store => exact non_empty_reads
  | least => exact @one_of_reads Severity _ _ (fun a => by cases a <;> decide) (by decide)
  | scalars => exact list_reads non_empty_reads
  | policy => exact @one_of_reads Policy _ _ (fun a => by cases a <;> decide) (by decide)
  | format => exact @one_of_reads Format _ _ (fun a => by cases a <;> decide) (by decide)
  | log =>
    refine @one_of_reads Log.Threshold _ _ (fun a => ?_) (by decide)
    cases a with
    | least level => cases level <;> decide
    | silent => decide

theorem allows_iff {x : Setting} {v : Json} :
    x.Allows v ↔ ∃ a, x.decoder (some v) = .accepted a := by
  simp only [x.decoder_reads.reads]
  exact ⟨fun h => (x.decoder_reads.written v h).imp fun _ ha => ⟨h, ha⟩, fun ⟨_, h, _⟩ => h⟩

theorem name_injective : name.Injective := by
  intro x y h
  have hn : (all.map name).Nodup := by decide
  exact List.inj_on_of_nodup_map hn (mem_all x) (mem_all y) h

theorem mem_names {n : String} : n ∈ Settings.names ↔ ∃ x : Setting, x.name = n := by
  have hall : Settings.names = all.map name := rfl
  rw [hall, List.mem_map]
  exact exists_congr fun x => and_iff_right (mem_all x)

/-- Settings are given by a value for each of them. -/
theorem exists_settings (value : (x : Setting) → x.Value) : ∃ s, ∀ x, of s x = value x := by
  refine ⟨⟨value store, value least, value scalars, value policy, value format, value log⟩, ?_⟩
  intro x
  cases x <;> rfl

theorem of_injective {s s' : Settings} (h : ∀ x, of s x = of s' x) : s = s' := by
  obtain ⟨store, least, scalars, policy, format, log⟩ := s
  obtain rfl : store = s'.store := h .store
  obtain rfl : least = s'.least := h .least
  obtain rfl : scalars = s'.customScalars := h .scalars
  obtain rfl : policy = s'.policy := h .policy
  obtain rfl : format = s'.format := h .format
  obtain rfl : log = s'.logThreshold := h .log
  rfl

end Setting

/-- What one source says of the settings. -/
abbrev Layer := Setting → Option Json

namespace Layer

/-- One source over another. What the upper one leaves open is for the lower one to say. -/
def atop (upper lower : Layer) : Layer :=
  fun x => (upper x).or (lower x)

/-- Whatever is said may be said. -/
def Allowed (l : Layer) : Prop :=
  ∀ x, ∀ v ∈ l x, x.Allows v

def ofMembers (members : List (String × Json)) : Layer :=
  fun x => members.lookup x.name

/-- A variable that is not set, or empty, says nothing. -/
def ofEnvironment (env : Settings.Environment) : Layer :=
  fun x => (x.variableName?.bind (Settings.valueOf env)).map x.ofText

/-- What the words of a command say of the settings. There are none for two of them. -/
def ofFlags (store least policy format : Option String) : Layer
  | .store => store.map .string
  | .least => least.map .string
  | .scalars => none
  | .policy => policy.map .string
  | .format => format.map .string
  | .log => none

def ofSettings (s : Settings) : Layer :=
  fun x => some (x.toJson (x.of s))

/-- What is said of some settings, as members of an object. -/
def members (l : Layer) (xs : List Setting) : List (String × Json) :=
  written (xs.map fun x => (x.name, l x))

theorem members_names (l : Layer) (xs : List Setting) :
    ((l.members xs).map Prod.fst).Sublist (xs.map Setting.name) := by
  have h := written_names (xs.map fun x => (x.name, l x))
  rwa [List.map_map] at h

/-- Over settings nothing is left open. -/
theorem atop_settings (l lower : Layer) (s : Settings) :
    (l.atop (ofSettings s)).atop lower = l.atop (ofSettings s) :=
  funext fun _ => Option.or_assoc

theorem Allowed.atop {upper lower : Layer} (hu : upper.Allowed) (hl : lower.Allowed) :
    (upper.atop lower).Allowed := by
  intro x v hv
  rcases Option.or_eq_some_iff.mp hv with hv | ⟨-, hv⟩
  · exact hu x v hv
  · exact hl x v hv

theorem of_settings_injective {s s' : Settings} (h : ofSettings s = ofSettings s') : s = s' :=
  Setting.of_injective fun x => x.decoder_reads.injective (Option.some.inj (congrFun h x))

/-- Where every setting is given a value that it may have, settings have these values. -/
theorem Allowed.exists_settings {l : Layer} (h : l.Allowed) (hl : ∀ x, l x ≠ none) :
    ∃ s, l = ofSettings s := by
  have hx (x : Setting) : ∃ a, l x = some (x.toJson a) := by
    obtain ⟨v, hv⟩ := Option.ne_none_iff_exists'.mp (hl x)
    obtain ⟨a, rfl⟩ := x.decoder_reads.written v (h x v hv)
    exact ⟨a, hv⟩
  choose value hvalue using hx
  obtain ⟨s, hs⟩ := Setting.exists_settings value
  exact ⟨s, funext fun x => by rw [hvalue x, ofSettings, hs x]⟩

end Layer

namespace Settings

/-- Every member is a setting. -/
def Known (members : List (String × Json)) : Prop :=
  ∀ m ∈ members, ∃ x : Setting, x.name = m.1

theorem only_known_iff {members : List (String × Json)} :
    onlyKnown members = .accepted () ↔ Known members := by
  have hknown : Known members
      ↔ (members.map Prod.fst).filter (fun n => !names.contains n) = [] := by
    simp [Known, Setting.mem_names]
  rw [hknown, onlyKnown]
  split
  · rename_i he
    exact iff_of_true rfl he
  · rename_i he
    exact iff_of_false (fun h => nomatch h) he

/-- What is read for one setting. -/
def read (members : List (String × Json)) (x : Setting) : Checked x.Value :=
  member members x.name (orElse (x.of standard) x.decoder)

theorem decode_parts (members : List (String × Json)) :
    decode members = (fun store least scalars policy format log _ =>
        (⟨store, least, scalars, policy, format, log⟩ : Settings))
      <$> read members .store <*> read members .least <*> read members .scalars
      <*> read members .policy <*> read members .format <*> read members .log
      <*> onlyKnown members :=
  rfl

theorem decode_accepted {members : List (String × Json)} {s : Settings} :
    decode members = .accepted s ↔
      onlyKnown members = .accepted () ∧ ∀ x, read members x = .accepted (x.of s) := by
  constructor
  · intro h
    -- the parts of the check are taken off from the last one on
    obtain ⟨_, _, h1, hknown, rfl⟩ := seq_accepted h
    obtain ⟨_, log, h2, hlog, rfl⟩ := seq_accepted h1
    obtain ⟨_, format, h3, hformat, rfl⟩ := seq_accepted h2
    obtain ⟨_, policy, h4, hpolicy, rfl⟩ := seq_accepted h3
    obtain ⟨_, scalars, h5, hscalars, rfl⟩ := seq_accepted h4
    obtain ⟨_, least, h6, hleast, rfl⟩ := seq_accepted h5
    obtain ⟨store, hstore, rfl⟩ := map_accepted h6
    refine ⟨hknown, fun x => ?_⟩
    cases x with
    | store => exact hstore
    | least => exact hleast
    | scalars => exact hscalars
    | policy => exact hpolicy
    | format => exact hformat
    | log => exact hlog
  · rintro ⟨hknown, hx⟩
    rw [decode_parts, hx, hx, hx, hx, hx, hx, hknown]
    rfl

theorem read_iff {members : List (String × Json)} {x : Setting} {a : x.Value} :
    read members x = .accepted a ↔ (∀ v ∈ Layer.ofMembers members x, x.Allows v) ∧
      ((Layer.ofMembers members).atop (.ofSettings standard)) x = some (x.toJson a) := by
  rw [read, member_accepted_iff, or_else_reads x.decoder_reads, Layer.atop, Layer.ofMembers]
  cases members.lookup x.name <;> simp [Layer.ofSettings]

/-- An object is read as settings if nothing else is in it and every value is one that its setting
may have. They have these values, and the standard ones where there is none. -/
theorem decode_iff {members : List (String × Json)} {s : Settings} :
    decode members = .accepted s ↔ Known members ∧ (Layer.ofMembers members).Allowed ∧
      (Layer.ofMembers members).atop (.ofSettings standard) = .ofSettings s := by
  rw [decode_accepted, only_known_iff, forall_congr' fun _ => read_iff, forall_and, funext_iff]
  rfl

theorem of_members_members (s : Settings) : Layer.ofMembers s.members = .ofSettings s := by
  funext x
  cases x <;> rfl

/-- The standard settings pass the check that the values of users have to pass. -/
theorem standard_allowed : (Layer.ofSettings standard).Allowed := by
  have hdecode : decode standard.members = .accepted standard := rfl
  rw [← of_members_members]
  exact (decode_iff.mp hdecode).2.1

theorem known_put {name : String} (hn : ∃ x : Setting, x.name = name) (value : Json)
    (members : List (String × Json)) : Known (Json.put name value members) ↔ Known members := by
  induction members with
  | nil => simp [Known, Json.put, hn]
  | cons m members ih =>
    obtain ⟨n, v⟩ := m
    unfold Known at ih ⊢
    rw [Json.put, List.forall_mem_cons]
    split
    · rename_i he
      rw [List.forall_mem_cons, he]
    · rw [List.forall_mem_cons, ih]

theorem known_overlay {upper : List (String × Json)} (h : Known upper)
    (members : List (String × Json)) : Known (overlay upper members) ↔ Known members := by
  induction upper generalizing members with
  | nil => exact Iff.rfl
  | cons m upper ih =>
    obtain ⟨hm, h⟩ := List.forall_mem_cons.mp h
    exact (ih h _).trans (known_put hm m.2 members)

theorem known_members (l : Layer) (xs : List Setting) : Known (l.members xs) := by
  intro m hm
  obtain ⟨x, -, hx⟩ := List.mem_map.mp ((l.members_names xs).subset (List.mem_map_of_mem hm))
  exact ⟨x, hx⟩

theorem overlay_setting (x : Setting) (o : Option Json) (members : List (String × Json))
    (y : Setting) : Layer.ofMembers (overlay (Json.member? x.name o) members) y
      = if y = x then o.or (Layer.ofMembers members y) else Layer.ofMembers members y := by
  cases o with
  | none => simp [overlay, Json.member?]
  | some v =>
    refine (Json.lookup_put x.name v members y.name).trans ?_
    exact if_congr Setting.name_injective.eq_iff rfl rfl

/-- To set members over those of an object is to put one source over another. -/
theorem overlay_members {l : Layer} {xs : List Setting} (hl : ∀ x, x ∉ xs → l x = none)
    (members : List (String × Json)) :
    Layer.ofMembers (overlay (l.members xs) members) = l.atop (.ofMembers members) := by
  have h (y : Setting) : Layer.ofMembers (overlay (l.members xs) members) y
      = if y ∈ xs then (l y).or (Layer.ofMembers members y) else Layer.ofMembers members y := by
    -- each step sets over what is set before it, so the members have to vary
    clear hl
    induction xs generalizing members with
    | nil => rfl
    | cons x xs ih =>
      have happend : overlay (l.members (x :: xs)) members
          = overlay (l.members xs) (overlay (Json.member? x.name (l x)) members) :=
        List.foldl_append
      rw [happend, ih, overlay_setting]
      by_cases hy : y = x
      · subst hy
        simp [← Option.or_assoc]
      · simp [hy]
  funext y
  rw [h y, Layer.atop]
  split
  · rfl
  · rename_i hy
    rw [hl y hy, Option.none_or]

/-- An object under another source is read as settings if nothing else is in it and every value that
is not set over is one that its setting may have. -/
theorem decode_overlay {l : Layer} {xs : List Setting} (hl : ∀ x, x ∉ xs → l x = none)
    {members : List (String × Json)} {s : Settings} :
    decode (overlay (l.members xs) members) = .accepted s ↔
      Known members ∧ (l.atop (.ofMembers members)).Allowed ∧
        (l.atop (.ofMembers members)).atop (.ofSettings standard) = .ofSettings s := by
  rw [decode_iff, known_overlay (known_members l xs), overlay_members hl]

theorem overlay_fresh {upper members : List (String × Json)}
    (h : ((members ++ upper).map Prod.fst).Nodup) : overlay upper members = members ++ upper := by
  induction upper generalizing members with
  | nil => exact (List.append_nil members).symm
  | cons m upper ih =>
    have hn : m.1 ∉ members.map Prod.fst := by
      intro hm
      rw [List.map_append, List.nodup_append] at h
      exact h.2.2 _ hm _ List.mem_cons_self rfl
    have hput : overlay (m :: upper) members = overlay upper (members ++ [m]) :=
      congrArg (overlay upper) (Json.put_fresh m.2 hn)
    rw [hput, ih (by rwa [List.append_assoc]), List.append_assoc, List.singleton_append]

/-- To set members over those of no object leaves just them. -/
theorem overlay_nothing (l : Layer) {xs : List Setting} (hxs : xs.Nodup) :
    overlay (l.members xs) [] = l.members xs :=
  overlay_fresh ((hxs.map Setting.name_injective).sublist (l.members_names xs))

theorem flags_unsaid (store least policy format : Option String) (x : Setting)
    (hx : x ∉ [Setting.store, .least, .policy, .format]) :
    Layer.ofFlags store least policy format x = none := by
  cases x <;> simp_all [Layer.ofFlags]

theorem checked_ok_iff {source : String} {members : List (String × Json)} {s : Settings} :
    checked source members = .ok s ↔ decode members = .accepted s := by
  unfold checked
  split
  · rename_i hd
    rw [hd, Except.ok.injEq, Checked.accepted.injEq]
  · rename_i hd
    rw [hd]
    exact iff_of_false (fun h => nomatch h) (fun h => nomatch h)

theorem with_flags_iff {base s : Settings} {store least policy format : Option String} :
    base.withFlags store least policy format = .ok s ↔
      ((Layer.ofFlags store least policy format).atop (.ofSettings base)).Allowed ∧
        (Layer.ofFlags store least policy format).atop (.ofSettings base) = .ofSettings s := by
  have hflags : Json.member? storeName (store.map .string)
      ++ Json.member? severityName (least.map .string)
      ++ Json.member? policyName (policy.map .string)
      ++ Json.member? formatName (format.map .string)
      = (Layer.ofFlags store least policy format).members [.store, .least, .policy, .format] := by
    simp only [Layer.members, List.map_cons, List.map_nil, Validation.written, List.append_assoc,
      List.append_nil]
    rfl
  have hknown : Known base.members := by
    rw [← only_known_iff]
    rfl
  rw [withFlags, checked_ok_iff, hflags, decode_overlay (flags_unsaid _ _ _ _),
    of_members_members, Layer.atop_settings]
  exact and_iff_right hknown

end Settings

end SchemaHistory
