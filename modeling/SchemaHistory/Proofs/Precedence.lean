import SchemaHistory.CommandLine.Run
import SchemaHistory.Proofs.Built
import SchemaHistory.Proofs.Layers

namespace SchemaHistory

namespace Settings

/-- The object in the settings file: that of a file with the text of an object, or one without
members where there is no file and the user names none. -/
inductive InFile (root : FileTree) (directory : Path) (file : Option String) :
    List (String × Json) → Prop where
  | read {text : String} {members : List (String × Json)}
    (hf : root.at? (Path.resolve directory (file.getD fileName)) = some (.file text))
    (hp : Json.parse? text = some (.object members)) : InFile root directory file members
  | absent (hf : root.at? (Path.resolve directory (file.getD fileName)) = none)
    (hn : file.getD "" = "") : InFile root directory file []

theorem of_environment_members (env : Environment) : ofEnvironment env
    = (Layer.ofEnvironment env).members [.store, .least, .policy, .log, .scalars] := by
  simp only [ofEnvironment, Layer.members, List.map_cons, List.map_nil, Validation.written,
    List.append_assoc, List.append_nil]
  rfl

theorem environment_unsaid (env : Environment) (x : Setting)
    (hx : x ∉ [Setting.store, .least, .policy, .log, .scalars]) :
    Layer.ofEnvironment env x = none := by
  cases x <;> simp_all [Layer.ofEnvironment, Setting.variableName?]

theorem checked_error {source : String} {members : List (String × Json)} {failure : Failure}
    (h : checked source members = .error failure) :
    ∃ issues, failure = .invalidConfig source issues := by
  unfold checked at h
  split at h
  · cases h
  · exact ⟨_, (Except.error.inj h).symm⟩

/-- Where a user finds what is wrong with the settings that do not come from a command. -/
def sourceName (root : FileTree) (path : Path) : String :=
  if (root.at? path).isSome then path.text else "environment"

section

variable {root : FileTree} {directory : Path} {file : Option String}
  {members : List (String × Json)} (h : InFile root directory file members)

include h

/-- What a file and the environment say is checked as one object. -/
theorem load_checked (env : Environment) : load root directory file env
    = checked (sourceName root (Path.resolve directory (file.getD fileName)))
      (overlay (ofEnvironment env) members) := by
  cases h with
  | read hf hp =>
    simp only [load, sourceName, hf, ofSources, readFile, hp, Option.isSome_some, if_true]
    rfl
  | absent hf hn =>
    have hnothing : overlay (ofEnvironment env) [] = ofEnvironment env := by
      rw [of_environment_members]
      exact overlay_nothing _ (by decide)
    rw [hnothing]
    cases file with
    | none =>
      simp only [load, sourceName, hf, ofSources]
      rfl
    | some name =>
      obtain rfl : name = "" := hn
      simp only [load, sourceName, hf, ofSources]
      rfl

theorem load_iff {env : Environment} {s : Settings} : load root directory file env = .ok s ↔
    Known members ∧ ((Layer.ofEnvironment env).atop (.ofMembers members)).Allowed ∧
      ((Layer.ofEnvironment env).atop (.ofMembers members)).atop (.ofSettings standard)
        = .ofSettings s := by
  rw [load_checked h, checked_ok_iff, of_environment_members,
    decode_overlay (environment_unsaid env)]

/-- A value in the file that its setting may not have, and that no variable hides, is found. -/
theorem load_wrong {env : Environment} {x : Setting} {v : Json}
    (he : Layer.ofEnvironment env x = none) (hx : Layer.ofMembers members x = some v)
    (hv : ¬x.Allows v) : ∃ issues, load root directory file env
      = .error (.invalidConfig (Path.resolve directory (file.getD fileName)).text issues) := by
  have hload := load_checked h env
  have hplace : sourceName root (Path.resolve directory (file.getD fileName))
      = (Path.resolve directory (file.getD fileName)).text := by
    cases h with
    | read hf _ => simp [sourceName, hf]
    | absent _ _ => cases hx
  rw [hplace] at hload
  cases hl : load root directory file env with
  | ok s =>
    obtain ⟨-, hallowed, -⟩ := (load_iff h).mp hl
    exact absurd (hallowed x v (by simp [Layer.atop, he, hx])) hv
  | error failure =>
    obtain ⟨issues, rfl⟩ := checked_error (hload.symm.trans hl)
    exact ⟨issues, rfl⟩

end

/-- Where all that is said may be said, there are settings. -/
theorem exists_settings {l : Layer} (h : l.Allowed) :
    ∃ s, l.atop (.ofSettings standard) = .ofSettings s :=
  (h.atop standard_allowed).exists_settings fun _ hx => nomatch (Option.or_eq_none_iff.mp hx).2

end Settings

namespace CommandLine

open Settings

namespace Invocation

/-- What the words of a command say of the settings. -/
def flags (i : Invocation) : Layer :=
  .ofFlags i.store i.least i.policy i.format

/-- What is said last of the settings, beside an object in a file. -/
def said (w : World) (i : Invocation) (file : List (String × Json)) : Layer :=
  i.flags.atop (((Layer.ofEnvironment w.environment).atop (.ofMembers file)).atop
    (.ofSettings standard))

variable {w : World} {i : Invocation}

theorem settings_loaded (hi : ∀ key document, i.command ≠ .check key document none) :
    i.settings w = (do
      let base ← load w.files w.directory i.config w.environment
      base.withFlags i.store i.least i.policy i.format) := by
  unfold settings
  split
  · rename_i hc
    exact absurd hc (hi _ _)
  · rfl

variable {file : List (String × Json)}

/-- The settings of a command are what is said last, if the file and the environment may say what
they do, and the words as well. -/
theorem settings_iff (hi : ∀ key document, i.command ≠ .check key document none)
    (hf : InFile w.files w.directory i.config file) {s : Settings} :
    i.settings w = .ok s ↔ Known file ∧
      ((Layer.ofEnvironment w.environment).atop (.ofMembers file)).Allowed ∧
      (i.said w file).Allowed ∧ i.said w file = .ofSettings s := by
  rw [settings_loaded hi, bind_ok]
  constructor
  · rintro ⟨base, hbase, hs⟩
    obtain ⟨hknown, hallowed, he⟩ := (load_iff hf).mp hbase
    rw [said, he]
    exact ⟨hknown, hallowed, with_flags_iff.mp hs⟩
  · rintro ⟨hknown, hallowed, hs⟩
    obtain ⟨base, he⟩ := exists_settings hallowed
    rw [said, he] at hs
    exact ⟨base, (load_iff hf).mpr ⟨hknown, hallowed, he⟩, with_flags_iff.mpr hs⟩

/-- Settings follow one order. They hold for a command just when the file under the environment says
what may be said, and all four sources do; each of them is then what the words give, or else the
environment, or else the file, or else the standard. What the file says of a setting that the
environment gives changes nothing; where only words give it, the file has to be right. A check
without a severity to fail on does not come to its settings. -/
theorem settings_precedence (hi : ∀ key document, i.command ≠ .check key document none)
    (hf : InFile w.files w.directory i.config file) :
    ((∃ s, i.settings w = .ok s) ↔ Known file ∧
      ((Layer.ofEnvironment w.environment).atop (.ofMembers file)).Allowed ∧
      (i.said w file).Allowed) ∧
    (∀ s, i.settings w = .ok s → ∀ x, i.said w file x = some (x.toJson (x.of s))) ∧
    (∀ (w' : World) (file' : List (String × Json)), w'.environment = w.environment →
      InFile w'.files w'.directory i.config file' → (Known file' ↔ Known file) →
      (∀ x, Layer.ofEnvironment w.environment x = none →
        Layer.ofMembers file' x = Layer.ofMembers file x) →
      ∀ s, i.settings w' = .ok s ↔ i.settings w = .ok s) ∧
    ∀ x v, Layer.ofEnvironment w.environment x = none → Layer.ofMembers file x = some v →
      ¬x.Allows v → ∃ issues, i.settings w = .error (.invalidConfig
        (Path.resolve w.directory (i.config.getD fileName)).text issues) := by
  refine ⟨?_, ?_, ?_, ?_⟩
  · simp only [settings_iff hi hf, exists_and_left]
    refine and_congr_right fun _ => and_congr_right fun _ => and_iff_left_of_imp fun hsaid => ?_
    refine hsaid.exists_settings fun x hx => ?_
    simp [said, Layer.atop, Layer.ofSettings] at hx
  · intro s hs x
    exact congrFun ((settings_iff hi hf).mp hs).2.2.2 x
  · intro w' file' henv hf' hknown hsame s
    have hover : (Layer.ofEnvironment w.environment).atop (.ofMembers file')
        = (Layer.ofEnvironment w.environment).atop (.ofMembers file) := by
      funext x
      unfold Layer.atop
      cases he : Layer.ofEnvironment w.environment x with
      | none => rw [hsame x he]
      | some v => rfl
    have hsaid : i.said w' file' = i.said w file := by
      rw [said, said, henv, hover]
    rw [settings_iff hi hf, settings_iff hi hf', hsaid, henv, hover, hknown]
  · intro x v he hx hv
    -- the words are not looked at, so what they say of the setting cannot help
    obtain ⟨issues, hl⟩ := load_wrong hf he hx hv
    refine ⟨issues, ?_⟩
    rw [settings_loaded hi, hl]
    rfl

end Invocation

/-- A settings file with a store that is no text. -/
def unreadableStore : List (String × Json) :=
  [("store", .bool true), ("minSeverity", .string "major"), ("format", .string "json")]

def study (env : Environment) : World where
  files := .directory [("home", .directory
    [(".schema-evolution.json", .file (Json.object unreadableStore).pretty)])]
  directory := ["home"]
  environment := env
  now := ""
  palette := .plain

def surroundings : Environment :=
  [("SCHEMA_EVOLUTION_STORE", "./shelf"), ("SCHEMA_EVOLUTION_CUSTOM_SCALARS", " Money, Email,,"),
    ("SCHEMA_EVOLUTION_POLICY", "")]

def listing (store : Option String) : Invocation :=
  ⟨.list, none, store, none, some "structural", some "markdown", none⟩

theorem study_file (env : Environment) (store : Option String) :
    InFile (study env).files (study env).directory (listing store).config unreadableStore := by
  have hclear : (Json.object unreadableStore).Distinct := by
    simp [unreadableStore, Json.Distinct, Json.DistinctMembers]
  have hpath : (listing store).config.getD fileName = fileName := rfl
  refine .read ?_ (Json.parse_pretty hclear)
  rw [hpath]
  rfl

theorem said_overridden : (listing none).said (study surroundings) unreadableStore
    = .ofSettings ⟨"./shelf", .major, ["Money", "Email"], .structural, .markdown, .standard⟩ := by
  funext x
  cases x <;> rfl

/-- A variable gives the store, which the file gives wrongly, and another one names of scalars.
Where only words give the store, the command fails. -/
theorem settings_precedence_overridden :
    (listing none).settings (study surroundings)
      = .ok ⟨"./shelf", .major, ["Money", "Email"], .structural, .markdown, .standard⟩ ∧
    ∃ issues, (listing (some "./shelf")).settings (study [])
      = .error (.invalidConfig "/home/.schema-evolution.json" issues) := by
  have hi (store : Option String) (key document : String) :
      (listing store).command ≠ .check key document none := nofun
  constructor
  · obtain ⟨hok, hvalues, -, -⟩ :=
      Invocation.settings_precedence (hi none) (study_file surroundings none)
    have hknown : Known unreadableStore := only_known_iff.mp rfl
    have hgiven :
        ((Layer.ofEnvironment surroundings).atop (.ofMembers unreadableStore)).Allowed := by
      intro x v hv
      cases x <;> cases hv <;> exact Setting.allows_iff.mpr ⟨_, rfl⟩
    have hall : ((listing none).said (study surroundings) unreadableStore).Allowed := by
      rw [said_overridden]
      rintro x v ⟨⟩
      cases x <;> exact Setting.allows_iff.mpr ⟨_, rfl⟩
    obtain ⟨s, hs⟩ := hok.mpr ⟨hknown, hgiven, hall⟩
    have hsaid : (listing none).said (study surroundings) unreadableStore = .ofSettings s :=
      funext (hvalues s hs)
    rw [hs, Layer.of_settings_injective (hsaid.symm.trans said_overridden)]
  · obtain ⟨-, -, -, hwrong⟩ :=
      Invocation.settings_precedence (hi _) (study_file [] (some "./shelf"))
    refine hwrong .store (.bool true) rfl rfl ?_
    rintro ⟨_, -, h⟩
    cases h

end CommandLine

end SchemaHistory
