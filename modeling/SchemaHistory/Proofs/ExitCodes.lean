import SchemaHistory.CommandLine.Run
import SchemaHistory.Proofs.Layers
import SchemaHistory.Proofs.Settling
import SchemaHistory.Proofs.Thresholds

namespace SchemaHistory

namespace Settings

/-- The word for the least severity decides no other setting. -/
theorem with_flags_least {base s s' : Settings} {store least least' policy format : Option String}
    (h : base.withFlags store least policy format = .ok s)
    (h' : base.withFlags store least' policy format = .ok s') :
    s' = { s with least := s'.least } := by
  obtain ⟨-, he⟩ := with_flags_iff.mp h
  obtain ⟨-, he'⟩ := with_flags_iff.mp h'
  refine Setting.of_injective fun x => ?_
  have hx (hl : x ≠ .least) : x.of s' = x.of s := by
    have hflags : Layer.ofFlags store least' policy format x
        = Layer.ofFlags store least policy format x := by
      cases x with
      | least => exact absurd rfl hl
      | _ => rfl
    refine x.decoder_reads.injective (Option.some.inj ?_)
    calc some (x.toJson (x.of s'))
        = ((Layer.ofFlags store least' policy format).atop (.ofSettings base)) x :=
          (congrFun he' x).symm
      _ = ((Layer.ofFlags store least policy format).atop (.ofSettings base)) x :=
          congrArg (Option.or · _) hflags
      _ = some (x.toJson (x.of s)) := congrFun he x
  cases x with
  | least => rfl
  | _ => exact hx (by simp)

end Settings

/-- The changes of a model since the latest version of a key. Without a version there are none. -/
inductive Store.ChangesSince (s : Store) (key : String) (policy : Policy) (m : Model) :
    List Change → Prop where
  | first (h : (load key s).answer = .ok none) : ChangesSince s key policy m []
  | next {existing : Snapshot} {previous : Model}
      (h : (load key s).answer = .ok (some existing))
      (hb : Model.ofSchema existing.schema = .ok previous) :
      ChangesSince s key policy m (previous.changes policy m)

theorem Store.ChangesSince.unique {s : Store} {key : String} {policy : Policy} {m : Model}
    {a b : List Change} (ha : s.ChangesSince key policy m a) (hb : s.ChangesSince key policy m b) :
    a = b := by
  cases ha with
  | first h =>
    cases hb with
    | first _ => rfl
    | next h' _ => exact nomatch Except.ok.inj (h.symm.trans h')
  | next h hm =>
    cases hb with
    | first h' => exact nomatch Except.ok.inj (h.symm.trans h')
    | next h' hm' =>
      obtain rfl := Option.some.inj (Except.ok.inj (h.symm.trans h'))
      rw [Except.ok.inj (hm.symm.trans hm')]

namespace Registry

open SchemaHistory.Action

variable {r : Registry} {s : Store} {key : String} {document : Json}

/-- A check reports the changes since the latest version, as far as its threshold lets it. -/
theorem check_changes {report : Report Nat} (h : (r.check key document s).answer = .ok report) :
    ∃ current changes, ReadDocument.ofJson document = .ok current ∧
      s.ChangesSince key r.policy current.model changes ∧
      report.changes = Change.atLeast r.least changes := by
  unfold check at h
  obtain ⟨current, hr, h, _⟩ := still_result (still_lift _ s) h
  obtain ⟨found, hl, h, _⟩ := still_result (Store.still_load key s) h
  cases found with
  | none =>
    refine ⟨current, [], hr, .first hl, ?_⟩
    dsimp only at h
    split at h
    · obtain ⟨_, _, hp, _⟩ := filed_bind h
      rw [← Except.ok.inj hp]
      rfl
    · rw [← Except.ok.inj h]
      rfl
  | some existing =>
    obtain ⟨previous, hb, h, _⟩ := still_result (still_lift _ s) h
    refine ⟨current, _, hr, .next hl hb, ?_⟩
    dsimp only at h
    split at h
    · obtain ⟨_, _, h, _⟩ := filed_bind h
      obtain ⟨_, _, hp, _⟩ := filed_bind h
      rw [← Except.ok.inj hp]
      rfl
    · obtain ⟨_, _, hp, _⟩ := filed_bind h
      rw [← Except.ok.inj hp]
      rfl

end Registry

namespace CommandLine

open SchemaHistory.Action

/-- The store that a command works on. -/
def World.store (w : World) (s : Settings) : Store :=
  ⟨Path.resolve w.directory s.store, w.files.at? (Path.resolve w.directory s.store)⟩

namespace Invocation

variable {w : World} {i : Invocation} {s s' : Settings} {shown shown' : Shown}

/-- A command is carried out without a failure: its settings hold, it shows something, and that is
written to where the user wants it. -/
structure Completes (w : World) (i : Invocation) (s : Settings) (shown : Shown) : Prop where
  settings : i.settings w = .ok s
  answer : (i.command.perform w s (w.store s)).answer = .ok shown
  emitted : ∃ out, emit w i.output
    (w.files.replace (w.store s).path (i.command.perform w s (w.store s)).store.root)
    shown.text = .ok out
  unfailed : shown.failure = none

theorem Completes.exit_code (h : i.Completes w s shown) : (i.run w).exitCode = shown.exitCode := by
  obtain ⟨hs, ha, ⟨out, he⟩, hf⟩ := h
  unfold World.store at ha he
  simp only [run, hs, ha, he, hf]

/-- Where the settings of a command hold, a check has a severity that counts as failure. -/
theorem settings_ok (h : i.settings w = .ok s) :
    (∀ key document, i.command ≠ .check key document none) ∧ ∃ base,
      Settings.load w.files w.directory i.config w.environment = .ok base ∧
      base.withFlags i.store i.least i.policy i.format = .ok s := by
  unfold settings at h
  dsimp only at h
  split at h
  · contradiction
  · rename_i hc
    exact ⟨hc, bind_ok.mp h⟩

/-- The word for the least severity decides no other setting. -/
theorem settings_least {least : Option String} (h : i.settings w = .ok s)
    (h' : { i with least := least }.settings w = .ok s') : s' = { s with least := s'.least } := by
  obtain ⟨_, base, hbase, h⟩ := settings_ok h
  obtain ⟨_, base', hbase', h'⟩ := settings_ok h'
  obtain rfl := Except.ok.inj (hbase.symm.trans hbase')
  exact Settings.with_flags_least h h'

/-- Whether a check that completes counts as failed depends on the changes that reach both the
severity for that and the least one that is listed. -/
theorem Completes.check {key document : String} {failOn : Option Severity}
    (h : i.Completes w s shown) (hi : i.command = .check key document failOn) :
    ∃ f text current changes, failOn = some f ∧ w.document document = .ok text ∧
      ReadDocument.ofJson (.string text) = .ok current ∧
      (w.store s).ChangesSince key s.policy current.model changes ∧
      shown.exitCode
        = if ∃ c ∈ changes, f ≤ c.severity ∧ s.least ≤ c.severity then 1 else 0 := by
  have ha := h.answer
  rw [hi] at ha
  unfold Command.perform at ha
  dsimp only at ha
  obtain ⟨text, ht, ha, _⟩ := still_result (still_lift _ _) ha
  obtain ⟨report, hreport, ha, _⟩ := filed_bind ha
  obtain ⟨current, changes, hr, hc, hlisted⟩ := Registry.check_changes hreport
  cases hf : failOn with
  | none => exact absurd (hf ▸ hi) ((settings_ok h.settings).1 key document)
  | some f =>
    refine ⟨f, text, current, changes, rfl, ht, hr, hc, ?_⟩
    rw [← Except.ok.inj ha, hlisted, hf]
    refine if_congr ?_ rfl rfl
    simp only [Option.any_some, Change.atLeast, List.any_filter, List.any_eq_true,
      Bool.and_eq_true, decide_eq_true_eq]
    exact exists_congr fun c => and_congr_right fun _ => and_comm

end Invocation

/-- The words after the name of a command are sorted by the options of that command. -/
theorem parse_sorted {words : List String} (name : String) (rest : List String) (inner : Words)
    {own : List OptionSpec} {command : Words → Command}
    (ho : sortWords Invocation.programOptions none .empty words = .ok ⟨[], [name], rest.reverse⟩)
    (hc : Invocation.commands.lookup name = some (own, command))
    (hi : sortWords (own ++ Invocation.commonOptions) none .empty rest = .ok inner)
    (hr : ((own ++ Invocation.commonOptions).find? fun s => s.isRequired && !inner.has s.long)
      = none) (hu : inner.unknown = []) :
    Invocation.parse words = .ok ⟨command inner, none, inner.value? "store",
      inner.value? "min-severity", inner.value? "policy", inner.value? "format",
      inner.value? "output"⟩ := by
  unfold Invocation.parse
  rw [ho]
  simp only [bind, Except.bind, List.reverse_singleton, List.reverse_reverse, hc, hi, hr, hu]
  rfl

/-- A check that completes ends with code one just when a change since the latest version reaches
the severity that counts as failure and is not below the least one that is listed. Where that lies
no higher, it does not matter. -/
theorem check_exits {w : World} {words : List String} {i : Invocation} {s : Settings}
    {shown : Shown} {key document : String} {failOn : Option Severity}
    (hp : Invocation.parse words = .ok i) (hi : i.command = .check key document failOn)
    (h : i.Completes w s shown) :
    ∃ f text current changes, failOn = some f ∧ w.document document = .ok text ∧
      ReadDocument.ofJson (.string text) = .ok current ∧
      (w.store s).ChangesSince key s.policy current.model changes ∧
      ((run w words).exitCode = 1 ↔ ∃ c ∈ changes, f ≤ c.severity ∧ s.least ≤ c.severity) ∧
      (s.least ≤ f → ((run w words).exitCode = 1 ↔ ∃ c ∈ changes, f ≤ c.severity)) ∧
      ∀ words' least s' shown', Invocation.parse words' = .ok { i with least := least } →
        { i with least := least }.Completes w s' shown' → s.least ≤ f → s'.least ≤ f →
        (run w words').exitCode = (run w words).exitCode := by
  have hrun {words : List String} {i : Invocation} {s : Settings} {shown : Shown}
      (hp : Invocation.parse words = .ok i) (h : i.Completes w s shown) :
      (run w words).exitCode = shown.exitCode := by
    rw [run, hp, ← h.exit_code]
  obtain ⟨f, text, current, changes, hf, ht, hr, hc, hcode⟩ := h.check hi
  have hlow {s : Settings} (hle : s.least ≤ f) : (∃ c ∈ changes, f ≤ c.severity ∧
      s.least ≤ c.severity) ↔ ∃ c ∈ changes, f ≤ c.severity :=
    exists_congr fun c => and_congr_right fun _ =>
      and_iff_left_of_imp fun hc => Severity.le_chain hle hc
  have hone {p : Prop} [Decidable p] : (if p then 1 else 0) = 1 ↔ p := by
    split <;> simp_all
  refine ⟨f, text, current, changes, hf, ht, hr, hc, ?_, fun hle => ?_, ?_⟩
  · rw [hrun hp h, hcode, hone]
  · rw [hrun hp h, hcode, hone, hlow hle]
  · intro words' least s' shown' hp' h' hle hle'
    obtain ⟨f', text', current', changes', hf', ht', hr', hc', hcode'⟩ := h'.check hi
    have hs' := Invocation.settings_least h.settings h'.settings
    have hstore : w.store s' = w.store s := by rw [hs']; rfl
    have hpolicy : s'.policy = s.policy := by rw [hs']
    obtain rfl := Option.some.inj (hf.symm.trans hf')
    obtain rfl := Except.ok.inj (ht.symm.trans ht')
    obtain rfl := Except.ok.inj (hr.symm.trans hr')
    rw [hstore, hpolicy] at hc'
    obtain rfl := hc.unique hc'
    rw [hrun hp' h', hrun hp h, hcode, hcode', if_congr (hlow hle) rfl rfl,
      if_congr (hlow hle') rfl rfl]

/-- A directory with a store of one version, and with a newer document. -/
def desk (before : Snapshot) (after : Introspection.Schema) : World where
  files := .directory [("home", .directory
    [("new.json", .file (Json.object [("__schema", after.toJson)]).pretty),
      ("schemas", .directory [("shop", .directory
        [("latest.json", .file before.text), ("v1.json", .file before.text)])])])]
  directory := ["home"]
  environment := []
  now := ""
  palette := .plain

/-- A check of that document with two severities: one that counts as failure, and the least one
that is listed. -/
def deskCheck (failOn least : Severity) : Invocation :=
  ⟨.check "shop" "new.json" (some failOn), none, none, some least.text, none, none, none⟩

def deskWords (failOn least : Severity) : List String :=
  ["check", "-k", "shop", "-d", "new.json", "--fail-on", failOn.text, "--min-severity", least.text]

theorem parse_desk (failOn least : Severity) :
    Invocation.parse (deskWords failOn least) = .ok (deskCheck failOn least) := by
  have hinner : sortWords ([Invocation.keyOption true, Invocation.dataOption,
      .valued none "fail-on" "<severity>" .any false] ++ Invocation.commonOptions) none .empty
      (deskWords failOn least).tail = .ok ⟨[("min-severity", least.text),
        ("fail-on", failOn.text), ("data", "new.json"), ("key", "shop")], [], []⟩ := by
    simp [deskWords, sortWords, looksLikeOption, Invocation.commonOptions, Invocation.keyOption,
      Invocation.dataOption, OptionSpec.matches?, OptionSpec.short, OptionSpec.long, Words.give,
      Words.empty, OptionSpec.checkValue, OptionSpec.takesMany]
  have houter : sortWords Invocation.programOptions none .empty (deskWords failOn least)
      = .ok ⟨[], ["check"], (deskWords failOn least).tail.reverse⟩ := by
    cases failOn <;> cases least <;>
      simp [deskWords, Severity.text, sortWords, looksLikeOption, Invocation.programOptions,
        attached?, OptionSpec.matches?, OptionSpec.short, OptionSpec.long, Words.push, Words.empty]
  have hp := parse_sorted "check" _ _ houter rfl hinner rfl rfl
  rw [hp]
  cases failOn <;> rfl

theorem desk_completes {before : Snapshot} {after : Introspection.Schema}
    {previous current : Model} (hb : before.Readable)
    (hp : Model.ofSchema before.schema = .ok previous) (ha : after.Clear)
    (hc : Model.ofSchema after = .ok current) (failOn least : Severity) :
    (∃ shown, (deskCheck failOn least).Completes (desk before after)
      { Settings.standard with least := least } shown) ∧
      ((desk before after).store { Settings.standard with least := least }).ChangesSince "shop"
        .baseName current (previous.changes .baseName current) := by
  obtain ⟨y, hparsed, _, _, hy⟩ := Snapshot.reread hb hp
  generalize hs : { Settings.standard with least := least } = s
  have hsettings : (deskCheck failOn least).settings (desk before after) = .ok s := by
    rw [← hs]
    cases failOn <;> cases least <;> rfl
  have hv : ((desk before after).store s).Shows (Key.directoryName "shop")
      [("latest.json", .file before.text), ("v1.json", .file before.text)] := by
    have hstore : (desk before after).store s = (desk before after).store .standard := by
      rw [← hs]
      rfl
    rw [hstore]
    exact .inl rfl
  have hl := Store.load_held hv ⟨before.text, rfl, hparsed⟩
  obtain ⟨s', report, hreport⟩ := Registry.check_given (r := registry (desk before after) s)
    (ReadDocument.of_text ha hc) hl hy (.inl rfl)
  have hshown : ((deskCheck failOn least).command.perform (desk before after) s).Gives _ _ _ :=
    gives_bind ⟨rfl, rfl⟩ (gives_bind hreport (gives_pure _ _))
  exact ⟨⟨_, hsettings, hshown.2, ⟨_, rfl⟩, rfl⟩, .next hl.2 hy⟩

theorem desk_changes {before : Snapshot} {after : Introspection.Schema} {current : Model}
    {text : String} {read : ReadDocument} {changes found : List Change} {s : Settings}
    (ha : after.Clear) (hc : Model.ofSchema after = .ok current)
    (hfound : ((desk before after).store s).ChangesSince "shop" .baseName current found)
    (ht : (desk before after).document "new.json" = .ok text)
    (hr : ReadDocument.ofJson (.string text) = .ok read)
    (h : ((desk before after).store s).ChangesSince "shop" .baseName read.model changes) :
    changes = found := by
  have hdocument : (desk before after).document "new.json"
      = .ok (Json.object [("__schema", after.toJson)]).pretty := rfl
  obtain rfl := Except.ok.inj (hdocument.symm.trans ht)
  obtain rfl := Except.ok.inj ((ReadDocument.of_text ha hc).symm.trans hr)
  exact h.unique hfound

theorem desk_exits {before : Snapshot} {after : Introspection.Schema} {previous current : Model}
    (hb : before.Readable) (hp : Model.ofSchema before.schema = .ok previous) (ha : after.Clear)
    (hc : Model.ofSchema after = .ok current) (failOn least : Severity) :
    (run (desk before after) (deskWords failOn least)).exitCode
      = if ∃ c ∈ previous.changes .baseName current, failOn ≤ c.severity ∧ least ≤ c.severity
        then 1 else 0 := by
  obtain ⟨⟨shown, h⟩, hfound⟩ := desk_completes hb hp ha hc failOn least
  obtain ⟨f, text, read, changes, hf, ht, hr, hchanges, hcode⟩ := h.check rfl
  obtain rfl := Option.some.inj hf
  obtain rfl := desk_changes ha hc hfound ht hr hchanges
  rw [run, parse_desk, ← hcode, ← h.exit_code]

def parcelSnapshot : Snapshot :=
  ⟨"shop", Introspection.parcel, "", 1, none⟩

theorem parcel_readable : parcelSnapshot.Readable :=
  ⟨Binary64.numbered_one.integer, Binary64.numbered_one.positive,
    Introspection.object_clear _ _ _, by simp [parcelSnapshot]⟩

/-- A parcel with a critical change fails with both thresholds that lie no higher than major. -/
theorem check_exits_parcels :
    (run (desk parcelSnapshot Introspection.revisedParcel) (deskWords .major .minor)).exitCode = 1 ∧
    (run (desk parcelSnapshot Introspection.revisedParcel) (deskWords .major .major)).exitCode
      = 1 := by
  have hclear : Introspection.revisedParcel.Clear := Introspection.object_clear _ _ _
  obtain ⟨⟨shown, hminor⟩, hfound⟩ := desk_completes parcel_readable rfl hclear rfl .major .minor
  obtain ⟨⟨shown', hmajor⟩, _⟩ := desk_completes parcel_readable rfl hclear rfl .major .major
  obtain ⟨f, text, current, changes, hf, ht, hr, hc, _, hlow, hsame⟩ :=
    check_exits (parse_desk .major .minor) rfl hminor
  obtain rfl := Option.some.inj hf
  obtain rfl := desk_changes hclear rfl hfound ht hr hc
  have hone := (hlow (by decide)).mpr (by decide)
  exact ⟨hone, (hsame _ _ _ _ (parse_desk .major .major) hmajor (by decide) (by decide)).trans hone⟩

end CommandLine

namespace Introspection

/-- The parcel with one more field, which breaks nothing. -/
def labelledParcel : Schema :=
  .ofTypes "Query" [.object "Query" [("size", .last "SCALAR" (some "Int")),
    ("weight", .last "SCALAR" (some "Int")), ("label", .last "SCALAR" (some "String"))]]

end Introspection

namespace CommandLine

/-- Of two checks that differ in the least severity that is listed, and complete, the one that
lists less does not fail: the change that counts as failure is in the store and the document, and
not in its list. -/
theorem hidden_change_passes : ∃ i s shown current changes,
    Invocation.parse (deskWords .minor .critical) = .ok i ∧
    i.Completes (desk parcelSnapshot Introspection.labelledParcel) s shown ∧
    ((desk parcelSnapshot Introspection.labelledParcel).store s).ChangesSince "shop" s.policy
      current changes ∧
    (∃ c ∈ changes, Severity.minor ≤ c.severity) ∧
    (run (desk parcelSnapshot Introspection.labelledParcel) (deskWords .minor .critical)).exitCode
      = 0 ∧
    (run (desk parcelSnapshot Introspection.labelledParcel) (deskWords .minor .minor)).exitCode
      = 1 := by
  have hclear : Introspection.labelledParcel.Clear := Introspection.object_clear _ _ _
  have hexits := desk_exits parcel_readable rfl hclear rfl .minor
  obtain ⟨⟨shown, h⟩, hfound⟩ := desk_completes parcel_readable rfl hclear rfl .minor .critical
  exact ⟨_, _, shown, _, _, parse_desk .minor .critical, h, hfound, by decide,
    (hexits .critical).trans (by decide), (hexits .minor).trans (by decide)⟩

end CommandLine

end SchemaHistory
