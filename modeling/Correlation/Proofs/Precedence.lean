import Correlation.Proofs.Printing
import Correlation.Proofs.RoundTrip
/-!
# Where settings come from

A run looks for settings in one place, which the options and the variables decide, and what is there decides the depth
limit unless the options do (`run_of_candidate`). So two runs with the same options do the same if they look in the same
place, and find the same there and where the image is.

The place is the documented one if every variable that is set is set to text, and every directory has a name. A variable
that is set to anything else is passed over, and a directory without a name is the working directory, so that settings
decide to which no variable leads (`passed_over_variable_decides`).
-/

namespace Correlation

open Attempt

namespace Settings

/-! ## The limit that a document states -/

/-- The depth limit that is written in a document, if one is. -/
def stated? (text : String) : Option Nat := do
  match (← Toml.parse text).lookup "decoder" with
  | some (.table fields) => depthLimit? (← fields.lookup "max_depth")
  | some (.array items) => depthLimit? (← items.head?)
  | _ => none

/-- An entry that is wanted and there is read, and a missing one has its default. -/
theorem entry_eq_some {α : Type} {name : String} {default a : α} {read : Toml.Value → Option α}
    {entries : List (String × Toml.Value)} (h : entry name default read entries = some a) :
    (entries.lookup name = none ∧ a = default) ∨ ∃ v, entries.lookup name = some v ∧ read v = some a := by
  unfold entry at h
  split at h
  case isFalse => cases h
  case isTrue =>
    cases hfound : entries.lookup name with
    | none =>
      rw [hfound] at h
      exact .inl ⟨rfl, (Option.some.inj h).symm⟩
    | some v =>
      rw [hfound] at h
      exact .inr ⟨v, rfl, h⟩

/-- A document that states no limit leaves the default. -/
theorem depthLimit_of_ofText? {text : String} {s : Settings} (h : ofText? text = some s) :
    s.depthLimit = (stated? text).getD Wire.defaultDepthLimit := by
  obtain ⟨entries, hparse, hentry⟩ := Option.bind_eq_some_iff.1 h
  have hstated : stated? text = match entries.lookup "decoder" with
      | some (.table fields) => (fields.lookup "max_depth").bind depthLimit?
      | some (.array items) => items.head?.bind depthLimit?
      | _ => none := by
    rw [stated?, hparse]
    rfl
  rw [hstated]
  -- The limit is an entry of a table, or the first item of an array; a date or time has no place for one.
  rcases entry_eq_some hentry with ⟨hmissing, rfl⟩ | ⟨v, hfound, hread⟩
  · rw [hmissing]
    rfl
  · rw [hfound]
    cases v with
    | table fields =>
      obtain ⟨limit, hlimit, rfl⟩ := Option.map_eq_some_iff.1 hread
      rcases entry_eq_some hlimit with ⟨hmissing, rfl⟩ | ⟨v, hfound, hread⟩
      · simp [hmissing]
      · simp [hfound, hread]
    | array items =>
      cases items with
      | nil =>
        cases hread
        rfl
      | cons first rest =>
        obtain ⟨limit, hlimit, rfl⟩ := Option.map_eq_some_iff.1 hread
        simp [hlimit]
    | moment written =>
      cases hread
      rfl
    | integer | hollow | real | boolean | text => cases hread

end Settings

namespace Dump

variable {world : World} {o : Options} {path : String}

/-! ## The place -/

/-- Where settings are in a directory for settings. -/
def settingsIn (directory : String) : String :=
  Path.join (Path.join directory "ndrexpr") "config.toml"

/-- The path at which a run looks for settings: the one that the options name, else the one that a variable points to,
else that in the directory which another variable gives, else that in the home directory, else one in the working
directory. Only variables that are set to text count. -/
inductive Candidate (env : Environment) (o : Options) : String → Prop
  | named {path : String} : o.config = some path → Candidate env o path
  | pointedTo {path : String} : o.config = none → env.text? "NDREXPR_CONFIG_PATH" = some path → Candidate env o path
  | user {directory : String} : o.config = none → env.text? "NDREXPR_CONFIG_PATH" = none →
    env.text? "XDG_CONFIG_HOME" = some directory → Candidate env o (settingsIn directory)
  | home {home : String} : o.config = none → env.text? "NDREXPR_CONFIG_PATH" = none →
    env.text? "XDG_CONFIG_HOME" = none → env.text? "HOME" = some home →
    Candidate env o (settingsIn (Path.join home ".config"))
  | working : o.config = none → env.text? "NDREXPR_CONFIG_PATH" = none → env.text? "XDG_CONFIG_HOME" = none →
    env.text? "HOME" = none → Candidate env o "ndrexpr/config.toml"

/-- There is exactly one candidate. -/
theorem candidate_iff {env : Environment} :
    Candidate env o path ↔ path = o.config.getD (defaultSettingsPath env) := by
  have hworking : settingsIn "" = "ndrexpr/config.toml" := by decide
  constructor
  · intro h
    cases h with
    | named hconfig => simp [hconfig]
    | pointedTo hconfig hpath => simp [hconfig, defaultSettingsPath, hpath]
    | user hconfig hpath hdirectory => simp [hconfig, defaultSettingsPath, hpath, hdirectory, settingsIn]
    | home hconfig hpath hdirectory hhome =>
      simp [hconfig, defaultSettingsPath, hpath, hdirectory, hhome, settingsIn]
    | working hconfig hpath hdirectory hhome =>
      rw [← hworking]
      simp [hconfig, defaultSettingsPath, hpath, hdirectory, hhome, settingsIn]
  · rintro rfl
    match hconfig : o.config with
    | some path => exact .named hconfig
    | none =>
      match hpath : env.text? "NDREXPR_CONFIG_PATH" with
      | some path => simpa [defaultSettingsPath, hpath] using Candidate.pointedTo hconfig hpath
      | none =>
        match hdirectory : env.text? "XDG_CONFIG_HOME" with
        | some directory =>
          simpa [defaultSettingsPath, hpath, hdirectory, settingsIn] using Candidate.user hconfig hpath hdirectory
        | none =>
          match hhome : env.text? "HOME" with
          | some home =>
            simpa [defaultSettingsPath, hpath, hdirectory, hhome, settingsIn] using
              Candidate.home hconfig hpath hdirectory hhome
          | none =>
            have hcandidate := Candidate.working hconfig hpath hdirectory hhome
            rw [← hworking] at hcandidate
            simpa [defaultSettingsPath, hpath, hdirectory, hhome, settingsIn] using hcandidate

/-- The path that the documentation gives, which goes by the variables that are set. It gives none where the first of
them that is set is set to no text, or is a directory without a name. -/
inductive Documented (env : Environment) (o : Options) : String → Prop
  | named {path : String} : o.config = some path → Documented env o path
  | pointedTo {path : String} : o.config = none → env.text? "NDREXPR_CONFIG_PATH" = some path → Documented env o path
  | user {directory : String} : o.config = none → env "NDREXPR_CONFIG_PATH" = none →
    env.text? "XDG_CONFIG_HOME" = some directory → directory ≠ "" → Documented env o (settingsIn directory)
  | home {home : String} : o.config = none → env "NDREXPR_CONFIG_PATH" = none → env "XDG_CONFIG_HOME" = none →
    env.text? "HOME" = some home → home ≠ "" → Documented env o (settingsIn (Path.join home ".config"))
  | working : o.config = none → env "NDREXPR_CONFIG_PATH" = none → env "XDG_CONFIG_HOME" = none →
    env "HOME" = none → Documented env o "ndrexpr/config.toml"

theorem Documented.candidate {env : Environment} (h : Documented env o path) : Candidate env o path := by
  cases h with
  | named hconfig => exact .named hconfig
  | pointedTo hconfig hpath => exact .pointedTo hconfig hpath
  | user hconfig hpath hdirectory => exact .user hconfig (env.text?_of_unset hpath) hdirectory
  | home hconfig hpath hdirectory hhome =>
    exact .home hconfig (env.text?_of_unset hpath) (env.text?_of_unset hdirectory) hhome
  | working hconfig hpath hdirectory hhome =>
    exact .working hconfig (env.text?_of_unset hpath) (env.text?_of_unset hdirectory) (env.text?_of_unset hhome)

/-! ## What is found there -/

/-- Settings that the options name are used whatever there is, others if there is a file. -/
def Uses (o : Options) (found : Found) : Prop :=
  o.config.isSome ∨ found.isFile

/-- What comes of the settings at a path: a failure, or the depth limit that they state, if they state one. -/
inductive Configures (o : Options) (path : String) (found : Found) : Except Fault (Option Nat) → Prop
  | unreadable {fault : ReadFault} : Uses o found → found.text = .error fault →
    Configures o path found (.error (.unreadable path fault))
  | malformed {text : String} : Uses o found → found.text = .ok text → Settings.ofText? text = none →
    Configures o path found (.error (.badSettings path))
  | loaded {text : String} {s : Settings} : Uses o found → found.text = .ok text → Settings.ofText? text = some s →
    Configures o path found (.ok (Settings.stated? text))
  | unused : ¬ Uses o found → Configures o path found (.ok none)

theorem exists_configures (o : Options) (path : String) (found : Found) : ∃ r, Configures o path found r := by
  by_cases huses : Uses o found
  · match htext : found.text with
    | .error fault => exact ⟨_, .unreadable huses htext⟩
    | .ok text =>
      match hsettings : Settings.ofText? text with
      | none => exact ⟨_, .malformed huses htext hsettings⟩
      | some s => exact ⟨_, .loaded huses htext hsettings⟩
  · exact ⟨_, .unused huses⟩

/-- What a run reports of its settings. -/
def settingsNotices (o : Options) (path : String) (found : Found) : Array Notice :=
  if o.config.isSome then #[]
  else if found.isFile then #[.readingSettings path]
  else #[.noSettings path]

theorem loadSettings_eq (world : World) (path : String) (t : Transcript) :
    loadSettings world path t =
      (match (world.find path).text with
        | .error fault => .error (.unreadable path fault)
        | .ok text => parseSettings path text, t) := by
  rw [loadSettings, Task.read]
  cases (world.find path).text with
  | error fault => rfl
  | ok text =>
    show (ofExcept (parseSettings path text) : Task Settings) t = (parseSettings path text, t)
    cases parseSettings path text <;> rfl

theorem settings_of_uses (hpath : path = o.config.getD (defaultSettingsPath world.env))
    (huses : Uses o (world.find path)) :
    settings world o.config {} = loadSettings world path ⟨"", settingsNotices o path (world.find path)⟩ := by
  unfold settings settingsNotices
  cases hconfig : o.config with
  | some named =>
    obtain rfl : path = named := by simpa [hconfig] using hpath
    rfl
  | none =>
    obtain rfl : path = defaultSettingsPath world.env := by simpa [hconfig] using hpath
    have hfile : (world.find (defaultSettingsPath world.env)).isFile = true := by simpa [Uses, hconfig] using huses
    simp only [hfile]
    rfl

theorem settings_of_not_uses (hpath : path = o.config.getD (defaultSettingsPath world.env))
    (huses : ¬ Uses o (world.find path)) :
    settings world o.config {} = (.ok {}, ⟨"", settingsNotices o path (world.find path)⟩) := by
  unfold settings settingsNotices
  cases hconfig : o.config with
  | some named => exact absurd (.inl (by simp [hconfig])) huses
  | none =>
    obtain rfl : path = defaultSettingsPath world.env := by simpa [hconfig] using hpath
    have hfile : (world.find (defaultSettingsPath world.env)).isFile = false := by simpa [Uses, hconfig] using huses
    simp only [hfile]
    rfl

/-- The settings that a run goes by are those at its candidate path. -/
theorem settings_of_configures {r : Except Fault (Option Nat)}
    (hpath : path = o.config.getD (defaultSettingsPath world.env)) (h : Configures o path (world.find path) r) :
    ∃ result, settings world o.config {} = (result, ⟨"", settingsNotices o path (world.find path)⟩) ∧
      result.map (·.depthLimit) = r.map (·.getD Wire.defaultDepthLimit) := by
  cases h with
  | unreadable huses htext => exact ⟨_, by rw [settings_of_uses hpath huses, loadSettings_eq, htext], rfl⟩
  | malformed huses htext hsettings =>
    refine ⟨_, by rw [settings_of_uses hpath huses, loadSettings_eq, htext], ?_⟩
    simp only [parseSettings, hsettings]
    rfl
  | loaded huses htext hsettings =>
    refine ⟨_, by rw [settings_of_uses hpath huses, loadSettings_eq, htext], ?_⟩
    simp only [parseSettings, hsettings, Except.map, Settings.depthLimit_of_ofText? hsettings]
  | unused huses => exact ⟨_, settings_of_not_uses hpath huses, rfl⟩

/-! ## The rest of a run -/

/-- What a task leaves. -/
def Report.of : Except Fault Unit × Transcript → Report
  | (.ok (), t) => ⟨t.output, t.notices, none⟩
  | (.error fault, t) => ⟨t.output, t.notices, some fault⟩

/-- What a run leaves that has its settings: it reads the image and prints what is asked for, under a depth limit. -/
def decoding (o : Options) (found : Found) (limit : Nat) (notices : Array Notice) : Report :=
  match found.bytes with
  | .error fault => ⟨"", notices, some (.unreadable o.input fault)⟩
  | .ok bytes =>
    .of (printImage o ⟨o.base, bytes⟩ limit ⟨"", notices.push (.loaded bytes.size o.input o.base)⟩)

theorem run_eq (world : World) (o : Options) : run world o = .of (program world o {}) := by
  unfold run
  obtain ⟨result, t⟩ := program world o {}
  cases result <;> rfl

theorem run_of_error {f : Fault} (hpath : path = o.config.getD (defaultSettingsPath world.env))
    (h : Configures o path (world.find path) (.error f)) :
    run world o = ⟨"", settingsNotices o path (world.find path), some f⟩ := by
  obtain ⟨result, hsettings, hresult⟩ := settings_of_configures hpath h
  cases result with
  | ok s => cases hresult
  | error g =>
    obtain rfl := Except.error.inj hresult
    rw [run_eq, program, bind_of_error hsettings]
    rfl

theorem run_of_ok {stated : Option Nat} (hpath : path = o.config.getD (defaultSettingsPath world.env))
    (h : Configures o path (world.find path) (.ok stated)) :
    run world o = decoding o (world.find o.input) (o.depthLimit.getD (stated.getD Wire.defaultDepthLimit))
      (settingsNotices o path (world.find path)) := by
  obtain ⟨result, hsettings, hresult⟩ := settings_of_configures hpath h
  cases result with
  | error g => cases hresult
  | ok s =>
    have hlimit : s.depthLimit = stated.getD Wire.defaultDepthLimit := Except.ok.inj hresult
    rw [run_eq, program, bind_of_ok hsettings, decoding, hlimit, Task.read]
    cases (world.find o.input).bytes with
    | error fault => rfl
    | ok bytes => rfl

/-! ## What is shown of an image -/

/-- What is printed of an image, and how that ends: the expression at an address, or the slots of a table. The limit is
that of the decoding of each. -/
inductive Shows (o : Options) (image : Image) (limit : Nat) : String → Option Fault → Prop
  | tree {address : Nat} {e : Expr} : o.address = some address →
    (Wire.decode image limit ⟨address, #[], #[]⟩).1 = .ok e →
    Shows o image limit (Numeral.hex address ++ ":\n" ++ e.render) none
  | refused {address : Nat} {f : Failure} : o.address = some address →
    (Wire.decode image limit ⟨address, #[], #[]⟩).1 = .error f →
    Shows o image limit "" (some (.undecodable f))
  | slots {base : Nat} {first last : Int} {es : List Expr} {stop : Option Failure} : o.address = none →
    o.table = some base → selectedSlots o = (first, last) →
    SlotTable.Resolves image ⟨some base, o.buffer⟩ limit first (last - first).toNat es stop →
    Shows o image limit (blocks first es) (stop.map .undecodable)
  | nothing : o.address = none → o.table = none → Shows o image limit "" (some .nothingSelected)

theorem shows_printSlots {image : Image} {limit base : Nat} {first last : Int} {t : Transcript} (ht : t.output = "")
    (haddress : o.address = none) (htable : o.table = some base) (hselected : selectedSlots o = (first, last)) :
    Shows o image limit
      (Report.of (printSlots image ⟨some base, o.buffer⟩ limit first (last - first).toNat t)).output
      (Report.of (printSlots image ⟨some base, o.buffer⟩ limit first (last - first).toNat t)).fault := by
  obtain ⟨es, stop, hes⟩ := SlotTable.exists_resolves image ⟨some base, o.buffer⟩ limit first (last - first).toNat
  obtain ⟨notices, hrun⟩ := printSlots_of_resolves hes t
  rw [hrun, ht, String.empty_append]
  cases stop with
  | none => exact .slots haddress htable hselected hes
  | some f => exact .slots haddress htable hselected hes

theorem shows_printImage (o : Options) (image : Image) (limit : Nat) {t : Transcript} (ht : t.output = "") :
    Shows o image limit (Report.of (printImage o image limit t)).output
      (Report.of (printImage o image limit t)).fault := by
  unfold printImage
  match haddress : o.address, htable : o.table with
  | some address, _ =>
    obtain ⟨notices, hrun⟩ := decode_apply address (Wire.decode image limit) t
    cases hdecode : (Wire.decode image limit ⟨address, #[], #[]⟩).1 with
    | ok e =>
      rw [hdecode] at hrun
      simp only [bind_of_ok hrun]
      show Shows o image limit (t.output ++ (Numeral.hex address ++ ":\n" ++ e.render)) none
      rw [ht, String.empty_append]
      exact .tree haddress hdecode
    | error f =>
      rw [hdecode] at hrun
      simp only [bind_of_error hrun]
      show Shows o image limit t.output (some (.undecodable f))
      rw [ht]
      exact .refused haddress hdecode
  | none, none =>
    show Shows o image limit t.output (some .nothingSelected)
    rw [ht]
    exact .nothing haddress htable
  | none, some base =>
    obtain ⟨⟨first, last⟩, hselected⟩ : ∃ range, selectedSlots o = range := ⟨_, rfl⟩
    simp only [hselected]
    -- Without a buffer the log says so first, which leaves the output alone.
    cases o.buffer.isNone with
    | true => exact shows_printSlots (t := ⟨t.output, t.notices.push .noBuffer⟩) ht haddress htable hselected
    | false => exact shows_printSlots ht haddress htable hselected

/-- A run that has its settings and its image shows what is decoded under the limit. -/
theorem shows_decoding (o : Options) {found : Found} {bytes : Array UInt8} (hbytes : found.bytes = .ok bytes)
    (limit : Nat) (notices : Array Notice) :
    Shows o ⟨o.base, bytes⟩ limit (decoding o found limit notices).output (decoding o found limit notices).fault := by
  have hdecoding : decoding o found limit notices =
      .of (printImage o ⟨o.base, bytes⟩ limit ⟨"", notices.push (.loaded bytes.size o.input o.base)⟩) := by
    rw [decoding, hbytes]
  rw [hdecoding]
  exact shows_printImage o ⟨o.base, bytes⟩ limit rfl

/-! ## Two runs -/

theorem run_eq_of_error {world' : World} {f : Fault} (hpath : path = o.config.getD (defaultSettingsPath world.env))
    (hpath' : path = o.config.getD (defaultSettingsPath world'.env)) (hfound : world'.find path = world.find path)
    (h : Configures o path (world.find path) (.error f)) : run world' o = run world o := by
  rw [run_of_error hpath h, ← hfound]
  rw [← hfound] at h
  exact run_of_error hpath' h

theorem run_eq_of_same {world' : World} (hpath : path = o.config.getD (defaultSettingsPath world.env))
    (hpath' : path = o.config.getD (defaultSettingsPath world'.env)) (hfound : world'.find path = world.find path)
    (himage : world'.find o.input = world.find o.input) : run world' o = run world o := by
  obtain ⟨r, h⟩ := exists_configures o path (world.find path)
  cases r with
  | error f => exact run_eq_of_error hpath hpath' hfound h
  | ok stated =>
    rw [run_of_ok hpath h, ← hfound, ← himage]
    rw [← hfound] at h
    exact run_of_ok hpath' h

/-! ## Main theorem -/

/-- There is exactly one path at which a run looks for settings, and it is the documented one if there is one. If what
is there is used and cannot be read, or is not settings, the run fails with nothing printed, whatever the image is;
otherwise it decodes under the limit of the options, else under the one that is stated there, else under 128. Another
run with the same options leaves the same if it looks at the same path and finds the same there and, in case it gets so
far, where the image is. -/
theorem run_of_candidate (world : World) (o : Options) :
    ∃ path, (∀ p, Candidate world.env o p ↔ p = path) ∧ (∀ p, Documented world.env o p → p = path) ∧
      (∃ r, Configures o path (world.find path) r) ∧
      (∀ f, Configures o path (world.find path) (.error f) →
        run world o = ⟨"", settingsNotices o path (world.find path), some f⟩) ∧
      (∀ stated, Configures o path (world.find path) (.ok stated) →
        run world o = decoding o (world.find o.input) (o.depthLimit.getD (stated.getD 128))
          (settingsNotices o path (world.find path)) ∧
        ∀ bytes, (world.find o.input).bytes = .ok bytes →
          Shows o ⟨o.base, bytes⟩ (o.depthLimit.getD (stated.getD 128)) (run world o).output (run world o).fault) ∧
      ∀ world', Candidate world'.env o path → world'.find path = world.find path →
        (∀ f, Configures o path (world.find path) (.error f) → run world' o = run world o) ∧
        (world'.find o.input = world.find o.input → run world' o = run world o) := by
  obtain ⟨path, hpath⟩ : ∃ path, path = o.config.getD (defaultSettingsPath world.env) := ⟨_, rfl⟩
  refine ⟨path, ?_, ?_, exists_configures .., fun f => run_of_error hpath, ?_, ?_⟩
  · intro p
    rw [candidate_iff, hpath]
  · intro p hp
    rw [hpath]
    exact candidate_iff.1 hp.candidate
  · intro stated hstated
    have hrun := run_of_ok hpath hstated
    refine ⟨hrun, ?_⟩
    intro bytes hbytes
    rw [hrun]
    exact shows_decoding o hbytes _ _
  · intro world' hcandidate hfound
    have hpath' := candidate_iff.1 hcandidate
    exact ⟨fun f hf => run_eq_of_error hpath hpath' hfound hf, run_eq_of_same hpath hpath' hfound⟩

/-- The expression of the image, under whatever limit the settings give. -/
def sampleOptions : Options :=
  { input := "image", address := some 2 }

/-- Settings that refuse every operator with arguments. -/
def shallowSettings : Found :=
  .file "[decoder]\nmax_depth = 0\n".toUTF8.data

theorem configures_shallowSettings (o : Options) (path : String) :
    Configures o path shallowSettings (.ok (some 0)) := by
  have hstated : Settings.stated? "[decoder]\nmax_depth = 0\n" = some 0 := by decide +kernel
  have hloaded : Settings.ofText? "[decoder]\nmax_depth = 0\n" = some ⟨0⟩ := by decide +kernel
  have htext : shallowSettings.text = .ok "[decoder]\nmax_depth = 0\n" := by decide +kernel
  rw [← hstated]
  exact .loaded (.inr rfl) htext hloaded

/-- An image, something at a place for settings, and the same at every other path. -/
def settingsWorld (env : Environment) (place : String) (settings elsewhere : Found) : World where
  env
  find path := if path = "image" then .file Wire.sampleBytes else if path = place then settings else elsewhere

/-- A user with a directory for settings, and maybe a home directory. -/
def userEnvironment (home : Option String) : Environment
  | "XDG_CONFIG_HOME" => some "settings".toUTF8.data
  | "HOME" => home.map (·.toUTF8.data)
  | _ => none

theorem documented_userEnvironment (home : Option String) :
    Documented (userEnvironment home) sampleOptions "settings/ndrexpr/config.toml" := by
  have hpath : "settings/ndrexpr/config.toml" = settingsIn "settings" := by decide
  rw [hpath]
  exact .user rfl rfl ((userEnvironment home).text?_of_text rfl) (by decide)

/-- The user's limit refuses the sample, and so it does with a home directory and with settings in all other places. A
file in that place that cannot be read ends the run. -/
theorem run_of_candidate_sample :
    Documented (userEnvironment none) sampleOptions "settings/ndrexpr/config.toml" ∧
      (run (settingsWorld (userEnvironment none) "settings/ndrexpr/config.toml" shallowSettings .nothing)
        sampleOptions).fault = some (.undecodable (.tooDeep 0)) ∧
      (∀ (home text : String),
        run (settingsWorld (userEnvironment (some home)) "settings/ndrexpr/config.toml" shallowSettings
            (.file text.toUTF8.data)) sampleOptions =
          run (settingsWorld (userEnvironment none) "settings/ndrexpr/config.toml" shallowSettings .nothing)
            sampleOptions) ∧
      ∀ fault : ReadFault,
        (run (settingsWorld (userEnvironment none) "settings/ndrexpr/config.toml" ⟨true, .error fault⟩ .nothing)
          sampleOptions).fault = some (.unreadable "settings/ndrexpr/config.toml" fault) := by
  obtain ⟨path, -, hplace, -, -, hruns, hsame⟩ :=
    run_of_candidate (settingsWorld (userEnvironment none) "settings/ndrexpr/config.toml" shallowSettings .nothing)
      sampleOptions
  obtain rfl := hplace _ (documented_userEnvironment none)
  refine ⟨documented_userEnvironment none, ?_, ?_, ?_⟩
  · -- The image is named first, so that the run can be evaluated.
    have himage : (settingsWorld (userEnvironment none) "settings/ndrexpr/config.toml" shallowSettings .nothing).find
        sampleOptions.input = .file Wire.sampleBytes := rfl
    rw [(hruns _ (configures_shallowSettings _ _)).1, himage]
    decide +kernel
  · intro home text
    exact (hsame (settingsWorld (userEnvironment (some home)) "settings/ndrexpr/config.toml" shallowSettings
      (.file text.toUTF8.data)) (documented_userEnvironment (some home)).candidate rfl).2 rfl
  · intro fault
    obtain ⟨path, -, hplace, -, hfails, -, -⟩ :=
      run_of_candidate (settingsWorld (userEnvironment none) "settings/ndrexpr/config.toml" ⟨true, .error fault⟩ .nothing)
        sampleOptions
    obtain rfl := hplace _ (documented_userEnvironment none)
    have hrefused : Configures sampleOptions "settings/ndrexpr/config.toml" ⟨true, .error fault⟩
        (.error (.unreadable "settings/ndrexpr/config.toml" fault)) := .unreadable (.inr rfl) rfl
    exact congrArg Report.fault (hfails _ hrefused)

/-- Whether there are settings at a place decides whether the sample is decoded. -/
def Decides (env : Environment) (place : String) : Prop :=
  (run (settingsWorld env place shallowSettings .nothing) sampleOptions).fault = some (.undecodable (.tooDeep 0)) ∧
    (run (settingsWorld env place .nothing .nothing) sampleOptions).fault = none

/-- A path whose e with an accent is written in one byte, which is no UTF-8. -/
def latinPath : Array UInt8 :=
  "/etc/caf".toUTF8.data ++ #[0xe9] ++ ".toml".toUTF8.data

/-- A variable points to settings at that path, and there is a directory for settings. -/
def pointingEnvironment : Environment
  | "NDREXPR_CONFIG_PATH" => some latinPath
  | "XDG_CONFIG_HOME" => some "settings".toUTF8.data
  | _ => none

/-- The directory for settings is set, but has no name. -/
def namelessEnvironment : Environment
  | "XDG_CONFIG_HOME" => some #[]
  | "HOME" => some "home".toUTF8.data
  | _ => none

/-- A variable that is set does not always keep settings in other places out: where one points to a path that is no
text, those in the user's directory decide, and where that directory has no name, those in the working directory. -/
theorem passed_over_variable_decides :
    sampleOptions.config = none ∧
      (pointingEnvironment "NDREXPR_CONFIG_PATH").isSome ∧
      Decides pointingEnvironment "settings/ndrexpr/config.toml" ∧
      (namelessEnvironment "XDG_CONFIG_HOME").isSome ∧ (namelessEnvironment "HOME").isSome ∧
      Decides namelessEnvironment "ndrexpr/config.toml" := by
  refine ⟨rfl, rfl, ⟨?_, ?_⟩, rfl, rfl, ⟨?_, ?_⟩⟩
  · decide +kernel
  · decide +kernel
  · decide +kernel
  · decide +kernel

end Dump

end Correlation
