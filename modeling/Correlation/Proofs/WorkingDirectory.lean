import Correlation.Proofs.Precedence
/-!
# Settings in the working directory

Where no variable and no option leads to settings, a run still looks at one place, in the working directory. If no file
lies there, the run does the same as if there were nothing but the image. If one does, the run shows the same only if
the file states settings under which the image is decoded as it is without them (`run_without_variables`). So a file
that nothing leads to can change what is decoded (`stray_settings_decide`).
-/

namespace Correlation

open Attempt

namespace Dump

/-! ## What a run shows -/

/-- What is printed and how the run ends, without the log. -/
def Report.outcome (r : Report) : String × Option Fault :=
  (r.output, r.fault)

theorem outcome_of_eq {x y : Except Fault Unit × Transcript} (hresult : x.1 = y.1)
    (houtput : x.2.output = y.2.output) : (Report.of x).outcome = (Report.of y).outcome := by
  obtain ⟨result, t⟩ := x
  obtain ⟨_, t'⟩ := y
  obtain rfl := hresult
  cases result <;> simp_all [Report.of, Report.outcome]

theorem fault_of_eq_some_iff {x : Except Fault Unit × Transcript} {f : Fault} :
    (Report.of x).fault = some f ↔ x.1 = .error f := by
  obtain ⟨result, t⟩ := x
  cases result <;> simp [Report.of]

namespace Task

variable {α β : Type}

/-- A part of a run that does without the log and has no files to read: what it gives and prints depends on nothing
that was noted before, and it fails only because nothing is selected or because something cannot be decoded. -/
structure Plain (task : Task α) : Prop where
  same : ∀ s t : Transcript, s.output = t.output →
    (task s).1 = (task t).1 ∧ (task s).2.output = (task t).2.output
  ends : ∀ (t : Transcript) (f : Fault), (task t).1 = .error f →
    f = .nothingSelected ∨ ∃ failure, f = .undecodable failure

theorem plain_pure (a : α) : Plain (pure a : Task α) :=
  ⟨fun _ _ houtput => ⟨rfl, houtput⟩, fun _ _ h => nomatch h⟩

theorem plain_nothingSelected : Plain (fail .nothingSelected : Task α) :=
  ⟨fun _ _ houtput => ⟨rfl, houtput⟩, fun _ _ h => .inl (Except.error.inj h).symm⟩

theorem plain_print (text : String) : Plain (print text) :=
  ⟨fun _ _ houtput => ⟨rfl, congrArg (· ++ text) houtput⟩, fun _ _ h => nomatch h⟩

theorem plain_note (n : Notice) : Plain (note n) :=
  ⟨fun _ _ houtput => ⟨rfl, houtput⟩, fun _ _ h => nomatch h⟩

theorem plain_decode (address : Nat) (d : Decoder α) : Plain (decode address d) := by
  constructor
  · intro s t houtput
    exact ⟨rfl, houtput⟩
  · intro t f h
    replace h : (d ⟨address, #[], #[]⟩).1.mapError .undecodable = .error f := h
    cases hresult : (d ⟨address, #[], #[]⟩).1 with
    | ok a =>
      rw [hresult] at h
      cases h
    | error failure =>
      rw [hresult] at h
      exact .inr ⟨failure, (Except.error.inj h).symm⟩

theorem Plain.bind {x : Task α} {f : α → Task β} (hx : Plain x) (hf : ∀ a, Plain (f a)) : Plain (x >>= f) := by
  constructor
  · intro s t houtput
    obtain ⟨hresult, houtput⟩ := hx.same s t houtput
    rw [bind_apply, bind_apply]
    match hs : x s, ht : x t with
    | (.ok a, s'), (.ok b, t') =>
      rw [hs, ht] at hresult houtput
      obtain rfl : a = b := Except.ok.inj hresult
      exact (hf a).same s' t' houtput
    | (.error e, s'), (.error e', t') =>
      rw [hs, ht] at hresult houtput
      obtain rfl : e = e' := Except.error.inj hresult
      exact ⟨rfl, houtput⟩
    | (.ok _, _), (.error _, _) | (.error _, _), (.ok _, _) =>
      rw [hs, ht] at hresult
      cases hresult
  · intro t e h
    rw [bind_apply] at h
    match ht : x t with
    | (.ok a, t') =>
      rw [ht] at h
      exact (hf a).ends t' e h
    | (.error e', t') =>
      rw [ht] at h
      obtain rfl : e' = e := Except.error.inj h
      exact hx.ends t e' (by rw [ht])

end Task

theorem plain_printSlots (image : Image) (table : SlotTable) (limit : Nat) (index : Int) (count : Nat) :
    Task.Plain (printSlots image table limit index count) := by
  induction count generalizing index with
  | zero => exact Task.plain_pure ()
  | succ count ih =>
    refine (Task.plain_decode 0 _).bind fun e => ?_
    exact (Task.plain_print _).bind fun _ => ih (index + 1)

theorem plain_printImage (o : Options) (image : Image) (limit : Nat) : Task.Plain (printImage o image limit) := by
  unfold printImage
  split
  · exact (Task.plain_decode _ _).bind fun e => Task.plain_print _
  · exact Task.plain_nothingSelected
  · cases o.buffer.isNone with
    | true => exact (Task.plain_note _).bind fun _ => plain_printSlots ..
    | false => exact plain_printSlots ..

/-- What is shown of an image does not depend on the log. -/
theorem outcome_decoding (o : Options) (found : Found) (limit : Nat) (notices : Array Notice) :
    (decoding o found limit notices).outcome = (decoding o found limit #[]).outcome := by
  unfold decoding
  cases found.bytes with
  | error fault => rfl
  | ok bytes =>
    obtain ⟨hresult, houtput⟩ := (plain_printImage o ⟨o.base, bytes⟩ limit).same
      ⟨"", notices.push (.loaded bytes.size o.input o.base)⟩ ⟨"", #[].push (.loaded bytes.size o.input o.base)⟩ rfl
    exact outcome_of_eq hresult houtput

/-! ## Settings that are refused -/

/-- A decoding never ends as a run does whose settings are refused, unless those are the image. -/
theorem fault_decoding_ne {o : Options} {path : String} {found : Found} {f : Fault} (hpath : o.input ≠ path)
    (h : Configures o path found (.error f)) (image : Found) (limit : Nat) (notices : Array Notice) :
    (decoding o image limit notices).fault ≠ some f := by
  intro hfault
  have hrefused : (∃ fault, f = .unreadable path fault) ∨ f = .badSettings path := by
    cases h with
    | unreadable => exact .inl ⟨_, rfl⟩
    | malformed => exact .inr rfl
  unfold decoding at hfault
  match hbytes : image.bytes with
  | .error fault =>
    rw [hbytes] at hfault
    obtain rfl : Fault.unreadable o.input fault = f := Option.some.inj hfault
    rcases hrefused with ⟨_, hrefused⟩ | hrefused
    · exact hpath (Fault.unreadable.inj hrefused).1
    · cases hrefused
  | .ok bytes =>
    simp only [hbytes, fault_of_eq_some_iff] at hfault
    have hends := (plain_printImage o ⟨o.base, bytes⟩ limit).ends _ f hfault
    rcases hrefused with ⟨_, rfl⟩ | rfl <;> simp at hends

/-! ## The place in the working directory -/

/-- The place that is left to look at when nothing leads to settings. -/
def workingPath : String :=
  "ndrexpr/config.toml"

/-- No variable leads to settings. -/
def Unset (env : Environment) : Prop :=
  env "NDREXPR_CONFIG_PATH" = none ∧ env "XDG_CONFIG_HOME" = none ∧ env "HOME" = none

/-- What is left of a world when all its files but the one with the image are taken away: a path that still leads to a
file leads to the image, and did so before. -/
structure Bare (world : World) (image : String) (bare : World) : Prop where
  unset : Unset bare.env
  kept : bare.find image = world.find image
  only : ∀ path, (bare.find path).isFile → bare.find path = bare.find image ∧ world.find path = world.find image

/-- A world in which there is one thing, at one path. -/
def alone (path : String) (found : Found) : World where
  env _ := none
  find p := if p = path then found else .nothing

theorem bare_alone (world : World) (image : String) : Bare world image (alone image (world.find image)) where
  unset := ⟨rfl, rfl, rfl⟩
  kept := if_pos rfl
  only path hfile := by
    by_cases hpath : path = image
    · rw [hpath]
      exact ⟨rfl, rfl⟩
    · simp [alone, hpath, Found.nothing] at hfile

variable {world bare : World} {o : Options}

/-- A file that is left is the file that was there. -/
theorem Bare.find_eq {image path : String} (h : Bare world image bare) (hfile : (bare.find path).isFile) :
    bare.find path = world.find path := by
  obtain ⟨hfound, hfound'⟩ := h.only path hfile
  rw [hfound, h.kept, hfound']

theorem workingPath_eq (hunset : Unset world.env) (hconfig : o.config = none) :
    workingPath = o.config.getD (defaultSettingsPath world.env) :=
  candidate_iff.1 (Documented.working hconfig hunset.1 hunset.2.1 hunset.2.2).candidate

theorem configures_of_not_isFile {path : String} {found : Found} (hconfig : o.config = none)
    (hfile : ¬ found.isFile) : Configures o path found (.ok none) := by
  refine .unused ?_
  rintro (h | h)
  · simp [hconfig] at h
  · exact hfile h

/-- Where there is no file to look at, a run decodes under its own limit or the default. -/
theorem run_of_not_isFile (hunset : Unset world.env) (hconfig : o.config = none)
    (hfile : ¬ (world.find workingPath).isFile) :
    run world o = decoding o (world.find o.input) (o.depthLimit.getD 128) #[.noSettings workingPath] := by
  rw [run_of_ok (workingPath_eq hunset hconfig) (configures_of_not_isFile hconfig hfile)]
  simp [settingsNotices, hconfig, hfile, Wire.defaultDepthLimit]

/-- A run shows what a decoding under the defaults shows if the settings that it finds make no difference, and not if
they are refused. -/
theorem outcome_eq_iff (hunset : Unset world.env) (hconfig : o.config = none)
    (hinput : (world.find workingPath).isFile → o.input ≠ workingPath) :
    (run world o).outcome = (decoding o (world.find o.input) (o.depthLimit.getD 128) #[]).outcome ↔
      ∃ stated, Configures o workingPath (world.find workingPath) (.ok stated) ∧
        (decoding o (world.find o.input) (o.depthLimit.getD (stated.getD 128)) #[]).outcome =
          (decoding o (world.find o.input) (o.depthLimit.getD 128) #[]).outcome := by
  have hpath := workingPath_eq hunset hconfig
  constructor
  · intro hsame
    obtain ⟨r, hr⟩ := exists_configures o workingPath (world.find workingPath)
    cases r with
    | ok stated =>
      rw [run_of_ok hpath hr, outcome_decoding] at hsame
      exact ⟨stated, hr, hsame⟩
    | error f =>
      by_cases hfile : (world.find workingPath).isFile
      · rw [run_of_error hpath hr] at hsame
        have hfault : (decoding o (world.find o.input) (o.depthLimit.getD 128) #[]).fault = some f :=
          (congrArg Prod.snd hsame).symm
        exact absurd hfault (fault_decoding_ne (hinput hfile) hr _ _ _)
      · -- What is no file is not used, so it cannot be refused either.
        exact ⟨none, configures_of_not_isFile hconfig hfile, rfl⟩
  · rintro ⟨stated, hstated, hsame⟩
    rw [run_of_ok hpath hstated, outcome_decoding]
    exact hsame

/-! ## Main theorem -/

/-- Without variables and without an option for settings, a run decodes under the limit of its options or under 128,
and does the same when all files but the image are gone, unless there is a file at `ndrexpr/config.toml`. If that is
the image, it does the same as well. If it is another one, the run shows the same exactly if the file states settings
and under their limit the image is decoded as it is without them. -/
theorem run_without_variables (hunset : Unset world.env) (hconfig : o.config = none) (hbare : Bare world o.input bare) :
    (¬ (world.find workingPath).isFile →
      run world o = decoding o (world.find o.input) (o.depthLimit.getD 128) #[.noSettings workingPath] ∧
        run world o = run bare o) ∧
    ((bare.find workingPath).isFile → run world o = run bare o) ∧
    (¬ (bare.find workingPath).isFile →
      ((run world o).outcome = (run bare o).outcome ↔
        ∃ stated, Configures o workingPath (world.find workingPath) (.ok stated) ∧
          (decoding o (world.find o.input) (o.depthLimit.getD (stated.getD 128)) #[]).outcome =
            (decoding o (world.find o.input) (o.depthLimit.getD 128) #[]).outcome)) := by
  have hpath := workingPath_eq hunset hconfig
  have hpath' := workingPath_eq hbare.unset hconfig
  refine ⟨?_, ?_, ?_⟩
  · intro hfile
    have hgone : ¬ (bare.find workingPath).isFile := by
      intro hleft
      rw [hbare.find_eq hleft] at hleft
      exact hfile hleft
    refine ⟨run_of_not_isFile hunset hconfig hfile, ?_⟩
    rw [run_of_not_isFile hunset hconfig hfile, run_of_not_isFile hbare.unset hconfig hgone, hbare.kept]
  · intro hleft
    exact run_eq_of_same hpath' hpath (hbare.find_eq hleft).symm hbare.kept.symm
  · intro hgone
    have hinput : (world.find workingPath).isFile → o.input ≠ workingPath := by
      rintro hfile himage
      rw [← himage, hbare.kept, himage] at hgone
      exact hgone hfile
    rw [run_of_not_isFile hbare.unset hconfig hgone, hbare.kept, outcome_decoding o _ _ #[.noSettings workingPath]]
    exact outcome_eq_iff hunset hconfig hinput

/-- An image in the working directory, something at the place for settings there, and the same at every other path. -/
def workingWorld (settings elsewhere : Found) : World where
  env _ := none
  find path := if path = "image" then .file Wire.sampleBytes else if path = workingPath then settings else elsewhere

theorem unset_workingWorld (settings elsewhere : Found) : Unset (workingWorld settings elsewhere).env :=
  ⟨rfl, rfl, rfl⟩

theorem bare_workingWorld (settings elsewhere : Found) :
    Bare (workingWorld settings elsewhere) "image" (alone "image" (.file Wire.sampleBytes)) :=
  bare_alone (workingWorld settings elsewhere) "image"

/-- Files in all other places change nothing, and settings in that place nothing if the options give the limit. -/
theorem run_without_variables_sample :
    Unset (workingWorld .directory shallowSettings).env ∧ sampleOptions.config = none ∧
      Bare (workingWorld .directory shallowSettings) "image" (alone "image" (.file Wire.sampleBytes)) ∧
      run (workingWorld .directory shallowSettings) sampleOptions =
        run (alone "image" (.file Wire.sampleBytes)) sampleOptions ∧
      (run (workingWorld shallowSettings .nothing) { sampleOptions with depthLimit := some 2 }).outcome =
        (run (alone "image" (.file Wire.sampleBytes)) { sampleOptions with depthLimit := some 2 }).outcome := by
  have hdirectory : ¬ ((workingWorld .directory shallowSettings).find workingPath).isFile := by decide
  have hgone : ¬ ((alone "image" (.file Wire.sampleBytes)).find workingPath).isFile := by decide
  have hlimit : ∀ limit, ({ sampleOptions with depthLimit := some 2 } : Options).depthLimit.getD limit = 2 :=
    fun _ => rfl
  obtain ⟨hsame, -, -⟩ := run_without_variables (o := sampleOptions) (unset_workingWorld _ _) rfl
    (bare_workingWorld .directory shallowSettings)
  obtain ⟨-, -, hlimited⟩ := run_without_variables (o := { sampleOptions with depthLimit := some 2 })
    (unset_workingWorld _ _) rfl (bare_workingWorld shallowSettings .nothing)
  refine ⟨unset_workingWorld _ _, rfl, bare_workingWorld _ _, (hsame hdirectory).2, (hlimited hgone).2 ?_⟩
  refine ⟨some 0, configures_shallowSettings _ _, ?_⟩
  rw [hlimit, hlimit]

/-- Settings in the working directory, to which nothing leads, refuse an image that is decoded where there is nothing
else. -/
theorem stray_settings_decide :
    Unset (workingWorld shallowSettings .nothing).env ∧ sampleOptions.config = none ∧
      Bare (workingWorld shallowSettings .nothing) "image" (alone "image" (.file Wire.sampleBytes)) ∧
      (run (workingWorld shallowSettings .nothing) sampleOptions).fault = some (.undecodable (.tooDeep 0)) ∧
      (run (alone "image" (.file Wire.sampleBytes)) sampleOptions).fault = none := by
  refine ⟨unset_workingWorld _ _, rfl, bare_workingWorld _ _, ?_, ?_⟩
  · decide +kernel
  · decide +kernel

end Dump

end Correlation
