import DeepFinder.Core.Basic
import DeepFinder.Index.Registry
import DeepFinder.Lib.Document
import DeepFinder.Lib.QuotedText
import DeepFinder.Lib.Run

/-!
# Edits of the configuration

`db add`, `install`, `config ignore add` and `config ignore remove` load a file, change what they
have loaded, and save it.  Loading takes a file that cannot be read for an empty one and passes over
the keys it does not know, which is right for a build or a scan; saving what was loaded then loses
the rest of the file.

`config_edits_iff` says which commands of a run lose nothing: those that save nothing, and those
that find the file absent, blank, or without a key beyond this version's and either readable or
holding nothing but what the command writes.  `own_files_keep` says that a run over files that
earlier commands wrote is of that kind.
-/

namespace DeepFinder

open ByteString Document QuotedText

/-! ## The two files -/

/-- A `DbRecord` as it is serialized. -/
def recordValue (r : DbRecord) : Value :=
  .table [("name", .text r.name), ("root", .text r.root), ("db_path", .text r.dbPath),
    ("content_dir", .text r.contentDir)]

/-- A `DbRecord` as it is deserialized: from its four keys, each once, or from the first four places
of a list. -/
def decodeRecord : Value → Option DbRecord
  | .table entries => do
      let name ← Value.textAt "name" entries
      let root ← Value.textAt "root" entries
      let dbPath ← Value.textAt "db_path" entries
      let contentDir ← Value.textAt "content_dir" entries
      return ⟨name, root, dbPath, contentDir⟩
  | .list (.text name :: .text root :: .text dbPath :: .text contentDir :: _) =>
      some ⟨name, root, dbPath, contentDir⟩
  | _ => none

def decodePattern : Value → Option String
  | .text pattern => some pattern
  | _ => none

/-- `RegistryFile`. -/
def registryFile : Schema DbRecord where
  field := "dbs"
  decode := decodeRecord
  encode := recordValue
  decode_encode _ := by simp [decodeRecord, recordValue, Value.textAt]

/-- `Settings`. -/
def settingsFile : Schema String where
  field := "ignore"
  decode := decodePattern
  encode := .text
  decode_encode _ := rfl

/-- A text format: the tree that a text stands for, if it is well formed, and the text that a list
of items is written as. -/
structure Format (α : Type) where
  parse : String → Option Value
  print : List α → String

/-- What is printed parses as what was to be written.  Nothing is asked of other texts, which the
format may read or refuse as it likes. -/
def Format.Documented {α : Type} (fmt : Format α) (sch : Schema α) : Prop :=
  ∀ items, fmt.parse (fmt.print items) = some (sch.write items)

/-- `dbs.toml` and `settings.json`; `none` for a file that is absent. -/
structure ConfigFiles where
  dbs : Option Bytes
  settings : Option Bytes

/-- What the operating system does with the file of a command: whether it can be read, and whether
the new one is written. -/
structure Io where
  readable : Bool
  saved : Bool

/-- `read_to_string`. -/
def readToString (readable : Bool) (content : Option Bytes) : Option String :=
  if readable then content.bind fromUtf8 else none

/-- What is read of a file, if it can be read at all. -/
def Format.readFile {α : Type} (fmt : Format α) (sch : Schema α) (readable : Bool)
    (content : Option Bytes) : Option (List α) :=
  ((readToString readable content).bind fmt.parse).bind sch.read

/-- `Registry::load`. -/
def Registry.load (toml : Format DbRecord) (readable : Bool) (content : Option Bytes) :
    List DbRecord :=
  (toml.readFile registryFile readable content).getD []

/-- `Settings::load`. -/
def Settings.load (json : Format String) (readable : Bool) (content : Option Bytes) :
    List String :=
  (json.readFile settingsFile readable content).getD []

/-- `Registry::save` and `Settings::save`: the file is replaced as a whole, or stays. -/
def Io.save {α : Type} (io : Io) (fmt : Format α) (items : List α) (content : Option Bytes) :
    Option Bytes :=
  if io.saved then some (utf8 (fmt.print items)) else content

/-- `Registry::upsert`: the first record of the name is replaced. -/
def Registry.upsert : List DbRecord → DbRecord → List DbRecord
  | [], rec => [rec]
  | r :: records, rec => if r.name = rec.name then rec :: records else r :: upsert records rec

/-- `Settings::add_ignore`. -/
def Settings.addIgnore (ignore : List String) (pattern : String) : List String :=
  if ignore.any (· == pattern) then ignore else ignore ++ [pattern]

/-- `Settings::remove_ignore`, with whether the pattern was present. -/
def Settings.removeIgnore (ignore : List String) (pattern : String) : List String × Bool :=
  let kept := ignore.filter (· ≠ pattern)
  (kept, kept.length ≠ ignore.length)

/-! ## The commands -/

/-- `Path::join`. -/
def joinPath (path name : String) : String :=
  if name.toList.head? = some '/' then name
  else if path = "" ∨ path.toList.getLast? = some '/' then path ++ name
  else path ++ "/" ++ name

/-- `data_dir`. -/
def dataDir (home : String) : String := joinPath home ".deep-find"

/-- The record that `cmd_db` and `cmd_install` register. -/
def dbRecord (home name root : String) : DbRecord :=
  let dbDir := joinPath (joinPath (dataDir home) "db") name
  ⟨name, root, joinPath dbDir "index.dfdb", joinPath dbDir "content"⟩

/-- A command, with what comes of the parts that are not about the two files: whether the index is
built, whether the executable is known and the agent installed.  `install` reads the registry twice,
and `checked` is whether it can the first time. -/
inductive Command where
  | dbAdd (name root : String) (built : Bool) (io : Io)
  | install (exe checked : Bool) (io : Io) (launched : Bool)
  | ignoreAdd (pattern : String) (io : Io)
  | ignoreRemove (pattern : String) (io : Io)

inductive Exit where
  | success
  | failure
  deriving DecidableEq, Repr

variable (toml : Format DbRecord) (json : Format String) (home : String)

/-- `DbAction::Add`; a registry that is not saved is a warning. -/
def cmdDbAdd (name root : String) (built : Bool) (io : Io) (files : ConfigFiles) :
    ConfigFiles × Exit :=
  if built then
    let records := Registry.load toml io.readable files.dbs
    let records := Registry.upsert records (dbRecord home name root)
    ({ files with dbs := io.save toml records files.dbs }, .success)
  else (files, .failure)

/-- `ensure_default_root`. -/
def ensureDefaultRoot (readable : Bool) (dbs : Option Bytes) : Option (String × String) :=
  if (Registry.load toml readable dbs).isEmpty then some ("home", home) else none

/-- `cmd_install`. -/
def cmdInstall (exe checked : Bool) (io : Io) (launched : Bool) (files : ConfigFiles) :
    ConfigFiles × Exit :=
  if exe then
    let exit := if launched then Exit.success else .failure
    match ensureDefaultRoot toml home checked files.dbs with
    | some (name, root) =>
        let records := Registry.load toml io.readable files.dbs
        let records := Registry.upsert records (dbRecord home name root)
        ({ files with dbs := io.save toml records files.dbs }, exit)
    | none => (files, exit)
  else (files, .failure)

/-- `IgnoreAction::Add`. -/
def cmdIgnoreAdd (pattern : String) (io : Io) (files : ConfigFiles) : ConfigFiles × Exit :=
  let ignore := Settings.addIgnore (Settings.load json io.readable files.settings) pattern
  ({ files with settings := io.save json ignore files.settings },
    if io.saved then .success else .failure)

/-- `IgnoreAction::Remove`. -/
def cmdIgnoreRemove (pattern : String) (io : Io) (files : ConfigFiles) : ConfigFiles × Exit :=
  match Settings.removeIgnore (Settings.load json io.readable files.settings) pattern with
  | (_, false) => (files, .failure)
  | (ignore, true) =>
      ({ files with settings := io.save json ignore files.settings },
        if io.saved then .success else .failure)

def Command.run : Command → ConfigFiles → ConfigFiles × Exit
  | .dbAdd name root built io => cmdDbAdd toml home name root built io
  | .install exe checked io launched => cmdInstall toml home exe checked io launched
  | .ignoreAdd pattern io => cmdIgnoreAdd json pattern io
  | .ignoreRemove pattern io => cmdIgnoreRemove json pattern io

def configStep (files : ConfigFiles) (cmd : Command) : Option ConfigFiles :=
  some (cmd.run toml json home files).1

/-! ## What a command is to leave alone -/

def blank (content : Bytes) : Bool := content.all fun b => b ∈ [0x20, 0x09, 0x0A, 0x0D]

/-- What a file holds: an absent or a blank one nothing, and one that is not well formed something
that cannot be told apart. -/
def held {α : Type} (fmt : Format α) (sch : Schema α) : Option Bytes → Option Contents
  | none => some Contents.empty
  | some content =>
      match (fromUtf8 content).bind fmt.parse with
      | some v => sch.contents v
      | none => if blank content then some Contents.empty else none

/-- A file stays as it is, byte for byte, or has all that it held, less what `rest` takes out. -/
def FileKept {α : Type} (fmt : Format α) (sch : Schema α) (rest : List Value → List Value)
    (old new : Option Bytes) : Prop :=
  new = old ∨ ∃ o n, held fmt sch old = some o ∧ held fmt sch new = some n ∧ sch.Kept rest o n

def named (name : String) (v : Value) : Bool := (decodeRecord v).any fun r => r.name = name

/-- The records other than the one that the command is to add or to replace. -/
def Command.otherRecords : Command → List Value → List Value
  | .dbAdd name _ _ _, records => records.eraseP (named name)
  | .install _ _ _ _, records => records.eraseP (named "home")
  | _, records => records

/-- The patterns other than the one that the command is to remove. -/
def Command.otherPatterns : Command → List Value → List Value
  | .ignoreRemove pattern _, patterns =>
      patterns.filter fun v => (decodePattern v).all fun p => p ≠ pattern
  | _, patterns => patterns

/-- The command loses nothing but what it was asked to add, replace or remove: every other key and
every other item that a file had, it still has. -/
def Command.LosesNothing (files : ConfigFiles) (cmd : Command) : Prop :=
  let files' := (cmd.run toml json home files).1
  FileKept toml registryFile cmd.otherRecords files.dbs files'.dbs ∧
    FileKept json settingsFile cmd.otherPatterns files.settings files'.settings

/-! ## When it does -/

/-- The record that a command registers, and whether it can read the registry before. -/
def Command.registers (dbs : Option Bytes) : Command → Option (DbRecord × Bool)
  | .dbAdd name root true ⟨readable, true⟩ => some (dbRecord home name root, readable)
  | .install true checked ⟨readable, true⟩ _ =>
      if (Registry.load toml checked dbs).isEmpty then some (dbRecord home "home" home, readable)
      else none
  | _ => none

/-- The pattern that a command adds or removes, and whether it can read the settings before. -/
def Command.reignores (settings : Option Bytes) : Command → Option (String × Bool)
  | .ignoreAdd pattern ⟨readable, true⟩ => some (pattern, readable)
  | .ignoreRemove pattern ⟨readable, true⟩ =>
      if pattern ∈ Settings.load json readable settings then some (pattern, readable) else none
  | _ => none

/-- What a command makes of the patterns it has loaded. -/
def Command.reignored : Command → List String → List String
  | .ignoreAdd pattern _, ignore => Settings.addIgnore ignore pattern
  | .ignoreRemove pattern _, ignore => (Settings.removeIgnore ignore pattern).1
  | _, ignore => ignore

def Command.Reads : Command → Prop
  | .dbAdd _ _ _ io => io.readable = true
  | .install _ _ io _ => io.readable = true
  | .ignoreAdd _ io => io.readable = true
  | .ignoreRemove _ io => io.readable = true

/-- A file that may be loaded, changed and saved: it has no key beyond this version's, on top or in
the items that stay, and it can be read, or has no such item but the one that is written. -/
def Amendable {α : Type} (fmt : Format α) (sch : Schema α) (rest : List Value → List Value)
    (readable : Bool) (written : α) (content : Option Bytes) : Prop :=
  ∃ o, held fmt sch content = some o ∧ (∀ e ∈ o.keys, e = (sch.field, .list [])) ∧
    ∀ v ∈ rest o.items, ∃ a, sch.Known v a ∧
      ((fmt.readFile sch readable content).isSome ∨ a = written)

/-- The command saves nothing, or saves an amendable file.  It is a condition on the file as the
command finds it, and on what it is asked to do. -/
def Command.Safe (files : ConfigFiles) (cmd : Command) : Prop :=
  (∀ rec readable, cmd.registers toml home files.dbs = some (rec, readable) →
    Amendable toml registryFile cmd.otherRecords readable rec files.dbs) ∧
  ∀ pattern readable, cmd.reignores json files.settings = some (pattern, readable) →
    Amendable json settingsFile cmd.otherPatterns readable pattern files.settings

section Files

variable {α : Type} {fmt : Format α} {sch : Schema α} {rest : List Value → List Value}

lemma held_print (hfmt : fmt.Documented sch) (items : List α) :
    held fmt sch (some (utf8 (fmt.print items))) =
      some ⟨[(sch.field, .list [])], items.map sch.encode⟩ := by
  simp [held, hfmt items]

/-- What is read of a file are the items that it holds. -/
lemma exists_held_of_readFile {readable : Bool} {content : Option Bytes} {items : List α}
    (h : fmt.readFile sch readable content = some items) :
    ∃ o, held fmt sch content = some o ∧ o.items.map sch.decode = items.map some := by
  obtain ⟨v, hparsed, hread⟩ := Option.bind_eq_some_iff.mp h
  obtain ⟨text, hgot, hparse⟩ := Option.bind_eq_some_iff.mp hparsed
  obtain ⟨-, hfile⟩ := Option.ite_none_right_eq_some.mp hgot
  obtain ⟨bytes, rfl, htext⟩ := Option.bind_eq_some_iff.mp hfile
  obtain ⟨o, ho, hitems⟩ := exists_contents_of_read sch hread
  refine ⟨o, ?_, hitems⟩
  have hv : (fromUtf8 bytes).bind fmt.parse = some v := by rw [htext, Option.bind_some, hparse]
  rw [held, hv]
  exact ho

/-- A file that is saved is kept when what it held before is kept in what is written. -/
lemma fileKept_print_iff (hfmt : fmt.Documented sch) (hrest : ∀ vs, rest vs ⊆ vs)
    {old : Option Bytes} {items : List α} :
    FileKept fmt sch rest old (some (utf8 (fmt.print items))) ↔
      ∃ o, held fmt sch old = some o ∧
        sch.Kept rest o ⟨[(sch.field, .list [])], items.map sch.encode⟩ := by
  constructor
  · rintro (rfl | ⟨o, n, ho, hn, hkept⟩)
    · exact ⟨_, held_print hfmt items, kept_refl sch hrest _⟩
    · obtain rfl := Option.some.inj ((held_print hfmt items).symm.trans hn)
      exact ⟨o, ho, hkept⟩
  · rintro ⟨o, ho, hkept⟩
    exact .inr ⟨o, _, ho, held_print hfmt items, hkept⟩

/-- A file that is loaded, changed and saved is kept exactly when it is amendable. -/
lemma fileKept_edit_iff (hfmt : fmt.Documented sch) {edit : List α → List α}
    (hspares : sch.Spares rest edit) (hrest : ∀ vs, rest vs ⊆ vs) {readable : Bool} {written : α}
    {old : Option Bytes}
    (hedit : edit [] = [written] ∨ (fmt.readFile sch readable old).isSome = true) :
    FileKept fmt sch rest old
        (some (utf8 (fmt.print (edit ((fmt.readFile sch readable old).getD []))))) ↔
      Amendable fmt sch rest readable written old := by
  rw [fileKept_print_iff hfmt hrest]
  refine exists_congr fun o => and_congr_right fun ho => ?_
  have hgot : ∀ items, fmt.readFile sch readable old = some items →
      o.items.map sch.decode = items.map some := by
    intro items hread
    obtain ⟨o', ho', hitems⟩ := exists_held_of_readFile hread
    rwa [Option.some.inj (ho.symm.trans ho')]
  rw [kept_edit_iff hspares hgot]
  rcases hedit with hnil | hsome
  · simp [hnil]
  · simp [hsome]

end Files

/-! ## The edits of this program -/

lemma named_of_decode {v : Value} {r : DbRecord} (h : registryFile.decode v = some r)
    (name : String) : named name v = decide (r.name = name) := by
  have hdecode : decodeRecord v = some r := h
  simp [named, hdecode]

/-- Replacing the first record of a name leaves the others. -/
lemma spares_upsert (rec : DbRecord) :
    registryFile.Spares (fun vs => vs.eraseP (named rec.name))
      (fun records => Registry.upsert records rec) := by
  intro vs records hvs v hv
  induction vs generalizing records with
  | nil => exact absurd hv (by simp)
  | cons w vs ih =>
      cases records with
      | nil => exact absurd hvs (by simp)
      | cons r records =>
          obtain ⟨hw, hrest⟩ := List.cons.inj hvs
          have hname := named_of_decode hw rec.name
          by_cases hr : r.name = rec.name
          · -- the record found is the one taken out, and all that follow stay
            have hmem : v ∈ vs := by simpa [hname, hr] using hv
            obtain ⟨a, ha, hdec⟩ := exists_decode_of_map hrest hmem
            exact ⟨a, by simp [Registry.upsert, hr, ha], hdec⟩
          · have hmem : v = w ∨ v ∈ vs.eraseP (named rec.name) := by
              simpa [hname, hr] using hv
            rcases hmem with rfl | hmem
            · exact ⟨r, by simp [Registry.upsert, hr], hw⟩
            · obtain ⟨a, ha, hdec⟩ := ih records hrest hmem
              exact ⟨a, by simp [Registry.upsert, hr, ha], hdec⟩

lemma spares_addIgnore (pattern : String) :
    settingsFile.Spares id (fun ignore => Settings.addIgnore ignore pattern) := by
  refine spares_all fun ignore => ?_
  unfold Settings.addIgnore
  split <;> simp

lemma spares_removeIgnore (pattern : String) :
    settingsFile.Spares (fun vs => vs.filter fun v => (decodePattern v).all fun p => p ≠ pattern)
      (fun ignore => (Settings.removeIgnore ignore pattern).1) :=
  spares_filter fun p => p ≠ pattern

lemma removeIgnore_snd_iff (ignore : List String) (pattern : String) :
    (Settings.removeIgnore ignore pattern).2 = true ↔ pattern ∈ ignore := by
  simp [Settings.removeIgnore, List.length_filter_eq_length_iff]

lemma otherRecords_subset (cmd : Command) (vs : List Value) : cmd.otherRecords vs ⊆ vs := by
  cases cmd with
  | dbAdd name _ _ _ => exact List.eraseP_subset
  | install _ _ _ _ => exact List.eraseP_subset
  | ignoreAdd _ _ => exact List.Subset.refl _
  | ignoreRemove _ _ => exact List.Subset.refl _

lemma otherPatterns_subset (cmd : Command) (vs : List Value) : cmd.otherPatterns vs ⊆ vs := by
  cases cmd with
  | ignoreRemove pattern _ => exact List.filter_subset_self ..
  | dbAdd _ _ _ _ => exact List.Subset.refl _
  | install _ _ _ _ => exact List.Subset.refl _
  | ignoreAdd _ _ => exact List.Subset.refl _

/-! ## What a command does -/

variable {toml json home}

/-- The registry after a command. -/
lemma run_dbs (cmd : Command) (files : ConfigFiles) :
    (cmd.run toml json home files).1.dbs = match cmd.registers toml home files.dbs with
      | some (rec, readable) => some (utf8 (toml.print
          (Registry.upsert (Registry.load toml readable files.dbs) rec)))
      | none => files.dbs := by
  cases cmd with
  | dbAdd name root built io =>
      obtain ⟨readable, saved⟩ := io
      cases built <;> cases saved <;> simp [Command.run, cmdDbAdd, Command.registers, Io.save]
  | install exe checked io launched =>
      obtain ⟨readable, saved⟩ := io
      cases exe with
      | false => simp [Command.run, cmdInstall, Command.registers]
      | true =>
          cases hempty : (Registry.load toml checked files.dbs).isEmpty <;> cases saved <;>
            simp [Command.run, cmdInstall, ensureDefaultRoot, Command.registers, Io.save, hempty]
  | ignoreAdd pattern io => rfl
  | ignoreRemove pattern io =>
      simp only [Command.run, cmdIgnoreRemove, Command.registers]
      split <;> rfl

/-- The settings after a command. -/
lemma run_settings (cmd : Command) (files : ConfigFiles) :
    (cmd.run toml json home files).1.settings =
      match cmd.reignores json files.settings with
      | some (_, readable) => some (utf8 (json.print
          (cmd.reignored (Settings.load json readable files.settings))))
      | none => files.settings := by
  cases cmd with
  | dbAdd name root built io => cases built <;> rfl
  | install exe checked io launched =>
      cases exe with
      | false => rfl
      | true =>
          simp only [Command.run, cmdInstall, Command.reignores]
          cases ensureDefaultRoot toml home checked files.dbs <;> rfl
  | ignoreAdd pattern io =>
      obtain ⟨readable, saved⟩ := io
      cases saved <;> rfl
  | ignoreRemove pattern io =>
      obtain ⟨readable, saved⟩ := io
      have hpresent :=
        removeIgnore_snd_iff (Settings.load json readable files.settings) pattern
      cases hrem : Settings.removeIgnore (Settings.load json readable files.settings) pattern with
      | mk kept present =>
          rw [hrem] at hpresent
          cases saved <;> cases present <;>
            simp_all [Command.run, cmdIgnoreRemove, Command.reignores, Command.reignored, Io.save]

/-- What is known of a command that saves the registry. -/
lemma of_registers {cmd : Command} {dbs : Option Bytes} {rec : DbRecord} {readable : Bool}
    (h : cmd.registers toml home dbs = some (rec, readable)) :
    cmd.otherRecords = (fun vs => vs.eraseP (named rec.name)) ∧
      (cmd.Reads → readable = true) := by
  cases cmd with
  | dbAdd name root built io =>
      obtain ⟨read, saved⟩ := io
      cases built <;> cases saved <;> simp [Command.registers] at h
      obtain ⟨rfl, rfl⟩ := h
      exact ⟨rfl, id⟩
  | install exe checked io launched =>
      obtain ⟨read, saved⟩ := io
      cases exe <;> cases saved <;> simp [Command.registers] at h
      obtain ⟨-, rfl, rfl⟩ := h
      exact ⟨rfl, id⟩
  | ignoreAdd _ _ => exact absurd h (by simp [Command.registers])
  | ignoreRemove _ _ => exact absurd h (by simp [Command.registers])

/-- What is known of a command that saves the settings: it spares the other patterns, and it has
read the settings if it takes one out. -/
lemma of_reignores {cmd : Command} {settings : Option Bytes} {pattern : String} {readable : Bool}
    (h : cmd.reignores json settings = some (pattern, readable)) :
    settingsFile.Spares cmd.otherPatterns cmd.reignored ∧
      (cmd.reignored [] = [pattern] ∨
        (json.readFile settingsFile readable settings).isSome = true) ∧
      (cmd.Reads → readable = true) := by
  cases cmd with
  | dbAdd _ _ _ _ => exact absurd h (by simp [Command.reignores])
  | install _ _ _ _ => exact absurd h (by simp [Command.reignores])
  | ignoreAdd p io =>
      obtain ⟨read, saved⟩ := io
      cases saved <;> simp [Command.reignores] at h
      obtain ⟨rfl, rfl⟩ := h
      exact ⟨spares_addIgnore p, .inl rfl, id⟩
  | ignoreRemove p io =>
      obtain ⟨read, saved⟩ := io
      cases saved <;> simp [Command.reignores] at h
      obtain ⟨hmem, rfl, rfl⟩ := h
      refine ⟨spares_removeIgnore p, .inr ?_, id⟩
      cases hread : json.readFile settingsFile read settings with
      | none => exact absurd hmem (by simp [Settings.load, hread])
      | some _ => rfl

lemma fileKept_refl {α : Type} {fmt : Format α} {sch : Schema α} {rest : List Value → List Value}
    (content : Option Bytes) : FileKept fmt sch rest content content := .inl rfl

/-- A command loses nothing exactly when it saves nothing, or saves an amendable file. -/
lemma losesNothing_iff (htoml : toml.Documented registryFile) (hjson : json.Documented settingsFile)
    (files : ConfigFiles) (cmd : Command) :
    cmd.LosesNothing toml json home files ↔ cmd.Safe toml json home files := by
  rw [Command.LosesNothing, Command.Safe, run_dbs, run_settings]
  refine and_congr ?_ ?_
  · cases h : cmd.registers toml home files.dbs with
    | none => simp [fileKept_refl]
    | some saved =>
        obtain ⟨rec, readable⟩ := saved
        have hspares : registryFile.Spares cmd.otherRecords
            (fun records => Registry.upsert records rec) := by
          rw [(of_registers h).1]
          exact spares_upsert rec
        have hnil : (fun records => Registry.upsert records rec) [] = [rec] := rfl
        simpa [Registry.load] using
          fileKept_edit_iff htoml hspares (otherRecords_subset cmd) (.inl hnil)
  · cases h : cmd.reignores json files.settings with
    | none => simp [fileKept_refl]
    | some saved =>
        obtain ⟨pattern, readable⟩ := saved
        obtain ⟨hspares, hedit, -⟩ := of_reignores h
        simpa [Settings.load] using
          fileKept_edit_iff hjson hspares (otherPatterns_subset cmd) hedit

/-! ## Files of the program's own -/

/-- A file that is absent, or that a command has written. -/
def OwnFile {α : Type} (fmt : Format α) (content : Option Bytes) : Prop :=
  content = none ∨ ∃ items, content = some (utf8 (fmt.print items))

lemma amendable_of_ownFile {α : Type} {fmt : Format α} {sch : Schema α}
    (hfmt : fmt.Documented sch) {rest : List Value → List Value} (hrest : ∀ vs, rest vs ⊆ vs)
    {content : Option Bytes} (hown : OwnFile fmt content) (written : α) :
    Amendable fmt sch rest true written content := by
  rcases hown with rfl | ⟨items, rfl⟩
  · refine ⟨Contents.empty, rfl, by simp [Contents.empty], fun v hv => ?_⟩
    exact absurd (hrest _ hv) (by simp [Contents.empty])
  · refine ⟨_, held_print hfmt items, by simp, fun v hv => ?_⟩
    obtain ⟨a, -, rfl⟩ := List.mem_map.mp (hrest _ hv)
    have hread : fmt.readFile sch true (some (utf8 (fmt.print items))) = some items := by
      simp [Format.readFile, readToString, hfmt items]
    exact ⟨a, known_encode sch a, .inl (by simp [hread])⟩

lemma ownFile_print {α : Type} (fmt : Format α) (items : List α) :
    OwnFile fmt (some (utf8 (fmt.print items))) := .inr ⟨items, rfl⟩

/-- Every command leaves files of its own. -/
lemma ownFiles_run {files : ConfigFiles} (cmd : Command)
    (h : OwnFile toml files.dbs ∧ OwnFile json files.settings) :
    OwnFile toml (cmd.run toml json home files).1.dbs ∧
      OwnFile json (cmd.run toml json home files).1.settings := by
  rw [run_dbs, run_settings]
  refine ⟨?_, ?_⟩
  · split
    · exact ownFile_print _ _
    · exact h.1
  · split
    · exact ownFile_print _ _
    · exact h.2

lemma safe_of_ownFiles (htoml : toml.Documented registryFile)
    (hjson : json.Documented settingsFile) {files : ConfigFiles} {cmd : Command}
    (hown : OwnFile toml files.dbs ∧ OwnFile json files.settings) (hreads : cmd.Reads) :
    cmd.Safe toml json home files := by
  refine ⟨fun rec readable h => ?_, fun pattern readable h => ?_⟩
  · obtain rfl := (of_registers h).2 hreads
    exact amendable_of_ownFile htoml (otherRecords_subset cmd) hown.1 rec
  · obtain rfl := (of_reignores h).2.2 hreads
    exact amendable_of_ownFile hjson (otherPatterns_subset cmd) hown.2 pattern

/-- Commands that can read their files are safe on files that are absent or that earlier commands
wrote. -/
theorem guarded_safe_of_ownFiles (htoml : toml.Documented registryFile)
    (hjson : json.Documented settingsFile) {files : ConfigFiles}
    (hown : OwnFile toml files.dbs ∧ OwnFile json files.settings) {cmds : List Command}
    (hreads : ∀ cmd ∈ cmds, cmd.Reads) :
    Run.Guarded (configStep toml json home) (Command.Safe toml json home) files cmds := by
  refine Run.guarded_of_invariant (configStep toml json home)
    (I := fun files => OwnFile toml files.dbs ∧ OwnFile json files.settings) (c := Command.Reads)
    (fun files cmd hown hread => safe_of_ownFiles htoml hjson hown hread)
    (fun files cmd files' hown hstep => ?_) hown hreads
  obtain rfl := Option.some.inj hstep
  exact ownFiles_run cmd hown

/-! ## Runs -/

lemma losesNothing_eq (htoml : toml.Documented registryFile)
    (hjson : json.Documented settingsFile) :
    Command.LosesNothing toml json home = Command.Safe toml json home :=
  funext₂ fun files cmd => propext (losesNothing_iff htoml hjson files cmd)

/-- A run over files that are absent or that earlier commands wrote loses nothing, as long as it can
read them. -/
theorem own_files_keep (htoml : toml.Documented registryFile)
    (hjson : json.Documented settingsFile) {files : ConfigFiles}
    (hown : OwnFile toml files.dbs ∧ OwnFile json files.settings) {cmds : List Command}
    (hreads : ∀ cmd ∈ cmds, cmd.Reads) :
    Run.Guarded (configStep toml json home) (Command.LosesNothing toml json home) files cmds := by
  rw [losesNothing_eq htoml hjson]
  exact guarded_safe_of_ownFiles htoml hjson hown hreads

/-! ## Formats to run -/

/-- A format that reads what it prints, and nothing else. -/
def strictFormat {α : Type} (sch : Schema α) (print : List α → List Char)
    (scan : List Char → List α) : Format α where
  parse text :=
    if print (scan text.toList) = text.toList then some (sch.write (scan text.toList)) else none
  print items := String.ofList (print items)

lemma strictFormat_documented {α : Type} {sch : Schema α} {print : List α → List Char}
    {scan : List Char → List α} (h : ∀ items, scan (print items) = items) :
    (strictFormat sch print scan).Documented sch := by
  intro items
  simp [strictFormat, h]

lemma strictFormat_parse_eq_none {α : Type} {sch : Schema α} {print : List α → List Char}
    {scan : List Char → List α} {text : String} (h : print (scan text.toList) ≠ text.toList) :
    (strictFormat sch print scan).parse text = none := if_neg h

def printIgnore (ignore : List String) : List Char :=
  "\x7b\n  ".toList ++ (quote "ignore" ++ (": [".toList ++ (match ignore with
    | [] => []
    | p :: ps => "\n    ".toList ++ (quote p ++
        (ps.flatMap (fun p => ",\n    ".toList ++ quote p) ++ "\n  ".toList)))
    ++ "]\n\x7d".toList))

/-- `settings.json` as it is printed. -/
def quotedJson : Format String :=
  strictFormat settingsFile printIgnore fun cs => (quotedTexts none cs).tail

lemma quotedJson_documented : quotedJson.Documented settingsFile := by
  refine strictFormat_documented fun ignore => ?_
  have hitem : ∀ (p : String) (rest : List Char),
      quotedTexts none ((",\n    ".toList ++ quote p) ++ rest) = [p] ++ quotedTexts none rest := by
    intro p rest
    rw [List.append_assoc, quotedTexts_plain (by decide), quotedTexts_quote, List.singleton_append]
  unfold printIgnore
  rw [quotedTexts_plain (by decide), quotedTexts_quote, List.tail_cons, List.append_assoc,
    quotedTexts_plain (by decide)]
  cases ignore with
  | nil => exact quotedTexts_nil_of_plain (by decide)
  | cons p ps =>
      simp only [List.append_assoc]
      rw [quotedTexts_plain (by decide), quotedTexts_quote, quotedTexts_flatMap hitem,
        quotedTexts_plain (by decide), quotedTexts_nil_of_plain (by decide)]
      simp

def printRecord (r : DbRecord) : List Char :=
  "[[dbs]]\nname = ".toList ++ (quote r.name ++ ("\nroot = ".toList ++ (quote r.root ++
    ("\ndb_path = ".toList ++ (quote r.dbPath ++ ("\ncontent_dir = ".toList ++
      (quote r.contentDir ++ "\n".toList)))))))

def recordsOf : List String → List DbRecord
  | name :: root :: dbPath :: contentDir :: texts =>
      ⟨name, root, dbPath, contentDir⟩ :: recordsOf texts
  | _ => []

def quotedToml : Format DbRecord :=
  strictFormat registryFile (fun records => records.flatMap printRecord) fun cs =>
    recordsOf (quotedTexts none cs)

lemma quotedToml_documented : quotedToml.Documented registryFile := by
  refine strictFormat_documented fun records => ?_
  have hrecord : ∀ (r : DbRecord) (rest : List Char), quotedTexts none (printRecord r ++ rest) =
      [r.name, r.root, r.dbPath, r.contentDir] ++ quotedTexts none rest := by
    intro r rest
    unfold printRecord
    simp only [List.append_assoc]
    rw [quotedTexts_plain (by decide), quotedTexts_quote, quotedTexts_plain (by decide),
      quotedTexts_quote, quotedTexts_plain (by decide), quotedTexts_quote,
      quotedTexts_plain (by decide), quotedTexts_quote, quotedTexts_plain (by decide)]
    rfl
  have htexts := quotedTexts_flatMap hrecord records []
  rw [List.append_nil] at htexts
  rw [htexts]
  clear htexts
  induction records with
  | nil => rfl
  | cons r records ih => simpa [recordsOf, quotedTexts] using ih

/-! ## The law of the commands -/

/-- The commands of a run lose nothing exactly as long as each saves nothing, or saves a file that
is absent, blank, or without a key or an item that the load passes over.  The formats are any that
read back what they print (`Format.Documented`); a file that does not parse is loaded as an empty
one and saved over, which is the loss that the condition excludes. -/
theorem config_edits_iff (htoml : toml.Documented registryFile)
    (hjson : json.Documented settingsFile) (files : ConfigFiles) (cmds : List Command) :
    Run.Guarded (configStep toml json home) (Command.LosesNothing toml json home) files cmds ↔
      Run.Guarded (configStep toml json home) (Command.Safe toml json home) files cmds := by
  rw [losesNothing_eq htoml hjson]

theorem config_edits_iff_install :
    quotedToml.Documented registryFile ∧ quotedJson.Documented settingsFile ∧
      Run.Guarded (configStep quotedToml quotedJson "/home/u")
        (Command.LosesNothing quotedToml quotedJson "/home/u") ⟨none, none⟩
        [.install true true ⟨true, true⟩ true, .ignoreAdd "*.log" ⟨true, true⟩,
          .ignoreRemove "*.log" ⟨true, true⟩] := by
  refine ⟨quotedToml_documented, quotedJson_documented, ?_⟩
  refine (config_edits_iff quotedToml_documented quotedJson_documented _ _).mpr ?_
  refine guarded_safe_of_ownFiles quotedToml_documented quotedJson_documented
    ⟨.inl rfl, .inl rfl⟩ ?_
  simp [Command.Reads]

/-- Settings that are malformed are lost when a pattern is added. -/
theorem malformed_settings_lost :
    quotedToml.Documented registryFile ∧ quotedJson.Documented settingsFile ∧
      ¬Run.Guarded (configStep quotedToml quotedJson "/home/u")
        (Command.LosesNothing quotedToml quotedJson "/home/u")
        ⟨none, some (utf8 "\x7b broken")⟩ [.ignoreAdd "target" ⟨true, true⟩] := by
  refine ⟨quotedToml_documented, quotedJson_documented, fun hrun => ?_⟩
  have hparse : quotedJson.parse "\x7b broken" = none :=
    strictFormat_parse_eq_none (by decide)
  have hheld : held quotedJson settingsFile (some (utf8 "\x7b broken")) = none := by
    have hblank : blank (utf8 "\x7b broken") = false := by decide
    simp [held, hparse, hblank]
  have hsafe := (losesNothing_iff quotedToml_documented quotedJson_documented _ _).mp hrun.1
  obtain ⟨o, ho, -⟩ := hsafe.2 "target" true rfl
  exact absurd (hheld.symm.trans ho) (by simp)

end DeepFinder
