import BinaryXml.CommandLine.Arguments
import BinaryXml.Proofs.Xml.Grammar

/-! # The words of a command line

* `Part` is an option or a path of a command line, and `Commands words direction parts` says which
  words spell which parts.
* `Arguments.Gathered direction parts arguments`: what has been read is what the parts say.
* `Arguments.exists_commands_of_parse`: a command line that is accepted spells parts, and what has
  been read is what they say.
-/

namespace BinaryXml

set_option autoImplicit false

/-! ## Parts and words -/

/-- A part of a command line behind the subcommand. -/
inductive Part where
  | path (path : String)
  | switch (switch : Switch)
  | setting (setting : Setting) (value : String)
deriving DecidableEq

def Part.path? : Part → Option String
  | .path word => some word
  | _ => none

def Switch.name : Switch → String
  | .inPlace => "in-place"
  | .stripWhitespace => "strip-whitespace"
  | .publicId => "public-id"
  | .stringTable => "string-table"
  | .pretty => "pretty"

/-- Whether a switch belongs to the subcommand for a direction. -/
def Switch.Belongs (direction : Direction) : Switch → Prop
  | .inPlace | .stripWhitespace => True
  | .publicId | .stringTable => direction = .encode
  | .pretty => direction = .decode

def Setting.name : Setting → String
  | .opaqueEncoding => "opaque"
  | .language => "language"
  | .indent => "indent"
  | .charset => "charset"

/-- Whether a setting belongs to the subcommand for a direction. -/
def Setting.Belongs (direction : Direction) : Setting → Prop
  | .opaqueEncoding | .language => True
  | .indent | .charset => direction = .decode

/-- A word that is no option: it does not start with a dash, or it is nothing but one. -/
def IsPlain (word : String) : Prop :=
  word = "-" ∨ word.toList.head? ≠ some '-'

/-- The parts that are spelled by one word. -/
inductive Part.IsWord (direction : Direction) : Part → String → Prop where
  | path {word : String} (plain : IsPlain word) : IsWord direction (.path word) word
  | inPlace : IsWord direction (.switch .inPlace) "-i"
  | switch {switch : Switch} (belongs : switch.Belongs direction) :
      IsWord direction (.switch switch) ("--" ++ switch.name)
  | setting {setting : Setting} {value : String} (belongs : setting.Belongs direction) :
      IsWord direction (.setting setting value) ("--" ++ setting.name ++ "=" ++ value)

/-- The words that spell some parts. A setting may have its value in a word of its own, and all
words behind a double dash are paths. -/
inductive Spells (direction : Direction) : List Part → List String → Prop where
  | nil : Spells direction [] []
  | word {part : Part} {word : String} {parts : List Part} {words : List String}
      (first : part.IsWord direction word) (rest : Spells direction parts words) :
      Spells direction (part :: parts) (word :: words)
  | setting {setting : Setting} {value : String} {parts : List Part} {words : List String}
      (belongs : setting.Belongs direction) (plain : IsPlain value)
      (rest : Spells direction parts words) :
      Spells direction (.setting setting value :: parts) (("--" ++ setting.name) :: value :: words)
  | paths (words : List String) : Spells direction (words.map .path) ("--" :: words)

/-- The words of a whole command line, with the subcommand in front. -/
inductive Commands : List String → Direction → List Part → Prop where
  | encode {words : List String} {parts : List Part} (spells : Spells .encode parts words) :
      Commands ("encode" :: words) .encode parts
  | decode {words : List String} {parts : List Part} (spells : Spells .decode parts words) :
      Commands ("decode" :: words) .decode parts

/-- Two parts are the same option, be it with another value. -/
def Part.Repeats : Part → Part → Prop
  | .switch first, .switch second => first = second
  | .setting first _, .setting second _ => first = second
  | _, _ => False

/-- The values that a setting takes. -/
def Setting.Takes : Setting → String → Prop
  | .opaqueEncoding, value => value = "base64" ∨ value = "hex"
  | .language, value => ∃ language ∈ Language.builtIn,
      Namespace.lowerAscii language.name = Namespace.lowerAscii value
  | .indent, value => ∃ indent, Numeral.read 10 0x10000000000000000 value.toList = some indent
  | .charset, value => value = "utf-8" ∨ value = "us-ascii" ∨ value = "iso-8859-1"

/-! ## Names of options -/

namespace NamedOption

variable {direction : Direction} {name : String}

theorem switch_of_find? {switch : Switch} (h : find? direction name = some (.switch switch)) :
    name = switch.name ∧ switch.Belongs direction := by
  unfold find? at h
  split at h <;> cases h <;> exact ⟨rfl, by trivial⟩

theorem setting_of_find? {setting : Setting} (h : find? direction name = some (.setting setting)) :
    name = setting.name ∧ setting.Belongs direction := by
  unfold find? at h
  split at h <;> cases h <;> exact ⟨rfl, by trivial⟩

end NamedOption

theorem direction_of_ofName? {name : String} {direction : Direction}
    (h : Direction.ofName? name = some direction) :
    name = "encode" ∧ direction = .encode ∨ name = "decode" ∧ direction = .decode := by
  unfold Direction.ofName? at h
  split at h <;> cases h <;> simp

namespace Arguments

/-! ## Adding parts -/

variable {arguments arguments' last : Arguments} {setting : Setting} {value : String}

/-- What has been read with one part more. -/
def add (arguments : Arguments) : Part → Except Rejection Arguments
  | .path path =>
    if 2 ≤ arguments.paths.length then .error .unknownArgument
    else .ok { arguments with paths := arguments.paths ++ [path] }
  | .switch switch => arguments.turnOn switch
  | .setting setting value => arguments.set setting value

theorem addAll_cons_iff {part : Part} {parts : List Part} :
    (part :: parts).foldlM add arguments = .ok last ↔
      ∃ middle, arguments.add part = .ok middle ∧ parts.foldlM add middle = .ok last := by
  rw [List.foldlM_cons]
  exact Parsing.bind_eq_ok_iff

/-- A setting has the value that a word denotes. -/
def Holds (arguments : Arguments) : Setting → String → Prop
  | .opaqueEncoding, word => ∃ encoding, OpaqueEncoding.ofName? word = some encoding ∧
      arguments.opaqueEncoding = some encoding
  | .language, word => ∃ language, Language.find? word = some language ∧
      arguments.language = some language
  | .indent, word => ∃ indent, Numeral.read 10 indentLimit word.toList = some indent ∧
      arguments.indent = some indent
  | .charset, word => ∃ charset, Charset.ofName? word = some charset ∧
      arguments.charset = some charset

/-- A setting that had no value has one, and nothing else has changed. -/
structure Assigned (arguments : Arguments) (setting : Setting) (value : String)
    (arguments' : Arguments) : Prop where
  fresh : arguments.has setting = false
  holds : arguments'.Holds setting value
  kept : ∀ other, other ≠ setting → arguments'.has other = arguments.has other ∧
    ∀ word, arguments'.Holds other word ↔ arguments.Holds other word
  direction : arguments'.direction = arguments.direction
  switches : arguments'.switches = arguments.switches
  paths : arguments'.paths = arguments.paths

theorem given_eq_ok {α : Type} {rejection : Rejection} {found chosen : Option α}
    (h : given rejection found = .ok chosen) :
    ∃ value, found = some value ∧ chosen = some value := by
  cases found with
  | none => cases h
  | some value =>
    cases h
    exact ⟨value, rfl, rfl⟩

theorem assigned_of_set (h : arguments.set setting value = .ok arguments') :
    Assigned arguments setting value arguments' := by
  unfold set at h
  cases hhas : arguments.has setting with
  | true =>
    rw [hhas] at h
    cases h
  | false =>
    rw [hhas] at h
    cases setting <;>
    · obtain ⟨chosen, hgiven, hpure⟩ := Parsing.bind_eq_ok_iff.mp h
      cases hpure
      refine ⟨hhas, given_eq_ok hgiven, ?_, rfl, rfl, rfl⟩
      intro other hother
      cases other <;> first | exact absurd rfl hother | exact ⟨rfl, fun _ => Iff.rfl⟩

theorem turnOn_eq_error {switch : Switch}
    (h : switch ∈ arguments.switches) : arguments.turnOn switch = .error .repeatedArgument := by
  rw [turnOn, if_pos (List.contains_iff_mem.mpr h)]

theorem mem_switches_of_turnOn {switch : Switch}
    (h : arguments.turnOn switch = .ok arguments') : switch ∈ arguments'.switches := by
  unfold turnOn at h
  split at h
  · cases h
  · cases h
    exact List.mem_append_right _ List.mem_cons_self

/-! ## Reading word by word -/

namespace Progress

variable {direction : Direction} {progress progress' done : Progress} {word : String}

theorem complete_cases (h : progress.complete = .ok done) :
    progress.pending = none ∧ done = progress ∨
    ∃ setting value arguments, progress.pending = some ⟨setting, some value⟩ ∧
      progress.arguments.set setting value = .ok arguments ∧
      done = { progress with arguments, pending := none } := by
  unfold complete at h
  split at h
  · rename_i hpending
    cases h
    exact .inl ⟨hpending, rfl⟩
  · cases h
  · rename_i setting value hpending
    obtain ⟨arguments, hset, hpure⟩ := Parsing.bind_eq_ok_iff.mp h
    cases hpure
    exact .inr ⟨setting, value, arguments, hpending, hset, rfl⟩

theorem complete_of_settled (h : progress.pending = none) : progress.complete = .ok progress := by
  unfold complete
  rw [h]

theorem complete_of_value
    (hpending : progress.pending = some ⟨setting, some value⟩)
    (hset : progress.arguments.set setting value = .ok arguments) :
    progress.complete = .ok { progress with arguments, pending := none } := by
  unfold complete
  rw [hpending]
  exact Parsing.bind_eq_ok_iff.mpr ⟨arguments, hset, rfl⟩

theorem complete_ne_ok (h : progress.pending = some ⟨setting, none⟩) :
    progress.complete ≠ .ok done := by
  unfold complete
  rw [h]
  nofun

/-- What is complete has nothing pending, and the same paths as before. -/
theorem of_complete (h : progress.complete = .ok done) :
    done.pending = none ∧ done.pathsOnly = progress.pathsOnly ∧
      done.arguments.paths = progress.arguments.paths := by
  rcases complete_cases h with ⟨hpending, rfl⟩ | ⟨_, _, arguments, -, hset, rfl⟩
  · exact ⟨hpending, rfl, rfl⟩
  · exact ⟨rfl, rfl, (assigned_of_set hset).paths⟩

/-- What one word does, as long as not all words are paths. -/
inductive Step (direction : Direction) (progress : Progress) : String → Progress → Prop where
  | pathsOnly : Step direction progress "--" { progress with pathsOnly := true }
  | opened {done : Progress} {setting : Setting} (belongs : setting.Belongs direction)
      (hcomplete : progress.complete = .ok done) :
      Step direction progress ("--" ++ setting.name) { done with pending := some { setting } }
  | value {setting : Setting} {word : String} (hpending : progress.pending = some ⟨setting, none⟩)
      (plain : IsPlain word) :
      Step direction progress word { progress with pending := some ⟨setting, some word⟩ }
  | added {part : Part} {word : String} {done : Progress} {arguments : Arguments}
      (spelled : part.IsWord direction word) (hcomplete : progress.complete = .ok done)
      (hadd : done.arguments.add part = .ok arguments) :
      Step direction progress word { done with arguments }

theorem path_eq_ok (h : progress.path word = .ok progress') :
    ∃ done arguments, progress.complete = .ok done ∧
      done.arguments.add (.path word) = .ok arguments ∧
      progress' = { done with arguments } := by
  unfold Progress.path at h
  split at h
  · cases h
  · rename_i hroom
    obtain ⟨done, hcomplete, hpure⟩ := Parsing.bind_eq_ok_iff.mp h
    cases hpure
    refine ⟨done, _, hcomplete, ?_, rfl⟩
    rw [add, (of_complete hcomplete).2.2, if_neg hroom]

theorem switch_eq_ok {switch : Switch} (h : progress.switch switch = .ok progress') :
    ∃ done arguments, progress.complete = .ok done ∧
      done.arguments.turnOn switch = .ok arguments ∧
      progress' = { done with arguments } := by
  obtain ⟨done, hcomplete, h⟩ := Parsing.bind_eq_ok_iff.mp h
  obtain ⟨arguments, hswitch, hpure⟩ := Parsing.bind_eq_ok_iff.mp h
  cases hpure
  exact ⟨done, arguments, hcomplete, hswitch, rfl⟩

theorem help_ne_ok : progress.help ≠ .ok progress' := by
  intro h
  obtain ⟨_, -, hhelp⟩ := Parsing.bind_eq_ok_iff.mp h
  cases hhelp

/-- Short options cannot share a dash: the one that is no request for help would be repeated. -/
theorem short_eq_ok {c : Char} {rest : List Char}
    (h : progress.short (c :: rest) = .ok progress') :
    c = 'i' ∧ rest = [] ∧ progress.switch .inPlace = .ok progress' := by
  unfold Progress.short at h
  split at h
  · rename_i heq
    cases heq
  · rename_i heq
    cases heq
    obtain ⟨middle, hswitch, hrest⟩ := Parsing.bind_eq_ok_iff.mp h
    obtain ⟨done, arguments, hcomplete, hon, rfl⟩ := switch_eq_ok hswitch
    unfold Progress.short at hrest
    split at hrest
    · cases hrest
      exact ⟨rfl, rfl, hswitch⟩
    · obtain ⟨_, hagain, -⟩ := Parsing.bind_eq_ok_iff.mp hrest
      obtain ⟨done', _, hcomplete', hon', -⟩ := switch_eq_ok hagain
      have hsettled : ({ done with arguments } : Progress).complete = .ok { done with arguments } :=
        complete_of_settled (of_complete hcomplete).1
      cases hsettled.symm.trans hcomplete'
      rw [turnOn_eq_error (mem_switches_of_turnOn hon)] at hon'
      cases hon'
    · exact absurd hrest help_ne_ok
    · cases hrest
  · exact absurd h help_ne_ok
  · cases h

/-- The characters of a long option end behind its name, or its value is behind an equals sign. -/
theorem name_or_value (characters : List Char) :
    characters.takeWhile (· != '=') = characters ∨
    ∃ value, characters = characters.takeWhile (· != '=') ++ '=' :: value := by
  have hall : characters.takeWhile (· != '=') ++ characters.dropWhile (· != '=') = characters :=
    List.takeWhile_append_dropWhile
  have hfirst := List.head?_dropWhile_not (· != '=') characters
  cases hrest : characters.dropWhile (· != '=') with
  | nil =>
    rw [hrest, List.append_nil] at hall
    exact .inl hall
  | cons c value =>
    rw [hrest] at hall hfirst
    obtain rfl : c = '=' := by simpa using hfirst
    exact .inr ⟨value, hall.symm⟩

theorem long_of_name {characters : List Char}
    (hname : characters.takeWhile (· != '=') = characters)
    (h : progress.long direction characters = .ok progress') :
    Step direction progress ("--" ++ String.ofList characters) progress' := by
  unfold Progress.long at h
  dsimp only at h
  rw [hname, List.drop_length, List.tail?_nil, Option.map_none] at h
  cases hfind : NamedOption.find? direction (String.ofList characters) with
  | none =>
    rw [hfind] at h
    cases h
  | some option =>
    rw [hfind] at h
    cases option with
    | help => exact absurd h help_ne_ok
    | switch switch =>
      obtain ⟨hspelled, belongs⟩ := NamedOption.switch_of_find? hfind
      obtain ⟨done, arguments, hcomplete, hon, rfl⟩ := switch_eq_ok h
      rw [hspelled]
      exact .added (.switch belongs) hcomplete hon
    | setting setting =>
      obtain ⟨hspelled, belongs⟩ := NamedOption.setting_of_find? hfind
      obtain ⟨done, hcomplete, hpure⟩ := Parsing.bind_eq_ok_iff.mp h
      cases hpure
      rw [hspelled]
      exact .opened belongs hcomplete

theorem long_of_value {characters value : List Char}
    (hvalue : characters = characters.takeWhile (· != '=') ++ '=' :: value)
    (h : progress.long direction characters = .ok progress') :
    Step direction progress ("--" ++ String.ofList characters) progress' := by
  unfold Progress.long at h
  dsimp only at h
  generalize characters.takeWhile (· != '=') = name at hvalue h
  subst hvalue
  rw [List.drop_left, List.tail?_cons, Option.map_some] at h
  cases hfind : NamedOption.find? direction (String.ofList name) with
  | none =>
    rw [hfind] at h
    cases h
  | some option =>
    rw [hfind] at h
    cases option with
    | help => cases h
    | switch switch => cases h
    | setting setting =>
      obtain ⟨hspelled, belongs⟩ := NamedOption.setting_of_find? hfind
      obtain ⟨done, hcomplete, h⟩ := Parsing.bind_eq_ok_iff.mp h
      obtain ⟨arguments, hset, hpure⟩ := Parsing.bind_eq_ok_iff.mp h
      cases hpure
      have hword : "--" ++ String.ofList (name ++ '=' :: value) =
          "--" ++ setting.name ++ "=" ++ String.ofList value := by
        rw [← hspelled]
        apply String.toList_injective
        simp
      rw [hword]
      exact .added (.setting belongs) hcomplete hset

/-- A word is an option, the value of a setting, a path, or the mark in front of paths. -/
theorem step_of_word (hopen : progress.pathsOnly = false)
    (h : progress.word direction word = .ok progress') :
    Step direction progress word progress' := by
  unfold Progress.word at h
  rw [if_neg (ne_true_of_eq_false hopen)] at h
  split at h
  · rename_i hword
    cases h
    obtain rfl : word = "--" := String.toList_injective hword
    exact .pathsOnly
  · rename_i characters _ hword
    obtain rfl : word = "--" ++ String.ofList characters :=
      String.toList_injective (by simpa using hword)
    rcases name_or_value characters with hname | ⟨value, hvalue⟩
    · exact long_of_name hname h
    · exact long_of_value hvalue h
  · rename_i c characters _ hword
    obtain ⟨rfl, rfl, hswitch⟩ := short_eq_ok h
    obtain ⟨done, arguments, hcomplete, hon, rfl⟩ := switch_eq_ok hswitch
    obtain rfl : word = "-i" := String.toList_injective hword
    exact .added .inPlace hcomplete hon
  · rename_i hshort
    have plain : IsPlain word := by
      cases hword : word.toList with
      | nil => exact .inr (by rw [hword]; nofun)
      | cons c rest =>
        by_cases hc : c = '-'
        · subst hc
          cases rest with
          | nil => exact .inl (String.toList_injective hword)
          | cons c rest => exact absurd hword (hshort c rest)
        · refine .inr fun hfirst => hc ?_
          rw [hword] at hfirst
          exact Option.some.inj hfirst
    split at h
    · rename_i setting hpending
      cases h
      exact .value hpending plain
    · obtain ⟨done, arguments, hcomplete, hadd, rfl⟩ := path_eq_ok h
      exact .added (.path plain) hcomplete hadd

/-- The words that are still to come, and what has been read in the end. If a setting waits for its
value, the first of them is the value. -/
inductive Leads (direction : Direction) : Progress → List String → Arguments → Prop where
  | settled {progress done : Progress} {parts : List Part} {words : List String} {last : Arguments}
      (hcomplete : progress.complete = .ok done) (spells : Spells direction parts words)
      (hparts : parts.foldlM add done.arguments = .ok last) : Leads direction progress words last
  | value {progress done : Progress} {setting : Setting} {value : String} {parts : List Part}
      {words : List String} {last : Arguments} (hpending : progress.pending = some ⟨setting, none⟩)
      (plain : IsPlain value)
      (hcomplete : { progress with pending := some ⟨setting, some value⟩ : Progress }.complete =
        .ok done)
      (spells : Spells direction parts words)
      (hparts : parts.foldlM add done.arguments = .ok last) :
      Leads direction progress (value :: words) last

theorem Leads.exists_parts {words : List String} {last : Arguments}
    (h : Leads direction progress words last) (hsettled : progress.pending = none) :
    ∃ parts, Spells direction parts words ∧ parts.foldlM add progress.arguments = .ok last := by
  cases h with
  | settled hcomplete spells hparts =>
    rw [complete_of_settled hsettled] at hcomplete
    cases hcomplete
    exact ⟨_, spells, hparts⟩
  | value hpending _ _ _ _ => cases hsettled.symm.trans hpending

theorem paths_of_words {words : List String} {middle last : Progress}
    (hpaths : progress.pathsOnly = true)
    (hwords : words.foldlM (Progress.word direction) progress = .ok middle)
    (hlast : middle.complete = .ok last) :
    ∃ done, progress.complete = .ok done ∧
      (words.map Part.path).foldlM add done.arguments = .ok last.arguments := by
  induction words generalizing progress with
  | nil =>
    cases hwords
    exact ⟨last, hlast, rfl⟩
  | cons word rest ih =>
    rw [List.foldlM_cons] at hwords
    obtain ⟨next, hword, hrest⟩ := Parsing.bind_eq_ok_iff.mp hwords
    unfold Progress.word at hword
    rw [if_pos hpaths] at hword
    obtain ⟨done, arguments, hcomplete, hadd, rfl⟩ := path_eq_ok hword
    obtain ⟨hpending, hsame, -⟩ := of_complete hcomplete
    have hnext : ({ done with arguments } : Progress).pathsOnly = true := hsame.trans hpaths
    obtain ⟨done', hcomplete', hparts⟩ := ih hnext hrest
    cases (complete_of_settled (by exact hpending)).symm.trans hcomplete'
    exact ⟨done, hcomplete, addAll_cons_iff.mpr ⟨arguments, hadd, hparts⟩⟩

theorem complete_pathsOnly (progress : Progress) :
    { progress with pathsOnly := true : Progress }.complete =
      progress.complete.map fun done => { done with pathsOnly := true } := by
  obtain ⟨arguments, pending, pathsOnly⟩ := progress
  rcases pending with _ | ⟨setting, _ | value⟩
  · rfl
  · rfl
  · simp only [complete]
    cases arguments.set setting value <;> rfl

theorem exists_complete_of_pathsOnly
    (h : { progress with pathsOnly := true : Progress }.complete = .ok done) :
    ∃ done', progress.complete = .ok done' ∧ done'.arguments = done.arguments := by
  rw [complete_pathsOnly] at h
  cases hcomplete : progress.complete with
  | error rejection =>
    rw [hcomplete] at h
    cases h
  | ok done' =>
    rw [hcomplete] at h
    cases h
    exact ⟨done', rfl, rfl⟩

/-- The words behind a subcommand spell parts, and the parts are added one by one. -/
theorem leads_of_words {words : List String} {middle last : Progress}
    (hopen : progress.pathsOnly = false)
    (hwords : words.foldlM (Progress.word direction) progress = .ok middle)
    (hlast : middle.complete = .ok last) : Leads direction progress words last.arguments := by
  induction words generalizing progress with
  | nil =>
    cases hwords
    exact .settled hlast .nil rfl
  | cons word rest ih =>
    rw [List.foldlM_cons] at hwords
    obtain ⟨next, hword, hrest⟩ := Parsing.bind_eq_ok_iff.mp hwords
    cases step_of_word hopen hword with
    | pathsOnly =>
      obtain ⟨done, hcomplete, hparts⟩ := paths_of_words (by rfl) hrest hlast
      obtain ⟨done', hcomplete', hsame⟩ := exists_complete_of_pathsOnly hcomplete
      exact .settled hcomplete' (.paths rest) (hsame ▸ hparts)
    | @opened done setting belongs hcomplete =>
      -- The setting waits, so the word behind it is its value and not a part of its own.
      have hnext : ({ done with pending := some { setting } } : Progress).pathsOnly = false :=
        (of_complete hcomplete).2.1.trans hopen
      cases ih hnext hrest with
      | settled hcomplete' _ _ => exact absurd hcomplete' (complete_ne_ok (by rfl))
      | value hpending plain hcomplete' spells hparts =>
        cases hpending
        rcases complete_cases hcomplete' with ⟨⟨⟩, -⟩ | ⟨_, _, arguments, ⟨⟩, hset, rfl⟩
        exact .settled hcomplete (.setting belongs plain spells)
          (addAll_cons_iff.mpr ⟨arguments, hset, hparts⟩)
    | @value setting _ hpending plain =>
      have hnext : ({ progress with pending := some ⟨setting, some word⟩ } : Progress).pathsOnly =
        false := hopen
      cases ih hnext hrest with
      | settled hcomplete spells hparts => exact .value hpending plain hcomplete spells hparts
      | value hpending' _ _ _ _ => cases hpending'
    | @added part _ done arguments spelled hcomplete hadd =>
      obtain ⟨hsettled, hsame, -⟩ := of_complete hcomplete
      have hnext : ({ done with arguments } : Progress).pathsOnly = false := hsame.trans hopen
      obtain ⟨parts, spells, hparts⟩ := (ih hnext hrest).exists_parts hsettled
      exact .settled hcomplete (.word spelled spells)
        (addAll_cons_iff.mpr ⟨arguments, hadd, hparts⟩)

end Progress

/-! ## What the parts say -/

/-- What has been read of a command line is what its parts say. -/
structure Gathered (direction : Direction) (parts : List Part) (arguments : Arguments) : Prop where
  direction : arguments.direction = some direction
  switches : ∀ switch, switch ∈ arguments.switches ↔ .switch switch ∈ parts
  settings : ∀ setting value, .setting setting value ∈ parts → arguments.Holds setting value
  given : ∀ setting, arguments.has setting = true → ∃ value, .setting setting value ∈ parts
  once : parts.Pairwise fun first second => ¬ first.Repeats second
  paths : arguments.paths = parts.filterMap Part.path?
  room : arguments.paths.length ≤ 2

variable {direction : Direction} {parts : List Part} {part : Part}

theorem gathered_nil (direction : Direction) : Gathered direction [] { direction } where
  direction := rfl
  switches := by simp
  settings := nofun
  given := by
    intro setting h
    cases setting <;> cases h
  once := .nil
  paths := rfl
  room := Nat.zero_le 2

theorem has_of_holds (h : arguments.Holds setting value) : arguments.has setting = true := by
  cases setting <;>
  · obtain ⟨_, -, h⟩ := h
    simp [has, h]

theorem holds_with (switches : List Switch) (paths : List String) :
    { arguments with switches, paths : Arguments }.Holds setting value ↔
      arguments.Holds setting value := by
  cases setting <;> rfl

theorem has_with (switches : List Switch) (paths : List String) :
    { arguments with switches, paths : Arguments }.has setting = arguments.has setting := by
  cases setting <;> rfl

theorem Gathered.once_concat (gathered : Gathered direction parts arguments)
    (h : ∀ first ∈ parts, ¬ first.Repeats part) :
    (parts ++ [part]).Pairwise fun first second => ¬ first.Repeats second := by
  rw [List.pairwise_append]
  refine ⟨gathered.once, List.pairwise_singleton _ _, fun first hfirst second hsecond => ?_⟩
  cases List.mem_singleton.mp hsecond
  exact h first hfirst

theorem Gathered.add (gathered : Gathered direction parts arguments)
    (h : arguments.add part = .ok arguments') :
    Gathered direction (parts ++ [part]) arguments' := by
  cases part with
  | path path =>
    rw [Arguments.add] at h
    split at h
    · cases h
    · rename_i hroom
      cases h
      refine ⟨gathered.direction, ?_, ?_, ?_, ?_, ?_, ?_⟩
      · simpa using gathered.switches
      · simpa [holds_with arguments.switches] using gathered.settings
      · simpa [has_with arguments.switches] using gathered.given
      · exact gathered.once_concat fun first _ => by cases first <;> exact id
      · simp [gathered.paths, Part.path?]
      · rw [List.length_append]
        exact Nat.not_le.mp hroom
  | switch switch =>
    rw [Arguments.add, turnOn] at h
    split at h
    · cases h
    · rename_i hfresh
      cases h
      refine ⟨gathered.direction, ?_, ?_, ?_, ?_, ?_, gathered.room⟩
      · intro other
        simp [gathered.switches]
      · simpa [holds_with (arguments.switches ++ [switch]) arguments.paths] using gathered.settings
      · simpa [has_with (arguments.switches ++ [switch]) arguments.paths] using gathered.given
      · refine gathered.once_concat fun first hfirst hrepeats => hfresh ?_
        cases first <;> cases hrepeats
        exact List.contains_iff_mem.mpr ((gathered.switches switch).mpr hfirst)
      · simp [gathered.paths, Part.path?]
  | setting setting value =>
    have assigned := assigned_of_set h
    have hfresh : ∀ word, .setting setting word ∉ parts := fun word hmem => by
      cases assigned.fresh.symm.trans (has_of_holds (gathered.settings _ _ hmem))
    refine ⟨assigned.direction.trans gathered.direction, ?_, ?_, ?_, ?_, ?_,
      assigned.paths ▸ gathered.room⟩
    · simpa [assigned.switches] using gathered.switches
    · intro other word hmem
      rcases List.mem_append.mp hmem with hbefore | hlast
      · have hne : other ≠ setting := by
          rintro rfl
          exact hfresh word hbefore
        exact ((assigned.kept other hne).2 word).mpr (gathered.settings other word hbefore)
      · cases List.mem_singleton.mp hlast
        exact assigned.holds
    · intro other hhas
      by_cases hother : other = setting
      · subst hother
        exact ⟨value, List.mem_append_right _ (List.mem_singleton_self _)⟩
      · rw [(assigned.kept other hother).1] at hhas
        obtain ⟨word, hmem⟩ := gathered.given other hhas
        exact ⟨word, List.mem_append_left _ hmem⟩
    · refine gathered.once_concat fun first hfirst hrepeats => ?_
      cases first <;> cases hrepeats
      exact hfresh _ hfirst
    · simp [assigned.paths, gathered.paths, Part.path?]

theorem Gathered.addAll {more : List Part} (gathered : Gathered direction parts arguments)
    (h : more.foldlM Arguments.add arguments = .ok arguments') :
    Gathered direction (parts ++ more) arguments' := by
  induction more generalizing parts arguments with
  | nil =>
    cases h
    rwa [List.append_nil]
  | cons part rest ih =>
    obtain ⟨middle, hadd, hrest⟩ := addAll_cons_iff.mp h
    rw [List.append_cons]
    exact ih (gathered.add hadd) hrest

/-- A command line that is accepted spells parts, of which one or two are paths. -/
theorem exists_commands_of_parse {words : List String} (h : parse words = .ok arguments) :
    ∃ direction parts input, ∃ output? : Option String, Commands words direction parts ∧
      Gathered direction parts arguments ∧
      parts.filterMap Part.path? = input :: output?.toList := by
  unfold parse at h
  split at h
  · cases h
  · rename_i first rest
    split at h
    · rename_i direction hdirection
      obtain ⟨progress, hwords, h⟩ := Parsing.bind_eq_ok_iff.mp h
      obtain ⟨progress', hcomplete, h⟩ := Parsing.bind_eq_ok_iff.mp h
      obtain ⟨parts, spells, hparts⟩ :=
        (Progress.leads_of_words (by rfl) hwords hcomplete).exists_parts rfl
      have gathered : Gathered direction parts progress'.arguments := by
        simpa using (gathered_nil direction).addAll hparts
      have commands : Commands (first :: rest) direction parts := by
        rcases direction_of_ofName? hdirection with ⟨rfl, rfl⟩ | ⟨rfl, rfl⟩
        · exact .encode spells
        · exact .decode spells
      split at h
      · cases h
      · rename_i hempty
        cases h
        have hroom := gathered.room
        rw [gathered.paths] at hempty hroom
        match hpaths : parts.filterMap Part.path? with
        | [] => simp [hpaths] at hempty
        | [input] => exact ⟨direction, parts, input, none, commands, gathered, hpaths⟩
        | [input, output] =>
          exact ⟨direction, parts, input, some output, commands, gathered, hpaths⟩
        | _ :: _ :: _ :: _ => simp [hpaths] at hroom
    · cases h

end Arguments

end BinaryXml
