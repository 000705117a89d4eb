import Mathlib.Data.List.TakeWhile
import BinaryXml.Proofs.CommandLine.Words

/-! # Command lines that are accepted

* `Acceptable parts`: no option is repeated, each value is one that its setting takes, and there are
  at most two paths.
* `Arguments.Progress.exists_complete_of_spells`: words that spell parts are read as these parts.
* `Arguments.exists_parse_of_commands`: a command line that spells acceptable parts, one of which is
  a path, is accepted.
-/

namespace BinaryXml

set_option autoImplicit false

/-- Parts that may stand together. -/
structure Acceptable (parts : List Part) : Prop where
  once : parts.Pairwise fun first second => ¬ first.Repeats second
  taken : ∀ setting value, .setting setting value ∈ parts → setting.Takes value
  room : (parts.filterMap Part.path?).length ≤ 2

/-! ## Options by their names -/

section Names
variable {direction : Direction}

theorem NamedOption.find?_switch {switch : Switch} (belongs : switch.Belongs direction) :
    find? direction switch.name = some (.switch switch) := by
  cases switch <;> cases direction <;> first | rfl | cases belongs

theorem NamedOption.find?_setting {setting : Setting} (belongs : setting.Belongs direction) :
    find? direction setting.name = some (.setting setting) := by
  cases setting <;> cases direction <;> first | rfl | cases belongs

theorem Switch.name_spec (switch : Switch) :
    '=' ∉ switch.name.toList ∧ switch.name.toList ≠ [] := by
  cases switch <;> decide

theorem Setting.name_spec (setting : Setting) :
    '=' ∉ setting.name.toList ∧ setting.name.toList ≠ [] := by
  cases setting <;> decide

theorem OpaqueEncoding.exists_ofName?_iff {name : String} :
    (∃ encoding, ofName? name = some encoding) ↔ name = "base64" ∨ name = "hex" := by
  constructor
  · rintro ⟨encoding, h⟩
    unfold ofName? at h
    split at h <;> cases h <;> simp
  · rintro (rfl | rfl) <;> exact ⟨_, rfl⟩

theorem Charset.exists_ofName?_iff {name : String} :
    (∃ charset, ofName? name = some charset) ↔
      name = "utf-8" ∨ name = "us-ascii" ∨ name = "iso-8859-1" := by
  constructor
  · rintro ⟨charset, h⟩
    unfold ofName? at h
    split at h <;> cases h <;> simp
  · rintro (rfl | rfl | rfl) <;> exact ⟨_, rfl⟩

theorem Language.exists_find?_iff {name : String} :
    (∃ language, find? name = some language) ↔
      ∃ language ∈ builtIn, Namespace.lowerAscii language.name = Namespace.lowerAscii name := by
  rw [← Option.isSome_iff_exists, find?, List.find?_isSome]
  simp only [beq_iff_eq]

end Names

namespace Arguments

/-! ## Adding acceptable parts -/

variable {arguments last : Arguments} {direction : Direction} {parts : List Part}

theorem takes_of_holds {setting : Setting} {value : String} (h : arguments.Holds setting value) :
    setting.Takes value := by
  cases setting with
  | opaqueEncoding => exact OpaqueEncoding.exists_ofName?_iff.mp (h.imp fun _ => And.left)
  | language => exact Language.exists_find?_iff.mp (h.imp fun _ => And.left)
  | indent => exact h.imp fun _ => And.left
  | charset => exact Charset.exists_ofName?_iff.mp (h.imp fun _ => And.left)

theorem Gathered.acceptable (gathered : Gathered direction parts arguments) :
    Acceptable parts where
  once := gathered.once
  taken := fun setting value hmem => takes_of_holds (gathered.settings setting value hmem)
  room := gathered.paths ▸ gathered.room

theorem exists_of_given {α : Type} {rejection : Rejection} {found : Option α}
    (next : Option α → Arguments) (h : ∃ value, found = some value) :
    ∃ arguments', (given rejection found >>= fun chosen => pure (next chosen)) =
      .ok arguments' := by
  obtain ⟨value, rfl⟩ := h
  exact ⟨next (some value), rfl⟩

theorem exists_set {setting : Setting} {value : String} (fresh : arguments.has setting = false)
    (taken : setting.Takes value) : ∃ arguments', arguments.set setting value = .ok arguments' := by
  unfold set
  rw [fresh]
  cases setting with
  | opaqueEncoding => exact exists_of_given _ (OpaqueEncoding.exists_ofName?_iff.mpr taken)
  | language => exact exists_of_given _ (Language.exists_find?_iff.mpr taken)
  | indent => exact exists_of_given _ taken
  | charset => exact exists_of_given _ (Charset.exists_ofName?_iff.mpr taken)

theorem Gathered.exists_add {part : Part} (gathered : Gathered direction parts arguments)
    (acceptable : Acceptable (parts ++ [part])) :
    ∃ arguments', arguments.add part = .ok arguments' := by
  have hrepeats : ∀ first ∈ parts, ¬ first.Repeats part := fun first hfirst =>
    (List.pairwise_append.mp acceptable.once).2.2 first hfirst part (List.mem_singleton_self part)
  cases part with
  | path path =>
    have hroom := acceptable.room
    rw [List.filterMap_append, List.length_append, ← gathered.paths] at hroom
    exact ⟨_, if_neg (Nat.not_le.mpr hroom)⟩
  | switch switch =>
    refine ⟨_, if_neg fun hmem => ?_⟩
    exact hrepeats _ ((gathered.switches switch).mp (List.contains_iff_mem.mp hmem)) rfl
  | setting setting value =>
    refine exists_set ?_ (acceptable.taken setting value
      (List.mem_append_right _ (List.mem_singleton_self _)))
    cases hhas : arguments.has setting with
    | false => rfl
    | true =>
      obtain ⟨word, hmem⟩ := gathered.given setting hhas
      exact absurd rfl (hrepeats _ hmem)

theorem Acceptable.front {more : List Part} (h : Acceptable (parts ++ more)) :
    Acceptable parts where
  once := (List.pairwise_append.mp h.once).1
  taken := fun setting value hmem => h.taken setting value (List.mem_append_left _ hmem)
  room := by
    have hroom := h.room
    rw [List.filterMap_append, List.length_append] at hroom
    omega

theorem Gathered.exists_addAll {more : List Part} (gathered : Gathered direction parts arguments)
    (acceptable : Acceptable (parts ++ more)) :
    ∃ last, more.foldlM Arguments.add arguments = .ok last := by
  induction more generalizing parts arguments with
  | nil => exact ⟨arguments, rfl⟩
  | cons part rest ih =>
    rw [List.append_cons] at acceptable
    obtain ⟨middle, hadd⟩ := gathered.exists_add (Acceptable.front acceptable)
    obtain ⟨last, hrest⟩ := ih (gathered.add hadd) acceptable
    exact ⟨last, addAll_cons_iff.mpr ⟨middle, hadd, hrest⟩⟩

/-! ## Reading words that spell parts -/

namespace Progress

variable {progress done : Progress} {word : String}

theorem of_complete_with (h : progress.complete = .ok done) (arguments : Arguments) :
    { done with arguments : Progress }.pathsOnly = progress.pathsOnly ∧
      { done with arguments : Progress }.complete = .ok { done with arguments } := by
  obtain ⟨hsettled, hsame, -⟩ := of_complete h
  exact ⟨hsame, complete_of_settled hsettled⟩

theorem path_of_add {arguments : Arguments} (hcomplete : progress.complete = .ok done)
    (hadd : done.arguments.add (.path word) = .ok arguments) :
    progress.path word = .ok { done with arguments } := by
  rw [add, (of_complete hcomplete).2.2] at hadd
  split at hadd
  · cases hadd
  · rename_i hroom
    cases hadd
    unfold Progress.path
    rw [if_neg hroom]
    exact Parsing.bind_eq_ok_iff.mpr ⟨done, hcomplete, by rw [← (of_complete hcomplete).2.2]; rfl⟩

theorem switch_of_turnOn {switch : Switch} {arguments : Arguments}
    (hcomplete : progress.complete = .ok done)
    (hon : done.arguments.turnOn switch = .ok arguments) :
    progress.switch switch = .ok { done with arguments } :=
  Parsing.bind_eq_ok_iff.mpr ⟨done, hcomplete, Parsing.bind_eq_ok_iff.mpr ⟨arguments, hon, rfl⟩⟩

theorem takeWhile_of_notMem {name : List Char} (h : '=' ∉ name) (rest : List Char) :
    (name ++ '=' :: rest).takeWhile (· != '=') = name ∧ name.takeWhile (· != '=') = name := by
  have hname : ∀ c ∈ name, (c != '=') = true := fun c hc =>
    bne_iff_ne.mpr fun heq => h (heq ▸ hc)
  constructor
  · rw [List.takeWhile_append_of_pos hname, List.takeWhile_cons_of_neg (by simp), List.append_nil]
  · exact List.takeWhile_eq_self_iff.mpr hname

theorem long_switch {switch : Switch} (belongs : switch.Belongs direction) :
    progress.long direction switch.name.toList = progress.switch switch := by
  unfold Progress.long
  simp only [(takeWhile_of_notMem switch.name_spec.1 []).2, List.drop_length, List.tail?_nil,
    Option.map_none, String.ofList_toList, NamedOption.find?_switch belongs]

theorem long_setting {setting : Setting} (belongs : setting.Belongs direction)
    (hcomplete : progress.complete = .ok done) :
    progress.long direction setting.name.toList =
      .ok { done with pending := some { setting } } := by
  unfold Progress.long
  simp only [(takeWhile_of_notMem setting.name_spec.1 []).2, List.drop_length, List.tail?_nil,
    Option.map_none, String.ofList_toList, NamedOption.find?_setting belongs]
  exact Parsing.bind_eq_ok_iff.mpr ⟨done, hcomplete, rfl⟩

theorem long_joined {setting : Setting} {value : String} {arguments : Arguments}
    (belongs : setting.Belongs direction) (hcomplete : progress.complete = .ok done)
    (hset : done.arguments.set setting value = .ok arguments) :
    progress.long direction (setting.name.toList ++ '=' :: value.toList) =
      .ok { done with arguments } := by
  unfold Progress.long
  simp only [(takeWhile_of_notMem setting.name_spec.1 value.toList).1, List.drop_left,
    List.tail?_cons, Option.map_some, String.ofList_toList, NamedOption.find?_setting belongs]
  exact Parsing.bind_eq_ok_iff.mpr ⟨done, hcomplete,
    Parsing.bind_eq_ok_iff.mpr ⟨arguments, hset, rfl⟩⟩

/-- A word behind two dashes that is not empty is read as a long option. -/
theorem word_long {characters : List Char} (hopen : progress.pathsOnly = false)
    (hword : word.toList = '-' :: '-' :: characters) (hne : characters ≠ []) :
    progress.word direction word = progress.long direction characters := by
  obtain ⟨c, rest, rfl⟩ := List.exists_cons_of_ne_nil hne
  unfold Progress.word
  rw [if_neg (ne_true_of_eq_false hopen), hword]
  rfl

theorem word_plain (hopen : progress.pathsOnly = false) (plain : IsPlain word) :
    progress.word direction word =
      match progress.pending with
      | some ⟨setting, none⟩ => .ok { progress with pending := some ⟨setting, some word⟩ }
      | _ => progress.path word := by
  unfold Progress.word
  rw [if_neg (ne_true_of_eq_false hopen)]
  rcases plain with rfl | hfirst
  · rfl
  · have hshape : ∀ rest, word.toList ≠ '-' :: rest := fun rest heq => hfirst (by rw [heq]; rfl)
    split
    · exact absurd ‹_› (hshape _)
    · exact absurd ‹_› (hshape _)
    · exact absurd ‹_› (hshape _)
    · rfl

theorem word_of_isWord {part : Part} {arguments : Arguments} (hopen : progress.pathsOnly = false)
    (hcomplete : progress.complete = .ok done) (spelled : part.IsWord direction word)
    (hadd : done.arguments.add part = .ok arguments) :
    progress.word direction word = .ok { done with arguments } := by
  cases spelled with
  | path plain =>
    rw [word_plain hopen plain, ← path_of_add hcomplete hadd]
    split
    · rename_i hpending
      exact absurd hcomplete (complete_ne_ok hpending)
    · rfl
  | inPlace =>
    have hshort : progress.word direction "-i" = progress.short ['i'] := by
      unfold Progress.word
      rw [if_neg (ne_true_of_eq_false hopen)]
      rfl
    rw [hshort]
    exact Parsing.bind_eq_ok_iff.mpr ⟨_, switch_of_turnOn hcomplete hadd, rfl⟩
  | @switch switch belongs =>
    rw [word_long hopen (String.toList_append ..) switch.name_spec.2, long_switch belongs]
    exact switch_of_turnOn hcomplete hadd
  | @setting setting value belongs =>
    have hword : ("--" ++ setting.name ++ "=" ++ value).toList =
        '-' :: '-' :: (setting.name.toList ++ '=' :: value.toList) := by
      simp
    rw [word_long hopen hword (by simp)]
    exact long_joined belongs hcomplete hadd

/-- A setting whose value is the next word. -/
theorem words_setting {setting : Setting} {value : String} {arguments : Arguments}
    (hopen : progress.pathsOnly = false) (hcomplete : progress.complete = .ok done)
    (belongs : setting.Belongs direction) (plain : IsPlain value)
    (hset : done.arguments.set setting value = .ok arguments) (words : List String) :
    ∃ next : Progress, next.pathsOnly = false ∧
      next.complete = .ok { done with arguments, pending := none } ∧
      (("--" ++ setting.name) :: value :: words).foldlM (Progress.word direction) progress =
        words.foldlM (Progress.word direction) next := by
  have hsame : done.pathsOnly = false := (of_complete hcomplete).2.1.trans hopen
  refine ⟨{ done with pending := some ⟨setting, some value⟩ }, hsame,
    complete_of_value rfl hset, ?_⟩
  rw [List.foldlM_cons, word_long hopen (String.toList_append ..) setting.name_spec.2,
    long_setting belongs hcomplete]
  have hvalue : Progress.word direction { done with pending := some { setting } } value =
      .ok { done with pending := some ⟨setting, some value⟩ } :=
    word_plain hsame plain
  change (value :: words).foldlM (Progress.word direction)
    { done with pending := some { setting } } = _
  rw [List.foldlM_cons, hvalue]
  rfl

theorem exists_complete_of_paths {words : List String} {last : Arguments}
    (hpaths : progress.pathsOnly = true) (hcomplete : progress.complete = .ok done)
    (hadd : (words.map Part.path).foldlM add done.arguments = .ok last) :
    ∃ middle final, words.foldlM (Progress.word direction) progress = .ok middle ∧
      middle.complete = .ok final ∧ final.arguments = last := by
  induction words generalizing progress done with
  | nil =>
    cases hadd
    exact ⟨progress, done, rfl, hcomplete, rfl⟩
  | cons word rest ih =>
    obtain ⟨arguments, hfirst, hrest⟩ := addAll_cons_iff.mp hadd
    obtain ⟨hsame, hsettled⟩ := of_complete_with hcomplete arguments
    obtain ⟨middle, final, hwords, hlast⟩ := ih (hsame.trans hpaths) hsettled hrest
    have hword : progress.word direction word = .ok { done with arguments } := by
      unfold Progress.word
      rw [if_pos hpaths, path_of_add hcomplete hfirst]
    exact ⟨middle, final, Parsing.bind_eq_ok_iff.mpr ⟨_, hword, hwords⟩, hlast⟩

/-- Words that spell parts are read as these parts, if the parts can be added one by one. -/
theorem exists_complete_of_spells {words : List String} {last : Arguments}
    (spells : Spells direction parts words) (hopen : progress.pathsOnly = false)
    (hcomplete : progress.complete = .ok done)
    (hadd : parts.foldlM add done.arguments = .ok last) :
    ∃ middle final, words.foldlM (Progress.word direction) progress = .ok middle ∧
      middle.complete = .ok final ∧ final.arguments = last := by
  induction spells generalizing progress done with
  | nil =>
    cases hadd
    exact ⟨progress, done, rfl, hcomplete, rfl⟩
  | word first _ ih =>
    obtain ⟨arguments, hfirst, hrest⟩ := addAll_cons_iff.mp hadd
    obtain ⟨hsame, hsettled⟩ := of_complete_with hcomplete arguments
    obtain ⟨middle, final, hwords, hlast⟩ := ih (hsame.trans hopen) hsettled hrest
    exact ⟨middle, final,
      Parsing.bind_eq_ok_iff.mpr ⟨_, word_of_isWord hopen hcomplete first hfirst, hwords⟩, hlast⟩
  | setting belongs plain _ ih =>
    obtain ⟨arguments, hfirst, hrest⟩ := addAll_cons_iff.mp hadd
    obtain ⟨next, hnext, hvalue, hwords⟩ :=
      words_setting hopen hcomplete belongs plain hfirst _
    rw [hwords]
    exact ih hnext hvalue hrest
  | paths words =>
    have hcomplete' : { progress with pathsOnly := true : Progress }.complete =
        .ok { done with pathsOnly := true } := by
      rw [complete_pathsOnly, hcomplete]
      rfl
    have hmark : progress.word direction "--" = .ok { progress with pathsOnly := true } := by
      unfold Progress.word
      rw [if_neg (ne_true_of_eq_false hopen)]
      rfl
    obtain ⟨middle, final, hwords, hlast⟩ :=
      exists_complete_of_paths rfl hcomplete' hadd
    exact ⟨middle, final, Parsing.bind_eq_ok_iff.mpr ⟨_, hmark, hwords⟩, hlast⟩

end Progress

/-! ## Whole command lines -/

/-- A command line that spells acceptable parts is accepted if one of them is a path, and what is
read of it is what these parts say. -/
theorem exists_parse_of_commands {words : List String} (commands : Commands words direction parts)
    (acceptable : Acceptable parts) (hpaths : parts.filterMap Part.path? ≠ []) :
    ∃ arguments, parse words = .ok arguments ∧ Gathered direction parts arguments := by
  obtain ⟨last, hadd⟩ :=
    (gathered_nil direction).exists_addAll (by simpa using acceptable)
  have gathered : Gathered direction parts last := by
    simpa using (gathered_nil direction).addAll hadd
  have hempty : ¬ last.paths.isEmpty = true := by
    rw [gathered.paths]
    simpa using hpaths
  refine ⟨last, ?_, gathered⟩
  have hparse : ∀ rest, Spells direction parts rest → parseSubcommand direction rest = .ok last := by
    intro rest spells
    have hstart : ({ arguments := { direction } } : Progress).complete =
        .ok { arguments := { direction } } :=
      rfl
    obtain ⟨middle, final, hwords, hlast, rfl⟩ :=
      Progress.exists_complete_of_spells spells rfl hstart hadd
    unfold parseSubcommand
    refine Parsing.bind_eq_ok_iff.mpr ⟨middle, hwords, ?_⟩
    refine Parsing.bind_eq_ok_iff.mpr ⟨final, hlast, ?_⟩
    rw [if_neg hempty]
  cases commands with
  | encode spells => exact hparse _ spells
  | decode spells => exact hparse _ spells

end Arguments

end BinaryXml
