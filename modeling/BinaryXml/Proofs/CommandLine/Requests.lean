import Mathlib.Data.List.Nodup
import BinaryXml.CommandLine.Plan
import BinaryXml.Proofs.CommandLine.Acceptance

/-! # What a command line asks for

* `Asks direction parts convert`: the conversion that parts ask for, with the option that each of
  them sets and the value of every other option.
* `Asks.unique`: there is one such conversion.
* `Arguments.Gathered.asks`: the conversion that is made of a command line is the one that its parts
  ask for.
* `Request words`: all that the words of a command line ask for.
* `Request.nonempty_of_parse` and `Request.exists_plan`: the command lines that are accepted are
  those that ask for something, and this is what is planned for them.
-/

namespace BinaryXml

set_option autoImplicit false

/-! ## The conversion that is asked for -/

/-- The options that both directions have, as the parts of a command line ask for them. -/
structure AsksBoth (parts : List Part) (language : Language) (whitespace : Whitespace)
    (opaqueEncoding : OpaqueEncoding) (maxDepth : Nat) : Prop where
  named : ∀ name, .setting .language name ∈ parts → language ∈ Language.builtIn ∧
    Namespace.lowerAscii language.name = Namespace.lowerAscii name
  unnamed : (∀ name, .setting .language name ∉ parts) → language = ActiveSync.language
  strips : whitespace = .strip ↔ .switch .stripWhitespace ∈ parts
  isHex : opaqueEncoding = .hex ↔ .setting .opaqueEncoding "hex" ∈ parts
  maxDepth : maxDepth = 256

/-- The options for encoding that the parts of a command line ask for. -/
structure AsksEncoding (parts : List Part) (options : EncodeOptions) : Prop extends
    AsksBoth parts options.language options.whitespace options.opaqueEncoding options.maxDepth where
  version : options.version = 3
  publicId : options.includePublicId = true ↔ .switch .publicId ∈ parts
  stringTable : options.useStringTable = true ↔ .switch .stringTable ∈ parts

/-- The options for decoding that the parts of a command line ask for. -/
structure AsksDecoding (parts : List Part) (options : DecodeOptions) : Prop extends
    AsksBoth parts options.language options.whitespace options.opaqueEncoding options.maxDepth where
  isPretty : options.form = .pretty ↔ .switch .pretty ∈ parts
  indent : ∀ value, .setting .indent value ∈ parts →
    Numeral.read 10 0x10000000000000000 value.toList = some options.indent
  noIndent : (∀ value, .setting .indent value ∉ parts) → options.indent = 2
  isUsAscii : options.charset = .usAscii ↔ .setting .charset "us-ascii" ∈ parts
  isLatin1 : options.charset = .latin1 ↔ .setting .charset "iso-8859-1" ∈ parts

/-- The conversion that the parts of a command line ask for. -/
inductive Asks : Direction → List Part → (Bytes → Except Error Bytes) → Prop where
  | encode {parts : List Part} {options : EncodeOptions} (asked : AsksEncoding parts options) :
      Asks .encode parts (encode options)
  | decode {parts : List Part} {options : DecodeOptions} (asked : AsksDecoding parts options) :
      Asks .decode parts (decode options)

section Unique
variable {parts : List Part}

theorem Language.nodup_names :
    (builtIn.map fun language => Namespace.lowerAscii language.name).Nodup :=
  List.nodup_singleton _

theorem AsksBoth.unique {language language' : Language} {whitespace whitespace' : Whitespace}
    {opaqueEncoding opaqueEncoding' : OpaqueEncoding} {maxDepth maxDepth' : Nat}
    (first : AsksBoth parts language whitespace opaqueEncoding maxDepth)
    (second : AsksBoth parts language' whitespace' opaqueEncoding' maxDepth') :
    language = language' ∧ whitespace = whitespace' ∧ opaqueEncoding = opaqueEncoding' ∧
      maxDepth = maxDepth' := by
  have hstrip := first.strips.trans second.strips.symm
  have hhex := first.isHex.trans second.isHex.symm
  refine ⟨?_, ?_, ?_, first.maxDepth.trans second.maxDepth.symm⟩
  · by_cases hnamed : ∃ name, .setting .language name ∈ parts
    · obtain ⟨name, hmem⟩ := hnamed
      obtain ⟨hfirst, hname⟩ := first.named name hmem
      obtain ⟨hsecond, hname'⟩ := second.named name hmem
      exact List.inj_on_of_nodup_map Language.nodup_names hfirst hsecond (hname.trans hname'.symm)
    · have hunnamed := not_exists.mp hnamed
      exact (first.unnamed hunnamed).trans (second.unnamed hunnamed).symm
  · cases whitespace <;> cases whitespace' <;> simp_all
  · cases opaqueEncoding <;> cases opaqueEncoding' <;> simp_all

theorem AsksEncoding.unique {options options' : EncodeOptions}
    (first : AsksEncoding parts options) (second : AsksEncoding parts options') :
    options = options' := by
  have hboth := first.toAsksBoth.unique second.toAsksBoth
  have hversion := first.version.trans second.version.symm
  have hpublicId := Bool.eq_iff_iff.mpr (first.publicId.trans second.publicId.symm)
  have htable := Bool.eq_iff_iff.mpr (first.stringTable.trans second.stringTable.symm)
  cases options
  cases options'
  simp_all

theorem AsksDecoding.unique {options options' : DecodeOptions}
    (first : AsksDecoding parts options) (second : AsksDecoding parts options') :
    options = options' := by
  have hboth := first.toAsksBoth.unique second.toAsksBoth
  have hform : options.form = options'.form := by
    have hpretty := first.isPretty.trans second.isPretty.symm
    cases hfirst : options.form <;> cases hsecond : options'.form <;> simp_all
  have hcharset : options.charset = options'.charset := by
    have hascii := first.isUsAscii.trans second.isUsAscii.symm
    have hlatin := first.isLatin1.trans second.isLatin1.symm
    cases hfirst : options.charset <;> cases hsecond : options'.charset <;> simp_all
  have hindent : options.indent = options'.indent := by
    by_cases hgiven : ∃ value, .setting .indent value ∈ parts
    · obtain ⟨value, hmem⟩ := hgiven
      exact Option.some.inj ((first.indent value hmem).symm.trans (second.indent value hmem))
    · have hnone := not_exists.mp hgiven
      exact (first.noIndent hnone).trans (second.noIndent hnone).symm
  cases options
  cases options'
  simp_all

theorem Asks.unique {direction : Direction} {convert convert' : Bytes → Except Error Bytes}
    (first : Asks direction parts convert) (second : Asks direction parts convert') :
    convert = convert' := by
  cases first with
  | encode asked =>
    cases second with
    | encode asked' => rw [asked.unique asked']
  | decode asked =>
    cases second with
    | decode asked' => rw [asked.unique asked']

end Unique

theorem OpaqueEncoding.ofName?_eq_iff {name word : String} {encoding : OpaqueEncoding}
    (h : ofName? name = some encoding) : ofName? word = some encoding ↔ word = name := by
  refine ⟨fun hword => ?_, fun hword => hword ▸ h⟩
  unfold ofName? at h hword
  split at h <;> cases h <;> split at hword <;> cases hword <;> rfl

theorem Charset.ofName?_eq_iff {name word : String} {charset : Charset}
    (h : ofName? name = some charset) : ofName? word = some charset ↔ word = name := by
  refine ⟨fun hword => ?_, fun hword => hword ▸ h⟩
  unfold ofName? at h hword
  split at h <;> cases h <;> split at hword <;> cases hword <;> rfl

namespace Arguments

/-- A chosen value is another than the default just where it has been given by its name. -/
theorem getD_eq_iff {α : Type} {chosen : Option α} {default a : α} {name : String}
    {ofName? : String → Option α} {IsGiven : String → Prop}
    (hgiven : ∀ word, IsGiven word → ∃ b, ofName? word = some b ∧ chosen = some b)
    (hchosen : chosen.isSome = true → ∃ word, IsGiven word) (hne : default ≠ a)
    (hname : ∀ word, ofName? word = some a ↔ word = name) :
    chosen.getD default = a ↔ IsGiven name := by
  constructor
  · intro h
    cases hvalue : chosen with
    | none =>
      rw [hvalue] at h
      exact absurd h hne
    | some b =>
      obtain ⟨word, hword⟩ := hchosen (by rw [hvalue]; rfl)
      obtain ⟨c, hc, hsame⟩ := hgiven word hword
      rw [hsame, Option.getD_some] at h
      subst h
      rwa [← (hname word).mp hc]
  · intro hword
    obtain ⟨b, hb, hsame⟩ := hgiven name hword
    rw [hsame, Option.getD_some]
    exact Option.some.inj (hb.symm.trans ((hname name).mpr rfl))

theorem eq_none_of_not_given {α : Type} {chosen : Option α} {IsGiven : String → Prop}
    (hchosen : chosen.isSome = true → ∃ word, IsGiven word) (h : ∀ word, ¬ IsGiven word) :
    chosen = none := by
  rw [← Option.not_isSome_iff_eq_none]
  intro hsome
  obtain ⟨word, hword⟩ := hchosen hsome
  exact h word hword

namespace Gathered

variable {direction : Direction} {parts : List Part} {arguments : Arguments}
variable (gathered : Gathered direction parts arguments)
include gathered

theorem whitespace_eq_strip_iff :
    arguments.whitespace = .strip ↔ .switch .stripWhitespace ∈ parts := by
  rw [← gathered.switches, ← List.contains_iff_mem, whitespace]
  split <;> simp_all

theorem asksBoth : AsksBoth parts (arguments.language.getD ActiveSync.language)
    arguments.whitespace (arguments.opaqueEncoding.getD .base64) 256 where
  named := by
    intro name hmem
    obtain ⟨language, hfind, hlanguage⟩ := gathered.settings _ _ hmem
    rw [hlanguage, Option.getD_some]
    exact ⟨List.mem_of_find?_eq_some hfind, by simpa using List.find?_some hfind⟩
  unnamed := by
    intro h
    rw [eq_none_of_not_given (gathered.given .language) h]
    rfl
  strips := gathered.whitespace_eq_strip_iff
  isHex := getD_eq_iff (gathered.settings .opaqueEncoding) (gathered.given .opaqueEncoding) nofun
    fun _ => OpaqueEncoding.ofName?_eq_iff rfl
  maxDepth := rfl

theorem asksEncoding : AsksEncoding parts (arguments.converter .encode).encoder where
  toAsksBoth := gathered.asksBoth
  version := rfl
  publicId := List.contains_iff_mem.trans (gathered.switches .publicId)
  stringTable := List.contains_iff_mem.trans (gathered.switches .stringTable)

theorem asksDecoding : AsksDecoding parts (arguments.converter .decode).decoder where
  toAsksBoth := gathered.asksBoth
  isPretty := by
    rw [← gathered.switches, ← List.contains_iff_mem, converter]
    split <;> simp_all
  indent := by
    intro word hmem
    obtain ⟨indent, hread, hindent⟩ := gathered.settings _ _ hmem
    rw [converter, hindent, Option.getD_some]
    exact hread
  noIndent := by
    intro h
    rw [converter, eq_none_of_not_given (gathered.given .indent) h]
    rfl
  isUsAscii := getD_eq_iff (gathered.settings .charset) (gathered.given .charset) nofun
    fun _ => Charset.ofName?_eq_iff rfl
  isLatin1 := getD_eq_iff (gathered.settings .charset) (gathered.given .charset) nofun
    fun _ => Charset.ofName?_eq_iff rfl

/-- The conversion that is made of a command line is the one that its parts ask for. -/
theorem asks :
    Asks direction parts fun text => ((arguments.converter direction).convert text).result := by
  cases direction with
  | encode => exact .encode gathered.asksEncoding
  | decode => exact .decode gathered.asksDecoding

end Gathered

end Arguments

/-! ## Requests -/

/-- The place that a word names: a dash stands for the standard input or output. -/
inductive Place.Named : Place → String → Prop where
  | standard : Named .standard "-"
  | file {path : String} (h : path ≠ "-") : Named (.file path) path

theorem Place.named_ofWord (word : String) : (Place.ofWord word).Named word := by
  unfold ofWord
  split
  · rename_i h
    exact h ▸ .standard
  · exact .file ‹_›

/-- The place for the output: the output that is given, else the input if it is to be overwritten,
and else the standard output. -/
inductive Place.IsSink (parts : List Part) (input : String) : Option String → Place → Prop where
  | given {output : String} {place : Place} (named : place.Named output) :
      IsSink parts input (some output) place
  | inPlace {place : Place} (asked : .switch .inPlace ∈ parts) (named : place.Named input) :
      IsSink parts input none place
  | standard (h : .switch .inPlace ∉ parts) : IsSink parts input none .standard

theorem Place.Named.unique {place place' : Place} {word : String} (first : place.Named word)
    (second : place'.Named word) : place = place' := by
  cases first <;> cases second <;> first | rfl | contradiction

theorem Place.IsSink.unique {parts : List Part} {input : String} {output? : Option String}
    {place place' : Place} (first : place.IsSink parts input output?)
    (second : place'.IsSink parts input output?) : place = place' := by
  cases first with
  | given named =>
    cases second with
    | given named' => exact named.unique named'
  | inPlace asked named =>
    cases second with
    | inPlace _ named' => exact named.unique named'
    | standard h => exact absurd asked h
  | standard h =>
    cases second with
    | inPlace asked _ => exact absurd asked h
    | standard _ => rfl

theorem Place.isSink_planned {parts : List Part} {inPlace : Bool} {input : String}
    (hinPlace : inPlace = true ↔ .switch .inPlace ∈ parts) (output? : Option String) :
    IsSink parts input output? (match output? with
      | some output => .ofWord output
      | none => if inPlace then .ofWord input else .standard) := by
  cases output? with
  | some output => exact .given (named_ofWord output)
  | none =>
    cases inPlace with
    | true => exact .inPlace (hinPlace.mp rfl) (named_ofWord input)
    | false => exact .standard fun hasked => nomatch hinPlace.mpr hasked

/-- What the words of a command line ask for. -/
structure Request (words : List String) where
  direction : Direction
  parts : List Part
  commands : Commands words direction parts
  acceptable : Acceptable parts
  convert : Bytes → Except Error Bytes
  asks : Asks direction parts convert
  input : String
  output? : Option String
  paths : parts.filterMap Part.path? = input :: output?.toList
  source : Place
  isSource : source.Named input
  sink : Place
  isSink : sink.IsSink parts input output?

namespace Request

variable {words : List String} {arguments : Arguments}

/-- The standard input cannot be overwritten. -/
def Possible (request : Request words) : Prop :=
  ¬ (.switch .inPlace ∈ request.parts ∧ request.source = .standard)

instance (request : Request words) : Decidable request.Possible :=
  inferInstanceAs (Decidable (¬ _))

/-- A command line that is accepted asks for something. -/
theorem nonempty_of_parse (h : Arguments.parse words = .ok arguments) :
    Nonempty (Request words) := by
  obtain ⟨direction, parts, input, output?, commands, gathered, hpaths⟩ :=
    Arguments.exists_commands_of_parse h
  exact ⟨⟨direction, parts, commands, gathered.acceptable, _, gathered.asks, input, output?, hpaths,
    _, Place.named_ofWord input, _,
    Place.isSink_planned (List.contains_iff_mem.trans (gathered.switches .inPlace)) output?⟩⟩

/-- A command line that asks for something is accepted, and this is what is planned for it, if it
is possible. -/
theorem exists_plan (request : Request words) :
    ∃ arguments, Arguments.parse words = .ok arguments ∧ ∃ converter : Converter,
      request.convert = (fun text => (converter.convert text).result) ∧
      Plan.of arguments = if request.Possible then .ok ⟨converter, request.source, request.sink⟩
        else .error (.usage .inPlaceStdin) := by
  obtain ⟨direction, parts, commands, acceptable, convert, asks, input, output?, hpaths, source,
    isSource, sink, isSink⟩ := request
  obtain ⟨arguments, hparse, gathered⟩ :=
    Arguments.exists_parse_of_commands commands acceptable (by simp [hpaths])
  have hinPlace : arguments.switches.contains .inPlace = true ↔ .switch .inPlace ∈ parts :=
    List.contains_iff_mem.trans (gathered.switches .inPlace)
  obtain rfl := isSource.unique (Place.named_ofWord input)
  obtain rfl := isSink.unique (Place.isSink_planned hinPlace output?)
  refine ⟨arguments, hparse, arguments.converter direction, asks.unique gathered.asks, ?_⟩
  rw [Plan.of, gathered.direction, gathered.paths, hpaths]
  unfold Possible
  simp only [hinPlace, ite_not]
  cases output? <;> rfl

end Request

end BinaryXml
