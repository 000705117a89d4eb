import BinaryXml.CommandLine.Workspace
import BinaryXml.Proofs.CommandLine.Requests
import BinaryXml.Proofs.Stream.RoundTrip

/-! # What a run leaves behind

* `Surroundings.Supplies`, `Surroundings.Opens` and `Surroundings.Received`: what a place gives when
  it is read, when it can be written, and what is around a run after that.
* `Action.follow_cases`: a plan that fails has changed nothing, and one that succeeds has changed
  its sink only.
* `Request.perform_all_or_nothing`: a command line is accepted if it asks for something, and does all
  that it asks for, or nothing, whatever the file system and the files are.
-/

namespace BinaryXml

set_option autoImplicit false

/-! ## What a place supplies and receives -/

namespace Surroundings

variable {File : Type} [DecidableEq File] {surroundings : Surroundings File} {data : Bytes}

/-- What is read at a place. -/
inductive Supplies (surroundings : Surroundings File) : Place → Bytes → Prop where
  | standard : Supplies surroundings .standard surroundings.stdin
  | file {path : String} {file : File} {data : Bytes}
      (leads : surroundings.target path = .file file)
      (allowed : surroundings.readingFault? file = none)
      (there : surroundings.contents file = some data) : Supplies surroundings (.file path) data
  | input {path : String} (leads : surroundings.target path = .device .input) :
      Supplies surroundings (.file path) surroundings.stdin
  | empty {path : String} {device : Device} (leads : surroundings.target path = .device device)
      (other : device ≠ .input) : Supplies surroundings (.file path) []

/-- A place can be opened for writing. -/
inductive Opens (surroundings : Surroundings File) : Place → Prop where
  | standard : Opens surroundings .standard
  | file {path : String} {file : File} (leads : surroundings.target path = .file file)
      (allowed : surroundings.creatingFault? file = none) : Opens surroundings (.file path)
  | device {path : String} {device : Device} (leads : surroundings.target path = .device device) :
      Opens surroundings (.file path)

/-- A place has received some bytes, and nothing else has changed. A file has them in place of what
was there before. -/
inductive Received (before : Surroundings File) (data : Bytes) :
    Place → Surroundings File → Prop where
  | standard : Received before data .standard { before with stdout := before.stdout ++ data }
  | file {path : String} {file : File} {after : Surroundings File}
      (leads : before.target path = .file file)
      (same : after = { before with files := after.files })
      (files : ∀ other, after.contents other =
        if other = file then some data else before.contents other) :
      Received before data (.file path) after
  | output {path : String} (leads : before.target path = .device .output) :
      Received before data (.file path) { before with stdout := before.stdout ++ data }
  | lost {path : String} {device : Device} (leads : before.target path = .device device)
      (other : device ≠ .output) : Received before data (.file path) before

theorem readFile_eq_ok_iff {file : File} :
    surroundings.readFile file = .ok data ↔
      surroundings.readingFault? file = none ∧ surroundings.contents file = some data := by
  unfold readFile
  cases surroundings.readingFault? file with
  | some fault => exact ⟨nofun, nofun⟩
  | none => cases surroundings.contents file <;> simp

theorem read_eq_ok_iff {place : Place} :
    surroundings.read place = .ok data ↔ surroundings.Supplies place data := by
  cases place with
  | standard =>
    constructor
    · rintro ⟨⟩
      exact .standard
    · rintro ⟨⟩
      rfl
  | file path =>
    have hread : surroundings.read (.file path) = .ok data ↔
        surroundings.readPath path = .ok data := by
      rw [read]
      cases surroundings.readPath path <;> simp [Except.mapError]
    rw [hread, readPath]
    constructor
    · intro h
      cases hleads : surroundings.target path with
      | file file =>
        rw [hleads] at h
        obtain ⟨allowed, there⟩ := readFile_eq_ok_iff.mp h
        exact .file hleads allowed there
      | device device =>
        rw [hleads] at h
        cases device <;> cases h
        · exact .empty hleads nofun
        · exact .input hleads
        · exact .empty hleads nofun
      | closed reading creating =>
        rw [hleads] at h
        cases h
    · rintro (_ | ⟨leads, allowed, there⟩ | leads | ⟨leads, other⟩)
      · rw [leads]
        exact readFile_eq_ok_iff.mpr ⟨allowed, there⟩
      · rw [leads]
      · rw [leads]
        rename_i device
        cases device <;> first | rfl | exact absurd rfl other

theorem lookup_replace (file other : File) (data : Bytes) (files : List (File × Bytes)) :
    (replace file data files).lookup other =
      if other = file then some data else files.lookup other := by
  induction files with
  | nil =>
    rw [replace, List.lookup_cons, List.lookup_nil]
    split <;> simp_all
  | cons first rest ih =>
    obtain ⟨found, old⟩ := first
    rw [replace]
    by_cases hfound : found = file
    · rw [if_pos hfound, List.lookup_cons, List.lookup_cons]
      subst hfound
      split <;> simp_all
    · rw [if_neg hfound, List.lookup_cons, List.lookup_cons, ih]
      split <;> simp_all

/-- What has been opened receives just what is written next: a file is empty when it is opened. -/
theorem received_of_create {path : String} {sink : Sink File} {opened : Surroundings File}
    (h : surroundings.create path = .ok (sink, opened)) (data : Bytes) :
    surroundings.Opens (.file path) ∧
      surroundings.Received data (.file path) (opened.append data sink) := by
  unfold create at h
  cases hleads : surroundings.target path with
  | file file =>
    rw [hleads] at h
    cases hfault : surroundings.creatingFault? file with
    | some fault => simp [hfault] at h
    | none =>
      simp only [hfault] at h
      cases h
      refine ⟨.file hleads hfault, .file hleads rfl fun other => ?_⟩
      -- The file is replaced twice, once by nothing and then by the bytes.
      simp only [append, contents, lookup_replace, if_true, Option.getD_some, List.nil_append]
      split <;> rfl
  | device device =>
    rw [hleads] at h
    cases device <;> cases h
    · exact ⟨.device hleads, .lost hleads nofun⟩
    · exact ⟨.device hleads, .lost hleads nofun⟩
    · exact ⟨.device hleads, .output hleads⟩
  | closed reading creating =>
    rw [hleads] at h
    cases h

theorem not_opens_of_create {path : String} {fault : FileFault}
    (h : surroundings.create path = .error fault) : ¬ surroundings.Opens (.file path) := by
  unfold create at h
  rintro (_ | ⟨leads, allowed⟩ | leads)
  · rw [leads] at h
    simp [allowed] at h
  · rw [leads] at h
    rename_i device
    cases device <;> cases h

end Surroundings

/-! ## Plans -/

namespace Action

variable {File : Type} [DecidableEq File]

theorem convert_cases (plan : Plan) (session : Session File) :
    (∃ text data last, session.surroundings.Supplies plan.source text ∧
      (plan.converter.convert text).result = .ok data ∧
      convert plan session = .ok data last ∧ last.surroundings = session.surroundings) ∨
    (∀ text data, session.surroundings.Supplies plan.source text →
      (plan.converter.convert text).result ≠ .ok data) ∧
      ∃ error last, convert plan session = .error error last ∧
        last.surroundings = session.surroundings := by
  simp only [← Surroundings.read_eq_ok_iff]
  unfold convert Plan.convert
  cases hread : session.surroundings.read plan.source with
  | error fault => exact .inr ⟨nofun, fault, _, rfl, rfl⟩
  | ok text =>
    dsimp only
    cases hresult : (plan.converter.convert text).result with
    | ok data => exact .inl ⟨text, data, _, rfl, hresult, rfl, rfl⟩
    | error fault =>
      refine .inr ⟨?_, fault, _, rfl, rfl⟩
      rintro _ data ⟨⟩ hok
      rw [hresult] at hok
      cases hok

theorem create_cases (place : Place) (session : Session File) :
    session.surroundings.Opens place ∧ (∃ sink last, create place session = .ok sink last ∧
      ∀ data, session.surroundings.Received data place (last.surroundings.append data sink)) ∨
    ¬ session.surroundings.Opens place ∧ ∃ error, create place session = .error error session := by
  cases place with
  | standard => exact .inl ⟨.standard, .output, session, rfl, fun data => .standard⟩
  | file path =>
    unfold create
    dsimp only
    cases hcreate : session.surroundings.create path with
    | ok opened =>
      obtain ⟨sink, surroundings⟩ := opened
      have hreceived := Surroundings.received_of_create hcreate
      exact .inl ⟨(hreceived []).1, sink, _, rfl, fun data => (hreceived data).2⟩
    | error fault => exact .inr ⟨Surroundings.not_opens_of_create hcreate, .io fault, rfl⟩

/-- A plan is carried out whole, or it leaves the surroundings as they were. -/
theorem follow_cases (plan : Plan) (session : Session File) :
    (∃ text data last, session.surroundings.Supplies plan.source text ∧
      (plan.converter.convert text).result = .ok data ∧ session.surroundings.Opens plan.sink ∧
      follow plan session = .ok () last ∧
      session.surroundings.Received data plan.sink last.surroundings) ∨
    (∀ text data, session.surroundings.Supplies plan.source text →
      (plan.converter.convert text).result = .ok data → ¬ session.surroundings.Opens plan.sink) ∧
      ∃ error last, follow plan session = .error error last ∧
        last.surroundings = session.surroundings := by
  rcases convert_cases plan session with ⟨text, data, middle, hread, hresult, hconvert, hsame⟩ |
    ⟨hnone, error, last, hconvert, hsame⟩
  · -- Nothing has been touched so far, so the place is opened in the surroundings of the start.
    rcases create_cases plan.sink middle with ⟨hopens, sink, opened, hcreate, hreceived⟩ |
      ⟨hclosed, error, hcreate⟩
    · refine .inl ⟨text, data, { opened with surroundings := opened.surroundings.append data sink },
        hread, hresult, hsame ▸ hopens, ?_, hsame ▸ hreceived data⟩
      rw [follow, bind_of_ok hconvert, bind_of_ok hcreate]
      rfl
    · refine .inr ⟨fun _ _ _ _ => hsame ▸ hclosed, error, middle, ?_, hsame⟩
      rw [follow, bind_of_ok hconvert, bind_of_error hcreate]
  · refine .inr ⟨fun text data hread hresult => absurd hresult (hnone text data hread), error, last,
      ?_, hsame⟩
    rw [follow, bind_of_error hconvert]

end Action

/-! ## Command lines -/

namespace Request

variable {words : List String} {arguments : Arguments}

/-- The command lines that are accepted are those that ask for something, and each of them is carried
out whole or not at all, whatever is around it. Either what the input supplies has been converted as
the command line asks, and the one place for the output has received all that came of it; or nothing
has changed. The first happens just when the input can be read and converted and the output can be
opened. -/
theorem perform_all_or_nothing (words : List String) :
    ((∃ arguments, Arguments.parse words = .ok arguments) ↔ Nonempty (Request words)) ∧
    ∀ arguments, Arguments.parse words = .ok arguments → ∀ request : Request words,
      ∀ {File : Type} [DecidableEq File] (before : Surroundings File),
      (∀ error session,
        Action.perform arguments { surroundings := before } = .error error session →
          session.surroundings = before) ∧
      (∀ session, Action.perform arguments { surroundings := before } = .ok () session →
        ∃ text data, before.Supplies request.source text ∧ request.convert text = .ok data ∧
          before.Received data request.sink session.surroundings) ∧
      ((∃ session, Action.perform arguments { surroundings := before } = .ok () session) ↔
        request.Possible ∧ before.Opens request.sink ∧
          ∃ text data, before.Supplies request.source text ∧ request.convert text = .ok data) := by
  refine ⟨⟨fun ⟨_, hparse⟩ => nonempty_of_parse hparse, fun ⟨request⟩ => ?_⟩, ?_⟩
  · obtain ⟨arguments, hparse, -⟩ := request.exists_plan
    exact ⟨arguments, hparse⟩
  intro arguments hparse request File _ before
  obtain ⟨arguments', hparse', converter, hconvert, hplan⟩ := request.exists_plan
  cases hparse.symm.trans hparse'
  simp only [hconvert, Action.perform, hplan]
  by_cases hpossible : request.Possible
  · simp only [if_pos hpossible]
    rcases Action.follow_cases ⟨converter, request.source, request.sink⟩
        { surroundings := before } with
      ⟨text, data, last, hread, hresult, hopens, hfollow, hreceived⟩ |
      ⟨hnone, error, last, hfollow, hsame⟩
    · rw [hfollow]
      refine ⟨nofun, ?_, ?_⟩
      · rintro _ ⟨⟩
        exact ⟨text, data, hread, hresult, hreceived⟩
      · exact ⟨fun _ => ⟨hpossible, hopens, text, data, hread, hresult⟩, fun _ => ⟨last, rfl⟩⟩
    · rw [hfollow]
      refine ⟨?_, nofun, nofun, ?_⟩
      · rintro _ _ ⟨⟩
        exact hsame
      · rintro ⟨-, hopens, text, data, hread, hresult⟩
        exact absurd hopens (hnone text data hread hresult)
  · simp only [if_neg hpossible]
    refine ⟨?_, nofun, nofun, fun hall => absurd hall.1 hpossible⟩
    rintro _ _ ⟨⟩
    rfl

/-- A stream in a directory below that of the run, and a file of its name in another directory. -/
def mailbox : Workspace where
  system := DirectoryTree.system { DirectoryTree.standard with
    directories := ["tmp", "wbxml", "mail"] :: DirectoryTree.standard.directories }
  files := [(⟨["tmp", "wbxml", "mail"], "sync.wbxml"⟩, [0x03, 0x01, 0x6A, 0x00, 0x05]),
    (⟨["tmp"], "sync.wbxml"⟩, [0x61])]

/-- The request to decode the stream in place, with the options as they are by default. -/
def mailboxRequest : Request ["decode", "-i", "mail/sync.wbxml"] where
  direction := .decode
  parts := [.switch .inPlace, .path "mail/sync.wbxml"]
  commands := .decode (.word .inPlace (.word (.path (.inr (by decide))) .nil))
  acceptable := by
    refine ⟨?_, ?_, by decide⟩
    · simp [Part.Repeats]
    · simp
  convert := decode {}
  asks := by
    refine .decode ⟨⟨?_, fun _ => rfl, ?_, ?_, rfl⟩, ?_, ?_, fun _ => rfl, ?_, ?_⟩ <;> simp
  input := "mail/sync.wbxml"
  output? := none
  paths := rfl
  source := .file "mail/sync.wbxml"
  isSource := .file (by decide)
  sink := .file "mail/sync.wbxml"
  isSink := .inPlace (by decide) (.file (by decide))

/-- What the stream says. -/
def syncText : Bytes :=
  Utf8.encode ("<?xml version=\"1.0\"?><!DOCTYPE ActiveSync PUBLIC " ++
    "\"-//MICROSOFT//DTD ActiveSync//EN\" \"http://www.microsoft.com/\"><Sync xmlns=\"AirSync:\"/>")

/-- In place, a stream makes room for what it says, and the other file stays as it is. -/
theorem perform_mailbox :
    let arguments : Arguments :=
      { direction := some .decode, switches := [.inPlace], paths := ["mail/sync.wbxml"] }
    Arguments.parse ["decode", "-i", "mail/sync.wbxml"] = .ok arguments ∧ ∃ session,
      Action.perform arguments { surroundings := mailbox } = .ok () session ∧
      (∃ text data, mailbox.Supplies mailboxRequest.source text ∧ decode {} text = .ok data ∧
        mailbox.Received data mailboxRequest.sink session.surroundings) ∧
      session.surroundings.files = [(⟨["tmp", "wbxml", "mail"], "sync.wbxml"⟩, syncText),
        (⟨["tmp"], "sync.wbxml"⟩, [0x61])] := by
  intro arguments
  have hparse : Arguments.parse ["decode", "-i", "mail/sync.wbxml"] = .ok arguments := by rfl
  have hfiles : (mailbox.run arguments).result.map (·.files) =
      .ok [(⟨["tmp", "wbxml", "mail"], "sync.wbxml"⟩, syncText),
        (⟨["tmp"], "sync.wbxml"⟩, [0x61])] := by
    decide +kernel
  obtain ⟨-, hdone, -⟩ :=
    (perform_all_or_nothing _).2 arguments hparse mailboxRequest mailbox
  refine ⟨hparse, ?_⟩
  unfold Workspace.run at hfiles
  cases hperform : Action.perform arguments { surroundings := mailbox } with
  | ok value session =>
    rw [hperform] at hfiles
    exact ⟨session, rfl, hdone session hperform, Except.ok.inj hfiles⟩
  | error error session =>
    rw [hperform] at hfiles
    cases hfiles

end Request

end BinaryXml
