import Mathlib.Data.List.Basic
import Restyle.Proofs.Addresses
import Restyle.Proofs.SystemStrings
import Restyle.Proofs.TidiedPaths
import Restyle.Proofs.Troubles

/-!
# How commands on a file end

The commands that read, set and list class names work on a file that is there. A text that does not parse is
put into words. A file that is no text is not, and neither is a value whose escapes name no characters; for
all else the commands do what they are asked for. The disk is another one only after a value has been set.
-/

namespace Restyle.Cli

open Disk Syntax

variable {d : Disk} {line words : List Word} {c : Command} {s : Sorted} {file tag value : Word}
  {source : List Char} {bytes : List UInt8}

/-- A command line that is taken for a command, whose words are sorted and fit it. -/
def Accepts (d : Disk) (line : List Word) (c : Command) (s : Sorted) : Prop :=
  ∃ general name words, sortWords generalUsage false line = some general ∧
    general.has "--version" = false ∧ general.has "--help" = false ∧
    general.positional = name :: words ∧ commandNamed name = some c ∧
    readWords c.usage d words = .ok s ∧ s.has "--help" = false

theorem readWords_eq_ok {u : Usage} (h : readWords u d words = .ok s) :
    sortWords u true words = some s ∧ checkArguments d u.arguments s.positional = .ok () := by
  rw [readWords] at h
  split at h
  · cases h
  · rename_i s' sorted
    obtain ⟨-, -, h⟩ := bind_eq_ok.mp h
    obtain ⟨_, arguments, same⟩ := bind_eq_ok.mp h
    cases pure_eq_ok.mp same
    exact ⟨sorted, arguments⟩

theorem Accepts.run (h : Accepts d line c s) : run d line = runChecked d c s := by
  obtain ⟨general, name, words, sorted, version, help, named, command, read, help'⟩ := h
  rw [Cli.run, sorted]
  simp only [version, help, named, command, runCommand, read, (readWords_eq_ok read).1, help',
    Bool.false_eq_true, if_false]

theorem length_of_checkArguments {types : List (String × ValueType)} {values : List Word}
    (h : checkArguments d types values = .ok ()) : values.length = types.length := by
  induction types generalizing values with
  | nil =>
      cases values with
      | nil => rfl
      | cons value values => cases h
  | cons type types ih =>
      cases values with
      | nil => cases h
      | cons value values =>
          obtain ⟨-, -, h⟩ := bind_eq_ok.mp h
          rw [List.length_cons, List.length_cons, ih h]

theorem Accepts.length (h : Accepts d line c s) :
    s.positional.length = c.usage.arguments.length := by
  obtain ⟨_, _, _, _, _, _, _, _, read, _⟩ := h
  exact length_of_checkArguments (readWords_eq_ok read).2

/-- A command ends with what it was asked for, or with a line that says why not. -/
def Outcome.Clean (o : Outcome) : Prop :=
  o.crash = none ∧
    (o.exitCode = 0 ∨ o.exitCode = 1 ∧ ∃ line, line ≠ [] ∧ o.stderr = line ++ ['\n'])

/-- That a file has been written is told with its name, which has to be text. -/
def Telling (file : Word) : Prop :=
  Text.IsText (fileName file)

/-- What a command needs: the file is text, and a value that is to be written can be, as the value of
an attribute whose name is text, in a file whose name can be told. -/
def Command.Copes (c : Command) (s : Sorted) (file : Word) (bytes : List UInt8) : Prop :=
  ∃ source, Text.decode bytes = .ok source ∧
    ∀ doc tag value, c = .set → s.positional = [file, tag, value] →
      Document.parse (dialectFor file) source = .ok doc → doc.locate (tagName tag) (ordinal s) ≠ [] →
      Value.Writable (dialectFor file) (Text.systemString value) ∧
        (∃ name, attributeString s = Text.ofChars name) ∧
        (s.has "--dry-run" = false → (doc.update (tagName tag) (Text.systemString value) (ordinal s)
          (attributeName s)).result ≠ .ok source → Telling file)

/-- The outcome for a text that does not parse. -/
def unparsed (reason : Refusal) : Outcome :=
  .failure ("Parse error: ".toList ++ reason.message)

theorem unparsed_clean (reason : Refusal) : (unparsed reason).Clean :=
  ⟨rfl, .inr ⟨rfl, _, List.append_ne_nil_of_left_ne_nil (by decide) _, rfl⟩⟩

theorem success_clean (text : List Char) : (Outcome.success text).Clean :=
  ⟨rfl, .inl rfl⟩

theorem crashed_not_clean (e : Trouble) : ¬ (Outcome.crashed e).Clean :=
  fun clean => nomatch clean.1

section File

variable (there : d.contents file = .ok bytes)
include there

theorem readText_ok (decoded : Text.decode bytes = .ok source) : readText d file = .ok source := by
  rw [readText, contents_tidied there]
  simp only [ofDisk_ok, ok_bind, decoded]
  rfl

theorem readText_error {flaw : Text.Malformed} (decoded : Text.decode bytes = .error flaw) :
    readText d file = .error (.text .notText) := by
  rw [readText, contents_tidied there]
  simp only [ofDisk_ok, ok_bind, decoded]
  rfl

end File

/-- What is known of a command that has been run: it has crashed, since it does not cope, or it has told
that the text does not parse, or it has succeeded. -/
inductive Ended (d : Disk) (c : Command) (s : Sorted) (file : Word) (bytes : List UInt8) :
    Disk × Outcome → Prop
  | crashed {e} (fails : ¬ c.Copes s file bytes) : Ended d c s file bytes (d, .crashed e)
  | untold {d' e} (fails : ¬ c.Copes s file bytes) (set : c = .set) (wet : s.has "--dry-run" = false)
      (name : ¬ Telling file) : Ended d c s file bytes (d', .crashed e)
  | unparsed {source reason} (copes : c.Copes s file bytes) (decoded : Text.decode bytes = .ok source)
      (refused : Document.parse (dialectFor file) source = .error (.refused reason)) :
      Ended d c s file bytes (d, unparsed reason)
  | success {d' text source doc} (copes : c.Copes s file bytes)
      (decoded : Text.decode bytes = .ok source)
      (parsed : Document.parse (dialectFor file) source = .ok doc)
      (kept : c ≠ .set ∨ s.has "--dry-run" → d' = d) : Ended d c s file bytes (d', .success text)

theorem not_copes_of_decode {flaw : Text.Malformed} (decoded : Text.decode bytes = .error flaw) :
    ¬ c.Copes s file bytes := by
  rintro ⟨source, decoded', -⟩
  rw [decoded] at decoded'
  cases decoded'

theorem copes_of_decode (decoded : Text.decode bytes = .ok source)
    (other : c ≠ .set) : c.Copes s file bytes :=
  ⟨source, decoded, fun _ _ _ set => absurd set other⟩

theorem copes_of_refused (decoded : Text.decode bytes = .ok source) {e : Failure}
    (refused : Document.parse (dialectFor file) source = .error e) : c.Copes s file bytes := by
  refine ⟨source, decoded, fun doc _ _ _ _ parsed _ => ?_⟩
  rw [refused] at parsed
  cases parsed

theorem copes_set_iff (decoded : Text.decode bytes = .ok source) {doc : Document}
    (parsed : Document.parse (dialectFor file) source = .ok doc)
    (words : s.positional = [file, tag, value]) :
    Command.set.Copes s file bytes ↔
      (doc.locate (tagName tag) (ordinal s) ≠ [] →
        Value.Writable (dialectFor file) (Text.systemString value) ∧
        (∃ name, attributeString s = Text.ofChars name) ∧
        (s.has "--dry-run" = false → (doc.update (tagName tag) (Text.systemString value) (ordinal s)
          (attributeName s)).result ≠ .ok source → Telling file)) := by
  constructor
  · rintro ⟨source', decoded', needs⟩
    cases decoded.symm.trans decoded'
    exact needs doc tag value rfl words parsed
  · intro needs
    refine ⟨source, decoded, fun doc' tag' value' _ words' parsed' => ?_⟩
    cases parsed.symm.trans parsed'
    cases words.symm.trans words'
    exact needs

theorem ended_of_text {done : Disk × Outcome}
    (notText : ∀ flaw, Text.decode bytes = .error flaw → done = (d, .crashed (.text .notText)))
    (refused : ∀ source reason, Text.decode bytes = .ok source →
      Document.parse (dialectFor file) source = .error (.refused reason) → done = (d, unparsed reason))
    (parsed : ∀ source doc, Text.decode bytes = .ok source →
      Document.parse (dialectFor file) source = .ok doc → Ended d c s file bytes done) :
    Ended d c s file bytes done := by
  cases decoded : Text.decode bytes with
  | error flaw =>
      rw [notText flaw decoded]
      exact .crashed (not_copes_of_decode decoded)
  | ok source =>
      cases outcome : Document.parse (dialectFor file) source with
      | error e =>
          obtain ⟨reason, rfl⟩ := Document.parse_refused outcome
          rw [refused source reason decoded outcome]
          exact .unparsed (copes_of_refused decoded outcome) decoded outcome
      | ok doc => exact parsed source doc decoded outcome

theorem hasPlainAttribute_iff :
    hasPlainAttribute s = true ↔ ∃ name, attributeString s = Text.ofChars name := by
  rw [hasPlainAttribute, Option.isSome_iff_exists]
  simp only [Text.toChars?_eq_some]

section Revised

variable {doc : Document} (text : readText d file = .ok source)
  (parsed : Document.parse (dialectFor file) source = .ok doc)
include text parsed

theorem revised_error {e : Failure}
    (h : (doc.update (tagName tag) (Text.systemString value) (ordinal s)
      (attributeName s)).result = .error e) : revised d s file tag value = .error (.text e) := by
  rw [revised, text, ok_bind, parsed, mapError_ok, ok_bind, resultOf, h, mapError_error, error_bind]

variable {updated : List Char}
  (h : (doc.update (tagName tag) (Text.systemString value) (ordinal s)
    (attributeName s)).result = .ok updated)
include h

theorem revised_odd (found : doc.locate (tagName tag) (ordinal s) ≠ [])
    (odd : ¬ ∃ name, attributeString s = Text.ofChars name) :
    revised d s file tag value = .error (.text .surrogate) := by
  have unplain : (!hasPlainAttribute s) = true := by
    rw [Bool.not_eq_true', Bool.eq_false_iff]
    exact mt hasPlainAttribute_iff.mp odd
  rw [revised, text, ok_bind, parsed, mapError_ok, ok_bind, resultOf, h, mapError_ok, ok_bind,
    if_pos ⟨unplain, found⟩]
  rfl

theorem revised_ok (plain : doc.locate (tagName tag) (ordinal s) = [] ∨
    ∃ name, attributeString s = Text.ofChars name) :
    revised d s file tag value = .ok (source, updated) := by
  have passes : ¬ ((!hasPlainAttribute s) = true ∧ doc.locate (tagName tag) (ordinal s) ≠ []) := by
    rintro ⟨odd, found⟩
    rw [hasPlainAttribute_iff.mpr (plain.resolve_left found)] at odd
    cases odd
  rw [revised, text, ok_bind, parsed, mapError_ok, ok_bind, resultOf, h, mapError_ok, ok_bind,
    if_neg passes]
  rfl

end Revised

theorem set_failed {e : Failure} (h : revised d s file tag value = .error (.text e))
    (other : ∀ reason, e ≠ .refused reason) :
    set d s file tag value = (d, .crashed (.text e)) := by
  rw [set, h]
  cases e with
  | refused reason => exact absurd rfl (other reason)
  | _ => rfl

section Commands

variable (there : d.contents file = .ok bytes)
include there

theorem get_ended (words : s.positional = [file, tag]) :
    Ended d .get s file bytes (runChecked d .get s) := by
  have run : runChecked d .get s = (d, printed (get d s file tag)) := by
    simp only [runChecked, words]
  rw [run, get]
  apply ended_of_text
  · intro flaw decoded
    rw [readText_error there decoded]
    rfl
  · intro source reason decoded refused
    rw [readText_ok there decoded, ok_bind, resultOf, readClass_refused refused]
    rfl
  · intro source doc decoded parsed
    have reads : ∃ found, (readClass (dialectFor file) source (tagName tag) (ordinal s)
        (attributeName s)).result = .ok found := readClass_reads parsed
    obtain ⟨found, reads⟩ := reads
    rw [readText_ok there decoded, ok_bind, resultOf, reads]
    exact .success (copes_of_decode decoded (by decide)) decoded parsed fun _ => rfl

theorem list_ended (words : s.positional = [file]) :
    Ended d .list s file bytes (runChecked d .list s) := by
  have run : runChecked d .list s = (d, printed (list d s file)) := by
    simp only [runChecked, words]
  apply ended_of_text
  · intro flaw decoded
    rw [run, list, readText_error there decoded]
    rfl
  · intro source reason decoded refused
    rw [run, list, readText_ok there decoded, ok_bind, refused]
    rfl
  · intro source doc decoded parsed
    obtain ⟨-, -, fresh, sound⟩ := Document.parse_spec parsed
    obtain ⟨lines, listed, -⟩ := doc.listLines_reads sound fresh (attributeName s)
      fun e he => (List.mem_filter.mp he).1
    rw [runChecked_list words parsed (readText_ok there decoded), resultOf, listed]
    exact .success (copes_of_decode decoded (by decide)) decoded parsed fun _ => rfl

theorem set_revised {updated : List Char}
    (h : revised d s file tag value = .ok (source, updated)) :
    (∃ d' out, set d s file tag value = (d', .success out) ∧ (s.has "--dry-run" → d' = d)) ∧
        (s.has "--dry-run" = false → updated ≠ source → Telling file) ∨
      (∃ d', set d s file tag value = (d', .crashed (.text .surrogate))) ∧
        s.has "--dry-run" = false ∧ updated ≠ source ∧ ¬ Telling file := by
  rw [set, h]
  dsimp only
  cases dry : s.has "--dry-run" with
  | true => exact .inl ⟨⟨d, updated, rfl, fun _ => rfl⟩, nofun⟩
  | false =>
      by_cases same : updated = source
      · exact .inl ⟨⟨d, _, if_pos same, nofun⟩, fun _ other => absurd same other⟩
      rw [if_neg Bool.false_ne_true, if_neg same]
      obtain ⟨q, found, here⟩ := contents_eq_ok.mp there
      rw [overwrite_file (find_tidied found) here]
      have told : (Text.toChars? (Text.systemString (Text.bytes "Updated " ++ fileName file))).isSome ↔
          Telling file := Text.isText_iff_isSome.trans (Text.isText_append "Updated ".toList)
      cases text : Text.toChars? (Text.systemString (Text.bytes "Updated " ++ fileName file)) with
      | some line =>
          refine .inl ⟨⟨d.put q (.file (Text.encode updated)), line ++ ['\n'], Prod.ext rfl ?_, nofun⟩,
            fun _ _ => told.mp (by rw [text, Option.isSome_some])⟩
          simp [Outcome.ofLines, text]
      | none =>
          refine .inr ⟨⟨_, Prod.ext rfl ?_⟩, rfl, same, fun telling => ?_⟩
          · simp [Outcome.ofLines, text, Outcome.crashed]
          · have some := told.mpr telling
            rw [text] at some
            cases some

theorem set_ended (words : s.positional = [file, tag, value]) :
    Ended d .set s file bytes (runChecked d .set s) := by
  simp only [runChecked, words]
  apply ended_of_text
  · intro flaw decoded
    rw [set, revised, readText_error there decoded]
    rfl
  · intro source reason decoded refused
    rw [set, revised, readText_ok there decoded, ok_bind, refused]
    rfl
  · intro source doc decoded parsed
    have text := readText_ok there decoded
    have copes := copes_set_iff decoded parsed words
    obtain ⟨rfl, same, fresh, sound⟩ := Document.parse_spec parsed
    by_cases none : doc.locate (tagName tag) (ordinal s) = []
    · have updated : (doc.update (tagName tag) (Text.systemString value) (ordinal s)
          (attributeName s)).result = .ok doc.source :=
        Document.update_unlocated none
      have made := revised_ok text parsed updated (.inl none)
      rcases set_revised there made with ⟨⟨d', out, done, kept⟩, -⟩ | ⟨-, -, other, -⟩
      · rw [done]
        exact .success (copes.mpr fun some => absurd none some) decoded parsed
          (Or.rec (absurd rfl) kept)
      · exact absurd rfl other
    by_cases writable : Value.Writable (dialectFor file) (Text.systemString value)
    · have returned : ∃ out, (doc.update (tagName tag) (Text.systemString value) (ordinal s)
          (attributeName s)).result = .ok out :=
        Document.update_writable sound fresh (same.symm ▸ writable)
      obtain ⟨updated, h⟩ := returned
      by_cases plain : ∃ name, attributeString s = Text.ofChars name
      · have made := revised_ok text parsed h (.inr plain)
        rw [h] at copes
        rcases set_revised there made with
          ⟨⟨d', out, done, kept⟩, telling⟩ | ⟨⟨d', done⟩, wet, other, silent⟩
        · rw [done]
          refine .success (copes.mpr fun _ => ⟨writable, plain, fun wet other => ?_⟩) decoded parsed
            (Or.rec (absurd rfl) kept)
          exact telling wet fun same => other (congrArg _ same)
        · rw [done]
          refine .untold (fun able => silent ?_) rfl wet silent
          exact (copes.mp able none).2.2 wet fun same => other (Except.ok.inj same)
      · have unworded (reason : Refusal) : Failure.surrogate ≠ .refused reason := by
          intro same
          cases same
        rw [set_failed (revised_odd text parsed h none plain) unworded]
        exact .crashed fun able => plain (copes.mp able none).2.1
    · have failed : ∃ e, (doc.update (tagName tag) (Text.systemString value) (ordinal s)
          (attributeName s)).result = .error e ∧ ∀ reason, e ≠ .refused reason :=
        Document.update_unwritable sound fresh none (same.symm ▸ writable)
      obtain ⟨e, h, other⟩ := failed
      rw [set_failed (revised_error text parsed h) other]
      exact .crashed fun able => writable (copes.mp able none).1

end Commands

theorem Accepts.ended (accepted : Accepts d line c s) (onFile : c = .get ∨ c = .set ∨ c = .list)
    (first : s.positional.head? = some file) (there : d.contents file = .ok bytes) :
    Ended d c s file bytes (Cli.run d line) := by
  have length := accepted.length
  rw [accepted.run]
  obtain ⟨rest, words⟩ := List.head?_eq_some_iff.mp first
  rw [words] at length
  rcases onFile with rfl | rfl | rfl
  · obtain ⟨tag, rfl⟩ := List.length_eq_one_iff.mp (Nat.succ.inj length)
    exact get_ended there words
  · obtain ⟨tag, value, rfl⟩ := List.length_eq_two.mp (Nat.succ.inj length)
    exact set_ended there words
  · obtain rfl := List.length_eq_zero_iff.mp (Nat.succ.inj length)
    exact list_ended there words

/-- A command on a file that is there ends cleanly exactly if the file is text and, if an element is
to be given a value, the escapes of the value name characters and the attribute and the file have names
that are text. Then it succeeds, unless the text does not parse: what is wrong with it is told. The disk
stays as it is unless a value is set with success, and for good; a file with a name that is no text may
have been written when its name cannot be told. -/
theorem run_ends (accepted : Accepts d line c s) (onFile : c = .get ∨ c = .set ∨ c = .list)
    (first : s.positional.head? = some file) (there : d.contents file = .ok bytes) :
    ((run d line).2.Clean ↔ c.Copes s file bytes) ∧
      (c.Copes s file bytes → ∃ source, Text.decode bytes = .ok source ∧
        ((∃ doc, Document.parse (dialectFor file) source = .ok doc ∧ (run d line).2.exitCode = 0) ∨
          ∃ reason, Document.parse (dialectFor file) source = .error (.refused reason) ∧
            run d line = (d, .failure ("Parse error: ".toList ++ reason.message)))) ∧
      (c ≠ .set ∨ (run d line).2.exitCode ≠ 0 ∧ Telling file ∨ s.has "--dry-run" →
        (run d line).1 = d) := by
  have ended := accepted.ended onFile first there
  revert ended
  generalize run d line = done
  rintro (⟨fails⟩ | ⟨fails, set, wet, silent⟩ | ⟨copes, decoded, refused⟩ |
    ⟨copes, decoded, parsed, kept⟩)
  · exact ⟨iff_of_false (crashed_not_clean _) fails, fun copes => absurd copes fails, fun _ => rfl⟩
  · refine ⟨iff_of_false (crashed_not_clean _) fails, fun copes => absurd copes fails, ?_⟩
    rintro (other | ⟨-, telling⟩ | dry)
    · exact absurd set other
    · exact absurd telling silent
    · rw [wet] at dry
      cases dry
  · exact ⟨iff_of_true (unparsed_clean _) copes,
      fun _ => ⟨_, decoded, .inr ⟨_, refused, rfl⟩⟩, fun _ => rfl⟩
  · refine ⟨iff_of_true (success_clean _) copes, fun _ => ⟨_, decoded, .inl ⟨_, parsed, rfl⟩⟩, ?_⟩
    rintro (other | ⟨failed, -⟩ | dry)
    · exact kept (.inl other)
    · exact absurd rfl failed
    · exact kept (.inr dry)

theorem run_ends_not_text :
    let d : Disk := ⟨[([Text.bytes "a.tsx"], .file [0xff])], []⟩
    let line := [Text.bytes "get", Text.bytes "a.tsx", Text.bytes "p"]
    let s : Sorted := ⟨[], [Text.bytes "a.tsx", Text.bytes "p"]⟩
    Accepts d line .get s ∧ d.contents (Text.bytes "a.tsx") = .ok [0xff] ∧
      ¬ (run d line).2.Clean ∧ (run d line).1 = d := by
  intro d line s
  have accepted : Accepts d line .get s := by
    refine ⟨⟨[], line⟩, Text.bytes "get", [Text.bytes "a.tsx", Text.bytes "p"], ?_, rfl, rfl, rfl, ?_,
      ?_, rfl⟩
    all_goals decide +kernel
  have there : d.contents (Text.bytes "a.tsx") = .ok [0xff] := by decide +kernel
  have ends := run_ends accepted (.inl rfl) rfl there
  have malformed : ∃ flaw, Text.decode [0xff] = .error flaw := ⟨_, rfl⟩
  obtain ⟨flaw, malformed⟩ := malformed
  exact ⟨accepted, there, fun clean => not_copes_of_decode malformed (ends.1.mp clean),
    ends.2.2 (.inl (by decide))⟩

end Restyle.Cli
