import Restyle.Element.Read
import Restyle.Proofs.NestedTrees
import Restyle.Proofs.Update

/-!
# Recording edits

A document is worked on in place, one step after another: edits are recorded, elements are located, read
and written, and the text is printed. No step changes the text or the tree, a step that fails records
nothing, and a write records one edit for each element that it finds.
-/

namespace Restyle

open Syntax Text

/-- Work on a document in place. What has been recorded before a failure stays recorded. -/
abbrev Recording := ExceptT Failure (StateM Document)

namespace Recording

variable {α β : Type}

/-- Look at the document without recording anything. -/
def look (f : Document → Report α) : Recording α :=
  fun d => ((f d).result, d)

/-- Record a text for a stretch, if it is one. -/
def add (start stop : Int) (text : List CodePoint) : Recording Unit :=
  fun d =>
    match Edit.of? start stop text with
    | .ok e => (.ok (), d.record e)
    | .error e => (.error e, d)

/-- Give an element some source text as the value of an attribute. -/
def give (rendered : List CodePoint) (name : List Char) (e : Element) : Recording Unit := do
  let edit := (← get).valueEdit e rendered name
  add edit.start edit.stop edit.text

/-- Give the elements at an address a new value, one after another. Says whether there are any. -/
def write (tag : List Char) (value : List CodePoint) (ordinal : Option Int) (name : List Char) :
    Recording Bool := do
  let found := (← get).locate tag ordinal
  if found.isEmpty then return false
  else do
    let rendered ← look fun d => Value.render d.dialect value
    forM found (give rendered name)
    return true

theorem run_bind (p : Recording α) (f : α → Recording β) (d : Document) :
    (p >>= f) d = match p d with
      | (.ok a, d') => f a d'
      | (.error e, d') => (.error e, d') := by
  change (ExceptT.bindCont f (p d).1) (p d).2 = _
  cases p d with
  | mk result d' => cases result <;> rfl

variable {d : Document} {rendered : List CodePoint} {name : List Char}

theorem add_edit (e : Edit) : add e.start e.stop e.text d = (.ok (), d.record e) := by
  have valid : (0 : Int) ≤ e.start ∧ (e.start : Int) ≤ e.stop :=
    ⟨Int.natCast_nonneg _, Int.ofNat_le.mpr e.start_le_stop⟩
  rw [add, Edit.of?, dif_pos valid]
  rfl

theorem give_eq (e : Element) :
    give rendered name e d = (.ok (), d.record (d.valueEdit e rendered name)) :=
  add_edit (d.valueEdit e rendered name)

theorem give_each (es : List Element) :
    forM es (give rendered name) d = (.ok (), d.applyAll rendered name es) := by
  induction es generalizing d with
  | nil => rfl
  | cons e es ih =>
      rw [List.forM_cons, run_bind, give_eq]
      exact ih

theorem write_nothing {tag : List Char} {ordinal : Option Int} (none : d.locate tag ordinal = [])
    (value : List CodePoint) (name : List Char) :
    write tag value ordinal name d = (.ok false, d) := by
  rw [write, run_bind]
  change (if (d.locate tag ordinal).isEmpty = true then (pure false : Recording Bool) else _) d = _
  rw [none]
  rfl

theorem write_found {tag : List Char} {ordinal : Option Int} (found : d.locate tag ordinal ≠ [])
    (value : List CodePoint) (name : List Char) :
    write tag value ordinal name d = match (Value.render d.dialect value).result with
      | .ok rendered => (.ok true, d.applyAll rendered name (d.locate tag ordinal))
      | .error e => (.error e, d) := by
  rw [write, run_bind]
  change (if (d.locate tag ordinal).isEmpty = true then (pure false : Recording Bool) else _) d = _
  rw [if_neg (by simpa using found), run_bind]
  simp only [look]
  cases (Value.render d.dialect value).result with
  | error e => rfl
  | ok rendered =>
      dsimp only
      rw [run_bind, give_each]
      rfl

end Recording

namespace Document

variable {d : Document} {tag : List Char} {ordinal : Option Int}

theorem write_result (found : d.locate tag ordinal ≠ []) (value : List CodePoint)
    (name : List Char) :
    (d.write tag value ordinal name).result =
      (Value.render d.dialect value).result.map fun rendered =>
        (d.applyAll rendered name (d.locate tag ordinal), true) := by
  rw [write]
  split
  · rename_i none
    exact absurd none found
  · rename_i e rest here
    have rendering : (do
        let rendered ← Value.render d.dialect value
        return (d.applyAll rendered name (e :: rest), true) : Report (Document × Bool)).result =
        (Value.render d.dialect value).result.map fun rendered =>
          (d.applyAll rendered name (e :: rest), true) := by
      cases rendered : (Value.render d.dialect value).result with
      | error failure => exact Report.result_bind_error rendered
      | ok text => exact Report.result_bind rendered
    rw [here]
    split
    · rw [Report.result_bind (Report.result_note _)]
      exact rendering
    · exact rendering

theorem write_in_place (d : Document) (tag : List Char) (value : List CodePoint)
    (ordinal : Option Int) (name : List Char) :
    Recording.write tag value ordinal name d =
      match (d.write tag value ordinal name).result with
      | .ok (written, found) => (.ok found, written)
      | .error e => (.error e, d) := by
  by_cases none : d.locate tag ordinal = []
  · have nothing : (d.write tag value ordinal name).result = .ok (d, false) := by
      rw [write, none]
      rfl
    rw [Recording.write_nothing none, nothing]
  · rw [Recording.write_found none, write_result none]
    cases (Value.render d.dialect value).result <;> rfl

theorem locate_congr (d : Document) (es : List Edit) (tag : List Char) (ordinal : Option Int) :
    ({ d with edits := es } : Document).locate tag ordinal = d.locate tag ordinal := by
  cases ordinal with
  | none =>
      rw [locate_none, locate_none]
      rfl
  | some n =>
      rcases Int.lt_or_le n 0 with negative | natural
      · rw [locate_negative negative, locate_negative negative]
      · obtain ⟨k, rfl⟩ := Int.eq_ofNat_of_zero_le natural
        rw [locate_ordinal, locate_ordinal]
        rfl

/-- What may be done with a document. -/
inductive Step
  /-- Record a text for a stretch. -/
  | edit (start stop : Int) (text : List CodePoint)
  /-- Give the elements at an address a new value for an attribute. -/
  | write (tag : List Char) (value : List CodePoint) (ordinal : Option Int) (name : List Char)
  /-- Give an element some source text as the value of an attribute. -/
  | apply (e : Element) (rendered : List CodePoint) (name : List Char)
  | read (e : Element) (name : List Char)
  | print
  | printSpan (start stop : Nat)
  | locate (tag : List Char) (ordinal : Option Int)

inductive Answer
  | recorded
  /-- Whether a write has found any element. -/
  | wrote (found : Bool)
  | value (text : Option (List Char))
  | text (printed : List Char)
  | elements (located : List Element)

namespace Step

def perform : Step → Recording Answer
  | .edit start stop text => do
      Recording.add start stop text
      return .recorded
  | .write tag value ordinal name => do
      return .wrote (← Recording.write tag value ordinal name)
  | .apply e rendered name => do
      Recording.give rendered name e
      return .recorded
  | .read e name => do
      return .value (← Recording.look fun d => d.readAttribute e name)
  | .print => do
      return .text (← Recording.look fun d => d.print)
  | .printSpan start stop => do
      return .text (← Recording.look fun d => d.printSpan start stop)
  | .locate tag ordinal => do
      return .elements ((← get).locate tag ordinal)

/-- The edits that a step records. -/
def edits (d : Document) : Step → List Edit
  | .edit start stop text =>
      match Edit.of? start stop text with
      | .ok e => [e]
      | .error _ => []
  | .write tag value ordinal name =>
      match (Value.render d.dialect value).result with
      | .ok rendered => (d.locate tag ordinal).map fun e => d.valueEdit e rendered name
      | .error _ => []
  | .apply e rendered name => [d.valueEdit e rendered name]
  | .read .. | .print | .printSpan .. | .locate .. => []

end Step

/-- The document after some steps. One that fails does not keep the next from being made. -/
def after (d : Document) (steps : List Step) : Document :=
  steps.foldl (fun d step => (step.perform d).2) d

namespace Step

variable {name : List Char}

private theorem look_eq {α : Type} (f : α → Answer) (g : Document → Report α) (d : Document) :
    (do return f (← Recording.look g) : Recording Answer) d = ((g d).result.map f, d) := by
  rw [Recording.run_bind]
  simp only [Recording.look]
  cases (g d).result <;> rfl

theorem perform_edit (start stop : Int) (text : List CodePoint) (d : Document) :
    (Step.edit start stop text).perform d = match Edit.of? start stop text with
      | .ok e => (.ok .recorded, d.record e)
      | .error e => (.error e, d) := by
  rw [perform, Recording.run_bind]
  simp only [Recording.add]
  cases Edit.of? start stop text <;> rfl

theorem perform_write_nothing (none : d.locate tag ordinal = []) (value : List CodePoint)
    (name : List Char) :
    (Step.write tag value ordinal name).perform d = (.ok (.wrote false), d) := by
  rw [perform, Recording.run_bind, Recording.write_nothing none]
  rfl

theorem perform_write_found (found : d.locate tag ordinal ≠ []) (value : List CodePoint)
    (name : List Char) :
    (Step.write tag value ordinal name).perform d = match (Value.render d.dialect value).result with
      | .ok rendered => (.ok (.wrote true), d.applyAll rendered name (d.locate tag ordinal))
      | .error e => (.error e, d) := by
  rw [perform, Recording.run_bind, Recording.write_found found]
  cases (Value.render d.dialect value).result <;> rfl

theorem perform_apply (e : Element) (rendered : List CodePoint) (name : List Char) (d : Document) :
    (Step.apply e rendered name).perform d =
      (.ok .recorded, d.record (d.valueEdit e rendered name)) := by
  rw [perform, Recording.run_bind, Recording.give_eq]
  rfl

/-- A step records its edits after those that are there, and changes nothing else. -/
theorem perform_document (step : Step) (d : Document) :
    (step.perform d).2 = { d with edits := d.edits ++ step.edits d } := by
  have unchanged : d = { d with edits := d.edits ++ [] } := by rw [List.append_nil]
  cases step with
  | edit start stop text =>
      rw [perform_edit, edits]
      cases Edit.of? start stop text with
      | ok e => rfl
      | error e => exact unchanged
  | write tag value ordinal name =>
      rw [edits]
      by_cases none : d.locate tag ordinal = []
      · rw [perform_write_nothing none, none]
        cases (Value.render d.dialect value).result <;> exact unchanged
      · rw [perform_write_found none]
        cases (Value.render d.dialect value).result with
        | ok rendered => exact applyAll_eq rendered name _
        | error e => exact unchanged
  | apply e rendered name =>
      rw [perform_apply]
      rfl
  | read e name =>
      rw [perform, look_eq]
      exact unchanged
  | print =>
      rw [perform, look_eq]
      exact unchanged
  | printSpan start stop =>
      rw [perform, look_eq]
      exact unchanged
  | locate tag ordinal => exact unchanged

theorem edits_of_error {step : Step} {d : Document} {e : Failure}
    (failed : (step.perform d).1 = .error e) : step.edits d = [] := by
  cases step with
  | edit start stop text =>
      rw [perform_edit] at failed
      rw [edits]
      cases valid : Edit.of? start stop text with
      | ok edit =>
          rw [valid] at failed
          cases failed
      | error e => rfl
  | write tag value ordinal name =>
      rw [edits]
      by_cases none : d.locate tag ordinal = []
      · rw [none]
        cases (Value.render d.dialect value).result <;> rfl
      · rw [perform_write_found none] at failed
        cases rendering : (Value.render d.dialect value).result with
        | ok rendered =>
            rw [rendering] at failed
            cases failed
        | error e => rfl
  | apply e rendered name =>
      rw [perform_apply] at failed
      cases failed
  | read | print | printSpan | locate => rfl

theorem edits_congr (step : Step) (d : Document) (es : List Edit) :
    step.edits { d with edits := es } = step.edits d := by
  cases step with
  | write tag value ordinal name =>
      rw [edits, edits, locate_congr]
      rfl
  | _ => rfl

end Step

theorem after_eq (d : Document) (steps : List Step) :
    d.after steps = { d with edits := d.edits ++ steps.flatMap (Step.edits d) } := by
  induction steps generalizing d with
  | nil => simp [after]
  | cons step steps ih =>
      have next : d.after (step :: steps) = (step.perform d).2.after steps := rfl
      have same : Step.edits { d with edits := d.edits ++ step.edits d } = Step.edits d :=
        funext fun s => s.edits_congr d _
      rw [next, Step.perform_document, ih, same, List.flatMap_cons, List.append_assoc]

/-- What a document may become: its text and tree stay, and edits are added at the end. -/
structure Grown (d now : Document) : Prop where
  source : now.source = d.source
  data : now.data = d.data
  root : now.root = d.root
  dialect : now.dialect = d.dialect
  edits : d.edits <+: now.edits

theorem grown_after (d : Document) (steps : List Step) : d.Grown (d.after steps) := by
  rw [after_eq]
  exact ⟨rfl, rfl, rfl, rfl, List.prefix_append _ _⟩

theorem locate_after (d : Document) (steps : List Step) (tag : List Char) (ordinal : Option Int) :
    (d.after steps).locate tag ordinal = d.locate tag ordinal := by
  rw [after_eq, locate_congr]

theorem valueEdit_after (d : Document) (steps : List Step) (e : Element) (rendered : List CodePoint)
    (name : List Char) :
    (d.after steps).valueEdit e rendered name = d.valueEdit e rendered name := by
  rw [after_eq]
  rfl

namespace Step

/-- A text is recorded for a stretch if it is one, and nothing is recorded otherwise. -/
theorem edit_recorded (start stop : Int) (text : List CodePoint) (d : Document) :
    (0 ≤ start ∧ start ≤ stop → ∃ e : Edit, e.start = start ∧ e.stop = stop ∧ e.text = text ∧
      (Step.edit start stop text).perform d = (.ok .recorded, d.record e)) ∧
    (¬ (0 ≤ start ∧ start ≤ stop) →
      (Step.edit start stop text).perform d = (.error (.invalidSpan start stop), d)) := by
  rw [perform_edit, Edit.of?]
  constructor
  · intro valid
    rw [dif_pos valid]
    exact ⟨_, Int.toNat_of_nonneg valid.1, Int.toNat_of_nonneg (Int.le_trans valid.1 valid.2), rfl,
      rfl⟩
  · intro invalid
    rw [dif_neg invalid]

/-- A write that finds elements records one edit for each of them, or none if the value fails. -/
theorem write_recorded (found : d.locate tag ordinal ≠ []) (value : List CodePoint)
    (name : List Char) :
    (∃ e, (Value.render d.dialect value).result = .error e ∧
      (Step.write tag value ordinal name).perform d = (.error e, d)) ∨
    ∃ rendered, (Value.render d.dialect value).result = .ok rendered ∧
      (Step.write tag value ordinal name).perform d = (.ok (.wrote true),
        { d with edits := d.edits ++
            (d.locate tag ordinal).map fun e => d.valueEdit e rendered name }) := by
  rw [perform_write_found found]
  cases (Value.render d.dialect value).result with
  | error e => exact .inl ⟨e, rfl, rfl⟩
  | ok rendered =>
      refine .inr ⟨rendered, rfl, ?_⟩
      rw [← applyAll_eq]

theorem wrote_nothing (tag : List Char) (value : List CodePoint) (ordinal : Option Int)
    (name : List Char) (d : Document) :
    (Step.write tag value ordinal name).perform d = (.ok (.wrote false), d) ↔
      d.locate tag ordinal = [] := by
  refine ⟨fun wrote => ?_, fun none => perform_write_nothing none value name⟩
  by_cases none : d.locate tag ordinal = []
  · exact none
  · rcases write_recorded none value name with ⟨e, -, failed⟩ | ⟨rendered, -, recorded⟩
    · rw [failed] at wrote
      cases wrote
    · rw [recorded] at wrote
      cases wrote

end Step

theorem perform_of_no_edits {d : Document} {step : Step} (none : step.edits d = []) :
    (step.perform d).2 = d := by
  rw [step.perform_document, none, List.append_nil]

/-- What the steps that only look at a document come to, once it is `now`. -/
structure LooksOnly (d now : Document) : Prop where
  read : ∀ e name, ((Step.read e name).perform now).2 = now
  print : (Step.print.perform now).2 = now
  printSpan : ∀ start stop, ((Step.printSpan start stop).perform now).2 = now
  locate : ∀ tag ordinal,
    (Step.locate tag ordinal).perform now = (.ok (.elements (d.locate tag ordinal)), now)

/-- What the steps that record edits come to, once the document is `now`. -/
structure Records (d now : Document) : Prop where
  edit : ∀ (start stop : Int) text, 0 ≤ start ∧ start ≤ stop → ∃ e : Edit,
    e.start = start ∧ e.stop = stop ∧ e.text = text ∧
    (Step.edit start stop text).perform now = (.ok .recorded, now.record e)
  invalid : ∀ (start stop : Int) text, ¬ (0 ≤ start ∧ start ≤ stop) →
    (Step.edit start stop text).perform now = (.error (.invalidSpan start stop), now)
  apply : ∀ e rendered name,
    (Step.apply e rendered name).perform now = (.ok .recorded, now.record (d.valueEdit e rendered name))
  nothing : ∀ tag value ordinal name,
    (Step.write tag value ordinal name).perform now = (.ok (.wrote false), now) ↔
      d.locate tag ordinal = []
  write : ∀ tag value ordinal name, d.locate tag ordinal ≠ [] →
    (∃ e, (Value.render d.dialect value).result = .error e ∧
      (Step.write tag value ordinal name).perform now = (.error e, now)) ∨
    ∃ rendered, (Value.render d.dialect value).result = .ok rendered ∧
      (Step.write tag value ordinal name).perform now = (.ok (.wrote true),
        { now with edits := now.edits ++
            (d.locate tag ordinal).map fun e => d.valueEdit e rendered name })

/-- A document has become `now`: its text and tree have stayed, edits have been added at the end, and each
further step that fails leaves it. -/
structure Became (d now : Document) : Prop where
  grown : d.Grown now
  located : ∀ tag ordinal, now.locate tag ordinal = d.locate tag ordinal
  spans : ∀ e ∈ now.edits, e.start ≤ e.stop
  failed : ∀ (step : Step) (e : Failure), (step.perform now).1 = .error e → (step.perform now).2 = now
  looksOnly : d.LooksOnly now
  records : d.Records now

theorem looksOnly_after (d : Document) (steps : List Step) : d.LooksOnly (d.after steps) where
  read e name := perform_of_no_edits rfl
  print := perform_of_no_edits rfl
  printSpan start stop := perform_of_no_edits rfl
  locate tag ordinal := by
    rw [← locate_after d steps]
    rfl

theorem records_after (d : Document) (steps : List Step) : d.Records (d.after steps) where
  edit start stop text := (Step.edit_recorded start stop text _).1
  invalid start stop text := (Step.edit_recorded start stop text _).2
  apply e rendered name := by
    rw [← valueEdit_after d steps]
    exact Step.perform_apply e rendered name _
  nothing tag value ordinal name := by
    rw [← locate_after d steps]
    exact Step.wrote_nothing tag value ordinal name _
  write tag value ordinal name found := by
    have same : (d.after steps).dialect = d.dialect := (grown_after d steps).dialect
    rw [← locate_after d steps] at found ⊢
    simp only [← valueEdit_after d steps]
    rw [← same]
    exact Step.write_recorded found value name

/-- Whatever is done with a document, its text and tree stay, edits are only added at the end, and
elements are found as before any edit. A step that fails records nothing, nor does one that only
looks at the document. A write says that it has found nothing exactly if there is no element at the
address; else it records one edit for each element, in document order and, where spans are nested,
inside the element's opening construct. -/
theorem steps_record (d : Document) (steps more : List Step) :
    d.Became (d.after steps) ∧ (d.after steps).Grown (d.after (steps ++ more)) ∧
    (d.NestedTree → ∀ tag ordinal,
      (d.locate tag ordinal).Pairwise (fun e f => e.start ≤ f.start) ∧
      ∀ e ∈ d.locate tag ordinal, ∀ rendered name,
        e.start ≤ (d.valueEdit e rendered name).start ∧
          (d.valueEdit e rendered name).stop ≤ e.stop) := by
  refine ⟨?_, ?_, fun nested tag ordinal => ⟨locate_order nested tag ordinal,
    fun e he rendered name => valueEdit_within nested he rendered name⟩⟩
  · exact ⟨grown_after d steps, locate_after d steps, fun e _ => e.start_le_stop,
      fun step e failed => perform_of_no_edits (Step.edits_of_error failed), looksOnly_after d steps,
      records_after d steps⟩
  · have next : d.after (steps ++ more) = (d.after steps).after more := List.foldl_append ..
    rw [next]
    exact grown_after (d.after steps) more

/-- A literal with an escape that names no character. -/
def nameless : List CodePoint :=
  ofChars "\"\\u\x7b110000\x7d\"".toList

/-- Two steps that fail, and one that gives every paragraph a value. -/
def paragraphSteps : List Step :=
  [.edit 2 1 [], .write "p".toList nameless none defaultAttribute,
    .write "p".toList (ofChars "b".toList) none defaultAttribute]

set_option maxRecDepth 100000 in
theorem steps_record_paragraphs :
    ∃ d, parse .tsx "<p><p id=\"a\"/></p>".toList = .ok d ∧ d.NestedTree ∧
      (d.locate "p".toList none).length = 2 ∧ (d.after paragraphSteps).edits.length = 2 ∧
      d.Grown (d.after paragraphSteps) ∧
      (Step.edit 2 1 []).perform (d.after paragraphSteps) =
        (.error (.invalidSpan 2 1), d.after paragraphSteps) ∧
      (∃ e, (Step.edit 1 2 []).perform (d.after paragraphSteps) =
        (.ok .recorded, (d.after paragraphSteps).record e)) ∧
      (Step.write "p".toList nameless none defaultAttribute).perform (d.after paragraphSteps) =
        (.error .noSuchCodePoint, d.after paragraphSteps) ∧
      ∀ e ∈ d.locate "p".toList none, ∀ rendered,
        e.start ≤ (d.valueEdit e rendered defaultAttribute).start ∧
          (d.valueEdit e rendered defaultAttribute).stop ≤ e.stop := by
  have run : (parse .tsx "<p><p id=\"a\"/></p>".toList).toOption.any fun d =>
      (d.locate "p".toList none).length == 2 && (d.after paragraphSteps).edits.length == 2 := by
    decide +kernel
  have fails : (Value.render .tsx nameless).result = .error .noSuchCodePoint := by
    decide +kernel
  cases parsed : parse .tsx "<p><p id=\"a\"/></p>".toList with
  | error e =>
      rw [parsed] at run
      cases run
  | ok d =>
      rw [parsed] at run
      obtain ⟨found, recorded⟩ : (d.locate "p".toList none).length = 2 ∧
          (d.after paragraphSteps).edits.length = 2 := by
        simpa [Except.toOption] using run
      obtain ⟨-, dialect, -, sound⟩ := parse_spec parsed
      obtain ⟨became, -, inside⟩ := steps_record d paragraphSteps []
      have some : d.locate "p".toList none ≠ [] := by
        intro none
        rw [none] at found
        cases found
      obtain ⟨e, -, -, -, edited⟩ := became.records.edit 1 2 [] (by decide)
      refine ⟨d, rfl, sound.nested, found, recorded, became.grown,
        became.records.invalid 2 1 [] (by decide), ⟨e, edited⟩, ?_,
        fun e he rendered => (inside sound.nested _ _).2 e he rendered _⟩
      rw [← dialect] at fails
      rcases became.records.write _ nameless _ defaultAttribute some with
        ⟨e, failed, unwritten⟩ | ⟨rendered, shown, -⟩
      · rw [fails] at failed
        cases failed
        exact unwritten
      · rw [fails] at shown
        cases shown

end Document

end Restyle
