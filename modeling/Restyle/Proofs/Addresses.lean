import Mathlib.Data.List.Forall2
import Restyle.Proofs.Locating
import Restyle.Proofs.ReadAttributes
import Restyle.Proofs.Workspaces
import Restyle.Cli.Command

/-!
# Addresses

The elements of a name are those of the outline, in its order and with its ordinals, and an ordinal
finds the same element in every operation: in a search, in reading one value or all of them, and in
the listing of a file.
-/

namespace Restyle

open Syntax

namespace Document

variable {d : Document} {tag name : List Char}

private theorem locateFrom_filter (ordinal : Option Int) (before : List (List Char))
    (os : List Opening) :
    d.locateFrom tag ordinal (before.count tag) os =
      (d.outlineFrom before os).filter fun e => e.tagName = tag ∧ ordinal.all (· = e.ordinal) := by
  induction os generalizing before with
  | nil => rfl
  | cons o os ih =>
      have tagName (k : Nat) : (d.elementAt o k).tagName = d.nodeText o.name := rfl
      have number (k : Nat) : (d.elementAt o k).ordinal = k := rfl
      have rest := ih (d.nodeText o.name :: before)
      rw [locateFrom, outlineFrom]
      by_cases called : d.nodeText o.name = tag
      · rw [called, List.count_cons_self] at rest
        rw [if_pos called, called, rest, List.filter_cons]
        cases ordinal with
        | none => simp [tagName, called]
        | some n => simp [tagName, number, called]
      · rw [List.count_cons_of_ne called] at rest
        rw [List.filter_cons_of_neg (by simp [tagName, called]), if_neg called, rest]

/-- The elements at an address are those of the outline that have its name and its ordinal. -/
theorem locate_filter (d : Document) (tag : List Char) (ordinal : Option Int) :
    d.locate tag ordinal =
      d.outline.filter fun e => e.tagName = tag ∧ ordinal.all (· = e.ordinal) :=
  locateFrom_filter ordinal [] d.openings

theorem locate_eq_filter (d : Document) (tag : List Char) :
    d.locate tag none = d.outline.filter fun e => e.tagName = tag := by
  rw [locate_filter]
  exact List.filter_congr fun e _ => by simp

theorem map_ordinal_locate (d : Document) (tag : List Char) :
    (d.locate tag none).map Element.ordinal = List.range (d.count tag) := by
  have snd : Element.ordinal ∘ (fun p : Opening × Nat => d.elementAt p.1 p.2) = Prod.snd := rfl
  rw [count, locate_none, List.map_map, snd, List.zipIdx_map_snd, List.length_map,
    List.length_zipIdx, List.range_eq_range']

/-- An ordinal finds the element at that position among those of its name, if there is one. -/
theorem locate_position (d : Document) (tag : List Char) (n : Int) :
    d.locate tag (some n) = if 0 ≤ n then (d.locate tag none)[n.toNat]?.toList else [] := by
  split
  · rename_i natural
    obtain ⟨k, rfl⟩ := Int.eq_ofNat_of_zero_le natural
    rw [locate_ordinal, locate_none, Int.toNat_natCast, List.getElem?_map, List.getElem?_zipIdx,
      Option.map_map, Nat.zero_add]
    rfl
  · rename_i negative
    exact locate_negative (by omega)

private theorem located_of_mem_outline {e : Element} (h : e ∈ d.outline) :
    e ∈ d.locate e.tagName none := by
  rw [locate_eq_filter]
  exact List.mem_filter.mpr ⟨h, by simp⟩

theorem mem_outline {e : Element} (h : e ∈ d.outline) :
    ∃ o ∈ d.openings, ∃ k, e = d.elementAt o k :=
  mem_locate (located_of_mem_outline h)

theorem locate_outline {e : Element} (h : e ∈ d.outline) :
    d.locate e.tagName (some e.ordinal) = [e] := by
  obtain ⟨k, here⟩ := List.mem_iff_getElem?.mp (located_of_mem_outline h)
  have ordinal : (List.range (d.count e.tagName))[k]? = some e.ordinal := by
    rw [← map_ordinal_locate, List.getElem?_map, here]
    rfl
  obtain ⟨_, same⟩ := List.getElem?_eq_some_iff.mp ordinal
  rw [List.getElem_range] at same
  rw [locate_position, if_pos (Int.natCast_nonneg _), Int.toNat_natCast, ← same, here]
  rfl

/-- The value that an element's attribute has, as far as it can be read. -/
def shown (d : Document) (name : List Char) (e : Element) : Option (List Char) :=
  (d.readAttribute e name).result.toOption.join

theorem readAttribute_shown {e : Element}
    (h : ∃ value, (d.readAttribute e name).result = .ok value) :
    (d.readAttribute e name).result = .ok (d.shown name e) := by
  obtain ⟨value, read⟩ := h
  rw [shown, read]
  rfl

theorem readAttributes_shown {es : List Element}
    (h : ∀ e ∈ es, ∃ value, (d.readAttribute e name).result = .ok value) :
    (d.readAttributes name es).result = .ok (es.map (d.shown name)) := by
  induction es with
  | nil => rfl
  | cons e es ih =>
      have first := readAttribute_shown (h e List.mem_cons_self)
      have rest := ih fun f hf => h f (List.mem_cons_of_mem e hf)
      rw [readAttributes, Report.result_bind first, Report.result_bind rest]
      rfl

end Document

/-- A number in a column, right-aligned, that is wider only if the number does not fit. -/
def Cli.InColumn (width n : Nat) (column : List Char) : Prop :=
  ∃ blanks, column = List.replicate blanks ' ' ++ Text.decimal n ∧
    column.length = max width (Text.decimal n).length

/-- What a listing shows of an element: the number of its line and its address, and after these the
name and the value of the attribute exactly if there is a value. -/
inductive Cli.Shows (e : Element) (name : List Char) : Option (List Char) → List Char → Prop
  | value {column value : List Char} : Cli.InColumn 5 e.line column →
      Shows e name (some value) (column ++ "  ".toList ++ e.tagName ++
        ('[' :: Text.decimal e.ordinal ++ [']']) ++ "  ".toList ++ name ++ ('=' :: value) ++ ['\n'])
  | nothing {column : List Char} : Cli.InColumn 5 e.line column →
      Shows e name none (column ++ "  ".toList ++ e.tagName ++
        ('[' :: Text.decimal e.ordinal ++ [']']) ++ ['\n'])

theorem Cli.aligned_inColumn (n : Nat) : Cli.InColumn 5 n (Cli.aligned n) := by
  refine ⟨5 - (Text.decimal n).length, rfl, ?_⟩
  rw [Cli.aligned, List.length_append, List.length_replicate]
  omega

theorem Cli.listLine_shows (e : Element) (name : List Char) (value : Option (List Char)) :
    Cli.Shows e name value (Cli.listLine e name value) := by
  have column := Cli.aligned_inColumn e.line
  cases value with
  | some value =>
      have line : Cli.Shows e name (some value) _ := .value column
      simpa [Cli.listLine, List.append_assoc] using line
  | none =>
      have line : Cli.Shows e name none _ := .nothing column
      simpa [Cli.listLine, List.append_assoc] using line

namespace Document

variable {d : Document} {tag name : List Char}

theorem listLines_shown {es : List Element}
    (h : ∀ e ∈ es, ∃ value, (d.readAttribute e name).result = .ok value) :
    (Cli.listLines d name es).result =
      .ok (es.map fun e => Cli.listLine e name (d.shown name e)).flatten := by
  induction es with
  | nil => rfl
  | cons e es ih =>
      have first := readAttribute_shown (h e List.mem_cons_self)
      have rest := ih fun f hf => h f (List.mem_cons_of_mem e hf)
      rw [Cli.listLines, Report.result_bind first, Report.result_bind rest]
      rfl

section Fresh

variable (h : d.SoundTree) (fresh : d.edits = [])
include h fresh

theorem reads_outline {e : Element} (he : e ∈ d.outline) (name : List Char) :
    ∃ value, (d.readAttribute e name).result = .ok value := by
  obtain ⟨o, ho, k, rfl⟩ := mem_outline he
  exact readAttribute_reads h fresh ho k name

theorem reads_located {e : Element} (he : e ∈ d.locate tag none) (name : List Char) :
    ∃ value, (d.readAttribute e name).result = .ok value := by
  rw [locate_eq_filter] at he
  exact reads_outline h fresh (List.mem_filter.mp he).1 name

theorem read_position (n : Int) :
    (d.read tag (some n) name).result =
      .ok (if 0 ≤ n then ((d.locate tag none).map (d.shown name))[n.toNat]?.join else none) := by
  have located := d.locate_position tag n
  by_cases natural : 0 ≤ n
  · rw [if_pos natural] at located ⊢
    rw [List.getElem?_map]
    cases here : (d.locate tag none)[n.toNat]? with
    | none => exact read_unlocated (by rw [located, here]; rfl)
    | some e =>
        rw [read_located (e := e) (by rw [located, here]; rfl)]
        exact readAttribute_shown (reads_located h fresh (List.mem_of_getElem? here) name)
  · rw [if_neg natural] at located ⊢
    exact read_unlocated located

theorem read_last :
    (d.read tag none name).result =
      .ok ((d.locate tag none).map (d.shown name)).getLast?.join := by
  rw [List.getLast?_map]
  cases last : (d.locate tag none).getLast? with
  | none => exact read_unlocated (List.getLast?_eq_none_iff.mp last)
  | some e =>
      rw [read_located last]
      exact readAttribute_shown (reads_located h fresh (List.mem_of_getLast? last) name)

theorem read_outline {e : Element} (he : e ∈ d.outline) (name : List Char) :
    (d.read e.tagName (some e.ordinal) name).result = .ok (d.shown name e) := by
  rw [read_located (e := e) (by rw [locate_outline he]; rfl)]
  exact readAttribute_shown (reads_outline h fresh he name)

theorem readAll_shown (tag name : List Char) :
    (d.readAll tag name).result = .ok ((d.locate tag none).map (d.shown name)) :=
  readAttributes_shown fun _ he => reads_located h fresh he name

/-- The lines for elements of the outline show what reading at their addresses gives. -/
theorem listLines_reads (name : List Char) {es : List Element} (within : ∀ e ∈ es, e ∈ d.outline) :
    ∃ lines, (Cli.listLines d name es).result = .ok lines.flatten ∧
      List.Forall₂ (fun e line => ∃ value,
        (d.read e.tagName (some e.ordinal) name).result = .ok value ∧
          Cli.Shows e name value line) es lines := by
  refine ⟨_, listLines_shown fun e he => reads_outline h fresh (within e he) name, ?_⟩
  rw [List.forall₂_map_right_iff, List.forall₂_same]
  intro e he
  exact ⟨_, read_outline h fresh (within e he) name, Cli.listLine_shows e name _⟩

end Fresh

end Document

variable {dialect : Dialect} {source tag name : List Char} {d : Document}

theorem readAllClasses_parsed (parsed : Document.parse dialect source = .ok d)
    (tag name : List Char) :
    (readAllClasses dialect source tag name).result = (d.readAll tag name).result :=
  Report.result_bind (Report.result_ofExcept _ |>.trans parsed)

theorem runChecked_list {disk : Disk} {s : Cli.Sorted} {file : Disk.Path}
    (one : s.positional = [file]) (parsed : Document.parse (Disk.dialectFor file) source = .ok d)
    (text : Cli.readText disk file = .ok source) :
    Cli.runChecked disk .list s = (disk, Cli.printed (Cli.resultOf
      (Cli.listLines d (Cli.attributeName s) (d.outline.filter fun e =>
        (s.value? "--tag").all fun word => e.tagName = Cli.tagName word)))) := by
  have run : Cli.runChecked disk .list s = (disk, Cli.printed (Cli.list disk s file)) := by
    simp only [Cli.runChecked, one]
  rw [run, Cli.list, text]
  simp only [ok_bind, parsed, mapError_ok]
  refine congrArg (fun es => (disk, Cli.printed (Cli.resultOf
    (Cli.listLines d (Cli.attributeName s) es)))) ?_
  refine List.filter_congr fun e _ => ?_
  cases s.value? "--tag" <;> rfl

/-- The elements of a name are those of the outline, numbered from zero, and an ordinal finds the one
of its number, if there is one. Of a text that parses, reading by ordinal gives what reading all of
them gives at that position, or nothing; without an ordinal, it gives the last value. A listing has a
line for every address, in order, with the value that reading there gives, if it gives one. -/
theorem addresses_agree (d : Document) (tag name : List Char) :
    d.locate tag none = d.outline.filter (fun e => e.tagName = tag) ∧
    (d.locate tag none).map Element.ordinal = List.range (d.count tag) ∧
    (∀ n : Int,
      d.locate tag (some n) = if 0 ≤ n then (d.locate tag none)[n.toNat]?.toList else []) ∧
    ∀ dialect source, Document.parse dialect source = .ok d →
      (∃ values, (readAllClasses dialect source tag name).result = .ok values ∧
        values.length = d.count tag ∧
        (∀ n : Int, (readClass dialect source tag (some n) name).result =
          .ok (if 0 ≤ n then values[n.toNat]?.join else none)) ∧
        (readClass dialect source tag none name).result = .ok values.getLast?.join) ∧
      ∀ (disk : Disk) (s : Cli.Sorted) (file : Disk.Path), s.positional = [file] →
        Disk.dialectFor file = dialect → Cli.readText disk file = .ok source →
        ∃ lines : List (List Char),
          Cli.runChecked disk .list s = (disk, .success lines.flatten) ∧
          List.Forall₂ (fun e line => ∃ value,
            (readClass dialect source e.tagName (some e.ordinal)
              (Cli.attributeName s)).result = .ok value ∧
            Cli.Shows e (Cli.attributeName s) value line)
            (d.outline.filter fun e =>
              (s.value? "--tag").all fun word => e.tagName = Cli.tagName word) lines := by
  refine ⟨d.locate_eq_filter tag, d.map_ordinal_locate tag, d.locate_position tag, ?_⟩
  intro dialect source parsed
  obtain ⟨-, -, fresh, sound⟩ := Document.parse_spec parsed
  constructor
  · simp only [readAllClasses_parsed parsed, readClass_parsed parsed]
    exact ⟨_, d.readAll_shown sound fresh tag name, List.length_map _, d.read_position sound fresh,
      d.read_last sound fresh⟩
  · rintro disk s file one rfl text
    obtain ⟨lines, listed, shown⟩ := d.listLines_reads sound fresh (Cli.attributeName s)
      fun e he => (List.mem_filter.mp he).1
    refine ⟨lines, ?_, ?_⟩
    · rw [runChecked_list one parsed text, Cli.resultOf, listed]
      rfl
    · simp only [readClass_parsed parsed]
      exact shown

set_option maxRecDepth 100000 in
theorem addresses_agree_nested :
    ∃ d, Document.parse .tsx "<p className='a'><b><p/></b></p>".toList = .ok d ∧
      d.count "p".toList = 2 ∧
      (readClass .tsx "<p className='a'><b><p/></b></p>".toList "p".toList (some 1)
        defaultAttribute).result = .ok none ∧
      (readClass .tsx "<p className='a'><b><p/></b></p>".toList "p".toList (some (-1))
        defaultAttribute).result = .ok none ∧
      (∃ values, (readAllClasses .tsx "<p className='a'><b><p/></b></p>".toList "p".toList
        defaultAttribute).result = .ok values ∧ values = [some "a".toList, none]) ∧
      let disk : Disk :=
        ⟨[([Text.bytes "a"], .file (Text.bytes "<p className='a'><b><p/></b></p>"))], []⟩
      ∃ lines : List (List Char),
        Cli.runChecked disk .list ⟨[("--tag", Text.bytes "p")], [Text.bytes "a"]⟩ =
          (disk, .success lines.flatten) ∧
        lines.flatten = "    1  p[0]  className=a\n    1  p[1]\n".toList := by
  have counted : (Document.parse .tsx "<p className='a'><b><p/></b></p>".toList).toOption.any
      fun d => d.count "p".toList = 2 := by
    decide +kernel
  have read : (readAllClasses .tsx "<p className='a'><b><p/></b></p>".toList "p".toList
      defaultAttribute).result = .ok [some "a".toList, none] := by
    decide +kernel
  cases parsed : Document.parse .tsx "<p className='a'><b><p/></b></p>".toList with
  | error e =>
      rw [parsed] at counted
      cases counted
  | ok d =>
      rw [parsed] at counted
      obtain ⟨-, -, -, operations⟩ := addresses_agree d "p".toList defaultAttribute
      obtain ⟨⟨values, all, -, one, -⟩, listing⟩ := operations .tsx _ parsed
      have same : values = [some "a".toList, none] := Except.ok.inj (all.symm.trans read)
      refine ⟨d, rfl, by simpa [Except.toOption] using counted, ?_, one (-1), ⟨values, all, same⟩, ?_⟩
      · rw [one 1, same]
        rfl
      · intro disk
        obtain ⟨lines, listed, -⟩ := listing disk ⟨[("--tag", Text.bytes "p")], [Text.bytes "a"]⟩
          (Text.bytes "a") rfl (by decide) (by decide +kernel)
        have printed : (Cli.runChecked disk .list ⟨[("--tag", Text.bytes "p")],
            [Text.bytes "a"]⟩).2.stdout = "    1  p[0]  className=a\n    1  p[1]\n".toList := by
          decide +kernel
        rw [listed] at printed
        exact ⟨lines, listed, printed⟩

end Restyle
