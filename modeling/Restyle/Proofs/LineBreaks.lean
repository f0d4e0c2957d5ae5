import Restyle.Proofs.Endings
import Restyle.Proofs.PlainValues
import Restyle.Proofs.PrintedBytes
import Restyle.Proofs.UpdateAll

/-!
# Line breaks

An update brings in line feeds of its own: one in front of an attribute that is added below others, and
one behind a comment at the end of a conditional. Neither comes after a carriage return. All other line
feeds keep what comes before them, since values are written right behind characters that are no white
space.
-/

namespace Restyle

open Syntax Text

/-- Every line feed of a text comes right after a carriage return. -/
def CarriageReturned (text : List Char) : Prop :=
  ∀ front back, text = front ++ '\n' :: back → front.getLast? = some '\r'

/-- Every line feed of a text comes right after a carriage return, if the text follows another one. -/
def ReturnedAfter (before text : List Char) : Prop :=
  ∀ front back, text = front ++ '\n' :: back → (before ++ front).getLast? = some '\r'

section Texts

variable {before text later : List Char}

theorem carriageReturned_of_not_mem (h : '\n' ∉ text) : CarriageReturned text := by
  intro front back split
  exact absurd (by simp [split]) h

theorem returnedAfter_nil : ReturnedAfter [] text ↔ CarriageReturned text :=
  Iff.rfl

theorem returnedAfter_append : ReturnedAfter before (text ++ later) ↔
    ReturnedAfter before text ∧ ReturnedAfter (before ++ text) later := by
  constructor
  · intro h
    refine ⟨fun front rest split => h front (rest ++ later) ?_, fun front rest split => ?_⟩
    · rw [split, List.append_assoc, List.cons_append]
    · rw [List.append_assoc]
      apply h (text ++ front) rest
      rw [split, List.append_assoc]
  · rintro ⟨first, second⟩ front rest split
    rcases List.append_eq_append_iff.mp split with ⟨more, rfl, found⟩ | ⟨more, rfl, found⟩
    · rw [← List.append_assoc]
      exact second more rest found
    · cases more with
      | nil => simpa using second [] rest found.symm
      | cons c more =>
          obtain ⟨rfl, -⟩ := List.cons.inj found
          exact first front more rfl

theorem returnedAfter_cons {c : Char} : ReturnedAfter before (c :: text) ↔
    (c = '\n' → before.getLast? = some '\r') ∧ ReturnedAfter (before ++ [c]) text := by
  have one : ReturnedAfter before [c] ↔ (c = '\n' → before.getLast? = some '\r') := by
    constructor
    · rintro h rfl
      simpa using h [] [] rfl
    · intro h front rest split
      cases front with
      | nil =>
          rw [List.append_nil]
          exact h (List.cons.inj split).1
      | cons b front => simp at split
  rw [← one, ← returnedAfter_append]
  rfl

instance decidableReturnedAfter : (before text : List Char) → Decidable (ReturnedAfter before text)
  | _, [] => isTrue fun front rest split => by simp at split
  | before, c :: text =>
      let _ := decidableReturnedAfter (before ++ [c]) text
      decidable_of_iff _ returnedAfter_cons.symm

instance (text : List Char) : Decidable (CarriageReturned text) :=
  decidable_of_iff _ returnedAfter_nil

theorem returnedAfter_iff (h : before.getLast? = some '\r' → text.head? ≠ some '\n') :
    ReturnedAfter before text ↔ CarriageReturned text := by
  refine forall_congr' fun front => forall_congr' fun rest => imp_congr_right ?_
  rintro rfl
  cases front with
  | nil =>
      rw [List.append_nil]
      exact iff_of_false (fun returned => h returned rfl) nofun
  | cons c front => rw [List.getLast?_append, List.getLast?_cons, Option.some_or]

theorem carriageReturned_append (line : '\n' ∉ text) (head : later.head? ≠ some '\n') :
    CarriageReturned (text ++ later) ↔ CarriageReturned later := by
  rw [← returnedAfter_nil, returnedAfter_append, returnedAfter_iff fun _ => head]
  exact and_iff_right (carriageReturned_of_not_mem line)

theorem CarriageReturned.front (h : CarriageReturned (text ++ later)) : CarriageReturned text := by
  rw [← returnedAfter_nil, returnedAfter_append] at h
  exact h.1

theorem CarriageReturned.back (h : CarriageReturned (text ++ later))
    (solid : text.getLast? ≠ some '\r') : CarriageReturned later := by
  rw [← returnedAfter_nil, returnedAfter_append] at h
  exact (returnedAfter_iff fun last => absurd last solid).mp h.2

end Texts

def Edit.Returned (e : Edit) : Prop :=
  ∀ text, e.text = ofChars text → CarriageReturned text

/-- An edit that neither parts a line feed from a carriage return nor joins the two: it ends behind a
character that is no white space, as its text does, and begins behind one if its text begins with a
line feed. -/
structure Edit.Seamless (source text : List Char) (e : Edit) : Prop where
  chars : e.text = ofChars text
  start : IsCut source e.start
  stop : EndsAt source e.stop
  first : EndsAt source e.start ∨ text.head? ≠ some '\n'
  last : ∃ c ∈ text.getLast?, c ≠ '\r'

private theorem unreturned {text : List Char} (h : ∃ c ∈ text.getLast?, isSpace c = false) :
    text.getLast? ≠ some '\r' := by
  intro last
  obtain ⟨c, found, solid⟩ := h
  cases last.symm.trans found
  cases solid

theorem Edit.returned_iff {e : Edit} {text : List Char} (chars : e.text = ofChars text) :
    e.Returned ↔ CarriageReturned text := by
  constructor
  · exact fun returned => returned text chars
  · intro returned other chars'
    rwa [← ofChars_injective (chars.symm.trans chars')]

namespace Edit.Seamless

variable {source text front gap behind before : List Char} {e : Edit} (h : e.Seamless source text)
include h

/-- The text of an edit that comes behind what stands in front of it in the source, or at the end of
another edit, is not joined to a carriage return. -/
theorem returnedAfter_iff (split : source = front ++ (gap ++ behind))
    (place : byteLength (front ++ gap) = e.start) (hb : before.getLast? ≠ some '\r') :
    ReturnedAfter (before ++ gap) text ↔ e.Returned := by
  rw [Edit.returned_iff h.chars]
  apply Restyle.returnedAfter_iff
  intro last
  rcases h.first with ends | plain
  · rw [split, ← List.append_assoc] at ends
    have solid := unreturned (ends.solid place)
    rw [List.getLast?_append] at last solid
    cases hgap : gap.getLast? with
    | none =>
        rw [hgap, Option.none_or] at last
        exact absurd last hb
    | some c =>
        rw [hgap, Option.some_or] at last solid
        exact absurd last solid
  · exact plain

theorem ends (before : List Char) : (before ++ text).getLast? ≠ some '\r' := by
  obtain ⟨c, last, other⟩ := h.last
  rw [List.getLast?_append, last, Option.some_or]
  rintro ⟨⟩
  exact other rfl

end Edit.Seamless

namespace Document

variable {d : Document} {es : List Edit}

/-- From a place on that no carriage return comes before, what is printed has every line feed right
after a carriage return if the kept edits have. -/
theorem printBytes_returned (returned : CarriageReturned d.source)
    (seamless : ∀ e ∈ es, ∃ text, e.Seamless d.source text) {front rest : List Char}
    (split : d.source = front ++ rest) (solid : front.getLast? ≠ some '\r') :
    ∃ out, (d.printBytes d.data.length (byteLength front) es).result = .ok (encode out) ∧
      ∀ before : List Char, before.getLast? ≠ some '\r' →
        (ReturnedAfter before out ↔ ∀ e ∈ keptFrom (byteLength front) es, e.Returned) := by
  induction es generalizing front rest with
  | nil =>
      have whole : IsSlice d.source (byteLength front) d.data.length rest := by
        refine ⟨front, [], by rw [split, List.append_nil], rfl, ?_⟩
        rw [d.data_eq, length_encode, split, byteLength_append]
      refine ⟨rest, congrArg Except.ok (bytes_slice whole), fun before hb => ?_⟩
      rw [returnedAfter_iff fun last => absurd last hb]
      rw [split] at returned
      exact iff_of_true (returned.back solid) nofun
  | cons e es ih =>
      obtain ⟨⟨text, seam⟩, others⟩ := List.forall_mem_cons.mp seamless
      rw [printBytes]
      by_cases dropped : e.start < byteLength front
      · rw [if_pos dropped, Report.result_bind (Report.result_note _), keptFrom, if_pos dropped]
        exact ih others split solid
      rw [if_neg dropped, keptFrom, if_neg dropped]
      simp only [toChars?_eq_some.mpr seam.chars]
      obtain ⟨gap, slice⟩ :=
        IsCut.slice ⟨front, rest, split, rfl⟩ seam.start (Nat.le_of_not_lt dropped)
      obtain ⟨front', behind, split', place, width⟩ := id slice
      rw [split, List.append_assoc] at split'
      obtain ⟨rfl, rfl⟩ := append_inj_byteLength split' place.symm
      obtain ⟨passed, left, cut, length, last⟩ := seam.stop.cut
      obtain ⟨tail, printed, after⟩ := ih others cut (unreturned last)
      rw [length] at printed after
      refine ⟨gap ++ text ++ tail, ?_, fun before hb => ?_⟩
      · rw [Report.result_bind printed, Report.result_pure, bytes_slice slice, encode_append,
          encode_append]
      · have first := seam.returnedAfter_iff split (by rw [byteLength_append, width]) hb
        have closed : (before ++ (gap ++ text)).getLast? ≠ some '\r' := by
          rw [← List.append_assoc]
          exact seam.ends (before ++ gap)
        rw [split] at returned
        have inGap : ReturnedAfter before gap :=
          (returnedAfter_iff fun last => absurd last hb).mpr (returned.back solid).front
        rw [returnedAfter_append, returnedAfter_append, after _ closed, List.forall_mem_cons, first]
        exact and_congr_left fun _ => and_iff_right inGap

/-- A text whose line feeds come after carriage returns is printed as such exactly if the kept edits
bring in no others. -/
theorem print_returned (returned : CarriageReturned d.source)
    (seamless : ∀ e ∈ d.edits, ∃ text, e.Seamless d.source text) :
    ∃ out, d.print.result = .ok out ∧
      (CarriageReturned out ↔ ∀ e ∈ d.kept 0 d.data.length, e.Returned) := by
  have listed : ∀ e ∈ d.editsIn 0 d.data.length, ∃ text, e.Seamless d.source text :=
    fun e he => seamless e (mem_editsIn.mp he).1
  have whole : d.source = [] ++ d.source := rfl
  obtain ⟨out, printed, iff⟩ := printBytes_returned returned listed whole nofun
  rw [print_eq_printSpan]
  exact ⟨out, printSpan_eq_ok.mpr printed, iff [] nofun⟩

theorem parse_ended {dialect : Dialect} {source : List Char} (h : parse dialect source = .ok d) :
    ∀ n ∈ d.root.subtrees, Ended d.source n := by
  rw [parse] at h
  split at h
  · rename_i root parsed
    cases h
    exact Grammar.parse_ended parsed
  · cases h

/-- The stretch for a value ends behind a character that is no white space, and begins behind one unless
it is that of another value. -/
theorem Placement.ended {o : Opening} {name lead : List Char} {start stop : Nat}
    (h : o.Sound d.source) (ended : ∀ n ∈ o.node.subtrees, Ended d.source n)
    (p : Placement d o name start stop lead) :
    EndsAt d.source stop ∧ (EndsAt d.source start ∨ lead = []) := by
  have part {entry n : Node} (first : d.FirstCalled o name entry) (hn : n ∈ entry.parts) :
      EndsAt d.source n.stop := by
    have inside : entry ∈ o.node.subtrees :=
      Tree.mem_subtrees_of_mem_children (Opening.mem_entries.mp first.mem).1 (Tree.self_mem_subtrees _)
    have child : n ∈ entry.subtrees :=
      Tree.mem_subtrees_of_mem_children (mem_children_of_mem_parts hn) (Tree.self_mem_subtrees _)
    exact (ended n (Tree.mem_subtrees_trans inside child)).stop
      ((ended entry inside).parts first.kind n hn)
  cases p with
  | replaced first parts => exact ⟨part first (by simp [parts]), .inr rfl⟩
  | filled first parts =>
      have name := part first (by rw [parts]; exact List.mem_cons_self)
      exact ⟨name, .inl name⟩
  | added =>
      obtain ⟨mem, turn⟩ := Opening.tail_mem h.name_mem h.name_kind
      have inside := Tree.mem_subtrees_of_mem_children mem (Tree.self_mem_subtrees o.tail)
      have tail := (ended o.tail inside).stop (Kind.closes_of_turn turn)
      exact ⟨tail, .inl tail⟩

theorem valueEdit_seamless (h : d.SoundTree) (ended : ∀ n ∈ d.root.subtrees, Ended d.source n)
    {tag name text : List Char} {ordinal : Option Int} {e : Element}
    (he : e ∈ d.locate tag ordinal) (head : text.head? ≠ some '\n')
    (last : ∃ c ∈ text.getLast?, c ≠ '\r') :
    ∃ text', (d.valueEdit e (ofChars text) name).Seamless d.source text' := by
  obtain ⟨o, ho, k, rfl⟩ := mem_locate he
  have sound := opening_sound h ho
  obtain ⟨lead, placement, written⟩ := valueEdit_spec d name sound k (ofChars text)
  obtain ⟨stop, start⟩ := placement.ended sound fun n hn =>
    ended n (Tree.mem_subtrees_trans (mem_openings ho).1 hn)
  refine ⟨lead ++ text, ?_, (placement.cut sound).1, stop, start.imp_right ?_, ?_⟩
  · rw [written, ofChars_append]
  · rintro rfl
    exact head
  · obtain ⟨c, hc, other⟩ := last
    exact ⟨c, by rw [List.getLast?_append, hc]; rfl, other⟩

theorem separator_cases (d : Document) (e : Element) :
    (e.multiline ∧ ∃ blanks, d.separator e = '\n' :: blanks) ∨
      e.multiline = false ∧ d.separator e = [' '] := by
  rw [separator]
  cases last : e.attributes.getLast? with
  | none => exact .inr ⟨by rw [Element.multiline, last], rfl⟩
  | some a =>
      cases below : e.multiline with
      | true => exact .inl ⟨rfl, _, rfl⟩
      | false => exact .inr ⟨rfl, rfl⟩

/-- The edit that gives an element a value brings in a line feed of its own exactly if it adds the
attribute below others. -/
theorem valueEdit_returned_iff (d : Document) (e : Element) {name text : List Char}
    (line : '\n' ∉ name) (head : text.head? ≠ some '\n') :
    (d.valueEdit e (ofChars text) name).Returned ↔
      CarriageReturned text ∧ (e.multiline → ∃ a, e.findAttribute name = some a) := by
  cases found : e.findAttribute name with
  | some a =>
      rw [and_iff_left fun _ => ⟨a, rfl⟩]
      cases value : a.value with
      | some v =>
          apply Edit.returned_iff
          rw [valueEdit, found]
          simp only [value]
      | none =>
          have chars : (d.valueEdit e (ofChars text) name).text = ofChars (['='] ++ text) := by
            rw [valueEdit, found]
            simp only [value, Edit.insertion, ofChars_append]
          rw [Edit.returned_iff chars]
          exact carriageReturned_append (by decide) head
  | none =>
      have chars : (d.valueEdit e (ofChars text) name).text =
          ofChars (d.separator e ++ name ++ ['='] ++ text) := by
        rw [valueEdit, found]
        simp only [Edit.insertion, ofChars_append]
      rw [Edit.returned_iff chars]
      rcases d.separator_cases e with ⟨below, blanks, separator⟩ | ⟨beside, separator⟩
      · refine iff_of_false (fun returned => ?_) fun both => ?_
        · rw [separator] at returned
          cases returned [] _ rfl
        · obtain ⟨a, other⟩ := both.2 below
          cases other
      · rw [separator, carriageReturned_append (by simpa using line) head, beside]
        exact (and_iff_left fun below => absurd below Bool.false_ne_true).symm

/-- The kept edits bring in no line feed of their own if the rendered value does not, and no element
outside the values that are replaced gets its attribute below others. -/
theorem kept_returned_iff (h : d.SoundTree) {tag name text : List Char} {ordinal : Option Int}
    (line : '\n' ∉ name) (head : text.head? ≠ some '\n') :
    (∀ e ∈ (d.written tag name ordinal (ofChars text)).kept 0 d.data.length, e.Returned) ↔
      (d.locate tag ordinal = [] ∨ CarriageReturned text) ∧
      ∀ e ∈ d.locate tag ordinal, (∀ f ∈ d.locate tag ordinal, ¬ e.InsideValue name f) →
        e.multiline → ∃ a, e.findAttribute name = some a := by
  constructor
  · intro returned
    constructor
    · by_cases none : d.locate tag ordinal = []
      · exact .inl none
      obtain ⟨e, he⟩ := List.exists_mem_of_ne_nil _ none
      obtain ⟨g, kept⟩ : ∃ g, d.valueEdit g (ofChars text) name ∈
          (d.written tag name ordinal (ofChars text)).kept 0 d.data.length := by
        by_cases inside : ∃ f ∈ d.locate tag ordinal, e.InsideValue name f
        · obtain ⟨f, hf, inside⟩ := inside
          obtain ⟨g, -, -, kept⟩ := exists_kept h he (ofChars text) hf inside
          exact ⟨g, kept⟩
        · exact ⟨e, (mem_kept_iff h he).mpr inside⟩
      exact .inr ((d.valueEdit_returned_iff g line head).mp (returned _ kept)).1
    · intro e he alone
      have kept : d.valueEdit e (ofChars text) name ∈ _ := (mem_kept_iff h he).mpr fun ⟨f, hf, inside⟩ =>
        alone f hf inside
      exact ((d.valueEdit_returned_iff e line head).mp (returned _ kept)).2
  · rintro ⟨rendered, elements⟩ edit kept
    obtain ⟨e, he, rfl⟩ := List.mem_map.mp (mem_kept kept).1
    rw [valueEdit_returned_iff d e line head]
    refine ⟨rendered.resolve_left (List.ne_nil_of_mem he), elements e he fun f hf inside => ?_⟩
    exact (mem_kept_iff h he).mp kept ⟨f, hf, inside⟩

end Document

/-- A conditional with a comment at its end gets a line feed behind the comment, and no other value
gets one. -/
theorem Value.RenderedAs.returned_iff {value text : List Char} {shape : Shape}
    (h : RenderedAs value shape text) (unbroken : shape ≠ .ternary true → '\n' ∉ text) :
    CarriageReturned text ↔ shape ≠ .ternary true := by
  constructor
  · rintro returned rfl
    cases h with
    | ternary _ some =>
        have last := returned ('\x7b' :: trim value) ['\x7d'] (by simp [braced])
        have end' := List.getLast?_eq_some_getLast some
        have solid : isBlank ((trim value).getLast some) = false := getLast?_trimEnd end'
        rw [List.getLast?_cons, end', Option.getD_some] at last
        rw [Option.some.inj last] at solid
        cases solid
  · exact fun single => carriageReturned_of_not_mem (unbroken single)

/-- Where every line feed of a source comes after a carriage return, the same holds of what an update
with a value without line feeds and backslashes returns, but for the two places at which it brings in a
line feed by itself: behind a comment at the end of a conditional, and in front of an attribute that is
added below others. Elements in values that are replaced get nothing. -/
theorem Document.update_line_breaks {d : Document} {value : List Char} (h : d.SoundTree)
    (fresh : d.edits = []) (ended : ∀ n ∈ d.root.subtrees, Ended d.source n) (tag name : List Char)
    (ordinal : Option Int) (returned : CarriageReturned d.source)
    (called : '\n' ∉ name) (line : '\n' ∉ value) (plain : '\\' ∉ value) :
    ∃ out, (d.update tag (ofChars value) ordinal name).result = .ok out ∧
      (CarriageReturned out ↔
        (d.locate tag ordinal = [] ∨ Value.classify d.dialect value ≠ .ok (.ternary true)) ∧
        ∀ e ∈ d.locate tag ordinal, (∀ f ∈ d.locate tag ordinal, ¬ e.InsideValue name f) →
          e.multiline → ∃ a, e.findAttribute name = some a) := by
  obtain ⟨shape, text, classified, shown, rendered, unbroken⟩ :=
    Value.render_plain d.dialect plain line
  obtain ⟨a, inside, b, split, first, last⟩ := rendered.delimited
  have head : text.head? ≠ some '\n' := by
    rw [split]
    rintro ⟨⟩
    cases first
  have end' : ∃ c ∈ text.getLast?, c ≠ '\r' := by
    refine ⟨b, by rw [split, ← List.cons_append, List.getLast?_concat]; rfl, ?_⟩
    rintro rfl
    cases last
  obtain ⟨out, printed, iff⟩ := print_returned
    (d := d.written tag name ordinal (ofChars text)) returned (List.forall_mem_map.mpr fun e he =>
      valueEdit_seamless h ended he head end')
  refine ⟨out, (update_eq fresh shown).trans printed, iff.trans ?_⟩
  have single : Value.classify d.dialect value ≠ .ok (.ternary true) ↔ CarriageReturned text := by
    rw [rendered.returned_iff unbroken, classified, Ne, Except.ok.injEq]
  rw [single]
  exact kept_returned_iff h called head

variable {dialect : Dialect} {source value : List Char} {d : Document}

theorem updateClass_line_breaks (tag name : List Char) (ordinal : Option Int)
    (parsed : Document.parse dialect source = .ok d) (returned : CarriageReturned source)
    (called : '\n' ∉ name) (line : '\n' ∉ value) (plain : '\\' ∉ value) :
    ∃ out, (updateClass dialect source tag (ofChars value) ordinal name).result = .ok out ∧
      (CarriageReturned out ↔
        (d.locate tag ordinal = [] ∨ Value.classify dialect value ≠ .ok (.ternary true)) ∧
        ∀ e ∈ d.locate tag ordinal, (∀ f ∈ d.locate tag ordinal, ¬ e.InsideValue name f) →
          e.multiline → ∃ a, e.findAttribute name = some a) := by
  obtain ⟨rfl, rfl, fresh, sound⟩ := Document.parse_spec parsed
  rw [updateClass_parsed parsed]
  exact Document.update_line_breaks sound fresh (Document.parse_ended parsed) tag name ordinal
    returned called line plain

set_option maxRecDepth 100000 in
theorem updateClass_line_breaks_below :
    CarriageReturned "<p\r\n  id=\"a\"\r\n/>".toList ∧
    ∃ out, (updateClass .tsx "<p\r\n  id=\"a\"\r\n/>".toList "p".toList (ofChars "b".toList) none
      defaultAttribute).result = .ok out ∧ ¬ CarriageReturned out := by
  have returned : CarriageReturned "<p\r\n  id=\"a\"\r\n/>".toList := by decide
  have located : (Document.parse .tsx "<p\r\n  id=\"a\"\r\n/>".toList).toOption.any fun d =>
      !(d.locate "p".toList none).isEmpty && (d.locate "p".toList none).all fun e =>
        e.multiline && (e.findAttribute defaultAttribute).isNone := by
    decide +kernel
  refine ⟨returned, ?_⟩
  cases parsed : Document.parse .tsx "<p\r\n  id=\"a\"\r\n/>".toList with
  | error e =>
      rw [parsed] at located
      cases located
  | ok d =>
      rw [parsed] at located
      simp only [Except.toOption, Option.any_some, Bool.and_eq_true, Bool.not_eq_true',
        List.isEmpty_eq_false_iff, List.all_eq_true, Option.isNone_iff_eq_none] at located
      obtain ⟨some, below⟩ := located
      have plain : '\n' ∉ "b".toList ∧ '\\' ∉ "b".toList := by decide
      obtain ⟨out, updated, iff⟩ := updateClass_line_breaks "p".toList defaultAttribute none parsed
        returned (by decide) plain.1 plain.2
      refine ⟨out, updated, fun kept => ?_⟩
      obtain ⟨e, he⟩ := List.exists_mem_of_ne_nil _ some
      have alone : ∀ f ∈ d.locate "p".toList none, ¬ e.InsideValue defaultAttribute f := by
        rintro f hf ⟨a, found, -⟩
        rw [(below f hf).2] at found
        cases found
      obtain ⟨a, found⟩ := (iff.mp kept).2 e he alone (below e he).1
      rw [(below e he).2] at found
      cases found

end Restyle
