import Restyle.ClassName
import Restyle.Proofs.Locating

/-!
# Updating one element

What an update with an ordinal does to a text: nothing if there is no such element, else it puts
the rendered value into one stretch inside the opening construct, and keeps all other bytes.
-/

namespace Restyle

open Syntax Text

namespace Document

variable {d : Document} {tag name : List Char} {rendered : List CodePoint}

theorem applyAll_eq (rendered : List CodePoint) (name : List Char) (es : List Element) :
    d.applyAll rendered name es =
      { d with edits := d.edits ++ es.map fun e => d.valueEdit e rendered name } := by
  induction es generalizing d with
  | nil => simp [applyAll]
  | cons e es ih =>
      have rest : d.applyAll rendered name (e :: es) =
          (d.apply e rendered name).applyAll rendered name es := rfl
      have same (f : Element) : (d.apply e rendered name).valueEdit f rendered name =
          d.valueEdit f rendered name := rfl
      rw [rest, ih]
      simp only [same]
      simp [apply, record]

/-- A document with the edits that give the elements at an address a rendered value. -/
def written (d : Document) (tag name : List Char) (ordinal : Option Int)
    (rendered : List CodePoint) : Document :=
  { d with edits := (d.locate tag ordinal).map fun e => d.valueEdit e rendered name }

/-- A write to a document without edits records one for every element that it finds. -/
theorem write_eq {value : List CodePoint} {ordinal : Option Int} (fresh : d.edits = [])
    (h : (Value.render d.dialect value).result = .ok rendered) :
    (d.write tag value ordinal name).result =
      .ok (d.written tag name ordinal rendered, !(d.locate tag ordinal).isEmpty) := by
  have applied := applyAll_eq (d := d) rendered name (d.locate tag ordinal)
  rw [fresh, List.nil_append] at applied
  rw [written, ← applied, write]
  split
  · rename_i none
    rw [Report.result_bind (Report.result_note _), none]
    rfl
  · rename_i e rest found
    rw [found]
    split
    · rw [Report.result_bind (Report.result_note _), Report.result_bind h]
      rfl
    · exact Report.result_bind h

/-- The edit of an element is of a stretch strictly inside its opening construct. -/
theorem valueEdit_inside (h : d.SoundTree) {o : Opening} (ho : o ∈ d.openings) (ordinal : Nat)
    (rendered : List CodePoint) (name : List Char) :
    o.node.start < (d.valueEdit (d.elementAt o ordinal) rendered name).start ∧
      (d.valueEdit (d.elementAt o ordinal) rendered name).stop < o.node.stop := by
  obtain ⟨lead, placement, -⟩ :=
    valueEdit_spec d name (opening_sound h ho) ordinal rendered
  have inside := placement.inside (opening_sound h ho)
  exact ⟨inside.1, inside.2.2⟩

theorem valueEdit_cut (h : d.SoundTree) {o : Opening} (ho : o ∈ d.openings) (ordinal : Nat)
    (rendered : List CodePoint) (name : List Char) :
    IsCut d.source (d.valueEdit (d.elementAt o ordinal) rendered name).start ∧
      IsCut d.source (d.valueEdit (d.elementAt o ordinal) rendered name).stop := by
  obtain ⟨lead, placement, -⟩ :=
    valueEdit_spec d name (opening_sound h ho) ordinal rendered
  exact placement.cut (opening_sound h ho)

theorem valueEdit_writable (h : d.SoundTree) {ordinal : Option Int} {e : Element}
    (he : e ∈ d.locate tag ordinal) (text : List Char) :
    (d.valueEdit e (ofChars text) name).Writable d.source := by
  obtain ⟨o, ho, k, rfl⟩ := mem_locate he
  obtain ⟨lead, -, written⟩ :=
    valueEdit_spec d name (opening_sound h ho) k (ofChars text)
  have cut := valueEdit_cut h ho k (ofChars text) name
  exact ⟨cut.1, cut.2, lead ++ text, by rw [written, ofChars_append]⟩

theorem mem_valueEdit_text {e : Element} {p : CodePoint} (hp : p ∈ rendered) :
    p ∈ (d.valueEdit e rendered name).text := by
  rw [valueEdit]
  split
  · split
    · exact hp
    · exact List.mem_append_right _ hp
  · exact List.mem_append_right _ hp

theorem valueEdit_stop_le (h : d.SoundTree) {ordinal : Option Int} {e : Element}
    (he : e ∈ d.locate tag ordinal) : (d.valueEdit e rendered name).stop ≤ d.data.length := by
  obtain ⟨o, ho, k, rfl⟩ := mem_locate he
  rw [d.data_eq]
  exact (valueEdit_cut h ho k rendered name).2.le_length

theorem mem_written (h : d.SoundTree) {ordinal : Option Int} {text : List Char} {e : Edit}
    (he : e ∈ (d.written tag name ordinal (ofChars text)).edits) :
    ∃ lead, e.text = ofChars (lead ++ text) := by
  obtain ⟨element, located, rfl⟩ := List.mem_map.mp he
  obtain ⟨o, ho, k, rfl⟩ := mem_locate located
  obtain ⟨lead, -, written⟩ := valueEdit_spec d name (opening_sound h ho) k (ofChars text)
  exact ⟨lead, by rw [written, ofChars_append]⟩

theorem print_written (h : d.SoundTree) (tag name : List Char) (ordinal : Option Int)
    (text : List Char) :
    ∃ out, (d.written tag name ordinal (ofChars text)).print.result = .ok out ∧
      encode out = Edit.spliceAll d.data
        ((d.written tag name ordinal (ofChars text)).kept 0 d.data.length) := by
  refine print_writable (List.forall_mem_map.mpr fun e he => ?_)
  exact valueEdit_writable h he text

theorem print_unwritten (h : d.SoundTree) {ordinal : Option Int} (found : d.locate tag ordinal ≠ [])
    (surrogate : ∃ p ∈ rendered, p.IsSurrogate) :
    (d.written tag name ordinal rendered).print.result = .error .surrogate := by
  refine print_surrogate (fun none => found (List.map_eq_nil_iff.mp none)) ?_
  obtain ⟨p, hp, surrogate⟩ := surrogate
  refine List.forall_mem_map.mpr fun e he => ?_
  exact ⟨valueEdit_stop_le h he, p, mem_valueEdit_text hp, surrogate⟩

theorem print_singleton {e : Edit} {text : List Char} (only : d.edits = [e])
    (front : IsCut d.source e.start) (back : IsCut d.source e.stop) (chars : e.text = ofChars text) :
    ∃ out, d.print.result = .ok out ∧
      encode out = d.data.take e.start ++ encode text ++ d.data.drop e.stop := by
  have writable : ∀ f ∈ d.edits, f.Writable d.source := by
    intro f hf
    rw [only, List.mem_singleton] at hf
    rw [hf]
    exact ⟨front, back, text, chars⟩
  have range : e.stop ≤ d.data.length := by
    rw [d.data_eq]
    exact back.le_length
  have kept : d.kept 0 d.data.length = [e] := by
    rw [kept, editsIn, only]
    simp [Edit.sorted, Edit.insertSorted, range, keptFrom]
  obtain ⟨out, printed, spliced⟩ := d.print_writable writable
  refine ⟨out, printed, ?_⟩
  rw [spliced, kept, Edit.spliceAll, List.foldr_cons, List.foldr_nil, Edit.splice,
    toChars?_eq_some.mpr chars, Option.getD_some]

variable {value : List CodePoint} {text : List Char}

theorem update_eq {ordinal : Option Int} (fresh : d.edits = [])
    (shown : (Value.render d.dialect value).result = .ok rendered) :
    (d.update tag value ordinal name).result =
      (d.written tag name ordinal rendered).print.result := by
  rw [update, Report.result_bind (write_eq fresh shown), written]
  cases d.locate tag ordinal with
  | nil =>
      rw [print, mutated]
      rfl
  | cons e rest => rfl

theorem update_unlocated {ordinal : Option Int} (none : d.locate tag ordinal = []) :
    (d.update tag value ordinal name).result = .ok d.source := by
  rw [update, write, none]
  rfl

/-- An update with an ordinal leaves a document without such an element as it is. Else it puts the
rendered value into a stretch strictly inside the opening construct, where the element has or gets
the attribute, and leaves every other byte as it is. -/
theorem update_ordinal (h : d.SoundTree) (fresh : d.edits = []) (tag name : List Char) (n : Int)
    (shown : (Value.render d.dialect value).result = .ok (ofChars text)) :
    (d.locate tag (some n) = [] ∧ (d.update tag value (some n) name).result = .ok d.source) ∨
    ∃ (k : Nat) (o : Opening) (start stop : Nat) (lead out : List Char),
      n = k ∧ (d.named tag)[k]? = some o ∧ d.locate tag (some n) = [d.elementAt o k] ∧
      d.Placement o name start stop lead ∧
      (d.update tag value (some n) name).result = .ok out ∧
      encode out = d.data.take start ++ encode (lead ++ text) ++ d.data.drop stop ∧
      o.node.start < start ∧ start ≤ stop ∧ stop < o.node.stop := by
  by_cases none : d.locate tag (some n) = []
  · exact .inl ⟨none, update_unlocated none⟩
  obtain ⟨k, rfl⟩ : ∃ k : Nat, n = k := by
    refine Int.eq_ofNat_of_zero_le (Int.le_of_not_gt fun negative => none ?_)
    exact locate_negative negative
  cases here : (d.named tag)[k]? with
  | none =>
      refine absurd ?_ none
      rw [locate_ordinal, here]
      rfl
  | some o =>
      have found : d.locate tag (some (k : Int)) = [d.elementAt o k] := by
        rw [locate_ordinal, here]
        rfl
      have osound := opening_sound h (List.mem_filter.mp (List.mem_of_getElem? here)).1
      obtain ⟨lead, placement, written⟩ := valueEdit_spec d name osound k (ofChars text)
      rw [← ofChars_append] at written
      have cut := placement.cut osound
      have only : (d.written tag name (some k) (ofChars text)).edits =
          [d.valueEdit (d.elementAt o k) (ofChars text) name] := congrArg (List.map _) found
      obtain ⟨out, printed, spliced⟩ := print_singleton only cut.1 cut.2 written
      exact .inr ⟨k, o, _, _, lead, out, rfl, here, found, placement,
        (update_eq fresh shown).trans printed, spliced, placement.inside osound⟩

end Document

variable {dialect : Dialect} {source tag name text : List Char} {value : List CodePoint}
  {d : Document}

theorem updateClass_parsed (parsed : Document.parse dialect source = .ok d) (tag name : List Char)
    (value : List CodePoint) (ordinal : Option Int) :
    (updateClass dialect source tag value ordinal name).result =
      (d.update tag value ordinal name).result :=
  Report.result_bind (Report.result_ofExcept _ |>.trans parsed)

theorem updateClass_eq {ordinal : Option Int} {rendered : List CodePoint}
    (parsed : Document.parse dialect source = .ok d)
    (shown : (Value.render dialect value).result = .ok rendered) :
    (updateClass dialect source tag value ordinal name).result =
      (d.written tag name ordinal rendered).print.result := by
  obtain ⟨-, rfl, fresh, -⟩ := Document.parse_spec parsed
  rw [updateClass_parsed parsed, Document.update_eq fresh shown]

theorem updateClass_unlocated {ordinal : Option Int} (parsed : Document.parse dialect source = .ok d)
    (none : d.locate tag ordinal = []) :
    (updateClass dialect source tag value ordinal name).result = .ok source := by
  obtain ⟨rfl, -⟩ := Document.parse_spec parsed
  rw [updateClass_parsed parsed, Document.update_unlocated none]

/-- An update with an ordinal leaves a text without such an element as it is. Else it puts the
rendered value into a stretch strictly inside the opening construct, where the element has or gets
the attribute, and leaves every other byte as it is. -/
theorem updateClass_ordinal (tag name : List Char) (n : Int)
    (parsed : Document.parse dialect source = .ok d)
    (shown : (Value.render dialect value).result = .ok (ofChars text)) :
    (d.locate tag (some n) = [] ∧
      (updateClass dialect source tag value (some n) name).result = .ok source) ∨
    ∃ (k : Nat) (o : Opening) (start stop : Nat) (lead out : List Char),
      n = k ∧ (d.named tag)[k]? = some o ∧ d.locate tag (some n) = [d.elementAt o k] ∧
      d.Placement o name start stop lead ∧
      (updateClass dialect source tag value (some n) name).result = .ok out ∧
      encode out =
        (encode source).take start ++ encode (lead ++ text) ++ (encode source).drop stop ∧
      o.node.start < start ∧ start ≤ stop ∧ stop < o.node.stop := by
  obtain ⟨rfl, rfl, fresh, sound⟩ := Document.parse_spec parsed
  rw [updateClass_parsed parsed, ← d.data_eq]
  exact Document.update_ordinal sound fresh tag name n shown

set_option maxRecDepth 100000 in
theorem updateClass_ordinal_paragraph :
    ∃ d, Document.parse .tsx "<p/>".toList = .ok d ∧
      (Value.render .tsx (ofChars "a".toList)).result = .ok (ofChars "\"a\"".toList) ∧
      ∃ (o : Opening) (start stop : Nat) (lead out : List Char),
        d.Placement o defaultAttribute start stop lead ∧
        (updateClass .tsx "<p/>".toList "p".toList (ofChars "a".toList) (some 0)
          defaultAttribute).result = .ok out ∧
        encode out = (encode "<p/>".toList).take start ++ encode (lead ++ "\"a\"".toList) ++
          (encode "<p/>".toList).drop stop := by
  have found : (Document.parse .tsx "<p/>".toList).toOption.any
      fun d => !(d.locate "p".toList (some 0)).isEmpty := by
    decide +kernel
  have shown : (Value.render .tsx (ofChars "a".toList)).result =
      .ok (ofChars "\"a\"".toList) := by
    decide +kernel
  cases parsed : Document.parse .tsx "<p/>".toList with
  | error e =>
      rw [parsed] at found
      cases found
  | ok d =>
      rw [parsed] at found
      refine ⟨d, rfl, shown, ?_⟩
      rcases updateClass_ordinal "p".toList defaultAttribute 0 parsed shown with
        ⟨none, -⟩ | ⟨k, o, start, stop, lead, out, -, -, -, placement, updated, spliced, -⟩
      · have none : d.locate ['p'] (some 0) = [] := none
        simp [Except.toOption, none] at found
      · exact ⟨o, start, stop, lead, out, placement, updated, spliced⟩

end Restyle
