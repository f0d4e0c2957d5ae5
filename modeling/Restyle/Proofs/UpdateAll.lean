import Restyle.Proofs.Update

/-!
# Updating every element of a name

An update without an ordinal records an edit for every element of the name. Two of the edits are
apart, or one is of a value that the other element lies in. Of nested ones the outermost is kept,
so that exactly the elements keep theirs that lie in no value that is replaced.
-/

namespace Restyle

open Syntax Text

/-- An element lies inside the value that an attribute of another one has. -/
def Element.InsideValue (name : List Char) (e f : Element) : Prop :=
  ∃ a ∈ f.findAttribute name, ∃ v ∈ a.value, v.start ≤ e.start ∧ e.stop ≤ v.stop

namespace Document

variable {d : Document} {tag name : List Char} {rendered : List CodePoint} {o p : Opening}
  {j k : Nat}

theorem valueEdit_wide {e : Element}
    (h : (d.valueEdit e rendered name).start < (d.valueEdit e rendered name).stop) :
    ∃ a ∈ e.findAttribute name, ∃ v ∈ a.value, v.start = (d.valueEdit e rendered name).start ∧
      v.stop = (d.valueEdit e rendered name).stop := by
  rw [valueEdit] at h ⊢
  split
  · rename_i a found
    rw [found] at h
    simp only at h
    split
    · rename_i v value
      exact ⟨a, found, v, value, rfl, rfl⟩
    · rename_i none
      rw [none] at h
      exact absurd h (Nat.lt_irrefl _)
  · rename_i none
    rw [none] at h
    exact absurd h (Nat.lt_irrefl _)

theorem valueEdit_value (d : Document) (rendered : List CodePoint) {e : Element} {a : Attribute}
    {v : AttributeValue} (found : e.findAttribute name = some a) (value : a.value = some v) :
    (d.valueEdit e rendered name).start = v.start ∧ (d.valueEdit e rendered name).stop = v.stop := by
  rw [valueEdit]
  simp only [found, value, and_self]

/-- An opening construct that comes later lies in the stretch of an edit, or before it, or after
it. -/
theorem edit_holds_or_apart (h : d.SoundTree) (ho : o ∈ d.openings) (hp : p ∈ d.openings)
    (order : o.node.Precedes p.node) (j : Nat) (rendered : List CodePoint) (name : List Char) :
    ((d.valueEdit (d.elementAt o j) rendered name).start ≤ p.node.start ∧
      p.node.stop ≤ (d.valueEdit (d.elementAt o j) rendered name).stop) ∨
    p.node.stop ≤ (d.valueEdit (d.elementAt o j) rendered name).start ∨
    (d.valueEdit (d.elementAt o j) rendered name).stop ≤ p.node.start := by
  have osound := opening_sound h ho
  obtain ⟨lead, placement, -⟩ := valueEdit_spec d name osound j rendered
  rcases order with under | apart
  · exact placement.holds_or_apart osound under (mem_openings hp).2.1
  · have inside := placement.inside osound
    exact .inr (.inr (by omega))

theorem valueEdit_nested (h : d.SoundTree) (ho : o ∈ d.openings) (hp : p ∈ d.openings)
    (order : o.node.Precedes p.node) :
    Edit.Nested (d.valueEdit (d.elementAt o j) rendered name)
      (d.valueEdit (d.elementAt p k) rendered name) := by
  have inside := valueEdit_inside h hp k rendered name
  have wide := (d.valueEdit (d.elementAt p k) rendered name).start_le_stop
  simp only [Edit.Nested, Edit.encloses, Bool.and_eq_true, decide_eq_true_eq]
  rcases edit_holds_or_apart h ho hp order j rendered name with holds | before | after
  · exact .inr (.inr (.inl (by omega)))
  · exact .inr (.inl (by omega))
  · exact .inl (by omega)

theorem encloses_of_insideValue (h : d.SoundTree) (ho : o ∈ d.openings) {f : Element}
    (inside : (d.elementAt o j).InsideValue name f) :
    (d.valueEdit f rendered name).encloses (d.valueEdit (d.elementAt o j) rendered name) := by
  obtain ⟨a, found, v, value, before, after⟩ := inside
  have stretch := valueEdit_value d rendered found value
  have own := valueEdit_inside h ho j rendered name
  have start : (d.elementAt o j).start = o.node.start := rfl
  have stop : (d.elementAt o j).stop = o.node.stop := rfl
  simp only [Edit.encloses, Bool.and_eq_true, decide_eq_true_eq]
  omega

/-- If the edit of a later element lies inside that of an earlier one, the element lies inside the
value that is replaced there. -/
theorem insideValue_of_encloses (h : d.SoundTree) (ho : o ∈ d.openings) (hp : p ∈ d.openings)
    (order : o.node.Precedes p.node)
    (around : (d.valueEdit (d.elementAt o j) rendered name).encloses
      (d.valueEdit (d.elementAt p k) rendered name)) :
    (d.elementAt p k).InsideValue name (d.elementAt o j) := by
  have own := valueEdit_inside h hp k rendered name
  have wide := (d.valueEdit (d.elementAt p k) rendered name).start_le_stop
  simp only [Edit.encloses, Bool.and_eq_true, decide_eq_true_eq] at around
  obtain ⟨a, found, v, value, vstart, vstop⟩ := valueEdit_wide
    (by omega : (d.valueEdit (d.elementAt o j) rendered name).start <
      (d.valueEdit (d.elementAt o j) rendered name).stop)
  have start : (d.elementAt p k).start = p.node.start := rfl
  have stop : (d.elementAt p k).stop = p.node.stop := rfl
  refine ⟨a, found, v, value, ?_⟩
  rcases edit_holds_or_apart h ho hp order j rendered name with holds | before | after
  all_goals omega

theorem not_encloses_earlier (h : d.SoundTree) (ho : o ∈ d.openings) (hp : p ∈ d.openings)
    (order : o.node.Precedes p.node) :
    ¬ (d.valueEdit (d.elementAt p k) rendered name).encloses
      (d.valueEdit (d.elementAt o j) rendered name) := by
  have own := valueEdit_inside h hp k rendered name
  have wide := (d.valueEdit (d.elementAt o j) rendered name).start_le_stop
  have late := (d.valueEdit (d.elementAt p k) rendered name).start_le_stop
  simp only [Edit.encloses, Bool.and_eq_true, decide_eq_true_eq]
  rcases edit_holds_or_apart h ho hp order j rendered name with holds | before | after
  all_goals omega

section Located

variable {ordinal : Option Int}

/-- Of two elements that are found, one lies inside the value of the other exactly if its edit lies inside
the edit of the other. -/
theorem encloses_iff (h : d.SoundTree) {e f : Element} (he : e ∈ d.locate tag ordinal)
    (hf : f ∈ d.locate tag ordinal) :
    (d.valueEdit f rendered name).encloses (d.valueEdit e rendered name) ↔
      e.InsideValue name f := by
  constructor
  · let R (e f : Element) : Prop :=
      (d.valueEdit f rendered name).encloses (d.valueEdit e rendered name) → e.InsideValue name f
    refine List.Pairwise.forall_of_forall_of_flip (R := R) (fun e _ => ?_) ?_ ?_ he hf
    · simp [R, Edit.encloses]
    · refine (locate_precedes h).imp ?_
      rintro _ _ ⟨o, ho, p, hp, j, k, rfl, rfl, order⟩ around
      exact absurd around (not_encloses_earlier h ho hp order)
    · refine (locate_precedes h).imp ?_
      rintro _ _ ⟨o, ho, p, hp, j, k, rfl, rfl, order⟩
      exact insideValue_of_encloses h ho hp order
  · obtain ⟨o, ho, j, rfl⟩ := mem_locate he
    exact encloses_of_insideValue h ho

theorem edits_nested (h : d.SoundTree) :
    ((d.locate tag ordinal).map fun e => d.valueEdit e rendered name).Pairwise Edit.Nested := by
  rw [List.pairwise_map]
  refine (locate_precedes h).imp ?_
  rintro _ _ ⟨o, ho, p, hp, j, k, rfl, rfl, order⟩
  exact valueEdit_nested h ho hp order

section Kept

variable (h : d.SoundTree)
include h

private theorem kept_perm : ((d.written tag name ordinal rendered).kept 0 d.data.length).Perm
    (Edit.outermost (d.written tag name ordinal rendered).edits) :=
  kept_perm_outermost (d := d.written tag name ordinal rendered) (edits_nested h)
    (List.forall_mem_map.mpr fun _ he => valueEdit_stop_le h he)

variable {e f : Element} (he : e ∈ d.locate tag ordinal)
include he

/-- Of the edits of the elements that are found, those are kept whose element lies in no value that is
replaced. -/
theorem mem_kept_iff :
    d.valueEdit e rendered name ∈ (d.written tag name ordinal rendered).kept 0 d.data.length ↔
      ¬ ∃ f ∈ d.locate tag ordinal, e.InsideValue name f := by
  rw [(kept_perm h).mem_iff, Edit.mem_outermost, written, List.forall_mem_map]
  constructor
  · rintro ⟨-, outer⟩ ⟨f, hf, inside⟩
    rw [← encloses_iff (d := d) h he hf, outer f hf] at inside
    cases inside
  · intro alone
    refine ⟨List.mem_map_of_mem he, fun f hf => ?_⟩
    rw [Bool.eq_false_iff, Ne, encloses_iff h he hf]
    exact fun inside => alone ⟨f, hf, inside⟩

/-- An element that lies in a value that is replaced lies in one whose edit is kept. -/
theorem exists_kept (rendered : List CodePoint) (hf : f ∈ d.locate tag ordinal)
    (inside : e.InsideValue name f) :
    ∃ g ∈ d.locate tag ordinal, e.InsideValue name g ∧
      d.valueEdit g rendered name ∈ (d.written tag name ordinal rendered).kept 0 d.data.length := by
  have mem : d.valueEdit f rendered name ∈ (d.written tag name ordinal rendered).edits :=
    List.mem_map_of_mem hf
  obtain ⟨_, outer, around⟩ := Edit.exists_outermost mem ((encloses_iff h he hf).mpr inside)
  obtain ⟨g, hg, rfl⟩ := List.mem_map.mp (Edit.mem_outermost.mp outer).1
  exact ⟨g, hg, (encloses_iff h he hg).mp around, (kept_perm h).mem_iff.mpr outer⟩

end Kept

end Located

/-- An update of every element of a name records one edit for each, no two at the same start. Those
are kept whose element does not lie inside the value that is replaced on another one, and what is
dropped lies inside a value that is replaced. The kept ones do not overlap, and they are what changes
when the text is printed. Only a surrogate keeps it from being printed. -/
theorem write_every {value : List CodePoint} (h : d.SoundTree) (fresh : d.edits = [])
    (tag name : List Char) (shown : (Value.render d.dialect value).result = .ok rendered) :
    ∃ (w : Document) (found : Bool), (d.write tag value none name).result = .ok (w, found) ∧
      w.edits = (d.locate tag none).map (fun e => d.valueEdit e rendered name) ∧
      (w.edits.map Edit.start).Nodup ∧
      (∀ e ∈ d.locate tag none, d.valueEdit e rendered name ∈ w.kept 0 w.data.length ↔
        ¬ ∃ f ∈ d.locate tag none, e.InsideValue name f) ∧
      (∀ e ∈ d.locate tag none, ∀ f ∈ d.locate tag none, e.InsideValue name f →
        ∃ g ∈ d.locate tag none, e.InsideValue name g ∧
          d.valueEdit g rendered name ∈ w.kept 0 w.data.length) ∧
      (w.kept 0 w.data.length).Pairwise (fun a b => a.stop ≤ b.start) ∧
      (∀ e ∈ w.kept 0 w.data.length, e ∈ w.edits) ∧
      ((∃ out, w.print.result = .ok out ∧
        encode out = Edit.spliceAll d.data (w.kept 0 w.data.length)) ∨
      (∃ p ∈ rendered, p.IsSurrogate) ∧ w.print.result = .error .surrogate) := by
  refine ⟨d.written tag name none rendered, _, write_eq fresh shown, rfl, ?_, ?_, ?_, ?_, ?_, ?_⟩
  · rw [List.Nodup, List.pairwise_map]
    exact (edits_nested h).imp fun nested => nested.start_ne
  · exact fun e he => mem_kept_iff h he
  · exact fun e he f hf => exists_kept h he rendered hf
  · exact keptFrom_pairwise 0 _
  · intro e he
    have range := (keptFrom_sublist 0 _).mem he
    exact (Edit.sorted_perm _).mem_iff.mp (List.mem_filter.mp range).1
  · by_cases none : d.locate tag none = []
    · have untouched : (d.written tag name Option.none rendered).edits = [] := congrArg _ none
      exact .inl (print_writable (by simp [untouched]))
    · cases chars : toChars? rendered with
      | some text =>
          rw [toChars?_eq_some.mp chars]
          exact .inl (print_written h tag name Option.none text)
      | none =>
          have surrogate := toChars?_eq_none.mp chars
          exact .inr ⟨surrogate, print_unwritten h none surrogate⟩

end Document

variable {dialect : Dialect} {source : List Char} {value rendered : List CodePoint} {d : Document}

theorem write_all (tag name : List Char) (parsed : Document.parse dialect source = .ok d)
    (shown : (Value.render dialect value).result = .ok rendered) :
    ∃ (w : Document) (found : Bool), (d.write tag value none name).result = .ok (w, found) ∧
      w.edits = (d.locate tag none).map (fun e => d.valueEdit e rendered name) ∧
      (w.edits.map Edit.start).Nodup ∧
      (∀ e ∈ d.locate tag none, d.valueEdit e rendered name ∈ w.kept 0 w.data.length ↔
        ¬ ∃ f ∈ d.locate tag none, e.InsideValue name f) ∧
      (∀ e ∈ d.locate tag none, ∀ f ∈ d.locate tag none, e.InsideValue name f →
        ∃ g ∈ d.locate tag none, e.InsideValue name g ∧
          d.valueEdit g rendered name ∈ w.kept 0 w.data.length) ∧
      (w.kept 0 w.data.length).Pairwise (fun a b => a.stop ≤ b.start) ∧
      (∀ e ∈ w.kept 0 w.data.length, e ∈ w.edits) ∧
      ((∃ out, w.print.result = .ok out ∧
        encode out = Edit.spliceAll (encode source) (w.kept 0 w.data.length)) ∨
      (∃ p ∈ rendered, p.IsSurrogate) ∧ w.print.result = .error .surrogate) := by
  obtain ⟨rfl, rfl, fresh, sound⟩ := Document.parse_spec parsed
  rw [← d.data_eq]
  exact Document.write_every sound fresh tag name shown

set_option maxRecDepth 100000 in
theorem write_all_nested :
    ∃ d, Document.parse .tsx "<p className=\x7b<p/>\x7d/>".toList = .ok d ∧
      (Value.render .tsx (ofChars "a".toList)).result = .ok (ofChars "\"a\"".toList) ∧
      ∃ (w : Document) (found : Bool),
        (d.write "p".toList (ofChars "a".toList) none defaultAttribute).result = .ok (w, found) ∧
        (w.edits.map Edit.start).Nodup ∧
        ∀ e ∈ d.locate "p".toList none,
          d.valueEdit e (ofChars "\"a\"".toList) defaultAttribute ∈ w.kept 0 w.data.length ↔
            ¬ ∃ f ∈ d.locate "p".toList none, e.InsideValue defaultAttribute f := by
  have accepted : (Document.parse .tsx "<p className=\x7b<p/>\x7d/>".toList).toOption.isSome := by
    decide +kernel
  have shown : (Value.render .tsx (ofChars "a".toList)).result =
      .ok (ofChars "\"a\"".toList) := by
    decide +kernel
  cases parsed : Document.parse .tsx "<p className=\x7b<p/>\x7d/>".toList with
  | error e =>
      rw [parsed] at accepted
      cases accepted
  | ok d =>
      obtain ⟨w, found, written, -, starts, kept, -⟩ :=
        write_all "p".toList defaultAttribute parsed shown
      exact ⟨d, rfl, shown, w, found, written, starts, kept⟩

end Restyle
