import Restyle.Proofs.Addresses
import Restyle.Proofs.PrintedSpans
import Restyle.Proofs.UpdateAll

/-!
# Updating one element after another

Where no element of a name lies inside the tag of another one, an update of all of them gives the
text that updates of single ones give, from the last element to the first. Each of these updates
begins with the text that the one before it has left.
-/

namespace Restyle

open Syntax Text

/-- An element lies inside the tag of another one, in an attribute or in the type arguments. -/
def Element.InsideTag (e f : Element) : Prop :=
  e ≠ f ∧ f.start ≤ e.start ∧ e.stop ≤ f.stop

instance (e f : Element) : Decidable (e.InsideTag f) :=
  inferInstanceAs (Decidable (_ ∧ _))

namespace Edit

theorem sorted_eq_self {es : List Edit} (order : es.Pairwise fun a b => a.before b) :
    sorted es = es := by
  induction es with
  | nil => rfl
  | cons e es ih =>
      obtain ⟨first, order⟩ := List.pairwise_cons.mp order
      rw [sorted, ih order]
      cases es with
      | nil => rfl
      | cons f es => rw [insertSorted, if_pos (first f List.mem_cons_self)]

theorem before_of_stop_le_start {a b : Edit} (h : a.stop ≤ b.start) : a.before b := by
  have awide := a.start_le_stop
  have bwide := b.start_le_stop
  simp only [before, Bool.or_eq_true, Bool.and_eq_true, decide_eq_true_eq, beq_iff_eq]
  omega

theorem spliceAll_append (data : List UInt8) (es fs : List Edit) :
    spliceAll data (es ++ fs) = spliceAll (spliceAll data fs) es :=
  List.foldr_append

theorem take_splice {data : List UInt8} {e : Edit} {n : Nat} (before : n ≤ e.start)
    (range : e.start ≤ data.length) : (splice data e).take n = data.take n := by
  have reached : n ≤ (data.take e.start).length := by
    rw [List.length_take]
    omega
  rw [splice, List.append_assoc, List.take_append_of_le_length reached, List.take_take,
    Nat.min_eq_left before]

end Edit

namespace Document

variable {d w : Document} {tag name : List Char} {rendered : List CodePoint}

theorem locate_nodup (d : Document) (tag : List Char) : (d.locate tag none).Nodup := by
  have ordinals : ((d.locate tag none).map Element.ordinal).Nodup := by
    rw [map_ordinal_locate]
    exact List.nodup_range
  exact List.Pairwise.of_map Element.ordinal (fun _ _ distinct same => distinct (congrArg _ same))
    ordinals

/-- Elements none of which lies inside the tag of another one follow one another. -/
theorem locate_follow (h : d.SoundTree)
    (outside : ∀ e ∈ d.locate tag none, ∀ f ∈ d.locate tag none, ¬ e.InsideTag f) :
    (d.locate tag none).Pairwise fun e f => e.stop ≤ f.start := by
  have pairs := List.Pairwise.and (locate_precedes h) (d.locate_nodup tag)
  refine pairs.imp_of_mem fun {e f} he hf pair => ?_
  obtain ⟨⟨o, ho, p, hp, j, k, rfl, rfl, order⟩, distinct⟩ := pair
  rcases order with under | after
  · have parts := (opening_sound h ho).sound
    have mem : p.node ∈ o.node.subtrees := by
      rw [Tree.subtrees_eq]
      exact List.mem_cons_of_mem _ under
    have span := span_of_mem_subtrees parts mem
    exact absurd ⟨Ne.symm distinct, span⟩ (outside _ hf _ he)
  · exact after

theorem attribute_start_le {ordinal : Option Int} (h : d.SoundTree) {e : Element}
    (he : e ∈ d.locate tag ordinal) {a : Attribute} (ha : a ∈ e.attributes) : a.start ≤ e.stop := by
  obtain ⟨o, ho, k, rfl⟩ := mem_locate he
  obtain ⟨entry, hentry, rfl⟩ := List.mem_map.mp ha
  have sound := opening_sound h ho
  have mem := (Opening.mem_entries.mp hentry).1
  have inside := (sound.sound _ (Tree.self_mem_subtrees _)).ordered.mem mem
  have wide := entry.start_le_stop
  have start : (d.attributeAt entry).start = entry.start := by
    rw [attributeAt]
    split <;> rfl
  have stop : (d.elementAt o k).stop = o.node.stop := rfl
  omega

theorem indent_eq {offset : Nat} (same : w.data.take offset = d.data.take offset) :
    w.indent offset = d.indent offset := by
  simp only [indent, same]

/-- The edit of an element depends on the bytes up to the end of the element only. -/
theorem valueEdit_eq {e : Element} (starts : ∀ a ∈ e.attributes, a.start ≤ e.stop)
    (same : w.data.take e.stop = d.data.take e.stop) :
    w.valueEdit e rendered name = d.valueEdit e rendered name := by
  have separator : w.separator e = d.separator e := by
    unfold Document.separator
    split
    · rename_i a last
      have reached := starts a (List.mem_of_getLast? last)
      have same' : w.data.take a.start = d.data.take a.start := by
        have := congrArg (List.take a.start) same
        simpa only [List.take_take, Nat.min_eq_left reached] using this
      rw [indent_eq same']
    · rfl
  simp only [valueEdit, separator]

theorem kept_eq_edits (follow : d.edits.Pairwise fun a b => a.stop ≤ b.start)
    (range : ∀ e ∈ d.edits, e.stop ≤ d.data.length) : d.kept 0 d.data.length = d.edits := by
  have order : d.edits.Pairwise fun a b => a.before b := follow.imp Edit.before_of_stop_le_start
  have whole : d.editsIn 0 d.data.length = d.edits := by
    rw [editsIn, Edit.sorted_eq_self order]
    exact List.filter_eq_self.mpr (by simpa using range)
  rw [kept, whole, keptFrom_eq_self follow (by simp)]

/-- Where the elements at an address follow one another, what is printed is the text with all of
their edits put into it. -/
theorem print_follow (h : d.SoundTree) {ordinal : Option Int} (text : List Char)
    (follow : (d.locate tag ordinal).Pairwise fun e f => e.stop ≤ f.start) :
    ∃ out, (d.written tag name ordinal (ofChars text)).print.result = .ok out ∧
      encode out = Edit.spliceAll d.data
        ((d.locate tag ordinal).map fun e => d.valueEdit e (ofChars text) name) := by
  obtain ⟨out, printed, spliced⟩ := print_written h tag name ordinal text
  refine ⟨out, printed, ?_⟩
  rw [spliced]
  refine congrArg _ (kept_eq_edits (d := d.written tag name ordinal (ofChars text)) ?_ ?_)
  · rw [written, List.pairwise_map]
    refine follow.imp_of_mem fun {e f} he hf after => ?_
    obtain ⟨o, ho, j, rfl⟩ := mem_locate he
    obtain ⟨p, hp, k, rfl⟩ := mem_locate hf
    have first := valueEdit_inside h ho j (ofChars text) name
    have second := valueEdit_inside h hp k (ofChars text) name
    have after : o.node.stop ≤ p.node.start := after
    omega
  · exact List.forall_mem_map.mpr fun e he => valueEdit_stop_le h he

end Document

variable {dialect : Dialect} {source tag name text : List Char} {value rendered : List CodePoint}
  {d : Document}

/-- Update single elements of a name one after another: `k` of them, from the last one to the
first. -/
def updateEach (dialect : Dialect) (tag : List Char) (value : List CodePoint) (name : List Char) :
    Nat → List Char → Report (List Char)
  | 0, source => pure source
  | k + 1, source => do
      let out ← updateClass dialect source tag value (some k) name
      updateEach dialect tag value name k out

/-- Every text that an update of a single element leaves for the next one parses, and the elements
of the name before the one that was updated are in it what they were. -/
def Undisturbed (dialect : Dialect) (tag : List Char) (value : List CodePoint) (name : List Char) :
    Nat → Document → Prop
  | 0, _ => True
  | 1, _ => True
  | k + 2, d => ∀ out,
      (updateClass dialect d.source tag value (some (k + 1 : Nat)) name).result = .ok out →
      ∃ w, Document.parse dialect out = .ok w ∧
        (w.locate tag none).take (k + 1) = (d.locate tag none).take (k + 1) ∧
        Undisturbed dialect tag value name (k + 1) w

theorem Undisturbed.step {k : Nat} {out : List Char} {w : Document}
    (updated : (updateClass dialect d.source tag value (some (k + 1 : Nat)) name).result = .ok out)
    (reparsed : Document.parse dialect out = .ok w)
    (same : (w.locate tag none).take (k + 1) = (d.locate tag none).take (k + 1))
    (rest : Undisturbed dialect tag value name (k + 1) w) :
    Undisturbed dialect tag value name (k + 2) d := by
  intro out' updated'
  rw [updated] at updated'
  cases updated'
  exact ⟨w, reparsed, same, rest⟩

namespace Document

theorem update_follow (h : d.SoundTree) (fresh : d.edits = []) (name : List Char)
    {ordinal : Option Int} (shown : (Value.render d.dialect value).result = .ok (ofChars text))
    (follow : (d.locate tag ordinal).Pairwise fun e f => e.stop ≤ f.start) :
    ∃ out, (d.update tag value ordinal name).result = .ok out ∧
      encode out = Edit.spliceAll d.data
        ((d.locate tag ordinal).map fun e => d.valueEdit e (ofChars text) name) := by
  rw [update_eq fresh shown]
  exact print_follow h text follow

theorem update_single (h : d.SoundTree) (fresh : d.edits = []) (tag name : List Char) (k : Nat)
    (shown : (Value.render d.dialect value).result = .ok (ofChars text)) :
    ∃ out, (d.update tag value (some k) name).result = .ok out ∧
      encode out = Edit.spliceAll d.data
        ((d.locate tag none)[k]?.toList.map fun e => d.valueEdit e (ofChars text) name) := by
  have found : d.locate tag (some k) = (d.locate tag none)[k]?.toList := by
    rw [d.locate_position tag k, if_pos (Int.natCast_nonneg k), Int.toNat_natCast]
  have follow : (d.locate tag (some k)).Pairwise fun e f => e.stop ≤ f.start := by
    rw [found]
    cases (d.locate tag none)[k]? with
    | none => exact .nil
    | some e => exact List.pairwise_singleton _ e
  rw [← found]
  exact update_follow h fresh name shown follow

theorem update_surrogate (h : d.SoundTree) (fresh : d.edits = []) {ordinal : Option Int}
    (shown : (Value.render d.dialect value).result = .ok rendered)
    (surrogate : ∃ p ∈ rendered, p.IsSurrogate) (found : d.locate tag ordinal ≠ []) :
    (d.update tag value ordinal name).result = .error .surrogate := by
  rw [update_eq fresh shown]
  exact print_unwritten h found surrogate

end Document

/-- After an update of a single element the edits of the elements before it are what they were. -/
theorem valueEdit_undisturbed {k : Nat} {w : Document} (sound : d.SoundTree)
    (follow : ((d.locate tag none).take (k + 1)).Pairwise fun e f => e.stop ≤ f.start)
    (spliced : w.data = Edit.spliceAll d.data
      ((d.locate tag none)[k]?.toList.map fun e => d.valueEdit e (ofChars text) name))
    {e : Element} (he : e ∈ (d.locate tag none).take k) :
    w.valueEdit e (ofChars text) name = d.valueEdit e (ofChars text) name := by
  have located := List.mem_of_mem_take he
  apply Document.valueEdit_eq
  · exact fun a ha => Document.attribute_start_le sound located ha
  rw [spliced]
  cases here : (d.locate tag none)[k]? with
  | none => rfl
  | some f =>
      have before : e.stop ≤ f.start := by
        rw [List.take_add_one, here] at follow
        exact (List.pairwise_append.mp follow).2.2 e he f (List.mem_singleton_self f)
      have hf := List.mem_of_getElem? here
      have range : (d.valueEdit f (ofChars text) name).stop ≤ d.data.length :=
        Document.valueEdit_stop_le sound hf
      have wide := (d.valueEdit f (ofChars text) name).start_le_stop
      have inside : f.start < (d.valueEdit f (ofChars text) name).start := by
        obtain ⟨p, hp, j, rfl⟩ := Document.mem_locate hf
        exact (Document.valueEdit_inside sound hp j (ofChars text) name).1
      have reached : e.stop ≤ (d.valueEdit f (ofChars text) name).start := by omega
      exact Edit.take_splice reached (Nat.le_trans wide range)

theorem updateEach_spliced (k : Nat) (parsed : Document.parse dialect d.source = .ok d)
    (shown : (Value.render dialect value).result = .ok (ofChars text))
    (follow : ((d.locate tag none).take k).Pairwise fun e f => e.stop ≤ f.start)
    (undisturbed : Undisturbed dialect tag value name k d) :
    ∃ out, (updateEach dialect tag value name k d.source).result = .ok out ∧
      encode out = Edit.spliceAll d.data
        (((d.locate tag none).take k).map fun e => d.valueEdit e (ofChars text) name) := by
  induction k generalizing d with
  | zero => exact ⟨d.source, rfl, d.data_eq.symm⟩
  | succ k ih =>
      obtain ⟨-, same, fresh, sound⟩ := Document.parse_spec parsed
      obtain ⟨out, updated, spliced⟩ :=
        Document.update_single sound fresh tag name k (same.symm ▸ shown)
      rw [← updateClass_parsed parsed] at updated
      have each : (updateEach dialect tag value name (k + 1) d.source).result =
          (updateEach dialect tag value name k out).result := Report.result_bind updated
      rw [each, List.take_add_one, List.map_append, Edit.spliceAll_append, ← spliced]
      cases k with
      | zero => exact ⟨out, rfl, rfl⟩
      | succ k =>
          obtain ⟨w, reparsed, same, rest⟩ := undisturbed out updated
          obtain ⟨rfl, -⟩ := Document.parse_spec reparsed
          have follow' : ((w.locate tag none).take (k + 1)).Pairwise fun e f => e.stop ≤ f.start := by
            rw [same]
            exact follow.sublist (List.take_sublist_take_left (Nat.le_succ _))
          obtain ⟨last, done, spliced'⟩ := ih reparsed follow' rest
          refine ⟨last, done, ?_⟩
          rw [spliced', same, w.data_eq]
          refine congrArg _ (List.map_congr_left fun e he => ?_)
          exact valueEdit_undisturbed sound follow (w.data_eq.trans spliced) he

/-- Where no element of a name lies inside the tag of another one, an update of all of them gives
the same as updates of single ones, from the last to the first, each of the text that the one before
it has left. -/
theorem updateClass_in_turn (tag name : List Char) (parsed : Document.parse dialect source = .ok d)
    (shown : (Value.render dialect value).result = .ok rendered)
    (outside : ∀ e ∈ d.locate tag none, ∀ f ∈ d.locate tag none, ¬ e.InsideTag f)
    (undisturbed : Undisturbed dialect tag value name (d.count tag) d) :
    (updateClass dialect source tag value none name).result =
      (updateEach dialect tag value name (d.count tag) source).result := by
  obtain ⟨rfl, rfl, fresh, sound⟩ := Document.parse_spec parsed
  have follow := Document.locate_follow sound outside
  cases chars : toChars? rendered with
  | some text =>
      rw [toChars?_eq_some.mp chars] at shown
      have whole : (d.locate tag none).take (d.count tag) = d.locate tag none := List.take_length
      obtain ⟨all, updated, spliced⟩ := Document.update_follow sound fresh name shown follow
      obtain ⟨last, done, spliced'⟩ :=
        updateEach_spliced (d.count tag) parsed shown (whole.symm ▸ follow) undisturbed
      rw [whole, ← spliced] at spliced'
      rw [updateClass_parsed parsed, updated, done, encode_injective spliced']
  | none =>
      have surrogate := toChars?_eq_none.mp chars
      cases counted : d.count tag with
      | zero => exact updateClass_unlocated parsed (List.length_eq_zero_iff.mp counted)
      | succ k =>
          have inRange : k < (d.locate tag none).length := by
            rw [Document.count] at counted
            omega
          have last : d.locate tag (some k) ≠ [] := by
            rw [d.locate_position tag k, if_pos (Int.natCast_nonneg k), Int.toNat_natCast,
              List.getElem?_eq_getElem inRange]
            exact List.cons_ne_nil _ _
          have found : d.locate tag none ≠ [] := List.ne_nil_of_length_pos (Nat.zero_lt_of_lt inRange)
          have fails : (updateEach d.dialect tag value name (k + 1) d.source).result =
              .error .surrogate := by
            refine Report.result_bind_error ?_
            rw [updateClass_parsed parsed]
            exact Document.update_surrogate sound fresh shown surrogate last
          rw [updateClass_parsed parsed, fails]
          exact Document.update_surrogate sound fresh shown surrogate found

set_option maxRecDepth 100000 in
theorem updateClass_in_turn_nested :
    ∃ d, Document.parse .tsx "<p className='x'><p\n  b/></p>".toList = .ok d ∧
      (Value.render .tsx (ofChars "a".toList)).result = .ok (ofChars "\"a\"".toList) ∧
      (∀ e ∈ d.locate "p".toList none, ∀ f ∈ d.locate "p".toList none, ¬ e.InsideTag f) ∧
      Undisturbed .tsx "p".toList (ofChars "a".toList) defaultAttribute (d.count "p".toList) d ∧
      (updateClass .tsx "<p className='x'><p\n  b/></p>".toList "p".toList (ofChars "a".toList) none
        defaultAttribute).result =
      (updateEach .tsx "p".toList (ofChars "a".toList) defaultAttribute 2
        "<p className='x'><p\n  b/></p>".toList).result := by
  have shown : (Value.render .tsx (ofChars "a".toList)).result = .ok (ofChars "\"a\"".toList) := by
    decide +kernel
  have updated : (updateClass .tsx "<p className='x'><p\n  b/></p>".toList "p".toList
      (ofChars "a".toList) (some 1) defaultAttribute).result =
        .ok "<p className='x'><p\n  b\n  className=\"a\"/></p>".toList := by
    decide +kernel
  let outer : Element := ⟨['p'], 0, false, 0, 17, 16, 1, 1,
    [⟨some defaultAttribute, .literal, 3, 16, 12, some ⟨13, 16, 13, 16, by decide⟩, 1⟩]⟩
  obtain ⟨d, parsed, located⟩ := Document.exists_located .tsx "<p className='x'><p\n  b/></p>".toList
    "p".toList [outer, ⟨['p'], 1, true, 17, 25, 23, 1, 1,
      [⟨some ['b'], .absent, 22, 23, 23, none, 2⟩]⟩]
    (by decide +kernel)
  obtain ⟨w, reparsed, relocated⟩ := Document.exists_located .tsx
    "<p className='x'><p\n  b\n  className=\"a\"/></p>".toList "p".toList
    [outer, ⟨['p'], 1, true, 17, 41, 39, 1, 1, [⟨some ['b'], .absent, 22, 23, 23, none, 2⟩,
      ⟨some defaultAttribute, .literal, 26, 39, 35, some ⟨36, 39, 36, 39, by decide⟩, 3⟩]⟩]
    (by decide +kernel)
  have counted : d.count "p".toList = 2 := by
    rw [Document.count, located]
    rfl
  have outside : ∀ e ∈ d.locate "p".toList none, ∀ f ∈ d.locate "p".toList none, ¬ e.InsideTag f := by
    rw [located]
    decide
  have undisturbed : Undisturbed .tsx "p".toList (ofChars "a".toList) defaultAttribute
      (d.count "p".toList) d := by
    obtain ⟨source, -⟩ := Document.parse_spec parsed
    rw [counted]
    apply Undisturbed.step _ reparsed
    · rw [located, relocated]
      rfl
    · trivial
    · rw [source]
      exact updated
  have equal := updateClass_in_turn "p".toList defaultAttribute parsed shown outside undisturbed
  rw [counted] at equal
  exact ⟨d, parsed, shown, outside, undisturbed, equal⟩

set_option maxRecDepth 100000 in
/-- An element in the type arguments of another one may stand on the line from which a new attribute
of the other gets its indentation, although it lies in no attribute. -/
theorem updateClass_in_turn_type_arguments :
    ∃ d, Document.parse .tsx "<p<\x7b[<p className=\"\n  \"/>]:B\x7d> b/>".toList = .ok d ∧
      d.count "p".toList = 2 ∧
      (∀ e ∈ d.locate "p".toList none, ∀ f ∈ d.locate "p".toList none, ∀ a ∈ f.attributes,
        ¬ (a.start ≤ e.start ∧ e.stop ≤ a.stop)) ∧
      (Value.render .tsx (ofChars " \n ".toList)).result = .ok (ofChars "\" \n \"".toList) ∧
      Undisturbed .tsx "p".toList (ofChars " \n ".toList) defaultAttribute 2 d ∧
      (updateClass .tsx d.source "p".toList (ofChars " \n ".toList) none defaultAttribute).result =
        .ok "<p<\x7b[<p className=\" \n \"/>]:B\x7d> b\n  className=\" \n \"/>".toList ∧
      (updateEach .tsx "p".toList (ofChars " \n ".toList) defaultAttribute 2 d.source).result =
        .ok "<p<\x7b[<p className=\" \n \"/>]:B\x7d> b\n className=\" \n \"/>".toList := by
  have updated : (updateClass .tsx "<p<\x7b[<p className=\"\n  \"/>]:B\x7d> b/>".toList "p".toList
      (ofChars " \n ".toList) (some 1) defaultAttribute).result =
        .ok "<p<\x7b[<p className=\" \n \"/>]:B\x7d> b/>".toList := by
    decide +kernel
  let es : List Element := [
    ⟨['p'], 0, true, 0, 34, 32, 1, 1, [⟨some ['b'], .absent, 31, 32, 32, none, 2⟩]⟩,
    ⟨['p'], 1, true, 5, 25, 23, 1, 1,
      [⟨some defaultAttribute, .literal, 8, 23, 17, some ⟨18, 23, 18, 23, by decide⟩, 1⟩]⟩]
  obtain ⟨d, parsed, located⟩ := Document.exists_located .tsx
    "<p<\x7b[<p className=\"\n  \"/>]:B\x7d> b/>".toList "p".toList es (by decide +kernel)
  obtain ⟨w, reparsed, relocated⟩ := Document.exists_located .tsx
    "<p<\x7b[<p className=\" \n \"/>]:B\x7d> b/>".toList "p".toList es (by decide +kernel)
  obtain ⟨source, -⟩ := Document.parse_spec parsed
  have undisturbed : Undisturbed .tsx "p".toList (ofChars " \n ".toList) defaultAttribute 2 d := by
    apply Undisturbed.step _ reparsed
    · rw [located, relocated]
    · trivial
    · rw [source]
      exact updated
  refine ⟨d, parsed, ?_, ?_, ?_, undisturbed, ?_, ?_⟩
  · rw [Document.count, located]
    rfl
  · rw [located]
    decide
  · decide +kernel
  · rw [source]
    decide +kernel
  · rw [source]
    decide +kernel

end Restyle
