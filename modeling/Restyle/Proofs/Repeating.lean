import Restyle.Proofs.UpdateAll
import Restyle.Proofs.Addresses
import Restyle.Proofs.Workspaces

/-!
# Updating twice

Once every element at an address holds a copy of the rendered value, or lies inside such a copy on
another one of them, the same update changes nothing any more. In a workspace the file is not written
again.
-/

namespace Restyle

open Syntax Text Disk

namespace Edit

theorem splice_copy {data : List UInt8} {e : Edit} {text : List Char} (chars : e.text = ofChars text)
    (same : (data.drop e.start).take (e.stop - e.start) = encode text) : splice data e = data := by
  have wide := e.start_le_stop
  have back : data.drop e.stop = (data.drop e.start).drop (e.stop - e.start) := by
    rw [List.drop_drop, Nat.add_sub_cancel' wide]
  rw [splice, toChars?_eq_some.mpr chars, Option.getD_some, ← same, back, List.append_assoc,
    List.take_append_drop, List.take_append_drop]

theorem spliceAll_copies {data : List UInt8} {es : List Edit}
    (copies : ∀ e ∈ es, splice data e = data) : spliceAll data es = data := by
  induction es with
  | nil => rfl
  | cons e es ih =>
      obtain ⟨first, rest⟩ := List.forall_mem_cons.mp copies
      rw [spliceAll, List.foldr_cons, ← spliceAll, ih rest, first]

end Edit

namespace Document

variable {d : Document} {tag name : List Char} {value : List CodePoint} {ordinal : Option Int}
  {e f : Element}

theorem locate_unique {n : Int} (he : e ∈ d.locate tag (some n)) (hf : f ∈ d.locate tag (some n)) :
    f = e := by
  rw [d.locate_position tag n] at he hf
  split at he
  · rw [if_pos ‹_›] at hf
    rw [Option.mem_toList] at he hf
    exact Option.some.inj (hf.symm.trans he)
  · cases he

/-- The first attribute of a name has a value, and its stretch is a copy of a rendered value. -/
def Holds (d : Document) (name : List Char) (value : List CodePoint) (e : Element) : Prop :=
  ∃ a ∈ e.findAttribute name, ∃ v ∈ a.value, ∃ text,
    (Value.render d.dialect value).result = .ok (ofChars text) ∧
      IsSlice d.source v.start v.stop text

theorem Holds.splice {text : List Char} (h : d.Holds name value e)
    (shown : (Value.render d.dialect value).result = .ok (ofChars text)) :
    Edit.splice d.data (d.valueEdit e (ofChars text) name) = d.data := by
  obtain ⟨a, found, v, stretch, text', shown', slice⟩ := h
  rw [shown] at shown'
  have same : text = text' := by
    have equal := congrArg toChars? (Except.ok.inj shown')
    rw [toChars?_ofChars, toChars?_ofChars] at equal
    exact Option.some.inj equal
  subst same
  have edit : d.valueEdit e (ofChars text) name =
      ⟨v.start, v.stop, ofChars text, v.start_le_stop⟩ := by
    rw [valueEdit]
    simp only [Option.mem_def.mp found, Option.mem_def.mp stretch]
  rw [edit]
  exact Edit.splice_copy rfl (bytes_slice slice)

/-- Every element at an address holds a copy of the rendered value, or lies inside one that another
element at the address holds. -/
def Settled (d : Document) (tag name : List Char) (value : List CodePoint) (ordinal : Option Int) :
    Prop :=
  ∀ e ∈ d.locate tag ordinal, d.Holds name value e ∨
    ∃ f ∈ d.locate tag ordinal, d.Holds name value f ∧ e.InsideValue name f

theorem Settled.kept (h : d.Settled tag name value ordinal) (sound : d.SoundTree)
    {rendered : List CodePoint} {edit : Edit}
    (kept : edit ∈ (d.written tag name ordinal rendered).kept 0 d.data.length) :
    ∃ e ∈ d.locate tag ordinal, d.Holds name value e ∧ edit = d.valueEdit e rendered name := by
  have recorded : edit ∈ (d.written tag name ordinal rendered).edits := by
    have range := (keptFrom_sublist 0 _).mem kept
    exact (Edit.sorted_perm _).mem_iff.mp (List.mem_filter.mp range).1
  obtain ⟨e, he, rfl⟩ := List.mem_map.mp recorded
  refine ⟨e, he, ?_, rfl⟩
  rcases h e he with holds | ⟨f, hf, holds, inside⟩
  · exact holds
  · cases ordinal with
    | none =>
        exact absurd ⟨f, hf, inside⟩ ((mem_kept_iff sound he).mp kept)
    | some n => exact locate_unique he hf ▸ holds

theorem Settled.print (h : d.Settled tag name value ordinal) (sound : d.SoundTree) {text : List Char}
    (shown : (Value.render d.dialect value).result = .ok (ofChars text)) :
    (d.written tag name ordinal (ofChars text)).print.result = .ok d.source := by
  obtain ⟨out, printed, spliced⟩ := print_written sound tag name ordinal text
  rw [Edit.spliceAll_copies] at spliced
  · rw [printed, encode_injective (spliced.trans d.data_eq)]
  · intro edit kept
    obtain ⟨e, -, holds, rfl⟩ := h.kept sound kept
    exact holds.splice shown

theorem update_settled (h : d.SoundTree) (fresh : d.edits = [])
    (settled : d.Settled tag name value ordinal) :
    (d.update tag value ordinal name).result = .ok d.source := by
  cases found : d.locate tag ordinal with
  | nil => exact update_unlocated found
  | cons e rest =>
      have rendered : ∃ text, (Value.render d.dialect value).result = .ok (ofChars text) := by
        rcases settled e (found ▸ List.mem_cons_self) with holds | ⟨f, -, holds, -⟩
        all_goals
          obtain ⟨_, -, _, -, text, shown, -⟩ := holds
          exact ⟨text, shown⟩
      obtain ⟨text, shown⟩ := rendered
      rw [update_eq fresh shown]
      exact settled.print h shown

end Document

variable {dialect : Dialect} {source out tag name : List Char} {value : List CodePoint}
  {ordinal : Option Int} {w : Document}

section Workspace

theorem Locks.lockFor_again (locks : Locks) (place : Location) :
    ((locks.lockFor place).1.lockFor place).1 = (locks.lockFor place).1 := by
  by_cases met : place ∈ locks
  · simp [lockFor, met]
  · simp [lockFor, met]

/-- An update that leaves the text that it has made leaves the file when it is made again. -/
theorem Workspace.updateClass_again {ws : Workspace} {desk : Desk} {place : Location}
    {file : Option Disk.Path} (resolved : ws.resolve desk.disk file = .ok place)
    (read : ws.readSource desk.disk place = .ok source)
    (updated : (Restyle.updateClass (dialectFor place.path) source tag value ordinal
      ws.attributeName).result = .ok out)
    (again : (Restyle.updateClass (dialectFor place.path) out tag value ordinal
      ws.attributeName).result = .ok out) :
    let done := ws.updateClass desk tag value ordinal file
    done.2 = .ok ⟨ws.relative place, out ≠ source⟩ ∧
      ws.updateClass done.1 tag value ordinal file = (done.1, .ok ⟨ws.relative place, false⟩) := by
  obtain ⟨q, bytes, found, here, decoded⟩ := readSource_eq_ok.mp read
  have first := updateAt_ok found here decoded updated
  generalize written : (if out = source then desk.disk else
    desk.disk.put q (.file (encode out))) = d at first
  have alike : Alike desk.disk d ∧ d.entry? q = some (.file (encode out)) := by
    by_cases same : out = source
    · rw [if_pos same] at written
      rw [same, encode_of_decode decoded, ← written]
      exact ⟨.refl _, here⟩
    · rw [if_neg same] at written
      have notRoot := ne_nil_of_entry here nofun
      rw [← written]
      exact ⟨alike_put here _, entry?_put_self _ _ notRoot⟩
  have resolved' : ws.resolve d file = .ok place := by
    rw [← Workspace.resolve_congr alike.1, resolved]
  have second := updateAt_ok (alike.1.find _ ▸ found) alike.2 (decode_encode out) again
  rw [if_pos rfl] at second
  have once : ws.updateClass desk tag value ordinal file =
      (⟨d, (desk.locks.lockFor place).1⟩, .ok ⟨ws.relative place, out ≠ source⟩) := by
    rw [Workspace.updateClass, resolved]
    dsimp only
    rw [first]
  rw [once]
  refine ⟨rfl, ?_⟩
  rw [Workspace.updateClass]
  dsimp only
  rw [resolved']
  dsimp only
  rw [second, Locks.lockFor_again]
  simp

end Workspace

/-- An update is idempotent, once the text that it makes parses with the rendered value in its
places: made again on that text it gives the same, and in a workspace it reports no change and writes
nothing. -/
theorem updateClass_idempotent
    (updated : (updateClass dialect source tag value ordinal name).result = .ok out)
    (reparsed : Document.parse dialect out = .ok w) (settled : w.Settled tag name value ordinal) :
    (updateClass dialect out tag value ordinal name).result = .ok out ∧
      ∀ (ws : Workspace) (desk : Desk) (file : Option Disk.Path) (place : Location),
        ws.attributeName = name → ws.resolve desk.disk file = .ok place →
        dialectFor place.path = dialect → ws.readSource desk.disk place = .ok source →
        let done := ws.updateClass desk tag value ordinal file
        done.2 = .ok ⟨ws.relative place, out ≠ source⟩ ∧
          ws.updateClass done.1 tag value ordinal file =
            (done.1, .ok ⟨ws.relative place, false⟩) := by
  have again : (updateClass dialect out tag value ordinal name).result = .ok out := by
    obtain ⟨rfl, -, fresh, sound⟩ := Document.parse_spec reparsed
    rw [updateClass_parsed reparsed, Document.update_settled sound fresh settled]
  refine ⟨again, ?_⟩
  rintro ws desk file place rfl resolved rfl read
  exact Workspace.updateClass_again resolved read updated again

set_option maxRecDepth 100000 in
theorem updateClass_idempotent_conditional :
    ∃ w, Document.parse .tsx "<p className=\x7ba?<p/>:b\x7d/>".toList = .ok w ∧
      (updateClass .tsx "<p/>".toList "p".toList (ofChars "a?<p/>:b".toList) none
        defaultAttribute).result = .ok "<p className=\x7ba?<p/>:b\x7d/>".toList ∧
      w.Settled "p".toList defaultAttribute (ofChars "a?<p/>:b".toList) none ∧
      (updateClass .tsx "<p className=\x7ba?<p/>:b\x7d/>".toList "p".toList
        (ofChars "a?<p/>:b".toList) none defaultAttribute).result =
          .ok "<p className=\x7ba?<p/>:b\x7d/>".toList := by
  have updated : (updateClass .tsx "<p/>".toList "p".toList (ofChars "a?<p/>:b".toList) none
      defaultAttribute).result = .ok "<p className=\x7ba?<p/>:b\x7d/>".toList := by
    decide +kernel
  have shown : (Value.render .tsx (ofChars "a?<p/>:b".toList)).result =
      .ok (ofChars "\x7ba?<p/>:b\x7d".toList) := by
    decide +kernel
  let v : AttributeValue := ⟨13, 23, 14, 22, by decide⟩
  let a : Attribute := ⟨some defaultAttribute, .expression, 3, 23, 12, some v, 1⟩
  let outer : Element := ⟨['p'], 0, true, 0, 25, 23, 1, 1, [a]⟩
  let inner : Element := ⟨['p'], 1, true, 16, 20, 18, 1, 1, []⟩
  obtain ⟨w, reparsed, located⟩ := Document.exists_located .tsx
    "<p className=\x7ba?<p/>:b\x7d/>".toList "p".toList [outer, inner] (by decide +kernel)
  have settled : w.Settled "p".toList defaultAttribute (ofChars "a?<p/>:b".toList) none := by
    obtain ⟨source, dialect, -⟩ := Document.parse_spec reparsed
    have holds : w.Holds defaultAttribute (ofChars "a?<p/>:b".toList) outer := by
      refine ⟨a, rfl, v, rfl, "\x7ba?<p/>:b\x7d".toList, ?_, ?_⟩
      · rw [dialect]
        exact shown
      · rw [source]
        exact ⟨"<p className=".toList, "/>".toList, by decide, by decide, by decide⟩
    have inside : inner.InsideValue defaultAttribute outer := by
      refine ⟨a, rfl, v, rfl, ?_⟩
      decide
    rw [Document.Settled, located]
    refine List.forall_mem_cons.mpr ⟨.inl holds, List.forall_mem_singleton.mpr ?_⟩
    exact .inr ⟨outer, List.mem_cons_self, holds, inside⟩
  exact ⟨w, reparsed, updated, settled, (updateClass_idempotent updated reparsed settled).1⟩

end Restyle
