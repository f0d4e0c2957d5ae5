import Restyle.Document.Print
import Restyle.Proofs.Utf8

/-!
# Printing edits

Printing a document puts the texts of the edits that it keeps in place of their stretches. Where
edits are nested or apart, those are kept that lie inside no other one.
-/

namespace Restyle

open Text

namespace Edit

theorem before_total (a b : Edit) : a.before b ∨ b.before a := by
  simp only [before, Bool.or_eq_true, Bool.and_eq_true, decide_eq_true_eq, beq_iff_eq]
  omega

theorem before_trans {a b c : Edit} (h : a.before b) (k : b.before c) : a.before c := by
  simp only [before, Bool.or_eq_true, Bool.and_eq_true, decide_eq_true_eq, beq_iff_eq] at h k ⊢
  omega

theorem start_le_of_before {a b : Edit} (h : a.before b) : a.start ≤ b.start := by
  simp only [before, Bool.or_eq_true, Bool.and_eq_true, decide_eq_true_eq, beq_iff_eq] at h
  omega

theorem insertSorted_perm (e : Edit) (es : List Edit) : (insertSorted e es).Perm (e :: es) := by
  induction es with
  | nil => exact .refl _
  | cons f es ih =>
      rw [insertSorted]
      split
      · exact .refl _
      · exact (ih.cons f).trans (.swap e f es)

theorem sorted_perm (es : List Edit) : (sorted es).Perm es := by
  induction es with
  | nil => exact .refl _
  | cons e es ih => exact (insertSorted_perm e _).trans (ih.cons e)

private theorem insertSorted_pairwise {e : Edit} {es : List Edit}
    (h : es.Pairwise fun a b => a.before b) :
    (insertSorted e es).Pairwise fun a b => a.before b := by
  induction es with
  | nil => simp [insertSorted]
  | cons f es ih =>
      obtain ⟨first, rest⟩ := List.pairwise_cons.mp h
      rw [insertSorted]
      split
      · rename_i he
        refine List.pairwise_cons.mpr ⟨fun g hg => ?_, h⟩
        rcases List.mem_cons.mp hg with rfl | hg
        · exact he
        · exact before_trans he (first g hg)
      · rename_i he
        refine List.pairwise_cons.mpr ⟨fun g hg => ?_, ih rest⟩
        rcases List.mem_cons.mp ((insertSorted_perm e es).mem_iff.mp hg) with rfl | hg
        · exact (before_total g f).resolve_left he
        · exact first g hg

theorem sorted_pairwise (es : List Edit) : (sorted es).Pairwise fun a b => a.before b := by
  induction es with
  | nil => exact .nil
  | cons e es ih => exact insertSorted_pairwise ih

/-- Put the text of an edit in the place of its stretch. -/
def splice (data : List UInt8) (e : Edit) : List UInt8 :=
  data.take e.start ++ encode ((toChars? e.text).getD []) ++ data.drop e.stop

/-- Put the texts of edits in their places, one after another from the last one to the first. -/
def spliceAll (data : List UInt8) (es : List Edit) : List UInt8 :=
  es.foldr (fun e data => splice data e) data

/-- An edit of a text as one of what the text holds from an offset on. -/
def relativeTo (origin : Nat) (e : Edit) : Edit :=
  ⟨e.start - origin, e.stop - origin, e.text, Nat.sub_le_sub_right e.start_le_stop origin⟩

theorem map_relativeTo_zero (es : List Edit) : es.map (relativeTo 0) = es :=
  List.map_id es

/-- An edit that can be written into a text: it cuts no character and holds no surrogate. -/
def Writable (source : List Char) (e : Edit) : Prop :=
  IsCut source e.start ∧ IsCut source e.stop ∧ ∃ text, e.text = ofChars text

end Edit

namespace Document

variable {d : Document} {start stop cursor : Nat} {es : List Edit}

theorem start_of_mem_keptFrom {e : Edit} (h : e ∈ keptFrom cursor es) : cursor ≤ e.start := by
  induction es generalizing cursor with
  | nil => cases h
  | cons f es ih =>
      rw [keptFrom] at h
      split at h
      · exact ih h
      · rename_i first
        rcases List.mem_cons.mp h with rfl | h
        · omega
        · have later := ih h
          have own := f.start_le_stop
          omega

theorem keptFrom_pairwise (cursor : Nat) (es : List Edit) :
    (keptFrom cursor es).Pairwise fun a b => a.stop ≤ b.start := by
  induction es generalizing cursor with
  | nil => exact .nil
  | cons f es ih =>
      rw [keptFrom]
      split
      · exact ih cursor
      · exact List.pairwise_cons.mpr ⟨fun e he => start_of_mem_keptFrom he, ih f.stop⟩

theorem keptFrom_sublist (cursor : Nat) (es : List Edit) : (keptFrom cursor es).Sublist es := by
  induction es generalizing cursor with
  | nil => exact .slnil
  | cons f es ih =>
      rw [keptFrom]
      split
      · exact (ih cursor).cons f
      · exact (ih f.stop).cons_cons f

theorem bytes_slice {text : List Char} (h : IsSlice d.source start stop text) :
    d.bytes start stop = encode text := by
  rw [bytes, d.data_eq, h.encode]

theorem bytes_eq_encode (hs : IsCut d.source start) (ht : IsCut d.source stop) :
    ∃ text, d.bytes start stop = encode text := by
  rcases Nat.le_total start stop with le | le
  · obtain ⟨text, slice⟩ := hs.slice ht le
    exact ⟨text, bytes_slice slice⟩
  · exact ⟨[], by rw [bytes, Nat.sub_eq_zero_of_le le, List.take_zero, encode_nil]⟩

theorem take_bytes {middle : Nat} (le : middle ≤ stop) :
    (d.bytes start stop).take (middle - start) = d.bytes start middle := by
  rw [bytes, bytes, List.take_take, Nat.min_eq_left (Nat.sub_le_sub_right le start)]

theorem bytes_append {middle : Nat} (first : start ≤ middle) (second : middle ≤ stop) :
    d.bytes start middle ++ d.bytes middle stop = d.bytes start stop := by
  obtain ⟨front, rfl⟩ := Nat.exists_eq_add_of_le first
  obtain ⟨back, rfl⟩ := Nat.exists_eq_add_of_le second
  have whole : start + front + back - start = front + back := by omega
  rw [bytes, bytes, bytes, whole, Nat.add_sub_cancel_left, Nat.add_sub_cancel_left, List.take_add,
    List.drop_drop]

theorem length_bytes (range : stop ≤ d.data.length) : (d.bytes start stop).length = stop - start := by
  rw [bytes, List.length_take, List.length_drop]
  omega

theorem bytes_whole : d.bytes 0 d.data.length = d.data := by
  rw [bytes, List.drop_zero, Nat.sub_zero, List.take_length]

theorem printBytes_spliced (origin : Nat)
    (chars : ∀ e ∈ keptFrom cursor es, ∃ text, e.text = ofChars text)
    (within : ∀ e ∈ es, e.stop ≤ stop) (begun : origin ≤ cursor) (le : cursor ≤ stop)
    (range : stop ≤ d.data.length) :
    ∃ out, (d.printBytes stop cursor es).result = .ok out ∧
      d.bytes origin cursor ++ out =
        Edit.spliceAll (d.bytes origin stop) ((keptFrom cursor es).map (Edit.relativeTo origin)) := by
  induction es generalizing cursor with
  | nil => exact ⟨_, rfl, bytes_append begun le⟩
  | cons e es ih =>
      have within' := fun f hf => within f (List.mem_cons_of_mem e hf)
      have own := e.start_le_stop
      have last := within e List.mem_cons_self
      rw [printBytes]
      rw [keptFrom] at chars ⊢
      by_cases dropped : e.start < cursor
      · rw [if_pos dropped] at chars ⊢
        rw [if_pos dropped, Report.result_bind (Report.result_note _)]
        exact ih chars within' begun le
      · rw [if_neg dropped] at chars ⊢
        rw [if_neg dropped]
        obtain ⟨text, htext⟩ := chars e List.mem_cons_self
        obtain ⟨tail, htail, spliced⟩ := ih (fun f hf => chars f (List.mem_cons_of_mem e hf)) within'
          (by omega) last
        simp only [toChars?_eq_some.mpr htext]
        refine ⟨d.bytes cursor e.start ++ encode text ++ tail,
          by rw [Report.result_bind htail, Report.result_pure], ?_⟩
        have wide : (d.bytes origin e.stop).length = e.stop - origin :=
          length_bytes (Nat.le_trans last range)
        have front : (d.bytes origin e.stop ++ tail).take (e.start - origin) = d.bytes origin e.start := by
          rw [List.take_append_of_le_length (by omega), take_bytes own]
        have back : (d.bytes origin e.stop ++ tail).drop (e.stop - origin) = tail :=
          List.drop_left' wide
        rw [List.map_cons, Edit.spliceAll, List.foldr_cons, ← Edit.spliceAll, ← spliced, Edit.splice,
          Edit.relativeTo, front, back, toChars?_eq_some.mpr htext, Option.getD_some,
          ← List.append_assoc, ← List.append_assoc, bytes_append begun (by omega)]

theorem printBytes_text (writable : ∀ e ∈ es, e.Writable d.source) (hc : IsCut d.source cursor)
    (hs : IsCut d.source stop) : ∃ out, (d.printBytes stop cursor es).result = .ok (encode out) := by
  induction es generalizing cursor with
  | nil =>
      obtain ⟨out, hout⟩ := bytes_eq_encode hc hs
      exact ⟨out, congrArg Except.ok hout⟩
  | cons e es ih =>
      obtain ⟨hstart, hstop, text, htext⟩ := writable e List.mem_cons_self
      have writable' := fun f hf => writable f (List.mem_cons_of_mem e hf)
      rw [printBytes]
      split
      · rw [Report.result_bind (Report.result_note _)]
        exact ih writable' hc
      · obtain ⟨tail, htail⟩ := ih writable' hstop
        obtain ⟨gap, hgap⟩ := bytes_eq_encode hc hstart
        simp only [toChars?_eq_some.mpr htext]
        refine ⟨gap ++ text ++ tail, ?_⟩
        rw [Report.result_bind htail, Report.result_pure, hgap, encode_append, encode_append]

theorem mem_editsIn {e : Edit} :
    e ∈ d.editsIn start stop ↔ e ∈ d.edits ∧ start ≤ e.start ∧ e.stop ≤ stop := by
  simp [editsIn, (Edit.sorted_perm d.edits).mem_iff]

theorem mem_kept {e : Edit} (h : e ∈ d.kept start stop) :
    e ∈ d.edits ∧ start ≤ e.start ∧ e.stop ≤ stop :=
  mem_editsIn.mp ((keptFrom_sublist _ _).mem h)

theorem print_writable (h : ∀ e ∈ d.edits, e.Writable d.source) :
    ∃ out, d.print.result = .ok out ∧
      encode out = Edit.spliceAll d.data (d.kept 0 d.data.length) := by
  have length : IsCut d.source d.data.length := d.data_eq ▸ IsCut.length d.source
  rw [print]
  split
  · have writable : ∀ e ∈ d.editsIn 0 d.data.length, e.Writable d.source := fun e he =>
      h e (mem_editsIn.mp he).1
    have chars : ∀ e ∈ keptFrom 0 (d.editsIn 0 d.data.length), ∃ text, e.text = ofChars text :=
      fun e he => (h e (mem_kept he).1).2.2
    obtain ⟨out, printed⟩ := printBytes_text writable (IsCut.zero _) length
    obtain ⟨bytes, printed', spliced⟩ := printBytes_spliced 0 chars
      (fun e he => (mem_editsIn.mp he).2.2) (Nat.le_refl 0) (Nat.zero_le _) (Nat.le_refl _)
    rw [printed] at printed'
    cases printed'
    refine ⟨out, by rw [printSpan, Report.result_bind printed, decode_encode, Report.result_pure], ?_⟩
    rw [Edit.map_relativeTo_zero, bytes_whole] at spliced
    exact spliced
  · rename_i untouched
    have none : d.edits = [] := by simpa [mutated] using untouched
    exact ⟨d.source, rfl, by rw [kept, editsIn, none, d.data_eq]; rfl⟩

theorem print_surrogate (some : d.edits ≠ [])
    (h : ∀ e ∈ d.edits, e.stop ≤ d.data.length ∧ ∃ p ∈ e.text, p.IsSurrogate) :
    d.print.result = .error .surrogate := by
  have whole : d.editsIn 0 d.data.length = Edit.sorted d.edits := by
    refine List.filter_eq_self.mpr fun e he => ?_
    simpa using (h e ((Edit.sorted_perm _).mem_iff.mp he)).1
  rw [print, if_pos (by simpa [mutated] using some), printSpan]
  refine Report.result_bind_error ?_
  rw [whole]
  cases hsorted : Edit.sorted d.edits with
  | nil => exact absurd ((hsorted ▸ Edit.sorted_perm d.edits).symm.eq_nil) some
  | cons e es =>
      have he : e ∈ d.edits := (Edit.sorted_perm _).mem_iff.mp (hsorted ▸ List.mem_cons_self)
      rw [printBytes, if_neg (Nat.not_lt_zero _)]
      simp only [toChars?_eq_none.mpr (h e he).2, Report.result_fail]

end Document

namespace Edit

def encloses (a b : Edit) : Bool :=
  a.start < b.start && b.stop < a.stop

/-- Two edits that are apart, or one inside the other. -/
def Nested (a b : Edit) : Prop :=
  a.stop < b.start ∨ b.stop < a.start ∨ a.encloses b ∨ b.encloses a

theorem Nested.symm {a b : Edit} (h : Nested a b) : Nested b a := by
  rcases h with h | h | h | h
  · exact .inr (.inl h)
  · exact .inl h
  · exact .inr (.inr (.inr h))
  · exact .inr (.inr (.inl h))

theorem Nested.start_ne {a b : Edit} (h : Nested a b) : a.start ≠ b.start := by
  have := a.start_le_stop
  have := b.start_le_stop
  simp only [Nested, encloses, Bool.and_eq_true, decide_eq_true_eq] at h
  omega

/-- The edits that lie inside no other one. -/
def outermost (es : List Edit) : List Edit :=
  es.filter fun e => !es.any (·.encloses e)

theorem mem_outermost {es : List Edit} {e : Edit} :
    e ∈ outermost es ↔ e ∈ es ∧ ∀ f ∈ es, f.encloses e = false := by
  simp [outermost]

theorem encloses_trans {a b c : Edit} (h : a.encloses b) (k : b.encloses c) : a.encloses c := by
  simp only [encloses, Bool.and_eq_true, decide_eq_true_eq] at h k ⊢
  omega

theorem exists_outermost {es : List Edit} {e f : Edit} (hf : f ∈ es) (inside : f.encloses e) :
    ∃ g ∈ outermost es, g.encloses e := by
  by_cases outer : ∀ g ∈ es, g.encloses f = false
  · exact ⟨f, mem_outermost.mpr ⟨hf, outer⟩, inside⟩
  · obtain ⟨g, hg, around⟩ : ∃ g ∈ es, g.encloses f := by simpa using outer
    have earlier : g.start < f.start := by
      simp only [encloses, Bool.and_eq_true, decide_eq_true_eq] at around
      exact around.1
    exact exists_outermost hg (encloses_trans around inside)
termination_by f.start

end Edit

namespace Document

variable {d : Document}

/-- Of edits in order that are nested or apart, those are kept that lie neither inside another one
nor inside one that was kept before. -/
private theorem keptFrom_nested {cursor : Nat} {es : List Edit} (nested : es.Pairwise Edit.Nested)
    (order : es.Pairwise fun a b => a.start < b.start)
    (past : ∀ e ∈ es, cursor ≤ e.start ∨ e.stop < cursor) :
    keptFrom cursor es = es.filter fun e => decide (cursor ≤ e.start) && !es.any (·.encloses e) := by
  induction es generalizing cursor with
  | nil => rfl
  | cons f es ih =>
      obtain ⟨apart, nested⟩ := List.pairwise_cons.mp nested
      obtain ⟨first, order⟩ := List.pairwise_cons.mp order
      have fpast := past f List.mem_cons_self
      have fwide := f.start_le_stop
      rw [keptFrom]
      by_cases dropped : f.start < cursor
      · have past' := fun e he => past e (List.mem_cons_of_mem f he)
        rw [if_pos dropped, ih nested order past', List.filter_cons_of_neg (by simp [Nat.not_le.mpr dropped])]
        refine List.filter_congr fun e he => ?_
        by_cases reached : cursor ≤ e.start
        · have notInside : f.encloses e = false := by
            have := e.start_le_stop
            simp only [Edit.encloses, Bool.and_eq_false_iff, decide_eq_false_iff_not]
            omega
          rw [List.any_cons, notInside, Bool.false_or]
        · simp [reached]
      · have past' : ∀ e ∈ es, f.stop ≤ e.start ∨ e.stop < f.stop := by
          intro e he
          have := first e he
          have := e.start_le_stop
          have := apart e he
          simp only [Edit.Nested, Edit.encloses, Bool.and_eq_true, decide_eq_true_eq] at this
          omega
        have outer : (f :: es).any (·.encloses f) = false := by
          refine List.any_eq_false.mpr fun e he => ?_
          simp only [Edit.encloses, Bool.and_eq_true, decide_eq_true_eq]
          rcases List.mem_cons.mp he with rfl | he
          · omega
          · have := first e he
            omega
        rw [if_neg dropped, ih nested order past',
          List.filter_cons_of_pos (by simp only [outer, decide_eq_true (Nat.le_of_not_lt dropped)]; rfl)]
        refine congrArg _ (List.filter_congr fun e he => ?_)
        have := first e he
        have := e.start_le_stop
        have split := past' e he
        have inside : f.encloses e = !decide (f.stop ≤ e.start) := by
          rw [Bool.eq_iff_iff]
          simp only [Edit.encloses, Bool.and_eq_true, decide_eq_true_eq, Bool.not_eq_true',
            decide_eq_false_iff_not]
          omega
        rw [List.any_cons, inside, Bool.not_or, Bool.not_not, ← Bool.and_assoc,
          decide_eq_true (by omega : cursor ≤ e.start), Bool.true_and]

theorem kept_perm_outermost (nested : d.edits.Pairwise Edit.Nested)
    (range : ∀ e ∈ d.edits, e.stop ≤ d.data.length) :
    (d.kept 0 d.data.length).Perm (Edit.outermost d.edits) := by
  have perm := Edit.sorted_perm d.edits
  have nested' : (Edit.sorted d.edits).Pairwise Edit.Nested :=
    perm.symm.pairwise nested fun h => h.symm
  have order : (Edit.sorted d.edits).Pairwise fun a b => a.start < b.start := by
    refine (nested'.and (Edit.sorted_pairwise d.edits)).imp fun h => ?_
    exact Nat.lt_of_le_of_ne (Edit.start_le_of_before h.2) h.1.start_ne
  have whole : d.editsIn 0 d.data.length = Edit.sorted d.edits := by
    refine List.filter_eq_self.mpr fun e he => ?_
    simpa using range e (perm.mem_iff.mp he)
  rw [kept, whole, keptFrom_nested nested' order fun e _ => .inl (Nat.zero_le e.start)]
  have same (e : Edit) : (Edit.sorted d.edits).any (·.encloses e) = d.edits.any (·.encloses e) :=
    perm.any_eq
  simp only [Nat.zero_le, decide_true, Bool.true_and, same]
  exact perm.filter _

end Document

end Restyle
