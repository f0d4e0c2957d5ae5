import Restyle.Element.Read
import Restyle.Proofs.PrintedBytes

/-!
# Spans side by side

Where no edit crosses a place, what is printed on one side of it does not depend on the other side. So
a span between two such places is printed by itself as it is within the whole text.
-/

namespace Restyle

open Text

/-- An edit that begins before a place and ends after it, or that puts a text in at it. -/
def Edit.Crosses (place : Nat) (e : Edit) : Prop :=
  (e.start < place ∧ place < e.stop) ∨ (e.start = place ∧ e.stop = place)

instance (place : Nat) (e : Edit) : Decidable (e.Crosses place) :=
  inferInstanceAs (Decidable (_ ∨ _))

/-- An edit that does not lie in a stretch. -/
def Edit.outside (start stop : Nat) (e : Edit) : Bool :=
  !(start ≤ e.start && e.stop ≤ stop)

theorem Edit.outside_iff {start stop : Nat} {e : Edit} :
    e.outside start stop ↔ e.start < start ∨ stop < e.stop := by
  simp only [outside, Bool.not_eq_true', Bool.and_eq_false_iff, decide_eq_false_iff_not, Nat.not_le]

namespace Document

/-- A place that no edit crosses. -/
def ClearAt (d : Document) (place : Nat) : Prop :=
  ∀ e ∈ d.edits, ¬ e.Crosses place

instance (d : Document) (place : Nat) : Decidable (d.ClearAt place) :=
  inferInstanceAs (Decidable (∀ e ∈ d.edits, _))

variable {d : Document} {start middle stop cursor : Nat} {es fs : List Edit}

theorem ClearAt.keeping (clear : d.ClearAt middle) (p : Edit → Bool) :
    (d.keeping p).ClearAt middle :=
  fun e he => clear e (List.mem_filter.mp he).1

theorem ClearAt.side (clear : d.ClearAt middle) {e : Edit} (he : e ∈ d.edits) :
    (e.stop ≤ middle ∧ e.start < middle) ∨ (middle ≤ e.start ∧ middle < e.stop) := by
  have apart := clear e he
  have wide := e.start_le_stop
  rw [Edit.Crosses] at apart
  omega

private theorem filter_eq_append {p q r : Edit → Bool}
    (order : es.Pairwise fun a b => a.start ≤ b.start) (either : ∀ e ∈ es, r e = (p e || q e))
    (first : ∀ a ∈ es, ∀ b ∈ es, p a → q b → a.start < b.start) :
    es.filter r = es.filter p ++ es.filter q := by
  induction es with
  | nil => rfl
  | cons e es ih =>
      obtain ⟨least, order⟩ := List.pairwise_cons.mp order
      have rest := ih order (fun f hf => either f (List.mem_cons_of_mem e hf))
        fun a ha b hb => first a (List.mem_cons_of_mem e ha) b (List.mem_cons_of_mem e hb)
      have own := either e List.mem_cons_self
      by_cases hq : q e
      · have none : ∀ f ∈ e :: es, ¬ p f := by
          intro f hf early
          have before := first f hf e List.mem_cons_self early hq
          rcases List.mem_cons.mp hf with rfl | hf
          · omega
          · have := least f hf
            omega
        have noneLater : es.filter p = [] := List.filter_eq_nil_iff.mpr fun f hf =>
          none f (List.mem_cons_of_mem e hf)
        rw [List.filter_cons_of_pos (by simp [own, hq]), rest, List.filter_cons_of_pos hq,
          List.filter_cons_of_neg (none e List.mem_cons_self), noneLater]
        rfl
      · by_cases hp : p e
        · rw [List.filter_cons_of_pos (by simp [own, hp]), rest, List.filter_cons_of_pos hp,
            List.filter_cons_of_neg hq]
          rfl
        · rw [List.filter_cons_of_neg (by simp [own, hp, hq]), rest, List.filter_cons_of_neg hp,
            List.filter_cons_of_neg hq]

theorem editsIn_append (clear : d.ClearAt middle) (first : start ≤ middle) (second : middle ≤ stop) :
    d.editsIn start stop = d.editsIn start middle ++ d.editsIn middle stop := by
  have side {e : Edit} (he : e ∈ Edit.sorted d.edits) :=
    clear.side ((Edit.sorted_perm d.edits).mem_iff.mp he)
  refine filter_eq_append ((Edit.sorted_pairwise d.edits).imp Edit.start_le_of_before)
    (fun e he => ?_) fun a ha b hb early late => ?_
  · have side := side he
    have wide := e.start_le_stop
    rw [Bool.eq_iff_iff]
    simp only [Bool.or_eq_true, Bool.and_eq_true, decide_eq_true_eq]
    omega
  · have sideA := side ha
    have sideB := side hb
    simp only [Bool.and_eq_true, decide_eq_true_eq] at early late
    omega

private theorem printBytes_later (later : ∀ e ∈ fs, middle ≤ e.start) (le : cursor ≤ middle)
    (range : middle ≤ stop) :
    d.printBytes stop cursor fs =
      (do return d.bytes cursor middle ++ (← d.printBytes stop middle fs)) := by
  cases fs with
  | nil => rw [printBytes, printBytes, pure_bind, bytes_append le range]
  | cons f fs =>
      have begun := later f List.mem_cons_self
      rw [printBytes, if_neg (by omega), printBytes, if_neg (by omega)]
      cases toChars? f.text with
      | none => rfl
      | some text =>
          simp only [bind_assoc, pure_bind, ← bytes_append le begun, List.append_assoc]

/-- The cursor is at a place or before it when the edits up to there are done, so none of the others is
dropped that is kept from that place on. -/
private theorem printBytes_append (earlier : ∀ e ∈ es, e.stop ≤ middle)
    (later : ∀ e ∈ fs, middle ≤ e.start) (le : cursor ≤ middle) (range : middle ≤ stop) :
    d.printBytes stop cursor (es ++ fs) =
      (do return (← d.printBytes middle cursor es) ++ (← d.printBytes stop middle fs)) := by
  induction es generalizing cursor with
  | nil => rw [List.nil_append, printBytes, pure_bind, printBytes_later later le range]
  | cons e es ih =>
      have ends := earlier e List.mem_cons_self
      have earlier := fun f hf => earlier f (List.mem_cons_of_mem e hf)
      rw [List.cons_append, printBytes, printBytes]
      by_cases dropped : e.start < cursor
      · rw [if_pos dropped, if_pos dropped, ih earlier le, bind_assoc]
      · rw [if_neg dropped, if_neg dropped]
        cases toChars? e.text with
        | none => rfl
        | some text =>
            simp only [ih earlier ends, bind_assoc, pure_bind, List.append_assoc]

theorem printedBytes_append (clear : d.ClearAt middle) (first : start ≤ middle)
    (second : middle ≤ stop) :
    d.printedBytes start stop =
      (do return (← d.printedBytes start middle) ++ (← d.printedBytes middle stop)) := by
  rw [printedBytes, editsIn_append clear first second]
  exact printBytes_append (fun e he => (mem_editsIn.mp he).2.2) (fun e he => (mem_editsIn.mp he).2.1)
    first second

section Span

variable (clearStart : d.ClearAt start) (clearStop : d.ClearAt stop) (le : start ≤ stop)
  (range : stop ≤ d.data.length)
include clearStart clearStop le range

theorem printedBytes_span :
    d.printedBytes 0 d.data.length =
      (do
        let front ← d.printedBytes 0 start
        let piece ← d.printedBytes start stop
        let back ← d.printedBytes stop d.data.length
        return front ++ piece ++ back) := by
  rw [printedBytes_append clearStart (Nat.zero_le start) (Nat.le_trans le range),
    printedBytes_append clearStop le range]
  simp only [bind_assoc, pure_bind, List.append_assoc]

/-- Without the edits of a span, the rest of the text is printed as it is with them. -/
theorem printedBytes_outside :
    (d.keeping (Edit.outside start stop)).printedBytes 0 d.data.length =
      (do
        let front ← d.printedBytes 0 start
        let back ← d.printedBytes stop d.data.length
        return front ++ d.bytes start stop ++ back) := by
  have front :
      (d.keeping (Edit.outside start stop)).printedBytes 0 start = d.printedBytes 0 start := by
    refine printedBytes_keeping fun e he => Edit.outside_iff.mpr ?_
    obtain ⟨mem, -, ends⟩ := mem_editsIn.mp he
    have side := clearStart.side mem
    omega
  have piece : (d.keeping (Edit.outside start stop)).printedBytes start stop =
      pure (d.bytes start stop) := by
    refine printedBytes_unedited fun e he => ?_
    obtain ⟨mem, begins, ends⟩ := mem_editsIn.mp he
    have left := Edit.outside_iff.mp (List.mem_filter.mp mem).2
    omega
  have back : (d.keeping (Edit.outside start stop)).printedBytes stop d.data.length =
      d.printedBytes stop d.data.length := by
    refine printedBytes_keeping fun e he => Edit.outside_iff.mpr ?_
    obtain ⟨mem, begins, -⟩ := mem_editsIn.mp he
    have side := clearStop.side mem
    omega
  have whole := printedBytes_span (clearStart.keeping (Edit.outside start stop))
    (clearStop.keeping (Edit.outside start stop)) le range
  rw [keeping_data, front, piece, back] at whole
  simpa only [pure_bind] using whole

end Span

end Document

/-- The stretch that reading prints of an attribute: what its quotes or its braces hold, or its value as
a whole. -/
def Attribute.stretch? (a : Attribute) : Option (Nat × Nat) :=
  match a.kind, a.value with
  | .literal, some v => if v.start < v.stop then some (v.start + 1, v.stop - 1) else none
  | .expression, some v => some (v.innerStart, v.innerStop)
  | .element, some v => some (v.start, v.stop)
  | _, _ => none

/-- What reading makes of the text of that stretch. -/
def ValueKind.shows (kind : ValueKind) (text : List Char) : Option (List Char) :=
  match kind with
  | .expression => if (trim text).isEmpty then none else some (trim text)
  | _ => some text

namespace Document

variable {d : Document} {start stop : Nat}

theorem readValue_stretch {a : Attribute} (stretch : a.stretch? = some (start, stop)) :
    d.readValue a = (do return a.kind.shows (← d.printSpan start stop)) := by
  obtain ⟨name, kind, first, last, nameStop, value, line⟩ := a
  unfold Attribute.stretch? at stretch
  split at stretch
  · rename_i v literal valued
    split at stretch
    · rename_i wide
      cases stretch
      obtain ⟨last, hlast⟩ := Nat.exists_eq_succ_of_ne_zero (Nat.ne_zero_of_lt wide)
      simp only at literal valued
      subst literal valued
      simp only [readValue, readAs, printInside, hlast]
      rfl
    · cases stretch
  · rename_i v expression valued
    cases stretch
    simp only at expression valued
    subst expression valued
    rfl
  · rename_i v element valued
    cases stretch
    simp only at element valued
    subst element valued
    rfl
  · cases stretch

/-- What is printed of a stretch is what is printed before a place in it and after the place, unless
an edit crosses the place. So a span between two such places is printed, and read, by itself as it is
within the whole text, and without its edits the rest of the text is printed as it is with them. -/
theorem print_joined (d : Document) :
    (∀ start middle stop, start ≤ middle → middle ≤ stop → d.ClearAt middle →
      d.printedBytes start stop =
          (do return (← d.printedBytes start middle) ++ (← d.printedBytes middle stop)) ∧
        ∀ front back, (d.printSpan start middle).result = .ok front →
          (d.printSpan middle stop).result = .ok back →
          (d.printSpan start stop).result = .ok (front ++ back)) ∧
    ∀ start stop, start ≤ stop → stop ≤ d.data.length → d.ClearAt start → d.ClearAt stop →
      d.print = (do
        let front ← d.printedBytes 0 start
        let piece ← d.printedBytes start stop
        let back ← d.printedBytes stop d.data.length
        asText (front ++ piece ++ back)) ∧
      d.printSpan start stop = (do asText (← d.printedBytes start stop)) ∧
      (∀ a : Attribute, a.stretch? = some (start, stop) →
        d.readValue a = (do return a.kind.shows (← d.printSpan start stop))) ∧
      (d.keeping (Edit.outside start stop)).print = (do
        let front ← d.printedBytes 0 start
        let back ← d.printedBytes stop d.data.length
        asText (front ++ d.bytes start stop ++ back)) := by
  refine ⟨fun start middle stop first second clear => ⟨printedBytes_append clear first second,
      fun front back hfront hback => ?_⟩,
    fun start stop le range clearStart clearStop => ⟨?_, rfl, ?_, ?_⟩⟩
  · rw [printSpan_eq_ok] at hfront hback ⊢
    rw [printedBytes_append clear first second, Report.result_bind hfront, Report.result_bind hback,
      Report.result_pure, encode_append]
  · rw [print_eq_printSpan, printSpan_eq_asText, printedBytes_span clearStart clearStop le range]
    simp only [bind_assoc, pure_bind]
  · exact fun a stretch => readValue_stretch stretch
  · rw [print_eq_printSpan, printSpan_eq_asText, keeping_data,
      printedBytes_outside clearStart clearStop le range]
    simp only [bind_assoc, pure_bind]

theorem print_joined_nested :
    ∃ (d : Document) (a : Attribute), 0 ≤ 1 ∧ 1 ≤ 5 ∧ 5 ≤ d.data.length ∧ d.ClearAt 1 ∧ d.ClearAt 5 ∧
      a.stretch? = some (1, 5) ∧
      d.edits = [⟨3, 4, ofChars ['w'], by decide⟩, ⟨2, 5, ofChars ['x'], by decide⟩,
        ⟨0, 1, ofChars ['y'], by decide⟩, .insertion 6 (ofChars ['z'])] ∧
      d.printedBytes 0 5 = (do return (← d.printedBytes 0 1) ++ (← d.printedBytes 1 5)) ∧
      d.print = (do
        let front ← d.printedBytes 0 1
        let piece ← d.printedBytes 1 5
        let back ← d.printedBytes 5 d.data.length
        asText (front ++ piece ++ back)) ∧
      d.print.result = .ok "ybxfz".toList ∧
      (d.readValue a).result = .ok (some "bx".toList) := by
  let root : Syntax.Node := .node ⟨.program, 0, 6, 0, by decide⟩ []
  let d : Document :=
    { Document.ofTree "abcdef".toList root .tsx with
      edits := [⟨3, 4, ofChars ['w'], by decide⟩, ⟨2, 5, ofChars ['x'], by decide⟩,
        ⟨0, 1, ofChars ['y'], by decide⟩, .insertion 6 (ofChars ['z'])] }
  let a : Attribute := ⟨some ['a'], .expression, 0, 6, 1, some ⟨1, 5, 1, 5, by decide⟩, 1⟩
  obtain ⟨joined, within⟩ := d.print_joined
  obtain ⟨bytes, -⟩ := joined 0 1 5 (by decide) (by decide) (by decide)
  obtain ⟨whole, -, read, -⟩ := within 1 5 (by decide) (by decide) (by decide) (by decide)
  refine ⟨d, a, by decide, by decide, by decide, by decide, by decide, rfl, rfl, bytes, whole,
    by decide, ?_⟩
  rw [read a rfl]
  decide

end Document

end Restyle
