import Restyle.Proofs.PrintedBytes
import Restyle.Proofs.PrintedSpans
import Restyle.Proofs.Recording

/-!
# Edits between characters

Offsets count bytes, and a text is made of characters. Where edits begin and end between two
characters, or past the text, whatever is printed is a text again: the only thing that can go wrong is
a surrogate that is to be written.
-/

namespace Restyle

open Syntax Text

/-- An offset between two characters of a text, or past its end. -/
def IsCutOrPast (source : List Char) (offset : Nat) : Prop :=
  IsCut source offset ∨ (encode source).length < offset

/-- An edit that cuts no character of a text. -/
structure Edit.Uncut (source : List Char) (e : Edit) : Prop where
  start : IsCutOrPast source e.start
  stop : IsCutOrPast source e.stop

theorem Edit.Uncut.within {source : List Char} {e : Edit} (h : e.Uncut source)
    (range : e.stop ≤ (encode source).length) : IsCut source e.start ∧ IsCut source e.stop := by
  have order := e.start_le_stop
  exact ⟨h.start.resolve_right (by omega), h.stop.resolve_right (by omega)⟩

namespace Document

variable {d : Document} {start stop cursor : Nat} {es : List Edit}

/-- Edits that cut no character leave bytes of a text, if they can be written at all. -/
theorem printBytes_uncut (uncut : ∀ e ∈ es, IsCut d.source e.start ∧ IsCut d.source e.stop)
    (hc : IsCut d.source cursor) (hs : IsCut d.source stop) :
    (∃ out, (d.printBytes stop cursor es).result = .ok (encode out)) ∨
      (d.printBytes stop cursor es).result = .error .surrogate := by
  induction es generalizing cursor with
  | nil =>
      obtain ⟨out, gap⟩ := bytes_eq_encode hc hs
      exact .inl ⟨out, congrArg Except.ok gap⟩
  | cons e es ih =>
      obtain ⟨front, back⟩ := uncut e List.mem_cons_self
      have rest := fun f hf => uncut f (List.mem_cons_of_mem e hf)
      rw [printBytes]
      split
      · rw [Report.result_bind (Report.result_note _)]
        exact ih rest hc
      · cases toChars? e.text with
        | none => exact .inr rfl
        | some text =>
            dsimp only
            rcases ih rest back with ⟨tail, printed⟩ | surrogate
            · obtain ⟨gap, before⟩ := bytes_eq_encode hc front
              refine .inl ⟨gap ++ text ++ tail, ?_⟩
              rw [Report.result_bind printed, Report.result_pure, before, encode_append,
                encode_append]
            · exact .inr (Report.result_bind_error surrogate)

theorem printSpan_reversed (reversed : stop < start) :
    d.printSpan start stop = pure [] ∧ d.bytes start stop = [] ∧ d.kept start stop = [] := by
  have none : ∀ e ∈ d.editsIn start stop, False := by
    intro e he
    have inside := mem_editsIn.mp he
    have order := e.start_le_stop
    omega
  have empty : d.bytes start stop = [] := by
    rw [bytes, Nat.sub_eq_zero_of_le (Nat.le_of_lt reversed), List.take_zero]
  refine ⟨?_, empty, ?_⟩
  · rw [printSpan_eq_asText, printedBytes_unedited none, empty, pure_bind]
    exact asText_encode []
  · rw [kept, List.eq_nil_iff_forall_not_mem.mpr none]
    rfl

/-- Where neither edits nor the stretch cut a character, the stretch is printed with the kept edits
put into it, unless a surrogate is to be written. -/
theorem printSpan_uncut (uncut : ∀ e ∈ d.edits, e.Uncut d.source) (hs : IsCut d.source start)
    (ht : IsCut d.source stop) :
    (∃ out, (d.printSpan start stop).result = .ok out ∧
      encode out = Edit.spliceAll (d.bytes start stop)
        ((d.kept start stop).map (Edit.relativeTo start))) ∨
    (∃ e ∈ d.kept start stop, ∃ p ∈ e.text, p.IsSurrogate) ∧
      (d.printSpan start stop).result = .error .surrogate := by
  rcases Nat.lt_or_ge stop start with reversed | le
  · obtain ⟨printed, empty, none⟩ := printSpan_reversed (d := d) reversed
    exact .inl ⟨[], by rw [printed, Report.result_pure], by rw [empty, none]; rfl⟩
  have range : stop ≤ d.data.length := d.data_eq ▸ ht.le_length
  have within : ∀ e ∈ d.editsIn start stop, IsCut d.source e.start ∧ IsCut d.source e.stop := by
    intro e he
    obtain ⟨mem, -, last⟩ := mem_editsIn.mp he
    exact (uncut e mem).within (Nat.le_trans last ht.le_length)
  rcases printSpan_eq le range with surrogate | ⟨chars, spliced⟩
  · exact .inr surrogate
  cases decoded : decode (Edit.spliceAll (d.bytes start stop)
      ((d.kept start stop).map (Edit.relativeTo start))) with
  | ok text =>
      rw [decoded] at spliced
      exact .inl ⟨text, spliced, encode_of_decode decoded⟩
  | error e =>
      rw [decoded] at spliced
      rcases printBytes_uncut within hs ht with ⟨out, bytes⟩ | surrogate
      · rw [printSpan_eq_ok.mpr bytes] at spliced
        cases spliced
      · rw [printSpan, Report.result_bind_error surrogate] at spliced
        cases spliced

theorem print_uncut (uncut : ∀ e ∈ d.edits, e.Uncut d.source) :
    (∃ out, d.print.result = .ok out ∧
      encode out = Edit.spliceAll d.data (d.kept 0 d.data.length)) ∨
    (∃ e ∈ d.kept 0 d.data.length, ∃ p ∈ e.text, p.IsSurrogate) ∧
      d.print.result = .error .surrogate := by
  have length : IsCut d.source d.data.length := d.data_eq ▸ IsCut.length d.source
  have printed := printSpan_uncut uncut (IsCut.zero _) length
  rw [bytes_whole, Edit.map_relativeTo_zero, ← print_eq_printSpan] at printed
  exact printed

theorem print_unapplied (past : ∀ e ∈ d.edits, d.data.length < e.stop) : d.print = pure d.source := by
  have none : ∀ e ∈ d.editsIn 0 d.data.length, False := by
    intro e he
    obtain ⟨mem, -, last⟩ := mem_editsIn.mp he
    exact absurd last (Nat.not_le.mpr (past e mem))
  rw [print_eq_printSpan, printSpan_eq_asText, printedBytes_unedited none, bytes_whole, pure_bind,
    d.data_eq]
  exact asText_encode d.source

/-- Steps that record no edit but those of writes. -/
def Step.IsWrite : Step → Prop
  | .edit .. | .apply .. => False
  | .write .. | .read .. | .print | .printSpan .. | .locate .. => True

theorem uncut_after (cut : d.CutTree) (uncut : ∀ e ∈ d.edits, e.Uncut d.source) {steps : List Step}
    (writes : ∀ s ∈ steps, s.IsWrite) :
    ∀ e ∈ (d.after steps).edits, e.Uncut (d.after steps).source := by
  rw [after_eq]
  intro e he
  rcases List.mem_append.mp he with he | he
  · exact uncut e he
  obtain ⟨step, hs, he⟩ := List.mem_flatMap.mp he
  have write := writes step hs
  cases step with
  | edit | apply => exact write.elim
  | read | print | printSpan | locate => cases he
  | write tag value ordinal name =>
      rw [Step.edits] at he
      split at he
      · obtain ⟨element, located, rfl⟩ := List.mem_map.mp he
        obtain ⟨front, back⟩ := valueEdit_uncut cut located _ name
        exact ⟨.inl front, .inl back⟩
      · cases he

/-- Printing never cuts a character. If edits hold no surrogate and begin and end between characters of
the text or past it, every stretch that does so too is printed as the splice of its bytes, and so is
the whole text, which stays as it is if no edit lies in it. Of a tree whose nodes begin and end
between characters, what writes leave is printed as a text, unless a surrogate was to be written. -/
theorem print_cuts_nothing (d : Document) :
    ((∀ e ∈ d.edits, e.Uncut d.source ∧ ∀ p ∈ e.text, ¬ p.IsSurrogate) →
      (∀ start stop, IsCut d.source start → IsCut d.source stop →
        ∃ out, (d.printSpan start stop).result = .ok out ∧
          encode out = Edit.spliceAll (d.bytes start stop)
            ((d.kept start stop).map (Edit.relativeTo start))) ∧
      ∃ out, d.print.result = .ok out ∧
        encode out = Edit.spliceAll d.data (d.kept 0 d.data.length)) ∧
    ((∀ e ∈ d.edits, d.data.length < e.stop) → d.print = pure d.source) ∧
    (d.CutTree → (∀ e ∈ d.edits, e.Uncut d.source) → ∀ steps, (∀ s ∈ steps, Step.IsWrite s) →
      (∀ start stop, IsCut d.source start → IsCut d.source stop →
        ∀ e, ((d.after steps).printSpan start stop).result = .error e → e = .surrogate) ∧
      ∀ e, (d.after steps).print.result = .error e → e = .surrogate) := by
  refine ⟨fun edits => ?_, print_unapplied, fun cut uncut steps writes => ?_⟩
  · have clean (start stop : Nat) : ¬ ∃ e ∈ d.kept start stop, ∃ p ∈ e.text, p.IsSurrogate := by
      rintro ⟨e, he, p, hp, surrogate⟩
      exact (edits e (mem_kept he).1).2 p hp surrogate
    have uncut := fun e he => (edits e he).1
    exact ⟨fun start stop hs ht =>
        (printSpan_uncut uncut hs ht).resolve_right fun failed => clean _ _ failed.1,
      (print_uncut uncut).resolve_right fun failed => clean _ _ failed.1⟩
  · have uncut' := uncut_after cut uncut writes
    have source : (d.after steps).source = d.source := (grown_after d steps).source
    constructor
    · intro start stop hs ht e failed
      rw [← source] at hs ht
      rcases printSpan_uncut uncut' hs ht with ⟨out, printed, -⟩ | ⟨-, printed⟩
      all_goals
        rw [printed] at failed
        cases failed
      rfl
    · intro e failed
      rcases print_uncut uncut' with ⟨out, printed, -⟩ | ⟨-, printed⟩
      all_goals
        rw [printed] at failed
        cases failed
      rfl

/-- A replacement, an insertion in front of it, and an edit that reaches past the text. -/
def accents : List Edit :=
  [⟨3, 5, ofChars ['à', 'ß'], by decide⟩, .insertion 3 (ofChars ['ö']),
    ⟨5, 100, ofChars ['ü'], by decide⟩]

set_option maxRecDepth 100000 in
theorem print_cuts_nothing_accented :
    ∃ d, parse .tsx "<p>é<b/></p>".toList = .ok d ∧ d.CutTree ∧
      (∃ out, ({ d with edits := accents } : Document).print.result = .ok out ∧
        encode out = encode "<p>öàß<b/></p>".toList) ∧
      ({ d with edits := accents.drop 2 } : Document).print = pure d.source ∧
      ∀ e, (d.after [.write "b".toList (ofChars ['ü']) none defaultAttribute,
        .write "p".toList (ofChars ['à']) (some 0) defaultAttribute]).print.result = .error e →
          e = .surrogate := by
  have run : (parse .tsx "<p>é<b/></p>".toList).toOption.any fun d =>
      Edit.spliceAll d.data (({ d with edits := accents } : Document).kept 0 d.data.length) =
        encode "<p>öàß<b/></p>".toList ∧ d.data.length < 100 := by
    decide +kernel
  cases parsed : parse .tsx "<p>é<b/></p>".toList with
  | error e =>
      rw [parsed] at run
      cases run
  | ok d =>
      rw [parsed] at run
      obtain ⟨whole, short⟩ := of_decide_eq_true run
      obtain ⟨source, -, fresh, sound⟩ := parse_spec parsed
      have front : IsCutOrPast d.source 3 :=
        .inl ⟨"<p>".toList, "é<b/></p>".toList, source, by decide⟩
      have back : IsCutOrPast d.source 5 :=
        .inl ⟨"<p>é".toList, "<b/></p>".toList, source, by decide⟩
      have past : IsCutOrPast d.source 100 := .inr (d.data_eq ▸ short)
      have plain (text : List Char) : ∀ p ∈ ofChars text, ¬ p.IsSurrogate :=
        fun p hp surrogate => not_surrogate_ofChars text ⟨p, hp, surrogate⟩
      have clean : ∀ e ∈ accents, e.Uncut d.source ∧ ∀ p ∈ e.text, ¬ p.IsSurrogate := by
        intro e he
        rcases List.mem_cons.mp he with rfl | he
        · exact ⟨⟨front, back⟩, plain _⟩
        rcases List.mem_cons.mp he with rfl | he
        · exact ⟨⟨front, front⟩, plain _⟩
        rcases List.mem_singleton.mp he with rfl
        exact ⟨⟨back, past⟩, plain _⟩
      have reaching : ∀ e ∈ accents.drop 2, d.data.length < e.stop := by
        intro e he
        rcases List.mem_singleton.mp he with rfl
        exact short
      obtain ⟨out, printed, spliced⟩ :=
        ((print_cuts_nothing { d with edits := accents }).1 clean).2
      exact ⟨d, rfl, sound.cut, ⟨out, printed, spliced.trans whole⟩,
        (print_cuts_nothing { d with edits := accents.drop 2 }).2.1 reaching,
        ((print_cuts_nothing d).2.2 sound.cut (by simp [fresh]) _ (by simp [Step.IsWrite])).2⟩

end Document

end Restyle
