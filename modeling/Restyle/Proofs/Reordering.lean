import Restyle.Proofs.PrintedBytes
import Restyle.Proofs.PrintedSpans
import Restyle.Proofs.Recording
import Restyle.Proofs.UpdateAll

/-!
# The order of recording

Edits are sorted before they are applied, and the sort is stable. So what is printed depends on the
order in which edits of one stretch were recorded, and on no other order: work on different places
can be done in any order.
-/

namespace Restyle

open Syntax Text

namespace Edit

def covers (start stop : Nat) (e : Edit) : Bool :=
  e.start == start && e.stop == stop

theorem covers_iff {start stop : Nat} {e : Edit} :
    e.covers start stop ↔ e.start = start ∧ e.stop = stop := by
  simp [covers]

theorem covers_self (e : Edit) : e.covers e.start e.stop :=
  covers_iff.mpr ⟨rfl, rfl⟩

/-- The same edits in another order, in which those of one stretch have kept theirs. -/
structure Reordered (es fs : List Edit) : Prop where
  perm : es.Perm fs
  stretch : ∀ start stop, es.filter (covers start stop) = fs.filter (covers start stop)

theorem before_antisymm {e f : Edit} (h : e.before f) (k : f.before e) :
    f.covers e.start e.stop := by
  rw [covers_iff]
  simp only [before, Bool.or_eq_true, Bool.and_eq_true, decide_eq_true_eq, beq_iff_eq] at h k
  omega

private theorem head_before {e f : Edit} {es : List Edit}
    (order : (e :: es).Pairwise fun a b => a.before b) (hf : f ∈ e :: es) : e.before f := by
  rcases List.mem_cons.mp hf with rfl | hf
  · exact (before_total f f).elim id id
  · exact List.rel_of_pairwise_cons order hf

private theorem mem_of_stretch {es fs : List Edit} {e : Edit}
    (same : ∀ start stop, es.filter (covers start stop) = fs.filter (covers start stop))
    (he : e ∈ es) : e ∈ fs := by
  have mem : e ∈ es.filter (covers e.start e.stop) := List.mem_filter.mpr ⟨he, covers_self e⟩
  rw [same] at mem
  exact (List.mem_filter.mp mem).1

theorem eq_of_stretch {es fs : List Edit} (hes : es.Pairwise fun a b => a.before b)
    (hfs : fs.Pairwise fun a b => a.before b)
    (same : ∀ start stop, es.filter (covers start stop) = fs.filter (covers start stop)) :
    es = fs := by
  induction es generalizing fs with
  | nil =>
      refine (List.eq_nil_iff_forall_not_mem.mpr fun f hf => ?_).symm
      cases mem_of_stretch (fun start stop => (same start stop).symm) hf
  | cons e es ih =>
      cases fs with
      | nil => cases mem_of_stretch same List.mem_cons_self
      | cons f fs =>
          have forth : e.before f := head_before hes
            (mem_of_stretch (fun start stop => (same start stop).symm) List.mem_cons_self)
          have back : f.before e := head_before hfs (mem_of_stretch same List.mem_cons_self)
          have first := same e.start e.stop
          rw [List.filter_cons_of_pos (covers_self e),
            List.filter_cons_of_pos (before_antisymm forth back)] at first
          obtain ⟨rfl, -⟩ := List.cons.inj first
          refine congrArg (e :: ·) (ih hes.tail hfs.tail fun start stop => ?_)
          have rest := same start stop
          rw [List.filter_cons, List.filter_cons] at rest
          split at rest
          · exact (List.cons.inj rest).2
          · exact rest

theorem Reordered.sorted {es fs : List Edit} (h : Reordered es fs) :
    Edit.sorted es = Edit.sorted fs := by
  have kept (start stop : Nat) (es : List Edit) :
      (Edit.sorted es).filter (covers start stop) = es.filter (covers start stop) := by
    refine filter_sorted (fun a b ha hb => ?_) es
    rw [covers_iff] at ha hb
    simp [before, ha, hb]
  refine eq_of_stretch (sorted_pairwise es) (sorted_pairwise fs) fun start stop => ?_
  rw [kept, kept, h.stretch]

theorem Reordered.swap (front back : List Edit) {es fs : List Edit}
    (apart : ∀ e ∈ es, ∀ f ∈ fs, ¬ f.covers e.start e.stop) :
    Reordered (front ++ es ++ fs ++ back) (front ++ fs ++ es ++ back) where
  perm := by
    refine List.Perm.append_right back ?_
    rw [List.append_assoc, List.append_assoc]
    exact List.perm_append_comm.append_left front
  stretch start stop := by
    have one : es.filter (covers start stop) = [] ∨ fs.filter (covers start stop) = [] := by
      by_cases none : es.filter (covers start stop) = []
      · exact .inl none
      · obtain ⟨e, he⟩ := List.exists_mem_of_ne_nil _ none
        obtain ⟨mem, stretch⟩ := List.mem_filter.mp he
        obtain ⟨rfl, rfl⟩ := covers_iff.mp stretch
        exact .inr (List.filter_eq_nil_iff.mpr (apart e mem))
    simp only [List.filter_append]
    rcases one with none | none <;> simp [none]

end Edit

namespace Document

variable {d : Document}

/-- Two documents that print the same, stretch by stretch and as a whole, with the same notes. -/
structure PrintsAs (c d : Document) : Prop where
  span : ∀ start stop, c.printSpan start stop = d.printSpan start stop
  whole : c.print = d.print

theorem printsAs_of_reordered (d : Document) {es fs : List Edit} (h : Edit.Reordered es fs) :
    PrintsAs { d with edits := es } { d with edits := fs } := by
  have bytes (start stop : Nat) (es : List Edit) :
      ({ d with edits := es } : Document).printedBytes start stop =
        d.printBytes stop start
          ((Edit.sorted es).filter fun e => start ≤ e.start && e.stop ≤ stop) :=
    printBytes_congr es
  have span (start stop : Nat) : ({ d with edits := es } : Document).printSpan start stop =
      ({ d with edits := fs } : Document).printSpan start stop := by
    rw [printSpan_eq_asText, printSpan_eq_asText, bytes, bytes, h.sorted]
  refine ⟨span, ?_⟩
  rw [print_eq_printSpan, print_eq_printSpan]
  exact span _ _

/-- Steps that record no edit of a stretch that others record one of. -/
def Unrelated (d : Document) (ps qs : List Step) : Prop :=
  ∀ e ∈ ps.flatMap (Step.edits d), ∀ f ∈ qs.flatMap (Step.edits d), ¬ f.covers e.start e.stop

theorem printsAs_swapped {ps qs : List Step} (h : d.Unrelated ps qs) (front back : List Step) :
    PrintsAs (d.after (front ++ ps ++ qs ++ back)) (d.after (front ++ qs ++ ps ++ back)) := by
  rw [after_eq, after_eq]
  refine d.printsAs_of_reordered ?_
  simp only [List.flatMap_append, ← List.append_assoc]
  exact Edit.Reordered.swap _ _ h

theorem valueEdit_start_ne (h : d.SoundTree) {tag tag' : List Char} {ordinal ordinal' : Option Int}
    {e f : Element} (he : e ∈ d.locate tag ordinal) (hf : f ∈ d.locate tag' ordinal')
    (different : e.start ≠ f.start) (rendered rendered' : List CodePoint) (name name' : List Char) :
    (d.valueEdit e rendered name).start ≠ (d.valueEdit f rendered' name').start := by
  obtain ⟨o, ho, j, rfl⟩ := mem_locate he
  obtain ⟨p, hp, k, rfl⟩ := mem_locate hf
  let R (o p : Opening) : Prop := ∀ j k rendered rendered' name name', o.node.start ≠ p.node.start →
    (d.valueEdit (d.elementAt o j) rendered name).start ≠
      (d.valueEdit (d.elementAt p k) rendered' name').start
  have ordered : ∀ o ∈ d.openings, ∀ p ∈ d.openings, o.node.Precedes p.node → R o p := by
    intro o ho p hp order j k rendered rendered' name name' _
    have inside := valueEdit_inside h hp k rendered' name'
    have wide := (d.valueEdit (d.elementAt p k) rendered' name').start_le_stop
    rcases edit_holds_or_apart h ho hp order j rendered name with holds | before | after
    · omega
    · omega
    · have own := (d.valueEdit (d.elementAt o j) rendered name).start_le_stop
      omega
  refine List.Pairwise.forall_of_forall_of_flip (R := R) (l := d.openings) (fun o _ => ?_) ?_ ?_ ho hp
    j k rendered rendered' name name' different
  · intro _ _ _ _ _ _ same
    exact absurd rfl same
  · exact (openings_precedes h).imp_of_mem fun ho hp order => ordered _ ho _ hp order
  · refine (openings_precedes h).imp_of_mem fun ho hp order => ?_
    intro j k rendered rendered' name name' different
    exact (ordered _ ho _ hp order k j rendered' rendered name' name different.symm).symm

theorem unrelated_writes (h : d.SoundTree) {tag tag' : List Char} {ordinal ordinal' : Option Int}
    (different : ∀ e ∈ d.locate tag ordinal, ∀ f ∈ d.locate tag' ordinal', e.start ≠ f.start)
    (value value' : List CodePoint) (name name' : List Char) :
    d.Unrelated [.write tag value ordinal name] [.write tag' value' ordinal' name'] := by
  have recorded {tag : List Char} {value : List CodePoint} {ordinal : Option Int} {name : List Char}
      {e : Edit} (he : e ∈ [Step.write tag value ordinal name].flatMap (Step.edits d)) :
      ∃ element ∈ d.locate tag ordinal, ∃ rendered, e = d.valueEdit element rendered name := by
    rw [List.flatMap_singleton, Step.edits] at he
    split at he
    · rename_i rendered _
      obtain ⟨element, located, rfl⟩ := List.mem_map.mp he
      exact ⟨element, located, rendered, rfl⟩
    · cases he
  intro e he f hf same
  obtain ⟨x, hx, rendered, rfl⟩ := recorded he
  obtain ⟨y, hy, rendered', rfl⟩ := recorded hf
  exact valueEdit_start_ne h hx hy (different x hx y hy) rendered rendered' name name'
    (Edit.covers_iff.mp same).1.symm

/-- The order in which edits are recorded does not show in what is printed, as long as those of one
stretch keep theirs. So steps that are about different stretches can be made in any order, among
any others, and writes to different elements are such steps. -/
theorem print_order_irrelevant (d : Document) :
    (∀ es fs, Edit.Reordered es fs → PrintsAs { d with edits := es } { d with edits := fs }) ∧
    (∀ ps qs, d.Unrelated ps qs → ∀ front back,
      PrintsAs (d.after (front ++ ps ++ qs ++ back)) (d.after (front ++ qs ++ ps ++ back))) ∧
    (d.SoundTree → ∀ tag tag' ordinal ordinal',
      (∀ e ∈ d.locate tag ordinal, ∀ f ∈ d.locate tag' ordinal', e.start ≠ f.start) →
      ∀ value value' name name' front back,
        PrintsAs
          (d.after (front ++ [.write tag value ordinal name] ++
            [.write tag' value' ordinal' name'] ++ back))
          (d.after (front ++ [.write tag' value' ordinal' name'] ++
            [.write tag value ordinal name] ++ back))) :=
  ⟨fun _ _ reordered => d.printsAs_of_reordered reordered,
    fun _ _ unrelated front back => printsAs_swapped unrelated front back,
    fun sound _ _ _ _ different value value' name name' front back =>
      printsAs_swapped (unrelated_writes sound different value value' name name') front back⟩

set_option maxRecDepth 100000 in
theorem print_order_irrelevant_bold :
    ∃ d, parse .tsx "<p><b/></p>".toList = .ok d ∧
      PrintsAs
        { d with edits := [.insertion 4 (ofChars ['y']), ⟨4, 5, ofChars ['x'], by decide⟩,
          .insertion 4 (ofChars ['z'])] }
        { d with edits := [⟨4, 5, ofChars ['x'], by decide⟩, .insertion 4 (ofChars ['y']),
          .insertion 4 (ofChars ['z'])] } ∧
      PrintsAs (d.after [.print, .edit 4 4 (ofChars ['y']), .edit 4 5 (ofChars ['x'])])
        (d.after [.print, .edit 4 5 (ofChars ['x']), .edit 4 4 (ofChars ['y'])]) ∧
      (d.after [.print, .edit 4 5 (ofChars ['x']), .edit 4 4 (ofChars ['y'])]).print.result =
        .ok "<p><yx/></p>".toList ∧
      PrintsAs
        (d.after [.write "p".toList (ofChars ['a']) none defaultAttribute,
          .write "b".toList (ofChars ['c']) (some 0) defaultAttribute])
        (d.after [.write "b".toList (ofChars ['c']) (some 0) defaultAttribute,
          .write "p".toList (ofChars ['a']) none defaultAttribute]) := by
  have run : (parse .tsx "<p><b/></p>".toList).toOption.any fun d =>
      (d.after [.print, .edit 4 5 (ofChars ['x']), .edit 4 4 (ofChars ['y'])]).print.result =
        .ok "<p><yx/></p>".toList ∧
      ∀ e ∈ d.locate "p".toList none, ∀ f ∈ d.locate "b".toList (some 0), e.start ≠ f.start := by
    decide +kernel
  cases parsed : parse .tsx "<p><b/></p>".toList with
  | error e =>
      rw [parsed] at run
      cases run
  | ok d =>
      rw [parsed] at run
      obtain ⟨printed, different⟩ := of_decide_eq_true run
      obtain ⟨-, -, -, sound⟩ := parse_spec parsed
      obtain ⟨edits, steps, writes⟩ := d.print_order_irrelevant
      refine ⟨d, rfl, edits _ _ ?_, steps [.edit 4 4 (ofChars ['y'])] [.edit 4 5 (ofChars ['x'])] ?_
        [.print] [], printed, writes sound _ _ _ _ different _ _ _ _ [] []⟩
      · have apart : ∀ e ∈ [Edit.insertion 4 (ofChars ['y'])],
            ∀ f ∈ [(⟨4, 5, ofChars ['x'], by decide⟩ : Edit)], ¬ f.covers e.start e.stop := by
          decide
        exact Edit.Reordered.swap [] [.insertion 4 (ofChars ['z'])] apart
      · simp [Unrelated, Step.edits, Edit.of?, Edit.covers]

end Document

end Restyle
