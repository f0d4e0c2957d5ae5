import Restyle.Proofs.Printing

/-!
# Printed spans

What printing a stretch of a document makes of any edits: the ones that it keeps are apart from each
other and put into the stretch, and each of the others begins inside one that is kept.
-/

namespace Restyle

open Text

namespace Edit

private theorem filter_insertSorted {p : Edit → Bool} (same : ∀ a b, p a → p b → a.before b)
    (e : Edit) (es : List Edit) : (insertSorted e es).filter p = (e :: es).filter p := by
  induction es with
  | nil => rfl
  | cons f es ih =>
      rw [insertSorted]
      split
      · rfl
      · rename_i later
        by_cases hf : p f
        · have he : ¬ p e := fun he => later (same e f he hf)
          rw [List.filter_cons_of_pos hf, ih, List.filter_cons_of_neg he, List.filter_cons_of_neg he,
            List.filter_cons_of_pos hf]
        · rw [List.filter_cons_of_neg hf, ih, List.filter_cons, List.filter_cons,
            List.filter_cons_of_neg hf]

/-- Edits none of which has to come before another stay in the order in which they were recorded. -/
theorem filter_sorted {p : Edit → Bool} (same : ∀ a b, p a → p b → a.before b) (es : List Edit) :
    (sorted es).filter p = es.filter p := by
  induction es with
  | nil => rfl
  | cons e es ih => rw [sorted, filter_insertSorted same, List.filter_cons, List.filter_cons, ih]

/-- An insertion at an offset. -/
def insertsAt (place : Nat) (e : Edit) : Bool :=
  e.start == place && e.stop == place

theorem before_of_insertsAt {place : Nat} {a b : Edit} (ha : a.insertsAt place)
    (hb : b.insertsAt place) : a.before b := by
  simp only [insertsAt, Bool.and_eq_true, beq_iff_eq] at ha hb
  simp [before, ha, hb]

/-- Two edits of which one ends before the other begins. -/
def Apart (a b : Edit) : Prop :=
  a.stop ≤ b.start ∨ b.stop ≤ a.start

theorem Apart.stop_le_start {a b : Edit} (h : Apart a b) (order : a.before b) : a.stop ≤ b.start := by
  have awide := a.start_le_stop
  have bwide := b.start_le_stop
  simp only [before, Bool.or_eq_true, Bool.and_eq_true, decide_eq_true_eq, beq_iff_eq] at order
  simp only [Apart] at h
  omega

end Edit

namespace Document

variable {d : Document} {start stop cursor : Nat} {es : List Edit}

/-- What is not kept of edits in order begins before the cursor or inside one that is kept. -/
theorem keptFrom_dropped (cursor : Nat) (order : es.Pairwise fun a b => a.start ≤ b.start) :
    ∃ dropped, (keptFrom cursor es ++ dropped).Perm es ∧
      ∀ e ∈ dropped, e.start < cursor ∨ ∃ k ∈ keptFrom cursor es, k.start ≤ e.start ∧ e.start < k.stop := by
  induction es generalizing cursor with
  | nil => exact ⟨[], .refl _, by simp⟩
  | cons f es ih =>
      obtain ⟨first, order⟩ := List.pairwise_cons.mp order
      rw [keptFrom]
      split
      · rename_i early
        obtain ⟨dropped, perm, inside⟩ := ih cursor order
        refine ⟨f :: dropped, List.perm_middle.trans (perm.cons f), fun e he => ?_⟩
        rcases List.mem_cons.mp he with rfl | he
        · exact .inl early
        · exact inside e he
      · obtain ⟨dropped, perm, inside⟩ := ih f.stop order
        refine ⟨dropped, perm.cons f, fun e he => .inr ?_⟩
        rcases inside e he with early | ⟨k, hk, within⟩
        · have later := first e (perm.mem_iff.mp (List.mem_append_right _ he))
          exact ⟨f, List.mem_cons_self, later, early⟩
        · exact ⟨k, List.mem_cons_of_mem f hk, within⟩

theorem keptFrom_eq_self (apart : es.Pairwise fun a b => a.stop ≤ b.start)
    (past : ∀ e ∈ es, cursor ≤ e.start) : keptFrom cursor es = es := by
  induction es generalizing cursor with
  | nil => rfl
  | cons f es ih =>
      obtain ⟨first, apart⟩ := List.pairwise_cons.mp apart
      rw [keptFrom, if_neg (Nat.not_lt.mpr (past f List.mem_cons_self)), ih apart first]

theorem editsIn_pairwise : (d.editsIn start stop).Pairwise fun a b => a.before b :=
  (Edit.sorted_pairwise d.edits).filter _

theorem editsIn_perm : (d.editsIn start stop).Perm
    (d.edits.filter fun e => start ≤ e.start && e.stop ≤ stop) :=
  (Edit.sorted_perm d.edits).filter _

theorem kept_dropped (d : Document) (start stop : Nat) :
    ∃ dropped, (d.kept start stop ++ dropped).Perm
        (d.edits.filter fun e => start ≤ e.start && e.stop ≤ stop) ∧
      ∀ e ∈ dropped, ∃ k ∈ d.kept start stop, k.start ≤ e.start ∧ e.start < k.stop := by
  have order : (d.editsIn start stop).Pairwise fun a b => a.start ≤ b.start :=
    editsIn_pairwise.imp Edit.start_le_of_before
  obtain ⟨dropped, perm, inside⟩ := keptFrom_dropped start order
  refine ⟨dropped, perm.trans editsIn_perm, fun e he => ?_⟩
  have mem := mem_editsIn.mp (perm.mem_iff.mp (List.mem_append_right _ he))
  exact (inside e he).resolve_left (Nat.not_lt.mpr mem.2.1)

theorem kept_apart
    (apart : (d.edits.filter fun e => start ≤ e.start && e.stop ≤ stop).Pairwise Edit.Apart) :
    (d.kept start stop).Perm (d.edits.filter fun e => start ≤ e.start && e.stop ≤ stop) := by
  have apart' : (d.editsIn start stop).Pairwise Edit.Apart :=
    editsIn_perm.symm.pairwise apart fun h => h.symm
  have follow : (d.editsIn start stop).Pairwise fun a b => a.stop ≤ b.start :=
    (apart'.and editsIn_pairwise).imp fun both => both.1.stop_le_start both.2
  rw [kept, keptFrom_eq_self follow fun e he => (mem_editsIn.mp he).2.1]
  exact editsIn_perm

theorem kept_insertions (d : Document) (start stop place : Nat) :
    ((d.kept start stop).filter (Edit.insertsAt place)).Sublist d.edits := by
  have recorded : (Edit.sorted d.edits).filter (Edit.insertsAt place) =
      d.edits.filter (Edit.insertsAt place) :=
    Edit.filter_sorted (fun _ _ => Edit.before_of_insertsAt) d.edits
  have sub : ((d.kept start stop).filter (Edit.insertsAt place)).Sublist
      ((Edit.sorted d.edits).filter (Edit.insertsAt place)) :=
    ((keptFrom_sublist _ _).trans List.filter_sublist).filter _
  rw [recorded] at sub
  exact sub.trans List.filter_sublist

/-- Of edits that are kept and begin at one place, only the last one can replace anything. -/
theorem kept_insertion_first (d : Document) (start stop : Nat) :
    (d.kept start stop).Pairwise fun a b => a.start = b.start → a.stop = a.start := by
  refine (keptFrom_pairwise start _).imp fun {a b} apart same => ?_
  have wide := a.start_le_stop
  omega

theorem printBytes_surrogate (surrogate : ∃ e ∈ keptFrom cursor es, ∃ p ∈ e.text, p.IsSurrogate) :
    (d.printBytes stop cursor es).result = .error .surrogate := by
  induction es generalizing cursor with
  | nil => simp [keptFrom] at surrogate
  | cons f es ih =>
      rw [printBytes]
      rw [keptFrom] at surrogate
      by_cases dropped : f.start < cursor
      · rw [if_pos dropped] at surrogate
        rw [if_pos dropped, Report.result_bind (Report.result_note _)]
        exact ih surrogate
      · rw [if_neg dropped] at surrogate
        rw [if_neg dropped]
        cases chars : toChars? f.text with
        | none => rfl
        | some text =>
            have own : ¬ ∃ p ∈ f.text, p.IsSurrogate := by
              rw [← toChars?_eq_none, chars]
              simp
            obtain ⟨e, he, surrogate⟩ := surrogate
            rcases List.mem_cons.mp he with rfl | he
            · exact absurd surrogate own
            · exact Report.result_bind_error (ih ⟨e, he, surrogate⟩)

theorem printSpan_eq (le : start ≤ stop) (range : stop ≤ d.data.length) :
    ((∃ e ∈ d.kept start stop, ∃ p ∈ e.text, p.IsSurrogate) ∧
      (d.printSpan start stop).result = .error .surrogate) ∨
    (∀ e ∈ d.kept start stop, ∃ text, e.text = ofChars text) ∧
      (d.printSpan start stop).result =
        (decode (Edit.spliceAll (d.bytes start stop)
          ((d.kept start stop).map (Edit.relativeTo start)))).mapError fun _ => .notText := by
  by_cases surrogate : ∃ e ∈ d.kept start stop, ∃ p ∈ e.text, p.IsSurrogate
  · exact .inl ⟨surrogate, Report.result_bind_error (printBytes_surrogate surrogate)⟩
  have chars : ∀ e ∈ d.kept start stop, ∃ text, e.text = ofChars text := by
    intro e he
    cases hchars : toChars? e.text with
    | none => exact absurd ⟨e, he, toChars?_eq_none.mp hchars⟩ surrogate
    | some text => exact ⟨text, toChars?_eq_some.mp hchars⟩
  obtain ⟨out, printed, spliced⟩ := printBytes_spliced (d := d) start chars
    (fun e he => (mem_editsIn.mp he).2.2) (Nat.le_refl start) le range
  have empty : d.bytes start start = [] := by
    rw [bytes, Nat.sub_self, List.take_zero]
  rw [empty, List.nil_append] at spliced
  refine .inr ⟨chars, ?_⟩
  rw [printSpan, Report.result_bind printed, kept, ← spliced]
  cases decode out <;> rfl

/-- Printing a stretch applies edits that lie in it and do not overlap. Every other edit in the
stretch begins inside one that is applied, and if the edits in it are apart there is no other.
Insertions at one place are applied in the order in which they were recorded, and before a
replacement that begins there. What is printed is the stretch with these edits put into it from the
last to the first. -/
theorem printSpan_spec (d : Document) (le : start ≤ stop) (range : stop ≤ d.data.length) :
    (∀ e ∈ d.kept start stop, e ∈ d.edits ∧ start ≤ e.start ∧ e.stop ≤ stop) ∧
    (d.kept start stop).Pairwise (fun a b => a.stop ≤ b.start) ∧
    (∃ dropped, (d.kept start stop ++ dropped).Perm
        (d.edits.filter fun e => start ≤ e.start && e.stop ≤ stop) ∧
      ∀ e ∈ dropped, ∃ k ∈ d.kept start stop, k.start ≤ e.start ∧ e.start < k.stop) ∧
    (∀ place, ((d.kept start stop).filter (Edit.insertsAt place)).Sublist d.edits) ∧
    (d.kept start stop).Pairwise (fun a b => a.start = b.start → a.stop = a.start) ∧
    (((∃ e ∈ d.kept start stop, ∃ p ∈ e.text, p.IsSurrogate) ∧
        (d.printSpan start stop).result = .error .surrogate) ∨
      (∀ e ∈ d.kept start stop, ∃ text, e.text = ofChars text) ∧
        (d.printSpan start stop).result =
          (decode (Edit.spliceAll (d.bytes start stop)
            ((d.kept start stop).map (Edit.relativeTo start)))).mapError fun _ => .notText) ∧
    ((d.edits.filter fun e => start ≤ e.start && e.stop ≤ stop).Pairwise Edit.Apart →
      (d.kept start stop).Perm (d.edits.filter fun e => start ≤ e.start && e.stop ≤ stop)) :=
  ⟨fun _ he => mem_kept he, keptFrom_pairwise start _, kept_dropped d start stop,
    kept_insertions d start stop, kept_insertion_first d start stop, printSpan_eq le range, kept_apart⟩

theorem printSpan_spec_overlapping :
    ∃ d : Document, 0 ≤ 4 ∧ 4 ≤ d.data.length ∧
      d.edits = [⟨2, 3, ofChars ['w'], by decide⟩, ⟨1, 3, ofChars ['x'], by decide⟩,
        .insertion 1 (ofChars ['y']), .insertion 1 (ofChars ['z'])] ∧
      (∃ dropped, (d.kept 0 4 ++ dropped).Perm d.edits ∧
        ∀ e ∈ dropped, ∃ k ∈ d.kept 0 4, k.start ≤ e.start ∧ e.start < k.stop) ∧
      (d.printSpan 0 4).result = .ok "ayzxd".toList := by
  let root : Syntax.Node := .node ⟨.program, 0, 4, 0, by decide⟩ []
  let d : Document :=
    { Document.ofTree "abcd".toList root .tsx with
      edits := [⟨2, 3, ofChars ['w'], by decide⟩, ⟨1, 3, ofChars ['x'], by decide⟩,
        .insertion 1 (ofChars ['y']), .insertion 1 (ofChars ['z'])] }
  obtain ⟨-, -, dropped, -⟩ := d.printSpan_spec (by decide : 0 ≤ 4) (by decide : 4 ≤ d.data.length)
  exact ⟨d, by decide, by decide, rfl, dropped, by decide⟩

end Document

end Restyle
