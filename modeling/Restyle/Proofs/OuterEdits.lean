import Mathlib.Data.List.Pairwise
import Restyle.Proofs.PrintedBytes
import Restyle.Proofs.PrintedSpans

/-!
# Edits inside others

Of an edit and one inside it, the outer one is applied and the inner one dropped if the outer one
begins first. Where both begin together, the inner one is applied and the outer one dropped.
-/

namespace Restyle

open Text

namespace Edit

instance : Std.Symm Apart :=
  ⟨fun _ _ h => h.symm⟩

theorem Apart.free {a b : Edit} (h : a.Apart b) (wide : b.start < b.stop)
    (order : a.start ≤ b.start) : a.stop ≤ b.start := by
  rw [Apart] at h
  omega

end Edit

namespace Document

variable {d : Document} {start stop cursor : Nat} {es : List Edit} {e : Edit}

theorem mem_keptFrom (mem : e ∈ es) (begun : cursor ≤ e.start)
    (order : es.Pairwise fun a b => a.before b)
    (free : ∀ f ∈ es, f ≠ e → f.before e → f.stop ≤ e.start) : e ∈ keptFrom cursor es := by
  induction es generalizing cursor with
  | nil => cases mem
  | cons f es ih =>
      obtain ⟨first, order⟩ := List.pairwise_cons.mp order
      rw [keptFrom]
      by_cases same : f = e
      · rw [same, if_neg (Nat.not_lt.mpr begun)]
        exact List.mem_cons_self
      · have mem := (List.mem_cons.mp mem).resolve_left (Ne.symm same)
        have past := free f List.mem_cons_self same (first e mem)
        have free := fun g hg => free g (List.mem_cons_of_mem f hg)
        split
        · exact ih mem begun order free
        · exact List.mem_cons_of_mem f (ih mem past order free)

theorem not_mem_keptFrom {f : Edit} (kept : f ∈ keptFrom cursor es) (other : e ≠ f)
    (overlap : ¬ e.Apart f) : e ∉ keptFrom cursor es := by
  intro mem
  have apart : (keptFrom cursor es).Pairwise fun a b => a.Apart b :=
    (keptFrom_pairwise cursor es).imp fun before => .inl before
  exact overlap (apart.forall mem kept other)

theorem keptFrom_without (dropped : e ∉ keptFrom cursor es) :
    keptFrom cursor (es.filter (· ≠ e)) = keptFrom cursor es := by
  induction es generalizing cursor with
  | nil => rfl
  | cons f es ih =>
      rw [keptFrom] at dropped ⊢
      by_cases same : f = e
      · rw [List.filter_cons_of_neg (by simp [same])]
        split at dropped
        · rename_i early
          rw [if_pos early, ih dropped]
        · exact absurd (same ▸ List.mem_cons_self) dropped
      · rw [List.filter_cons_of_pos (by simp [same]), keptFrom]
        split at dropped
        · rename_i early
          rw [if_pos early, if_pos early, ih dropped]
        · rename_i late
          rw [if_neg late, if_neg late, ih fun mem => dropped (List.mem_cons_of_mem f mem)]

theorem printBytes_kept : (d.printBytes stop cursor es).result =
    (d.printBytes stop cursor (keptFrom cursor es)).result := by
  induction es generalizing cursor with
  | nil => rfl
  | cons e es ih =>
      rw [keptFrom, printBytes]
      by_cases early : e.start < cursor
      · rw [if_pos early, if_pos early, Report.result_bind (Report.result_note _), ih]
      · rw [if_neg early, if_neg early, printBytes, if_neg early]
        cases toChars? e.text with
        | none => rfl
        | some text => exact Report.result_bind_congr ih _

theorem print_without (dropped : e ∉ d.kept 0 d.data.length) :
    (d.keeping (· ≠ e)).print.result = d.print.result := by
  rw [print_eq_printSpan, print_eq_printSpan, printSpan_eq_asText, printSpan_eq_asText]
  refine Report.result_bind_congr ?_ _
  rw [keeping_data, printedBytes, editsIn_keeping, printBytes_keeping, printBytes_kept,
    keptFrom_without dropped, ← printBytes_kept, printedBytes]

theorem encode_print {out : List Char} (printed : d.print.result = .ok out) :
    encode out = Edit.spliceAll d.data (d.kept 0 d.data.length) := by
  rw [print_eq_printSpan] at printed
  rcases printSpan_eq (d := d) (Nat.zero_le d.data.length) (Nat.le_refl _) with
    ⟨-, failed⟩ | ⟨-, spliced⟩
  · rw [printed] at failed
    cases failed
  · rw [printed, bytes_whole, Edit.map_relativeTo_zero] at spliced
    cases decoded : decode (Edit.spliceAll d.data (d.kept 0 d.data.length)) with
    | error m =>
        rw [decoded] at spliced
        cases spliced
    | ok text =>
        rw [decoded] at spliced
        cases spliced
        exact encode_of_decode decoded

/-- An edit and one inside it that replaces something, apart from all other edits. -/
structure Overlapping (d : Document) (outer inner : Edit) (others : List Edit) : Prop where
  recorded : d.edits.Perm (outer :: inner :: others)
  inside : outer.start ≤ inner.start ∧ inner.stop ≤ outer.stop
  smaller : ¬ (outer.start = inner.start ∧ outer.stop = inner.stop)
  wide : inner.start < inner.stop
  range : outer.stop ≤ d.data.length
  apart : ∀ e ∈ others, e.Apart outer

namespace Overlapping

variable {outer inner : Edit} {others : List Edit} (h : d.Overlapping outer inner others)
include h

theorem mem_editsIn_iff :
    e ∈ d.editsIn 0 d.data.length ↔
      (e = outer ∨ e = inner ∨ e ∈ others) ∧ e.stop ≤ d.data.length := by
  rw [mem_editsIn, h.recorded.mem_iff]
  simp

theorem ne : outer ≠ inner := by
  rintro rfl
  exact h.smaller ⟨rfl, rfl⟩

theorem overlap : ¬ outer.Apart inner := by
  have inside := h.inside
  have wide := h.wide
  rw [Edit.Apart]
  omega

theorem other_free (he : e ∈ others) (order : e.start ≤ outer.start) : e.stop ≤ outer.start := by
  have inside := h.inside
  have wide := h.wide
  exact (h.apart e he).free (by omega) order

theorem outer_kept (first : outer.start < inner.start) : outer ∈ d.kept 0 d.data.length := by
  refine mem_keptFrom (h.mem_editsIn_iff.mpr ⟨.inl rfl, h.range⟩) (Nat.zero_le _)
    editsIn_pairwise fun f mem other order => ?_
  have order := Edit.start_le_of_before order
  rcases (h.mem_editsIn_iff.mp mem).1 with rfl | rfl | mem
  · exact absurd rfl other
  · omega
  · exact h.other_free mem order

theorem inner_kept (together : outer.start = inner.start) : inner ∈ d.kept 0 d.data.length := by
  have inside := h.inside
  have range := h.range
  refine mem_keptFrom (h.mem_editsIn_iff.mpr ⟨.inr (.inl rfl), by omega⟩) (Nat.zero_le _)
    editsIn_pairwise fun f mem other order => ?_
  rcases (h.mem_editsIn_iff.mp mem).1 with rfl | rfl | mem
  · have smaller := h.smaller
    simp only [Edit.before, together, Nat.lt_irrefl, decide_false, beq_self_eq_true, Bool.true_and,
      Bool.false_or, decide_eq_true_eq] at order
    omega
  · exact absurd rfl other
  · have order := Edit.start_le_of_before order
    have free := h.other_free mem (by omega)
    omega

end Overlapping

/-- Of an edit and one inside it, the outer one is applied and the inner one makes no difference, if
the outer one begins first. If they begin together, it is the inner one that is applied, and the outer
one that makes no difference. -/
theorem print_overlapping {outer inner : Edit} {others : List Edit}
    (h : d.Overlapping outer inner others) :
    (outer.start < inner.start →
      outer ∈ d.kept 0 d.data.length ∧ inner ∉ d.kept 0 d.data.length ∧
        d.print.result = (d.keeping (· ≠ inner)).print.result) ∧
    (outer.start = inner.start →
      inner ∈ d.kept 0 d.data.length ∧ outer ∉ d.kept 0 d.data.length ∧
        d.print.result = (d.keeping (· ≠ outer)).print.result) ∧
    ∀ out, d.print.result = .ok out →
      encode out = Edit.spliceAll d.data (d.kept 0 d.data.length) := by
  refine ⟨fun first => ?_, fun together => ?_, fun out printed => encode_print printed⟩
  · have kept := h.outer_kept first
    have dropped := not_mem_keptFrom kept h.ne.symm fun apart => h.overlap apart.symm
    exact ⟨kept, dropped, (print_without dropped).symm⟩
  · have kept := h.inner_kept together
    have dropped := not_mem_keptFrom kept h.ne h.overlap
    exact ⟨kept, dropped, (print_without dropped).symm⟩

/-- Two replacements that begin together: the shorter one is applied, whichever was recorded first. -/
theorem print_overlapping_together :
    ∃ (d : Document) (outer inner : Edit), d.source = "const a".toList ∧ d.edits = [outer, inner] ∧
      outer = ⟨0, 5, ofChars "let".toList, by decide⟩ ∧
      inner = ⟨0, 3, ofChars "x".toList, by decide⟩ ∧
      d.Overlapping outer inner [] ∧
      inner ∈ d.kept 0 d.data.length ∧ outer ∉ d.kept 0 d.data.length ∧
      d.print.result = (d.keeping (· ≠ outer)).print.result ∧
      d.print.result = .ok "xst a".toList := by
  let root : Syntax.Node := .node ⟨.program, 0, 7, 0, by decide⟩ []
  let outer : Edit := ⟨0, 5, ofChars "let".toList, by decide⟩
  let inner : Edit := ⟨0, 3, ofChars "x".toList, by decide⟩
  let d : Document := { Document.ofTree "const a".toList root .tsx with edits := [outer, inner] }
  have h : d.Overlapping outer inner [] :=
    ⟨.refl _, by decide, by decide, by decide, by decide, by simp⟩
  obtain ⟨applied, dropped, without⟩ := (print_overlapping h).2.1 rfl
  exact ⟨d, outer, inner, rfl, rfl, rfl, rfl, h, applied, dropped, without, by decide⟩

end Document

end Restyle
