import Restyle.Proofs.Printing

/-!
# Printed bytes

Printing gives bytes, which are read as text at last. Edits that do not lie in a stretch make no
difference to the bytes that are printed of it.
-/

namespace Restyle

open Text

namespace Edit

private theorem insertSorted_filter {p : Edit → Bool} {e : Edit} {es : List Edit} (keep : p e)
    (order : es.Pairwise fun a b => a.before b) :
    insertSorted e (es.filter p) = (insertSorted e es).filter p := by
  induction es with
  | nil => simp [insertSorted, keep]
  | cons f es ih =>
      obtain ⟨first, order⟩ := List.pairwise_cons.mp order
      rw [insertSorted]
      by_cases early : e.before f
      · rw [if_pos early, List.filter_cons_of_pos keep]
        cases left : (f :: es).filter p with
        | nil => rfl
        | cons g rest =>
            have mem : g ∈ f :: es := (List.mem_filter.mp (left ▸ List.mem_cons_self)).1
            have next : e.before g := by
              rcases List.mem_cons.mp mem with rfl | mem
              · exact early
              · exact before_trans early (first g mem)
            rw [insertSorted, if_pos next]
      · rw [if_neg early]
        by_cases hf : p f
        · rw [List.filter_cons_of_pos hf, List.filter_cons_of_pos hf, insertSorted, if_neg early,
            ih order]
        · rw [List.filter_cons_of_neg hf, List.filter_cons_of_neg hf, ih order]

private theorem filter_insertSorted_of_neg {p : Edit → Bool} {e : Edit} (leave : ¬ p e)
    (es : List Edit) : (insertSorted e es).filter p = es.filter p := by
  induction es with
  | nil => exact List.filter_cons_of_neg leave
  | cons f es ih =>
      rw [insertSorted]
      split
      · exact List.filter_cons_of_neg leave
      · rw [List.filter_cons, List.filter_cons, ih]

theorem sorted_filter (p : Edit → Bool) (es : List Edit) :
    sorted (es.filter p) = (sorted es).filter p := by
  induction es with
  | nil => rfl
  | cons e es ih =>
      rw [sorted]
      by_cases keep : p e
      · rw [List.filter_cons_of_pos keep, sorted, ih, insertSorted_filter keep (sorted_pairwise es)]
      · rw [List.filter_cons_of_neg keep, filter_insertSorted_of_neg keep, ih]

end Edit

namespace Document

variable {d : Document} {start stop cursor : Nat} {es : List Edit}

/-- The bytes of a stretch, edits applied. -/
def printedBytes (d : Document) (start stop : Nat) : Report (List UInt8) :=
  d.printBytes stop start (d.editsIn start stop)

/-- Bytes as text, if they are such. -/
def asText (bytes : List UInt8) : Report (List Char) :=
  match decode bytes with
  | .ok text => return text
  | .error _ => Report.fail .notText

/-- A document with only some of its edits. -/
def keeping (d : Document) (p : Edit → Bool) : Document :=
  { d with edits := d.edits.filter p }

@[simp] theorem keeping_data (d : Document) (p : Edit → Bool) : (d.keeping p).data = d.data := rfl

theorem printSpan_eq_asText (d : Document) (start stop : Nat) :
    d.printSpan start stop = (do asText (← d.printedBytes start stop)) := rfl

theorem asText_encode (text : List Char) : asText (encode text) = pure text := by
  rw [asText, decode_encode]

theorem printSpan_eq_ok {text : List Char} :
    (d.printSpan start stop).result = .ok text ↔
      (d.printedBytes start stop).result = .ok (encode text) := by
  rw [printSpan_eq_asText]
  constructor
  · intro printed
    cases bytes : (d.printedBytes start stop).result with
    | error e =>
        rw [Report.result_bind_error bytes] at printed
        cases printed
    | ok data =>
        rw [Report.result_bind bytes, asText] at printed
        split at printed
        · rename_i text' decoded
          cases printed
          rw [encode_of_decode decoded]
        · cases printed
  · intro bytes
    rw [Report.result_bind bytes, asText_encode, Report.result_pure]

theorem printedBytes_unedited (none : ∀ e ∈ d.editsIn start stop, False) :
    d.printedBytes start stop = pure (d.bytes start stop) := by
  rw [printedBytes, List.eq_nil_iff_forall_not_mem.mpr none]
  rfl

theorem print_eq_printSpan (d : Document) : d.print = d.printSpan 0 d.data.length := by
  rw [print]
  split
  · rfl
  · rename_i untouched
    have none : d.edits = [] := by simpa [mutated] using untouched
    have bytes : d.printedBytes 0 d.data.length = pure (encode d.source) := by
      rw [printedBytes_unedited, bytes_whole, d.data_eq]
      intro e he
      rw [mem_editsIn, none] at he
      cases he.1
    rw [printSpan_eq_asText, bytes, pure_bind, asText_encode]

/-- The edits that are applied are given; those that are recorded make no difference. -/
theorem printBytes_congr (recorded : List Edit) :
    ({ d with edits := recorded } : Document).printBytes stop cursor es =
      d.printBytes stop cursor es := by
  induction es generalizing cursor with
  | nil => rfl
  | cons e es ih =>
      rw [printBytes, printBytes]
      simp only [ih]
      rfl

theorem printBytes_keeping (p : Edit → Bool) :
    (d.keeping p).printBytes stop cursor es = d.printBytes stop cursor es :=
  printBytes_congr _

theorem editsIn_keeping (p : Edit → Bool) :
    (d.keeping p).editsIn start stop = (d.editsIn start stop).filter p := by
  rw [editsIn, editsIn, keeping, Edit.sorted_filter, List.filter_filter, List.filter_filter]
  exact List.filter_congr fun e _ => Bool.and_comm ..

theorem printedBytes_keeping {p : Edit → Bool} (all : ∀ e ∈ d.editsIn start stop, p e) :
    (d.keeping p).printedBytes start stop = d.printedBytes start stop := by
  rw [printedBytes, editsIn_keeping, List.filter_eq_self.mpr all]
  exact printBytes_keeping p

end Document

end Restyle
