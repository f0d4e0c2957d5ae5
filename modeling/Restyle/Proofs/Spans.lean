import Restyle.Grammar.Parse
import Restyle.Proofs.Trees
import Restyle.Proofs.Utf8

/-!
# Spans of syntax

In every tree that a text is parsed to, spans are nested in their parents' and follow one another,
they begin and end between two characters, rows count line feeds, strings stand between quotes,
comments are comments, and opening constructs and braces are laid out as such. One step of a reading
keeps this, and so does every reading.
-/

namespace Restyle.Syntax

open Text

/-- Siblings follow one another between two offsets. -/
def Ordered (low high : Nat) : List Node → Prop
  | [] => low ≤ high
  | n :: rest => low ≤ n.start ∧ Ordered n.stop high rest

namespace Ordered

variable {low high : Nat} {ns ms : List Node}

theorem le (h : Ordered low high ns) : low ≤ high := by
  induction ns generalizing low with
  | nil => exact h
  | cons n ns ih =>
      have inside := ih h.2
      have own := n.start_le_stop
      have first := h.1
      omega

theorem mono {high' : Nat} (h : Ordered low high ns) (le : high ≤ high') :
    Ordered low high' ns := by
  induction ns generalizing low with
  | nil => exact Nat.le_trans h le
  | cons n ns ih => exact ⟨h.1, ih h.2⟩

theorem append_iff :
    Ordered low high (ns ++ ms) ↔ ∃ middle, Ordered low middle ns ∧ Ordered middle high ms := by
  induction ns generalizing low with
  | nil =>
      constructor
      · exact fun h => ⟨low, Nat.le_refl low, h⟩
      · rintro ⟨middle, le, h⟩
        cases ms with
        | nil => exact Nat.le_trans le h
        | cons m ms => exact ⟨Nat.le_trans le h.1, h.2⟩
  | cons n ns ih =>
      simp only [List.cons_append, Ordered, ih]
      constructor
      · rintro ⟨first, middle, h, k⟩
        exact ⟨middle, ⟨first, h⟩, k⟩
      · rintro ⟨middle, ⟨first, h⟩, k⟩
        exact ⟨first, middle, h, k⟩

theorem mem (h : Ordered low high ns) {n : Node} (hn : n ∈ ns) : low ≤ n.start ∧ n.stop ≤ high := by
  induction ns generalizing low with
  | nil => cases hn
  | cons m ns ih =>
      rcases List.mem_cons.mp hn with rfl | hn
      · exact ⟨h.1, h.2.le⟩
      · have inside := ih h.2 hn
        have own := m.start_le_stop
        have first := h.1
        omega

theorem upToLast {last : Node} (h : Ordered low high ns) (hl : ns.getLast? = some last) :
    Ordered low last.stop ns := by
  obtain ⟨front, rfl⟩ := List.getLast?_eq_some_iff.mp hl
  obtain ⟨middle, hfront, hlast⟩ := append_iff.mp h
  exact append_iff.mpr ⟨middle, hfront, hlast.1, Nat.le_refl _⟩

theorem pairwise (h : Ordered low high ns) : ns.Pairwise fun a b => a.stop ≤ b.start := by
  induction ns generalizing low with
  | nil => exact .nil
  | cons n ns ih => exact List.pairwise_cons.mpr ⟨fun m hm => (h.2.mem hm).1, ih h.2⟩

end Ordered

/-- Whether a construct begins where the first of its parts does, and ends where the last does. -/
def Node.EndsWithParts (n : Node) : Prop :=
  (∀ first ∈ n.children.head?, Node.start first = n.start) ∧
    ∀ last ∈ n.children.getLast?, Node.stop last = n.stop

/-- What holds of a node of a tree of a text. -/
structure Sound (text : List Char) (n : Node) : Prop where
  start : IsPlace text n.start n.row
  stop : IsCut text n.stop
  ordered : Ordered n.start n.stop n.children
  ends : n.kind ≠ .program → n.EndsWithParts
  made : n.kind.Layout n.children ∨
    ∃ before taken left, text = before ++ taken ++ left ∧ byteLength before = n.start ∧
      n.start + byteLength taken = n.stop ∧ n.kind.Spelling taken left

namespace Sound

variable {text : List Char} {n : Node}

theorem layout (h : Sound text n) (tag : n.kind.isTag) : TagLayout n.children := by
  have made := h.made
  generalize n.kind = kind at made tag
  cases kind with
  | opening | selfClosing =>
      rcases made with layout | ⟨_, _, _, _, _, _, spelling⟩
      · exact layout
      · cases spelling
  | _ => cases tag

theorem braces (h : Sound text n) (kind : n.kind = .container) : BraceLayout n.children := by
  have made := h.made
  rw [kind] at made
  rcases made with layout | ⟨_, _, _, _, _, _, spelling⟩
  · exact layout
  · cases spelling

theorem quoted (h : Sound text n) (kind : n.kind = .string) :
    ∃ taken, IsSlice text n.start n.stop taken ∧ Quoted taken := by
  have made := h.made
  rw [kind] at made
  rcases made with layout | ⟨before, taken, left, split, first, last, spelling⟩
  · cases layout
  · exact ⟨taken, ⟨before, left, split, first, last⟩, spelling⟩

theorem comment (h : Sound text n) (kind : n.kind = .comment) :
    ∃ before taken left, text = before ++ taken ++ left ∧ byteLength before = n.start ∧
      n.start + byteLength taken = n.stop ∧ Comment taken left := by
  have made := h.made
  rw [kind] at made
  rcases made with layout | spelt
  · cases layout
  · exact spelt

theorem row_eq {before rest : List Char} (h : Sound text n) (split : text = before ++ rest)
    (length : byteLength before = n.start) : n.row = before.count '\n' := by
  obtain ⟨front, back, whole, place, rows⟩ := h.start
  rw [split] at whole
  obtain ⟨rfl, -⟩ := append_inj_byteLength whole (length.trans place.symm)
  exact rows.symm

end Sound

/-- Siblings that follow one another between two offsets of a text, sound with all that is under
them. -/
def SoundForest (text : List Char) (low high : Nat) (ns : List Node) : Prop :=
  Ordered low high ns ∧ ∀ n ∈ Tree.subtreesAll ns, Sound text n

namespace SoundForest

variable {text : List Char} {low high : Nat} {ns ms : List Node}

theorem append_iff : SoundForest text low high (ns ++ ms) ↔
    ∃ middle, SoundForest text low middle ns ∧ SoundForest text middle high ms := by
  simp only [SoundForest, Ordered.append_iff, Tree.subtreesAll_append, List.mem_append]
  constructor
  · rintro ⟨⟨middle, h, k⟩, sound⟩
    exact ⟨middle, ⟨h, fun n hn => sound n (.inl hn)⟩, ⟨k, fun n hn => sound n (.inr hn)⟩⟩
  · rintro ⟨middle, ⟨h, hs⟩, ⟨k, ks⟩⟩
    refine ⟨⟨middle, h, k⟩, fun n hn => ?_⟩
    rcases hn with hn | hn
    · exact hs n hn
    · exact ks n hn

theorem singleton {n : Node} (sound : Sound text n)
    (under : ∀ m ∈ Tree.subtreesAll n.children, Sound text m) (hl : low ≤ n.start)
    (hh : n.stop ≤ high) : SoundForest text low high [n] := by
  refine ⟨⟨hl, hh⟩, fun m hm => ?_⟩
  rw [Tree.subtreesAll, Tree.subtreesAll, List.append_nil, Tree.subtrees_eq, List.mem_cons] at hm
  rcases hm with rfl | hm
  · exact sound
  · exact under m hm

theorem sound_of_mem {n : Node} (h : SoundForest text low high ns) (hn : n ∈ ns) : Sound text n :=
  h.2 n (Tree.mem_subtreesAll.mpr ⟨n, hn, Tree.self_mem_subtrees n⟩)

/-- One node takes the place of siblings, its span from the start of the first to the end of the
last. -/
theorem enclose {kind : Kind} (h : SoundForest text low high ns)
    (layout : kind.Layout (Node.withoutLead ns)) :
    SoundForest text low high (Node.enclose kind ns) := by
  have parts : ns = Node.lead ns ++ Node.withoutLead ns := List.takeWhile_append_dropWhile.symm
  rw [parts] at h
  obtain ⟨middle, outside, inside⟩ := append_iff.mp h
  rw [Node.enclose]
  split
  · rename_i none
    rw [none] at inside
    exact ⟨outside.1.mono inside.1, outside.2⟩
  · rename_i first rest some
    rw [some] at inside layout
    refine append_iff.mpr ⟨middle, outside, ?_⟩
    obtain ⟨last, hlast⟩ : ∃ last, (first :: rest).getLast? = Option.some last :=
      ⟨_, List.getLast?_eq_some_getLast (List.cons_ne_nil first rest)⟩
    have lastMem : last ∈ first :: rest := List.mem_of_getLast? hlast
    have children : Ordered first.start last.stop (first :: rest) :=
      ⟨Nat.le_refl _, (inside.1.upToLast hlast).2⟩
    have stop : max first.start last.stop = last.stop := Nat.max_eq_right children.le
    simp only [some, hlast, Option.getD_some, stop]
    refine singleton ⟨?_, ?_, children, fun _ => ⟨?_, ?_⟩, .inl layout⟩ (fun m hm => inside.2 m hm)
      inside.1.1 (inside.1.mem lastMem).2
    · exact (inside.sound_of_mem List.mem_cons_self).start
    · exact (inside.sound_of_mem lastMem).stop
    · rintro n ⟨⟩
      rfl
    · intro n hn
      cases hlast.symm.trans hn
      rfl

end SoundForest

/-- The state of a reading of a text: its head is where it says, and the nodes read lie between an
offset and the head. -/
structure SoundProgress (text : List Char) (low : Nat) (s : Progress) : Prop where
  place : ∃ before, text = before ++ s.rest ∧ byteLength before = s.offset ∧
    before.count '\n' = s.row
  nodes : SoundForest text low s.offset s.nodes.reverse

namespace SoundProgress

variable {text : List Char} {low : Nat} {s t : Progress}

theorem isPlace (h : SoundProgress text low s) : IsPlace text s.offset s.row := by
  obtain ⟨before, split, length, rows⟩ := h.place
  exact ⟨before, s.rest, split, length, rows⟩

theorem remember (h : SoundProgress text low s) (reach : Reach) :
    SoundProgress text low (s.remember reach) :=
  ⟨h.place, h.nodes⟩

theorem advance (h : SoundProgress text low s) (count : Nat) :
    SoundProgress text low (s.advance count) := by
  obtain ⟨before, split, length, rows⟩ := h.place
  refine ⟨⟨before ++ s.rest.take count, ?_, ?_, ?_⟩, ?_⟩
  · rw [List.append_assoc]
    simpa [Progress.advance] using split
  · rw [byteLength_append, length]
    rfl
  · rw [List.count_append, rows]
    rfl
  · exact ⟨h.nodes.1.mono (Nat.le_add_right ..), h.nodes.2⟩

theorem leaf (h : SoundProgress text low s) (kind : Kind) (count : Nat)
    (spelling : kind.Spelling (s.rest.take count) (s.rest.drop count)) :
    SoundProgress text low (s.leaf kind count) := by
  have moved := h.advance count
  refine ⟨moved.place, ?_⟩
  simp only [Progress.leaf, List.reverse_cons]
  refine SoundForest.append_iff.mpr ⟨s.offset, h.nodes, ?_⟩
  have wide : s.offset ≤ (s.advance count).offset := Nat.le_add_right ..
  have made : kind.Layout [] ∨ ∃ before taken left, text = before ++ taken ++ left ∧
      byteLength before = s.offset ∧ s.offset + byteLength taken = (s.advance count).offset ∧
      kind.Spelling taken left := by
    obtain ⟨before, split, length, -⟩ := h.place
    refine .inr ⟨before, s.rest.take count, s.rest.drop count, ?_, length, rfl, spelling⟩
    rw [split, List.append_assoc, List.take_append_drop]
  exact SoundForest.singleton
    ⟨h.isPlace, moved.isPlace.isCut, wide, fun _ => ⟨by simp, by simp⟩, made⟩
    (by simp [Tree.subtreesAll]) (Nat.le_refl _) (Nat.le_refl _)

theorem group (h : SoundProgress text low s) (kind : Kind)
    (layout : kind.Layout (Node.withoutLead s.nodes.reverse)) :
    SoundProgress text low (s.group kind) := by
  refine ⟨h.place, ?_⟩
  simp only [Progress.group, List.reverse_reverse]
  exact h.nodes.enclose layout

theorem enter (h : SoundProgress text low s) : SoundProgress text s.offset s.enter :=
  ⟨h.place, Nat.le_refl s.offset, by simp [Progress.enter, Tree.subtreesAll]⟩

theorem leave (h : SoundProgress text low s) (k : SoundProgress text s.offset t) :
    SoundProgress text low (s.leave t) := by
  refine ⟨k.place, ?_⟩
  simp only [Progress.leave, List.reverse_append]
  exact SoundForest.append_iff.mpr ⟨s.offset, h.nodes, k.nodes⟩

theorem reads (r : Reads s t) (h : SoundProgress text low s) : SoundProgress text low t := by
  induction r generalizing low with
  | refl => exact h
  | trans _ _ ihs iht => exact iht (ihs h)
  | remember s reach => exact h.remember reach
  | advance s count => exact h.advance count
  | leaf s kind count taken => exact h.leaf kind count taken.spelling
  | group s kind made => exact h.group kind made.layout
  | within _ ih => exact h.leave (ih h.enter)

end SoundProgress

end Restyle.Syntax

namespace Restyle.Grammar

open Syntax Text

theorem beginning_sound (text : List Char) : SoundProgress text 0 (beginning text) :=
  ⟨⟨[], rfl, rfl, rfl⟩, Nat.le_refl 0, by simp [beginning, Tree.subtreesAll]⟩

theorem parse_sound {dialect : Dialect} {text : List Char} {root : Node}
    (h : parse dialect text = .ok root) : ∀ n ∈ root.subtrees, Sound text n := by
  rw [parse] at h
  split at h
  · rename_i s accepted
    cases h
    have done := (beginning_sound text).reads (Parser.reads _ accepted)
    intro n hn
    rw [Tree.subtrees_eq, List.mem_cons] at hn
    rcases hn with rfl | hn
    · exact ⟨⟨[], text, rfl, rfl, rfl⟩, done.isPlace.isCut, done.nodes.1, absurd rfl, .inl trivial⟩
    · exact done.nodes.2 n hn
  · cases h

end Restyle.Grammar
