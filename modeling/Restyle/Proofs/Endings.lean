import Restyle.Proofs.Spans

/-!
# Where nodes end

In every tree that a text is parsed to, names, strings and what a bracket closes end with a character
that is no white space, and so does every part of an attribute. As for spans, one step of a reading
keeps this, and so does every reading.
-/

namespace Restyle.Syntax

open Text

theorem Kind.closes_of_turn {kind : Kind} (h : kind.turn? ≠ none) : kind.closes := by
  unfold Kind.turn? at h
  split at h
  · rfl
  · rfl
  · rfl
  · rfl
  · exact absurd rfl h

/-- The character in front of an offset of a text is no white space. -/
def EndsAt (text : List Char) (offset : Nat) : Prop :=
  ∃ front c back, text = front ++ c :: back ∧ byteLength (front ++ [c]) = offset ∧ isSpace c = false

theorem EndsAt.cut {text : List Char} {offset : Nat} (h : EndsAt text offset) :
    ∃ front back, text = front ++ back ∧ byteLength front = offset ∧
      ∃ c ∈ front.getLast?, isSpace c = false := by
  obtain ⟨front, c, back, split, length, solid⟩ := h
  rw [List.append_cons] at split
  exact ⟨front ++ [c], back, split, length, c, List.getLast?_concat, solid⟩

theorem EndsAt.solid {before rest : List Char} {offset : Nat} (h : EndsAt (before ++ rest) offset)
    (length : byteLength before = offset) : ∃ c ∈ before.getLast?, isSpace c = false := by
  obtain ⟨front, back, split, length', last⟩ := h.cut
  obtain ⟨rfl, -⟩ := append_inj_byteLength split (length.trans length'.symm)
  exact last

/-- What holds of the end of a node of a tree of a text. -/
structure Ended (text : List Char) (n : Node) : Prop where
  stop : n.kind.closes → EndsAt text n.stop
  parts : n.kind = .attribute → ∀ m ∈ n.parts, m.kind.closes

namespace Ended

variable {text : List Char} {n : Node}

theorem of_taken {before taken left : List Char} (split : text = before ++ (taken ++ left))
    (none : n.children = []) (stop : n.stop = byteLength before + byteLength taken)
    (h : n.kind.Taken taken left) : Ended text n := by
  constructor
  · intro closes
    obtain ⟨c, last, solid⟩ := h.ending closes
    obtain ⟨front, rfl⟩ := List.getLast?_eq_some_iff.mp last
    refine ⟨before ++ front, c, left, by simp [split], ?_, solid⟩
    rw [stop, List.append_assoc, byteLength_append]
  · intro _ m hm
    simp [Node.parts, none] at hm

theorem of_made {nodes : List Node} {last : Node} (h : n.kind.Made nodes)
    (ended : ∀ m ∈ nodes, Ended text m) (parts : ∀ m ∈ n.children, m ∈ nodes)
    (top : nodes.head? = some last) (stop : n.stop = last.stop) : Ended text n := by
  constructor
  · intro closes
    rw [stop]
    exact (ended last (List.mem_of_mem_head? top)).stop (h.closing closes last top)
  · intro same m hm
    obtain ⟨child, named⟩ := List.mem_filter.mp hm
    simp only [Bool.and_eq_true, bne_iff_ne] at named
    exact h.parts same m (parts m child) named.1 named.2

end Ended

namespace Node

/-- What a stretch of syntax is enclosed in covers it from its first token on. -/
theorem mem_enclose {kind : Kind} {forest : List Node} {n : Node} (h : n ∈ enclose kind forest) :
    n ∈ forest ∨ n.kind = kind ∧ n.children = withoutLead forest ∧
      ∃ first last, (withoutLead forest).head? = some first ∧
        (withoutLead forest).getLast? = some last ∧ n.stop = max (start first) (stop last) := by
  rw [enclose] at h
  split at h
  · exact .inl ((List.takeWhile_sublist _).mem h)
  · rename_i first rest parts
    rcases List.mem_append.mp h with h | h
    · exact .inl ((List.takeWhile_sublist _).mem h)
    · rw [List.mem_singleton.mp h]
      obtain ⟨last, hlast⟩ : ∃ last, (first :: rest).getLast? = some last :=
        ⟨_, List.getLast?_eq_some_getLast (List.cons_ne_nil first rest)⟩
      exact .inr ⟨rfl, rfl, first, last, by rw [parts]; rfl, by rw [parts, hlast],
        by simp [stop, parts, hlast]⟩

end Node

/-- Every node that is read so far ends as its kind says, with all that is under it. -/
def EndedProgress (text : List Char) (s : Progress) : Prop :=
  ∀ n ∈ s.nodes, ∀ m ∈ n.subtrees, Ended text m

namespace EndedProgress

variable {text : List Char} {low : Nat} {s t : Progress} {kind : Kind}

theorem leaf (h : EndedProgress text s) (sound : SoundProgress text low s) {count : Nat}
    (taken : kind.Taken (s.rest.take count) (s.rest.drop count)) :
    EndedProgress text (s.leaf kind count) := by
  intro n hn m hm
  rcases List.mem_cons.mp hn with rfl | hn
  · rw [Tree.subtrees_eq, Tree.children, Tree.subtreesAll, List.mem_singleton] at hm
    obtain ⟨before, split, length, -⟩ := sound.place
    rw [← List.take_append_drop count s.rest] at split
    rw [hm]
    exact .of_taken split rfl (by rw [length]; rfl) taken
  · exact h n hn m hm

theorem group (h : EndedProgress text s) (sound : SoundProgress text low s)
    (made : kind.Made s.nodes) : EndedProgress text (s.group kind) := by
  intro n hn m hm
  replace hn : n ∈ Node.enclose kind s.nodes.reverse := List.mem_reverse.mp hn
  have whole : Node.lead s.nodes.reverse ++ Node.withoutLead s.nodes.reverse = s.nodes.reverse :=
    List.takeWhile_append_dropWhile
  rcases Node.mem_enclose hn with hn | ⟨rfl, parts, first, last, hfirst, hlast, stop⟩
  · exact h n (List.mem_reverse.mp hn) m hm
  have inside : ∀ part ∈ n.children, part ∈ s.nodes := by
    intro part hp
    rw [← List.mem_reverse, ← whole, ← parts]
    exact List.mem_append_right _ hp
  rw [Tree.subtrees_eq] at hm
  rcases List.mem_cons.mp hm with rfl | hm
  · have top : s.nodes.head? = some last := by
      rw [← List.getLast?_reverse, ← whole, List.getLast?_append, hlast]
      rfl
    have order := sound.nodes.1
    rw [← whole] at order
    obtain ⟨middle, -, follow⟩ := Ordered.append_iff.mp order
    have le : first.start ≤ last.stop := by
      obtain ⟨rest, split⟩ := List.head?_eq_some_iff.mp hfirst
      have upTo := follow.upToLast hlast
      rw [split] at upTo
      exact Nat.le_trans first.start_le_stop upTo.2.le
    rw [Nat.max_eq_right le] at stop
    exact .of_made made (fun part hp => h part hp part (Tree.self_mem_subtrees part)) inside top stop
  · obtain ⟨part, hp, hm⟩ := Tree.mem_subtreesAll.mp hm
    exact h part (inside part hp) m hm

theorem leave (h : EndedProgress text s) (k : EndedProgress text t) :
    EndedProgress text (s.leave t) := by
  intro n hn
  rcases List.mem_append.mp hn with hn | hn
  · exact k n hn
  · exact h n hn

theorem reads (r : Reads s t) (sound : SoundProgress text low s) (h : EndedProgress text s) :
    EndedProgress text t := by
  induction r generalizing low with
  | refl => exact h
  | trans first _ ihs iht => exact iht (sound.reads first) (ihs sound h)
  | remember => exact h
  | advance => exact h
  | leaf s kind count taken => exact h.leaf sound taken
  | group s kind made => exact h.group sound made
  | within _ ih => exact h.leave (ih sound.enter nofun)

end EndedProgress

end Restyle.Syntax

namespace Restyle.Grammar

open Syntax

theorem parse_ended {dialect : Dialect} {text : List Char} {root : Node}
    (h : parse dialect text = .ok root) : ∀ n ∈ root.subtrees, Ended text n := by
  rw [parse] at h
  split at h
  · rename_i s accepted
    cases h
    have done : EndedProgress text s :=
      EndedProgress.reads (Parser.reads _ accepted) (beginning_sound text) nofun
    intro n hn
    rw [Tree.subtrees_eq] at hn
    rcases List.mem_cons.mp hn with rfl | hn
    · exact ⟨nofun, nofun⟩
    · obtain ⟨m, hm, hn⟩ := Tree.mem_subtreesAll.mp hn
      exact done m (List.mem_reverse.mp hm) n hn
  · cases h

end Restyle.Grammar
