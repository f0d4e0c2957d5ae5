import Restyle.Syntax.Parser

/-!
# What accepting parsers leave behind

How an accepted run of a parser splits into those of its parts, and which nodes the tokens and
constructs that were read put on top of the others.
-/

namespace Restyle.Syntax

namespace Node

theorem lead_kind {forest : List Node} {n : Node} (h : n ∈ lead forest) : n.kind = .comment := by
  have comment := List.all_eq_true.mp List.all_takeWhile n h
  simpa using comment

/-- The comments before the first token of a stretch of syntax are left out of it. -/
theorem withoutLead_eq {first : Node} {comments rest : List Node}
    (hcomments : ∀ c ∈ comments, c.kind = .comment) (hfirst : first.kind ≠ .comment) :
    withoutLead (comments ++ first :: rest) = first :: rest := by
  rw [withoutLead, List.dropWhile_append_of_pos (by simpa using hcomments),
    List.dropWhile_cons_of_neg (by simp [hfirst])]

theorem enclose_kind {kind : Kind} {forest : List Node} {n : Node} (h : n ∈ enclose kind forest) :
    n.kind = .comment ∨ n.kind = kind := by
  rw [enclose] at h
  split at h
  · exact .inl (lead_kind h)
  · rcases List.mem_append.mp h with h | h
    · exact .inl (lead_kind h)
    · rw [List.mem_singleton.mp h]
      exact .inr rfl

/-- Of a stretch of syntax with a token one node is made, after the comments before it. -/
theorem enclose_eq {forest : List Node} {n : Node} (hn : n ∈ forest) (token : n.kind ≠ .comment)
    (kind : Kind) :
    ∃ comments whole, enclose kind forest = comments ++ [whole] ∧ Node.kind whole = kind ∧
      ∀ c ∈ comments, Node.kind c = .comment := by
  rw [enclose]
  split
  · rename_i none
    have whole := forest.takeWhile_append_dropWhile (p := fun n => n.kind == .comment)
    rw [withoutLead] at none
    rw [none, List.append_nil] at whole
    exact absurd (lead_kind (by rwa [lead, whole])) token
  · exact ⟨lead forest, _, rfl, rfl, fun _ => lead_kind⟩

end Node

namespace Parser

variable {α β : Type} {s t : Progress}

theorem run_bind (p : Parser α) (f : α → Parser β) (s : Progress) :
    (p >>= f).run s = match p.run s with
      | .accepted a t => (f a).run t
      | .refused r => .refused r := rfl

theorem run_orElse (p q : Parser α) (s : Progress) :
    (p <|> q).run s = match p.run s with
      | .accepted a t => .accepted a t
      | .refused r => q.run (s.remember r) := rfl

theorem run_isolate (p : Parser α) (s : Progress) :
    (isolate p).run s = match p.run s.enter with
      | .accepted a t => .accepted a (s.leave t)
      | .refused r => .refused r := rfl

theorem accepted_of_pure {a b : α} (h : (pure a : Parser α).run s = .accepted b t) :
    a = b ∧ s = t := by
  cases h
  exact ⟨rfl, rfl⟩

theorem accepted_of_bind {p : Parser α} {f : α → Parser β} {b : β} {u : Progress}
    (h : (p >>= f).run s = .accepted b u) :
    ∃ a t, p.run s = .accepted a t ∧ (f a).run t = .accepted b u := by
  rw [run_bind] at h
  split at h
  · rename_i a t hp
    exact ⟨a, t, hp, h⟩
  · cases h

theorem accepted_of_ask {f : Progress → α} {a : α} (h : (ask f).run s = .accepted a t) :
    f s = a ∧ s = t := by
  cases h
  exact ⟨rfl, rfl⟩

theorem accepted_of_isolate {p : Parser α} {a : α} (h : (isolate p).run s = .accepted a t) :
    ∃ u, p.run s.enter = .accepted a u ∧ t = s.leave u := by
  rw [run_isolate] at h
  split at h
  · rename_i u hp
    cases h
    exact ⟨u, hp, rfl⟩
  · cases h

theorem accepted_of_openConstruct {p : Parser Kind} {next : Kind → Parser Unit}
    {made : ∀ {s t kind}, s.nodes = [] → p.run s = .accepted kind t → kind.Made t.nodes} {u : Unit}
    (h : (openConstruct p next made).run s = .accepted u t) :
    ∃ kind v w, p.run s.enter = .accepted kind v ∧
      (next kind).run (v.group kind) = .accepted () w ∧ t = s.leave w := by
  rw [openConstruct] at h
  dsimp only at h
  split at h
  · rename_i kind v hp
    split at h
    · rename_i w hn
      cases h
      exact ⟨kind, v, w, hp, hn, rfl⟩
    · cases h
  · cases h

theorem accepted_of_orElse {p q : Parser α} {a : α} (h : (p <|> q).run s = .accepted a t) :
    p.run s = .accepted a t ∨ ∃ r, q.run (s.remember r) = .accepted a t := by
  rw [run_orElse] at h
  split at h
  · rename_i hp
    cases h
    exact .inl hp
  · exact .inr ⟨_, h⟩

theorem accepted_of_regroupAfter {kind : Kind} {p : Parser α}
    {made : ∀ {s t a}, p.run s = .accepted a t → kind.Made t.nodes} {a : α}
    (h : (regroupAfter kind p made).run s = .accepted a t) :
    ∃ u, p.run s = .accepted a u ∧ t = u.group kind := by
  rw [regroupAfter] at h
  dsimp only at h
  split at h
  · rename_i hp
    cases h
    exact ⟨_, hp, rfl⟩
  · cases h

theorem accepted_of_constructOf {kind : Kind} {p : Parser α}
    {made : ∀ {s t a}, p.run s = .accepted a t → kind.Made t.nodes} {a : α}
    (h : (constructOf kind p made).run s = .accepted a t) :
    ∃ u, p.run s.enter = .accepted a u ∧ t = s.leave (u.group kind) := by
  obtain ⟨u, hu, rfl⟩ := accepted_of_isolate h
  obtain ⟨v, hv, rfl⟩ := accepted_of_regroupAfter hu
  exact ⟨v, hv, rfl⟩

theorem accepted_of_sees {token : String} {b : Bool} (h : (sees token).run s = .accepted b t) :
    s = t ∧ (after? token.toList (atToken s).rest).isSome = b := by
  obtain ⟨text, u, hu, h⟩ := accepted_of_bind h
  obtain ⟨rfl, rfl⟩ := accepted_of_ask hu
  obtain ⟨hb, rfl⟩ := accepted_of_pure h
  exact ⟨rfl, hb⟩

theorem accepted_of_punct? {token : String} {b : Bool}
    (h : (punct? token).run s = .accepted b t) :
    (b = true ∧ (punct token).run s = .accepted () t) ∨ b = false ∧ t = s := by
  obtain ⟨seen, u, hu, h⟩ := accepted_of_bind h
  obtain ⟨rfl, rfl⟩ := accepted_of_sees hu
  split at h
  · obtain ⟨_, u, hu, h⟩ := accepted_of_bind h
    obtain ⟨rfl, rfl⟩ := accepted_of_pure h
    exact .inl ⟨rfl, hu⟩
  · obtain ⟨rfl, rfl⟩ := accepted_of_pure h
    exact .inr ⟨rfl, rfl⟩

theorem accepted_of_leafOr {kind : Kind} {rule : List Char → Option Nat} {other : Parser Unit}
    (taken : ∀ {text count}, rule text = some count →
      kind.Taken (text.take count) (text.drop count)) {u : Unit}
    (h : (leafOr kind rule other taken).run s = .accepted u t) :
    (∃ count, rule (atToken s).rest = some count ∧ t = (atToken s).leaf kind count) ∨
      other.run s = .accepted u t := by
  rw [leafOr] at h
  dsimp only at h
  split at h
  · rename_i count found
    cases h
    exact .inl ⟨count, found, rfl⟩
  · exact .inr h

theorem accepted_of_punctAs {e : Expectation} {token : String} {u : Unit}
    (h : (punctAs e token).run s = .accepted u t) :
    (∃ left, (atToken s).rest = token.toList ++ left) ∧
      t = (atToken s).leaf (.token token) token.toList.length := by
  rcases accepted_of_leafOr (taken_token fun _ => id) h with ⟨count, found, rfl⟩ | h
  · obtain ⟨left, after, rfl⟩ := Option.map_eq_some_iff.mp found
    exact ⟨⟨left, eq_append_of_after? after⟩, rfl⟩
  · cases h

/-- The nodes that go on top of those before are all of a sort. -/
def Adds (P : Node → Prop) (s t : Progress) : Prop :=
  ∃ added, t.nodes = added ++ s.nodes ∧ ∀ n ∈ added, P n

namespace Adds

variable {P Q : Node → Prop} {u : Progress}

theorem refl (s : Progress) : Adds P s s :=
  ⟨[], rfl, by simp⟩

theorem trans (h : Adds P s t) (k : Adds P t u) : Adds P s u := by
  obtain ⟨a, ha, hP⟩ := h
  obtain ⟨b, hb, kP⟩ := k
  refine ⟨b ++ a, by rw [hb, ha, List.append_assoc], ?_⟩
  intro n hn
  rcases List.mem_append.mp hn with hn | hn
  · exact kP n hn
  · exact hP n hn

theorem mono (h : Adds P s t) (hPQ : ∀ n, P n → Q n) : Adds Q s t := by
  obtain ⟨a, ha, hP⟩ := h
  exact ⟨a, ha, fun n hn => hPQ n (hP n hn)⟩

end Adds

theorem skipTrivia_adds (bound : List Char) (s : Progress) :
    Adds (fun n => n.kind = .comment) s (skipTrivia bound s) := by
  fun_induction skipTrivia bound s with
  | case1 s t head bound taken left comment ih =>
      refine Adds.trans ⟨[_], rfl, ?_⟩ ih
      intro n hn
      rw [List.mem_singleton.mp hn]
      rfl
  | case2 => exact .refl _

theorem atToken_adds (s : Progress) : Adds (fun n => n.kind = .comment) s (atToken s) := by
  rw [atToken]
  split
  · split
    · exact skipTrivia_adds _ s
    · exact .refl s
  · exact .refl s

/-- One node of a sort, with comments before it, goes on top of those before. -/
def Tops (P : Node → Prop) (s t : Progress) : Prop :=
  ∃ n comments, t.nodes = n :: (comments ++ s.nodes) ∧ P n ∧ ∀ c ∈ comments, c.kind = .comment

namespace Tops

variable {P : Node → Prop}

theorem closes {kind : Kind} (h : Tops (fun n => n.kind = kind) s t) (hk : kind.closes) :
    Tops (fun n => n.kind.closes) s t := by
  obtain ⟨n, comments, nodes, rfl, hc⟩ := h
  exact ⟨n, comments, nodes, hk, hc⟩

theorem adds (h : Tops P s t) : Adds (fun n => n.kind = .comment ∨ P n) s t := by
  obtain ⟨n, comments, nodes, hP, hc⟩ := h
  refine ⟨n :: comments, nodes, fun m hm => ?_⟩
  rcases List.mem_cons.mp hm with rfl | hm
  · exact .inr hP
  · exact .inl (hc m hm)

end Tops

def Closed (t : Progress) : Prop :=
  ∃ n ∈ t.nodes.head?, n.kind.closes

namespace Closed

variable {u : Progress}

theorem of_tops (h : Tops (fun n => n.kind.closes) s t) : Closed t := by
  obtain ⟨n, comments, nodes, closes, -⟩ := h
  exact ⟨n, by rw [nodes]; rfl, closes⟩

theorem made {kind : Kind} (h : Closed t) (plain : kind.isPlain = true) (other : kind ≠ .attribute) :
    kind.Made t.nodes := by
  obtain ⟨n, top, closes⟩ := h
  refine .of_top plain other fun m hm => ?_
  cases top.symm.trans hm
  exact closes

theorem isolated (h : Closed u) (kind : Kind) :
    Tops (fun n => n.kind = kind) s (s.leave (u.group kind)) := by
  obtain ⟨n, top, closes⟩ := h
  have mem : n ∈ u.nodes.reverse := List.mem_reverse.mpr (List.mem_of_mem_head? top)
  have token : n.kind ≠ .comment := by
    intro comment
    rw [comment] at closes
    cases closes
  obtain ⟨before, whole, made, hkind, hc⟩ := Node.enclose_eq mem token kind
  refine ⟨whole, before.reverse, ?_, hkind, by simpa using hc⟩
  simp [Progress.leave, Progress.group, made]

end Closed

theorem leafOr_tops {kind : Kind} {rule : List Char → Option Nat} {other : Parser Unit}
    (taken : ∀ {text count}, rule text = some count →
      kind.Taken (text.take count) (text.drop count)) {u : Unit}
    (refused : ∀ u, other.run s ≠ .accepted u t)
    (h : (leafOr kind rule other taken).run s = .accepted u t) :
    Tops (fun n => n.kind = kind) s t := by
  rcases accepted_of_leafOr taken h with ⟨count, -, rfl⟩ | h
  · obtain ⟨comments, nodes, kinds⟩ := atToken_adds s
    exact ⟨_, comments, by rw [← nodes]; rfl, rfl, kinds⟩
  · exact absurd h (refused u)

theorem lexeme_tops {kind : Kind} {e : Expectation} {rule : List Char → List Char × List Char}
    {words : TakesWords rule} {plain : kind.isPlain = true} {u : Unit}
    (h : (lexeme kind e rule words plain).run s = .accepted u t) :
    Tops (fun n => n.kind = kind) s t := by
  refine leafOr_tops (taken_of_words plain words) (fun u refused => ?_) h
  cases refused

theorem name_tops {kind : Kind} {plain : kind.isPlain = true} {u : Unit}
    (h : (name kind plain).run s = .accepted u t) : Tops (fun n => n.kind = kind) s t := by
  rw [name, nameAs] at h
  exact lexeme_tops h

theorem delimited_tops {kind : Kind} {e : Expectation}
    {rule : List Char → Option (List Char × List Char)} {opens : Char → Bool}
    {inside : Char → List Char → List Char × List Char}
    {taken : ∀ {text found left}, rule text = some (found, left) →
      kind.Taken (text.take found.length) (text.drop found.length)} {u : Unit}
    (h : (delimited kind e rule opens inside taken).run s = .accepted u t) :
    Tops (fun n => n.kind = kind) s t := by
  refine leafOr_tops (taken_of_spanning taken) (fun u accepted => ?_) h
  rw [unclosed] at accepted
  dsimp only at accepted
  split at accepted
  · split at accepted <;> cases accepted
  · cases accepted

theorem punctAs_adds {e : Expectation} {token : String} {u : Unit}
    (h : (punctAs e token).run s = .accepted u t) :
    ∃ n comments, t.nodes = n :: (comments ++ s.nodes) ∧ n.kind = .token token ∧
      n.stop = n.start + Text.byteLength token.toList ∧ ∀ c ∈ comments, c.kind = .comment := by
  obtain ⟨⟨left, hleft⟩, rfl⟩ := accepted_of_punctAs h
  obtain ⟨comments, hc, kinds⟩ := atToken_adds s
  refine ⟨_, comments, by rw [← hc]; rfl, rfl, ?_, kinds⟩
  simp [Node.start, Node.stop, Progress.advance, hleft]

theorem closed_of_punctAs {e : Expectation} {token : String} (closes : (Kind.token token).closes)
    {u : Unit} (h : (punctAs e token).run s = .accepted u t) : Closed t := by
  obtain ⟨n, comments, nodes, kind, -⟩ := punctAs_adds h
  exact ⟨n, by rw [nodes]; rfl, by rwa [kind]⟩

theorem isolate_adds {p : Parser α} {a : α} (h : (isolate p).run s = .accepted a t) :
    Adds (fun _ => True) s t := by
  obtain ⟨u, _, rfl⟩ := accepted_of_isolate h
  exact ⟨u.nodes, rfl, by simp⟩

theorem manyUpTo_adds {P : Node → Prop} {p : Parser Unit}
    (hp : ∀ {s t u}, p.run s = .accepted u t → Adds P s t) (bound : List Char) {u : Unit}
    (h : (manyUpTo p bound).run s = .accepted u t) : Adds P s t := by
  induction bound generalizing s with
  | nil =>
      obtain ⟨_, rfl⟩ := accepted_of_pure h
      exact .refl s
  | cons c bound ih =>
      rw [manyUpTo] at h
      dsimp only at h
      split at h
      · rename_i v hv
        split at h
        · cases h
          exact hp hv
        · exact (hp hv).trans (ih h)
      · cases h
        exact .refl s

theorem many_adds {P : Node → Prop} {p : Parser Unit}
    (hp : ∀ {s t u}, p.run s = .accepted u t → Adds P s t) {u : Unit}
    (h : (many p).run s = .accepted u t) : Adds P s t := by
  obtain ⟨bound, v, hv, h⟩ := accepted_of_bind h
  obtain ⟨_, rfl⟩ := accepted_of_ask hv
  exact manyUpTo_adds hp bound h

theorem constructOf_adds {kind : Kind} {p : Parser α}
    {made : ∀ {s t a}, p.run s = .accepted a t → kind.Made t.nodes} {a : α}
    (h : (constructOf kind p made).run s = .accepted a t) :
    Adds (fun n => n.kind = .comment ∨ n.kind = kind) s t := by
  obtain ⟨u, _, rfl⟩ := accepted_of_constructOf h
  exact ⟨_, rfl, fun n hn => Node.enclose_kind (List.mem_reverse.mp hn)⟩

theorem manyUpTo_keeps {P : Progress → Prop} {p : Parser Unit}
    (hp : ∀ {s t u}, p.run s = .accepted u t → P s → P t)
    (remember : ∀ s r, P s → P (s.remember r)) (bound : List Char) {u : Unit}
    (h : (manyUpTo p bound).run s = .accepted u t) (hs : P s) : P t := by
  induction bound generalizing s with
  | nil =>
      obtain ⟨_, rfl⟩ := accepted_of_pure h
      exact hs
  | cons c bound ih =>
      rw [manyUpTo] at h
      dsimp only at h
      split at h
      · rename_i v hv
        split at h
        · cases h
          exact hp hv hs
        · exact ih h (hp hv hs)
      · cases h
        exact remember s _ hs

theorem many_keeps {P : Progress → Prop} {p : Parser Unit}
    (hp : ∀ {s t u}, p.run s = .accepted u t → P s → P t)
    (remember : ∀ s r, P s → P (s.remember r)) {u : Unit}
    (h : (many p).run s = .accepted u t) (hs : P s) : P t := by
  obtain ⟨bound, v, hv, h⟩ := accepted_of_bind h
  obtain ⟨_, rfl⟩ := accepted_of_ask hv
  exact manyUpTo_keeps hp remember bound h hs

end Parser

end Restyle.Syntax
