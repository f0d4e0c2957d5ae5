import Restyle.Proofs.Utf8
import Restyle.Syntax.Acceptance

/-!
# What parsers take

Whether a parser goes on depends on the text ahead of it only, for the parsers considered here. It
takes the front of a text and leaves the rest, or refuses the text, and what is put together from
such parsers does one or the other as well.
-/

namespace Restyle.Syntax.Parser

variable {α β : Type} {p q : Parser α} {f : α → Parser β} {a : α} {b : β}
  {text mid rest : List Char}

/-- A parser takes the front of a text and leaves the rest, whatever came before. -/
def Takes (p : Parser α) (text : List Char) (a : α) (rest : List Char) : Prop :=
  ∀ s : Progress, s.rest = text → ∃ t, p.run s = .accepted a t ∧ t.rest = rest

/-- A parser refuses a text, whatever came before. -/
def Refuses (p : Parser α) (text : List Char) : Prop :=
  ∀ s : Progress, s.rest = text → ∃ r, p.run s = .refused r

theorem takes_pure (a : α) (text : List Char) : (pure a : Parser α).Takes text a text :=
  fun s hs => ⟨s, rfl, hs⟩

theorem Takes.bind (h : p.Takes text a mid) (k : (f a).Takes mid b rest) :
    (p >>= f).Takes text b rest := by
  intro s hs
  obtain ⟨t, ht, hmid⟩ := h s hs
  rw [run_bind, ht]
  exact k t hmid

theorem Refuses.bind (h : p.Refuses text) (f : α → Parser β) : (p >>= f).Refuses text := by
  intro s hs
  obtain ⟨r, hr⟩ := h s hs
  rw [run_bind, hr]
  exact ⟨r, rfl⟩

theorem Takes.bind_refuses (h : p.Takes text a mid) (k : (f a).Refuses mid) :
    (p >>= f).Refuses text := by
  intro s hs
  obtain ⟨t, ht, hmid⟩ := h s hs
  rw [run_bind, ht]
  exact k t hmid

theorem Takes.orElse (h : p.Takes text a rest) (q : Parser α) : (p <|> q).Takes text a rest := by
  intro s hs
  obtain ⟨t, ht, hrest⟩ := h s hs
  rw [run_orElse, ht]
  exact ⟨t, rfl, hrest⟩

theorem Refuses.orElse (h : p.Refuses text) (k : q.Takes text a rest) :
    (p <|> q).Takes text a rest := by
  intro s hs
  obtain ⟨r, hr⟩ := h s hs
  rw [run_orElse, hr]
  exact k (s.remember r) hs

theorem Refuses.orElse_refuses (h : p.Refuses text) (k : q.Refuses text) :
    (p <|> q).Refuses text := by
  intro s hs
  obtain ⟨r, hr⟩ := h s hs
  rw [run_orElse, hr]
  exact k (s.remember r) hs

theorem Takes.isolate (h : p.Takes text a rest) : (isolate p).Takes text a rest := by
  intro s hs
  obtain ⟨t, ht, hrest⟩ := h s.enter hs
  exact ⟨s.leave t, by rw [run_isolate, ht], hrest⟩

theorem Refuses.isolate (h : p.Refuses text) : (Parser.isolate p).Refuses text := by
  intro s hs
  obtain ⟨r, hr⟩ := h s.enter hs
  exact ⟨r, by rw [run_isolate, hr]⟩

theorem takes_regroup (kind : Kind) (loose : kind.isLoose = true) (text : List Char) :
    (regroup kind loose).Takes text () text :=
  fun s hs => ⟨s.group kind, rfl, hs⟩

theorem Takes.construct {kind : Kind} {loose : kind.isLoose = true} {p : Parser Unit}
    (h : p.Takes text () rest) : (construct kind p loose).Takes text () rest :=
  (h.bind (takes_regroup kind loose rest)).isolate

theorem Refuses.construct {kind : Kind} {loose : kind.isLoose = true} {p : Parser Unit}
    (h : p.Refuses text) : (Parser.construct kind p loose).Refuses text :=
  (h.bind _).isolate

section ConstructOf

variable {kind : Kind} {made : ∀ {s t a}, p.run s = .accepted a t → kind.Made t.nodes}

theorem Takes.regroupAfter (h : p.Takes text a rest) :
    (regroupAfter kind p made).Takes text a rest := by
  intro s hs
  obtain ⟨t, ht, hrest⟩ := h s hs
  refine ⟨t.group kind, ?_, hrest⟩
  rw [Parser.regroupAfter]
  simp only [ht]

theorem Refuses.regroupAfter (h : p.Refuses text) :
    (Parser.regroupAfter kind p made).Refuses text := by
  intro s hs
  obtain ⟨r, hr⟩ := h s hs
  refine ⟨r, ?_⟩
  rw [Parser.regroupAfter]
  simp only [hr]

theorem Takes.constructOf (h : p.Takes text a rest) :
    (constructOf kind p made).Takes text a rest :=
  h.regroupAfter.isolate

theorem Refuses.constructOf (h : p.Refuses text) : (Parser.constructOf kind p made).Refuses text :=
  h.regroupAfter.isolate

end ConstructOf

theorem run_openConstruct {p : Parser Kind} {next : Kind → Parser Unit}
    {made : ∀ {s t kind}, s.nodes = [] → p.run s = .accepted kind t → kind.Made t.nodes}
    (s : Progress) :
    (openConstruct p next made).run s = match p.run s.enter with
      | .accepted kind t =>
          match (next kind).run (t.group kind) with
          | .accepted () u => .accepted () (s.leave u)
          | .refused r => .refused r
      | .refused r => .refused r := rfl

section OpenConstruct

variable {p : Parser Kind} {next : Kind → Parser Unit} {kind : Kind}
  {made : ∀ {s t kind}, s.nodes = [] → p.run s = .accepted kind t → kind.Made t.nodes}

theorem Takes.openConstruct (h : p.Takes text kind mid) (k : (next kind).Takes mid () rest) :
    (openConstruct p next made).Takes text () rest := by
  intro s hs
  obtain ⟨t, ht, hmid⟩ := h s.enter hs
  obtain ⟨u, hu, hrest⟩ := k (t.group kind) hmid
  refine ⟨s.leave u, ?_, hrest⟩
  rw [run_openConstruct, ht]
  simp only [hu]

theorem Refuses.openConstruct (h : p.Refuses text) :
    (Parser.openConstruct p next made).Refuses text := by
  intro s hs
  obtain ⟨r, hr⟩ := h s.enter hs
  exact ⟨r, by rw [run_openConstruct, hr]⟩

end OpenConstruct

theorem reads_offset {s t : Progress} (h : Reads s t) :
    ∃ taken, s.rest = taken ++ t.rest ∧ t.offset = s.offset + Text.byteLength taken := by
  induction h with
  | refl s => exact ⟨[], rfl, rfl⟩
  | trans _ _ ih ih' =>
      obtain ⟨front, split, offset⟩ := ih
      obtain ⟨back, split', offset'⟩ := ih'
      refine ⟨front ++ back, by rw [split, split', List.append_assoc], ?_⟩
      rw [offset', offset, Text.byteLength_append, Nat.add_assoc]
  | remember s reach => exact ⟨[], rfl, rfl⟩
  | advance s count => exact ⟨s.rest.take count, (List.take_append_drop count s.rest).symm, rfl⟩
  | leaf s kind count => exact ⟨s.rest.take count, (List.take_append_drop count s.rest).symm, rfl⟩
  | group s kind => exact ⟨[], rfl, rfl⟩
  | within _ ih => exact ih

private theorem run_manyUpTo {p : Parser Unit} {c : Char} {bound : List Char} (s : Progress) :
    (manyUpTo p (c :: bound)).run s = match p.run s with
      | .accepted () t => if t.offset = s.offset then .accepted () t else (manyUpTo p bound).run t
      | .refused r => .accepted () (s.remember r) := rfl

private theorem Refuses.manyUpTo {p : Parser Unit} (h : p.Refuses text) (bound : List Char) :
    (manyUpTo p bound).Takes text () text := by
  intro s hs
  cases bound with
  | nil => exact ⟨s, rfl, hs⟩
  | cons c bound =>
      obtain ⟨r, hr⟩ := h s hs
      exact ⟨s.remember r, by rw [run_manyUpTo, hr], hs⟩

theorem Refuses.many {p : Parser Unit} (h : p.Refuses text) : (many p).Takes text () text :=
  fun s hs => h.manyUpTo s.rest s hs

theorem Takes.many {p : Parser Unit} (h : p.Takes text () rest) (moved : text ≠ rest)
    (k : p.Refuses rest) : (many p).Takes text () rest := by
  rintro s rfl
  change ∃ t, (manyUpTo p s.rest).run s = .accepted () t ∧ t.rest = rest
  obtain ⟨t, ht, hrest⟩ := h s rfl
  obtain ⟨passed, split, offset⟩ := reads_offset (p.reads ht)
  rw [hrest] at split
  cases passed with
  | nil => exact absurd split moved
  | cons c passed =>
      have wide := Text.charWidth_pos c
      rw [Text.byteLength] at offset
      rw [split, List.cons_append, run_manyUpTo, ht]
      simp only [show t.offset ≠ s.offset by omega, if_false]
      exact k.manyUpTo _ t hrest

/-- The next token of a text is at the head of another: only space comes before it. -/
def NextToken (text token : List Char) : Prop :=
  ∀ s : Progress, s.rest = text → (atToken s).rest = token

/-- A text that begins with a token: neither space nor a comment comes first. -/
def AtToken (text : List Char) : Prop :=
  (∀ c ∈ text.head?, isSpace c = false) ∧ takeComment text = none

private theorem skipTrivia_rest {s : Progress} {bound : List Char} (some : bound ≠ [])
    (space : s.rest.dropWhile isSpace = text) (token : AtToken text) :
    (skipTrivia bound s).rest = text := by
  have rest : (s.advance (s.rest.takeWhile isSpace).length).rest = text := by
    change s.rest.drop (s.rest.takeWhile isSpace).length = text
    have whole := s.rest.takeWhile_append_dropWhile (p := isSpace)
    rw [space] at whole
    exact (congrArg _ whole).symm.trans List.drop_left
  rw [skipTrivia.eq_def]
  cases bound with
  | nil => exact absurd rfl some
  | cons c bound =>
      simp only [rest, token.2]

theorem AtToken.next (h : AtToken text) : NextToken text text := by
  rintro s rfl
  rw [atToken]
  split
  · rename_i c tail split
    split
    · refine skipTrivia_rest (by simp [split]) ?_ h
      rw [split, List.dropWhile_cons_of_neg (by simp [h.1 c (by rw [split]; rfl)])]
    · rfl
  · rfl

theorem next_of_head {c : Char} (space : isSpace c = false) (slash : c ≠ '/') :
    NextToken (c :: text) (c :: text) := by
  refine AtToken.next ⟨fun b hb => ?_, ?_⟩
  · cases hb
    exact space
  · unfold takeComment
    split
    · rename_i split
      exact absurd (List.cons.inj split).1 slash
    · rename_i split
      exact absurd (List.cons.inj split).1 slash
    · rfl

theorem AtToken.next_space (h : AtToken text) : NextToken (' ' :: text) text := by
  intro s hs
  rw [atToken, hs]
  simp only [show isSpace ' ' = true from rfl, Bool.true_or, if_true]
  refine skipTrivia_rest (by simp) ?_ h
  rw [hs, List.dropWhile_cons_of_pos rfl]
  cases text with
  | nil => rfl
  | cons c text => rw [List.dropWhile_cons_of_neg (by simp [h.1 c rfl])]

section Token

variable {token : List Char} (h : NextToken text token)
include h

theorem takes_peek : peek.Takes text token text := by
  rintro s rfl
  refine ⟨s, ?_, rfl⟩
  change Outcome.accepted (atToken s).rest s = _
  rw [h s rfl]

/-- Whether a parser goes on after a look at the text depends on what it makes of it. -/
theorem takes_peek_bind {f : List Char → Parser β} :
    (peek >>= f).Takes text b rest ↔ (f token).Takes text b rest := by
  refine forall_congr' fun s => imp_congr_right ?_
  rintro rfl
  rw [run_bind]
  change (∃ t, (f (atToken s).rest).run s = _ ∧ _) ↔ _
  rw [h s rfl]

theorem takes_toToken : toToken.Takes text () token := by
  rintro s rfl
  exact ⟨atToken s, rfl, h s rfl⟩

theorem takes_sees (word : String) :
    (sees word).Takes text (after? word.toList token).isSome text :=
  (takes_peek h).bind (takes_pure _ _)

end Token

theorem takes_lastNode_bind {f : Option Node → Parser β} (h : ∀ n, (f n).Takes text b rest) :
    (lastNode >>= f).Takes text b rest := by
  intro s hs
  rw [run_bind]
  exact h s.nodes.head? s hs

theorem refuses_refuse (e : Expectation) (text : List Char) : (refuse e : Parser α).Refuses text :=
  fun _ _ => ⟨_, rfl⟩

theorem refuses_decline (text : List Char) : (decline : Parser α).Refuses text :=
  fun s _ => ⟨s.reach, rfl⟩

theorem after?_append (word rest : List Char) : after? word (word ++ rest) = some rest := by
  induction word with
  | nil => cases rest <;> rfl
  | cons w word ih => rw [List.cons_append, after?, if_pos rfl, ih]

section LeafOr

variable {kind : Kind} {rule : List Char → Option Nat} {other : Parser Unit} {token : List Char}

theorem takes_leafOr (taken : ∀ {text count}, rule text = some count →
      kind.Taken (text.take count) (text.drop count)) {found : List Char}
    (h : NextToken text (found ++ rest)) (hfound : rule (found ++ rest) = some found.length) :
    (leafOr kind rule other taken).Takes text () rest := by
  rintro s rfl
  refine ⟨(atToken s).leaf kind found.length, ?_, ?_⟩
  · rw [leafOr]
    simp only [h s rfl, hfound]
  · change (atToken s).rest.drop found.length = rest
    rw [h s rfl, List.drop_left]

theorem refuses_leafOr (taken : ∀ {text count}, rule text = some count →
      kind.Taken (text.take count) (text.drop count))
    (h : NextToken text token) (none : rule token = none) (refused : other.Refuses text) :
    (leafOr kind rule other taken).Refuses text := by
  rintro s rfl
  obtain ⟨r, hr⟩ := refused s rfl
  refine ⟨r, ?_⟩
  rw [leafOr]
  simp only [h s rfl, none, hr]

end LeafOr

theorem takes_punctAs (e : Expectation) (token : String)
    (h : NextToken text (token.toList ++ rest)) : (punctAs e token).Takes text () rest := by
  refine takes_leafOr (taken_token fun _ => id) h ?_
  rw [after?_append]
  rfl

theorem refuses_punctAs (e : Expectation) {word : String} {token : List Char}
    (h : NextToken text token) (other : after? word.toList token = none) :
    (punctAs e word).Refuses text := by
  refine refuses_leafOr (taken_token fun _ => id) h ?_ (refuses_refuse e text)
  rw [other]
  rfl

theorem refuses_keyword {word : String} {token : List Char} (h : NextToken text token)
    (other : afterWord? word.toList token = none) : (keyword word).Refuses text := by
  refine refuses_leafOr (taken_token fun _ => after?_of_afterWord?) h ?_ (refuses_refuse _ text)
  rw [other]
  rfl

theorem takes_punct? (word : String) (h : NextToken text (word.toList ++ rest)) :
    (punct? word).Takes text true rest := by
  refine (takes_sees h word).bind ?_
  rw [after?_append]
  exact (takes_punctAs .other word h).bind (takes_pure true _)

theorem takes_punct?_other {word : String} {token : List Char} (h : NextToken text token)
    (other : after? word.toList token = none) : (punct? word).Takes text false text := by
  refine (takes_sees h word).bind ?_
  rw [other]
  exact takes_pure false _

section Lexeme

variable {kind : Kind} {plain : kind.isPlain = true} {e : Expectation}
  {rule : List Char → List Char × List Char} {words : TakesWords rule}

theorem takes_lexeme {taken : List Char} (h : NextToken text (taken ++ rest)) (some : taken ≠ [])
    (found : rule (taken ++ rest) = (taken, rest)) :
    (lexeme kind e rule words plain).Takes text () rest := by
  refine takes_leafOr (taken_of_words plain words) h ?_
  rw [taking, found]
  cases taken with
  | nil => exact absurd rfl some
  | cons c taken => rfl

theorem refuses_lexeme {token left : List Char} (h : NextToken text token)
    (none : rule token = ([], left)) : (lexeme kind e rule words plain).Refuses text := by
  refine refuses_leafOr (taken_of_words plain words) h ?_ (refuses_refuse e text)
  rw [taking, none]

end Lexeme

section Delimited

variable {kind : Kind} {e : Expectation} {rule : List Char → Option (List Char × List Char)}
  {opens : Char → Bool} {inside : Char → List Char → List Char × List Char}
  (taken : ∀ {text found left}, rule text = some (found, left) →
    kind.Taken (text.take found.length) (text.drop found.length))

theorem takes_delimited {found : List Char} (h : NextToken text (found ++ rest))
    (hfound : rule (found ++ rest) = some (found, rest)) :
    (delimited kind e rule opens inside taken).Takes text () rest := by
  refine takes_leafOr (taken_of_spanning taken) h ?_
  rw [spanning, hfound]
  rfl

private theorem refuses_unclosed (e : Expectation) (opens : Char → Bool)
    (inside : Char → List Char → List Char × List Char) (text : List Char) :
    (unclosed e opens inside).Refuses text := by
  intro s _
  rw [unclosed]
  dsimp only
  split
  · split <;> exact ⟨_, rfl⟩
  · exact ⟨_, rfl⟩

theorem refuses_delimited {token : List Char} (h : NextToken text token)
    (none : rule token = none) : (delimited kind e rule opens inside taken).Refuses text := by
  refine refuses_leafOr (taken_of_spanning taken) h ?_ (refuses_unclosed e opens inside text)
  rw [spanning, none]
  rfl

end Delimited

theorem Takes.unique {a' : α} {rest' : List Char} (h : p.Takes text a rest)
    (k : p.Takes text a' rest') : a = a' ∧ rest = rest' := by
  obtain ⟨t, ht, hrest⟩ := h ⟨text, 0, 0, [], [], ⟨0, [], []⟩⟩ rfl
  obtain ⟨u, hu, hrest'⟩ := k ⟨text, 0, 0, [], [], ⟨0, [], []⟩⟩ rfl
  rw [ht] at hu
  cases hu
  exact ⟨rfl, hrest.symm.trans hrest'⟩

theorem Takes.not_refuses (h : p.Takes text a rest) : ¬ p.Refuses text := by
  intro k
  obtain ⟨t, ht, -⟩ := h ⟨text, 0, 0, [], [], ⟨0, [], []⟩⟩ rfl
  obtain ⟨r, hr⟩ := k ⟨text, 0, 0, [], [], ⟨0, [], []⟩⟩ rfl
  rw [ht] at hr
  cases hr

end Restyle.Syntax.Parser
