import Restyle.Grammar.Types

/-!
# Markup

Elements with their attributes and children. The name of a closing tag is read but not compared
with that of the opening one.
-/

namespace Restyle.Grammar

open Restyle.Syntax Parser

variable (self : Recur)

def expressions (setting : Setting) : Parser Unit :=
  isolate do
    self (.expression setting)
    if ← sees "," then
      many do
        punct ","
        self (.expression setting)
      regroup .sequence

/-- What stands between braces in markup: an expression, a spread or nothing. -/
def containerInside : Parser Unit :=
  optional
    ((construct .spread do
      punct "..."
      self (.expression .inner)) <|>
    expressions self .inner)

def braces : Parser Kind := do
  punct "\x7b"
  containerInside self
  close "\x7d"
  return .container

section Braces

variable {self} {s t : Progress}

private theorem containerInside_adds {x : Unit}
    (h : (containerInside self).run s = .accepted x t) : Adds (fun _ => True) s t := by
  rcases accepted_of_orElse h with h | ⟨r, h⟩
  · rcases accepted_of_orElse h with h | ⟨r, h⟩
    · exact isolate_adds h
    · exact isolate_adds (s := s.remember r) h
  · obtain ⟨_, rfl⟩ := accepted_of_pure h
    exact .refl s

theorem braces_made {kind : Kind} (fresh : s.nodes = [])
    (h : (braces self).run s = .accepted kind t) : kind.Made t.nodes := by
  obtain ⟨_, u, hu, h⟩ := accepted_of_bind h
  obtain ⟨first, lead, hfirst, fkind, fwidth, hlead⟩ := punctAs_adds hu
  obtain ⟨_, v, hv, h⟩ := accepted_of_bind h
  obtain ⟨middle, hmiddle, _⟩ := containerInside_adds hv
  obtain ⟨_, w, hw, h⟩ := accepted_of_bind h
  obtain ⟨last, comments, hlast, lkind, lwidth, _⟩ := punctAs_adds hw
  obtain ⟨rfl, rfl⟩ := accepted_of_pure h
  have nodes : w.nodes.reverse =
      lead.reverse ++ first :: (middle.reverse ++ comments.reverse ++ [last]) := by
    simp [hlast, hmiddle, hfirst, fresh]
  refine .of_layout ?_ (.inr rfl)
  rw [nodes, Node.withoutLead_eq (by simpa using hlead) (by simp [fkind])]
  exact ⟨first, middle.reverse ++ comments.reverse, last, rfl, fkind, fwidth, lkind, lwidth⟩

end Braces

def container : Parser Unit :=
  openConstruct (braces self) (fun _ => return ()) braces_made

theorem container_tops {self : Recur} {s t : Progress} {x : Unit}
    (h : (container self).run s = .accepted x t) : Tops (fun n => n.kind = .container) s t := by
  obtain ⟨kind, v, w, hv, hw, rfl⟩ := accepted_of_openConstruct h
  obtain ⟨_, _, _, hv⟩ := accepted_of_bind hv
  obtain ⟨_, _, _, hv⟩ := accepted_of_bind hv
  obtain ⟨_, u, hu, hv⟩ := accepted_of_bind hv
  obtain ⟨rfl, rfl⟩ := accepted_of_pure hv
  obtain ⟨_, rfl⟩ := accepted_of_pure hw
  exact (closed_of_punctAs (by decide) hu).isolated .container

/-- A name of an element or an attribute, where hyphens are allowed. -/
def markupName : Parser Unit :=
  lexeme .identifier .other takeMarkupName takeMarkupName_words

/-- The words of the name of an attribute: its namespace, and the name. -/
def attributeWords : Parser Unit := do
  markupName
  if ← punct? ":" then markupName

theorem takeAttributeString_taken {text found left : List Char}
    (h : takeAttributeString text = some (found, left)) :
    Kind.string.Taken (text.take found.length) (text.drop found.length) :=
  .of_quoted (takeAttributeString_quoted h) _

def attributeString : Parser Unit :=
  delimited .string .other takeAttributeString isQuote (fun _ rest => openAttributeString rest)
    takeAttributeString_taken

/-- The value of an attribute: a string, an expression in braces, or an element. -/
def attributeValue : Parser Unit := do
  match ← peek with
  | '\x7b' :: _ => container self
  | '<' :: _ => self .element
  | _ => attributeString

section Attributes

variable {self} {s t : Progress} {x : Unit}

theorem markupName_closed (h : markupName.run s = .accepted x t) : Closed t :=
  .of_tops ((lexeme_tops h).closes rfl)

theorem attributeWords_closed (h : attributeWords.run s = .accepted x t) : Closed t := by
  obtain ⟨_, u, hu, h⟩ := accepted_of_bind h
  obtain ⟨b, v, hv, h⟩ := accepted_of_bind h
  split at h
  · exact markupName_closed h
  · rename_i ended
    obtain ⟨_, rfl⟩ := accepted_of_pure h
    rcases accepted_of_punct? hv with ⟨rfl, -⟩ | ⟨-, rfl⟩
    · exact absurd rfl ended
    · exact markupName_closed hu

theorem attributeWords_made (h : attributeWords.run s = .accepted x t) :
    Kind.attributeName.Made t.nodes :=
  (attributeWords_closed h).made rfl nofun

private theorem attributeValue_tops (h : (attributeValue self).run s = .accepted x t) :
    Tops (fun n => n.kind.closes) s t := by
  obtain ⟨text, u, hu, h⟩ := accepted_of_bind h
  obtain ⟨_, rfl⟩ := accepted_of_ask hu
  split at h
  · exact (container_tops h).closes rfl
  · exact self.element h
  · exact (delimited_tops h).closes rfl

end Attributes

def attributeName : Parser Unit :=
  constructOf .attributeName attributeWords attributeWords_made

def attributeParts : Parser Kind := do
  attributeName
  if ← punct? "=" then attributeValue self
  return .attribute

section Attributes

variable {self} {s t : Progress}

/-- A part of an attribute that is neither punctuation nor a comment closes. -/
private def PartCloses (n : Node) : Prop :=
  n.kind.isNamed → n.kind ≠ .comment → n.kind.closes

private theorem partCloses_of_tops (h : Tops (fun n => n.kind.closes) s t) : Adds PartCloses s t := by
  refine h.adds.mono fun n hn _ token => ?_
  exact hn.resolve_left token

private theorem attributeName_tops {x : Unit} (h : attributeName.run s = .accepted x t) :
    Tops (fun n => n.kind = .attributeName) s t := by
  obtain ⟨u, hu, rfl⟩ := accepted_of_constructOf h
  exact (attributeWords_closed hu).isolated .attributeName

/-- What is read as an attribute ends with its value, if it has one, and else with its name. -/
private theorem attributeParts_adds {kind : Kind}
    (h : (attributeParts self).run s = .accepted kind t) :
    kind = .attribute ∧ Closed t ∧ Adds PartCloses s t := by
  obtain ⟨_, u, hu, after⟩ := accepted_of_bind h
  have name := (attributeName_tops hu).closes rfl
  obtain ⟨b, v, hv, tail⟩ := accepted_of_bind after
  rcases accepted_of_punct? hv with ⟨rfl, equals⟩ | ⟨rfl, rfl⟩
  · obtain ⟨_, w, hw, ended⟩ := accepted_of_bind tail
    obtain ⟨rfl, rfl⟩ := accepted_of_pure ended
    have value := attributeValue_tops hw
    obtain ⟨n, comments, nodes, kind, -, hc⟩ := punctAs_adds equals
    have between : Adds PartCloses u v := by
      refine ⟨n :: comments, nodes, fun m hm => ?_⟩
      rcases List.mem_cons.mp hm with rfl | hm
      · intro named
        rw [kind] at named
        cases named
      · exact fun _ token => absurd (hc m hm) token
    exact ⟨rfl, .of_tops value,
      ((partCloses_of_tops name).trans between).trans (partCloses_of_tops value)⟩
  · obtain ⟨rfl, rfl⟩ := accepted_of_pure tail
    exact ⟨rfl, .of_tops name, partCloses_of_tops name⟩

theorem attributeParts_made {kind : Kind} (fresh : s.nodes = [])
    (h : (attributeParts self).run s = .accepted kind t) : kind.Made t.nodes := by
  obtain ⟨rfl, ⟨n, top, closes⟩, added, nodes, parts⟩ := attributeParts_adds h
  rw [fresh, List.append_nil] at nodes
  refine ⟨trivial, fun _ m hm => ?_, fun _ => nodes ▸ parts⟩
  cases top.symm.trans hm
  exact closes

end Attributes

def namedEntry : Parser Unit :=
  openConstruct (attributeParts self) (fun _ => return ()) attributeParts_made

theorem namedEntry_tops {self : Recur} {s t : Progress} {x : Unit}
    (h : (namedEntry self).run s = .accepted x t) : Tops (fun n => n.kind = .attribute) s t := by
  obtain ⟨kind, v, w, hv, hw, rfl⟩ := accepted_of_openConstruct h
  obtain ⟨_, rfl⟩ := accepted_of_pure hw
  obtain ⟨rfl, closed, -⟩ := attributeParts_adds hv
  exact closed.isolated .attribute

def tagEntry : Parser Unit := do
  if ← sees "\x7b" then container self
  else namedEntry self

/-- What follows the first word of the name of an element; says whether type arguments may follow. -/
def tagNameTail (hyphenated : Bool) : Parser Bool := do
  if ← punct? ":" then
    markupName
    return false
  else if hyphenated then return false
  else
    many do
      punct "."
      name .identifier
    return true

/-- The words of the name of an element. Type arguments may follow only if it has neither hyphen nor
namespace; says whether that is so. -/
def tagWords : Parser Bool := do
  let (word, _) := takeMarkupName (← peek)
  markupName
  tagNameTail (word.contains '-')

section TagNames

variable {s t : Progress} {b : Bool}

private theorem tagNameTail_closed {hyphenated : Bool}
    (h : (tagNameTail hyphenated).run s = .accepted b t) (top : Closed s) : Closed t := by
  obtain ⟨c, u, hu, tail⟩ := accepted_of_bind h
  rcases accepted_of_punct? hu with ⟨rfl, -⟩ | ⟨rfl, rfl⟩
  · obtain ⟨_, v, hv, ended⟩ := accepted_of_bind tail
    obtain ⟨_, rfl⟩ := accepted_of_pure ended
    exact markupName_closed hv
  · rw [if_neg Bool.false_ne_true] at tail
    split at tail
    · obtain ⟨_, rfl⟩ := accepted_of_pure tail
      exact top
    · obtain ⟨_, v, hv, ended⟩ := accepted_of_bind tail
      obtain ⟨_, rfl⟩ := accepted_of_pure ended
      refine many_keeps (P := Closed) (fun hp _ => ?_) (fun _ _ => id) hv top
      obtain ⟨_, w, _, hw⟩ := accepted_of_bind hp
      exact .of_tops ((name_tops hw).closes rfl)

theorem tagWords_closed (h : tagWords.run s = .accepted b t) : Closed t := by
  obtain ⟨_, _, _, h⟩ := accepted_of_bind h
  obtain ⟨_, u, hu, h⟩ := accepted_of_bind h
  exact tagNameTail_closed h (markupName_closed hu)

theorem tagWords_made (h : tagWords.run s = .accepted b t) : Kind.tagName.Made t.nodes :=
  (tagWords_closed h).made rfl nofun

end TagNames

/-- The name of an element. Says whether type arguments may follow. -/
def tagName : Parser Bool :=
  constructOf .tagName tagWords tagWords_made

def closingParts : Parser Unit := do
  punct "</"
  optional do
    let _ ← tagName
  close ">"

theorem closingParts_closed {s t : Progress} {x : Unit} (h : closingParts.run s = .accepted x t) :
    Closed t := by
  obtain ⟨_, _, _, h⟩ := accepted_of_bind h
  obtain ⟨_, _, _, h⟩ := accepted_of_bind h
  exact closed_of_punctAs (by decide) h

theorem closingParts_made {s t : Progress} {x : Unit} (h : closingParts.run s = .accepted x t) :
    Kind.closing.Made t.nodes :=
  (closingParts_closed h).made rfl nofun

def closingTag : Parser Unit :=
  constructOf .closing closingParts closingParts_made

theorem closingTag_closed {s t : Progress} {x : Unit} (h : closingTag.run s = .accepted x t) :
    Closed t := by
  obtain ⟨u, hu, rfl⟩ := accepted_of_constructOf h
  exact .of_tops (((closingParts_closed hu).isolated .closing).closes rfl)

theorem closingTag_made {s t : Progress} {x : Unit} (h : closingTag.run s = .accepted x t) :
    Kind.element.Made t.nodes :=
  (closingTag_closed h).made rfl nofun

/-- A comment of the markup family, to the end of its line. -/
def htmlComment : Parser Unit := do
  let text ← peek
  match text with
  | '<' :: '!' :: '-' :: '-' :: _ | '-' :: '-' :: '>' :: _ =>
      toToken
      let (taken, _) := text.span fun c => c != '\n' && c != '\u2028' && c != '\u2029'
      take .text taken.length
  | _ => decline

/-- What may stand between an opening tag and a closing one: text, a character reference, braces,
or an element. -/
def markupChild : Parser Unit := do
  match ← peekHere with
  | [] => refuse .other
  | '<' :: '/' :: _ => decline
  | '<' :: '!' :: '-' :: '-' :: _ => htmlComment
  | '<' :: _ => self .element
  | '\x7b' :: _ => container self
  | '&' :: rest =>
      match takeReference rest with
      | some (taken, _) => take .text (taken.length + 1)
      | none => refuse .other
  | text =>
      match takeMarkupText text with
      | ([], _) => refuse .other
      | (taken, _) => take .text taken.length

/-- The type arguments of an element, if there are any. -/
def tagArguments : Parser Unit := do
  if ← sees "<" then typeArguments self

/-- What stands between the angle brackets of an opening construct. -/
def tagInside : Parser Unit := do
  unless ← sees ">" do
    if ← tagName then tagArguments self
    many (tagEntry self)

def tagEnd : Parser Kind := do
  if ← punct? "/>" then return .selfClosing
  else
    close ">"
    return .opening

def tag : Parser Kind := do
  punct "<"
  tagInside self
  tagEnd

section Layout

variable {self} {s t u : Progress}

/-- The nodes that go on top of those before are in turn, from the turn `low` to one before
`high`. -/
private def AddsInTurn (low high : Nat) (s t : Progress) : Prop :=
  ∃ added, t.nodes = added ++ s.nodes ∧ added.reverse.Pairwise Node.InTurn ∧
    ∀ n ∈ added, ∀ i ∈ n.kind.turn?, low ≤ i ∧ i < high

private theorem AddsInTurn.refl (low high : Nat) (s : Progress) : AddsInTurn low high s s :=
  ⟨[], rfl, .nil, by simp⟩

private theorem AddsInTurn.trans {low low' high high' : Nat} (h : AddsInTurn low high s t)
    (k : AddsInTurn low' high' t u) (hlow : low ≤ low') (hhigh : high ≤ high')
    (next : high ≤ low') : AddsInTurn low high' s u := by
  obtain ⟨a, ha, hp, hi⟩ := h
  obtain ⟨b, hb, kp, ki⟩ := k
  refine ⟨b ++ a, by rw [hb, ha, List.append_assoc], ?_, ?_⟩
  · rw [List.reverse_append, List.pairwise_append]
    refine ⟨hp, kp, fun m hm n hn i him j hjn => ?_⟩
    have before := (hi m (List.mem_reverse.mp hm) i him).2
    have after := (ki n (List.mem_reverse.mp hn) j hjn).1
    omega
  · intro n hn i hin
    rcases List.mem_append.mp hn with hn | hn
    · have := ki n hn i hin
      omega
    · have := hi n hn i hin
      omega

private def AtTurn (turn : Nat) (n : Node) : Prop :=
  ∀ i ∈ n.kind.turn?, i = turn

private theorem AtTurn.of_kind {kind : Kind} {turn : Nat} (hk : kind.turn? = some turn)
    {n : Node} (h : n.kind = .comment ∨ n.kind = kind) : AtTurn turn n := by
  rcases h with h | h
  · simp [AtTurn, h, Kind.turn?]
  · simp [AtTurn, h, hk]

private theorem AddsInTurn.of_adds {turn : Nat} (h : Adds (AtTurn turn) s t) :
    AddsInTurn turn (turn + 1) s t := by
  obtain ⟨added, ha, hP⟩ := h
  refine ⟨added, ha, ?_, ?_⟩
  · refine List.pairwise_of_forall_mem_list fun m hm n hn i hi j hj => ?_
    have same := (hP m (List.mem_reverse.mp hm) i hi).trans
      (hP n (List.mem_reverse.mp hn) j hj).symm
    exact Nat.le_of_eq same
  · intro n hn i hi
    rw [hP n hn i hi]
    omega

private theorem tagName_adds {b : Bool} (h : tagName.run s = .accepted b t) :
    Adds (AtTurn 0) s t :=
  (constructOf_adds h).mono fun _ => AtTurn.of_kind rfl

private theorem tagArguments_adds {x : Unit} (h : (tagArguments self).run s = .accepted x t) :
    Adds (AtTurn 1) s t := by
  obtain ⟨b, v, hv, h⟩ := accepted_of_bind h
  obtain ⟨rfl, _⟩ := accepted_of_sees hv
  split at h
  · exact (constructOf_adds h).mono fun _ => AtTurn.of_kind rfl
  · obtain ⟨_, rfl⟩ := accepted_of_pure h
    exact .refl s

private theorem tagEntry_adds {x : Unit} (h : (tagEntry self).run s = .accepted x t) :
    Adds (AtTurn 2) s t := by
  obtain ⟨b, v, hv, h⟩ := accepted_of_bind h
  obtain ⟨rfl, _⟩ := accepted_of_sees hv
  split at h
  · exact (container_tops h).adds.mono fun _ => AtTurn.of_kind rfl
  · exact (namedEntry_tops h).adds.mono fun _ => AtTurn.of_kind rfl

private theorem tagInside_inTurn {x : Unit} (h : (tagInside self).run s = .accepted x t) :
    AddsInTurn 0 3 s t := by
  obtain ⟨ended, v, hv, h⟩ := accepted_of_bind h
  obtain ⟨rfl, _⟩ := accepted_of_sees hv
  split at h
  · obtain ⟨_, rfl⟩ := accepted_of_pure h
    exact .refl 0 3 s
  · obtain ⟨plain, u, hu, h⟩ := accepted_of_bind h
    have name := AddsInTurn.of_adds (tagName_adds hu)
    have entries {v x} (h : (many (tagEntry self)).run v = .accepted x t) : AddsInTurn 2 3 v t :=
      .of_adds (many_adds tagEntry_adds h)
    split at h
    · obtain ⟨_, v, hv, h⟩ := accepted_of_bind h
      have types := AddsInTurn.of_adds (tagArguments_adds hv)
      exact (name.trans types (by decide) (by decide) (by decide)).trans (entries h) (by decide)
        (by decide) (by decide)
    · exact name.trans (entries h) (by decide) (by decide) (by decide)

private theorem tagEnd_adds {kind : Kind} (h : tagEnd.run s = .accepted kind t) :
    kind.isTag ∧ ∃ n comments, t.nodes = n :: (comments ++ s.nodes) ∧
      (n.kind = .token ">" ∨ n.kind = .token "/>") ∧ n.start < n.stop ∧
      ∀ c ∈ comments, c.kind = .comment := by
  obtain ⟨b, u, hu, h⟩ := accepted_of_bind h
  obtain ⟨seen, v, hv, hu⟩ := accepted_of_bind hu
  obtain ⟨rfl, _⟩ := accepted_of_sees hv
  split at hu
  · obtain ⟨_, v, hv, hu⟩ := accepted_of_bind hu
    obtain ⟨rfl, rfl⟩ := accepted_of_pure hu
    obtain ⟨rfl, rfl⟩ := accepted_of_pure h
    obtain ⟨n, comments, hn, hk, hw, hc⟩ := punctAs_adds hv
    exact ⟨rfl, n, comments, hn, .inr hk, hw ▸ Nat.lt_add_of_pos_right (by decide), hc⟩
  · obtain ⟨rfl, rfl⟩ := accepted_of_pure hu
    obtain ⟨_, v, hv, h⟩ := accepted_of_bind h
    obtain ⟨rfl, rfl⟩ := accepted_of_pure h
    obtain ⟨n, comments, hn, hk, hw, hc⟩ := punctAs_adds hv
    exact ⟨rfl, n, comments, hn, .inl hk, hw ▸ Nat.lt_add_of_pos_right (by decide), hc⟩

theorem tag_made {kind : Kind} (fresh : s.nodes = []) (h : (tag self).run s = .accepted kind t) :
    kind.Made t.nodes := by
  obtain ⟨_, u, hu, h⟩ := accepted_of_bind h
  obtain ⟨first, lead, hfirst, hkind, hwidth, hlead⟩ := punctAs_adds hu
  obtain ⟨_, v, hv, h⟩ := accepted_of_bind h
  obtain ⟨middle, hmiddle, inTurn, _⟩ := tagInside_inTurn hv
  obtain ⟨isTag, last, comments, hlast, lkind, lwidth, hcomments⟩ := tagEnd_adds h
  have nodes : t.nodes.reverse =
      lead.reverse ++ first :: (middle.reverse ++ comments.reverse ++ [last]) := by
    simp [hlast, hmiddle, hfirst, fresh]
  refine .of_layout ?_ (.inl isTag)
  rw [nodes, Node.withoutLead_eq (by simpa using hlead) (by simp [hkind])]
  refine .of_tag isTag ⟨first, middle.reverse ++ comments.reverse, last, rfl, hkind,
    hwidth ▸ Nat.lt_add_of_pos_right (by decide), lkind, lwidth, ?_⟩
  rw [List.pairwise_append]
  have silent : ∀ c ∈ comments.reverse, c.kind.turn? = none := by
    intro c hc
    rw [hcomments c (List.mem_reverse.mp hc)]
    rfl
  refine ⟨inTurn, ?_, ?_⟩
  · exact List.pairwise_of_forall_mem_list fun m hm n _ i hi => by simp [silent m hm] at hi
  · exact fun m _ n hn i _ j hj => by simp [silent n hn] at hj

private theorem tag_closed {kind : Kind} (h : (tag self).run s = .accepted kind t) : Closed t := by
  obtain ⟨_, _, _, h⟩ := accepted_of_bind h
  obtain ⟨_, _, _, h⟩ := accepted_of_bind h
  obtain ⟨-, last, comments, nodes, kind | kind, -⟩ := tagEnd_adds h
  all_goals exact ⟨last, by rw [nodes]; rfl, by rw [kind]; rfl⟩

end Layout

/-- An element: a tag that closes itself, or an opening tag, children and a closing tag. -/
def element : Parser Unit :=
  openConstruct (tag self)
    (fun kind =>
      if kind = .selfClosing then return ()
      else do
        many (markupChild self)
        regroupAfter .element closingTag closingTag_made)
    tag_made

theorem element_tops {self : Recur} {s t : Progress} {x : Unit}
    (h : (element self).run s = .accepted x t) : Tops (fun n => n.kind.closes) s t := by
  obtain ⟨kind, v, w, hv, hw, rfl⟩ := accepted_of_openConstruct h
  split at hw
  · rename_i single
    subst single
    obtain ⟨_, rfl⟩ := accepted_of_pure hw
    exact ((tag_closed hv).isolated .selfClosing).closes rfl
  · obtain ⟨_, u, _, hw⟩ := accepted_of_bind hw
    obtain ⟨r, hr, rfl⟩ := accepted_of_regroupAfter hw
    exact ((closingTag_closed hr).isolated .element).closes rfl

end Restyle.Grammar
