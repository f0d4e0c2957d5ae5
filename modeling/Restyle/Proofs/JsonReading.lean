import Restyle.Proofs.JsonScalars
import Restyle.Proofs.Outcomes

/-!
# Reading arrays and objects of JSON

A reader is exact if it reads the values of a form where something follows that may follow a value, and
gives up where one is opened that is too deep for it. From an exact reader for values inside an array or
an object an exact one is made for these.
-/

namespace Restyle.Json

open Text

/-- A text that begins with something else than what may follow a value. -/
def Starts : Form := fun t =>
  ∃ c more, t = c :: more ∧ c ≠ 0 ∧ ¬ Ends [c]

/-- A reader reads values of a form, and gives up on texts of another one. -/
structure Reads {α : Type} (read : Reader α) (W : α → Form) (B : Form) : Prop where
  sound : ∀ {text rest a}, read text = .ok (a, rest) → ∃ own, text = own ++ rest ∧ W a own
  complete : ∀ {own rest a}, W a own → Ends rest → read (own ++ rest) = .ok (a, rest)
  deep : ∀ {text}, read text = .error .tooDeep ↔ B text

variable {α : Type} {text rest own blanks : List CodePoint} {read : Reader Json} {W : Json → Form}
  {B : Form}

theorem skipBlanks_spec (text : List CodePoint) :
    ∃ blanks, Blanks blanks ∧ text = blanks ++ skipBlanks text := by
  refine ⟨text.takeWhile isBlank, fun c mem => ?_, List.takeWhile_append_dropWhile.symm⟩
  exact isBlank_iff.mp (List.all_eq_true.mp List.all_takeWhile c mem)

theorem skipBlanks_append (h : Blanks blanks) (stops : ∀ c ∈ rest.head?, ¬ IsBlank c) :
    skipBlanks (blanks ++ rest) = rest := by
  apply Syntax.dropWhile_upTo
  · exact fun c mem => isBlank_iff.mpr (h c mem)
  · exact fun c head => Bool.eq_false_iff.mpr fun blank => stops c head (isBlank_iff.mp blank)

theorem Starts.append (h : Starts own) (rest : List CodePoint) : Starts (own ++ rest) := by
  obtain ⟨c, more, rfl, start⟩ := h
  exact ⟨c, more ++ rest, rfl, start⟩

theorem Starts.skipBlanks (h : Starts rest) (isBlank : Blanks blanks) :
    Json.skipBlanks (blanks ++ rest) = rest := by
  obtain ⟨c, more, rfl, -, start⟩ := h
  apply skipBlanks_append isBlank
  rintro d ⟨⟩ blank
  exact start fun e same => Option.some.inj same ▸ .inl blank

theorem Ends.cons {c : CodePoint} (h : IsBlank c ∨ c = ',' ∨ c = ']' ∨ c = '\x7d') (rest : List CodePoint) :
    Ends (c :: rest) := by
  rintro d ⟨⟩
  exact h

theorem Blanks.ends (isBlank : Blanks blanks) (ends : Ends rest) : Ends (blanks ++ rest) := by
  cases blanks with
  | nil => exact ends
  | cons c blanks => exact .cons (.inl (isBlank c List.mem_cons_self)) _

theorem Led.append {P : Form} (h : Led P own) (more : ∀ t rest, P t → P (t ++ rest))
    (rest : List CodePoint) : Led P (own ++ rest) := by
  obtain ⟨blanks, t, rfl, isBlank, holds⟩ := h
  exact ⟨blanks, t ++ rest, List.append_assoc blanks t rest, isBlank, more t rest holds⟩

/-- Something that may begin with blanks. -/
def StartsLate : Form :=
  Led Starts

theorem Reads.item (h : Reads read W B) (starts : ∀ v t, W v t → Starts t) (opens : ∀ t, B t → Starts t) :
    Reads (readItem read) (Item W) (Led B) where
  sound := by
    intro text rest v found
    obtain ⟨blanks, isBlank, split⟩ := skipBlanks_spec text
    obtain ⟨own, same, holds⟩ := h.sound found
    refine ⟨blanks ++ own, ?_, blanks, own, rfl, isBlank, holds⟩
    rw [split, same, List.append_assoc]
  complete := by
    rintro own rest v ⟨blanks, t, rfl, isBlank, holds⟩ ends
    have skipped := ((starts v t holds).append rest).skipBlanks isBlank
    rw [readItem, List.append_assoc, skipped]
    exact h.complete holds ends
  deep := by
    intro text
    rw [readItem, h.deep]
    constructor
    · intro opened
      obtain ⟨blanks, isBlank, split⟩ := skipBlanks_spec text
      exact ⟨blanks, _, split, isBlank, opened⟩
    · rintro ⟨blanks, t, rfl, isBlank, opened⟩
      rwa [(opens t opened).skipBlanks isBlank]

theorem orMalformed_eq_ok {a : Option α} {b : α} : orMalformed a = .ok b ↔ a = some b := by
  cases a with
  | none => exact ⟨nofun, nofun⟩
  | some a => exact ⟨fun h => congrArg _ (Except.ok.inj h), fun h => congrArg _ (Option.some.inj h)⟩

theorem orMalformed_not_deep (a : Option α) : orMalformed a ≠ .error .tooDeep := by
  cases a <;> nofun

theorem Starts.of_char {c : Char} (nonzero : (c : CodePoint) ≠ 0)
    (h : c ∉ [' ', '\t', '\n', '\r', ',', ']', '\x7d']) (rest : List CodePoint) :
    Starts ((c : CodePoint) :: rest) := by
  refine ⟨c, rest, rfl, nonzero, fun ends => h ?_⟩
  simpa [IsBlank, or_assoc] using ends c rfl

theorem readName_eq_some {name : List CodePoint} : readName text = some (name, rest) ↔
    ∃ quoted blanks, text = quoted ++ blanks ++ (':' : CodePoint) :: rest ∧
      Led (Quoted name) quoted ∧ Blanks blanks := by
  simp only [readName, Option.bind_eq_bind, Option.bind_eq_some_iff, Prod.exists, Option.pure_def,
    Option.some.injEq, Prod.mk.injEq, after?_eq_some, readString_eq_some]
  constructor
  · rintro ⟨more, opened, name, left, ⟨inside, rfl, within⟩, rest, colon, rfl, rfl⟩
    obtain ⟨before, isBefore, split⟩ := skipBlanks_spec text
    obtain ⟨after, isAfter, split'⟩ := skipBlanks_spec left
    refine ⟨before ++ _, after, ?_, ⟨before, _, rfl, isBefore, inside, rfl, within⟩, isAfter⟩
    rw [split, opened, split', colon]
    simp
  · rintro ⟨quoted, blanks, rfl, ⟨before, t, rfl, isBefore, inside, rfl, within⟩, isBlank⟩
    have quote : Starts (('"' : CodePoint) :: (inside ++ ('"' : CodePoint) :: (blanks ++
        (':' : CodePoint) :: rest))) := .of_char (by decide) (by decide) _
    have colon : Starts ((':' : CodePoint) :: rest) := .of_char (by decide) (by decide) _
    refine ⟨_, ?_, name, _, ⟨inside, rfl, within⟩, rest, colon.skipBlanks isBlank, rfl, rfl⟩
    rw [← quote.skipBlanks isBefore]
    simp

theorem Reads.member (h : Reads read W B) (starts : ∀ v t, W v t → Starts t)
    (opens : ∀ t, B t → Starts t) :
    Reads (readMember read) (Member W) (fun t => ∃ name, Named name B t) where
  sound := by
    rintro text rest ⟨name, v⟩ found
    simp only [readMember, bind_eq_ok, orMalformed_eq_ok, Prod.exists, pure_eq_ok, Prod.mk.injEq,
      readName_eq_some] at found
    obtain ⟨name, left, ⟨quoted, blanks, rfl, isName, isBlank⟩, v, rest, value, ⟨rfl, rfl⟩, rfl⟩ := found
    obtain ⟨own, rfl, holds⟩ := (h.item starts opens).sound value
    refine ⟨quoted ++ blanks ++ (':' : CodePoint) :: own, by simp, ?_⟩
    exact ⟨quoted, blanks, own, rfl, isName, isBlank, holds⟩
  complete := by
    rintro own rest ⟨name, v⟩ ⟨quoted, blanks, value, rfl, isName, isBlank, holds⟩ ends
    have named : readName (quoted ++ blanks ++ (':' : CodePoint) :: (value ++ rest)) =
        some (name, value ++ rest) :=
      readName_eq_some.mpr ⟨quoted, blanks, rfl, isName, isBlank⟩
    have found := (h.item starts opens).complete holds ends
    rw [List.append_assoc, List.cons_append, readMember, named]
    simp only [orMalformed, ok_bind, found]
    rfl
  deep := by
    intro text
    constructor
    · intro failed
      simp only [readMember, bind_eq_error, orMalformed_eq_ok, orMalformed_not_deep, Prod.exists,
        false_or, readName_eq_some] at failed
      obtain ⟨name, left, ⟨quoted, blanks, rfl, isName, isBlank⟩, failed | ⟨v, rest, -, failed⟩⟩ := failed
      · exact ⟨name, quoted, blanks, left, rfl, isName, isBlank, (h.item starts opens).deep.mp failed⟩
      · cases failed
    · rintro ⟨name, quoted, blanks, value, rfl, isName, isBlank, opened⟩
      have named : readName (quoted ++ blanks ++ (':' : CodePoint) :: value) = some (name, value) :=
        readName_eq_some.mpr ⟨quoted, blanks, rfl, isName, isBlank⟩
      rw [readMember, named]
      simp only [orMalformed, ok_bind, (h.item starts opens).deep.mpr opened]
      rfl

section Sequences

variable {one : Reader α} {M : α → Form} {C : Form} {close : Char} {as : List α}
  {bound : List CodePoint}

def Closes (close : Char) : Prop :=
  close = ']' ∨ close = '\x7d'

theorem Closes.starts (closes : Closes close) : (close : CodePoint) ≠ ',' ∧ ¬ IsBlank close := by
  rcases closes with rfl | rfl <;> exact ⟨by decide, by simp [IsBlank]⟩

theorem Closes.ends (closes : Closes close) (rest : List CodePoint) :
    Ends ((close : CodePoint) :: rest) := by
  rcases closes with rfl | rfl
  · exact .cons (.inr (.inr (.inl rfl))) rest
  · exact .cons (.inr (.inr (.inr rfl))) rest

theorem Closes.skipBlanks (closes : Closes close) (isBlank : Blanks blanks) (rest : List CodePoint) :
    Json.skipBlanks (blanks ++ (close : CodePoint) :: rest) = (close : CodePoint) :: rest := by
  apply skipBlanks_append isBlank
  rintro c ⟨⟩
  exact closes.starts.2

theorem skipBlanks_comma (isBlank : Blanks blanks) (rest : List CodePoint) :
    skipBlanks (blanks ++ (',' : CodePoint) :: rest) = (',' : CodePoint) :: rest := by
  apply skipBlanks_append isBlank
  rintro c ⟨⟩
  simp [IsBlank]

theorem Reads.listed_sound (h : Reads one M C) (found : readListed one close bound text = .ok (as, rest)) :
    ∃ own, text = own ++ (close : CodePoint) :: rest ∧ Listed M as own := by
  induction bound generalizing text as with
  | nil => cases found
  | cons _ bound ih =>
      simp only [readListed, bind_eq_ok, Prod.exists] at found
      obtain ⟨a, left, first, found⟩ := found
      obtain ⟨t, rfl, holds⟩ := h.sound first
      obtain ⟨blanks, isBlank, split⟩ := skipBlanks_spec left
      split at found
      · rename_i more comma
        simp only [bind_eq_ok, Prod.exists, pure_eq_ok, Prod.mk.injEq] at found
        obtain ⟨as, rest, later, rfl, rfl⟩ := found
        obtain ⟨own, rfl, listed⟩ := ih later
        refine ⟨t ++ blanks ++ (',' : CodePoint) :: own, ?_, .cons holds isBlank listed⟩
        rw [split, after?_eq_some.mp comma]
        simp
      · simp only [bind_eq_ok, orMalformed_eq_ok, pure_eq_ok, Prod.mk.injEq] at found
        obtain ⟨left', closed, rfl, rfl⟩ := found
        refine ⟨t ++ blanks, ?_, .last holds isBlank⟩
        rw [split, after?_eq_some.mp closed]
        simp

theorem Reads.listed_complete (h : Reads one M C) (closes : Closes close) (listed : Listed M as own)
    (enough : own.length < bound.length) :
    readListed one close bound (own ++ (close : CodePoint) :: rest) = .ok (as, rest) := by
  induction listed generalizing bound with
  | @last a t blanks holds isBlank =>
      cases bound with
      | nil => cases enough
      | cons _ bound =>
          have first := h.complete holds (isBlank.ends (closes.ends rest))
          rw [List.append_assoc, readListed, first]
          simp only [ok_bind, closes.skipBlanks isBlank, after?_cons_of_ne closes.starts.1, after?_cons,
            orMalformed]
          rfl
  | @cons a as t blanks more holds isBlank listed ih =>
      cases bound with
      | nil => cases enough
      | cons _ bound =>
          have shorter : more.length < bound.length := by
            simp only [List.length_append, List.length_cons] at enough
            omega
          have ends : Ends (blanks ++ (',' : CodePoint) :: (more ++ (close : CodePoint) :: rest)) :=
            isBlank.ends (.cons (.inr (.inl rfl)) _)
          have first := h.complete holds ends
          rw [List.append_assoc, List.append_assoc, List.cons_append, readListed, first]
          simp only [ok_bind, skipBlanks_comma isBlank, after?_cons, ih shorter]
          rfl

theorem Reads.listed_deep (h : Reads one M C) (failed : readListed one close bound text = .error .tooDeep) :
    Cut M C text := by
  induction bound generalizing text with
  | nil => cases failed
  | cons _ bound ih =>
      simp only [readListed, bind_eq_error, Prod.exists] at failed
      rcases failed with failed | ⟨a, left, first, failed⟩
      · exact .here (h.deep.mp failed)
      · obtain ⟨t, rfl, holds⟩ := h.sound first
        obtain ⟨blanks, isBlank, split⟩ := skipBlanks_spec left
        split at failed
        · rename_i more comma
          simp only [bind_eq_error, Prod.exists] at failed
          rcases failed with failed | ⟨as, rest, -, failed⟩
          · rw [split, after?_eq_some.mp comma, ← List.append_assoc]
            exact .later holds isBlank (ih failed)
          · cases failed
        · simp only [bind_eq_error, orMalformed_not_deep, false_or] at failed
          obtain ⟨left, -, failed⟩ := failed
          cases failed

theorem Reads.listed_cut (h : Reads one M C) (some : ∀ t, C t → t ≠ []) (cut : Cut M C text)
    (enough : text.length ≤ bound.length) : readListed one close bound text = .error .tooDeep := by
  induction cut generalizing bound with
  | @here t opened =>
      cases bound with
      | nil => exact absurd (List.length_eq_zero_iff.mp (Nat.le_zero.mp enough)) (some t opened)
      | cons _ bound =>
          rw [readListed, h.deep.mpr opened]
          rfl
  | @later a t blanks more holds isBlank cut ih =>
      cases bound with
      | nil => simp at enough
      | cons _ bound =>
          have shorter : more.length ≤ bound.length := by
            simp only [List.length_append, List.length_cons] at enough
            omega
          have ends : Ends (blanks ++ (',' : CodePoint) :: more) :=
            isBlank.ends (.cons (.inr (.inl rfl)) _)
          rw [List.append_assoc, readListed, h.complete holds ends]
          simp only [ok_bind, skipBlanks_comma isBlank, after?_cons, ih shorter]
          rfl

theorem Closes.not_late (closes : Closes close) (late : StartsLate own) (rest : List CodePoint) :
    after? close (Json.skipBlanks (own ++ rest)) = none := by
  obtain ⟨blanks, t, rfl, isBlank, start⟩ := late
  rw [List.append_assoc, (start.append rest).skipBlanks isBlank]
  obtain ⟨c, more, rfl, -, start⟩ := start
  apply after?_cons_of_ne
  rintro rfl
  exact start (closes.ends [])

theorem StartsLate.append (late : StartsLate own) (rest : List CodePoint) : StartsLate (own ++ rest) :=
  Led.append late (fun _ rest start => start.append rest) rest

theorem Listed.late (starts : ∀ a t, M a t → StartsLate t) (listed : Listed M as own) :
    StartsLate own := by
  cases listed with
  | last holds isBlank => exact (starts _ _ holds).append _
  | cons holds isBlank listed =>
      rw [List.append_assoc]
      exact (starts _ _ holds).append _

theorem Cut.late (starts : ∀ a t, M a t → StartsLate t) (opens : ∀ t, C t → StartsLate t)
    (cut : Cut M C own) : StartsLate own := by
  cases cut with
  | here opened => exact opens _ opened
  | later holds isBlank cut =>
      rw [List.append_assoc]
      exact (starts _ _ holds).append _

theorem StartsLate.ne_nil (late : StartsLate own) : own ≠ [] := by
  obtain ⟨blanks, t, rfl, -, c, more, rfl, -⟩ := late
  simp

/-- What stands between brackets, and the closing one. -/
def Closed (M : α → Form) (close : Char) (as : List α) : Form := fun t =>
  ∃ own, t = own ++ [(close : CodePoint)] ∧ Content M as own

theorem Reads.between (h : Reads one M C) (closes : Closes close) (starts : ∀ a t, M a t → StartsLate t)
    (opens : ∀ t, C t → StartsLate t) :
    Reads (readBetween one close) (Closed M close) (Cut M C) where
  sound := by
    intro text rest as found
    rw [readBetween] at found
    split at found
    · rename_i closed
      cases found
      obtain ⟨blanks, isBlank, split⟩ := skipBlanks_spec text
      refine ⟨_, ?_, blanks, rfl, .none isBlank⟩
      rw [split, after?_eq_some.mp closed]
      simp
    · obtain ⟨own, rfl, listed⟩ := h.listed_sound found
      exact ⟨_, by simp, own, rfl, .some listed⟩
  complete := by
    rintro own rest as ⟨own, rfl, content⟩ -
    rw [List.append_assoc, readBetween]
    cases content with
    | none isBlank =>
        rw [List.singleton_append, closes.skipBlanks isBlank, after?_cons]
    | some listed =>
        rw [closes.not_late (listed.late starts)]
        apply h.listed_complete closes listed
        simp
  deep := by
    intro text
    rw [readBetween]
    constructor
    · intro failed
      split at failed
      · cases failed
      · exact h.listed_deep failed
    · intro cut
      have late := closes.not_late (cut.late starts opens) []
      rw [List.append_nil] at late
      rw [late]
      exact h.listed_cut (fun t opened => (opens t opened).ne_nil) cut (Nat.le_refl _)

end Sequences

theorem Quoted.starts {points : List CodePoint} (h : Quoted points own) : Starts own := by
  obtain ⟨inside, rfl, -⟩ := h
  exact .of_char (by decide) (by decide) _

theorem Named.late {name : List CodePoint} (h : Named name B own) : StartsLate own := by
  obtain ⟨quoted, blanks, value, rfl, ⟨before, t, rfl, isBefore, named⟩, -⟩ := h
  simp only [List.append_assoc]
  exact ⟨before, _, rfl, isBefore, named.starts.append _⟩

theorem Reads.array (h : Reads read W B) (starts : ∀ v t, W v t → Starts t)
    (opens : ∀ t, B t → Starts t) :
    Reads (readBetween (readItem read) ']') (Closed (Item W) ']') (Cut (Item W) (Led B)) := by
  apply (h.item starts opens).between (.inl rfl)
  · rintro v t ⟨blanks, own, rfl, isBlank, holds⟩
    exact ⟨blanks, own, rfl, isBlank, starts v own holds⟩
  · rintro t ⟨blanks, own, rfl, isBlank, opened⟩
    exact ⟨blanks, own, rfl, isBlank, opens own opened⟩

theorem Reads.object (h : Reads read W B) (starts : ∀ v t, W v t → Starts t)
    (opens : ∀ t, B t → Starts t) :
    Reads (readBetween (readMember read) '\x7d') (Closed (Member W) '\x7d')
      (Cut (Member W) fun t => ∃ name, Named name B t) := by
  apply (h.member starts opens).between (.inr rfl)
  · rintro m t named
    exact Named.late named
  · rintro t ⟨name, named⟩
    exact named.late

theorem readWith_string (inner : Option (Reader Json)) (text : List CodePoint) :
    readWith inner (('"' : CodePoint) :: text) =
      (orMalformed (readString text)).map fun (points, left) => (.string points, left) := by
  rfl

theorem readWith_array (text : List CodePoint) :
    readWith (some read) (('[' : CodePoint) :: text) = readArray read text := by
  rfl

theorem readWith_object (text : List CodePoint) :
    readWith (some read) (('\x7b' : CodePoint) :: text) = readObject read text := by
  rfl

/-- A text that begins with neither a quote nor an opening bracket. -/
def StartsPlainly : Form := fun t =>
  ∃ c more, t = c :: more ∧ c ≠ '"' ∧ c ≠ '[' ∧ c ≠ '\x7b'

theorem readWith_plain (inner : Option (Reader Json)) (plain : StartsPlainly text) :
    readWith inner text = orMalformed (readScalar text) := by
  obtain ⟨c, more, rfl, quote, bracket, brace⟩ := plain
  simp only [readWith, after?_cons_of_ne quote, after?_cons_of_ne bracket, after?_cons_of_ne brace]

theorem StartsPlainly.append (plain : StartsPlainly own) (rest : List CodePoint) :
    StartsPlainly (own ++ rest) := by
  obtain ⟨c, more, rfl, other⟩ := plain
  exact ⟨c, more ++ rest, rfl, other⟩

theorem readWith_cases (text : List CodePoint) :
    (∃ rest, text = ('"' : CodePoint) :: rest) ∨ (∃ rest, text = ('[' : CodePoint) :: rest) ∨
      (∃ rest, text = ('\x7b' : CodePoint) :: rest) ∨ text = [] ∨ StartsPlainly text := by
  cases text with
  | nil => exact .inr (.inr (.inr (.inl rfl)))
  | cons c rest =>
      by_cases quote : c = '"'
      · exact .inl ⟨rest, congrArg (· :: rest) quote⟩
      by_cases bracket : c = '['
      · exact .inr (.inl ⟨rest, congrArg (· :: rest) bracket⟩)
      by_cases brace : c = '\x7b'
      · exact .inr (.inr (.inl ⟨rest, congrArg (· :: rest) brace⟩))
      · exact .inr (.inr (.inr (.inr ⟨c, rest, rfl, quote, bracket, brace⟩)))

theorem Digits.starts (h : Digits own) : Starts own ∧ StartsPlainly own := by
  cases own with
  | nil => exact absurd rfl h.1
  | cons c more =>
      have digit := h.2 c List.mem_cons_self
      have other {d : CodePoint} (h : d.val < 0x30 ∨ 0x39 < d.val) : c ≠ d := by
        rintro rfl
        omega
      refine ⟨⟨c, more, rfl, other (.inl (by decide)), fun ends => ?_⟩, c, more, rfl,
        other (.inl (by decide)), other (.inr (by decide)), other (.inr (by decide))⟩
      have first := ends c rfl
      simp only [IsBlank] at first
      rcases first with (same | same | same | same) | same | same | same
      all_goals exact absurd same (other (by decide))

theorem Literal.starts {v : Json} (h : Literal v own) : Starts own ∧ StartsPlainly own := by
  have letter {c : Char} (nonzero : (c : CodePoint) ≠ 0)
      (other : c ∉ [' ', '\t', '\n', '\r', ',', ']', '\x7d', '"', '[', '\x7b']) (rest : List CodePoint) :
      Starts ((c : CodePoint) :: rest) ∧ StartsPlainly ((c : CodePoint) :: rest) := by
    simp only [List.mem_cons, List.not_mem_nil, or_false, not_or] at other
    refine ⟨.of_char nonzero (by simp [other]) rest, c, rest, rfl, by simp [other]⟩
  cases h with
  | null => exact letter (by decide) (by decide) _
  | yes => exact letter (by decide) (by decide) _
  | no => exact letter (by decide) (by decide) _
  | nan => exact letter (by decide) (by decide) _
  | infinite => exact letter (by decide) (by decide) _
  | below => exact letter (by decide) (by decide) _
  | natural whole _ => exact whole.isDigits.starts
  | negative _ _ => exact letter (by decide) (by decide) _
  | inexact isSign whole _ _ _ =>
      rcases isSign with rfl | rfl
      · obtain ⟨start, plain⟩ := whole.isDigits.starts
        exact ⟨(start.append _).append _, (plain.append _).append _⟩
      · exact letter (by decide) (by decide) _

theorem readWith_scalar {v : Json} (inner : Option (Reader Json)) (h : Scalar v own) (ends : Ends rest) :
    readWith inner (own ++ rest) = .ok (v, rest) := by
  cases h with
  | string quoted =>
      obtain ⟨inside, rfl, within⟩ := quoted
      have found : readString (inside ++ ('"' : CodePoint) :: rest) = some (_, rest) :=
        readString_eq_some.mpr ⟨inside, rfl, within⟩
      rw [List.cons_append, List.append_assoc, readWith_string, List.singleton_append, found]
      rfl
  | literal literal =>
      rw [readWith_plain inner (literal.starts.2.append rest)]
      exact orMalformed_eq_ok.mpr (readScalar_append literal ends)

/-- A text that opens neither an array nor an object. -/
def OpensNothing : Form := fun t =>
  ∀ more, t ≠ ('[' : CodePoint) :: more ∧ t ≠ ('\x7b' : CodePoint) :: more

theorem readWith_not_deep {inner : Option (Reader Json)} (other : OpensNothing text) :
    readWith inner text ≠ .error .tooDeep := by
  rcases readWith_cases text with ⟨more, rfl⟩ | ⟨more, rfl⟩ | ⟨more, rfl⟩ | rfl | plain
  · intro failed
    rw [readWith_string, map_eq_error] at failed
    exact orMalformed_not_deep _ failed
  · exact absurd rfl (other more).1
  · exact absurd rfl (other more).2
  · nofun
  · rw [readWith_plain inner plain]
    exact orMalformed_not_deep _

theorem readWith_scalar_sound {v : Json} {inner : Option (Reader Json)} (other : OpensNothing text)
    (found : readWith inner text = .ok (v, rest)) : ∃ own, text = own ++ rest ∧ Scalar v own := by
  rcases readWith_cases text with ⟨more, rfl⟩ | ⟨more, rfl⟩ | ⟨more, rfl⟩ | rfl | plain
  · rw [readWith_string] at found
    obtain ⟨⟨points, left⟩, string, same⟩ := map_eq_ok.mp found
    obtain ⟨rfl, rfl⟩ := Prod.mk.inj same
    obtain ⟨inside, rfl, within⟩ := readString_eq_some.mp (orMalformed_eq_ok.mp string)
    exact ⟨('"' : CodePoint) :: (inside ++ [('"' : CodePoint)]), by simp, .string ⟨inside, rfl, within⟩⟩
  · exact absurd rfl (other more).1
  · exact absurd rfl (other more).2
  · cases found
  · rw [readWith_plain inner plain] at found
    obtain ⟨own, rfl, literal⟩ := readScalar_sound (orMalformed_eq_ok.mp found)
    exact ⟨own, rfl, .literal literal⟩

theorem reads_scalar : Reads (readWith none) Scalar (Opens 0) where
  sound := by
    intro text rest v found
    apply readWith_scalar_sound ?_ found
    intro more
    constructor
    · rintro rfl
      cases found
    · rintro rfl
      cases found
  complete := readWith_scalar none
  deep := by
    intro text
    constructor
    · intro failed
      by_contra other
      refine readWith_not_deep ?_ failed
      exact fun more => ⟨fun same => other ⟨more, .inl same⟩, fun same => other ⟨more, .inr same⟩⟩
    · rintro ⟨more, rfl | rfl⟩ <;> rfl

theorem opens_cases (text : List CodePoint) :
    (∃ more, text = ('[' : CodePoint) :: more) ∨ (∃ more, text = ('\x7b' : CodePoint) :: more) ∨
      OpensNothing text := by
  by_cases array : ∃ more, text = ('[' : CodePoint) :: more
  · exact .inl array
  by_cases object : ∃ more, text = ('\x7b' : CodePoint) :: more
  · exact .inr (.inl object)
  refine .inr (.inr fun more => ⟨?_, ?_⟩)
  · intro same
    exact array ⟨more, same⟩
  · intro same
    exact object ⟨more, same⟩

theorem Reads.container (h : Reads read W B) (starts : ∀ v t, W v t → Starts t)
    (opens : ∀ t, B t → Starts t) :
    Reads (readWith (some read)) (fun v t => Scalar v t ∨ Container W v t) (Opening W B) where
  sound := by
    intro text rest v found
    rcases opens_cases text with ⟨more, rfl⟩ | ⟨more, rfl⟩ | other
    · rw [readWith_array] at found
      obtain ⟨⟨items, left⟩, inside, same⟩ := map_eq_ok.mp found
      obtain ⟨rfl, rfl⟩ := Prod.mk.inj same
      obtain ⟨-, rfl, own, rfl, content⟩ := (h.array starts opens).sound inside
      exact ⟨_, rfl, .inr (.array content)⟩
    · rw [readWith_object] at found
      obtain ⟨⟨members, left⟩, inside, same⟩ := map_eq_ok.mp found
      obtain ⟨rfl, rfl⟩ := Prod.mk.inj same
      obtain ⟨-, rfl, own, rfl, content⟩ := (h.object starts opens).sound inside
      exact ⟨_, rfl, .inr (.object content)⟩
    · obtain ⟨own, same, scalar⟩ := readWith_scalar_sound other found
      exact ⟨own, same, .inl scalar⟩
  complete := by
    rintro own rest v (scalar | container) ends
    · exact readWith_scalar _ scalar ends
    · cases container with
      | array content =>
          have found := (h.array starts opens).complete ⟨_, rfl, content⟩ ends
          rw [List.cons_append, readWith_array, readArray, found]
          rfl
      | object content =>
          have found := (h.object starts opens).complete ⟨_, rfl, content⟩ ends
          rw [List.cons_append, readWith_object, readObject, found]
          rfl
  deep := by
    intro text
    constructor
    · intro failed
      rcases opens_cases text with ⟨more, rfl⟩ | ⟨more, rfl⟩ | other
      · rw [readWith_array, readArray, map_eq_error] at failed
        exact .array ((h.array starts opens).deep.mp failed)
      · rw [readWith_object, readObject, map_eq_error] at failed
        exact .object ((h.object starts opens).deep.mp failed)
      · exact absurd failed (readWith_not_deep other)
    · intro opening
      cases opening with
      | array cut =>
          rw [readWith_array, readArray, map_eq_error]
          exact (h.array starts opens).deep.mpr cut
      | object cut =>
          rw [readWith_object, readObject, map_eq_error]
          exact (h.object starts opens).deep.mpr cut

theorem Nested.starts {n : Nat} {v : Json} (h : Nested n v own) : Starts own := by
  have scalar (h : Scalar v own) : Starts own := by
    cases h with
    | string quoted => exact quoted.starts
    | literal literal => exact literal.starts.1
  cases n with
  | zero => exact scalar h
  | succ n =>
      rcases h with h | h
      · exact scalar h
      · cases h with
        | array _ => exact .of_char (by decide) (by decide) _
        | object _ => exact .of_char (by decide) (by decide) _

theorem Opens.starts {n : Nat} (h : Opens n own) : Starts own := by
  cases n with
  | zero =>
      obtain ⟨rest, rfl | rfl⟩ := h
      · exact .of_char (by decide) (by decide) _
      · exact .of_char (by decide) (by decide) _
  | succ n =>
      cases h with
      | array _ => exact .of_char (by decide) (by decide) _
      | object _ => exact .of_char (by decide) (by decide) _

/-- Values with so many arrays and objects one inside another are read exactly. -/
theorem reads_nested (n : Nat) : Reads (readNested n) (Nested n) (Opens n) := by
  induction n with
  | zero => exact reads_scalar
  | succ n ih => exact ih.container (fun v t h => Nested.starts h) fun t h => h.starts

end Restyle.Json
