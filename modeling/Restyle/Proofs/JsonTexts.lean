import Restyle.Proofs.Encodings
import Restyle.Proofs.JsonReading

/-!
# Reading texts and bytes of JSON

The value of a text is read exactly if the text writes one that is not nested too deep, and reading gives
up exactly on texts that open too many arrays and objects one inside another. A greater depth changes
nothing but this. The same holds of the bytes in which a text is encoded.
-/

namespace Restyle.Json

open Text

variable {α β : Type} {text : List CodePoint} {depth n m : Nat} {v w : Json}

/-- A reader that agrees with another one where that does not give up. -/
def Extends (read' read : Reader α) : Prop :=
  ∀ text, read text ≠ .error .tooDeep → read' text = read text

theorem bind_extends {x x' : Except ReadError α} {f f' : α → Except ReadError β}
    (first : x ≠ .error .tooDeep → x' = x) (next : ∀ a, f a ≠ .error .tooDeep → f' a = f a)
    (able : x >>= f ≠ .error .tooDeep) : x' >>= f' = x >>= f := by
  cases x with
  | ok a =>
      rw [first nofun]
      exact next a able
  | error e =>
      rw [first fun deep => able (by rw [deep]; rfl)]
      rfl

theorem map_extends {x x' : Except ReadError α} (f : α → β) (h : x ≠ .error .tooDeep → x' = x)
    (able : x.map f ≠ .error .tooDeep) : x'.map f = x.map f := by
  rw [h fun deep => able (by rw [deep]; rfl)]

section Readers

variable {read read' : Reader Json} {one one' : Reader α}

theorem Extends.item (h : Extends read' read) : Extends (readItem read') (readItem read) :=
  fun text => h (skipBlanks text)

theorem Extends.member (h : Extends read' read) : Extends (readMember read') (readMember read) := by
  intro text
  rw [readMember, readMember]
  apply bind_extends
  · exact fun _ => rfl
  · rintro ⟨name, rest⟩
    apply bind_extends (h.item rest)
    exact fun _ _ => rfl

theorem Extends.listed (h : Extends one' one) (close : Char) (bound : List CodePoint) :
    Extends (readListed one' close bound) (readListed one close bound) := by
  induction bound with
  | nil => exact fun _ _ => rfl
  | cons _ bound ih =>
      intro text
      rw [readListed, readListed]
      apply bind_extends (h text)
      rintro ⟨a, rest⟩
      dsimp only
      split
      · rename_i more comma
        apply bind_extends (ih more)
        exact fun _ _ => rfl
      · exact fun _ => rfl

theorem Extends.between (h : Extends one' one) (close : Char) :
    Extends (readBetween one' close) (readBetween one close) := by
  intro text
  rw [readBetween, readBetween]
  split
  · exact fun _ => rfl
  · exact h.listed close text text

theorem Extends.container (h : Extends read' read) :
    Extends (readWith (some read')) (readWith (some read)) := by
  intro text
  rcases readWith_cases text with ⟨more, rfl⟩ | ⟨more, rfl⟩ | ⟨more, rfl⟩ | rfl | plain
  · exact fun _ => rfl
  · rw [readWith_array, readWith_array]
    exact map_extends _ (h.item.between ']' more)
  · rw [readWith_object, readWith_object]
    exact map_extends _ (h.member.between '\x7d' more)
  · exact fun _ => rfl
  · rw [readWith_plain _ plain, readWith_plain _ plain]
    exact fun _ => rfl

theorem extends_scalar (read : Reader Json) : Extends (readWith (some read)) (readWith none) := by
  intro text
  rcases readWith_cases text with ⟨more, rfl⟩ | ⟨more, rfl⟩ | ⟨more, rfl⟩ | rfl | plain
  · exact fun _ => rfl
  · exact fun able => absurd rfl able
  · exact fun able => absurd rfl able
  · exact fun _ => rfl
  · rw [readWith_plain _ plain, readWith_plain _ plain]
    exact fun _ => rfl

end Readers

theorem extends_succ (n : Nat) : Extends (readNested (n + 1)) (readNested n) := by
  induction n with
  | zero => exact extends_scalar _
  | succ n ih => exact ih.container

theorem extends_nested (h : n ≤ m) : Extends (readNested m) (readNested n) := by
  induction h with
  | refl => exact fun _ _ => rfl
  | @step m _ ih =>
      intro text able
      have same := ih text able
      rw [← same] at able
      exact (extends_succ m text able).trans same

theorem Blanks.skipped {blanks : List CodePoint} (h : Blanks blanks) : skipBlanks blanks = [] := by
  have skipped := skipBlanks_append h (nofun : ∀ c ∈ ([] : List CodePoint).head?, ¬ IsBlank c)
  rwa [List.append_nil] at skipped

/-- A text that writes a value is read as this value at any depth that is great enough. -/
theorem Writes.read (h : Writes n v text) (enough : n ≤ depth + 1) : read depth text = .ok v := by
  obtain ⟨before, own, after, rfl, isBefore, isAfter, nested⟩ := h
  have ends : Ends after := List.append_nil after ▸ isAfter.ends nofun
  have found := (reads_nested n).complete nested ends
  have same := extends_nested enough (own ++ after) (by rw [found]; nofun)
  have start := nested.starts.append after
  rw [Json.read, List.append_assoc, start.skipBlanks isBefore, same, found]
  simp only [ok_bind, isAfter.skipped]
  rfl

theorem read_eq_ok : read depth text = .ok v ↔ Writes (depth + 1) v text := by
  constructor
  · intro found
    simp only [read, bind_eq_ok, Prod.exists] at found
    obtain ⟨v, rest, nested, found⟩ := found
    obtain ⟨before, isBefore, split⟩ := skipBlanks_spec text
    obtain ⟨after, isAfter, split'⟩ := skipBlanks_spec rest
    obtain ⟨own, same, nested⟩ := (reads_nested (depth + 1)).sound nested
    split at found
    · rename_i none
      cases found
      rw [List.isEmpty_iff.mp none, List.append_nil] at split'
      refine ⟨before, own, after, ?_, isBefore, isAfter, nested⟩
      rw [split, same, split', List.append_assoc]
    · cases found
  · exact fun writes => writes.read (Nat.le_refl _)

theorem Writes.unique (h : Writes n v text) (h' : Writes m w text) : v = w := by
  have read := h.read (Nat.le_succ_of_le (Nat.le_max_left n m))
  rw [h'.read (Nat.le_succ_of_le (Nat.le_max_right n m))] at read
  exact (Except.ok.inj read).symm

theorem read_deep : read depth text = .error .tooDeep ↔ Led (Opens (depth + 1)) text := by
  have nested : read depth text = .error .tooDeep ↔
      readNested (depth + 1) (skipBlanks text) = .error .tooDeep := by
    rw [read, bind_eq_error, or_iff_left]
    rintro ⟨⟨v, rest⟩, -, failed⟩
    dsimp only at failed
    split at failed <;> cases failed
  rw [nested, (reads_nested _).deep]
  constructor
  · intro opened
    obtain ⟨blanks, isBlank, split⟩ := skipBlanks_spec text
    exact ⟨blanks, _, split, isBlank, opened⟩
  · rintro ⟨blanks, own, rfl, isBlank, opened⟩
    rwa [opened.starts.skipBlanks isBlank]

theorem read_extends (h : n ≤ m) (able : read n text ≠ .error .tooDeep) : read m text = read n text := by
  rw [read, read] at *
  apply bind_extends (extends_nested (Nat.succ_le_succ h) _) _ able
  exact fun _ _ => rfl

/-- Unless reading gives up, it comes to the value that the text writes, whatever the depth. -/
theorem Writes.read_of_not_deep (h : Writes n v text) (able : ¬ Led (Opens (depth + 1)) text) :
    Json.read depth text = .ok v := by
  rw [← read_extends (Nat.le_max_left depth n) fun deep => able (read_deep.mp deep)]
  exact h.read (Nat.le_succ_of_le (Nat.le_max_right depth n))

section Beginnings

variable {own blanks rest : List CodePoint}

theorem IsBlank.ascii {c : CodePoint} (h : IsBlank c) : 0 < c.val ∧ c.val < 0x80 := by
  rcases h with rfl | rfl | rfl | rfl <;> decide

theorem BeginsPlainly.append (plain : BeginsPlainly own) (next : rest.head? ≠ some 0) :
    BeginsPlainly (own ++ rest) := by
  cases own with
  | nil => exact plain.elim
  | cons c own =>
      obtain ⟨positive, ascii, after⟩ := plain
      refine ⟨positive, ascii, ?_⟩
      cases own with
      | nil => exact next
      | cons d own => exact after

theorem BeginsPlainly.head (plain : BeginsPlainly own) : own.head? ≠ some 0 := by
  cases own with
  | nil => nofun
  | cons c own =>
      intro zero
      rw [Option.some.inj zero] at plain
      exact absurd plain.1 (by decide)

theorem BeginsPlainly.after_blanks (isBlank : Blanks blanks) (plain : BeginsPlainly own) :
    BeginsPlainly (blanks ++ own) := by
  induction blanks with
  | nil => exact plain
  | cons c blanks ih =>
      have ascii := (isBlank c List.mem_cons_self).ascii
      have after := ih fun d mem => isBlank d (List.mem_cons_of_mem c mem)
      exact ⟨ascii.1, ascii.2, after.head⟩

theorem Starts.head (start : Starts own) : own.head? ≠ some 0 := by
  obtain ⟨c, more, rfl, nonzero, -⟩ := start
  exact fun zero => nonzero (Option.some.inj zero)

theorem Blanks.head (isBlank : Blanks blanks) (next : rest.head? ≠ some 0) :
    (blanks ++ rest).head? ≠ some 0 := by
  cases blanks with
  | nil => exact next
  | cons c blanks =>
      intro zero
      have ascii := (isBlank c List.mem_cons_self).ascii
      rw [Option.some.inj zero] at ascii
      exact absurd ascii.1 (by decide)

theorem StartsLate.head (late : StartsLate own) : own.head? ≠ some 0 := by
  obtain ⟨blanks, t, rfl, isBlank, start⟩ := late
  exact isBlank.head start.head

theorem beginsPlainly_cons {c : CodePoint} (ascii : 0 < c.val ∧ c.val < 0x80)
    (next : own.head? ≠ some 0) : BeginsPlainly (c :: own) :=
  ⟨ascii.1, ascii.2, next⟩

theorem Inside.head {points : List CodePoint} (h : Inside points own) :
    (own ++ [('"' : CodePoint)]).head? ≠ some 0 := by
  cases h with
  | nil => decide
  | plain control _ _ _ =>
      intro zero
      rw [Option.some.inj zero] at control
      exact absurd control (by decide)
  | escape escape _ =>
      obtain ⟨e, rfl⟩ := escape.cons
      exact fun zero => absurd (Option.some.inj zero) (by decide)

/-- Characters of ASCII other than zero. -/
def Ascii : Form := fun t => ∀ c ∈ t, 0 < c.val ∧ c.val < 0x80

theorem Ascii.append (h : Ascii own) (h' : Ascii rest) : Ascii (own ++ rest) := by
  intro c mem
  rcases List.mem_append.mp mem with mem | mem
  · exact h c mem
  · exact h' c mem

theorem Ascii.beginsPlainly (h : Ascii own) (some : own ≠ []) : BeginsPlainly own := by
  cases own with
  | nil => exact absurd rfl some
  | cons c own =>
      have ascii := h c List.mem_cons_self
      refine beginsPlainly_cons ascii fun zero => ?_
      have mem := List.mem_of_mem_head? zero
      exact absurd (h 0 (List.mem_cons_of_mem c mem)).1 (by decide)

theorem Digits.ascii (h : Digits own) : Ascii own := by
  intro c mem
  have digit := h.2 c mem
  omega

theorem Optional.ascii {P : Form} (h : Optional P own) (each : ∀ t, P t → Ascii t) : Ascii own := by
  rcases h with rfl | h
  · nofun
  · exact each own h

theorem Ascii.cons {c : CodePoint} (ascii : 0 < c.val ∧ c.val < 0x80) (h : Ascii own) :
    Ascii (c :: own) := by
  intro d mem
  rcases List.mem_cons.mp mem with rfl | mem
  · exact ascii
  · exact h d mem

theorem Fraction.ascii (h : Fraction own) : Ascii own := by
  obtain ⟨digits, rfl, some⟩ := h
  exact some.ascii.cons (by decide)

theorem Exponent.ascii (h : Exponent own) : Ascii own := by
  obtain ⟨mark, sign, digits, rfl, isMark, isSign, some⟩ := h
  have marks : 0 < mark.val ∧ mark.val < 0x80 := by
    rcases isMark with rfl | rfl <;> decide
  refine .cons marks (.append (isSign.ascii ?_) some.ascii)
  rintro t ⟨c, rfl, rfl | rfl⟩
  · exact .cons (by decide) nofun
  · exact .cons (by decide) nofun

theorem ascii_ofChars {word : List Char} (h : ∀ c ∈ word, 0 < c.toNat ∧ c.toNat < 0x80) :
    Ascii (Text.ofChars word) := by
  intro p mem
  obtain ⟨c, inside, rfl⟩ := List.mem_map.mp mem
  exact h c inside

theorem Literal.ascii (h : Literal v own) : Ascii own := by
  cases h with
  | natural whole _ => exact whole.isDigits.ascii
  | negative whole _ => exact whole.isDigits.ascii.cons (by decide)
  | inexact isSign whole first second _ =>
      have sign := isSign.ascii fun t same => same ▸ .cons (by decide) nofun
      have fraction := first.ascii fun t h => h.ascii
      have exponent := second.ascii fun t h => h.ascii
      exact ((sign.append whole.isDigits.ascii).append fraction).append exponent
  | _ => exact ascii_ofChars (by simp)

theorem item_late {v : Json} (h : Item (Nested n) v own) : StartsLate own := by
  obtain ⟨blanks, t, rfl, isBlank, nested⟩ := h
  exact ⟨blanks, t, rfl, isBlank, nested.starts⟩

theorem head_content {M : α → Form} {as : List α} {close : CodePoint}
    (late : ∀ a t, M a t → StartsLate t) (nonzero : close ≠ 0) (h : Content M as own) :
    (own ++ [close]).head? ≠ some 0 := by
  cases h with
  | none isBlank => exact isBlank.head fun zero => nonzero (Option.some.inj zero)
  | some listed => exact ((listed.late late).append _).head

theorem Nested.beginsPlainly (h : Nested n v own) : BeginsPlainly own := by
  have scalar (h : Scalar v own) : BeginsPlainly own := by
    cases h with
    | string quoted =>
        obtain ⟨inside, rfl, within⟩ := quoted
        exact beginsPlainly_cons (by decide) within.head
    | literal literal =>
        obtain ⟨c, more, same, -⟩ := literal.starts.1
        exact literal.ascii.beginsPlainly (by rw [same]; nofun)
  cases n with
  | zero => exact scalar h
  | succ n =>
      rcases h with h | h
      · exact scalar h
      · cases h with
        | array content =>
            have next := head_content (fun _ _ => item_late) (by decide : (']' : CodePoint) ≠ 0) content
            exact beginsPlainly_cons (by decide) next
        | object content =>
            have next := head_content (fun _ _ => Named.late) (by decide : ('\x7d' : CodePoint) ≠ 0) content
            exact beginsPlainly_cons (by decide) next

theorem Opens.beginsPlainly (h : Opens (n + 1) own) : BeginsPlainly own := by
  cases h with
  | array cut =>
      have late := cut.late (fun _ _ => item_late) fun t opened => ?_
      · exact beginsPlainly_cons (by decide) late.head
      · obtain ⟨blanks, t, rfl, isBlank, opened⟩ := opened
        exact ⟨blanks, t, rfl, isBlank, opened.starts⟩
  | object cut =>
      have late := cut.late (fun _ _ => Named.late) fun t opened => ?_
      · exact beginsPlainly_cons (by decide) late.head
      · obtain ⟨name, opened⟩ := opened
        exact opened.late

end Beginnings

theorem Writes.beginsPlainly (h : Writes n v text) : BeginsPlainly text := by
  obtain ⟨before, own, after, rfl, isBefore, isAfter, nested⟩ := h
  apply BeginsPlainly.append
  · exact .after_blanks isBefore nested.beginsPlainly
  · have next := isAfter.head (nofun : ([] : List CodePoint).head? ≠ some 0)
    rwa [List.append_nil] at next

theorem Led.beginsPlainly (h : Led (Opens (n + 1)) text) : BeginsPlainly text := by
  obtain ⟨blanks, own, rfl, isBlank, opened⟩ := h
  exact .after_blanks isBlank opened.beginsPlainly

section Bytes

variable {bytes : List UInt8}

theorem Encodes.unique {text' : List CodePoint} (plain : BeginsPlainly text)
    (plain' : BeginsPlainly text') (h : Encodes bytes text) (h' : Encodes bytes text') : text = text' := by
  have decoded := (decode_iff_encodes plain).mpr h
  rw [(decode_iff_encodes plain').mpr h'] at decoded
  exact (Option.some.inj decoded).symm

/-- Some bytes encode a text that writes a value. -/
def Spells (bytes : List UInt8) (v : Json) : Prop :=
  ∃ text n, Encodes bytes text ∧ Writes n v text

/-- Some bytes encode a text that opens too many arrays and objects one inside another. -/
def SpellsTooDeep (depth : Nat) (bytes : List UInt8) : Prop :=
  ∃ text, Encodes bytes text ∧ Led (Opens (depth + 1)) text

theorem Spells.unique (h : Spells bytes v) (h' : Spells bytes w) : v = w := by
  obtain ⟨text, n, encodes, writes⟩ := h
  obtain ⟨text', m, encodes', writes'⟩ := h'
  cases encodes.unique writes.beginsPlainly writes'.beginsPlainly encodes'
  exact writes.unique writes'

theorem readBytes_deep : readBytes depth bytes = .error .tooDeep ↔ SpellsTooDeep depth bytes := by
  rw [readBytes, bind_eq_error, or_iff_right (orMalformed_not_deep _)]
  simp only [orMalformed_eq_ok, read_deep]
  constructor
  · rintro ⟨text, decoded, opened⟩
    exact ⟨text, .of_decode decoded, opened⟩
  · rintro ⟨text, encodes, opened⟩
    exact ⟨text, (decode_iff_encodes opened.beginsPlainly).mpr encodes, opened⟩

theorem readBytes_eq_ok (able : ¬ SpellsTooDeep depth bytes) :
    readBytes depth bytes = .ok v ↔ Spells bytes v := by
  rw [readBytes, bind_eq_ok]
  simp only [orMalformed_eq_ok]
  constructor
  · rintro ⟨text, decoded, found⟩
    exact ⟨text, depth + 1, .of_decode decoded, read_eq_ok.mp found⟩
  · rintro ⟨text, n, encodes, writes⟩
    refine ⟨text, (decode_iff_encodes writes.beginsPlainly).mpr encodes, ?_⟩
    exact writes.read_of_not_deep fun opened => able ⟨text, encodes, opened⟩

end Bytes

end Restyle.Json
