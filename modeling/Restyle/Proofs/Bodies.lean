import Restyle.Proofs.JsonTexts
import Restyle.Web.Api

/-!
# What requests hold

A request holds the value that its body spells in JSON, if it is declared to do so, and else an empty
object. This is what is read, unless the body is nested too deep.
-/

namespace Restyle.Web

open Text

section ContentTypes

variable {text type before after : List Char} {c : Char}

/-- A type of content that is JSON, in letters of any case. -/
def IsJsonType (type : List Char) : Prop :=
  let lower := type.map Char.toLower
  lower = "application/json".toList ∨ "application/".toList <+: lower ∧ "+json".toList <:+ lower

/-- A type that is JSON is declared; blanks may be around it, and parameters may follow. -/
def DeclaresJson (contentType : List Char) : Prop :=
  ∃ before type after parameters, contentType = before ++ type ++ after ++ parameters ∧
    IsJsonType type ∧ ';' ∉ type ∧ (∀ c ∈ before ++ after, isBlank c) ∧
    (parameters = [] ∨ parameters.head? = some ';')

theorem trim_spec (text : List Char) :
    ∃ before after, text = before ++ trim text ++ after ∧ ∀ c ∈ before ++ after, isBlank c := by
  have front : text = text.takeWhile isBlank ++ trimStart text :=
    List.takeWhile_append_dropWhile.symm
  have back : trimStart text = trim text ++ ((trimStart text).reverse.takeWhile isBlank).reverse := by
    have whole := congrArg List.reverse
      (List.takeWhile_append_dropWhile (p := isBlank) (l := (trimStart text).reverse))
    rw [List.reverse_append, List.reverse_reverse] at whole
    exact whole.symm
  refine ⟨text.takeWhile isBlank, ((trimStart text).reverse.takeWhile isBlank).reverse, ?_, ?_⟩
  · rw [List.append_assoc, ← back, ← front]
  · intro c mem
    rcases List.mem_append.mp mem with mem | mem
    · exact List.all_eq_true.mp List.all_takeWhile c mem
    · exact List.all_eq_true.mp List.all_takeWhile c (List.mem_reverse.mp mem)

/-- Blanks around something that neither begins nor ends with one are taken off. -/
theorem trim_blanks (isBlank : ∀ c ∈ before ++ after, Text.isBlank c)
    (first : ∀ c ∈ type.head?, Text.isBlank c = false) (last : ∀ c ∈ type.getLast?, Text.isBlank c = false)
    (some : type ≠ []) : trim (before ++ type ++ after) = type := by
  have isBefore : ∀ c ∈ before, Text.isBlank c := fun c mem => isBlank c (List.mem_append_left _ mem)
  have isAfter : ∀ c ∈ after.reverse, Text.isBlank c :=
    fun c mem => isBlank c (List.mem_append_right _ (List.mem_reverse.mp mem))
  have front : trimStart (before ++ (type ++ after)) = type ++ after := by
    apply Syntax.dropWhile_upTo isBefore
    intro c head
    rw [List.head?_append_of_ne_nil type some] at head
    exact first c head
  rw [trim, List.append_assoc, front, trimEnd, List.reverse_append]
  rw [Syntax.dropWhile_upTo isAfter fun c head => last c (List.head?_reverse ▸ head)]
  exact List.reverse_reverse type

theorem toLower_of_blank (blank : isBlank c) : c.toLower = c := by
  have other : ¬ (65 ≤ c.toNat ∧ c.toNat ≤ 90) := by
    simp only [isBlank, Bool.or_eq_true, Bool.and_eq_true, decide_eq_true_eq, beq_iff_eq] at blank
    omega
  exact dif_neg other

theorem isBlank_of_toLower {d : Char} (h : c.toLower = d) (letter : isBlank d = false) :
    isBlank c = false := by
  by_contra blank
  rw [toLower_of_blank (Bool.not_eq_false _ ▸ blank)] at h
  rw [h, letter] at blank
  exact blank rfl

theorem IsJsonType.ends (json : IsJsonType type) :
    type ≠ [] ∧ (∀ c ∈ type.head?, isBlank c = false) ∧ ∀ c ∈ type.getLast?, isBlank c = false := by
  have ends : (type.map Char.toLower).head? = some 'a' ∧ (type.map Char.toLower).getLast? = some 'n' := by
    rcases json with json | ⟨⟨rest, first⟩, front, last⟩
    · rw [json]
      decide
    · exact ⟨first ▸ rfl, by rw [← last, List.getLast?_append]; rfl⟩
  refine ⟨?_, fun c head => ?_, fun c last => ?_⟩
  · rintro rfl
    exact absurd ends.1 (by decide)
  · rw [List.head?_map, head] at ends
    exact isBlank_of_toLower (Option.some.inj ends.1) (by decide)
  · rw [List.getLast?_map, last] at ends
    exact isBlank_of_toLower (Option.some.inj ends.2) (by decide)

theorem declaresJson_iff (contentType : List Char) :
    declaresJson contentType ↔ DeclaresJson contentType := by
  have isType : declaresJson contentType ↔ IsJsonType (trim (contentType.takeWhile (· != ';'))) := by
    simp [declaresJson, IsJsonType, List.isPrefixOf_iff_prefix, List.isSuffixOf_iff_suffix]
  rw [isType]
  constructor
  · intro json
    obtain ⟨before, after, split, isBlank⟩ := trim_spec (contentType.takeWhile (· != ';'))
    refine ⟨before, _, after, contentType.dropWhile (· != ';'), ?_, json, ?_, isBlank, ?_⟩
    · rw [← split, List.takeWhile_append_dropWhile]
    · intro mem
      have kept := List.all_eq_true.mp List.all_takeWhile _ (mem_of_mem_trim mem)
      exact absurd kept (by decide)
    · have stops := List.head?_dropWhile_not (· != ';') contentType
      cases rest : contentType.dropWhile (· != ';') with
      | nil => exact .inl rfl
      | cons c rest' =>
          rw [rest] at stops
          exact .inr (congrArg some (by simpa using stops))
  · rintro ⟨before, type, after, parameters, rfl, json, noMark, isBlank, ended⟩
    obtain ⟨some, first, last⟩ := json.ends
    have kept : ∀ c ∈ before ++ type ++ after, (c != ';') = true := by
      intro c mem
      rw [bne_iff_ne]
      rintro rfl
      have blank : ';' ∈ before ++ after := by
        simpa [noMark] using mem
      exact absurd (isBlank _ blank) (by decide)
    have stops : ∀ c ∈ parameters.head?, (c != ';') = false := by
      rcases ended with rfl | mark
      · nofun
      · rw [mark]
        rintro c ⟨⟩
        rfl
    rw [Syntax.takeWhile_upTo kept stops, trim_blanks isBlank first last some]
    exact json

end ContentTypes

/-- A body that is missing, that is no JSON or null, or that is not declared as JSON counts as an empty
object. -/
inductive Request.Holds (r : Request) : Json → Prop
  | value {v : Json} : DeclaresJson r.contentType → Json.Spells r.body v → v ≠ .null → r.Holds v
  | nothing : (∀ v, DeclaresJson r.contentType → Json.Spells r.body v → v = .null) →
      r.Holds (.object [])

/-- The body is declared as JSON and nested too deep to be read. -/
def Request.TooDeep (depth : Nat) (r : Request) : Prop :=
  DeclaresJson r.contentType ∧ Json.SpellsTooDeep depth r.body

variable {r : Request} {v w : Json} {depth : Nat}

theorem Request.Holds.unique (h : r.Holds v) (h' : r.Holds w) : v = w := by
  cases h with
  | value declared spells some =>
      cases h' with
      | value _ spells' _ => exact spells.unique spells'
      | nothing none => exact absurd (none v declared spells) some
  | nothing none =>
      cases h' with
      | value declared spells some => exact absurd (none w declared spells) some
      | nothing _ => rfl

theorem Request.exists_holds (r : Request) : ∃ v, r.Holds v := by
  by_cases some : ∃ v, DeclaresJson r.contentType ∧ Json.Spells r.body v ∧ v ≠ .null
  · obtain ⟨v, declared, spells, some⟩ := some
    exact ⟨v, .value declared spells some⟩
  · refine ⟨.object [], .nothing fun v declared spells => ?_⟩
    by_contra other
    exact some ⟨v, declared, spells, other⟩

theorem requestValue_deep : requestValue depth r = .error .tooDeep ↔ r.TooDeep depth := by
  rw [requestValue, Request.TooDeep, ← declaresJson_iff]
  split
  · rename_i declared
    rw [← Json.readBytes_deep]
    split <;> simp_all
  · rename_i undeclared
    simp [undeclared]

theorem requestValue_eq_ok (able : ¬ r.TooDeep depth) :
    requestValue depth r = .ok v ↔ r.Holds v := by
  have read : ∃ v, requestValue depth r = .ok v ∧ r.Holds v := by
    rw [requestValue]
    split
    · rename_i declared
      have isJson := (declaresJson_iff _).mp declared
      have found (v) : Json.readBytes depth r.body = .ok v ↔ Json.Spells r.body v :=
        Json.readBytes_eq_ok fun deep => able ⟨isJson, deep⟩
      split
      · rename_i null
        refine ⟨_, rfl, .nothing fun v _ spells => ?_⟩
        exact spells.unique ((found _).mp null)
      · rename_i malformed
        refine ⟨_, rfl, .nothing fun v _ spells => ?_⟩
        rw [(found v).mpr spells] at malformed
        cases malformed
      · rename_i other malformed
        cases value : Json.readBytes depth r.body with
        | ok v =>
            refine ⟨v, rfl, .value isJson ((found v).mp value) ?_⟩
            rintro rfl
            exact other value
        | error e =>
            cases e with
            | malformed => exact absurd value malformed
            | tooDeep => exact absurd ⟨isJson, Json.readBytes_deep.mp value⟩ able
    · rename_i undeclared
      refine ⟨_, rfl, .nothing fun v declared => ?_⟩
      exact absurd ((declaresJson_iff _).mpr declared) undeclared
  obtain ⟨w, found, holds⟩ := read
  rw [found, Except.ok.injEq]
  constructor
  · rintro rfl
    exact holds
  · exact holds.unique

theorem Request.not_tooDeep (read : (requestValue depth r).toBool = true) : ¬ r.TooDeep depth := by
  rw [← requestValue_deep]
  intro deep
  rw [deep] at read
  cases read

end Restyle.Web
