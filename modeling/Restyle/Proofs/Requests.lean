import Restyle.Proofs.Bodies

/-!
# Requests that are refused

A request for a service is answered with 400 exactly if what it holds has a flaw. Such an answer depends on
the request only: no file is looked at for it, and none is written. A request that is nested too deep to
be read is answered without words.
-/

namespace Restyle

/-- An object has a value under a name. Of members of one name, the last one counts. -/
def Json.Has (members : List (List Text.CodePoint × Json)) (name : String) (v : Json) : Prop :=
  ∃ before after, members = before ++ (Text.ofChars name.toList, v) :: after ∧
    ∀ m ∈ after, m.1 ≠ Text.ofChars name.toList

namespace Web

open Text Json

/-- What can be wrong with a value that a service is asked with. -/
inductive Flawed (s : Service) : Json → Prop
  | notObject {v} (other : ∀ members, v ≠ .object members) : Flawed s v
  | noTag {members} (none : ∀ tag, tag ≠ [] → ¬ Has members "tagName" (.string tag)) :
      Flawed s (.object members)
  | noValue {members} (update : s = .updateClasses)
      (none : ∀ value, ¬ Has members "newClassName" (.string value)) : Flawed s (.object members)
  /-- A truth value and a number with a fraction are no integers. -/
  | ordinal {members v} (given : Has members "elementIndex" v) (some : v ≠ .null)
      (other : ∀ n, v ≠ .integer n) : Flawed s (.object members)
  | file {members v} (given : Has members "file" v) (some : v ≠ .null)
      (other : ∀ name, v ≠ .string name) : Flawed s (.object members)

/-- An address is the one that the members of an object name. -/
structure Address.NamedBy (a : Address) (members : List (List CodePoint × Json)) : Prop where
  tag : Has members "tagName" (.string a.tag)
  some : a.tag ≠ []
  ordinal : ∀ n, a.ordinal = .some n ↔ Has members "elementIndex" (.integer n)
  file : ∀ name, a.file = .some name ↔ Has members "file" (.string name)

variable {members : List (List CodePoint × Json)} {tag : List CodePoint} {r : Request} {s : Service}
  {v : Json} {depth : Nat}

theorem member?_eq_some {name : String} : member? name members = some v ↔ Has members name v := by
  rw [member?, Option.map_eq_some_iff]
  constructor
  · rintro ⟨⟨name, v⟩, found, rfl⟩
    obtain ⟨same, after, before, split, other⟩ := List.find?_eq_some_iff_append.mp found
    obtain rfl : name = _ := of_decide_eq_true same
    refine ⟨before.reverse, after.reverse, ?_, fun m mem => ?_⟩
    · have whole := congrArg List.reverse split
      simpa using whole
    · simpa using other m (List.mem_reverse.mp mem)
  · rintro ⟨before, after, rfl, other⟩
    refine ⟨(Text.ofChars name.toList, v), List.find?_eq_some_iff_append.mpr ?_, rfl⟩
    refine ⟨decide_eq_true rfl, after.reverse, before.reverse, ?_, ?_⟩
    · simp
    · intro m mem
      simpa using other m (List.mem_reverse.mp mem)

theorem nonemptyString_eq_some {v : Option Json} :
    nonemptyString v = some tag ↔ tag ≠ [] ∧ v = some (.string tag) := by
  unfold nonemptyString
  split <;> simp_all [eq_comm]

theorem nonemptyString_eq_none {v : Option Json} :
    nonemptyString v = none ↔ ∀ tag, tag ≠ [] → v ≠ some (.string tag) := by
  simp only [Option.eq_none_iff_forall_ne_some, ne_eq, nonemptyString_eq_some, not_and]

def Refuses {α : Type} (check : Except Refused α) : Prop :=
  ∃ reason, check = .error reason

theorem not_refuses {α : Type} (a : α) : ¬ Refuses (.ok a) := by
  rintro ⟨reason, refused⟩
  cases refused

theorem ordinalOf_refuses :
    Refuses (ordinalOf members) ↔
      ∃ v, Has members "elementIndex" v ∧ v ≠ .null ∧ ∀ n, v ≠ .integer n := by
  simp only [Refuses, ordinalOf, ← member?_eq_some]
  split <;> simp_all

theorem fileOf_refuses :
    Refuses (fileOf members) ↔ ∃ v, Has members "file" v ∧ v ≠ .null ∧ ∀ name, v ≠ .string name := by
  simp only [Refuses, fileOf, ← member?_eq_some]
  split <;> simp_all

theorem ordinalOf_eq_ok {ordinal : Option Int} (h : ordinalOf members = .ok ordinal) (n : Int) :
    ordinal = some n ↔ Has members "elementIndex" (.integer n) := by
  rw [← member?_eq_some]
  rw [ordinalOf] at h
  split at h <;> cases h <;> simp_all

theorem fileOf_eq_ok {file : Option (List CodePoint)} (h : fileOf members = .ok file)
    (name : List CodePoint) : file = some name ↔ Has members "file" (.string name) := by
  rw [← member?_eq_some]
  rw [fileOf] at h
  split at h <;> cases h <;> simp_all

theorem addressOf_refuses (tag : List CodePoint) :
    Refuses (addressOf tag members) ↔ Refuses (ordinalOf members) ∨ Refuses (fileOf members) := by
  rw [Refuses, Refuses, Refuses, addressOf]
  cases ordinalOf members <;> cases fileOf members <;> simp [pure, Except.pure]

theorem addressOf_named {a : Address} (some : tag ≠ []) (given : Has members "tagName" (.string tag))
    (h : addressOf tag members = .ok a) : a.NamedBy members := by
  simp only [addressOf, bind_eq_ok, pure_eq_ok] at h
  obtain ⟨ordinal, isOrdinal, file, isFile, rfl⟩ := h
  exact ⟨given, some, ordinalOf_eq_ok isOrdinal, fileOf_eq_ok isFile⟩

theorem flawed_object :
    Flawed s (.object members) ↔
      nonemptyString (member? "tagName" members) = none ∨
        (s = .updateClasses ∧ ∀ value, member? "newClassName" members ≠ some (.string value)) ∨
        Refuses (ordinalOf members) ∨ Refuses (fileOf members) := by
  rw [nonemptyString_eq_none, ordinalOf_refuses, fileOf_refuses]
  simp only [ne_eq, member?_eq_some]
  constructor
  · rintro (other | none | ⟨update, none⟩ | ⟨given, some, other⟩ | ⟨given, some, other⟩)
    · exact absurd rfl (other members)
    · exact .inl none
    · exact .inr (.inl ⟨update, none⟩)
    · exact .inr (.inr (.inl ⟨_, given, some, other⟩))
    · exact .inr (.inr (.inr ⟨_, given, some, other⟩))
  · rintro (none | ⟨update, none⟩ | ⟨v, given, some, other⟩ | ⟨v, given, some, other⟩)
    · exact .noTag none
    · exact .noValue update none
    · exact .ordinal given some other
    · exact .file given some other

theorem readRequest_refuses : Refuses (readRequest v) ↔ Flawed .getClassName v := by
  cases v with
  | object members =>
      rw [flawed_object, readRequest]
      cases named : nonemptyString (member? "tagName" members) with
      | none => simp [Refuses]
      | some tag => simp [addressOf_refuses]
  | _ => exact iff_of_true ⟨_, rfl⟩ (.notObject nofun)

theorem updateRequest_refuses : Refuses (updateRequest v) ↔ Flawed .updateClasses v := by
  cases v with
  | object members =>
      rw [flawed_object, updateRequest]
      split
      · rename_i tag value named given
        have passed : Refuses ((addressOf tag members).map fun a => (a, value)) ↔
            Refuses (ordinalOf members) ∨ Refuses (fileOf members) := by
          rw [← addressOf_refuses tag, Refuses, Refuses]
          simp only [map_eq_error]
        simp [passed, named, given]
      · rename_i other
        refine iff_of_true ⟨_, rfl⟩ ?_
        cases named : nonemptyString (member? "tagName" members) with
        | none => exact .inl rfl
        | some tag => exact .inr (.inl ⟨rfl, fun value given => other tag value named given⟩)
  | _ => exact iff_of_true ⟨_, rfl⟩ (.notObject nofun)

theorem readRequest_named {a : Address} (h : readRequest v = .ok a) :
    ∃ members, v = .object members ∧ a.NamedBy members := by
  unfold readRequest at h
  split at h
  · rename_i members
    split at h
    · rename_i tag named
      obtain ⟨some, given⟩ := nonemptyString_eq_some.mp named
      exact ⟨members, rfl, addressOf_named some (member?_eq_some.mp given) h⟩
    · cases h
  · cases h

theorem updateRequest_named {a : Address} {value : List CodePoint} (h : updateRequest v = .ok (a, value)) :
    ∃ members, v = .object members ∧ a.NamedBy members ∧ Has members "newClassName" (.string value) := by
  unfold updateRequest at h
  split at h
  · rename_i members
    split at h
    · rename_i tag value named given
      obtain ⟨a, address, same⟩ := map_eq_ok.mp h
      cases same
      obtain ⟨some, tagged⟩ := nonemptyString_eq_some.mp named
      exact ⟨members, rfl, addressOf_named some (member?_eq_some.mp tagged) address,
        member?_eq_some.mp given⟩
    · cases h
  · cases h

/-- What becomes of a request for a service, by what it holds. -/
inductive Handled (depth : Nat) (r : Request) : Service → Prop
  | tooDeep {s : Service} (deep : r.TooDeep depth)
      (same : ∀ w desk, handle w desk r depth = (desk, wordless)) : Handled depth r s
  | refused {s : Service} {v : Json} {reason : Refused} (able : ¬ r.TooDeep depth) (holds : r.Holds v)
      (flawed : Flawed s v) (same : ∀ w desk, handle w desk r depth = (desk, reason.response)) :
      Handled depth r s
  | read {members : List (List CodePoint × Json)} {a : Address} (able : ¬ r.TooDeep depth)
      (holds : r.Holds (.object members)) (sound : ¬ Flawed .getClassName (.object members))
      (named : a.NamedBy members) (same : ∀ w desk, handle w desk r depth = getClassName w desk a) :
      Handled depth r .getClassName
  | update {members : List (List CodePoint × Json)} {a : Address} {value : List CodePoint}
      (able : ¬ r.TooDeep depth) (holds : r.Holds (.object members))
      (sound : ¬ Flawed .updateClasses (.object members)) (named : a.NamedBy members)
      (given : Has members "newClassName" (.string value))
      (same : ∀ w desk, handle w desk r depth = updateClasses w desk a value) :
      Handled depth r .updateClasses

section Respond

variable {α : Type} {ask : Json → Except Refused α} {act : α → Desk × Response} {desk : Desk}

theorem respond_deep (deep : r.TooDeep depth) :
    respond desk (requestValue depth r) ask act = (desk, wordless) := by
  rw [requestValue_deep.mpr deep, respond]

theorem respond_refused (able : ¬ r.TooDeep depth) (holds : r.Holds v) {reason : Refused}
    (asked : ask v = .error reason) :
    respond desk (requestValue depth r) ask act = (desk, reason.response) := by
  rw [(requestValue_eq_ok able).mpr holds]
  simp only [respond, asked]

theorem respond_asked (able : ¬ r.TooDeep depth) (holds : r.Holds v) {a : α} (asked : ask v = .ok a) :
    respond desk (requestValue depth r) ask act = act a := by
  rw [(requestValue_eq_ok able).mpr holds]
  simp only [respond, asked]

end Respond

theorem handled (depth : Nat) (route : routeOf r.method r.target = .service s) (other : s ≠ .health) :
    Handled depth r s := by
  have served (w : Workspace) (desk : Desk) : handle w desk r depth = serve w desk r depth s := by
    rw [handle, route]
  by_cases deep : r.TooDeep depth
  · refine .tooDeep deep fun w desk => ?_
    rw [served]
    cases s with
    | health => exact absurd rfl other
    | getClassName => exact respond_deep deep
    | updateClasses => exact respond_deep deep
  obtain ⟨v, holds⟩ := r.exists_holds
  cases s with
  | health => exact absurd rfl other
  | getClassName =>
      cases asked : readRequest v with
      | error reason =>
          have same (w : Workspace) (desk : Desk) : handle w desk r depth = (desk, reason.response) := by
            rw [served]
            exact respond_refused deep holds asked
          exact .refused deep holds (readRequest_refuses.mp ⟨reason, asked⟩) same
      | ok a =>
          obtain ⟨members, rfl, named⟩ := readRequest_named asked
          refine .read deep holds ?_ named fun w desk => ?_
          · rw [← readRequest_refuses, asked]
            exact not_refuses a
          · rw [served]
            exact respond_asked deep holds asked
  | updateClasses =>
      cases asked : updateRequest v with
      | error reason =>
          have same (w : Workspace) (desk : Desk) : handle w desk r depth = (desk, reason.response) := by
            rw [served]
            exact respond_refused deep holds asked
          exact .refused deep holds (updateRequest_refuses.mp ⟨reason, asked⟩) same
      | ok address =>
          obtain ⟨a, value⟩ := address
          obtain ⟨members, rfl, named, given⟩ := updateRequest_named asked
          refine .update deep holds ?_ named given fun w desk => ?_
          · rw [← updateRequest_refuses, asked]
            exact not_refuses (a, value)
          · rw [served]
            exact respond_asked deep holds asked

theorem troubleResponse_status (e : Trouble) : (troubleResponse e).status = 500 := by
  cases e with
  | workspace e => rfl
  | text e => cases e <;> rfl
  | disk e => rfl

theorem getClassName_status (w : Workspace) (desk : Desk) (a : Address) :
    (getClassName w desk a).2.status = 200 ∨ (getClassName w desk a).2.status = 500 := by
  rw [getClassName]
  dsimp only
  split
  · exact .inr (troubleResponse_status _)
  · exact .inl rfl

theorem updateClasses_status (w : Workspace) (desk : Desk) (a : Address) (value : List CodePoint) :
    (updateClasses w desk a value).2.status = 200 ∨ (updateClasses w desk a value).2.status = 500 := by
  rw [updateClasses]
  dsimp only
  split
  · exact .inr (troubleResponse_status _)
  · exact .inl rfl

/-- A request is answered with 400 exactly if what it holds has a flaw, and then every workspace on every
disk gives that answer. A body that is nested too deep to be read is the exception: it is answered
without words. -/
theorem refused_iff_flawed (depth : Nat) (route : routeOf r.method r.target = .service s)
    (other : s ≠ .health) :
    (∃! v, r.Holds v) ∧
      (r.TooDeep depth → ∀ w desk, handle w desk r depth = (desk, wordless)) ∧
      (¬ r.TooDeep depth → ∀ v, r.Holds v → ∀ w desk,
        let response := (handle w desk r depth).2
        (response.status = 400 ↔ Flawed s v) ∧
          (response.status = 400 → ∀ w' desk', handle w' desk' r depth = (desk', response))) := by
  have one : ∃! v, r.Holds v := by
    obtain ⟨v, holds⟩ := r.exists_holds
    exact ⟨v, holds, fun w holds' => holds'.unique holds⟩
  refine ⟨one, ?_⟩
  have served {v w : Json} {response : Response} (sound : ¬ Flawed s v) (holds : r.Holds v)
      (status : response.status = 200 ∨ response.status = 500) (holds' : r.Holds w) :
      (response.status = 400 ↔ Flawed s w) ∧
        (response.status = 400 → ∀ w' desk', handle w' desk' r depth = (desk', response)) := by
    obtain rfl := holds'.unique holds
    have unrefused : response.status ≠ 400 := by
      rcases status with status | status <;> rw [status] <;> decide
    exact ⟨iff_of_false unrefused sound, fun refused => absurd refused unrefused⟩
  cases handled depth route other with
  | tooDeep deep same => exact ⟨fun _ => same, fun able => absurd deep able⟩
  | refused able holds flawed same =>
      refine ⟨fun deep => absurd deep able, fun _ v holds' w desk => ?_⟩
      obtain rfl := holds'.unique holds
      rw [same]
      exact ⟨iff_of_true rfl flawed, fun _ => same⟩
  | read able holds sound named same =>
      refine ⟨fun deep => absurd deep able, fun _ v holds' w desk => ?_⟩
      rw [same w desk]
      exact served sound holds (getClassName_status w desk _) holds'
  | update able holds sound named given same =>
      refine ⟨fun deep => absurd deep able, fun _ v holds' w desk => ?_⟩
      rw [same w desk]
      exact served sound holds (updateClasses_status w desk _ _) holds'

/-- A truth value is no ordinal. -/
theorem refused_iff_flawed_truth_value :
    let w : Workspace := ⟨[bytes "p"], defaultAttribute, [bytes "p", bytes "a.tsx"]⟩
    let desk : Desk := ⟨⟨[], []⟩, []⟩
    let r : Request := ⟨"POST".toList, "/api/get-classname-expression".toList, "application/json".toList,
      bytes "\x7b\"tagName\":\"p\",\"elementIndex\":true\x7d"⟩
    routeOf r.method r.target = .service .getClassName ∧ Service.getClassName ≠ .health ∧
      ¬ r.TooDeep usualDepth ∧ (∃ v, r.Holds v ∧ Flawed .getClassName v) ∧
      (handle w desk r usualDepth).2.status = 400 ∧
      ∀ w' desk', handle w' desk' r usualDepth = (desk', (handle w desk r usualDepth).2) := by
  intro w desk r
  have route : routeOf r.method r.target = .service .getClassName := by decide +kernel
  have other : Service.getClassName ≠ .health := by decide
  have able : ¬ r.TooDeep usualDepth := r.not_tooDeep (by decide +kernel)
  have asked : (requestValue usualDepth r).toOption.map readRequest = some (.error .ordinalNotInteger) := by
    decide +kernel
  obtain ⟨v, read, refused⟩ := Option.map_eq_some_iff.mp asked
  have holds : r.Holds v := (requestValue_eq_ok able).mp (eq_ok_of_toOption read)
  have flawed : Flawed .getClassName v := readRequest_refuses.mp ⟨_, refused⟩
  obtain ⟨answered, same⟩ := (refused_iff_flawed usualDepth route other).2.2 able v holds w desk
  exact ⟨route, other, able, ⟨v, holds, flawed⟩, answered.mpr flawed, same (answered.mpr flawed)⟩

end Web

end Restyle
