import PureplayIngest.Shared.JsonStringify

/-!
`redactPii`: what a failure row keeps of a payload.

The fields at the blocked paths are deleted from a copy of the payload, and
whatever still looks like an e-mail address is replaced in the text of the
copy. The copy is the JSON value itself, since nothing is changed in place here.
-/

namespace PureplayIngest.Shared

open Domain JsonText

/-- `BLOCKED_PATHS`. -/
def blockedPaths : List String :=
  ["player.email", "envelope.player.email", "user_token", "data.user_token"]

section

variable {T : Type} [JsText T] [DecidableEq T]

/-- `path.split(".")`. -/
def pathParts (path : String) : List T :=
  (path.toList.splitOn '.').map fun part => JsText.ofString (String.ofList part)

/-- A value is changed only where it is an object. An array has no field by the
name of a path. -/
def inObject (change : List (T × JsonOf T) → List (T × JsonOf T)) : JsonOf T → JsonOf T
  | .obj fields => .obj (change fields)
  | value => value

/-- Delete the field at the end of the path. -/
def deleteFields : List T → List (T × JsonOf T) → List (T × JsonOf T)
  | [], fields => fields
  | [lastPart], fields => fields.filter fun field => field.1 ≠ lastPart
  | part :: next :: parts, fields =>
      fields.map fun field =>
        if field.1 = part then (field.1, inObject (deleteFields (next :: parts)) field.2) else field

def deleteNestedPath (value : JsonOf T) (path : String) : JsonOf T :=
  inObject (deleteFields (pathParts path)) value

end

/-! ### `EMAIL_REGEX` -/

def isEmailRegexLocal (ch : Char) : Bool := ch.isAlphanum || ch ∈ ['.', '_', '%', '+', '-']

def isEmailRegexDomain (ch : Char) : Bool := ch.isAlphanum || ch ∈ ['.', '-']

/-- `\.[a-zA-Z]{2,}`, and how many characters it takes up. -/
def matchTopLevel : List Char → Option ℕ
  | '.' :: s => if 2 ≤ (s.takeWhile Char.isAlpha).length then
      some (1 + (s.takeWhile Char.isAlpha).length) else none
  | _ => none

/-- `[a-zA-Z0-9.-]*\.[a-zA-Z]{2,}`, the first part as long as it can be. -/
def matchDomain : List Char → Option ℕ
  | [] => none
  | ch :: s =>
      let longer := if isEmailRegexDomain ch then (matchDomain s).map (· + 1) else none
      longer.or (matchTopLevel (ch :: s))

/-- `@[a-zA-Z0-9.-]+\.[a-zA-Z]{2,}`. -/
def matchAt : List Char → Option ℕ
  | '@' :: ch :: s => if isEmailRegexDomain ch then (matchDomain s).map (· + 2) else none
  | _ => none

/-- `[a-zA-Z0-9._%+-]*@[a-zA-Z0-9.-]+\.[a-zA-Z]{2,}`. -/
def matchLocal : List Char → Option ℕ
  | [] => none
  | ch :: s =>
      let longer := if isEmailRegexLocal ch then (matchLocal s).map (· + 1) else none
      longer.or (matchAt (ch :: s))

/-- The length of the match that starts here. -/
def matchEmail : List Char → Option ℕ
  | [] => none
  | ch :: s => if isEmailRegexLocal ch then (matchLocal s).map (· + 1) else none

/-- The text after the first `n` characters, which belong to the match before. -/
def replaceEmailsFrom : ℕ → List Char → List Char
  | _, [] => []
  | n + 1, _ :: s => replaceEmailsFrom n s
  | 0, ch :: s =>
      match matchEmail (ch :: s) with
      | some n => "[REDACTED]".toList ++ replaceEmailsFrom (n - 1) s
      | none => ch :: replaceEmailsFrom 0 s

/-- `json.replace(EMAIL_REGEX, "[REDACTED]")`. -/
def replaceEmails (json : List Char) : List Char := replaceEmailsFrom 0 json

def redactPii {T : Type} [JsText T] [DecidableEq T] (payload : JsonOf T) : String :=
  String.ofList (replaceEmails (stringifyValue (blockedPaths.foldl deleteNestedPath payload)))

example : replaceEmails "\"a@b, user1+tag@sub.club.co.uk!\"".toList =
    "\"a@b, [REDACTED]!\"".toList := by decide

/-! ### Payloads that differ at given paths only -/

/-- What is left of the paths that begin with the name. -/
def pathsBelow (name : String) (paths : List (List String)) : List (List String) :=
  paths.filterMap fun path => if path.head? = some name then some path.tail else none

/-- The two objects have the same fields in the same order, but for those that
a path leads to. These may have any values, and each of the objects may have
them or not. -/
inductive SameBut : List (List String) → List (String × Json) → List (String × Json) → Prop
  | nil (paths : List (List String)) : SameBut paths [] []
  | left {paths : List (List String)} {name : String} {fields others : List (String × Json)}
      (hpath : [name] ∈ paths) (value : Json) (hrest : SameBut paths fields others) :
      SameBut paths ((name, value) :: fields) others
  | right {paths : List (List String)} {name : String} {fields others : List (String × Json)}
      (hpath : [name] ∈ paths) (value : Json) (hrest : SameBut paths fields others) :
      SameBut paths fields ((name, value) :: others)
  | same {paths : List (List String)} {fields others : List (String × Json)}
      (field : String × Json) (hrest : SameBut paths fields others) :
      SameBut paths (field :: fields) (field :: others)
  | nested {paths : List (List String)} {name : String}
      {inner inner' fields others : List (String × Json)}
      (hinner : SameBut (pathsBelow name paths) inner inner')
      (hrest : SameBut paths fields others) :
      SameBut paths ((name, .obj inner) :: fields) ((name, .obj inner') :: others)

theorem pathsBelow_nil (name : String) : pathsBelow name [] = [] := rfl

theorem pathsBelow_same (name : String) (path : List String) (paths : List (List String)) :
    pathsBelow name ((name :: path) :: paths) = path :: pathsBelow name paths :=
  List.filterMap_cons_some (if_pos rfl)

theorem pathsBelow_other {name : String} {path : List String} (h : path.head? ≠ some name)
    (paths : List (List String)) : pathsBelow name (path :: paths) = pathsBelow name paths :=
  List.filterMap_cons_none (if_neg h)

theorem deleteFields_last (name : String) (value : Json) (fields : List (String × Json)) :
    deleteFields [name] ((name, value) :: fields) = deleteFields [name] fields :=
  List.filter_cons_of_neg (by simp)

/-- A field that the path does not end at stays. -/
theorem deleteFields_cons {path : List String} {name : String} (h : path ≠ [name]) (value : Json)
    (fields : List (String × Json)) :
    deleteFields path ((name, value) :: fields) =
      (name, if path.head? = some name then inObject (deleteFields path.tail) value else value) ::
        deleteFields path fields := by
  cases path with
  | nil => rfl
  | cons part parts =>
      have hhead : (part :: parts).head? = some name ↔ name = part := by
        rw [List.head?_cons, Option.some_inj, eq_comm]
      simp only [hhead]
      cases parts with
      | nil =>
          have hne : name ≠ part := fun heq => h (heq ▸ rfl)
          rw [if_neg hne]
          exact List.filter_cons_of_pos (by simpa using hne)
      | cons next parts =>
          rw [deleteFields, List.map_cons]
          split
          · rfl
          · rfl

/-- Once a path is deleted from both, the objects no longer differ there. -/
theorem SameBut.deleteFields {path : List String} {paths : List (List String)}
    {fields others : List (String × Json)} (h : SameBut (path :: paths) fields others) :
    SameBut paths (deleteFields path fields) (deleteFields path others) := by
  -- Over the pair of documents; below a field the paths go on with the parts behind its name.
  generalize hall : path :: paths = all at h
  induction h generalizing path paths with
  | nil all =>
      have hnil : Shared.deleteFields path [] = [] := by
        cases path with
        | nil => rfl
        | cons part parts => cases parts <;> rfl
      rw [hnil]
      exact .nil paths
  | @left all name fields others hpath value hrest ih =>
      subst hall
      by_cases hlast : path = [name]
      · rw [hlast, deleteFields_last, ← hlast]
        exact ih rfl
      · rw [deleteFields_cons hlast]
        exact .left ((List.mem_cons.mp hpath).resolve_left (Ne.symm hlast)) _ (ih rfl)
  | @right all name fields others hpath value hrest ih =>
      subst hall
      by_cases hlast : path = [name]
      · rw [hlast, deleteFields_last, ← hlast]
        exact ih rfl
      · rw [deleteFields_cons hlast]
        exact .right ((List.mem_cons.mp hpath).resolve_left (Ne.symm hlast)) _ (ih rfl)
  | @same all fields others field hrest ih =>
      obtain ⟨name, value⟩ := field
      by_cases hlast : path = [name]
      · rw [hlast, deleteFields_last, deleteFields_last, ← hlast]
        exact ih hall
      · rw [deleteFields_cons hlast, deleteFields_cons hlast]
        exact .same _ (ih hall)
  | @nested all name inner inner' fields others hinner hrest ihinner ih =>
      subst hall
      by_cases hlast : path = [name]
      · rw [hlast, deleteFields_last, deleteFields_last, ← hlast]
        exact ih rfl
      · rw [deleteFields_cons hlast, deleteFields_cons hlast]
        by_cases hhead : path.head? = some name
        · obtain ⟨parts, rfl⟩ := List.head?_eq_some_iff.mp hhead
          rw [if_pos hhead, if_pos hhead]
          exact .nested (ihinner (pathsBelow_same name parts paths).symm) (ih rfl)
        · rw [if_neg hhead, if_neg hhead]
          rw [pathsBelow_other hhead] at hinner
          exact .nested hinner (ih rfl)

theorem SameBut.eq {fields others : List (String × Json)} (h : SameBut [] fields others) :
    fields = others := by
  generalize hall : [] = all at h
  induction h with
  | nil all => rfl
  | left hpath value hrest ih => exact absurd (hall ▸ hpath) List.not_mem_nil
  | right hpath value hrest ih => exact absurd (hall ▸ hpath) List.not_mem_nil
  | same field hrest ih => rw [ih hall]
  | nested hinner hrest ihinner ih =>
      subst hall
      rw [ih rfl, ihinner (pathsBelow_nil _).symm]

/-- What is left once every path is deleted does not depend on the fields there. -/
theorem SameBut.deleteNestedPaths {paths : List String} {fields others : List (String × Json)}
    (h : SameBut (paths.map pathParts) fields others) :
    paths.foldl deleteNestedPath (.obj fields) = paths.foldl deleteNestedPath (.obj others) := by
  induction paths generalizing fields others with
  | nil => exact congrArg JsonOf.obj h.eq
  | cons path paths ih => exact ih h.deleteFields

theorem redactPii_sameBut {fields others : List (String × Json)}
    (h : SameBut (blockedPaths.map pathParts) fields others) :
    redactPii (.obj fields) = redactPii (.obj others) := by
  rw [redactPii, redactPii, h.deleteNestedPaths]

end PureplayIngest.Shared
