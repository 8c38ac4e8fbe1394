import Mathlib.Algebra.Order.Ring.Rat
import PureplayIngest.Lib.Ensure
import PureplayIngest.Lib.Keyed

/-!
The statements of the migration files, and what PostgreSQL does on each.

`IF NOT EXISTS` looks at the name only. A statement is all or nothing, except
that an index built or dropped `CONCURRENTLY` and not to the end is left in the
catalogue and marked as invalid, which no query uses.
-/

namespace PureplayIngest.Migrations

open Lib

/-- Tables and indexes are both relations. -/
inductive ObjectName
  | type (name : String)
  | relation (name : String)
  deriving DecidableEq

/-- A column; what restricts its values is not part of it here. -/
inductive Column
  | builtin (name type : String)
  | enum (name type : String)
  | foreignKey (name type table column : String)
  deriving DecidableEq

inductive IndexColumn
  | asc (column : String)
  | desc (column : String)
  deriving DecidableEq

inductive Predicate
  | isNull (column : String)
  | isNotNull (column : String)
  deriving DecidableEq

structure Index where
  table : String
  key : List IndexColumn
  unique : Bool
  predicate : Option Predicate
  deriving DecidableEq

inductive Object
  | enum (labels : List String)
  | table (columns : List Column)
  | index (definition : Index)
  deriving DecidableEq

/-- The CHECK of `club_codes.category`. -/
inductive Category
  | wood | hybrid | iron | wedge | putter | unknown
  deriving DecidableEq

structure ClubCodeRow where
  club_code : String
  display_name : String
  category : Category
  loft_deg_min : Option ℚ
  loft_deg_max : Option ℚ
  excluded_from_distance_stats : Bool
  deriving DecidableEq

/-- The CHECK of `club_aliases.source`. -/
inductive AliasSource
  | seed | ops | autoSuggested
  deriving DecidableEq

structure ClubAliasRow where
  clubAlias : String
  club_code : String
  source : AliasSource
  deriving DecidableEq

inductive Statement
  | createType (name : String) (labels : List String)
  | createTable (name : String) (columns : List Column)
  | createIndex (concurrently : Bool) (name : String) (definition : Index)
  | dropIndex (concurrently : Bool) (name : String)
  | insertClubCodes (rows : List ClubCodeRow)
  | insertClubAliases (rows : List ClubAliasRow)
  deriving DecidableEq

def Column.name : Column → String
  | builtin name _ | enum name _ | foreignKey name _ _ _ => name

def IndexColumn.column : IndexColumn → String
  | asc column | desc column => column

def Predicate.column : Predicate → String
  | isNull column | isNotNull column => column

def Object.isEnum : Object → Bool
  | .enum _ => true
  | _ => false

def Object.hasColumns (names : List String) : Object → Bool
  | .table columns => names.all fun name => (columns.map Column.name).contains name
  | _ => false

def Object.isIndex : Object → Bool
  | .index _ => true
  | _ => false

/-- A table may refer to itself. -/
def Column.needs (owner : String) : Column → List (Need ObjectName Object)
  | builtin _ _ => []
  | enum _ type => [⟨.type type, Object.isEnum⟩]
  | foreignKey _ _ table column =>
      if table = owner then [] else [⟨.relation table, Object.hasColumns [column]⟩]

def Index.columns (definition : Index) : List String :=
  definition.key.map IndexColumn.column ++ definition.predicate.toList.map Predicate.column

namespace Statement

/-- What a statement refers to. -/
def needs : Statement → List (Need ObjectName Object)
  | createType _ _ | dropIndex _ _ => []
  | createTable name columns => columns.flatMap (Column.needs name)
  | createIndex _ _ definition =>
      [⟨.relation definition.table, Object.hasColumns definition.columns⟩]
  | insertClubCodes _ =>
      [⟨.relation "club_codes", Object.hasColumns ["club_code", "display_name", "category",
        "loft_deg_min", "loft_deg_max", "excluded_from_distance_stats"]⟩]
  | insertClubAliases _ =>
      [⟨.relation "club_aliases", Object.hasColumns ["alias", "club_code", "source"]⟩]

/-- The object a statement is about, and what there is to be of it. -/
def ensure : Statement → Option (Ensure ObjectName Object)
  | createType name labels => some ⟨.type name, some (.enum labels)⟩
  | createTable name columns => some ⟨.relation name, some (.table columns)⟩
  | createIndex _ name definition => some ⟨.relation name, some (.index definition)⟩
  | dropIndex _ name => some ⟨.relation name, none⟩
  | insertClubCodes _ | insertClubAliases _ => none

def clubCodes : Statement → List ClubCodeRow
  | insertClubCodes rows => rows
  | _ => []

def clubAliases : Statement → List ClubAliasRow
  | insertClubAliases rows => rows
  | _ => []

def dropped : Statement → Option String
  | dropIndex _ name => some name
  | _ => none

/-- The index that a statement leaves invalid when it is not run to the end. -/
def concurrentIndex : Statement → Option String
  | createIndex true name _ | dropIndex true name => some name
  | _ => none

end Statement

/-- The catalogue, which indexes are marked as invalid, and the rows of the two
tables that a migration writes. -/
structure Db where
  objects : ObjectName → Option Object
  invalid : String → Bool
  club_codes : Keyed ClubCodeRow.club_code
  club_aliases : Keyed ClubAliasRow.clubAlias

namespace Db

def empty : Db := ⟨fun _ => none, fun _ => false, .empty, .empty⟩

/-- `CREATE … IF NOT EXISTS`, and the same for a type by its exception handler. -/
def create (db : Db) (target : ObjectName) (object : Object)
    (needs : List (Need ObjectName Object)) : Option Db :=
  if (db.objects target).isSome then some db
  else if Ensure.Ready db.objects needs then
    some { db with objects := Function.update db.objects target (some object) }
  else none

/-- The columns are as long as the row's values. -/
def FitsCode (row : ClubCodeRow) : Prop :=
  row.club_code.length ≤ 8 ∧ row.display_name.length ≤ 64

def FitsAlias (row : ClubAliasRow) : Prop := row.clubAlias.length ≤ 128 ∧ row.club_code.length ≤ 8

/-- The foreign key of `club_aliases.club_code`. -/
def Refers (codes : Keyed ClubCodeRow.club_code) (rows : List ClubAliasRow) : Prop :=
  ∀ row ∈ rows, codes.Known row.club_code

instance (row : ClubCodeRow) : Decidable (FitsCode row) :=
  inferInstanceAs (Decidable (_ ∧ _))

instance (row : ClubAliasRow) : Decidable (FitsAlias row) :=
  inferInstanceAs (Decidable (_ ∧ _))

instance (codes : Keyed ClubCodeRow.club_code) (rows : List ClubAliasRow) :
    Decidable (Refers codes rows) :=
  inferInstanceAs (Decidable (∀ row ∈ rows, codes.Known row.club_code))

end Db

/-- The effect of a statement; `none` for an error. -/
def Statement.exec (db : Db) (s : Statement) : Option Db :=
  match s with
  | .createType name labels => db.create (.type name) (.enum labels) s.needs
  | .createTable name columns => db.create (.relation name) (.table columns) s.needs
  | .createIndex _ name definition => db.create (.relation name) (.index definition) s.needs
  | .dropIndex _ name =>
      match db.objects (.relation name) with
      | none => some db
      | some object =>
          if object.isIndex then
            some
              { db with
                objects := Function.update db.objects (.relation name) none
                invalid := Function.update db.invalid name false }
          -- `DROP INDEX` of a table
          else none
  | .insertClubCodes rows =>
      if Ensure.Ready db.objects s.needs ∧ ∀ row ∈ rows, Db.FitsCode row then
        some { db with club_codes := rows.foldl Keyed.add db.club_codes }
      else none
  | .insertClubAliases rows =>
      if Ensure.Ready db.objects s.needs ∧ (∀ row ∈ rows, Db.FitsAlias row) ∧
          -- A row that conflicts is not inserted, and its foreign key not looked at.
          Db.Refers db.club_codes
            (rows.filter fun row => ¬ db.club_aliases.Known row.clubAlias) then
        some { db with club_aliases := rows.foldl Keyed.add db.club_aliases }
      else none

/-- A statement that is stopped between its transactions; `none` when it has one only. -/
def Statement.halfway (db : Db) (s : Statement) : Option Db :=
  match s with
  | .createIndex true name definition =>
      if (db.objects (.relation name)).isSome then none
      else if Ensure.Ready db.objects s.needs then
        some
          { db with
            objects := Function.update db.objects (.relation name) (some (.index definition))
            invalid := Function.update db.invalid name true }
      else none
  | .dropIndex true name =>
      match db.objects (.relation name) with
      | some (.index _) => some { db with invalid := Function.update db.invalid name true }
      | _ => none
  | _ => none

/-! ### What a statement can do -/

theorem Db.create_eq {db db' : Db} {target : ObjectName} {object : Object}
    {needs : List (Need ObjectName Object)} (h : db.create target object needs = some db') :
    db' = { db with objects := Ensure.apply db.objects ⟨target, some object⟩ } := by
  rw [create] at h
  split at h
  · rename_i hthere
    obtain ⟨old, hold⟩ := Option.isSome_iff_exists.mp hthere
    obtain rfl := Option.some.inj h
    have hsame : Ensure.apply db.objects ⟨target, some object⟩ = db.objects := by
      rw [Ensure.apply, Option.map_some, hold, Option.getD_some, ← hold, Function.update_eq_self]
    rw [hsame]
  · rename_i hthere
    split at h
    · obtain rfl := Option.some.inj h
      rw [Option.not_isSome_iff_eq_none] at hthere
      rw [Ensure.apply, Option.map_some, hthere, Option.getD_none]
    · cases h

theorem Db.create_of_ready {db : Db} {target : ObjectName} {object : Object}
    {needs : List (Need ObjectName Object)} (h : Ensure.Ready db.objects needs) :
    ∃ db', db.create target object needs = some db' := by
  rw [create, if_pos h]
  split
  · exact ⟨_, rfl⟩
  · exact ⟨_, rfl⟩

namespace Statement

theorem stays_of_not_dropped {s : Statement} {name : String} (h : s.dropped ≠ some name) :
    Ensure.Stays s.ensure.toList (.relation name) := by
  intro e he htarget
  rw [Option.mem_toList] at he
  cases s with
  | createType | createTable | createIndex =>
      obtain rfl := Option.some.inj he
      rfl
  | dropIndex concurrently dropped =>
      obtain rfl := Option.some.inj he
      obtain rfl := ObjectName.relation.inj htarget
      exact absurd rfl h
  | insertClubCodes | insertClubAliases => cases he

/-- What a statement has done when there was no error. -/
structure Effect (db : Db) (s : Statement) (db' : Db) : Prop where
  objects : db'.objects = s.ensure.toList.foldl Ensure.apply db.objects
  invalid : db'.invalid = db.invalid ∧
      (∀ name, s.dropped = some name → db.objects (.relation name) = none) ∨
    ∃ name, s.dropped = some name ∧ db'.invalid = Function.update db.invalid name false
  club_codes : db'.club_codes = s.clubCodes.foldl Keyed.add db.club_codes
  club_aliases : db'.club_aliases = s.clubAliases.foldl Keyed.add db.club_aliases

theorem exec_effect {db db' : Db} {s : Statement} (h : s.exec db = some db') :
    s.Effect db db' := by
  cases s with
  | createType name labels =>
      obtain rfl := Db.create_eq h
      exact ⟨rfl, .inl ⟨rfl, fun _ h => by cases h⟩, rfl, rfl⟩
  | createTable name columns =>
      obtain rfl := Db.create_eq h
      exact ⟨rfl, .inl ⟨rfl, fun _ h => by cases h⟩, rfl, rfl⟩
  | createIndex concurrently name definition =>
      obtain rfl := Db.create_eq h
      exact ⟨rfl, .inl ⟨rfl, fun _ h => by cases h⟩, rfl, rfl⟩
  | dropIndex concurrently name =>
      rw [exec] at h
      split at h
      · rename_i habsent
        obtain rfl := Option.some.inj h
        refine ⟨?_, .inl ⟨rfl, fun n hn => ?_⟩, rfl, rfl⟩
        · exact (Function.update_eq_self_iff.mpr habsent.symm).symm
        · obtain rfl := Option.some.inj hn
          exact habsent
      · split at h
        · obtain rfl := Option.some.inj h
          exact ⟨rfl, .inr ⟨name, rfl, rfl⟩, rfl, rfl⟩
        · cases h
  | insertClubCodes rows =>
      rw [exec] at h
      split at h
      · obtain rfl := Option.some.inj h
        exact ⟨rfl, .inl ⟨rfl, fun _ h => by cases h⟩, rfl, rfl⟩
      · cases h
  | insertClubAliases rows =>
      rw [exec] at h
      split at h
      · obtain rfl := Option.some.inj h
        exact ⟨rfl, .inl ⟨rfl, fun _ h => by cases h⟩, rfl, rfl⟩
      · cases h

/-- An object that is there stays, when it is not the index that is dropped. -/
theorem Effect.isSome {db db' : Db} {s : Statement} (h : s.Effect db db') {name : String}
    (hthere : (db.objects (.relation name)).isSome = true) (hdropped : s.dropped ≠ some name) :
    (db'.objects (.relation name)).isSome = true := by
  rw [h.objects]
  exact Ensure.isSome_foldl_apply (stays_of_not_dropped hdropped) (.inl hthere)

/-- What is marked as invalid was so before. -/
theorem Effect.invalid_before {db db' : Db} {s : Statement} (h : s.Effect db db') {name : String}
    (hthere : db.invalid name = true → (db.objects (.relation name)).isSome = true)
    (hinvalid : db'.invalid name = true) :
    db.invalid name = true ∧ s.dropped ≠ some name := by
  obtain ⟨hsame, habsent⟩ | ⟨dropped, hdropped, hupdate⟩ := h.invalid
  · rw [hsame] at hinvalid
    refine ⟨hinvalid, fun hname => ?_⟩
    have := hthere hinvalid
    rw [habsent name hname] at this
    cases this
  · rw [hupdate] at hinvalid
    by_cases hname : name = dropped
    · subst hname
      rw [Function.update_self] at hinvalid
      cases hinvalid
    · rw [Function.update_of_ne hname] at hinvalid
      refine ⟨hinvalid, fun hdropped' => hname ?_⟩
      exact Option.some.inj (hdropped'.symm.trans hdropped)

/-- The rows are as the columns take them. -/
def Fits (s : Statement) : Prop :=
  (∀ row ∈ s.clubCodes, Db.FitsCode row) ∧ ∀ row ∈ s.clubAliases, Db.FitsAlias row

instance (s : Statement) : Decidable s.Fits := inferInstanceAs (Decidable (_ ∧ _))

/-- There is no error when all is there that the statement refers to. -/
theorem exec_of_ready {db : Db} {s : Statement} (hready : Ensure.Ready db.objects s.needs)
    (hindex : ∀ name, s.dropped = some name → ∀ o ∈ db.objects (.relation name), o.isIndex)
    (hfits : s.Fits) (hrefers : Db.Refers db.club_codes s.clubAliases) :
    ∃ db', s.exec db = some db' := by
  cases s with
  | createType name labels => exact Db.create_of_ready hready
  | createTable name columns => exact Db.create_of_ready hready
  | createIndex concurrently name definition => exact Db.create_of_ready hready
  | dropIndex concurrently name =>
      rw [exec]
      split
      · exact ⟨_, rfl⟩
      · rename_i object hobject
        exact ⟨_, if_pos (hindex name rfl object hobject)⟩
  | insertClubCodes rows => exact ⟨_, if_pos ⟨hready, hfits.1⟩⟩
  | insertClubAliases rows =>
      exact ⟨_, if_pos ⟨hready, hfits.2, fun row hrow => hrefers row (List.mem_of_mem_filter hrow)⟩⟩

/-- What is left of an index that was not built or dropped to the end. -/
theorem halfway_effect {db db' : Db} {s : Statement} (h : s.halfway db = some db') :
    ∃ name, s.concurrentIndex = some name ∧
      db'.invalid = Function.update db.invalid name true ∧
      (db'.objects (.relation name)).isSome = true ∧
      (db'.objects = db.objects ∨
        s.dropped = none ∧ db'.objects = s.ensure.toList.foldl Ensure.apply db.objects) ∧
      db'.club_codes = db.club_codes ∧ db'.club_aliases = db.club_aliases := by
  cases s with
  | createIndex concurrently name definition =>
      cases concurrently with
      | false => cases h
      | true =>
          rw [halfway] at h
          split at h
          · cases h
          · rename_i habsent
            split at h
            · obtain rfl := Option.some.inj h
              rw [Option.not_isSome_iff_eq_none] at habsent
              refine ⟨name, rfl, rfl, ?_, .inr ⟨rfl, ?_⟩, rfl, rfl⟩
              · show (Function.update db.objects (.relation name) _ (.relation name)).isSome = true
                rw [Function.update_self, Option.isSome_some]
              · show _ = Function.update db.objects (.relation name)
                  ((some (Object.index definition)).map fun o =>
                    (db.objects (.relation name)).getD o)
                rw [Option.map_some, habsent, Option.getD_none]
            · cases h
  | dropIndex concurrently name =>
      cases concurrently with
      | false => cases h
      | true =>
          rw [halfway] at h
          split at h
          · rename_i definition hthere
            obtain rfl := Option.some.inj h
            exact ⟨name, rfl, rfl, by rw [hthere, Option.isSome_some], .inl rfl, rfl, rfl⟩
          · cases h
  | createType => cases h
  | createTable => cases h
  | insertClubCodes => cases h
  | insertClubAliases => cases h

end Statement

end PureplayIngest.Migrations
