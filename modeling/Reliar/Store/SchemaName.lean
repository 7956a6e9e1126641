/-
# `Reliar.Store.SchemaName` — the schema a configured name denotes
(`reliar-store-postgres`: `error.rs`, `migrate.rs`, `store.rs`)

One string goes into five places: a quoted identifier, an unquoted one in SQL,
two texts PostgreSQL parses as identifiers, and an exact comparison.  The
accepted grammar is that of unquoted identifiers, which PostgreSQL folds to lower
case, so the five agree on the names that folding keeps.

sqlx's migrator is not part of the repository: it is a parameter here, and
`Documented` what is relied on.
-/
import Reliar.Lib.Identifiers
import Reliar.Store.Errors

namespace Reliar.Store.Postgres

open Reliar.Core Reliar.Outbox Identifiers

/-! ## The texts -/

def isValidSchemaName (schema : String) : Bool :=
  match schema.toList with
  | [] => false
  | first :: rest =>
      if !(first.isAlpha || first == '_') then false
      else decide (schema.utf8ByteSize ≤ 63) &&
        rest.all fun c => c.isAlphanum || c == '_' || c == '$'

/-- `schema.replace('"', "\"\"")`. -/
def doubleQuotes (schema : String) : String := String.ofList (escape schema.toList)

/-- The list `migrate` sets its connection's `search_path` to. -/
def migrationPath (schema : String) : String := "\"" ++ doubleQuotes schema ++ "\", public"

/-- The argument of `dangerous_set_table_name`. -/
def bookkeepingTable (schema : String) : String := schema ++ "._migrations"

/-- `qualified`, which `verify_schema` asks `to_regclass` for. -/
def qualifiedOutbox (schema : String) : String := schema ++ ".outbox"

/-- `wanted`, which `set_search_path` gives to `set_config`. -/
def wantedPath (schema : String) : String := schema ++ ",public"

/-! ## How PostgreSQL reads them -/

/-- `SET search_path`, `set_config` and the setting itself.  No name here is long enough to be
truncated. -/
def searchPath (text : String) : Option (List String) :=
  (split ',' text.toList).map (·.map fun ident => String.ofList ident.name)

/-- `to_regclass`'s argument. -/
def qualifiedName (text : String) : Option (List String) :=
  (split '.' text.toList).map (·.map fun ident => String.ofList ident.name)

/-- A reserved word is no identifier in SQL, unless it is quoted or follows a dot. -/
def startsReserved (reserved : String → Bool) : List Ident → Bool
  | .bare text :: _ => reserved (String.ofList (fold text))
  | _ => false

/-- A qualified name within an SQL statement. -/
def sqlName (reserved : String → Bool) (text : String) : Option (List String) :=
  (split '.' text.toList).bind fun idents =>
    if startsReserved reserved idents then none
    else some (idents.map fun ident => String.ofList ident.name)

/-- What a database has: schemas, those with a relation named `outbox`, and those whose
`_migrations` records the migration as applied. -/
structure Catalog where
  schemas : List String
  outboxes : List String
  recorded : List String
  outboxes_mem : ∀ n ∈ outboxes, n ∈ schemas
  recorded_mem : ∀ n ∈ recorded, n ∈ schemas

/-- The first schema of a path that is one of these. -/
def firstOf (names path : List String) : Option String := path.find? (names.contains ·)

/-- The schema the unqualified name `outbox` resolves to. -/
def Catalog.resolve (cat : Catalog) (path : List String) : Option String :=
  firstOf cat.outboxes path

/-- `to_regclass` of a qualified name: whether it is there. -/
def Catalog.toRegclass (cat : Catalog) (text : String) : Bool :=
  match qualifiedName text with
  | some [n, "outbox"] => decide (n ∈ cat.outboxes)
  | _ => false

/-! ## `connect` -/

structure SchemaCheck where
  resolvedSchema : Option String
  configuredExists : Bool
  searchPath : String

/-- `verify_schema`, over a session with this `search_path`; `failure` is the query's, if it
fails. -/
def verifySchema (cat : Catalog) (setting : String) (failure : Option SqlxError) (schema : String) :
    Except PostgresStoreError SchemaCheck :=
  match failure with
  | some err => .error (if isUndefinedTable err then .notMigrated schema else .database err)
  | none => .ok {
      resolvedSchema := cat.resolve ((Postgres.searchPath setting).getD [])
      configuredExists := cat.toRegclass (qualifiedOutbox schema)
      searchPath := setting }

def otherOutboxSchemas (cat : Catalog) (failure : Option SqlxError) (schema : String) :
    Except PostgresStoreError (List String) :=
  match failure with
  | some err => .error (.database err)
  | none => .ok (cat.outboxes.filter (· ≠ schema))

/-- `connect`, up to the store it returns: the schemas it warns of. -/
def connect (cat : Catalog) (setting : String) (failures : Option SqlxError × Option SqlxError)
    (schema : String) : Except PostgresStoreError (List String) :=
  if !isValidSchemaName schema then .error (.invalidSchema schema)
  else do
    let check ← verifySchema cat setting failures.1 schema
    if check.resolvedSchema ≠ some schema then
      if !check.configuredExists then .error (.notMigrated schema)
      else .error (.schemaResolution schema check.searchPath)
    else otherOutboxSchemas cat failures.2 schema

/-! ## `migrate` -/

/-- The fields of sqlx's `Migrator` that `migrate` sets. -/
structure Migrator where
  createSchemas : List String
  tableName : String
  locking : Bool

/-- `Migrator::run`, over a connection with this `search_path`. -/
abbrev MigratorRun (E : Type) := Migrator → List String → Catalog → Except E Catalog

inductive MigrateError (E : Type)
  | invalidSchema (schema : String)
  | sqlx (source : E)

def migrate {E : Type} (run : MigratorRun E) (schema : String) (cat : Catalog) :
    Except (MigrateError E) Catalog :=
  if !isValidSchemaName schema then .error (.invalidSchema schema)
  else
    let migrator := {
      createSchemas := [schema]
      tableName := bookkeepingTable schema
      locking := true }
    (run migrator ((searchPath (migrationPath schema)).getD []) cat).mapError .sqlx

/-- What a run that returned `Ok` has done.  The bookkeeping table is an SQL name, and it is there.
It had the migration recorded before, or the migration ran: `CREATE TABLE outbox`, unqualified,
makes it in the first schema of the path that exists. -/
structure Applied (reserved : String → Bool) (migrator : Migrator) (path : List String)
    (before after : Catalog) (n : String) : Prop where
  table : ∃ relation, sqlName reserved migrator.tableName = some [n, relation]
  recorded : n ∈ after.recorded
  skipped : n ∈ before.recorded → after.outboxes = before.outboxes
  created : n ∉ before.recorded → ∃ home, firstOf after.schemas path = some home ∧
    ∀ m, m ∈ after.outboxes ↔ m = home ∨ m ∈ before.outboxes

/-- sqlx's migrator does what its documentation says. -/
def Documented {E : Type} (reserved : String → Bool) (run : MigratorRun E) : Prop :=
  ∀ {migrator path before after}, run migrator path before = .ok after →
    ∃ n, Applied reserved migrator path before after n

/-! ## One schema -/

/-- Everything made from the name `schema` is about the schema `n`. -/
structure Denotes (reserved : String → Bool) (schema n : String) : Prop where
  migrationPath : ∃ rest, searchPath (migrationPath schema) = some (n :: rest)
  bookkeeping : ∃ relation, sqlName reserved (bookkeepingTable schema) = some [n, relation]
  regclass : ∃ relation, qualifiedName (qualifiedOutbox schema) = some [n, relation]
  nspname : n = schema
  wantedPath : ∃ rest, searchPath (wantedPath schema) = some (n :: rest)

/-- One name, one schema; and the store connects to what was migrated, over any session whose path
begins with the schema that holds the migration's `outbox`. -/
structure OneSchema (reserved : String → Bool) (cat : Catalog) (schema : String) : Prop where
  same : ∃ n, Denotes reserved schema n
  accepted : ∀ {E : Type} (run : MigratorRun E), Documented reserved run →
    ∀ migrated, migrate run schema cat = .ok migrated →
      ∀ home, migrated.resolve ((searchPath (Postgres.migrationPath schema)).getD []) = some home →
        ∀ setting rest, searchPath setting = some (home :: rest) →
          ∃ others, connect migrated setting (none, none) schema = .ok others

/-- The name reads as itself, and its bookkeeping does not already record a migration whose
`outbox` is in `public`. -/
structure ReadsItself (reserved : String → Bool) (cat : Catalog) (schema : String) : Prop where
  lower : ∀ c ∈ schema.toList, c.isUpper = false
  word : reserved schema = false
  home : schema ∈ cat.recorded → schema ∉ cat.outboxes → "public" ∉ cat.outboxes

section
variable {reserved : String → Bool} {schema : String}

/-! ## The names that are read -/

/-- What `is_valid_schema_name` accepts: a letter or `_`, then also digits and `$`. -/
theorem valid_cons (h : isValidSchemaName schema = true) :
    ∃ first rest, schema.toList = first :: rest ∧
      ((first :: rest).all fun c => c.isAlphanum || c == '_' || c == '$') = true := by
  unfold isValidSchemaName at h
  split at h
  · cases h
  · rename_i first rest htext
    refine ⟨first, rest, htext, ?_⟩
    split at h
    case isTrue => cases h
    case isFalse hfirst =>
      rw [Bool.and_eq_true] at h
      rw [Bool.not_eq_true', Bool.not_eq_false] at hfirst
      rw [List.all_cons, Bool.and_eq_true]
      refine ⟨?_, h.2⟩
      rcases Bool.or_eq_true_iff.mp hfirst with halpha | hunder
      · simp [Char.isAlphanum, halpha]
      · simp [hunder]

theorem plain_of_allowed {sep : Char} {text : List Char}
    (hsep : (sep.isAlphanum || sep == '_' || sep == '$') = false)
    (h : (text.all fun c => c.isAlphanum || c == '_' || c == '$') = true) : Plain sep text := by
  intro c hc
  have hallowed := List.all_eq_true.mp h c hc
  refine ⟨?_, ?_, ?_⟩
  · rintro rfl
    exact absurd hallowed (by decide)
  · rintro rfl
    rw [hsep] at hallowed
    cases hallowed
  · by_contra hspace
    rw [Bool.not_eq_false, isSpace, List.contains_iff_mem] at hspace
    simp only [List.mem_cons, List.not_mem_nil, or_false] at hspace
    rcases hspace with rfl | rfl | rfl | rfl | rfl | rfl <;> exact absurd hallowed (by decide)

/-- The name before a separator and a constant. -/
theorem split_schema {sep : Char} {rest : List Char} (h : isValidSchemaName schema = true)
    (hsep : (sep.isAlphanum || sep == '_' || sep == '$') = false) (hne : rest ≠ [])
    (hrest : Plain sep rest) :
    split sep (schema.toList ++ sep :: rest) = some [.bare schema.toList, .bare rest] := by
  obtain ⟨first, tail, htext, hallowed⟩ := valid_cons h
  rw [htext]
  exact split_bare (List.cons_ne_nil _ _) (plain_of_allowed hsep hallowed) hne hrest

/-- The name as PostgreSQL folds it. -/
def folded (schema : String) : String := String.ofList (fold schema.toList)

theorem folded_eq_self : folded schema = schema ↔ ∀ c ∈ schema.toList, c.isUpper = false := by
  rw [← fold_eq_self, folded, ← String.toList_inj, String.toList_ofList]

theorem searchPath_migrationPath : searchPath (migrationPath schema) = some [schema, "public"] := by
  have htext : (migrationPath schema).toList =
      '"' :: (escape schema.toList ++ ['"']) ++ ',' :: ' ' :: "public".toList := by
    simp [migrationPath, doubleQuotes]
  have hpublic : Plain ',' "public".toList := plain_of_allowed (by decide) (by decide)
  rw [searchPath, htext, split_quoted (by decide) (by decide) hpublic]
  simp only [Option.map_some, List.map_cons, List.map_nil, Ident.name, String.ofList_toList]
  rfl

theorem searchPath_wantedPath (h : isValidSchemaName schema = true) :
    searchPath (wantedPath schema) = some [folded schema, "public"] := by
  have hpublic : Plain ',' "public".toList := plain_of_allowed (by decide) (by decide)
  have htext : (wantedPath schema).toList = schema.toList ++ ',' :: "public".toList := by
    simp [wantedPath]
  rw [searchPath, htext, split_schema h (by decide) (by decide) hpublic]
  rfl

theorem qualifiedName_outbox (h : isValidSchemaName schema = true) :
    qualifiedName (qualifiedOutbox schema) = some [folded schema, "outbox"] := by
  have houtbox : Plain '.' "outbox".toList := plain_of_allowed (by decide) (by decide)
  have htext : (qualifiedOutbox schema).toList = schema.toList ++ '.' :: "outbox".toList := by
    simp [qualifiedOutbox]
  rw [qualifiedName, htext, split_schema h (by decide) (by decide) houtbox]
  rfl

theorem sqlName_bookkeeping (h : isValidSchemaName schema = true) :
    sqlName reserved (bookkeepingTable schema) =
      if reserved (folded schema) then none else some [folded schema, "_migrations"] := by
  have htable : Plain '.' "_migrations".toList := plain_of_allowed (by decide) (by decide)
  have htext : (bookkeepingTable schema).toList = schema.toList ++ '.' :: "_migrations".toList := by
    simp [bookkeepingTable]
  rw [sqlName, htext, split_schema h (by decide) (by decide) htable]
  rfl

/-- The five agree on the names that folding keeps and the grammar does not reserve. -/
theorem denotes_iff (h : isValidSchemaName schema = true) {n : String} :
    Denotes reserved schema n ↔
      n = schema ∧ folded schema = schema ∧ reserved schema = false := by
  constructor
  · rintro ⟨-, ⟨relation, htable⟩, ⟨_, hregclass⟩, rfl, -⟩
    rw [qualifiedName_outbox h, Option.some.injEq, List.cons.injEq] at hregclass
    refine ⟨rfl, hregclass.1, ?_⟩
    rw [sqlName_bookkeeping h, hregclass.1] at htable
    split at htable
    case isTrue => cases htable
    case isFalse hfree => exact Bool.eq_false_iff.mpr hfree
  · rintro ⟨rfl, hfold, hfree⟩
    refine ⟨⟨_, searchPath_migrationPath⟩, ⟨"_migrations", ?_⟩, ⟨"outbox", ?_⟩, rfl,
      ⟨["public"], ?_⟩⟩
    · rw [sqlName_bookkeeping h, hfold, hfree]
      rfl
    · rw [qualifiedName_outbox h, hfold]
    · rw [searchPath_wantedPath h, hfold]

/-! ## `connect` after `migrate` -/

theorem firstOf_of_mem {names path : List String} {n : String} (h : n ∈ names) :
    firstOf names (n :: path) = some n :=
  List.find?_cons_of_pos (List.contains_iff_mem.mpr h)

theorem firstOf_of_notMem {names path : List String} {n : String} (h : n ∉ names) :
    firstOf names (n :: path) = firstOf names path :=
  List.find?_cons_of_neg (mt List.contains_iff_mem.mp h)

theorem mem_of_firstOf {names path : List String} {n : String} (h : firstOf names path = some n) :
    n ∈ names := List.contains_iff_mem.mp (List.find?_some h)

/-- `connect` accepts exactly the session in which `outbox` is the configured schema's. -/
theorem connect_ok_iff (h : isValidSchemaName schema = true) {cat : Catalog} {setting : String} :
    (∃ others, connect cat setting (none, none) schema = .ok others) ↔
      cat.resolve ((searchPath setting).getD []) = some schema := by
  have hconnect : connect cat setting (none, none) schema =
      if cat.resolve ((searchPath setting).getD []) ≠ some schema then
        if !cat.toRegclass (qualifiedOutbox schema) then .error (.notMigrated schema)
        else .error (.schemaResolution schema setting)
      else .ok (cat.outboxes.filter (· ≠ schema)) := by
    rw [connect, h]
    rfl
  rw [hconnect]
  constructor
  · rintro ⟨others, hok⟩
    split at hok
    case isTrue => split at hok <;> cases hok
    case isFalse hresolve => exact not_not.mp hresolve
  · intro hresolve
    exact ⟨_, if_neg (not_not.mpr hresolve)⟩

theorem migrate_eq {E : Type} {run : MigratorRun E} (h : isValidSchemaName schema = true)
    (cat : Catalog) :
    migrate run schema cat =
      (run ⟨[schema], bookkeepingTable schema, true⟩ [schema, "public"] cat).mapError .sqlx := by
  rw [migrate, h, searchPath_migrationPath]
  rfl

/-- `Migrator::run` on a database of which nothing else is known: the schema is created, the one
migration applied. -/
def runOnce (reserved : String → Bool) : MigratorRun Unit := fun migrator path cat =>
  match sqlName reserved migrator.tableName with
  | some [n, _] =>
      if n ∈ cat.recorded then .ok cat
      else
        match hhome : firstOf (n :: cat.schemas) path with
        | none => .error ()
        | some home =>
            if home ∈ cat.outboxes then .error ()
            else .ok {
              schemas := n :: cat.schemas
              outboxes := home :: cat.outboxes
              recorded := n :: cat.recorded
              outboxes_mem := List.forall_mem_cons.mpr
                ⟨mem_of_firstOf hhome,
                  fun m hm => List.mem_cons_of_mem _ (cat.outboxes_mem m hm)⟩
              recorded_mem := List.forall_mem_cons.mpr
                ⟨List.mem_cons_self, fun m hm => List.mem_cons_of_mem _ (cat.recorded_mem m hm)⟩ }
  | _ => .error ()

/-- There is nothing left to do. -/
theorem runOnce_recorded {migrator : Migrator} {n relation : String} {cat : Catalog}
    (path : List String) (h : n ∈ cat.recorded)
    (htable : sqlName reserved migrator.tableName = some [n, relation]) :
    runOnce reserved migrator path cat = .ok cat := by
  unfold runOnce
  rw [htable]
  exact if_pos h

theorem runOnce_documented : Documented reserved (runOnce reserved) := by
  intro migrator path before after h
  unfold runOnce at h
  split at h
  case h_1 n relation hname =>
    split at h
    case isTrue hrecorded =>
      cases h
      exact ⟨n, ⟨relation, hname⟩, hrecorded, fun _ => rfl, fun hnot => absurd hrecorded hnot⟩
    case isFalse hrecorded =>
      split at h
      · cases h
      · rename_i home hhome
        split at h
        · cases h
        · cases h
          exact ⟨n, ⟨relation, hname⟩, List.mem_cons_self, fun hin => absurd hin hrecorded,
            fun _ => ⟨home, hhome, fun m => List.mem_cons⟩⟩
  case h_2 => cases h

theorem ReadsItself.accepted {cat : Catalog} (h : isValidSchemaName schema = true)
    (hreads : ReadsItself reserved cat schema) {E : Type} {run : MigratorRun E}
    (hrun : Documented reserved run) {migrated : Catalog}
    (hmigrate : migrate run schema cat = .ok migrated) {home : String}
    (hhome : migrated.resolve [schema, "public"] = some home) : home = schema := by
  have hfold : folded schema = schema := folded_eq_self.mpr hreads.lower
  rw [migrate_eq h] at hmigrate
  cases hresult : run ⟨[schema], bookkeepingTable schema, true⟩ [schema, "public"] cat with
  | error err => rw [hresult] at hmigrate; cases hmigrate
  | ok after =>
      rw [hresult] at hmigrate
      cases hmigrate
      obtain ⟨n, ⟨relation, htable⟩, hrecorded, hskipped, hcreated⟩ := hrun hresult
      have hn : n = schema := by
        rw [sqlName_bookkeeping h, hfold, hreads.word] at htable
        simp only [Bool.false_eq_true, if_false, Option.some.injEq, List.cons.injEq] at htable
        exact htable.1.symm
      subst hn
      by_cases hin : n ∈ migrated.outboxes
      · rw [Catalog.resolve, firstOf_of_mem hin] at hhome
        exact (Option.some.inj hhome).symm
      · by_cases hbefore : n ∈ cat.recorded
        -- the migration was skipped, so the outbox found is one from before
        · rw [hskipped hbefore] at hin
          have hpublic := hreads.home hbefore hin
          rw [Catalog.resolve, hskipped hbefore, firstOf_of_notMem hin,
            firstOf_of_notMem hpublic] at hhome
          cases hhome
        -- it ran, in the first schema of its path, which exists
        · obtain ⟨created, hfirst, houtboxes⟩ := hcreated hbefore
          rw [firstOf_of_mem (migrated.recorded_mem n hrecorded)] at hfirst
          exact absurd ((houtboxes n).mpr (.inl (Option.some.inj hfirst))) hin

/-- For every accepted name, whatever words SQL reserves and whatever the database holds: the name
is one schema, and what was migrated with it can be connected to with it, exactly when it has no
upper-case letter, is no reserved word, and its bookkeeping does not already record a migration
that went to `public`. -/
theorem one_schema_iff (h : isValidSchemaName schema = true) (cat : Catalog) :
    OneSchema reserved cat schema ↔ ReadsItself reserved cat schema := by
  constructor
  · rintro ⟨⟨n, hdenotes⟩, haccepted⟩
    obtain ⟨-, hfold, hword⟩ := (denotes_iff h).mp hdenotes
    refine ⟨folded_eq_self.mp hfold, hword, fun hrecorded hout hpublic => ?_⟩
    have hmigrate : migrate (runOnce reserved) schema cat = .ok cat := by
      rw [migrate_eq h, runOnce_recorded _ hrecorded]
      · rfl
      · rw [sqlName_bookkeeping h, hfold, hword]
        rfl
    have hhome : cat.resolve [schema, "public"] = some "public" := by
      rw [Catalog.resolve, firstOf_of_notMem hout, firstOf_of_mem hpublic]
    rw [searchPath_migrationPath] at haccepted
    have hpath : searchPath "public,public" = some ["public", "public"] := by decide
    have hconnect := haccepted (runOnce reserved) runOnce_documented cat hmigrate "public" hhome
      "public,public" ["public"] hpath
    rw [connect_ok_iff h, hpath, Option.getD_some, Catalog.resolve, firstOf_of_mem hpublic,
      Option.some.injEq] at hconnect
    exact hout (hconnect ▸ hpublic)
  · intro hreads
    have hfold : folded schema = schema := folded_eq_self.mpr hreads.lower
    refine ⟨⟨schema, (denotes_iff h).mpr ⟨rfl, hfold, hreads.word⟩⟩, ?_⟩
    intro E run hrun migrated hmigrate home hhome setting rest hsetting
    rw [searchPath_migrationPath] at hhome
    obtain rfl := hreads.accepted h hrun hmigrate hhome
    rw [connect_ok_iff h, hsetting, Option.getD_some, Catalog.resolve]
    exact firstOf_of_mem (mem_of_firstOf hhome)

end

/-- A new database. -/
def freshCatalog : Catalog where
  schemas := ["public"]
  outboxes := []
  recorded := []
  outboxes_mem := by simp
  recorded_mem := by simp

theorem one_schema_default : isValidSchemaName "reliar" = true ∧
    OneSchema (fun word => word == "select") freshCatalog "reliar" := by
  refine ⟨by decide, (one_schema_iff (by decide) freshCatalog).mpr ⟨?_, by decide, ?_⟩⟩
  · exact fun c hc => Bool.eq_false_iff.mpr fun hupper =>
      absurd (List.any_eq_true.mpr ⟨c, hc, hupper⟩) (by decide)
  · intro hrecorded
    cases hrecorded

/-- The schema spelt with a capital: the connection's path names a schema that is not there, so the
migration goes to `public`, and `connect` looks for it in the schema of the bookkeeping. -/
theorem capital_rejected :
    isValidSchemaName "Reliar" = true ∧
      (∃ migrated, migrate (runOnce fun _ => false) "Reliar" freshCatalog = .ok migrated ∧
        migrated.schemas = ["reliar", "public"] ∧ migrated.outboxes = ["public"] ∧
        connect migrated "public" (none, none) "Reliar" = .error (.notMigrated "Reliar")) ∧
      ¬ OneSchema (fun _ => false) freshCatalog "Reliar" := by
  refine ⟨by decide, ⟨_, rfl, rfl, rfl, rfl⟩, ?_⟩
  rintro ⟨⟨n, hdenotes⟩, -⟩
  have hfold := ((denotes_iff (by decide)).mp hdenotes).2.1
  exact absurd hfold (by decide)

end Reliar.Store.Postgres
