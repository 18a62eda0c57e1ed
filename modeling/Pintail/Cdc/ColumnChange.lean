import Pintail.Cdc.Error
import Pintail.Compaction.Shown
import Pintail.Probe.Source

/-! # Column changes in place

An `ALTER TABLE` that adds and drops columns is applied to the tracked table as the statement left
it, or, where the statement does not say enough, as the source shows it. The tracked columns hand on
their stable identifiers by name and the others are numbered above every recorded generation.
-/

namespace Pintail.Cdc

open SourceTable List TableStore
open Except hiding error

inductive AddedPosition
  | first
  | after (column : String)
  | last

structure AddedColumn where
  name : String
  declaredType : String
  plainNullable : Bool
  fillDeclared : Bool
  nullable : Bool
  virtualGenerated : Bool
  position : AddedPosition

/-- What the SQL parser and the rules on column types, declarations and fills answer. -/
structure Rules where
  addedColumns : String → Option (List AddedColumn)
  declaredColumn : AddedColumn → Except String SourceColumn
  judge : Probe.ColumnChange
  addedFill : SourceColumn → Except String (Option Value)
  name_declaredColumn : ∀ {declaration column}, declaredColumn declaration = .ok column →
    column.name = declaration.name

/-- A recorded generation of a table; `none` where the record cannot be read. -/
structure SchemaRecord where
  version : UInt32
  columns : Option (List SourceColumn)

abbrev SchemaHistory := List SchemaRecord

namespace SchemaHistory

def record (version : UInt32) (columns : List SourceColumn) (history : SchemaHistory) :
    SchemaHistory :=
  history.filter (·.version ≠ version) ++ [⟨version, some columns⟩]

def forget (version : UInt32) (history : SchemaHistory) : SchemaHistory :=
  history.filter (·.version ≠ version)

def columns (history : SchemaHistory) : List SourceColumn :=
  (history.filterMap SchemaRecord.columns).flatten

end SchemaHistory

structure CdcTarget where
  source : SourceTable
  store : TableStore

def named (names : List String) (name : String) : Bool := names.any fun other => sameName other name

theorem named_iff {names : List String} {name : String} :
    named names name = true ↔ ∃ other ∈ names, sameName other name = true := any_eq_true

section Statement

variable (rules : Rules) (tracked probed : SourceTable) (statement : String)
  (added dropped : List String)

/-- The columns a statement adds that a probe leaves out by design. -/
def addedColumnsTheProbeSkips : List String :=
  let expected := tracked.sourceColumnCount.toNat + added.length - dropped.length
  if probed.sourceColumnCount.toNat ≠ expected then []
  else (((rules.addedColumns statement).getD []).filter (·.virtualGenerated)).map (·.name)

/-- Whether the probed table is no longer what the statement left. -/
def sourceMovedPast (everyColumnTracked : Bool) : Bool :=
  let skipped := if everyColumnTracked then []
    else addedColumnsTheProbeSkips rules tracked probed statement added dropped
  dropped.any probed.hasColumn ||
    added.any fun name =>
      (!probed.hasColumn name && !named skipped name) || tracked.hasColumn name

def placeColumnsInOrder (table : SourceTable) : Except String SourceTable :=
  if table.columns.length ≥ 2 ^ 32 then
    .error "out of range integral type conversion attempted"
  else .ok { table with
    columns := table.columns.mapIdx fun position column =>
      { column with ordinal := UInt32.ofNat (position + 1) }
    sourceColumnCount := UInt32.ofNat table.columns.length }

def dropColumns (table : SourceTable) : List String → Except String SourceTable
  | [] => .ok table
  | name :: names =>
    if named tracked.key.columns name then .error s!"it drops the key column {name}"
    else dropColumns
      { table with columns := table.columns.filter fun column => !sameName column.name name } names

def positionOf (table : SourceTable) (name : String) : AddedPosition → Except String ℕ
  | .first => .ok 0
  | .last => .ok table.columns.length
  | .after other =>
    match table.columns.findIdx? fun column => sameName column.name other with
    | some position => .ok (position + 1)
    | none => .error s!"column {name} follows {other}, which is not tracked"

def addColumn (declarations : List AddedColumn) (movedPast : Bool) (table : SourceTable)
    (name : String) : Except String SourceTable :=
  match declarations.find? fun declaration => sameName declaration.name name with
  | none => .error s!"the definition of column {name} cannot be read"
  | some declaration =>
    if !(declaration.plainNullable || movedPast && declaration.fillDeclared) then
      .error <| s!"column {name} is declared with more than a nullable type, " ++
        "which the rows already copied may need values for"
    else if !declaration.plainNullable && table.hasColumn name then .ok table
    else
      match rules.declaredColumn declaration with
      | .error reason => .error reason
      | .ok column =>
        match table.column? name with
        | some existing =>
          if existing.mysqlColumnType = column.mysqlColumnType &&
              existing.nullable = column.nullable then .ok table
          else .error s!"column {name} is already tracked under another declaration"
        | none =>
          match positionOf table name declaration.position with
          | .error reason => .error reason
          | .ok position => .ok { table with columns := table.columns.insertIdx position column }

/-- The table as the statement left it, worked out from the tracked table and the statement. -/
def schemaAsOf (everyColumnTracked movedPast : Bool) : Except String SourceTable :=
  if !everyColumnTracked then
    .error <| "the table has source columns the mirror does not hold, so the statement alone " ++
      "does not place its columns in a row image"
  else
    match rules.addedColumns statement with
    | none => .error "its column definitions cannot be read"
    | some declarations => do
      let table ← dropColumns tracked tracked dropped
      let table ← added.foldlM (addColumn rules declarations movedPast) table
      placeColumnsInOrder table

end Statement

section Renumber

variable (previous : SourceTable)

def renumberFrom (floor next : UInt32) : List SourceColumn → Except CdcError (List SourceColumn)
  | [] => .ok []
  | column :: columns =>
    if !previous.hasColumn column.name && column.id ≤ floor then
      match Words.next? next with
      | none => .error (.ddl "stable column ID space is exhausted")
      | some next => do return { column with id := next } :: (← renumberFrom floor next columns)
    else do return column :: (← renumberFrom floor next columns)

/-- Every column new to the previous table gets an identifier no recorded generation has used. -/
def renumberReaddedColumns (history : SchemaHistory) (source : SourceTable) :
    Except CdcError SourceTable := do
  let floor := highestId (history.columns ++ previous.columns)
  return { source with columns := ← renumberFrom previous floor floor source.columns }

/-- The fill of every column new to the previous table is recorded with it. -/
def resolveAddedFills (rules : Rules) (refreshed : SourceTable) : Except String SourceTable := do
  let columns ← refreshed.columns.mapM fun column =>
    if previous.hasColumn column.name then .ok column
    else
      match rules.addedFill column with
      | .ok fill => .ok { column with absentFill := fill }
      | .error reason => .error <|
        s!"column {column.name} joined the schema with values the rows already copied need, " ++
          s!"and {reason}; the table is recopied instead of evolved in place"
  return { refreshed with columns }

end Renumber

inductive ColumnChange
  | alreadyApplied
  | quarantined (reason : String) (history : SchemaHistory)
  | adopted (target : CdcTarget) (history : SchemaHistory)

def nextSchemaVersion (version : UInt32) : Except CdcError UInt32 :=
  match Words.next? version with
  | some version => .ok version
  | none => .error (.ddl "table schema version exceeds UInt32")

def quarantineSchemaChange (history : SchemaHistory) (target : CdcTarget) (reason : String) :
    Except CdcError ColumnChange := do
  let version ← nextSchemaVersion target.store.schema.version
  return .quarantined reason (history.record version target.source.columns)

section Apply

variable (world : World) (rules : Rules) (history : SchemaHistory) (target : CdcTarget)
  (statement : String)

/-- Record the new generation and evolve the storage to it; a store that refuses takes the record
back. -/
def evolveTrackedSchema (source : SourceTable) (version : UInt32) (schema : TableSchema) :
    Except CdcError ColumnChange :=
  let recorded := history.record version source.columns
  let outcome := evolveSchema world schema target.store
  match outcome.result with
  | .ok () => .ok (.adopted { source, store := outcome.final } recorded)
  | .error error =>
    quarantineSchemaChange (recorded.forget version) target s!"{statement}; {repr error}"

def adoptSource (source : SourceTable) : Except CdcError ColumnChange :=
  match Probe.stabilizeSourceTable rules.judge target.source source with
  | .error reason => quarantineSchemaChange history target s!"{statement}; {reason}"
  | .ok source => do
    let source ← renumberReaddedColumns target.source history source
    match resolveAddedFills target.source rules source with
    | .error reason => quarantineSchemaChange history target s!"{statement}; {reason}"
    | .ok source => do
      let version ← nextSchemaVersion target.store.schema.version
      match source.tableSchemaWithVersion version with
      | .error error => .error (.schema error)
      | .ok schema => evolveTrackedSchema world history target statement source version schema

def applyColumnChange (probed : SourceTable) (added dropped : List String)
    (everyColumnTracked : Bool) : Except CdcError ColumnChange :=
  let movedPast :=
    sourceMovedPast rules target.source probed statement added dropped everyColumnTracked
  match schemaAsOf rules target.source statement added dropped everyColumnTracked movedPast with
  | .ok asOf =>
    if asOf.columns = target.source.columns then .ok .alreadyApplied
    else adoptSource world rules history target statement asOf
  | .error reason =>
    if movedPast then
      quarantineSchemaChange history target <|
        s!"{statement}; the source's schema has already moved past this statement " ++
          s!"and {reason}, so the table is recopied instead of evolved in place"
    else adoptSource world rules history target statement probed

end Apply

section Columns

variable {rules : Rules} {tracked asOf : SourceTable} {added dropped : List String} {name : String}
  {table result : SourceTable}

theorem hasColumn_dropColumns (h : dropColumns tracked table dropped = .ok result)
    (hn : named dropped name = false) (ht : table.hasColumn name = true) :
    result.hasColumn name = true := by
  induction dropped generalizing table with
  | nil =>
    cases h
    exact ht
  | cons first dropped ih =>
    rw [dropColumns] at h
    split at h
    · cases h
    · rw [named, any_cons, Bool.or_eq_false_iff] at hn
      apply ih h hn.2
      obtain ⟨column, hc, hname⟩ := hasColumn_iff.mp ht
      refine hasColumn_iff.mpr ⟨column, mem_filter.mpr ⟨hc, ?_⟩, hname⟩
      rw [sameName_congr hname, sameName_comm, hn.1]
      rfl

theorem positionOf_le {table : SourceTable} {position : AddedPosition} {i : ℕ} :
    positionOf table name position = .ok i → i ≤ table.columns.length := by
  fun_cases positionOf table name position with
  | case1 | case2 =>
    rintro ⟨⟩
    omega
  | case3 other found hfound =>
    rintro ⟨⟩
    exact (findIdx?_eq_some_iff_getElem.mp hfound).1
  | case4 => nofun

variable {declarations : List AddedColumn} {movedPast : Bool}

theorem of_addColumn :
    addColumn rules declarations movedPast table name = .ok result →
      result.hasColumn name = true ∧ ∀ column ∈ table.columns, column ∈ result.columns := by
  fun_cases addColumn rules declarations movedPast table name with
  | case3 declaration _ _ hhas =>
    rintro ⟨⟩
    exact ⟨(Bool.and_eq_true_iff.mp hhas).2, fun _ => id⟩
  | case5 declaration _ _ _ column _ existing hex =>
    rintro ⟨⟩
    refine ⟨?_, fun _ => id⟩
    rw [← column?_isSome, hex]
    rfl
  | case8 declaration hd _ _ column hcolumn _ position hp =>
    rintro ⟨⟩
    refine ⟨hasColumn_iff.mpr ⟨column, ?_, ?_⟩, fun _ hmem =>
      subset_insertIdx _ _ _ hmem⟩
    · exact (mem_insertIdx (positionOf_le hp)).mpr (.inl rfl)
    · rw [rules.name_declaredColumn hcolumn]
      simpa using find?_some hd
  | _ => nofun

theorem of_foldlM_addColumn
    (h : added.foldlM (addColumn rules declarations movedPast) table = .ok result) :
    (∀ name ∈ added, result.hasColumn name = true) ∧
      ∀ column ∈ table.columns, column ∈ result.columns := by
  induction added generalizing table with
  | nil =>
    cases h
    exact ⟨nofun, fun _ => id⟩
  | cons first added ih =>
    obtain ⟨table', hfirst, h⟩ := bind_eq_ok.mp h
    obtain ⟨hadded, hkept⟩ := of_addColumn hfirst
    obtain ⟨hrest, hrest'⟩ := ih h
    refine ⟨?_, fun column hc => hrest' column (hkept column hc)⟩
    intro name hname
    rcases mem_cons.mp hname with rfl | hname
    · exact hasColumn_mono hrest' hadded
    · exact hrest name hname

theorem hasColumn_placeColumnsInOrder (h : placeColumnsInOrder table = .ok result)
    (ht : table.hasColumn name = true) : result.hasColumn name = true := by
  unfold placeColumnsInOrder at h
  split at h
  · cases h
  · cases h
    obtain ⟨column, hc, hsame⟩ := hasColumn_iff.mp ht
    obtain ⟨i, hi, rfl⟩ := mem_iff_getElem.mp hc
    refine hasColumn_iff.mpr ⟨_, mem_mapIdx.mpr ⟨i, hi, rfl⟩, hsame⟩

theorem hasColumn_schemaAsOf {statement : String} {everyColumnTracked : Bool}
    (h : schemaAsOf rules tracked statement added dropped everyColumnTracked movedPast = .ok asOf)
    (hname : name ∈ added ∨ tracked.hasColumn name = true ∧ named dropped name = false) :
    asOf.hasColumn name = true := by
  unfold schemaAsOf at h
  split at h
  · cases h
  split at h
  · cases h
  obtain ⟨kept, hkept, h⟩ := bind_eq_ok.mp h
  obtain ⟨table, htable, hplaced⟩ := bind_eq_ok.mp h
  obtain ⟨hadded, hrest⟩ := of_foldlM_addColumn htable
  apply hasColumn_placeColumnsInOrder hplaced
  rcases hname with hname | ⟨ht, hn⟩
  · exact hadded name hname
  · exact hasColumn_mono hrest (hasColumn_dropColumns hkept hn ht)

end Columns

section Identifiers

open Probe

variable {previous : SourceTable} {floor : UInt32}

theorem forall₂_renumberFrom {next : UInt32} {columns result : List SourceColumn}
    (hle : floor ≤ next) (h : renumberFrom previous floor next columns = .ok result) :
    List.Forall₂ (fun column new => new.name = column.name ∧
      (previous.hasColumn column.name = true → new.id = column.id) ∧
      (previous.hasColumn column.name = false → floor < new.id)) columns result := by
  fun_induction renumberFrom previous floor next columns generalizing result with
  | case1 next =>
    cases h
    exact .nil
  | case2 next column columns hnew hnone => cases h
  | case3 next column columns hnew following hf ih =>
    obtain ⟨rest, hr, h⟩ := bind_eq_ok.mp h
    cases h
    have hlt : floor < following := hle.trans_lt (Words.lt_of_next? hf)
    refine .cons ⟨rfl, fun hk => ?_, fun _ => hlt⟩ (ih hlt.le hr)
    simp [hk] at hnew
  | case4 next column columns hold ih =>
    obtain ⟨rest, hr, h⟩ := bind_eq_ok.mp h
    cases h
    refine .cons ⟨rfl, fun _ => rfl, fun hn => ?_⟩ (ih hle hr)
    simpa [hn] using hold

theorem forall₂_resolveAddedFills {rules : Rules} {refreshed result : SourceTable}
    (h : resolveAddedFills previous rules refreshed = .ok result) :
    List.Forall₂ (fun column new => new.name = column.name ∧ new.id = column.id)
      refreshed.columns result.columns := by
  obtain ⟨columns, hc, h⟩ := bind_eq_ok.mp h
  cases h
  apply (mapM_eq_ok.mp hc).imp
  intro column new hnew
  split at hnew
  · cases hnew
    exact ⟨rfl, rfl⟩
  · split at hnew
    · cases hnew
      exact ⟨rfl, rfl⟩
    · cases hnew

variable {column stable new : SourceColumn} {version : UInt32} {schema : TableSchema}

theorem Stable.renumbered {before : UInt32} (h : Stable previous before column stable)
    (hn : new.name = stable.name ∧ (previous.hasColumn stable.name = true → new.id = stable.id) ∧
      (previous.hasColumn stable.name = false → floor < new.id)) :
    Stable previous floor column new := by
  obtain ⟨hname, hid, hlt⟩ := hn
  rw [h.name_eq] at hname hid hlt
  refine ⟨hname, fun {existing} he => ?_, hlt⟩
  rw [hid (by rw [← column?_isSome, he]; rfl)]
  exact h.id_of_known he

theorem Stable.filled (h : Stable previous floor column stable)
    (hn : new.name = stable.name ∧ new.id = stable.id) : Stable previous floor column new :=
  ⟨hn.1.trans h.name_eq, fun he => hn.2.trans (h.id_of_known he),
    fun hnew => hn.2 ▸ h.lt_of_new hnew⟩

theorem nodup_of_tableSchemaWithVersion {source : SourceTable}
    (h : source.tableSchemaWithVersion version = .ok schema) :
    (source.columns.map SourceColumn.id).Nodup := by
  unfold tableSchemaWithVersion TableSchema.withKeyMode at h
  split at h
  · cases h
  · split at h
    · rename_i hc
      have hnodup := (TableSchema.checkColumns_ids hc).1
      rwa [map_map] at hnodup
    · cases h

def recordedColumns (history : SchemaHistory) (target : CdcTarget) : List SourceColumn :=
  history.columns ++ target.source.columns

variable {world : World} {rules : Rules} {history history' : SchemaHistory}
  {target target' : CdcTarget} {statement : String} {source probed : SourceTable}

theorem not_adopted_of_quarantine {reason : String} :
    quarantineSchemaChange history target reason ≠ .ok (.adopted target' history') := by
  intro h
  obtain ⟨version, -, h⟩ := bind_eq_ok.mp h
  cases h

theorem source_of_evolveTrackedSchema
    (h : evolveTrackedSchema world history target statement source version schema =
      .ok (.adopted target' history')) : target'.source = source := by
  unfold evolveTrackedSchema at h
  simp only at h
  split at h
  · cases h
    rfl
  · exact absurd h not_adopted_of_quarantine

theorem of_adoptSource (h : adoptSource world rules history target statement source =
      .ok (.adopted target' history')) :
    List.Forall₂ (Stable target.source (highestId (recordedColumns history target)))
        source.columns target'.source.columns ∧
      (target'.source.columns.map SourceColumn.id).Nodup := by
  unfold adoptSource at h
  split at h
  · exact absurd h not_adopted_of_quarantine
  rename_i stable hstable
  obtain ⟨numbered, hnumbered, h⟩ := Except.bind_eq_ok.mp h
  obtain ⟨columns, hcolumns, hn⟩ := Except.bind_eq_ok.mp hnumbered
  cases hn
  split at h
  · exact absurd h not_adopted_of_quarantine
  rename_i filled hfilled
  obtain ⟨version, -, h⟩ := Except.bind_eq_ok.mp h
  split at h
  · cases h
  rename_i schema hschema
  obtain rfl : target'.source = filled := source_of_evolveTrackedSchema h
  refine ⟨?_, nodup_of_tableSchemaWithVersion hschema⟩
  exact ((of_stabilizeSourceTable hstable).trans_of (forall₂_renumberFrom le_rfl hcolumns)
    Stable.renumbered).trans_of (forall₂_resolveAddedFills hfilled) Stable.filled

/-- What an adopted change must say of the stable identifiers: they differ, the columns that are not
dropped keep theirs, and an added one has none that was ever recorded. -/
structure IdsKept (history : SchemaHistory) (target : CdcTarget) (added dropped : List String)
    (target' : CdcTarget) : Prop where
  distinct : (target'.source.columns.map SourceColumn.id).Nodup
  kept : ∀ {name tracked}, target.source.column? name = some tracked →
    named dropped name = false → target'.source.hasColumn name = true ∧
      ∀ column ∈ target'.source.columns, sameName column.name name = true →
        column.id = tracked.id
  fresh : ∀ column ∈ target'.source.columns, named added column.name = true →
    ∀ recorded ∈ recordedColumns history target, recorded.id ≠ column.id

variable {added dropped : List String} {everyColumnTracked : Bool}

/-- No column is added under a tracked name, and a source that is asked still shows every tracked
column that is not dropped. -/
def Decided (rules : Rules) (target : CdcTarget) (statement : String) (probed : SourceTable)
    (added dropped : List String) (everyColumnTracked : Bool) : Prop :=
  (∀ name ∈ added, target.source.hasColumn name = false) ∧
    ((∀ asOf, schemaAsOf rules target.source statement added dropped everyColumnTracked
        (sourceMovedPast rules target.source probed statement added dropped
          everyColumnTracked) ≠ .ok asOf) →
      ∀ name, target.source.hasColumn name = true → named dropped name = false →
        probed.hasColumn name = true)

theorem source_of_applyColumnChange {movedPast : Bool}
    (h : applyColumnChange world rules history target statement probed added dropped
      everyColumnTracked = .ok (.adopted target' history'))
    (hpast : sourceMovedPast rules target.source probed statement added dropped
      everyColumnTracked = movedPast) :
    ∃ source, adoptSource world rules history target statement source =
        .ok (.adopted target' history') ∧
      (schemaAsOf rules target.source statement added dropped everyColumnTracked movedPast =
          .ok source ∨
        (∀ asOf, schemaAsOf rules target.source statement added dropped everyColumnTracked
          movedPast ≠ .ok asOf) ∧ source = probed ∧ movedPast = false) := by
  subst hpast
  unfold applyColumnChange at h
  simp only at h
  split at h
  · rename_i asOf hasOf
    split at h
    · cases h
    · exact ⟨asOf, h, .inl hasOf⟩
  · rename_i reason hreason
    split at h
    · exact absurd h not_adopted_of_quarantine
    · rename_i hmoved
      refine ⟨probed, h, .inr ⟨fun asOf hasOf => ?_, rfl, by simpa using hmoved⟩⟩
      rw [hreason] at hasOf
      cases hasOf

variable {name : String} {floor : UInt32}

theorem not_tracked_of_not_movedPast
    (h : sourceMovedPast rules target.source probed statement added dropped
      everyColumnTracked = false) (hname : name ∈ added) :
    target.source.hasColumn name = false := by
  unfold sourceMovedPast at h
  simp only [Bool.or_eq_false_iff, any_eq_false, Bool.or_eq_true, not_or] at h
  simpa using (h.2 name hname).2

theorem hasColumn_of_forall₂
    (h : List.Forall₂ (Stable previous floor) source.columns target'.source.columns) :
    target'.source.hasColumn name = source.hasColumn name := by
  rw [Bool.eq_iff_iff, hasColumn_iff, hasColumn_iff]
  constructor
  · rintro ⟨new, hnew, hsame⟩
    obtain ⟨column, hc, hs⟩ := h.exists_of_mem_right hnew
    exact ⟨column, hc, hs.name_eq ▸ hsame⟩
  · rintro ⟨column, hc, hsame⟩
    obtain ⟨new, hnew, hs⟩ := h.exists_of_mem_left hc
    exact ⟨new, hnew, hs.name_eq.symm ▸ hsame⟩

theorem id_of_forall₂ {column tracked : SourceColumn}
    (h : List.Forall₂ (Stable previous floor) source.columns target'.source.columns)
    (hc : column ∈ target'.source.columns) (hsame : sameName column.name name = true)
    (ht : previous.column? name = some tracked) : column.id = tracked.id := by
  obtain ⟨before, -, hs⟩ := h.exists_of_mem_right hc
  apply hs.id_of_known
  rw [← hs.name_eq, column?_congr hsame, ht]

/-- An adopted column change keeps the stable identifiers apart, exactly when no column is added
under a name the table already has and no other column has gone from a source that is asked. -/
theorem idsKept_iff_of_adopted
    (h : applyColumnChange world rules history target statement probed added dropped
      everyColumnTracked = .ok (.adopted target' history')) :
    IdsKept history target added dropped target' ↔
      Decided rules target statement probed added dropped everyColumnTracked := by
  obtain ⟨source, hadopt, hsource⟩ := source_of_applyColumnChange h rfl
  obtain ⟨hstable, hnodup⟩ := of_adoptSource hadopt
  constructor
  · intro hk
    refine ⟨fun name hname => ?_, fun herror name ht hd => ?_⟩
    · rcases hsource with hasOf | ⟨-, -, hmoved⟩
      · -- the added column is in the table, and a tracked name would give it a recorded identifier
        by_contra htracked
        rw [Bool.not_eq_false, ← column?_isSome] at htracked
        obtain ⟨tracked, ht⟩ := Option.isSome_iff_exists.mp htracked
        have hhas : target'.source.hasColumn name = true := by
          rw [hasColumn_of_forall₂ hstable]
          exact hasColumn_schemaAsOf hasOf (.inl hname)
        obtain ⟨column, hc, hsame⟩ := hasColumn_iff.mp hhas
        refine hk.fresh column hc (named_iff.mpr ⟨name, hname, ?_⟩) tracked
          (mem_append_right _ (mem_of_column? ht))
          (id_of_forall₂ hstable hc hsame ht).symm
        rw [sameName_comm, hsame]
      · exact not_tracked_of_not_movedPast hmoved hname
    · obtain ⟨-, rfl, -⟩ := hsource.resolve_left (herror source)
      obtain ⟨tracked, ht⟩ := Option.isSome_iff_exists.mp (column?_isSome.trans ht)
      rw [← hasColumn_of_forall₂ hstable]
      exact (hk.kept ht hd).1
  · rintro ⟨hadded, hshown⟩
    refine ⟨hnodup, fun {name tracked} ht hd => ⟨?_, fun column hc hsame => ?_⟩,
      fun column hc hname recorded hrecorded => ?_⟩
    · have htracked : target.source.hasColumn name = true := by
        rw [← column?_isSome, ht]
        rfl
      rw [hasColumn_of_forall₂ hstable]
      rcases hsource with hasOf | ⟨herror, rfl, -⟩
      · exact hasColumn_schemaAsOf hasOf (.inr ⟨htracked, hd⟩)
      · exact hshown herror name htracked hd
    · exact id_of_forall₂ hstable hc hsame ht
    · obtain ⟨name, hn, hsame⟩ := named_iff.mp hname
      obtain ⟨before, -, hs⟩ := hstable.exists_of_mem_right hc
      have hnew : target.source.hasColumn before.name = false := by
        rw [← column?_isSome, ← hs.name_eq, ← column?_congr hsame, column?_isSome]
        exact hadded name hn
      exact ((le_highestId hrecorded).trans_lt (hs.lt_of_new hnew)).ne

end Identifiers

def tableWith (name : String) : SourceTable where
  name := "t"
  columns :=
    [{ id := 1, name := "id", mysqlDataType := "bigint", mysqlColumnType := "bigint",
       pintailType := .int64, nullable := false, ordinal := 1 },
     { id := 2, name, mysqlDataType := "int", mysqlColumnType := "int",
       pintailType := .int32, nullable := true, ordinal := 2 }]
  key := ⟨.primary, ["id"]⟩
  sourceColumnCount := 2

def readdedTable : SourceTable := tableWith "c"

def readdedSchema : TableSchema :=
  ⟨1, [⟨1, "id", .int64, false, none⟩, ⟨2, "c", .int32, true, none⟩], .primary, by decide,
    by decide⟩

def readdedTarget : CdcTarget :=
  ⟨readdedTable, fresh sampleWorld readdedSchema .default⟩

/-- The answers to `ALTER TABLE t DROP COLUMN c, ADD COLUMN ... INT`. -/
def replacedRules (name : String) : Rules where
  addedColumns _ := some [⟨name, "INT", true, true, true, false, .last⟩]
  declaredColumn declaration := .ok
    { id := 0, name := declaration.name, mysqlDataType := "int", mysqlColumnType := "int",
      pintailType := .int32, nullable := true, ordinal := 0 }
  judge _ _ := none
  addedFill _ := .ok none
  name_declaredColumn h := by
    cases h
    rfl

def replaced (name : String) : Except CdcError ColumnChange :=
  applyColumnChange sampleWorld (replacedRules name) [⟨1, some readdedTable.columns⟩]
    readdedTarget s!"ALTER TABLE t DROP COLUMN c, ADD COLUMN {name} INT" (tableWith name) [name]
    ["c"] true

def readded : Except CdcError ColumnChange := replaced "c"

def adoptedSource : Except CdcError ColumnChange → Option SourceTable
  | .ok (.adopted target' _) => some target'.source
  | _ => none

theorem exists_of_adoptedSource {change : Except CdcError ColumnChange} {source : SourceTable}
    (h : adoptedSource change = some source) :
    ∃ target' history', change = .ok (.adopted target' history') ∧ target'.source = source := by
  unfold adoptedSource at h
  split at h
  · exact ⟨_, _, rfl, Option.some.inj h⟩
  · cases h

theorem idsKept_iff_of_adopted_replaced : ∃ target' history',
    replaced "d" = .ok (.adopted target' history') ∧
      target'.source.columns.map (fun column => (column.id, column.name)) = [(1, "id"), (3, "d")] ∧
      IdsKept [⟨1, some readdedTable.columns⟩] readdedTarget ["d"] ["c"] target' := by
  have hnew : (adoptedSource (replaced "d")).map (fun source =>
      source.columns.map fun column => (column.id, column.name)) = some [(1, "id"), (3, "d")] := by
    decide +kernel
  obtain ⟨source, hsource, hcolumns⟩ := Option.map_eq_some_iff.mp hnew
  obtain ⟨target', history', h, rfl⟩ := exists_of_adoptedSource hsource
  refine ⟨_, _, h, hcolumns, (idsKept_iff_of_adopted h).mpr ⟨by decide +kernel, fun herror => ?_⟩⟩
  exact (herror _ (exists_of_isOk (by decide +kernel)).choose_spec).elim

/-- A column dropped and added again in one statement takes the identifier of the dropped one. -/
theorem readded_takes_dropped_id : ∃ target' history',
    readded = .ok (.adopted target' history') ∧
      ∃ column ∈ target'.source.columns, column.name = "c" ∧
        ∃ dropped ∈ readdedTable.columns, dropped.name = "c" ∧ dropped.id = column.id := by
  obtain ⟨target', history', h, hsource⟩ := exists_of_adoptedSource
    (show adoptedSource readded = some readdedTable by decide +kernel)
  refine ⟨target', history', h, ?_⟩
  rw [hsource]
  decide

end Pintail.Cdc
