import ProxyNode.Spec.SqlLog

/-! Applying row ops to local tables. A table has a primary key, a default for each column
and no other constraint; values are stored as they are bound. -/

namespace ProxyNode

section

variable {R : Type}

structure Schema (R : Type) where
  columns : List String
  key : List String
  default : String → Scalar R
  key_ne : key ≠ []
  key_sub : ∀ k ∈ key, k ∈ columns

abbrev Row (R : Type) := String → Scalar R

structure Table (R : Type) where
  schema : Schema R
  rows : List (Row R)

abbrev Tables (R : Type) := String → Option (Table R)

def Row.set (r : Row R) (columns : List (Column R)) : Row R := fun c =>
  match columns.find? (·.name = c) with
  | some column => column.value
  | none => r c

/-- The row an `INSERT` of the named columns makes. -/
def Schema.image (s : Schema R) (columns : List (Column R)) : Row R := Row.set s.default columns

def Schema.present (s : Schema R) (columns : List (Column R)) : List (Column R) :=
  columns.filter (·.name ∈ s.columns)

def assignments (op : ProxyDbOp R) (columns : List (Column R)) : List (Column R) :=
  columns.filter fun c => !op.key.any (·.col = c.name)

def Tables.put (tables : Tables R) (name : String) (t : Table R) : Tables R :=
  fun n => if n = name then some t else tables n

def invalidIdent (names : List String) : Option String := names.find? fun n => !isValidIdent n

variable [DecidableEq R]

def Table.contents (t : Table R) (pk : List (Scalar R)) : Option (List (Scalar R)) :=
  (t.rows.find? fun r => t.schema.key.map r = pk).map fun r => t.schema.columns.map r

variable [SqlReal R]

/-- SQL equality: `NULL` equals nothing, an integer and a real may be equal. -/
def sqlEq : Scalar R → Scalar R → Bool
  | .null, _ => false
  | .int i, .real r => SqlReal.int? r = some i
  | .real r, .int i => SqlReal.int? r = some i
  | a, b => a = b

/-- The clause `col = ?1 AND …` over an op's key. -/
def whereKey (key : List (KeyField R)) (r : Row R) : Bool := key.all fun f => sqlEq (r f.col) f.val

/-- `INSERT … ON CONFLICT (target) DO UPDATE SET …`; without assignments a conflicting row
stays as it is. The target has to be the primary key. -/
def Table.insertOnConflict (t : Table R) (columns : List (Column R)) (target : List String)
    (set : List (Column R)) : Option (Table R) :=
  if target.isPerm t.schema.key then
    let row := t.schema.image columns
    let conflicts := fun r : Row R => t.schema.key.all fun k => sqlEq (r k) (row k)
    if t.rows.any conflicts then
      some { t with rows := t.rows.map fun r => if conflicts r then Row.set r set else r }
    else some { t with rows := t.rows ++ [row] }
  else none

def Table.deleteWhere (t : Table R) (key : List (KeyField R)) : Table R :=
  { t with rows := t.rows.filter fun r => !whereKey key r }

def upsertMatchesCurrentRow (t : Table R) (op : ProxyDbOp R) (columns : List (Column R)) : Bool :=
  match t.rows.find? (whereKey op.key) with
  | some r => columns.all fun c => r c.name = c.value
  | none => false

/-- Write one row; the flag says whether a statement ran. What SQLite adds to the text of a
failed statement is left out. -/
def writeRow (tables : Tables R) (op : ProxyDbOp R) (deviceLocalTables : List String) :
    Except SqliteError (Tables R × Bool) :=
  if !isValidIdent op.table then .error (.other ("invalid table name: " ++ op.table))
  else if op.table ∈ deviceLocalTables then .ok (tables, false)
  else match tables op.table with
    | none => .ok (tables, false)
    | some t =>
      match op.mutation with
      | .upsert columns =>
        match invalidIdent (columns.map (·.name)), invalidIdent (op.key.map (·.col)) with
        | some name, _ => .error (.other ("invalid column: " ++ name))
        | none, some name => .error (.other ("invalid key column: " ++ name))
        | none, none =>
          if op.key.any (·.col ∉ t.schema.columns) then .ok (tables, false)
          else
            let columns := t.schema.present columns
            if columns.isEmpty then .ok (tables, false)
            else if upsertMatchesCurrentRow t op columns then .ok (tables, false)
            else match t.insertOnConflict columns (op.key.map (·.col)) (assignments op columns) with
              | some t => .ok (tables.put op.table t, true)
              | none => .error (.other ("mesh upsert " ++ op.table))
      | .delete =>
        match invalidIdent (op.key.map (·.col)) with
        | some name => .error (.other ("invalid key column: " ++ name))
        | none =>
          if op.key.any (·.col ∉ t.schema.columns) then .ok (tables, false)
          else .ok (tables.put op.table (t.deleteWhere op.key), true)

structure RowDb (R : Type) where
  tables : Tables R
  log : OplogDb

def RowDb.writeRowIfNewer (db : RowDb R) (store : StoreId) (op : ProxyDbOp R) (orderKey : OrderKey)
    (deviceLocalTables : List String) : Except SqliteError (RowDb R × Bool) :=
  match db.log.newestAppliedInStore ⟨store, op.table, op.rowPk⟩ orderKey.opId with
  | some current =>
    if orderKey ≤ current then .ok (db, false)
    else (writeRow db.tables op deviceLocalTables).map fun r => ({ db with tables := r.1 }, r.2)
  | none => (writeRow db.tables op deviceLocalTables).map fun r => ({ db with tables := r.1 }, r.2)

/-- A signed op with the row op its payload decodes to. -/
structure RowChange (R : Type) where
  signed : SignedOp
  op : ProxyDbOp R
deriving DecidableEq

/-- One application of a change: whether it is logged before the row is written, under which
origin, and at which clock reading. -/
structure RowDelivery (R : Type) where
  change : RowChange R
  logFirst : Bool
  origin : ℤ
  now : ℤ

def RowDb.append (db : RowDb R) (d : RowDelivery R) : RowDb R :=
  { db with log := (db.log.append d.change.signed d.change.op.table d.change.op.rowPk d.origin d.now).1 }

def RowDb.write (db : RowDb R) (deviceLocalTables : List String) (c : RowChange R) :
    Except SqliteError (RowDb R) :=
  (db.writeRowIfNewer c.signed.body.store c.op c.signed.orderKey deviceLocalTables).map (·.1)

/-- Write the row and log the op, in one transaction. -/
def RowDb.deliver (db : RowDb R) (deviceLocalTables : List String) (d : RowDelivery R) :
    Except SqliteError (RowDb R) :=
  if d.logFirst then (db.append d).write deviceLocalTables d.change
  else (db.write deviceLocalTables d.change).map (·.append d)

def RowDb.run (db : RowDb R) (deviceLocalTables : List String) (ds : List (RowDelivery R)) :
    Except SqliteError (RowDb R) :=
  ds.foldlM (fun db d => db.deliver deviceLocalTables d) db

end

end ProxyNode
