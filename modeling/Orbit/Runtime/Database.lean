import Orbit.Lib.Json
import Orbit.Runtime.Json

/-!
# Rows as JSON

`runtime/database.c`: how the rows that a statement delivers are written as JSON into a buffer of
the arena (`orbit_db_append_json_escaped`, `orbit_db_row_to_json`), and the reads that do so. A byte
is the character of its code. A buffer is the bytes in front of the position that is written next;
every index that is written is noted with the capacity of the buffer at that time. Sizes are
`size_t`, modulo 2^64. Statements that could not be prepared, and the counters, are left out.
-/

namespace Runtime.Database

open Lib.Json (Value Elems Fields)
open Json (Text nul hex2 jsonPutChar)

/-! ## Buffers -/

structure Buffer where
  bytes : Text
  capacity : Nat
  /-- The indices written, each with the capacity of the buffer written to. -/
  writes : List (Nat × Nat)
  deriving DecidableEq, Repr

namespace Buffer

def pos (b : Buffer) : Nat := b.bytes.length

/-- Write at the position and stay there. -/
def store (b : Buffer) (t : Text) : Buffer :=
  { b with writes := b.writes ++ (List.range' b.pos t.length).map (·, b.capacity) }

/-- Write at the position and move on. -/
def put (b : Buffer) (t : Text) : Buffer := { b.store t with bytes := b.bytes ++ t }

/-- `snprintf` of `\u00xx` with the room up to `stop`: it cuts the text so that its NUL fits, and
the position moves by the six bytes that it was asked for. -/
def printHex (b : Buffer) (stop : Nat) (c : Char) : Buffer :=
  let stored := (['\\', 'u', '0', '0'] ++ hex2 c.toNat).take (stop - b.pos - 1) ++ [nul]
  { b.store stored with bytes := b.bytes ++ stored.take 6 }

/-- What is read of the buffer as a C string. -/
def text (b : Buffer) : Text := Json.cString b.bytes

end Buffer

/-- What a `size_t` holds. Irreducible, so that no proof counts up to 2^64. -/
@[irreducible] def size (n : Nat) : Nat := n % 18446744073709551616

/-- The difference of two sizes. -/
def sizeSub (a b : Nat) : Nat := size (a + 18446744073709551616 - b)

/-! ## One row -/

/-- The loop over the bytes of a string. -/
def escapeLoop (stop : Nat) : Text → Buffer → Buffer
  | [], b => b
  | c :: s, b =>
    if c = nul ∨ stop ≤ b.pos then b
    else if c = '"' ∨ c = '\\' then
      if stop < b.pos + 2 then b else escapeLoop stop s (b.put ['\\', c])
    else if c = '\n' ∧ b.pos + 2 ≤ stop then escapeLoop stop s (b.put ['\\', 'n'])
    else if c = '\r' ∧ b.pos + 2 ≤ stop then escapeLoop stop s (b.put ['\\', 'r'])
    else if c = '\t' ∧ b.pos + 2 ≤ stop then escapeLoop stop s (b.put ['\\', 't'])
    else if c.toNat < 0x20 then
      if stop < b.pos + 6 then b else escapeLoop stop s (b.printHex stop c)
    else escapeLoop stop s (b.put [c])

def orbitDbAppendJsonEscaped (stop : Nat) (s : Text) (b : Buffer) : Buffer :=
  if stop ≤ b.pos then b
  else
    let b := escapeLoop stop s (b.put ['"'])
    if b.pos < stop then b.put ['"'] else b

/-- What SQLite says of a column of a row: its name and its text, each of which may be NULL. -/
structure Column where
  name : Option Text
  text : Option Text
  deriving DecidableEq, Repr

abbrev Row := List Column

/-- The loop over the columns. -/
def columnLoop (stop : Nat) : (first : Bool) → Row → Buffer → Buffer
  | _, [], b => b
  | first, col :: cols, b =>
    if stop ≤ b.pos then b
    else
      let b := if first then b else b.put [',']
      if stop ≤ b.pos then b
      else
        let b := orbitDbAppendJsonEscaped stop (col.name.getD []) b
        if stop ≤ b.pos + 1 then b
        else columnLoop stop false cols
          (orbitDbAppendJsonEscaped stop (col.text.getD []) (b.put [':']))

/-- The row at the position of the buffer. The size that the source returns is the distance by which
the position moves. -/
def orbitDbRowToJson (row : Row) (maxLen : Nat) (b : Buffer) : Buffer :=
  if maxLen < 3 then b
  else
    let stop := b.pos + maxLen - 2
    let b := columnLoop stop true row (b.put ['\x7b'])
    let b := if b.pos < stop then b.put ['\x7d'] else b
    b.store [nul]

/-! ## The reads -/

/-- The state of the loop over the rows: the buffer, whether no row has been written yet, and the
number of blocks that the arena has been asked for. -/
structure Scan where
  buf : Buffer
  first : Bool
  asked : Nat
  deriving DecidableEq, Repr

/-- With less than 2048 bytes left the text moves to a block of twice the size, unless the arena has
none (`grants`). It never has a block of no bytes. -/
def makeRoom (grants : Nat → Bool) (st : Scan) : Option Scan :=
  let used := st.buf.pos
  if st.buf.capacity < size (used + 2048) then
    let newCap := size (st.buf.capacity * 2)
    if newCap ≠ 0 ∧ grants st.asked then
      some { st with
        buf := { st.buf with
          capacity := newCap
          writes := st.buf.writes ++ (List.range used).map (·, newCap) }
        asked := st.asked + 1 }
    else none
  else some st

/-- The comma in front of a row. -/
def separated (st : Scan) : Buffer := if st.first then st.buf else st.buf.put [',']

/-- The bytes that a row may use. -/
def room (st : Scan) : Nat := sizeSub (separated st).capacity (separated st).pos

def appendRow (st : Scan) (row : Row) : Scan :=
  { st with buf := orbitDbRowToJson row (room st) (separated st), first := false }

def readRows (grants : Nat → Bool) : List Row → Scan → Scan
  | [], st => st
  | row :: rows, st =>
    match makeRoom grants st with
    | none => st
    | some st => readRows grants rows (appendRow st row)

/-- A literal of the program. -/
def literal (t : Text) : Buffer := { bytes := t, capacity := t.length + 1, writes := [] }

/-- The first block of an array, with its bracket. -/
def opened : Scan :=
  { buf := Buffer.put { bytes := [], capacity := 8192, writes := [] } ['[']
    first := true
    asked := 1 }

/-- Every row, as an array. -/
def readArray (grants : Nat → Bool) (rows : List Row) : Buffer :=
  if grants 0 then ((readRows grants rows opened).buf.put [']']).store [nul]
  else literal ['[', ']']

/-- The first row, as an object; a miss is the empty string. -/
def readObject (grants : Nat → Bool) (rows : List Row) : Buffer :=
  match rows with
  | [] => literal []
  | row :: _ =>
    if grants 0 then orbitDbRowToJson row 4096 { bytes := [], capacity := 4096, writes := [] }
    else literal []

def orbitDbAll (grants : Nat → Bool) (rows : List Row) : Buffer := readArray grants rows
def orbitDbWhereBound (grants : Nat → Bool) (rows : List Row) : Buffer := readArray grants rows
def orbitDbOrder (grants : Nat → Bool) (rows : List Row) : Buffer := readArray grants rows
def orbitDbGet (grants : Nat → Bool) (rows : List Row) : Buffer := readObject grants rows
def orbitDbFirst (grants : Nat → Bool) (rows : List Row) : Buffer := readObject grants rows

end Runtime.Database

/-!
# Migrations

`runtime/database.c`: `orbit_run_migrations`. A database is what is committed and the copy that an
open transaction works on. Every call of SQLite may fail, as the run's `fails` decides; a run makes
each of them at most once. A failed call has no effect: a failed `COMMIT` or `ROLLBACK` leaves the
transaction open. The connection is there. The text of a migration is a name for its effect: it
writes no row of `_orbit_migrations`, and does not begin or end a transaction.
-/

namespace Runtime.Migrations

open Json (Text)

/-! ## The database -/

/-- The rows of `_orbit_migrations`, and the migrations whose text was executed, in order. -/
structure Tables where
  versions : List Nat
  effects : List (Nat × Text)
  deriving DecidableEq, Repr

structure Db where
  committed : Tables
  /-- What the open transaction sees, when there is one. -/
  transaction : Option Tables
  deriving DecidableEq, Repr

def Db.fresh : Db := ⟨⟨[], []⟩, none⟩

def Db.visible (db : Db) : Tables := db.transaction.getD db.committed

/-- A change outside a transaction is committed at once. -/
def Db.write (db : Db) (t : Tables) : Db :=
  if db.transaction.isSome then { db with transaction := some t } else { db with committed := t }

/-- There is no transaction inside a transaction. -/
def Db.begin (db : Db) : Option Db :=
  if db.transaction.isSome then none else some { db with transaction := some db.committed }

def Db.commit (db : Db) : Db := ⟨db.visible, none⟩

def Db.rollback (db : Db) : Db := { db with transaction := none }

/-- The key that a row gets when its `INTEGER PRIMARY KEY` is left `NULL`. -/
def freshVersion (versions : List Nat) : Nat := versions.foldl max 0 + 1

/-- The key is unique: a second row of the same one is refused. -/
def Tables.insertVersion (t : Tables) (v : Nat) : Tables :=
  if v ∈ t.versions then t else { t with versions := t.versions ++ [v] }

/-! ## The runner -/

/-- The calls of one run, `i` the index of the migration. -/
inductive Call where
  | createTable
  | selectPrepare (i : Nat)
  | selectBind (i : Nat)
  | selectStep (i : Nat)
  | beginExec (i : Nat)
  | migrationExec (i : Nat)
  | insertPrepare (i : Nat)
  | insertBind (i : Nat)
  | insertStep (i : Nat)
  | commitExec (i : Nat)
  | rollbackExec (i : Nat)
  deriving DecidableEq, Repr

section
variable (fails : Call → Bool)

/-- The row of the version is found. Without its parameter the statement finds none, and an error
reads as none. -/
def isDone (db : Db) (i : Nat) : Bool :=
  !fails (.selectBind i) && !fails (.selectStep i) && decide (i ∈ db.visible.versions)

/-- The bookkeeping row. A statement that was not prepared does nothing, one without its parameter
inserts `NULL`; no result is looked at. -/
def insertRow (db : Db) (i : Nat) : Db :=
  if fails (.insertPrepare i) || fails (.insertStep i) then db
  else
    let v := if fails (.insertBind i) then freshVersion db.visible.versions else i
    db.write (db.visible.insertVersion v)

/-- The migration `i` of the text `sql`: whether it went through. -/
def applyMigration (db : Db) (i : Nat) (sql : Text) : Bool × Db :=
  match if fails (.beginExec i) then none else db.begin with
  | none => (false, db)
  | some db =>
    if fails (.migrationExec i) then
      (false, if fails (.rollbackExec i) then db else db.rollback)
    else
      let t := db.visible
      let db := insertRow fails (db.write { t with effects := t.effects ++ [(i, sql)] }) i
      if fails (.commitExec i) then (false, db) else (true, db.commit)

/-- The migrations from the index `i` on. `none` is a null text. -/
def runFrom : Nat → List (Option Text) → Db → Bool × Db
  | _, [], db => (true, db)
  | i, m :: ms, db =>
    if fails (.selectPrepare i) then (false, db)
    else if isDone fails db i then runFrom (i + 1) ms db
    else
      match m with
      | none => (false, db)
      | some sql =>
        if sql = [] then (false, db)
        else
          let r := applyMigration fails db i sql
          if r.1 then runFrom (i + 1) ms r.2 else (false, r.2)

def orbitRunMigrations (migrations : List (Option Text)) (db : Db) : Bool × Db :=
  if fails .createTable then (false, db) else runFrom fails 0 migrations db

end

/-! ## Runs -/

/-- The states that runs leave, each of a list that goes on from the one before, and of calls and a
database that `ok` allows. -/
inductive Reached (ok : (Call → Bool) → Db → Prop) : List (Option Text) → Db → Prop where
  | fresh : Reached ok [] .fresh
  | run {ms ms' db fails} : Reached ok ms db → ms <+: ms' → ok fails db →
      Reached ok ms' (orbitRunMigrations fails ms' db).2

/-- What a run is to leave: every effect at most once, behind all earlier ones, and recorded; all of
them when it returns true; and no transaction. -/
structure Migrated (ms : List (Option Text)) (r : Bool × Db) : Prop where
  once : (r.2.committed.effects.map Prod.fst).Nodup
  ordered : ∀ pre i post, r.2.committed.effects.map Prod.fst = pre ++ i :: post → ∀ j < i, j ∈ pre
  texts : ∀ i sql, (i, sql) ∈ r.2.committed.effects → ms[i]? = some (some sql)
  recorded : ∀ i, i ∈ r.2.committed.versions ↔ i ∈ r.2.committed.effects.map Prod.fst
  complete : r.1 = true → ∀ i < ms.length, i ∈ r.2.committed.effects.map Prod.fst
  closed : r.2.transaction = none

/-- The calls whose results are not looked at go well: the lookup of a recorded version, the
bookkeeping row, and the end of the transaction. -/
structure Unchecked (fails : Call → Bool) (db : Db) : Prop where
  select : ∀ i ∈ db.committed.versions,
    fails (.selectBind i) = false ∧ fails (.selectStep i) = false
  insert : ∀ i, fails (.insertPrepare i) = false ∧ fails (.insertBind i) = false ∧
    fails (.insertStep i) = false
  finish : ∀ i, fails (.commitExec i) = false ∧ fails (.rollbackExec i) = false

end Runtime.Migrations
