import Mathlib.Data.List.Basic

/-!
# Lists

The list functions of `runtime/orb/lists.orb`, and `orbit_list_get` and `orbit_list_len` of
`runtime/collections.c`. A slot is one word. What an arena answers to a request is an input. The null
pointer is address 0, and no list is `none`.
-/

namespace Runtime.Lists

/-! ## Blocks -/

/-- The words from an address on. -/
structure Block where
  addr : Nat
  words : List UInt64
  deriving DecidableEq, Repr

def Block.load (b : Block) (p : Nat) : UInt64 := b.words.getD ((p - b.addr) / 8) 0

def Block.store (b : Block) (p : Nat) (w : UInt64) : Block :=
  { b with words := b.words.set ((p - b.addr) / 8) w }

/-- The first bytes of `src`, copied over those of `dst`. -/
def Block.copy (dst src : Block) (bytes : Nat) : Block :=
  { dst with words := src.words.take (bytes / 8) ++ dst.words.drop (bytes / 8) }

/-- What an arena gives; the words are what was there before. -/
structure Grant where
  addr : Nat
  addr_ne : addr ≠ 0
  words : Nat → UInt64

def Grant.block (g : Grant) (bytes : Nat) : Block := ⟨g.addr, (List.range (bytes / 8)).map g.words⟩

/-- The answers of an arena: to the request for a header, and to one for a number of bytes. -/
structure Answers where
  header : Bool
  block : Nat → Option Grant

/-! ## Lists -/

/-- `elemKind` is 0 for an untyped list, and 1, 2, 3, 4 or 5 for one of strings, ints, floats, bools
or references. -/
structure OrbitList where
  data : Block
  len : Nat
  capacity : Nat
  elemSize : Nat
  elemKind : Int32
  arena : Nat
  deriving DecidableEq, Repr

/-- An error that is returned, or the end of the process. -/
inductive Stop where
  | err (code : Nat) (message : String)
  | kindError (held want : Int32)
  deriving DecidableEq, Repr

/-- The address of a slot. -/
def OrbitList.slot (l : OrbitList) (index : Nat) : Nat := l.data.addr + index * l.elemSize

def OrbitList.write (l : OrbitList) (index : Nat) (w : UInt64) : OrbitList :=
  { l with data := l.data.store (l.slot index) w }

def rtAdoptKind (l : OrbitList) (kind : Int32) : Except Stop OrbitList :=
  if l.elemKind = 0 then .ok { l with elemKind := kind }
  else if l.elemKind ≠ kind then .error (.kindError l.elemKind kind)
  else .ok l

def orbitListCreateTyped (answers : Answers) (region global : Nat) (elemSize initialCapacity : Int)
    (elemKind : Int32) : Except Stop OrbitList :=
  let a := if region = 0 then global else region
  if a = 0 ∨ elemSize = 0 then .error (.err 7 "list: null arena or zero elem_size")
  else if elemSize ≠ 8 then .error (.err 7 "list: elem_size must be one machine word")
  else
    let cap := if initialCapacity = 0 then 8 else initialCapacity
    if cap < 0 ∨ cap > 2305843009213693951 then .error (.err 7 "list: capacity too large")
    else if !answers.header then .error (.err 2 "list: header alloc failed")
    else
      match answers.block (elemSize * cap).toNat with
      | none => .error (.err 2 "list: data alloc failed")
      | some data =>
        .ok { data := data.block (elemSize * cap).toNat, len := 0, capacity := cap.toNat,
              elemSize := elemSize.toNat, elemKind, arena := a }

def orbitListCreate (answers : Answers) (region global : Nat) (elemSize initialCapacity : Int) :
    Except Stop OrbitList :=
  orbitListCreateTyped answers region global elemSize initialCapacity 0

def orbitListGrow (answers : Answers) (l : OrbitList) : Except Stop OrbitList :=
  if l.arena = 0 then .error (.err 1 "list_grow: null list")
  else if l.capacity > 9223372036854775807 / l.elemSize then
    .error (.err 2 "list_grow: capacity overflow")
  else
    let newCap := l.capacity * 2
    match answers.block (l.elemSize * newCap) with
    | none => .error (.err 2 "list_grow: alloc failed")
    | some block =>
      .ok { l with
            data := (block.block (l.elemSize * newCap)).copy l.data (l.len * l.elemSize)
            capacity := newCap }

/-- The kind is adopted before the list grows, and kept when it cannot. -/
def rtPrepareSlot (answers : Answers) (l : OrbitList) (kind : Int32) :
    Except Stop Unit × OrbitList :=
  match rtAdoptKind l kind with
  | .error e => (.error e, l)
  | .ok l =>
    if l.len ≥ l.capacity then
      match orbitListGrow answers l with
      | .error e => (.error e, l)
      | .ok l => (.ok (), l)
    else (.ok (), l)

def rtPrepareSet (list : Option OrbitList) (index : Int) (kind : Int32) :
    Except Stop Unit × Option OrbitList :=
  match list with
  | none => (.error (.err 1 "list_set: null list"), none)
  | some l =>
    if index < 0 ∨ index ≥ l.len then (.error (.err 3 "list_set: index out of range"), some l)
    else
      match rtAdoptKind l kind with
      | .error e => (.error e, some l)
      | .ok l => (.ok (), some l)

/-! ## Pushes -/

/-- `elem` is the word behind the pointer. -/
def orbitListPush (answers : Answers) (list : Option OrbitList) (elem : Option UInt64) :
    Except Stop Unit × Option OrbitList :=
  match list, elem with
  | some l, some word =>
    match rtPrepareSlot answers l l.elemKind with
    | (.error e, l) => (.error e, some l)
    | (.ok (), l) => (.ok (), some { l.write l.len word with len := l.len + 1 })
  | list, _ => (.error (.err 1 "list_push: null argument"), list)

/-- A typed push. The preparation is left out when the kind is the list's and there is room. -/
def pushWord (kind : Int32) (answers : Answers) (list : Option OrbitList) (word : UInt64) :
    Except Stop Unit × Option OrbitList :=
  match list with
  | none => (.error (.err 1 "list_push: null list"), none)
  | some l =>
    let prepared :=
      if l.elemKind ≠ kind ∨ l.len ≥ l.capacity then rtPrepareSlot answers l kind else (.ok (), l)
    match prepared with
    | (.error e, l) => (.error e, some l)
    | (.ok (), l) => (.ok (), some { l.write l.len word with len := l.len + 1 })

/-- The word of a flag. -/
def flagWord (value : Bool) : UInt64 := if value then 1 else 0

def orbitListPushString (answers : Answers) (list : Option OrbitList) (value : UInt64) :=
  pushWord 1 answers list value

def orbitListPushInt (answers : Answers) (list : Option OrbitList) (value : Int64) :=
  pushWord 2 answers list value.toUInt64

def orbitListPushFloat (answers : Answers) (list : Option OrbitList) (bits : UInt64) :=
  pushWord 3 answers list bits

def orbitListPushBool (answers : Answers) (list : Option OrbitList) (value : Bool) :=
  pushWord 4 answers list (flagWord value)

def orbitListPushRef (answers : Answers) (list : Option OrbitList) (value : UInt64) :=
  pushWord 5 answers list value

/-! ## Pop, get and clear -/

/-- The address of the slot that is given up. -/
def orbitListPop (list : Option OrbitList) : Except Stop Nat × Option OrbitList :=
  match list with
  | none => (.error (.err 3 "list_pop: empty list"), none)
  | some l =>
    if l.len = 0 then (.error (.err 3 "list_pop: empty list"), some l)
    else
      let len := l.len - 1
      (.ok (l.slot len), some { l with len })

def orbitListGet (list : Option OrbitList) (index : Nat) : Except Stop Nat :=
  match list with
  | none => .error (.err 1 "list_get: null list")
  | some l =>
    if l.data.addr = 0 then .error (.err 1 "list_get: null list")
    else if index ≥ l.len then .error (.err 3 "list_get: index out of bounds")
    else .ok (l.slot index)

def orbitListLen (list : Option OrbitList) : Nat := (list.map OrbitList.len).getD 0

def orbitListClear (list : Option OrbitList) : Option OrbitList :=
  list.map fun l => { l with len := 0 }

/-! ## Sets -/

def orbitListSet (list : Option OrbitList) (index : Int) (elem : Option UInt64) :
    Except Stop Unit × Option OrbitList :=
  match list, elem with
  | some l, some word =>
    if index < 0 ∨ index ≥ l.len then (.error (.err 3 "list_set: index out of bounds"), some l)
    else (.ok (), some (l.write index.toNat word))
  | list, _ => (.error (.err 1 "list_set: null argument"), list)

/-- A typed set. The preparation is left out when the index is in range and the kind is the list's. -/
def setWord (kind : Int32) (list : Option OrbitList) (index : Int) (word : UInt64) :
    Except Stop Unit × Option OrbitList :=
  let ready := list.any fun l => 0 ≤ index && index < l.len && l.elemKind = kind
  match if ready then (.ok (), list) else rtPrepareSet list index kind with
  | (.ok (), some l) => (.ok (), some (l.write index.toNat word))
  | (answer, list) => (answer, list)

def orbitListSetString (list : Option OrbitList) (index : Int) (value : UInt64) :=
  setWord 1 list index value

def orbitListSetInt (list : Option OrbitList) (index : Int) (value : Int64) :=
  setWord 2 list index value.toUInt64

def orbitListSetFloat (list : Option OrbitList) (index : Int) (bits : UInt64) :=
  setWord 3 list index bits

def orbitListSetBool (list : Option OrbitList) (index : Int) (value : Bool) :=
  setWord 4 list index (flagWord value)

def orbitListSetRef (list : Option OrbitList) (index : Int) (value : UInt64) :=
  setWord 5 list index value

/-! ## Calls -/

/-- A value of one of the kinds; strings and references are pointers, and of a number with a point
the bits are taken. -/
inductive Value where
  | string (p : UInt64)
  | int (v : Int64)
  | float (bits : UInt64)
  | bool (b : Bool)
  | ref (p : UInt64)
  deriving DecidableEq, Repr

inductive Call where
  | create (region global : Nat) (elemSize initialCapacity : Int)
  | createTyped (region global : Nat) (elemSize initialCapacity : Int) (elemKind : Int32)
  | push (elem : Option UInt64)
  | pushTyped (value : Value)
  | set (index : Int) (elem : Option UInt64)
  | setTyped (index : Int) (value : Value)
  | pop
  | get (index : Nat)
  | len
  | clear
  deriving DecidableEq, Repr

/-- What a caller sees of a call: a slot that it is given is read. -/
inductive Seen where
  | done
  | word (w : UInt64)
  | length (n : Nat)
  | failed (code : Nat)
  | stopped
  deriving DecidableEq, Repr

def Stop.seen : Stop → Seen
  | .err code _ => .failed code
  | .kindError _ _ => .stopped

def seenDone : Except Stop Unit → Seen
  | .ok () => .done
  | .error e => e.seen

def seenSlot (list : Option OrbitList) : Except Stop Nat → Seen
  | .ok p => .word ((list.map fun l => l.data.load p).getD 0)
  | .error e => e.seen

/-- A list that could not be made leaves the one that the caller has. -/
def seenCreate (list : Option OrbitList) : Except Stop OrbitList → Seen × Option OrbitList
  | .ok l => (.done, some l)
  | .error e => (e.seen, list)

def pushTyped (answers : Answers) (list : Option OrbitList) :
    Value → Except Stop Unit × Option OrbitList
  | .string p => orbitListPushString answers list p
  | .int v => orbitListPushInt answers list v
  | .float bits => orbitListPushFloat answers list bits
  | .bool b => orbitListPushBool answers list b
  | .ref p => orbitListPushRef answers list p

def setTyped (list : Option OrbitList) (index : Int) :
    Value → Except Stop Unit × Option OrbitList
  | .string p => orbitListSetString list index p
  | .int v => orbitListSetInt list index v
  | .float bits => orbitListSetFloat list index bits
  | .bool b => orbitListSetBool list index b
  | .ref p => orbitListSetRef list index p

def call (answers : Answers) (list : Option OrbitList) : Call → Seen × Option OrbitList
  | .create region global elemSize cap =>
    seenCreate list (orbitListCreate answers region global elemSize cap)
  | .createTyped region global elemSize cap kind =>
    seenCreate list (orbitListCreateTyped answers region global elemSize cap kind)
  | .push elem => (orbitListPush answers list elem).map seenDone id
  | .pushTyped value => (pushTyped answers list value).map seenDone id
  | .set index elem => (orbitListSet list index elem).map seenDone id
  | .setTyped index value => (setTyped list index value).map seenDone id
  | .pop =>
    let (slot, list) := orbitListPop list
    (seenSlot list slot, list)
  | .get index => (seenSlot list (orbitListGet list index), list)
  | .len => (.length (orbitListLen list), list)
  | .clear => (.done, orbitListClear list)

end Runtime.Lists
