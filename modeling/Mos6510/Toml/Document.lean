import Mos6510.Toml.Value

/-!
# TOML documents

A document is a sequence of lines: headings of tables, and keys with their
values.  The lines are laid down one after the other in a tree of tables.

* A table that was only named on the way to something else is *open*: it may
  still get a heading or a value of its own, once, and keeps what it holds.
* A key whose value is an array may be given again; the later value counts.
* Any other key has one value.
-/

namespace Mos6510.Toml

/-- A line of a document. -/
inductive Line where
  /-- The heading of a table. -/
  | heading (key : List String)
  /-- The heading of another table of an array. -/
  | item (key : List String)
  /-- A key and its value. -/
  | entry (e : Entry)
  deriving Inhabited

/-- The heading at the start of the text, after its bracket. -/
def heading? (cs : List Char) : Option (Line × List Char) :=
  match cs with
  | '[' :: rest =>
    match key? rest with
    | some (key, ']' :: ']' :: rest) => (restOfLine? rest).map fun r => (.item key, r)
    | _ => none
  | cs =>
    match key? cs with
    | some (key, ']' :: rest) => (restOfLine? rest).map fun r => (.heading key, r)
    | _ => none

def line? (cs : List Char) : Option (Line × List Char) :=
  match cs with
  | '[' :: rest => heading? rest
  | cs =>
    match entry? (cs.length + 2) cs with
    | some (e, rest) => (restOfLine? rest).map fun r => (.entry e, r)
    | none => none

/-- The lines of a text; the fuel bounds their number. -/
def lines? : Nat → List Char → Option (List Line)
  | 0, _ => none
  | fuel + 1, cs =>
    match skipBlank false cs with
    | [] => some []
    | cs =>
      match line? cs with
      | some (l, rest) => (lines? fuel rest).map (l :: ·)
      | none => none

/-! ## Tables -/

/-- What a key of a table stands for. -/
inductive Node where
  | scalar (s : Scalar)
  | array (items : List Node)
  | table (entries : List (String × Node))
  /-- An array of tables under headings, latest first. -/
  | tables (items : List (List (String × Node)))
  deriving Inhabited

/-- The entries of a table, in the order in which their keys came up. -/
abbrev Table := List (String × Node)

namespace Table

/-- Put a node under a key, in place of what was there. -/
def put (t : Table) (k : String) (n : Node) : Table :=
  if (t.lookup k).isSome then t.map fun e => if e.1 == k then (k, n) else e
  else t ++ [(k, n)]

/-- Change the table at the end of a path.  From an array of tables the path
goes on in the latest one. -/
def change? (f : Table → Option Table) : List String → Table → Option Table
  | [], t => f t
  | k :: path, t =>
    match t.lookup k with
    | some (.table u) => (change? f path u).map fun u => put t k (.table u)
    | some (.tables (u :: us)) => (change? f path u).map fun u => put t k (.tables (u :: us))
    | _ => none

/-- Put a node at the end of a path of tables that are made where there are
none. -/
def putDeep? (n : Node) : List String → Table → Option Table
  | [], _ => none
  | [k], t => some (put t k n)
  | k :: path, t =>
    match (t.lookup k).getD (.table []) with
    | .table u => (putDeep? n path u).map fun u => put t k (.table u)
    | _ => none

end Table

/-! ## Laying down lines -/

/-- A document: its tables, and the keys in order. -/
structure Document where
  top : Table := []
  /-- Keys of headings and values, latest first. -/
  keys : List (List String) := []
  /-- Keys of tables that are open. -/
  opened : List (List String) := []
  /-- Keys whose value is an array. -/
  arrays : List (List String) := []
  /-- The key of the table that lines belong to. -/
  context : List String := []
  deriving Inhabited

/-- A step of laying down a document; nothing if a key is in the way. -/
abbrev LayM := StateT Document Option

namespace Document

def openKey (key : List String) : LayM Unit :=
  modify fun d => { d with opened := key :: d.opened.erase key }

/-- Go on under another key. -/
def enter (key : List String) : LayM Unit :=
  modify fun d => { d with context := key }

/-- Take down a key. -/
def note (key : List String) : LayM Unit :=
  modify fun d => { d with keys := key :: d.keys }

/-- Say of the key of a name whether its value is an array.  No name stands for
the table that lines belong to. -/
def setArray (name : String) (isArray : Bool) : LayM Unit :=
  modify fun d =>
    let key := if name.isEmpty then d.context else d.context ++ [name]
    let key := if key.isEmpty then [""] else key
    let others := d.arrays.filter (· != key)
    { d with arrays := if isArray then key :: others else others }

/-- Give a name of the table that lines belong to a value. -/
def setNode (name : String) (n : Node) : LayM Unit := fun d =>
  let key := d.context ++ [name]
  let closed : Document := { d with opened := d.opened.filter (· != key) }
  let set (t : Table) : Option Table :=
    if (t.lookup name).isNone || d.arrays.contains key then some (t.put name n)
    else if d.opened.contains key then some t
    else none
  let isNew (t : Table) : Option Table := if (t.lookup name).isNone then some t else none
  match Table.change? set d.context d.top with
  | none => none
  | some top =>
    let after := if (Table.change? isNew d.context d.top).isSome then d else closed
    some ((), { after with top := top })

/-- Make the tables above a key, open, and give the first key that is no
table. -/
def makeAbove : List String → List String → LayM Unit
  | _, [] => pure ()
  | above, k :: path => do
    let here := above ++ [k]
    let d ← get
    let isNew (t : Table) : Option Table := if (t.lookup k).isNone then some t else none
    if (Table.change? isNew above d.top).isSome then
      openKey here
      let top ← (Table.change? (fun t => some (t.put k (.table []))) above d.top : Option Table)
      modify fun d => { d with top := top }
    let _ ← (Table.change? some here (← get).top : Option Table)
    makeAbove here path

/-- Go to the table of a key, which is made if there is none. -/
def enterTable (key : List String) : LayM Unit := do
  makeAbove [] key.dropLast
  enter key.dropLast
  setNode (key.getLastD "") (.table [])
  enter key

/-- Go to another table of the array of a key. -/
def enterItem (key : List String) : LayM Unit := do
  makeAbove [] key.dropLast
  let name := key.getLastD ""
  let more (t : Table) : Option Table :=
    match t.lookup name with
    | none => some (t.put name (.tables [[]]))
    | some (.tables items) => some (t.put name (.tables ([] :: items)))
    | some _ => none
  let top ← (Table.change? more key.dropLast (← get).top : Option Table)
  modify fun d => { d with top := top }
  enter key

/-- Go to the table that the dotted front of a key names. -/
def enterDotted : List String → LayM Unit
  | [] => pure ()
  | k :: path => do
    let key := (← get).context ++ [k]
    openKey key
    enterTable key
    enterDotted path

mutual

/-- Lay down the value of a name, and give it as a node.  The tables of an
array are laid down as tables of that name while it is read. -/
def layValue (name : String) (inArray : Bool) : Value → LayM Node
  | .scalar s => pure (.scalar s)
  | .array items => do
    setArray name true
    let nodes ← layItems name items
    pure (.array nodes)
  | .table entries => do
    let outer := (← get).context
    let key := outer ++ [name]
    openKey key
    if inArray then enterItem key else enterTable key
    let t ← layEntries key [] entries
    enter outer
    pure (.table t)

def layItems (name : String) : List Value → LayM (List Node)
  | [] => pure []
  | v :: rest => do
    let n ← layValue name true v
    let ns ← layItems name rest
    pure (n :: ns)

/-- Lay down the entries of a table within a line, after some. -/
def layEntries (key : List String) : Table → List Entry → LayM Table
  | t, [] => pure t
  | t, .mk parts v :: rest => do
    let name := parts.getLastD ""
    enterDotted parts.dropLast
    note ((← get).context ++ [name])
    let n ← layValue name false v
    setNode name n
    setArray name (match v with | .array _ => true | _ => false)
    let t ← (Table.putDeep? n parts t : Option Table)
    enter key
    layEntries key t rest

end

def layLine : Line → LayM Unit
  | .heading key => do
    enterTable key
    setArray "" false
    note key
  | .item key => do
    enterItem key
    setArray "" false
    note key
  | .entry (.mk parts v) => do
    let outer := (← get).context
    let name := parts.getLastD ""
    enterDotted parts.dropLast
    note ((← get).context ++ [name])
    let n ← layValue name false v
    setNode name n
    setArray name (match v with | .array _ => true | _ => false)
    enter outer

/-- Read a document; there is none if the text is malformed. -/
def ofText? (text : String) : Option Document :=
  let cs := text.toList
  if !isClean cs then none
  else match lines? (cs.length + 1) cs with
    | none => none
    | some lines => (lines.forM layLine {}).map (·.2)

end Document

end Mos6510.Toml
