import Mos6510.Engine.State

/-!
# Programs

What a successful assembly produces: the regions in order of their
addresses, the values of all symbols in order of their names, and the source
location of each byte.
-/

namespace Mos6510

/-- An assembled program. -/
structure Program where
  /-- The regions, lowest start first. -/
  regions : List Region := []
  /-- The labels with their values, by name. -/
  labels : List (String × Int64) := []
  /-- The variables with their values, by name; without the program counter. -/
  vars : List (String × Int64) := []
  /-- The location that emitted each byte, by address. -/
  source : List (UInt16 × Location) := []
  /-- The variables that were never read, by name. -/
  unused : List String := []
  deriving DecidableEq, Repr, Inhabited

/-- Put an entry before others, in place of a first one with the same key. -/
def consKey {κ α : Type} [BEq κ] (e : κ × α) : List (κ × α) → List (κ × α)
  | [] => [e]
  | f :: rest => if e.1 == f.1 then e :: rest else e :: f :: rest

/-- Keep the first of neighbouring entries with one key. -/
def dedupKeys {κ α : Type} [BEq κ] (es : List (κ × α)) : List (κ × α) :=
  es.foldr consKey []

namespace Program

/-- Order entries by name. -/
def sortByName {α : Type} (es : List (String × α)) : List (String × α) :=
  es.mergeSort fun a b => decide (a.1 ≤ b.1)

/-- The program of an engine after its final pass. -/
def ofEngine (e : Engine) : Program :=
  { regions := e.regions.reverse.mergeSort fun a b => decide (a.start ≤ b.start)
    labels := sortByName e.labels.values
    vars := sortByName e.vars.values
    source := dedupKeys (e.source.mergeSort fun a b => decide (a.1 ≤ b.1))
    unused := ((e.vars.entries.filter fun v => !v.2.wasRead).map (·.1)).mergeSort
      fun a b => decide (a ≤ b) }

/-- Is `a` the better name for an address?  Names without a parent come
first, then shorter ones, then those earlier in the alphabet. -/
def betterName (a b : String) : Bool :=
  if isQualifiedName a != isQualifiedName b then !isQualifiedName a
  else if a.utf8ByteSize != b.utf8ByteSize then a.utf8ByteSize < b.utf8ByteSize
  else decide (a < b)

/-- The address of a symbol value. -/
def addressOf (v : Int64) : UInt16 := v.toUInt64.toUInt16

/-- The best name of each labelled address, by address. -/
def labelMap (p : Program) : List (UInt16 × String) :=
  let named := p.labels.map fun l => (addressOf l.2, l.1)
  dedupKeys (named.mergeSort fun a b =>
    decide (a.1 < b.1) || (a.1 == b.1 && !betterName b.2 a.2))

/-- Where the byte at an address came from. -/
def locationOf (p : Program) (a : UInt16) : Option Location := p.source.lookup a

/-- The nearest labelled address at or below an address. -/
def nearestLabel (p : Program) (a : UInt16) : Option (UInt16 × String) :=
  (p.labelMap.filter fun l => l.1 ≤ a).getLast?

/-- An address as label and offset, with its source location where known. -/
def describe (p : Program) (a : UInt16) : String :=
  let place := match p.nearestLabel a with
    | none => ""
    | some (base, name) =>
      if base == a then " <" ++ name ++ ">"
      else " <" ++ name ++ "+" ++ Text.decimal (a.toNat - base.toNat) ++ ">"
  let origin := match p.locationOf a with
    | none => ""
    | some loc => " (" ++ loc.render ++ ")"
  "$" ++ Text.hex 4 a.toNat ++ place ++ origin

/-- The labels, then the variables, each by name. -/
def symbols (p : Program) : List (String × Int64) := p.labels ++ p.vars

/-- Number of emitted bytes. -/
def size (p : Program) : Nat := Region.total p.regions

/-- The lowest emitted address. -/
def start? (p : Program) : Option UInt16 := p.regions.head?.map (·.start)

end Program

end Mos6510
