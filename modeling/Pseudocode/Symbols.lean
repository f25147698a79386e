import Pseudocode.Table

namespace Pseudocode

structure Symbols where
  addresses : Table String UInt64
  names : Table UInt64 String
  deriving Repr

namespace Symbols

def empty : Symbols := ⟨.empty, .empty⟩

def smaller (a : String) : Option String → String
  | none => a
  | some b => if b < a then b else a

def leastName? (address : UInt64) : List (String × UInt64) → Option String
  | [] => none
  | (name, a) :: rest =>
    if a = address then some (smaller name (leastName? address rest)) else leastName? address rest

def reindex (s : Symbols) (address : UInt64) : Symbols :=
  match leastName? address s.addresses.entries with
  | some name => { s with names := s.names.insert address name }
  | none => { s with names := s.names.erase address }

/-- Makes `name` the name of its address unless a smaller one has that place. -/
def claim (s : Symbols) (name : String) (address : UInt64) : Symbols :=
  { s with names := s.names.insert address (smaller name (s.names.get? address)) }

/-- Adds a symbol or moves it. A name that leaves an address gives up its place there. -/
def insert (s : Symbols) (name : String) (address : UInt64) : Symbols :=
  let moved : Symbols := { s with addresses := s.addresses.insert name address }
  match s.addresses.get? name with
  | none => moved.claim name address
  | some old =>
    if old = address then moved
    else if s.names.get? old = some name then (moved.reindex old).claim name address
    else moved.claim name address

def ofList (entries : List (String × UInt64)) : Symbols :=
  entries.foldl (fun s e => s.insert e.1 e.2) empty

def toList (s : Symbols) : List (String × UInt64) :=
  s.addresses.entries

def get? (s : Symbols) (name : String) : Option UInt64 :=
  s.addresses.get? name

def contains (s : Symbols) (name : String) : Bool :=
  s.addresses.contains name

def nameAt? (s : Symbols) (address : UInt64) : Option String :=
  s.names.get? address

def size (s : Symbols) : Nat :=
  s.addresses.size

def isEmpty (s : Symbols) : Bool :=
  s.addresses.isEmpty

end Symbols

end Pseudocode
