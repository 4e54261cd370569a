/-! How values are written out for a reader.

A value is first laid out as a `Term`: numbers and names, lists, a name applied to
one argument, and records with named fields. `Term.render` then writes any term,
so the spelling of brackets and commas is decided once. -/
namespace Philox.Text

/-- A value laid out for reading. -/
inductive Term where
  | number (n : Nat)
  | name (s : String)
  | quoted (s : String)
  | list (items : List Term)
  | applied (name : String) (argument : Term)
  | record (name : String) (fields : List (String × Term))

/-- A quote or a backslash inside a quoted text is written behind a backslash. -/
def escape (s : String) : String :=
  String.join (s.toList.map fun c => if c = '"' || c = '\\' then "\\" ++ c.toString else c.toString)

def commas (parts : List String) : String := ", ".intercalate parts

mutual

def Term.render : Term → String
  | .number n => toString n
  | .name s => s
  | .quoted s => "\"" ++ escape s ++ "\""
  | .list items => "[" ++ commas (renderItems items) ++ "]"
  | .applied name argument => name ++ "(" ++ argument.render ++ ")"
  | .record name fields => name ++ " \x7b " ++ commas (renderFields fields) ++ " \x7d"

def renderItems : List Term → List String
  | [] => []
  | t :: rest => t.render :: renderItems rest

def renderFields : List (String × Term) → List String
  | [] => []
  | (name, t) :: rest => (name ++ ": " ++ t.render) :: renderFields rest

end

/-- A type whose values can be laid out for reading. -/
class Readable (α : Type) where
  term : α → Term

export Readable (term)

/-- The written form of a value. -/
def written [Readable α] (a : α) : String := (term a).render

instance : Readable Nat := ⟨.number⟩
instance : Readable UInt32 := ⟨fun x => .number x.toNat⟩
instance : Readable UInt64 := ⟨fun x => .number x.toNat⟩
instance : Readable Unit := ⟨fun _ => .name "()"⟩

instance [Readable ε] [Readable α] : Readable (Except ε α) where
  term
    | .ok a => .applied "Ok" (term a)
    | .error e => .applied "Err" (term e)

end Philox.Text
