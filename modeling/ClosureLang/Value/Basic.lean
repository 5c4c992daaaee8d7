import ClosureLang.Tree.Basic

/-!
# Values

What expressions evaluate to. Arrays and hashes hold values; a closure holds the body of a function
literal and the number of the scope in which it was made, so values are plain trees and can be
compared and printed without a store.

The entries of a hash are kept in the order of their keys (`ClosureLang.Value.Entries`).
-/

namespace ClosureLang

/-- The types of values. -/
inductive ValueType where
  | integer | boolean | string | array | hash | function | builtin | null
  deriving DecidableEq, Repr, Inhabited

/-- The name of a type in messages. -/
def ValueType.name : ValueType → String
  | integer => "INTEGER"
  | boolean => "BOOLEAN"
  | string => "STRING"
  | array => "ARRAY"
  | hash => "HASH"
  | function => "FUNCTION"
  | builtin => "BUILTIN"
  | null => "NULL"

/-- The functions that every program can use. -/
inductive Builtin where
  | len | first | last | rest | push
  deriving DecidableEq, Repr, Inhabited

namespace Builtin

/-- The name of a builtin. -/
def name : Builtin → String
  | len => "len"
  | first => "first"
  | last => "last"
  | rest => "rest"
  | push => "push"

/-- Every builtin once. -/
def all : List Builtin := [len, first, last, rest, push]

/-- The builtin with a given name. -/
def ofName? (s : String) : Option Builtin := all.find? (·.name == s)

end Builtin

/-- What a value can be stored under in a hash. -/
inductive Key where
  | int (n : Int64)
  | bool (b : Bool)
  | text (s : String)
  deriving DecidableEq, Repr, Inhabited

/-- The number of a scope in a store. -/
abbrev ScopeId := Nat

/-- A function: the parameters and body of a literal with its tag, and the scope in which the
literal was evaluated. -/
structure Closure (τ : Type) where
  params : List String
  body : Block τ
  tag : τ
  scope : ScopeId

/-- Values. -/
inductive Value (τ : Type) where
  | null
  | int (n : Int64)
  | bool (b : Bool)
  | text (s : String)
  | array (items : List (Value τ))
  | hash (entries : List (Key × Value τ))
  | closure (f : Closure τ)
  | builtin (f : Builtin)

instance {τ : Type} : Inhabited (Value τ) := ⟨.null⟩

variable {τ : Type}

/-- The value that a key stands for. -/
def Key.value : Key → Value τ
  | int n => .int n
  | bool b => .bool b
  | text s => .text s

namespace Value

/-- The type of a value. -/
def type : Value τ → ValueType
  | null => .null
  | int _ => .integer
  | bool _ => .boolean
  | text _ => .string
  | array _ => .array
  | hash _ => .hash
  | closure _ => .function
  | builtin _ => .builtin

/-- Everything counts as true but `null` and `false`. -/
def truthy : Value τ → Bool
  | null => false
  | bool b => b
  | _ => true

/-- What a value is stored under in a hash; only integers, booleans and strings can be. -/
def key? : Value τ → Option Key
  | int n => some (.int n)
  | bool b => some (.bool b)
  | text s => some (.text s)
  | _ => none

theorem key?_eq_some {v : Value τ} {k : Key} (h : v.key? = some k) : v = k.value := by
  cases v <;> simp only [key?, Option.some.injEq, reduceCtorEq] at h <;> subst h <;> rfl

@[simp] theorem key?_value (k : Key) : (k.value : Value τ).key? = some k := by
  cases k <;> rfl

end Value

end ClosureLang
