import MovingAsymptotes.Scalar

/-!
# Value trees

The tree form in which settings and diagnostics are stored: nothing, truth values, whole and other
numbers, text, lists and objects. A record is stored as an object; it may also be given as the list of its
first fields in the order of their declaration. Unknown keys are passed over.
-/

namespace MovingAsymptotes

/-- A tree of stored data. Whole numbers are kept apart, since only they can be counts. -/
inductive Value (α : Type) where
  | null
  | flag (b : Bool)
  | whole (i : Int)
  | number (a : α)
  | text (s : String)
  | list (items : List (Value α))
  | object (fields : List (String × Value α))

namespace Value

variable {α β : Type}

/-- A scalar as a value. What is not finite cannot be stored and becomes `null`. -/
def ofScalar [Scalar α] (a : α) : Value α :=
  if Scalar.isFinite a then .number a else .null

/-- A count as a value. -/
def ofCount (n : Nat) : Value α := .whole n

/-- The scalar that a number of either form stands for. -/
def scalar? [Scalar α] : Value α → Option α
  | .number a => some a
  | .whole i => some (if i < 0 then -(i.natAbs : α) else (i.natAbs : α))
  | _ => none

/-- The count that a whole number from zero to `2 ^ 64 - 1` stands for. -/
def count? : Value α → Option Nat
  | .whole i => if 0 ≤ i ∧ i < UInt64.size then some i.toNat else none
  | _ => none

/-- The truth value, if there is one. -/
def flag? : Value α → Option Bool
  | .flag b => some b
  | _ => none

/-- The name of a case without data: text, or an object whose only key has no value. -/
def caseName? : Value α → Option String
  | .text s => some s
  | .object [(key, .null)] => some key
  | _ => none

/-- The fields of a record with the given keys: those of an object, or the items of a list under the
first keys. A list with more items than keys is none of them. -/
def fields? (keys : List String) : Value α → Option (List (String × Value α))
  | .object fields => some fields
  | .list items => if items.length ≤ keys.length then some (keys.zip items) else none
  | _ => none

end Value

/-- The field under a key, which has to be there. -/
def requiredField {α β : Type} (fields : List (String × Value α)) (key : String)
    (decode : Value α → Option β) : Option β :=
  (fields.lookup key).bind decode

/-- The field under a key, or a default where the key is missing. -/
def optionalField {α β : Type} (fields : List (String × Value α)) (key : String)
    (decode : Value α → Option β) (default : β) : Option β :=
  match fields.lookup key with
  | none => some default
  | some value => decode value

end MovingAsymptotes
