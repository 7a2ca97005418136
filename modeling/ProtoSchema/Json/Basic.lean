/-
  JSON values. Objects keep their entries in order, with
  keys that may repeat, and integers are exact.

  Key definitions include:
    * `Json`
    * `Json.depth`
    * `Json.isUsable`
    * `Json.record?`
-/

namespace ProtoSchema

/-
  A JSON value. A number with a fraction or an exponent is
  known to be one and no more. A value is unusable if it is
  well formed and still denotes nothing: text with half of a
  surrogate pair in it, an object with such a key, a number
  beyond the range of doubles.
-/
inductive Json where
  | null
  | bool (value : Bool)
  | int (value : Int)
  | real
  | str (text : String)
  | arr (items : List Json)
  | obj (entries : List (String × Json))
  | unusable

namespace Json

mutual

/- The number of containers on the longest way inwards. -/
def depth : Json → Nat
  | .arr items => depthOfItems items + 1
  | .obj entries => depthOfEntries entries + 1
  | _ => 0

def depthOfItems : List Json → Nat
  | [] => 0
  | item :: rest => max item.depth (depthOfItems rest)

def depthOfEntries : List (String × Json) → Nat
  | [] => 0
  | (_, value) :: rest =>
      max value.depth (depthOfEntries rest)

end

mutual

/- Whether every value inside denotes something. -/
def isUsable : Json → Bool
  | .arr items => itemsUsable items
  | .obj entries => entriesUsable entries
  | .unusable => false
  | _ => true

def itemsUsable : List Json → Bool
  | [] => true
  | item :: rest => item.isUsable && itemsUsable rest

def entriesUsable : List (String × Json) → Bool
  | [] => true
  | (_, value) :: rest =>
      value.isUsable && entriesUsable rest

end

/- The values that stand under a key. -/
def valuesOf
    (key : String)
    (entries : List (String × Json)) : List Json :=
  (entries.filter (·.1 = key)).map (·.2)

/-
  The value under a key that stands there at most once. The
  outer option tells whether it does.
-/
def valueOf?
    (entries : List (String × Json))
    (key : String) : Option (Option Json) :=
  match valuesOf key entries with
  | [] => some none
  | [value] => some (some value)
  | _ => none

/-
  The values of a record with the given keys, in their
  order: an object gives those that it has, and may have
  others; an array gives all of them, and no more.
-/
def record?
    (keys : List String) : Json → Option (List (Option Json))
  | .obj entries => keys.mapM (valueOf? entries)
  | .arr items =>
      if items.length = keys.length then
        some (items.map some)
      else
        none
  | _ => none

/- The text that a value is. -/
def string? : Json → Option String
  | .str text => some text
  | _ => none

/- The truth value that a value is. -/
def bool? : Json → Option Bool
  | .bool value => some value
  | _ => none

/- The elements that a value has as an array. -/
def items? : Json → Option (List Json)
  | .arr items => some items
  | _ => none

end Json

end ProtoSchema
