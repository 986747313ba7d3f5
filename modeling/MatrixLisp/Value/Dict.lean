import MatrixLisp.Value.Equality

/-!
# Dictionaries

The entries of a map form a dictionary in insertion order. A key matches another when they are
equal and have the same text, so `1` and `1.0` are different keys although they are equal values.
-/
namespace MatrixLisp

/-- Keys with their values, in the order in which the keys first came. -/
abbrev Dict := List (Value × Value)

namespace Dict

/-- Whether the key of an entry stands for a given key. -/
def isKey (key other : Value) : Bool := key.equal other && key.render == other.render

def find? (d : Dict) (key : Value) : Option Value :=
  (List.find? (fun entry => isKey entry.1 key) d).map Prod.snd

/-- Sets the value under a key. A new key comes last; a key that is there keeps its place. -/
def insert : Dict → Value → Value → Dict
  | [], key, value => [(key, value)]
  | (k, v) :: rest, key, value =>
    if isKey k key then (k, value) :: rest else (k, v) :: insert rest key value

/-- The dictionary that results from setting values one after another. -/
def ofList (entries : List (Value × Value)) : Dict :=
  entries.foldl (fun d (entry : Value × Value) => d.insert entry.1 entry.2) []

/-- A sequence of keys and values by turns, taken in pairs. -/
def pairs : List Value → List (Value × Value)
  | key :: value :: rest => (key, value) :: pairs rest
  | _ => []

end Dict

end MatrixLisp
