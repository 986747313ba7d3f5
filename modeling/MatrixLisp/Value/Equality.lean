import MatrixLisp.Value.Render

/-!
# Equality of values

Numbers are compared as numbers, and a list equals a vector with equal items. Two maps are equal
when they have equally many entries and every entry of the first finds its value in the second. A
key finds the first entry whose key has the same text and is equal to it. Closures are equal when
they are the same closure.
-/
namespace MatrixLisp.Value

mutual

def equal (a b : Value) : Bool :=
  match a, b with
  | number x, number y => x.equal y
  | symbol x, symbol y => x == y
  | bool x, bool y => x == y
  | nil, nil => true
  | list xs, list ys => equalItems xs ys
  | list xs, vector ys => equalItems xs ys
  | vector xs, list ys => equalItems xs ys
  | vector xs, vector ys => equalItems xs ys
  | map xs, map ys => xs.length == ys.length && equalEntries xs ys
  | numVector x, numVector y => x.nearlyEqual y
  | matrix x, matrix y => x.nearlyEqual y
  | builtin x, builtin y => x == y
  | closure x _ _ _, closure y _ _ _ => x == y
  | _, _ => false
termination_by sizeOf a + sizeOf b

/-- Equality of two sequences, item by item. -/
def equalItems (xs ys : List Value) : Bool :=
  match xs, ys with
  | [], [] => true
  | x :: xs, y :: ys => x.equal y && equalItems xs ys
  | _, _ => false
termination_by sizeOf xs + sizeOf ys

/-- Whether every entry finds an equal value under its key. -/
def equalEntries (entries others : List (Value × Value)) : Bool :=
  match entries with
  | [] => true
  | (k, v) :: rest => holds others k v && equalEntries rest others
termination_by sizeOf entries + sizeOf others

/-- Whether a key finds a value that equals the given one. -/
def holds (entries : List (Value × Value)) (key value : Value) : Bool :=
  match entries with
  | [] => false
  | (k, v) :: rest =>
    if k.equal key && k.render == key.render then v.equal value else holds rest key value
termination_by sizeOf entries + sizeOf key + sizeOf value

end

end MatrixLisp.Value
