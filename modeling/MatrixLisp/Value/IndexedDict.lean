import MatrixLisp.Value.Dict

/-!
# Dictionaries with an index

A dictionary is built with an index beside it: for every text, the places of the keys that have it.
A key is then looked for only among the entries whose keys have its text.
-/
namespace MatrixLisp

namespace Dict

/-- Whether the key of the entry at a place has a text. -/
def hasText (d : Dict) (text : String) (i : Nat) : Bool := d[i]?.any (·.1.render == text)

/-- The places of the keys that have a text, in order. -/
def places (d : Dict) (text : String) : List Nat := (List.range d.length).filter (d.hasText text)

/-- A new entry comes to the place after all others. -/
theorem places_append (d : Dict) (e : Value × Value) (text : String) :
    places (d ++ [e]) text =
      places d text ++ (if e.1.render == text then [d.length] else []) := by
  have hfront : ∀ i ∈ List.range d.length, hasText (d ++ [e]) text i = hasText d text i := by
    intro i hi
    rw [hasText, hasText, List.getElem?_append_left (List.mem_range.mp hi)]
  have hlast : hasText (d ++ [e]) text d.length = (e.1.render == text) := by
    simp [hasText]
  rw [places, List.length_append, List.length_singleton, List.range_succ, List.filter_append,
    List.filter_congr hfront, List.filter_cons, List.filter_nil, hlast, places]

/-- Another value under a key changes no place. -/
theorem places_modify (d : Dict) (i : Nat) (value : Value) (text : String) :
    places (d.modify i fun e => (e.1, value)) text = places d text := by
  have hsame : hasText (d.modify i fun e => (e.1, value)) text = hasText d text := by
    funext j
    rw [hasText, hasText, List.getElem?_modify]
    cases d[j]? with
    | none => rfl
    | some e => by_cases h : i = j <;> simp [h]
  rw [places, hsame, List.length_modify, places]

end Dict

/-- A dictionary with the places of its keys by their texts. -/
structure IndexedDict where
  entries : Dict
  bucket : String → List Nat
  bucket_eq : ∀ text, bucket text = entries.places text

namespace IndexedDict

def empty : IndexedDict := ⟨[], fun _ => [], fun _ => rfl⟩

def size (d : IndexedDict) : Nat := d.entries.length

/-- The place of the entry that a key stands for: of the keys with its text, the first that is equal
to it. -/
def place? (d : IndexedDict) (key : Value) : Option Nat :=
  (d.bucket key.render).find? fun i => d.entries[i]?.any (·.1.equal key)

def find? (d : IndexedDict) (key : Value) : Option Value :=
  (d.place? key).bind fun i => d.entries[i]?.map Prod.snd

def setValue (d : IndexedDict) (i : Nat) (value : Value) : IndexedDict where
  entries := d.entries.modify i fun e => (e.1, value)
  bucket := d.bucket
  bucket_eq text := by rw [d.bucket_eq, Dict.places_modify]

def push (d : IndexedDict) (key value : Value) : IndexedDict where
  entries := d.entries ++ [(key, value)]
  bucket text := d.bucket text ++ (if key.render == text then [d.size] else [])
  bucket_eq text := by
    rw [d.bucket_eq, Dict.places_append]
    rfl

/-- Sets the value under a key. A new key comes last; a key that is there keeps its place. -/
def insert (d : IndexedDict) (key value : Value) : IndexedDict :=
  match d.place? key with
  | some i => d.setValue i value
  | none => d.push key value

/-- The dictionary that results from setting values one after another. -/
def ofList (entries : List (Value × Value)) : IndexedDict :=
  entries.foldl (fun d (entry : Value × Value) => d.insert entry.1 entry.2) empty

end IndexedDict

end MatrixLisp
