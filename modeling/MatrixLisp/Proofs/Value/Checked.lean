import MatrixLisp.Proofs.Linear.Widths
import MatrixLisp.Proofs.Number.Comparison
import MatrixLisp.Proofs.Value.OrderedDictionary
import MatrixLisp.Proofs.Value.Renaming

/-!
# Checked operations on values

Values are printed, compared and calculated with here as the language does it, and every access and every
operation on words on the way is checked: to the entries of a matrix, to the entries of a map by the
places that its index gives, and in the wide words of fractions. For well-formed values whose matrices
can be held, no check fails.
-/
namespace MatrixLisp

/-- The entries of every matrix in a value, at any depth, can be counted. What a closure refers to does
not count. -/
inductive Value.Held : Value → Prop
  | symbol (name : String) : Held (.symbol name)
  | number (n : Number) : Held (.number n)
  | bool (b : Bool) : Held (.bool b)
  | nil : Held .nil
  | list {items : List Value} : (∀ v ∈ items, Held v) → Held (.list items)
  | vector {items : List Value} : (∀ v ∈ items, Held v) → Held (.vector items)
  | map {entries : List (Value × Value)} : (∀ e ∈ entries, Held e.1) → (∀ e ∈ entries, Held e.2) →
      Held (.map entries)
  | builtin (b : Builtin) : Held (.builtin b)
  | closure (id : Nat) (params : List Value) (body : Value) (scope : Scope) :
      Held (.closure id params body scope)
  | numVector (v : NumVector) : Held (.numVector v)
  | matrix {m : Matrix} : m.Countable → Held (.matrix m)

namespace Value

theorem Held.items {v : Value} (h : v.Held) {items : List Value} (hitems : v.items? = some items) :
    ∀ item ∈ items, item.Held := by
  cases h with
  | list h =>
    cases hitems
    exact h
  | vector h =>
    cases hitems
    exact h
  | _ => cases hitems

/-! ## Text -/

mutual

def render? : Value → Option String
  | list items => (renderItems? items).map fun texts => "(" ++ " ".intercalate texts ++ ")"
  | vector items => (renderItems? items).map fun texts => "[" ++ " ".intercalate texts ++ "]"
  | map entries =>
    (renderEntries? entries).map fun texts => "\x7b" ++ " ".intercalate texts ++ "\x7d"
  | matrix m => Word.text? m
  | v => some v.render

def renderItems? : List Value → Option (List String)
  | [] => some []
  | v :: rest => do return (← v.render?) :: (← renderItems? rest)

def renderEntries? : List (Value × Value) → Option (List String)
  | [] => some []
  | (k, v) :: rest => do return ((← k.render?) ++ " " ++ (← v.render?)) :: (← renderEntries? rest)

end

theorem renderItems?_eq {items : List Value} (h : ∀ v ∈ items, v.render? = some v.render) :
    renderItems? items = some (renderItems items) := by
  induction items with
  | nil => rw [renderItems?, renderItems]
  | cons v rest ih =>
    obtain ⟨hv, hrest⟩ := List.forall_mem_cons.mp h
    rw [renderItems?, hv, ih hrest, renderItems]
    rfl

theorem renderEntries?_eq {entries : List (Value × Value)}
    (h : ∀ e ∈ entries, e.1.render? = some e.1.render ∧ e.2.render? = some e.2.render) :
    renderEntries? entries = some (renderEntries entries) := by
  induction entries with
  | nil => rw [renderEntries?, renderEntries]
  | cons e rest ih =>
    obtain ⟨⟨hkey, hvalue⟩, hrest⟩ := List.forall_mem_cons.mp h
    rw [renderEntries?, hkey, hvalue, ih hrest, renderEntries]
    rfl

theorem render?_eq {v : Value} (hv : v.WellFormed) (hheld : v.Held) : v.render? = some v.render := by
  induction hheld with
  | list _ ih =>
    cases hv with
    | list hitems =>
      rw [render?, renderItems?_eq fun v hv => ih v hv (hitems v hv), render]
      rfl
  | vector _ ih =>
    cases hv with
    | vector hitems =>
      rw [render?, renderItems?_eq fun v hv => ih v hv (hitems v hv), render]
      rfl
  | map _ _ ihkey ihvalue =>
    cases hv with
    | map _ hkeys hvalues =>
      rw [render?, renderEntries?_eq fun e he =>
        ⟨ihkey e he (hkeys e he), ihvalue e he (hvalues e he)⟩, render]
      rfl
  | matrix hm =>
    cases hv with
    | matrix hwf => rw [render?, Word.text?_eq hwf hm, render]
  | _ => simp [render?]

/-! ## Equality -/

theorem sizeOf_entry_lt {entries : List (Value × Value)} {i : ℕ} {k v : Value}
    (h : entries[i]? = some (k, v)) : sizeOf k + sizeOf v < sizeOf entries := by
  have hentry := List.sizeOf_lt_of_mem (List.mem_of_getElem? h)
  simp only [Prod.mk.sizeOf_spec] at hentry
  omega

mutual

def equal? (a b : Value) : Option Bool :=
  match a, b with
  | list xs, list ys => equalSequences? xs ys
  | list xs, vector ys => equalSequences? xs ys
  | vector xs, list ys => equalSequences? xs ys
  | vector xs, vector ys => equalSequences? xs ys
  | map xs, map ys => if xs.length = ys.length then equalEntries? xs ys else some false
  | a, b => some (a.equal b)
termination_by (sizeOf a + sizeOf b, 0)

/-- Equality of two sequences. Items are compared only if there are equally many. -/
def equalSequences? (xs ys : List Value) : Option Bool :=
  if xs.length = ys.length then equalItems? xs ys else some false
termination_by (sizeOf xs + sizeOf ys, 1)

/-- Equality of the items at equal positions, up to the first that differ. -/
def equalItems? (xs ys : List Value) : Option Bool :=
  match xs, ys with
  | x :: xs, y :: ys => do if ← x.equal? y then equalItems? xs ys else return false
  | _, _ => some true
termination_by (sizeOf xs + sizeOf ys, 0)

/-- Whether every entry finds an equal value under its key. -/
def equalEntries? (entries others : List (Value × Value)) : Option Bool :=
  match entries with
  | [] => some true
  | (k, v) :: rest => do
    let text ← k.render?
    if ← holds? others (Dict.places others text) k v then equalEntries? rest others
    else return false
termination_by (sizeOf entries + sizeOf others, 0)

/-- Whether a key finds a value that equals the given one, among the entries at some places. -/
def holds? (entries : List (Value × Value)) (places : List ℕ) (key value : Value) : Option Bool :=
  match places with
  | [] => some false
  | i :: rest =>
    match _h : entries[i]? with
    | none => none
    | some (k, v) => do if ← k.equal? key then v.equal? value else holds? entries rest key value
termination_by (sizeOf entries + sizeOf key + sizeOf value, places.length)
decreasing_by
  -- What is compared is part of an entry; the search itself only goes on to the next place.
  · have hentry := sizeOf_entry_lt _h
    exact Prod.Lex.left _ _ (by omega)
  · have hentry := sizeOf_entry_lt _h
    exact Prod.Lex.left _ _ (by omega)
  · exact Prod.Lex.right _ (Nat.lt_succ_self _)

end

section

variable {d : Dict} {key value : Value}

theorem holds_eq : holds d key value = (d.find? key).any (·.equal value) := by
  rw [Bool.eq_iff_iff, holds_iff, Option.any_eq_true]

/-- The places are gone through in order, up to the first whose key is equal to the given one. -/
theorem holds?_eq_find? (hkeys : ∀ e ∈ d, e.1.equal? key = some (e.1.equal key))
    (hvalues : ∀ e ∈ d, e.2.equal? value = some (e.2.equal value)) {places : List ℕ}
    (hplaces : ∀ i ∈ places, i < d.length) :
    holds? d places key value =
      some (((places.find? fun i => d[i]?.any (·.1.equal key)).bind fun i =>
        d[i]?.map Prod.snd).any (·.equal value)) := by
  induction places with
  | nil => rw [holds?]; rfl
  | cons i rest ih =>
    obtain ⟨hi, hrest⟩ := List.forall_mem_cons.mp hplaces
    have hentry : d[i]? = some d[i] := List.getElem?_eq_getElem hi
    have hmem : d[i] ∈ d := List.getElem_mem hi
    rw [holds?]
    split
    · rename_i hnone
      rw [hentry] at hnone
      cases hnone
    · rename_i k v hsome
      have hmem := List.mem_of_getElem? hsome
      rw [hkeys _ hmem, List.find?_cons, hsome]
      cases hkey : k.equal key with
      | true => simpa [hkey, hsome] using hvalues _ hmem
      | false => simpa [hkey] using ih hrest

/-- The index finds what a search through all entries finds. -/
theorem holds?_eq (hkeys : ∀ e ∈ d, e.1.equal? key = some (e.1.equal key))
    (hvalues : ∀ e ∈ d, e.2.equal? value = some (e.2.equal value)) :
    holds? d (d.places key.render) key value = some (holds d key value) := by
  have hfind := IndexedDict.find?_eq ⟨d, d.places, fun _ => rfl⟩ key
  have hplaces : ∀ i ∈ d.places key.render, i < d.length := fun i hi =>
    List.mem_range.mp (List.mem_of_mem_filter hi)
  rw [holds?_eq_find? hkeys hvalues hplaces, holds_eq, ← hfind]
  rfl

end

theorem equalEntries?_eq {d others : Dict} (htext : ∀ e ∈ d, e.1.render? = some e.1.render)
    (h : ∀ e ∈ d, ∀ o ∈ others,
      o.1.equal? e.1 = some (o.1.equal e.1) ∧ o.2.equal? e.2 = some (o.2.equal e.2)) :
    equalEntries? d others = some (equalEntries d others) := by
  induction d with
  | nil => rw [equalEntries?, equalEntries]
  | cons e rest ih =>
    obtain ⟨hkey, hkeys⟩ := List.forall_mem_cons.mp htext
    obtain ⟨he, hrest⟩ := List.forall_mem_cons.mp h
    rw [equalEntries?, hkey, equalEntries]
    simp only [Option.bind_eq_bind, Option.bind_some]
    rw [holds?_eq (fun o ho => (he o ho).1) fun o ho => (he o ho).2, ih hkeys hrest]
    cases holds others e.1 e.2 <;> rfl

theorem equalItems?_eq {xs ys : List Value} (hlength : xs.length = ys.length)
    (h : ∀ x ∈ xs, ∀ y ∈ ys, x.equal? y = some (x.equal y)) :
    equalItems? xs ys = some (equalItems xs ys) := by
  induction xs generalizing ys with
  | nil =>
    obtain rfl := List.eq_nil_of_length_eq_zero hlength.symm
    simp [equalItems?, equalItems]
  | cons x xs ih =>
    cases ys with
    | nil => cases hlength
    | cons y ys =>
      have hrest : ∀ x ∈ xs, ∀ y ∈ ys, x.equal? y = some (x.equal y) :=
        fun x hx y hy => h x (by simp [hx]) y (by simp [hy])
      rw [equalItems?, h x (by simp) y (by simp), ih (Nat.succ.inj hlength) hrest, equalItems]
      cases x.equal y <;> rfl

theorem equalSequences?_eq {xs ys : List Value}
    (h : ∀ x ∈ xs, ∀ y ∈ ys, x.equal? y = some (x.equal y)) :
    equalSequences? xs ys = some (equalItems xs ys) := by
  rw [equalSequences?]
  split_ifs with hlength
  · exact equalItems?_eq hlength h
  · have hne : equalItems xs ys = false := by
      rw [← Bool.not_eq_true, equalItems_iff]
      exact fun hitems => hlength hitems.length_eq
    rw [hne]

theorem equalMaps?_eq {d others : Dict} (htext : ∀ e ∈ d, e.1.render? = some e.1.render)
    (h : ∀ e ∈ d, ∀ o ∈ others,
      o.1.equal? e.1 = some (o.1.equal e.1) ∧ o.2.equal? e.2 = some (o.2.equal e.2)) :
    (map d).equal? (map others) = some ((map d).equal (map others)) := by
  rw [equal?, equal, equalEntries?_eq htext h]
  split_ifs with hlength
  · rw [hlength, beq_self_eq_true, Bool.true_and]
  · rw [beq_false_of_ne hlength, Bool.false_and]

/-- Two values are compared within the words, in either order. -/
def Compares (a b : Value) : Prop :=
  a.equal? b = some (a.equal b) ∧ b.equal? a = some (b.equal a)

theorem compares_of_items {a b : Value} {xs ys : List Value} (ha : a.items? = some xs)
    (hb : b.items? = some ys) (h : ∀ x ∈ xs, ∀ y ∈ ys, x.Compares y) : a.Compares b := by
  have hforth := equalSequences?_eq fun x hx y hy => (h x hx y hy).1
  have hback := equalSequences?_eq fun y hy x hx => (h x hx y hy).2
  unfold Compares
  cases a with
  | list | vector =>
    cases ha
    cases b with
    | list | vector =>
      cases hb
      rw [equal?, equal, equal?, equal]
      exact ⟨hforth, hback⟩
    | _ => cases hb
  | _ => cases ha

theorem compares_map {d others : Dict} (htext : ∀ e ∈ d, e.1.render? = some e.1.render)
    (hothers : ∀ o ∈ others, o.1.render? = some o.1.render)
    (h : ∀ e ∈ d, ∀ o ∈ others, e.1.Compares o.1 ∧ e.2.Compares o.2) :
    (map d).Compares (map others) :=
  ⟨equalMaps?_eq htext fun e he o ho => ⟨(h e he o ho).1.2, (h e he o ho).2.2⟩,
    equalMaps?_eq hothers fun o ho e he => ⟨(h e he o ho).1.1, (h e he o ho).2.1⟩⟩

/-- The keys of a map are looked up in the other map, so both orders are shown at once. -/
theorem compares {a : Value} (ha : a.WellFormed) (haHeld : a.Held) {b : Value} (hb : b.WellFormed)
    (hbHeld : b.Held) : a.Compares b := by
  induction haHeld generalizing b with
  | list _ ih =>
    cases ha with
    | list hxs =>
      cases b with
      | list | vector =>
        exact compares_of_items rfl rfl fun x hx y hy =>
          ih x hx (hxs x hx) (hb.items rfl y hy) (hbHeld.items rfl y hy)
      | _ => exact ⟨by simp [equal?], by simp [equal?]⟩
  | vector _ ih =>
    cases ha with
    | vector hxs =>
      cases b with
      | list | vector =>
        exact compares_of_items rfl rfl fun x hx y hy =>
          ih x hx (hxs x hx) (hb.items rfl y hy) (hbHeld.items rfl y hy)
      | _ => exact ⟨by simp [equal?], by simp [equal?]⟩
  | map hkeysHeld _ ihkey ihvalue =>
    cases ha with
    | map _ hkeys hvalues =>
      cases hb with
      | map _ hotherKeys hotherValues =>
        cases hbHeld with
        | map hotherKeysHeld hotherValuesHeld =>
          refine compares_map (fun e he => render?_eq (hkeys e he) (hkeysHeld e he))
            (fun o ho => render?_eq (hotherKeys o ho) (hotherKeysHeld o ho)) fun e he o ho => ?_
          exact ⟨ihkey e he (hkeys e he) (hotherKeys o ho) (hotherKeysHeld o ho),
            ihvalue e he (hvalues e he) (hotherValues o ho) (hotherValuesHeld o ho)⟩
      | _ => exact ⟨by simp [equal?], by simp [equal?]⟩
  | _ => exact ⟨by simp [equal?], by simp [equal?]⟩

theorem equal?_eq {a b : Value} (ha : a.WellFormed) (haHeld : a.Held) (hb : b.WellFormed)
    (hbHeld : b.Held) : a.equal? b = some (a.equal b) := (compares ha haHeld hb hbHeld).1

/-! ## Operators -/

def relate? (r : Relation) (a b : Value) : Option (Except Fault Value) :=
  match a, b with
  | number x, number y => (Wide.compareNumbers? x y).map fun o => .ok (bool (o.any r.holds))
  | a, b => some (.error (operandFault r.symbol a b))

/-- Arithmetic on numbers, vectors and matrices. No position is computed for the entries. -/
def calculate? (op : Arith) (a b : Value) : Option (Except Fault Value) :=
  match a, b with
  | number x, number y => (Wide.applyNumbers? op x y).map (Except.map number)
  | a, b => some (calculate op a b)

def binary? (op : Operator) (a b : Value) : Option (Except Fault Value) :=
  match op with
  | .equal => (a.equal? b).map fun equal => .ok (bool equal)
  | .notEqual => (a.equal? b).map fun equal => .ok (bool (!equal))
  | .relation r => relate? r a b
  | .arith op => calculate? op a b

theorem relate?_eq (r : Relation) (a b : Value) : relate? r a b = some (relate r a b) := by
  cases a with
  | number x =>
    cases b with
    | number y =>
      rw [relate?, Wide.compareNumbers?_eq, relate]
      rfl
    | _ => rfl
  | _ => rfl

end Value

namespace Number.WellFormed

variable {x y : Number}

theorem denotes_or_float (h : x.WellFormed) : (∃ a, x.Denotes a) ∨ ∃ r, x = .float r := by
  cases x with
  | int n => exact .inl ⟨_, .int n⟩
  | rational q => exact .inl ⟨_, .rational h⟩
  | float r => exact .inr ⟨r, rfl⟩

/-- Exact numbers need wide words, and with a float there is nothing to check. -/
theorem applyNumbers?_eq (op : Arith) (hx : x.WellFormed) (hy : y.WellFormed) :
    Wide.applyNumbers? op x y = some (apply op x y) := by
  obtain ⟨a, hx⟩ | ⟨r, rfl⟩ := hx.denotes_or_float
  · obtain ⟨b, hy⟩ | ⟨r, rfl⟩ := hy.denotes_or_float
    · exact Number.applyNumbers?_eq op hx hy
    · cases op <;> cases x <;> rfl
  · cases op <;> cases y <;> rfl

end Number.WellFormed

namespace Value

theorem calculate?_eq (op : Arith) {a b : Value} (ha : a.WellFormed) (hb : b.WellFormed) :
    calculate? op a b = some (calculate op a b) := by
  cases ha with
  | number hx =>
    cases hb with
    | number hy =>
      rw [calculate?, hx.applyNumbers?_eq op hy, calculate]
      rfl
    | _ => rfl
  | _ => rfl

/-- An operator on well-formed values whose matrices can be held passes all checks. -/
theorem binary?_eq (op : Operator) {a b : Value} (ha : a.WellFormed) (haHeld : a.Held)
    (hb : b.WellFormed) (hbHeld : b.Held) : binary? op a b = some (binary op a b) := by
  cases op with
  | equal =>
    rw [binary?, equal?_eq ha haHeld hb hbHeld]
    rfl
  | notEqual =>
    rw [binary?, equal?_eq ha haHeld hb hbHeld]
    rfl
  | relation r => exact relate?_eq r a b
  | arith op => exact calculate?_eq op ha hb

end Value

end MatrixLisp
