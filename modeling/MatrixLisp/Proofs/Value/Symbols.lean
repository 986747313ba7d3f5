import Mathlib.Tactic
import MatrixLisp.Proofs.Value.Renaming

/-!
# Symbols and closures in a value

A program is a value, so that a symbol occurs in it as in any other one: anywhere among the items of
lists and vectors, the entries of maps, and the parameters and bodies of closures. A value that is
only data may hold closures; what is said of all closures in it leaves the data open.
-/
namespace MatrixLisp.Value

/-- A symbol occurs nowhere in a value. -/
inductive Omits (name : String) : Value → Prop
  | atom {v : Value} : v.IsAtom → v ≠ .symbol name → Omits name v
  | list {items : List Value} : (∀ v ∈ items, Omits name v) → Omits name (.list items)
  | vector {items : List Value} : (∀ v ∈ items, Omits name v) → Omits name (.vector items)
  | map {entries : List (Value × Value)} : (∀ e ∈ entries, Omits name e.1) →
      (∀ e ∈ entries, Omits name e.2) → Omits name (.map entries)
  | closure {id : ℕ} {params : List Value} {body : Value} {scope : Scope} :
      (∀ p ∈ params, Omits name p) → Omits name body →
      Omits name (.closure id params body scope)

/-- All closures in a value have parameters and a body as described. -/
inductive AllClosures (P : List Value → Value → Prop) : Value → Prop
  | atom {v : Value} : v.IsAtom → AllClosures P v
  | list {items : List Value} : (∀ v ∈ items, AllClosures P v) → AllClosures P (.list items)
  | vector {items : List Value} : (∀ v ∈ items, AllClosures P v) → AllClosures P (.vector items)
  | map {entries : List (Value × Value)} : (∀ e ∈ entries, AllClosures P e.1) →
      (∀ e ∈ entries, AllClosures P e.2) → AllClosures P (.map entries)
  | closure {id : ℕ} {params : List Value} {body : Value} {scope : Scope} :
      P params body → AllClosures P (.closure id params body scope)

namespace Omits

variable {name : String} {v : Value}

theorem items (h : v.Omits name) {items : List Value} (hitems : v.items? = some items) :
    ∀ item ∈ items, item.Omits name := by
  cases h with
  | atom hatom => cases v <;> first | cases hatom; done | cases hitems
  | list h =>
    cases hitems
    exact h
  | vector h =>
    cases hitems
    exact h
  | _ => cases hitems

theorem entries {d : Dict} (h : (Value.map d).Omits name) : ∀ e ∈ d, e.1.Omits name ∧ e.2.Omits name := by
  cases h with
  | atom hatom => cases hatom
  | map hkeys hvalues => exact fun e he => ⟨hkeys e he, hvalues e he⟩

@[simp] theorem symbol_iff {other : String} : (Value.symbol other).Omits name ↔ other ≠ name := by
  constructor
  · rintro h rfl
    cases h with
    | atom _ hne => exact hne rfl
  · exact fun hne => .atom trivial fun heq => hne (Value.symbol.inj heq)

@[simp] theorem number (n : Number) : (Value.number n).Omits name := .atom trivial nofun

@[simp] theorem list_iff {items : List Value} :
    (Value.list items).Omits name ↔ ∀ v ∈ items, v.Omits name :=
  ⟨fun h => h.items rfl, .list⟩

@[simp] theorem map_iff {d : Dict} :
    (Value.map d).Omits name ↔ ∀ e ∈ d, e.1.Omits name ∧ e.2.Omits name :=
  ⟨fun h => h.entries, fun h => .map (fun e he => (h e he).1) fun e he => (h e he).2⟩

theorem closures (h : v.Omits name) :
    v.AllClosures fun params body => (∀ p ∈ params, p.Omits name) ∧ body.Omits name := by
  induction h with
  | atom hatom => exact .atom hatom
  | list _ ih => exact .list ih
  | vector _ ih => exact .vector ih
  | map _ _ ihkeys ihvalues => exact .map ihkeys ihvalues
  | closure hparams hbody => exact .closure ⟨hparams, hbody⟩

end Omits

namespace AllClosures

variable {P : List Value → Value → Prop} {v : Value}

theorem items (h : v.AllClosures P) {items : List Value} (hitems : v.items? = some items) :
    ∀ item ∈ items, item.AllClosures P := by
  cases h with
  | atom hatom => cases v <;> first | cases hatom; done | cases hitems
  | list h =>
    cases hitems
    exact h
  | vector h =>
    cases hitems
    exact h
  | _ => cases hitems

theorem entries {d : Dict} (h : (Value.map d).AllClosures P) :
    ∀ e ∈ d, e.1.AllClosures P ∧ e.2.AllClosures P := by
  cases h with
  | atom hatom => cases hatom
  | map hkeys hvalues => exact fun e he => ⟨hkeys e he, hvalues e he⟩

end AllClosures

end MatrixLisp.Value
