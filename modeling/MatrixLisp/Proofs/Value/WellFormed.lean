import Mathlib.Tactic
import MatrixLisp.Proofs.Eval.Store
import MatrixLisp.Proofs.Number.Fraction
import MatrixLisp.Proofs.Value.Dictionary

/-!
# Well-formed values

The types of values admit fractions that are not in lowest terms, matrices whose buffer does not
match their shape, maps with repeated keys and closures whose parameters are not symbols. A value is
well-formed if none of these occurs in it at any depth.
-/
namespace MatrixLisp

/-- A fraction is in lowest terms. -/
def Number.WellFormed : Number → Prop
  | .rational q => q.WellFormed
  | _ => True

/-- Fractions in lowest terms, matrices with as many entries as their shape says, maps without
repeated keys, and closures with symbols as parameters, at every depth. -/
inductive Value.WellFormed : Value → Prop
  | symbol (name : String) : WellFormed (.symbol name)
  | number {n : Number} : n.WellFormed → WellFormed (.number n)
  | bool (b : Bool) : WellFormed (.bool b)
  | nil : WellFormed .nil
  | list {items : List Value} : (∀ v ∈ items, WellFormed v) → WellFormed (.list items)
  | vector {items : List Value} : (∀ v ∈ items, WellFormed v) → WellFormed (.vector items)
  | map {entries : List (Value × Value)} : Dict.Distinct entries →
      (∀ e ∈ entries, WellFormed e.1) → (∀ e ∈ entries, WellFormed e.2) → WellFormed (.map entries)
  | builtin (b : Builtin) : WellFormed (.builtin b)
  | closure (id : Nat) {params : List Value} {body : Value} (scope : Scope) :
      (∀ p ∈ params, ∃ name, p = .symbol name) → WellFormed body →
      WellFormed (.closure id params body scope)
  | numVector (v : NumVector) : WellFormed (.numVector v)
  | matrix {m : Matrix} : m.WellFormed → WellFormed (.matrix m)

namespace Value.WellFormed

theorem int (n : Int64) : WellFormed (.int n) := .number trivial

theorem float (x : Float) : WellFormed (.float x) := .number trivial

theorem items {v : Value} (h : WellFormed v) {items : List Value} (hitems : v.items? = some items) :
    ∀ item ∈ items, WellFormed item := by
  cases h with
  | list h =>
    cases hitems
    exact h
  | vector h =>
    cases hitems
    exact h
  | _ => cases hitems

/-- In a well-formed map no key is repeated, and the values are well-formed. -/
theorem entries {d : Dict} (h : WellFormed (.map d)) : d.Distinct ∧ ∀ e ∈ d, e.2.WellFormed := by
  cases h with
  | map hdistinct _ hvalues => exact ⟨hdistinct, hvalues⟩

end Value.WellFormed

/-- Every value that a frame binds is well-formed. -/
def Frame.WellFormed (frame : Frame) : Prop := ∀ b ∈ frame, b.2.WellFormed

namespace Frame

theorem WellFormed.bind {frame : Frame} (h : frame.WellFormed) (name : String) {value : Value}
    (hvalue : value.WellFormed) : (frame.bind name value).WellFormed :=
  forall_bind (P := fun _ v => v.WellFormed) h hvalue

theorem WellFormed.find? {frame : Frame} (h : frame.WellFormed) {name : String} {value : Value}
    (hfind : frame.find? name = some value) : value.WellFormed := h _ (mem_of_find? hfind)

theorem wellFormed_ofList {bindings : List (String × Value)} (h : ∀ b ∈ bindings, b.2.WellFormed) :
    (ofList bindings).WellFormed := forall_ofList (P := fun _ v => v.WellFormed) h

/-- Symbols as parameters are bound to the arguments without a fault. -/
theorem bindParams_of_symbols {params : List Value}
    (hparams : ∀ p ∈ params, ∃ name, p = Value.symbol name) (args : List Value) (frame : Frame) :
    ∃ frame', bindParams params args frame = .ok frame' ∧
      (frame.WellFormed → (∀ a ∈ args, a.WellFormed) → frame'.WellFormed) := by
  induction params generalizing args frame with
  | nil => exact ⟨frame, rfl, fun h _ => h⟩
  | cons p params ih =>
    cases args with
    | nil => exact ⟨frame, rfl, fun h _ => h⟩
    | cons a args =>
      obtain ⟨name, rfl⟩ := hparams p (by simp)
      obtain ⟨frame', hbind, hframe'⟩ :=
        ih (fun p hp => hparams p (by simp [hp])) args (frame.bind name a)
      refine ⟨frame', hbind, fun h hargs => ?_⟩
      exact hframe' (h.bind name (hargs a (by simp))) fun a ha => hargs a (by simp [ha])

/-- With symbols as parameters, only a wrong number of arguments keeps a call from its frame. -/
theorem ofParams_of_symbols {params : List Value}
    (hparams : ∀ p ∈ params, ∃ name, p = Value.symbol name) (args : List Value) :
    (∃ frame, ofParams params args = .ok frame ∧
      ((∀ a ∈ args, a.WellFormed) → frame.WellFormed)) ∨
      ofParams params args = .error (.closureArity params.length args.length) := by
  unfold ofParams
  split_ifs
  · obtain ⟨frame, hbind, hframe⟩ := bindParams_of_symbols hparams args []
    exact Or.inl ⟨frame, hbind, hframe (by simp [WellFormed])⟩
  · exact Or.inr rfl

end Frame

/-- Every value in every frame is well-formed. -/
def Store.WellFormed (s : Store) : Prop := ∀ id, (s.frame id).WellFormed

namespace Store.WellFormed

theorem empty : Store.empty.WellFormed := All.empty

theorem push {s : Store} (h : s.WellFormed) {frame : Frame} (hframe : frame.WellFormed) :
    (s.push frame).WellFormed := All.push h hframe

theorem bind {s : Store} (h : s.WellFormed) (scope : Scope) (name : String) {value : Value}
    (hvalue : value.WellFormed) : (s.bind scope name value).WellFormed :=
  All.bind h scope name hvalue

theorem find? {s : Store} (h : s.WellFormed) {scope : Scope} {name : String} {value : Value}
    (hfind : s.find? scope name = some value) : value.WellFormed := All.find? h hfind

end Store.WellFormed

end MatrixLisp
