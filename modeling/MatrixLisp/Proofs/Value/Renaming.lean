import Mathlib.Tactic
import MatrixLisp.Proofs.Eval.Store
import MatrixLisp.Proofs.Value.Dictionary
import MatrixLisp.Value.Operator

/-!
# Renaming frames and closures

Frames and closures are named by numbers, in the order in which they are made. A renaming gives
other numbers to both, in scopes and in values. It is seen neither in the text nor in the type of a
value, and equality of values does not depend on it. A value lives among some frames and closures if
it names no others; a renaming that keeps the names of these keeps the value.
-/
namespace MatrixLisp

/-- Other names for frames and closures, different for different ones. -/
structure Renaming where
  frame : FrameId → FrameId
  closure : ℕ → ℕ
  frame_injective : Function.Injective frame
  closure_injective : Function.Injective closure

/-- Nothing gets another name. -/
protected def Renaming.id : Renaming := ⟨fun n => n, fun n => n, fun _ _ h => h, fun _ _ h => h⟩

namespace Scope

/-- The chain of the renamed frames. -/
def rename (ρ : Renaming) (s : Scope) : Scope := ⟨ρ.frame s.inner, s.outer.map ρ.frame⟩

@[simp] theorem chain_rename (ρ : Renaming) (s : Scope) :
    (s.rename ρ).chain = s.chain.map ρ.frame := rfl

theorem rename_extend (ρ : Renaming) (s : Scope) (inner : FrameId) :
    (s.extend inner).rename ρ = (s.rename ρ).extend (ρ.frame inner) := rfl

@[simp] theorem rename_id (s : Scope) : s.rename .id = s := by
  show (⟨s.inner, s.outer.map fun n => n⟩ : Scope) = s
  rw [List.map_id']

/-- All frames of the chain are among the first so many. -/
def LivesIn (frames : ℕ) (s : Scope) : Prop := ∀ id ∈ s.chain, id < frames

theorem LivesIn.rename_eq {frames : ℕ} {s : Scope} (h : s.LivesIn frames) {ρ : Renaming}
    (hρ : ∀ id < frames, ρ.frame id = id) : s.rename ρ = s := by
  have hinner : ρ.frame s.inner = s.inner := hρ _ (h _ (by simp [chain]))
  have houter : s.outer.map ρ.frame = s.outer := by
    rw [List.map_congr_left fun id hid => hρ id (h id (by simp [chain, hid])), List.map_id']
  rw [rename, hinner, houter]

end Scope

namespace Value

/-- Values that hold no others. -/
def IsAtom : Value → Prop
  | list _ | vector _ | map _ | closure .. => False
  | _ => True

/-- What holds of the values that hold no others, and of every other one if it holds of those in it,
holds of all values. -/
@[elab_as_elim]
theorem parts_induction {motive : Value → Prop} (atom : ∀ v, v.IsAtom → motive v)
    (list : ∀ items, (∀ v ∈ items, motive v) → motive (.list items))
    (vector : ∀ items, (∀ v ∈ items, motive v) → motive (.vector items))
    (map : ∀ entries, (∀ e ∈ entries, motive e.1 ∧ motive e.2) → motive (.map entries))
    (closure : ∀ id params body scope, (∀ p ∈ params, motive p) → motive body →
      motive (.closure id params body scope)) (v : Value) : motive v := by
  induction hn : sizeOf v using Nat.strong_induction_on generalizing v with
  | _ n ih =>
    have hpart : ∀ w : Value, sizeOf w < sizeOf v → motive w := fun w hw => ih _ (hn ▸ hw) w rfl
    cases v with
    | list items =>
      refine list items fun w hw => hpart w ?_
      have := List.sizeOf_lt_of_mem hw
      simp only [Value.list.sizeOf_spec]
      omega
    | vector items =>
      refine vector items fun w hw => hpart w ?_
      have := List.sizeOf_lt_of_mem hw
      simp only [Value.vector.sizeOf_spec]
      omega
    | map entries =>
      refine map entries fun e he => ?_
      have hentry := List.sizeOf_lt_of_mem he
      obtain ⟨k, w⟩ := e
      simp only [Prod.mk.sizeOf_spec] at hentry
      constructor
      · apply hpart
        simp only [Value.map.sizeOf_spec]
        omega
      · apply hpart
        simp only [Value.map.sizeOf_spec]
        omega
    | closure id params body scope =>
      refine closure id params body scope (fun p hp => hpart p ?_) (hpart body ?_)
      · have := List.sizeOf_lt_of_mem hp
        simp only [Value.closure.sizeOf_spec]
        omega
      · simp only [Value.closure.sizeOf_spec]
        omega
    | _ => exact atom _ trivial

mutual

/-- The value with its frames and closures renamed. -/
@[simp]
def rename (ρ : Renaming) : Value → Value
  | list items => list (renameItems ρ items)
  | vector items => vector (renameItems ρ items)
  | map entries => map (renameEntries ρ entries)
  | closure id params body scope =>
    closure (ρ.closure id) (renameItems ρ params) (body.rename ρ) (scope.rename ρ)
  | v => v

def renameItems (ρ : Renaming) : List Value → List Value
  | [] => []
  | v :: rest => v.rename ρ :: renameItems ρ rest

def renameEntries (ρ : Renaming) : List (Value × Value) → List (Value × Value)
  | [] => []
  | (k, v) :: rest => (k.rename ρ, v.rename ρ) :: renameEntries ρ rest

end

end Value

def Dict.rename (ρ : Renaming) (d : Dict) : Dict := d.map fun e => (e.1.rename ρ, e.2.rename ρ)

namespace Value

variable (ρ : Renaming)

@[simp] theorem renameItems_eq_map (items : List Value) :
    renameItems ρ items = items.map (rename ρ) := by
  induction items with
  | nil => rfl
  | cons v rest ih => rw [renameItems, ih, List.map_cons]

@[simp] theorem renameEntries_eq (entries : Dict) : renameEntries ρ entries = entries.rename ρ := by
  induction entries with
  | nil => rfl
  | cons e rest ih =>
    rw [renameEntries, ih]
    rfl

theorem rename_list (items : List Value) :
    (list items).rename ρ = list (items.map (rename ρ)) := by rw [rename, renameItems_eq_map]

theorem rename_vector (items : List Value) :
    (vector items).rename ρ = vector (items.map (rename ρ)) := by rw [rename, renameItems_eq_map]

theorem rename_map (entries : Dict) : (map entries).rename ρ = map (entries.rename ρ) := by
  rw [rename, renameEntries_eq]

theorem rename_closure (id : ℕ) (params : List Value) (body : Value) (scope : Scope) :
    (closure id params body scope).rename ρ =
      closure (ρ.closure id) (params.map (rename ρ)) (body.rename ρ) (scope.rename ρ) := by
  rw [rename, renameItems_eq_map]

variable {ρ} in
theorem rename_of_isAtom {v : Value} (h : v.IsAtom) : v.rename ρ = v := by
  cases v with
  | list => cases h
  | vector => cases h
  | map => cases h
  | closure => cases h
  | _ => rfl

@[simp] theorem isAtom_rename (v : Value) : (v.rename ρ).IsAtom ↔ v.IsAtom := by
  cases v <;> simp [IsAtom]

@[simp] theorem symbol?_rename (v : Value) : (v.rename ρ).symbol? = v.symbol? := by
  cases v <;> simp [symbol?]

@[simp] theorem number?_rename (v : Value) : (v.rename ρ).number? = v.number? := by
  cases v <;> simp [number?]

@[simp] theorem int?_rename (v : Value) : (v.rename ρ).int? = v.int? := by
  cases v <;> simp [int?]

@[simp] theorem float?_rename (v : Value) : (v.rename ρ).float? = v.float? := by
  rw [float?, number?_rename, float?]

@[simp] theorem items?_rename (v : Value) :
    (v.rename ρ).items? = v.items?.map (List.map (rename ρ)) := by
  cases v <;> simp [items?]

@[simp] theorem typeName_rename (v : Value) : (v.rename ρ).typeName = v.typeName := by
  cases v <;> simp [typeName]

@[simp] theorem isTruthy_rename (v : Value) : (v.rename ρ).isTruthy = v.isTruthy := by
  cases v <;> simp [isTruthy]

/-- A value is printed the same whatever its frames and closures are named. -/
@[simp] theorem render_rename (v : Value) : (v.rename ρ).render = v.render := by
  have hitems : ∀ items : List Value, (∀ v ∈ items, (v.rename ρ).render = v.render) →
      renderItems (items.map (rename ρ)) = renderItems items := by
    intro items h
    induction items with
    | nil => rfl
    | cons v rest ih =>
      rw [List.map_cons, renderItems, renderItems, h v (by simp),
        ih fun w hw => h w (by simp [hw])]
  induction v using parts_induction with
  | atom v h => rw [rename_of_isAtom h]
  | list items ih => rw [rename_list, render, hitems items ih, render]
  | vector items ih => rw [rename_vector, render, hitems items ih, render]
  | map entries ih =>
    suffices hentries : renderEntries (Dict.rename ρ entries) = renderEntries entries by
      rw [rename_map, render, hentries, render]
    induction entries with
    | nil => rfl
    | cons e rest ihrest =>
      obtain ⟨hkey, hvalue⟩ := ih e (by simp)
      have hrest := ihrest fun e he => ih e (by simp [he])
      rw [Dict.rename, List.map_cons, renderEntries, hkey, hvalue, renderEntries]
      exact congrArg _ hrest
  | closure => rw [rename_closure, render, render]

theorem equalItems_rename {xs ys : List Value}
    (h : ∀ x ∈ xs, ∀ y ∈ ys, (x.rename ρ).equal (y.rename ρ) = x.equal y) :
    equalItems (xs.map (rename ρ)) (ys.map (rename ρ)) = equalItems xs ys := by
  induction xs generalizing ys with
  | nil => cases ys <;> simp [equalItems]
  | cons x xs ih =>
    cases ys with
    | nil => simp [equalItems]
    | cons y ys =>
      have hrest : ∀ x ∈ xs, ∀ y ∈ ys, (x.rename ρ).equal (y.rename ρ) = x.equal y :=
        fun x hx y hy => h x (by simp [hx]) y (by simp [hy])
      rw [List.map_cons, List.map_cons, equalItems, equalItems, h x (by simp) y (by simp), ih hrest]

theorem holds_rename {entries : Dict} {key value : Value}
    (h : ∀ e ∈ entries, (e.1.rename ρ).equal (key.rename ρ) = e.1.equal key ∧
      (e.2.rename ρ).equal (value.rename ρ) = e.2.equal value) :
    holds (entries.rename ρ) (key.rename ρ) (value.rename ρ) = holds entries key value := by
  induction entries with
  | nil => simp [Dict.rename, holds]
  | cons e rest ih =>
    obtain ⟨hkey, hvalue⟩ := h e (by simp)
    have hrest := ih fun e he => h e (by simp [he])
    rw [Dict.rename, List.map_cons, holds, hkey, hvalue, render_rename, render_rename, holds]
    exact congrArg _ hrest

theorem equalEntries_rename {xs ys : Dict}
    (h : ∀ e ∈ xs, ∀ f ∈ ys, (f.1.rename ρ).equal (e.1.rename ρ) = f.1.equal e.1 ∧
      (f.2.rename ρ).equal (e.2.rename ρ) = f.2.equal e.2) :
    equalEntries (xs.rename ρ) (ys.rename ρ) = equalEntries xs ys := by
  induction xs with
  | nil => simp [Dict.rename, equalEntries]
  | cons e rest ih =>
    have hrest := ih fun e he => h e (by simp [he])
    rw [Dict.rename, List.map_cons, equalEntries, holds_rename ρ (h e (by simp)), equalEntries]
    exact congrArg _ hrest

/-- Values are equal by any names of their frames and closures. -/
@[simp] theorem equal_rename (a b : Value) : (a.rename ρ).equal (b.rename ρ) = a.equal b := by
  -- The values of the second map are compared with those of the first, so both orders are needed.
  suffices h : ∀ b : Value, (a.rename ρ).equal (b.rename ρ) = a.equal b ∧
      (b.rename ρ).equal (a.rename ρ) = b.equal a from (h b).1
  have hitems : ∀ xs ys : List Value,
      (∀ x ∈ xs, ∀ y : Value, (x.rename ρ).equal (y.rename ρ) = x.equal y ∧
        (y.rename ρ).equal (x.rename ρ) = y.equal x) →
      equalItems (xs.map (rename ρ)) (ys.map (rename ρ)) = equalItems xs ys ∧
        equalItems (ys.map (rename ρ)) (xs.map (rename ρ)) = equalItems ys xs := by
    intro xs ys ih
    exact ⟨equalItems_rename ρ fun x hx y _ => (ih x hx y).1,
      equalItems_rename ρ fun y _ x hx => (ih x hx y).2⟩
  induction a using parts_induction with
  | atom a h =>
    intro b
    rw [rename_of_isAtom h]
    cases a with
    | list => cases h
    | vector => cases h
    | map => cases h
    | closure => cases h
    | _ => cases b <;> simp [equal]
  | list xs ih =>
    intro b
    rw [rename_list]
    cases b with
    | list ys => simpa only [rename_list, equal] using hitems xs ys ih
    | vector ys => simpa only [rename_vector, equal] using hitems xs ys ih
    | _ => simp [equal]
  | vector xs ih =>
    intro b
    rw [rename_vector]
    cases b with
    | list ys => simpa only [rename_list, equal] using hitems xs ys ih
    | vector ys => simpa only [rename_vector, equal] using hitems xs ys ih
    | _ => simp [equal]
  | map xs ih =>
    intro b
    rw [rename_map]
    cases b with
    | map ys =>
      have hlength : ∀ d : Dict, (d.rename ρ).length = d.length := fun d => List.length_map ..
      simp only [rename_map, equal, hlength]
      constructor
      · rw [equalEntries_rename ρ fun e he f _ => ⟨((ih e he).1 f.1).2, ((ih e he).2 f.2).2⟩]
      · rw [equalEntries_rename ρ fun f _ e he => ⟨((ih e he).1 f.1).1, ((ih e he).2 f.2).1⟩]
    | _ => simp [equal]
  | closure id params body scope =>
    intro b
    rw [rename_closure]
    cases b with
    | closure => simp [equal, ρ.closure_injective.eq_iff]
    | _ => simp [equal]

end Value

namespace Dict

variable (ρ : Renaming)

@[simp] theorem isKey_rename (a b : Value) : isKey (a.rename ρ) (b.rename ρ) = isKey a b := by
  simp [isKey]

theorem insert_rename (d : Dict) (key value : Value) :
    (d.rename ρ).insert (key.rename ρ) (value.rename ρ) = (d.insert key value).rename ρ := by
  induction d with
  | nil => rfl
  | cons e rest ih =>
    simp only [rename, List.map_cons, insert, isKey_rename]
    split_ifs
    · rfl
    · exact congrArg _ ih

theorem pairs_rename (items : List Value) :
    pairs (items.map (Value.rename ρ)) = rename ρ (pairs items) := by
  fun_induction pairs items with
  | case1 key value rest ih => exact congrArg _ ih
  | case2 items h =>
    cases items with
    | nil => rfl
    | cons key rest =>
      cases rest with
      | nil => rfl
      | cons value rest => exact absurd rfl (h key value rest)

end Dict

namespace Frame

/-- The frame with the values of its names renamed. -/
def rename (ρ : Renaming) (frame : Frame) : Frame := frame.map fun b => (b.1, b.2.rename ρ)

variable (ρ : Renaming)

theorem find?_rename (frame : Frame) (name : String) :
    (frame.rename ρ).find? name = (frame.find? name).map (Value.rename ρ) := by
  induction frame with
  | nil => rfl
  | cons b rest ih =>
    obtain ⟨n, v⟩ := b
    rw [rename, List.map_cons, find?, find?, List.lookup_cons, List.lookup_cons]
    cases name == n with
    | true => rfl
    | false => exact ih

theorem bind_rename (frame : Frame) (name : String) (value : Value) :
    (frame.rename ρ).bind name (value.rename ρ) = (frame.bind name value).rename ρ := by
  induction frame with
  | nil => rfl
  | cons b rest ih =>
    simp only [rename, List.map_cons, bind]
    split_ifs
    · rfl
    · exact congrArg _ ih

theorem bindParams_rename (params args : List Value) (frame : Frame) :
    bindParams (params.map (Value.rename ρ)) (args.map (Value.rename ρ)) (frame.rename ρ) =
      (bindParams params args frame).map (rename ρ) := by
  induction params generalizing args frame with
  | nil => simp [bindParams, Except.map]
  | cons p params ih =>
    cases args with
    | nil => simp [bindParams, Except.map]
    | cons a args =>
      simp only [List.map_cons, bindParams, Value.symbol?_rename]
      cases p.symbol? with
      | some name =>
        dsimp only
        rw [bind_rename, ih]
      | none => simp [Except.map]

theorem ofParams_rename (params args : List Value) :
    ofParams (params.map (Value.rename ρ)) (args.map (Value.rename ρ)) =
      (ofParams params args).map (rename ρ) := by
  unfold ofParams
  rw [List.length_map, List.length_map]
  split_ifs
  · exact bindParams_rename ρ params args []
  · rfl

/-- The frame of a call binds names of parameters to arguments. -/
theorem forall_ofParams {P : String → Value → Prop} {params args : List Value} {frame : Frame}
    (hframe : ofParams params args = .ok frame)
    (h : ∀ name, .symbol name ∈ params → ∀ a ∈ args, P name a) : ∀ b ∈ frame, P b.1 b.2 := by
  suffices hbind : ∀ start : Frame, (∀ b ∈ start, P b.1 b.2) →
      bindParams params args start = .ok frame → ∀ b ∈ frame, P b.1 b.2 by
    unfold ofParams at hframe
    split_ifs at hframe
    exact hbind [] (by simp) hframe
  clear hframe
  induction params generalizing args with
  | nil =>
    intro start hstart hbind
    cases hbind
    exact hstart
  | cons p params ih =>
    intro start hstart hbind
    cases args with
    | nil =>
      cases hbind
      exact hstart
    | cons a args =>
      cases p with
      | symbol name =>
        have hmore := forall_bind hstart (h name (by simp) a (by simp))
        exact ih (fun n hn a ha => h n (by simp [hn]) a (by simp [ha])) _ hmore hbind
      | _ => cases hbind

end Frame

/-- A value names only frames and closures among the first so many, at any depth. -/
inductive Value.LivesIn (frames closures : ℕ) : Value → Prop
  | atom {v : Value} : v.IsAtom → LivesIn frames closures v
  | list {items : List Value} : (∀ v ∈ items, LivesIn frames closures v) →
      LivesIn frames closures (.list items)
  | vector {items : List Value} : (∀ v ∈ items, LivesIn frames closures v) →
      LivesIn frames closures (.vector items)
  | map {entries : List (Value × Value)} : (∀ e ∈ entries, LivesIn frames closures e.1) →
      (∀ e ∈ entries, LivesIn frames closures e.2) → LivesIn frames closures (.map entries)
  | closure {id : ℕ} {params : List Value} {body : Value} {scope : Scope} : id < closures →
      (∀ p ∈ params, LivesIn frames closures p) → LivesIn frames closures body →
      scope.LivesIn frames → LivesIn frames closures (.closure id params body scope)

namespace Value

variable {frames closures frames' closures' : ℕ} {v : Value}

theorem LivesIn.mono (h : LivesIn frames closures v) (hframes : frames ≤ frames')
    (hclosures : closures ≤ closures') : LivesIn frames' closures' v := by
  induction h with
  | atom h => exact .atom h
  | list _ ih => exact .list ih
  | vector _ ih => exact .vector ih
  | map _ _ ihkeys ihvalues => exact .map ihkeys ihvalues
  | closure hid _ _ hscope ihparams ihbody =>
    exact .closure (hid.trans_le hclosures) ihparams ihbody fun id hid =>
      (hscope id hid).trans_le hframes

theorem LivesIn.items (h : LivesIn frames closures v) {items : List Value}
    (hitems : v.items? = some items) : ∀ item ∈ items, LivesIn frames closures item := by
  cases v with
  | list items =>
    cases hitems
    cases h with
    | list h => exact h
    | atom h => cases h
  | vector items =>
    cases hitems
    cases h with
    | vector h => exact h
    | atom h => cases h
  | _ => cases hitems

/-- Renaming other frames and closures than those that a value names changes nothing in it. -/
theorem LivesIn.rename_eq (h : LivesIn frames closures v) {ρ : Renaming}
    (hframes : ∀ id < frames, ρ.frame id = id) (hclosures : ∀ id < closures, ρ.closure id = id) :
    v.rename ρ = v := by
  have hitems : ∀ items : List Value, (∀ v ∈ items, v.rename ρ = v) →
      items.map (rename ρ) = items := by
    intro items hitems
    rw [List.map_congr_left hitems, List.map_id']
  induction h with
  | atom h => exact rename_of_isAtom h
  | list _ ih => rw [rename_list, hitems _ ih]
  | vector _ ih => rw [rename_vector, hitems _ ih]
  | map _ _ ihkeys ihvalues =>
    rw [rename_map, Dict.rename, List.map_congr_left fun e he => by
      rw [ihkeys e he, ihvalues e he], List.map_id']
  | closure hid _ _ hscope ihparams ihbody =>
    rw [rename_closure, hclosures _ hid, hitems _ ihparams, ihbody, hscope.rename_eq hframes]

@[simp] theorem rename_id (v : Value) : v.rename .id = v := by
  induction v using parts_induction with
  | atom v h => exact rename_of_isAtom h
  | list items ih => rw [rename_list, List.map_congr_left ih, List.map_id']
  | vector items ih => rw [rename_vector, List.map_congr_left ih, List.map_id']
  | map entries ih =>
    rw [rename_map, Dict.rename, List.map_congr_left fun e he => by
      rw [(ih e he).1, (ih e he).2], List.map_id']
  | closure id params body scope ihparams ihbody =>
    rw [rename_closure, List.map_congr_left ihparams, List.map_id', ihbody, Scope.rename_id]
    rfl

end Value

@[simp] theorem Frame.rename_id (frame : Frame) : frame.rename .id = frame := by
  simp [rename]

end MatrixLisp
