import Mathlib.Tactic
import MatrixLisp.Proofs.Builtin.Effects

/-!
# Depth does not change results

An evaluation that does not go too deep is the same at every greater depth: the two are coupled on
one machine. So a program that ends has one outcome, which is found at some depth and at all greater
ones.
-/
namespace MatrixLisp

namespace Coupling

/-- A machine, as long as its source of random numbers is as described, with itself. -/
def diagonal (R : Source → Prop) (lenient : Prop) : Coupling where
  names := .id
  Related m m' := m' = m ∧ R m.random
  IsForm _ _ := True
  IsValue _ _ := True
  IsScope _ _ := True
  lenient := lenient

theorem lawful_diagonal (R : Source → Prop) (lenient : Prop) : (diagonal R lenient).Lawful where
  form_mono _ _ := trivial
  value_mono _ _ := trivial
  scope_mono _ _ := trivial
  form_items _ _ _ _ := trivial
  form_entries _ _ _ := ⟨trivial, trivial⟩
  value_of_form _ := trivial
  value_of_atom _ := trivial
  value_list _ := trivial
  value_vector _ := trivial
  value_map _ := trivial
  value_closure _ := ⟨fun _ _ => trivial, trivial, trivial⟩
  find? := by
    rintro m m' scope name ⟨rfl, -⟩ - -
    refine ⟨?_, fun _ _ => trivial⟩
    have hnames : Value.rename .id = id := funext Value.rename_id
    simp [diagonal, hnames]
  related_bind := by
    rintro m m' scope name value ⟨rfl, hR⟩ - - -
    refine ⟨?_, hR⟩
    simp [diagonal]
  related_push := by
    rintro m m' scope frame ⟨rfl, hR⟩ - -
    refine ⟨⟨?_, hR⟩, rfl, trivial⟩
    simp [diagonal]
  related_closure := by
    rintro m m' params body scope ⟨rfl, hR⟩ - - -
    exact ⟨⟨rfl, hR⟩, rfl, trivial⟩

/-- A builtin keeps the source of random numbers as described if it does not draw, or if every
source is. -/
theorem couples_call_diagonal {R : Source → Prop} {lenient : Prop} (b : Builtin)
    (h : ¬b.Draws ∨ ∀ source, R source) (m : Machine) (args : List Value) :
    (diagonal R lenient).Couples m (Value.rename (diagonal R lenient).names)
      (diagonal R lenient).IsValue (b.call args)
      (b.call (args.map (Value.rename (diagonal R lenient).names))) := by
  refine (lawful_diagonal R lenient).couples_call b (fun _ _ => trivial) ?_
  rintro m' ⟨rfl, hR⟩
  refine ⟨rfl, fun text source hsource => ⟨rfl, ?_⟩⟩
  rcases h with hdraws | hall
  · rw [← hsource.resolve_right hdraws] at hR
    exact hR
  · exact hall source

section

variable {m : Machine} {P : Machine → Value → Prop} {x y : Run Value}

/-- Runs that are coupled without other names give the same, unless the coupling is lenient and the
first goes too deep. -/
theorem Couples.result_eq {c : Coupling} (h : c.Couples m (Value.rename c.names) P x y)
    (hnames : c.names = .id) {m' : Machine} (hm : c.Related m m')
    (hdeep : ¬(c.lenient ∧ (x m).1 = .error .tooDeep)) :
    (y m').1 = (x m).1 ∧ c.Related (x m).2 (y m').2 ∧
      Outcome (P (x m).2) (fun _ => True) (x m).1 := by
  have hid : Value.rename c.names = id := funext fun v => by rw [hnames, Value.rename_id, id]
  obtain ⟨-, hrelated, hresult, houtcome⟩ := (h m' hm).resolve_left hdeep
  rw [hid, Except.map_id] at hresult
  exact ⟨hresult, hrelated, houtcome⟩

/-- Runs are the same if a coupling of machines with themselves holds between them, unless it is
lenient and the first goes too deep. -/
theorem Couples.same {c : Coupling} (h : c.Couples m (Value.rename c.names) P x y)
    (hnames : c.names = .id) (hsame : ∀ m m', c.Related m m' → m' = m) (hm : c.Related m m)
    (hdeep : ¬(c.lenient ∧ (x m).1 = .error .tooDeep)) :
    y m = x m ∧ c.Related (x m).2 (x m).2 ∧ Outcome (P (x m).2) (fun _ => True) (x m).1 := by
  obtain ⟨hresult, hrelated, houtcome⟩ := h.result_eq hnames hm hdeep
  have hmachine := hsame _ _ hrelated
  rw [hmachine] at hrelated
  exact ⟨Prod.ext hresult hmachine, hrelated, houtcome⟩

/-- Runs that are coupled on one machine are the same, unless the first goes too deep. -/
theorem Couples.eq_of_diagonal {R : Source → Prop} {lenient : Prop}
    (h : (diagonal R lenient).Couples m (Value.rename (diagonal R lenient).names) P x y)
    (hR : R m.random) (hdeep : (x m).1 ≠ .error .tooDeep) : y m = x m :=
  (h.same rfl (fun _ _ hrelated => hrelated.1) ⟨rfl, hR⟩ fun htoo => hdeep htoo.2).1

end

end Coupling

/-- From some depth on, a run ends always alike and does not go too deep. -/
def Run.Settles {α : Type} (x : ℕ → Run α) (m : Machine) (outcome : Except Halt α × Machine) :
    Prop :=
  outcome.1 ≠ .error .tooDeep ∧ ∃ n, ∀ k, n ≤ k → x k m = outcome

/-- It does not matter if one run always needs a depth more than the other. -/
theorem Run.settles_succ_iff {α : Type} {x y : ℕ → Run α} {m : Machine}
    (h : ∀ n, x (n + 1) m = y n m) {outcome : Except Halt α × Machine} :
    Settles x m outcome ↔ Settles y m outcome := by
  constructor
  · rintro ⟨hdeep, n, hn⟩
    refine ⟨hdeep, n, fun k hk => ?_⟩
    rw [← h, hn (k + 1) (hk.trans (Nat.le_succ k))]
  · rintro ⟨hdeep, n, hn⟩
    refine ⟨hdeep, n + 1, fun k hk => ?_⟩
    cases k with
    | zero => exact absurd hk (Nat.not_succ_le_zero n)
    | succ k => rw [h, hn k (Nat.le_of_succ_le_succ hk)]

namespace Eval

open Coupling

/-- At a greater depth, an evaluation that did not go too deep is the same. -/
theorem evalDepth_of_le {n k : ℕ} (h : n ≤ k) {form : Value} {scope : Scope} {m : Machine}
    (hdeep : (evalDepth n form scope m).1 ≠ .error .tooDeep) :
    evalDepth k form scope m = evalDepth n form scope m := by
  have hcalls : (diagonal (fun _ => True) True).Calls Builtin.call Builtin.call :=
    fun m b args _ => couples_call_diagonal b (.inr fun _ => trivial) m args
  have heval := evals_evalDepthWith (lawful_diagonal ..) hcalls (.inr ⟨trivial, h⟩) m scope form
    trivial trivial
  have hsame := heval.eq_of_diagonal trivial hdeep
  simp only [diagonal, Value.rename_id, Scope.rename_id] at hsame
  exact hsame

theorem settles_evalDepth {n : ℕ} {form : Value} {scope : Scope} {m : Machine}
    (hdeep : (evalDepth n form scope m).1 ≠ .error .tooDeep) :
    Run.Settles (fun k => evalDepth k form scope) m (evalDepth n form scope m) :=
  ⟨hdeep, n, fun _ hk => evalDepth_of_le hk hdeep⟩

end Eval

end MatrixLisp
