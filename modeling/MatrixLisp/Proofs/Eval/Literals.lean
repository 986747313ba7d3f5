import Mathlib.Tactic
import MatrixLisp.Proofs.Eval.Termination

/-!
# Collection literals

The values of a map literal are evaluated in order, each on the machine that the one before it leaves
behind, and the first that fails ends the evaluation. The map is then made again with the keys as they
stand. No two keys of a literal stand for each other, so that no entry is lost or moved. Literals of
numbers and empty lists at any depth are therefore evaluated to themselves.
-/
namespace MatrixLisp

namespace Eval

open Run

/-- Forms are evaluated from left to right, from one machine to another, with these values. -/
inductive InOrder (eval : Evaluator) (scope : Scope) :
    List Value → Machine → List Value → Machine → Prop
  | nil (m : Machine) : InOrder eval scope [] m [] m
  | cons {form v : Value} {forms vs : List Value} {m m₁ m' : Machine} :
      eval form scope m = (.ok v, m₁) → InOrder eval scope forms m₁ vs m' →
      InOrder eval scope (form :: forms) m (v :: vs) m'

variable {eval : Evaluator} {scope : Scope} {m m' : Machine}

/-- Forms that are evaluated to themselves leave the machine as it is. -/
theorem inOrder_self {forms : List Value} (h : ∀ form ∈ forms, eval form scope m = (.ok form, m)) :
    InOrder eval scope forms m forms m := by
  induction forms with
  | nil => exact .nil m
  | cons form rest ih =>
    exact .cons (h form (by simp)) (ih fun form hform => h form (by simp [hform]))

theorem evalEach_eq_ok_iff {forms vs : List Value} :
    evalEach eval scope forms m = (.ok vs, m') ↔ InOrder eval scope forms m vs m' := by
  induction forms generalizing m m' vs with
  | nil =>
    constructor
    · rintro ⟨⟩
      exact .nil _
    · rintro ⟨⟩
      rfl
  | cons form rest ih =>
    simp only [evalEach, bind_eq_ok_iff, ih]
    constructor
    · rintro ⟨v, m₁, hv, vs, m₂, hvs, ⟨⟩⟩
      exact .cons hv hvs
    · rintro (_ | ⟨hv, hvs⟩)
      exact ⟨_, _, hv, _, _, hvs, rfl⟩

/-- The entries that are set have the keys of the literal and the values of its forms. -/
theorem evalEntries_eq_ok_iff {entries d d' : Dict} :
    evalEntries eval scope entries d m = (.ok d', m') ↔
      ∃ added : Dict, added.map Prod.fst = entries.map Prod.fst ∧
        InOrder eval scope (entries.map Prod.snd) m (added.map Prod.snd) m' ∧
        d' = added.foldl (fun d e => d.insert e.1 e.2) d := by
  induction entries generalizing m d with
  | nil =>
    constructor
    · rintro ⟨⟩
      exact ⟨[], rfl, .nil _, rfl⟩
    · rintro ⟨added, hkeys, hvalues, rfl⟩
      obtain rfl := List.map_eq_nil_iff.mp hkeys
      cases hvalues
      rfl
  | cons e rest ih =>
    simp only [evalEntries, bind_eq_ok_iff, ih]
    constructor
    · rintro ⟨v, m₁, hv, added, hkeys, hvalues, rfl⟩
      exact ⟨(e.1, v) :: added, congrArg (e.1 :: ·) hkeys, .cons hv hvalues, rfl⟩
    · rintro ⟨_ | ⟨⟨key, v⟩, added⟩, hkeys, hvalues, rfl⟩
      · cases hkeys
      · obtain ⟨rfl, hrest⟩ := List.cons.inj hkeys
        obtain _ | ⟨hv, hvalues⟩ := hvalues
        exact ⟨v, _, hv, added, hrest, hvalues, rfl⟩

/-- A failure is that of a value behind others which did not fail. -/
theorem evalEntries_eq_error_iff {entries d : Dict} {h : Halt} :
    evalEntries eval scope entries d m = (.error h, m') ↔
      ∃ front e back vs m₁, entries = front ++ e :: back ∧
        InOrder eval scope (front.map Prod.snd) m vs m₁ ∧ eval e.2 scope m₁ = (.error h, m') := by
  induction entries generalizing m d with
  | nil => simp [evalEntries, pure_apply]
  | cons e rest ih =>
    simp only [evalEntries, bind_eq_error_iff, ih]
    constructor
    · rintro (hfail | ⟨v, m₁, hv, front, e', back, vs, m₂, rfl, hvalues, hfail⟩)
      · exact ⟨[], e, rest, [], m, rfl, .nil m, hfail⟩
      · exact ⟨e :: front, e', back, v :: vs, m₂, rfl, .cons hv hvalues, hfail⟩
    · rintro ⟨_ | ⟨_, front⟩, e', back, vs, m₂, heq, hvalues, hfail⟩
      · cases heq
        cases hvalues
        exact .inl hfail
      · cases heq
        obtain _ | ⟨hv, hvalues⟩ := hvalues
        exact .inr ⟨_, _, hv, front, e', back, _, m₂, rfl, hvalues, hfail⟩

/-! ## Maps -/

section Map

variable {n : ℕ} {entries : Dict}

theorem evalDepth_map (n : ℕ) (entries : Dict) (scope : Scope) :
    evalDepth (n + 1) (.map entries) scope =
      evalEntries (evalDepth n) scope entries [] >>= fun d => pure (.map d) := rfl

/-- A map literal has its own keys in their order, with the values of its forms. -/
theorem evalDepth_map_eq_ok_iff (h : entries.Distinct) {v : Value} :
    evalDepth (n + 1) (.map entries) scope m = (.ok v, m') ↔
      ∃ d : Dict, v = .map d ∧ d.map Prod.fst = entries.map Prod.fst ∧
        InOrder (evalDepth n) scope (entries.map Prod.snd) m (d.map Prod.snd) m' := by
  simp only [evalDepth_map, bind_eq_ok_iff, evalEntries_eq_ok_iff]
  constructor
  · rintro ⟨_, m₁, ⟨d, hkeys, hvalues, rfl⟩, ⟨⟩⟩
    exact ⟨d, congrArg Value.map (Dict.ofList_of_distinct (h.of_keys hkeys)), hkeys, hvalues⟩
  · rintro ⟨d, rfl, hkeys, hvalues⟩
    exact ⟨d, m', ⟨d, hkeys, hvalues, (Dict.ofList_of_distinct (h.of_keys hkeys)).symm⟩, rfl⟩

theorem evalDepth_map_eq_error_iff {h : Halt} :
    evalDepth (n + 1) (.map entries) scope m = (.error h, m') ↔
      ∃ front e back vs m₁, entries = front ++ e :: back ∧
        InOrder (evalDepth n) scope (front.map Prod.snd) m vs m₁ ∧
        evalDepth n e.2 scope m₁ = (.error h, m') := by
  rw [evalDepth_map, bind_eq_error_iff, evalEntries_eq_error_iff, or_iff_left]
  rintro ⟨_, _, _, hpure⟩
  cases hpure

end Map

/-! ## Data -/

/-- Numbers and empty lists, vectors of data, and maps to data under any keys. -/
inductive IsData : Value → Prop
  | number (n : Number) : IsData (.number n)
  | empty : IsData (.list [])
  | vector {items : List Value} : (∀ v ∈ items, IsData v) → IsData (.vector items)
  | map {entries : Dict} : (∀ e ∈ entries, IsData e.2) → IsData (.map entries)

/-- Data in which no map repeats a key is evaluated to itself, and nothing else happens. -/
theorem IsData.evalDepth_eq {v : Value} (hdata : IsData v) (hv : v.WellFormed) {n : ℕ}
    (hn : v.depth ≤ n) (scope : Scope) (m : Machine) : evalDepth n v scope m = (.ok v, m) := by
  induction n generalizing v with
  | zero => exact absurd hn (Nat.not_le.mpr v.depth_pos)
  | succ n ih =>
    cases hdata with
    | number | empty => rfl
    | @vector items hdata =>
      have hdepth : Value.depthItems items ≤ n := Nat.le_of_succ_le_succ hn
      have hitems : InOrder (evalDepth n) scope items m items m := inOrder_self fun w hw =>
        ih (hdata w hw) (hv.items rfl w hw) ((Value.depth_le_depthItems hw).trans hdepth)
      exact bind_apply_of_ok _ (evalEach_eq_ok_iff.mpr hitems)
    | @map entries hdata =>
      have hdepth : Value.depthEntries entries ≤ n := Nat.le_of_succ_le_succ hn
      obtain ⟨hdistinct, hvalues⟩ := hv.entries
      refine (evalDepth_map_eq_ok_iff hdistinct).mpr ⟨entries, rfl, rfl, inOrder_self ?_⟩
      intro w hw
      obtain ⟨e, he, rfl⟩ := List.mem_map.mp hw
      exact ih (hdata e he) (hvalues e he) ((Value.depth_le_depthEntries he).trans hdepth)

/-- A map that is read has after evaluation the same keys in the same order, not evaluated, each with
the value of its form; or the first form that fails decides the failure. Data that is read is evaluated
to itself on any machine, which stays as it is. -/
theorem evalDepth_literal :
    (∀ entries, Reader.IsForm (.map entries) → ∀ (n : ℕ) (scope : Scope) (m : Machine),
      (∀ v m', evalDepth (n + 1) (.map entries) scope m = (.ok v, m') ↔
        ∃ d : Dict, v = .map d ∧ d.map Prod.fst = entries.map Prod.fst ∧
          InOrder (evalDepth n) scope (entries.map Prod.snd) m (d.map Prod.snd) m') ∧
      ∀ h m', evalDepth (n + 1) (.map entries) scope m = (.error h, m') ↔
        ∃ front e back vs m₁, entries = front ++ e :: back ∧
          InOrder (evalDepth n) scope (front.map Prod.snd) m vs m₁ ∧
          evalDepth n e.2 scope m₁ = (.error h, m')) ∧
    ∀ v, Reader.IsForm v → IsData v → ∀ n, v.depth ≤ n → ∀ (scope : Scope) (m : Machine),
      evalDepth n v scope m = (.ok v, m) := by
  refine ⟨fun entries hform n scope m => ⟨fun v m' => ?_, fun h m' => ?_⟩, ?_⟩
  · exact evalDepth_map_eq_ok_iff hform.wellFormed.entries.1
  · exact evalDepth_map_eq_error_iff
  · exact fun v hform hdata n hn scope m => hdata.evalDepth_eq hform.wellFormed hn scope m

/-- Under its keys, this map holds a vector, a fraction and a map. One key is a call, which is not made. -/
theorem evalDepth_literal_nested : ∃ entries : Dict,
    Reader.Reads "\x7bk [1 ()] (f x) 2/4 [] \x7by -5\x7d\x7d" [.map entries] ∧
      entries.map Prod.fst = [.symbol "k", .list [.symbol "f", .symbol "x"], .vector []] ∧
      ∀ (scope : Scope) (m : Machine),
        (∀ v m', evalDepth 3 (.map entries) scope m = (.ok v, m') ↔
          ∃ d : Dict, v = .map d ∧ d.map Prod.fst = entries.map Prod.fst ∧
            InOrder (evalDepth 2) scope (entries.map Prod.snd) m (d.map Prod.snd) m') ∧
        evalDepth 3 (.map entries) scope m = (.ok (.map entries), m) := by
  let entries : Dict := [(.symbol "k", .vector [.int 1, .list []]),
    (.list [.symbol "f", .symbol "x"], .number (.rational ⟨1, 2⟩)),
    (.vector [], .map [(.symbol "y", .int (-5))])]
  have hreads : Reader.Reads "\x7bk [1 ()] (f x) 2/4 [] \x7by -5\x7d\x7d" [.map entries] := by
    unfold entries
    cbv
  have hform : Reader.IsForm (.map entries) := ⟨_, _, hreads, by simp⟩
  have hdata : IsData (.map entries) := by
    refine .map fun e he => ?_
    simp only [entries, List.mem_cons, List.not_mem_nil, or_false] at he
    rcases he with rfl | rfl | rfl
    · exact .vector (by simp [IsData.number, IsData.empty])
    · exact .number _
    · exact .map (by simp [IsData.number])
  have hdepth : (Value.map entries).depth ≤ 3 := by decide
  obtain ⟨hmap, hself⟩ := evalDepth_literal
  exact ⟨entries, hreads, rfl, fun scope m =>
    ⟨(hmap entries hform 2 scope m).1, hself _ hform hdata 3 hdepth scope m⟩⟩

end Eval

end MatrixLisp
